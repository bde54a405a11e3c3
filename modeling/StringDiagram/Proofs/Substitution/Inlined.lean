import Mathlib.Data.List.Forall2
import StringDiagram.Substitution
import StringDiagram.Proofs.Diagram.Spliced
import StringDiagram.Proofs.Store.Held

/-! # What substitution does to a store

Substituting one diagram into another never fails if the inserted diagram has no wire that leaves its
output boundary or enters its input boundary. `Inlined` says what the host is then: the boxes that were
there but one, the boxes that came in under the next identifiers, and the wires as they were spliced. -/
namespace StringDiagram
open Diagram Network

namespace Diagram

def withBoxes (d : Diagram) (boxes : List Value) : Diagram := boxes.foldl addBox d

/-- The identifiers under which the boxes of `e` come into `d`. -/
def inserted (d e : Diagram) : IdMap := e.boxes.keys.zip (List.range' d.next e.boxes.length)

theorem boxes_withBoxes (d : Diagram) (boxes : List Value) :
    (d.withBoxes boxes).boxes = d.boxes ++ (List.range' d.next boxes.length).zip boxes := by
  induction boxes generalizing d with
  | nil => simp [withBoxes]
  | cons b boxes ih =>
    rw [withBoxes, List.foldl_cons, ← withBoxes, ih, List.length_cons, List.range'_succ,
      List.zip_cons_cons]
    simp [addBox]

theorem next_withBoxes (d : Diagram) (boxes : List Value) :
    (d.withBoxes boxes).next = d.next + boxes.length := by
  induction boxes generalizing d with
  | nil => rfl
  | cons b boxes ih =>
    rw [withBoxes, List.foldl_cons, ← withBoxes, ih, List.length_cons]
    change d.next + 1 + _ = _
    omega

theorem Consistent.withBoxes {d : Diagram} (hd : d.Consistent) (boxes : List Value) :
    (d.withBoxes boxes).Consistent := by
  induction boxes generalizing d with
  | nil => exact hd
  | cons b boxes ih => exact ih (hd.addBox b)

theorem edges_withBoxes (d : Diagram) (boxes : List Value) : (d.withBoxes boxes).edges = d.edges := by
  induction boxes generalizing d with
  | nil => rfl
  | cons b boxes ih => exact ih (d.addBox b)

theorem withBoxes_frame (d : Diagram) (boxes : List Value) : (d.withBoxes boxes).wires = d.wires ∧
    (d.withBoxes boxes).inputs = d.inputs ∧ (d.withBoxes boxes).outputs = d.outputs := by
  induction boxes generalizing d with
  | nil => exact ⟨rfl, rfl, rfl⟩
  | cons b boxes ih => exact ih (d.addBox b)

theorem live_withBoxes (d : Diagram) (boxes : List Value) :
    (d.withBoxes boxes).live = d.live ++ List.range' d.next boxes.length := by
  rw [live, boxes_withBoxes, Table.keys_append, live, Table.keys, Table.keys,
    List.map_fst_zip (by simp)]
  rfl

/-- A box stays where more come in. -/
theorem mem_keys_withBoxes {d : Diagram} {v : Nat} (hv : v ∈ d.boxes.keys) (held : List Value) :
    v ∈ (d.withBoxes held).boxes.keys := by
  rw [boxes_withBoxes, Table.keys_append]
  exact List.mem_append_left _ hv

/-- Boxes that come in later have other identifiers. -/
theorem Consistent.not_mem_range' {d : Diagram} (hd : d.Consistent) {v : Nat} (hv : v ∈ d.boxes.keys)
    (held : List Value) : v ∉ Table.keys ((List.range' d.next held.length).zip held) := by
  rw [Table.keys, List.map_fst_zip (by simp), List.mem_range'_1]
  have hlt := hd.below_next v (Consistent.box_live hv)
  omega

end Diagram

theorem Table.get?_zip {κ α : Type} [DecidableEq κ] {ks : List κ} {as : List α} (hk : ks.Nodup)
    (hl : ks.length ≤ as.length) {i : Nat} {k : κ} {a : α} (hi : ks[i]? = some k) (ha : as[i]? = some a) :
    Table.get? (ks.zip as) k = some a := by
  refine Table.get?_of_mem ?_ ?_
  · rwa [Table.keys, List.map_fst_zip hl]
  · have hz : (ks.zip as)[i]? = some (k, a) := List.getElem?_zip_eq_some.mpr ⟨hi, ha⟩
    exact List.mem_of_getElem? hz

/-- A box came into the host as `b'`, when nothing but the host had changed, and that not in its rows. -/
def Store.Entered (s : Store) (host : Ref) (d : Diagram) (s' : Store) (b b' : Value) : Prop :=
  ∃ t d₁, Frame host s t ∧ t.diagram? host = some d₁ ∧ d₁.inputs = d.inputs ∧ d₁.outputs = d.outputs ∧
    Frame host t s' ∧ t.Held b s' b'

namespace Store.Entered
variable {s s' s₀ : Store} {host : Ref} {d d₀ : Diagram} {b b' : Value}

theorem after (h : s.Entered host d s₀ b b') (hf : Frame host s₀ s') : s.Entered host d s' b b' := by
  obtain ⟨t, d₁, ht, hd₁, hi, ho, hf', hheld⟩ := h
  exact ⟨t, d₁, ht, hd₁, hi, ho, hf'.trans hf, hheld.after hf (lt_of_diagram? hd₁)⟩

/-- It is held as it was in any store since which only the host has changed. -/
theorem held (h : s.Entered host d s' b b') (hd₀ : s₀.diagram? host = some d₀) (hf : Frame host s₀ s)
    (hb : s₀.Apart host b) : s₀.Held b s' b' := by
  obtain ⟨t, -, ht, -, -, -, -, hheld⟩ := h
  exact hheld.before (hf.trans ht) hd₀ hb

end Store.Entered

/-- The boxes came into the host one after the other, with nothing else changed between them. -/
inductive Store.Brought (host : Ref) : Store → List Value → Store → List Value → Prop
  | nil {s t : Store} (h : Frame host s t) : Brought host s [] t []
  | cons {s s₁ s₂ t : Store} {b b' : Value} {bs held : List Value}
    (h : (Action.copyBox b).perform s = (.ok b', s₁)) (hf : Frame host s₁ s₂)
    (hrest : Brought host s₂ bs t held) : Brought host s (b :: bs) t (b' :: held)

theorem Store.Brought.after {host : Ref} {s t t' : Store} {bs held : List Value}
    (h : s.Brought host bs t held) (hf : Frame host t t') : s.Brought host bs t' held := by
  induction h with
  | nil h => exact .nil (h.trans hf)
  | cons h hf' _ ih => exact .cons h hf' (ih hf)

namespace Action
variable {s : Store} {host : Ref} {d : Diagram}

theorem copyBox_spec (s : Store) (b : Value) : ∃ b' os,
    (copyBox b).perform s = (.ok b', { s with objects := s.objects ++ os }) ∧
      s.Held b { s with objects := s.objects ++ os } b' := by
  cases hb : s.asDiagram? b with
  | none =>
    refine ⟨b, [], ?_, .of_not_diagram hb⟩
    simp [copyBox, perform_bind, hb]
  | some found =>
    cases b with
    | ref r =>
      obtain ⟨e, he, hfound⟩ := Option.map_eq_some_iff.mp hb
      have hcopy := (Store.held_of_diagram he).mpr (Store.isCopy_copy (Store.lt_of_diagram? he))
      refine ⟨.ref (s.copy r).1, s.copies (s.reachable r), ?_, hcopy⟩
      simp only [copyBox, perform_bind, perform_get, hb, ← hfound]
      rfl
    | _ => cases hb

/-- Every box comes in under the next identifier, as it is when its turn comes. -/
theorem insertBoxes_held (hd : s.diagram? host = some d) (bs : Table Nat Value) :
    ∃ s' held, (insertBoxes host bs).perform s =
        (.ok (bs.keys.zip (List.range' d.next bs.length)), s') ∧
      s'.diagram? host = some (d.withBoxes held) ∧ s'.notes = s.notes ∧ Store.Frame host s s' ∧
      held.length = bs.length ∧ List.Forall₂ (s.Entered host d s') bs.values held ∧
      s.Brought host bs.values s' held := by
  induction bs generalizing s d with
  | nil => exact ⟨s, [], rfl, hd, rfl, .refl host s, rfl, .nil, .nil (.refl host s)⟩
  | cons e bs ih =>
    obtain ⟨b', os, hcopy, hheld⟩ := copyBox_spec s e.2
    let s₁ : Store := { s with objects := s.objects ++ os }
    let s₂ : Store := { s₁ with objects := s₁.objects.set host (.diagram (d.addBox b')) }
    have hf₁ : Store.Frame host s s₁ := .of_append rfl
    have hf₂ : Store.Frame host s₁ s₂ := .of_set rfl
    have hd₁ : s₁.diagram? host = some d := by
      rw [Store.diagram?_eq_some] at hd ⊢
      rw [List.getElem?_append_left (List.getElem?_eq_some_iff.mp hd).1, hd]
    obtain ⟨s', held, hrest, hd', hnotes, hf', hl, hall, hbrought⟩ :=
      ih (Store.diagram?_set hd₁ (d.addBox b'))
    refine ⟨s', b' :: held, ?_, hd', hnotes, hf₁.trans (hf₂.trans hf'), by simp [hl], .cons ?_ ?_,
      .cons hcopy hf₂ hbrought⟩
    · rw [insertBoxes, perform_bind, hcopy]
      dsimp only
      rw [perform_bind, perform_insertBox hd₁]
      dsimp only
      rw [perform_bind, hrest]
      simp [List.range'_succ]
      rfl
    · exact ⟨s, d, .refl host s, hd, rfl, rfl, hf₁.trans (hf₂.trans hf'),
        hheld.after (hf₂.trans hf') (Store.lt_of_diagram? hd)⟩
    · exact hall.imp fun b b' ⟨t, d₁, hf, h⟩ => ⟨t, d₁, hf₁.trans (hf₂.trans hf), h⟩

end Action

def Diagram.Directed (e : Diagram) : Prop :=
  ∀ w ∈ e.wires, w.source.isOn outputId = false ∧ w.target.isOn inputId = false

def Diagram.network (d e : Diagram) : Multiset (Node × Node) := d.wires.map (arrow 0) + e.wires.map (arrow 1)

theorem Diagram.mem_layer {ws : List Wire} {i : Nat} {a : Node × Node} :
    a ∈ (ws.map (arrow i) : Multiset (Node × Node)) ↔ ∃ w ∈ ws, arrow i w = a :=
  Multiset.mem_coe.trans List.mem_map

theorem Diagram.mem_network {d e : Diagram} {a : Node × Node} : a ∈ d.network e ↔
    (∃ w ∈ d.wires, arrow 0 w = a) ∨ ∃ w ∈ e.wires, arrow 1 w = a := by
  rw [network, Multiset.mem_add, mem_layer, mem_layer]

/-- The walks from wire to wire through the boundary of `e` in the place of box `v`. -/
def Diagram.walks (d e : Diagram) (v : Nat) : Multiset (Node × Node) :=
  absorb (meets v 0 1) (d.wires.map (arrow 0)) (e.wires.map (arrow 1))

def Diagram.spliced (d e : Diagram) (v : Nat) : Multiset Wire :=
  (view (inserted d e) (d.walks e v)).filter fun w => (!w.source.isOn v && !w.target.isOn v) = true

structure Inlined (s s' : Store) (host : Ref) (v : Nat) (d e d' : Diagram) : Prop where
  found : s'.diagram? host = some d'
  consistent : d'.Consistent
  frame : Store.Frame host s s'
  notes : s'.notes = s.notes ++ [.substituting v (inserted d e)]
  inputs : d'.inputs = d.inputs
  outputs : d'.outputs = d.outputs
  next : d'.next = d.next + e.boxes.length
  boxes : ∃ held, d'.boxes = d.boxes.remove v ++ (List.range' d.next e.boxes.length).zip held ∧
    held.length = e.boxes.length ∧ (∀ s₀ d₀, s₀.diagram? host = some d₀ → Store.Frame host s₀ s →
      List.Forall₂ (fun b b' => s₀.Apart host b → s₀.Held b s' b') e.boxes.values held) ∧
    s.Brought host e.boxes.values s' held
  wires : (d'.wires : Multiset Wire) = d.spliced e v

namespace Inlined
variable {s s' : Store} {host : Ref} {v : Nat} {d e d' : Diagram}

theorem keys (h : Inlined s s' host v d e d') : d'.boxes.keys =
    d.boxes.keys.filter (fun u => !decide (u = v)) ++ List.range' d.next e.boxes.length := by
  obtain ⟨held, hb, hl, -⟩ := h.boxes
  have hz : ((List.range' d.next e.boxes.length).zip held).map Prod.fst =
      List.range' d.next e.boxes.length := List.map_fst_zip (by simp [hl])
  rw [hb, Table.keys_append, Table.keys_remove]
  exact congrArg _ hz

/-- The other boxes of the host stay. -/
theorem get?_old (h : Inlined s s' host v d e d') {n : Nat} (hn : n ∈ d.boxes.keys) (hne : n ≠ v) :
    d'.boxes.get? n = d.boxes.get? n := by
  obtain ⟨held, hb, -⟩ := h.boxes
  obtain ⟨b, hg⟩ := Table.exists_get? hn
  rw [hb, Table.get?_append, Table.get?_remove, if_neg hne.symm, hg, Option.some_or]

/-- The boxes that came in are in their order. -/
theorem get?_held (hcd : d.Consistent) {held : List Value} (hb : d'.boxes = d.boxes.remove v ++
    (List.range' d.next e.boxes.length).zip held) (hl : held.length = e.boxes.length) {i : Nat} {b' : Value}
    (hi : held[i]? = some b') : d'.boxes.get? (d.next + i) = some b' := by
  have hlt : i < e.boxes.length := hl ▸ (List.getElem?_eq_some_iff.mp hi).1
  have hold : (d.boxes.remove v).get? (d.next + i) = none := by
    rw [Table.get?_eq_none, Table.keys_remove]
    intro hmem
    have hbelow := hcd.below_next _ (Consistent.box_live (List.mem_filter.mp hmem).1)
    omega
  rw [hb, Table.get?_append, hold, Option.none_or]
  refine Table.get?_zip List.nodup_range' (by simp [hl]) ?_ hi
  rw [List.getElem?_range' hlt, Nat.one_mul]

theorem get?_new (h : Inlined s s' host v d e d') (hcd : d.Consistent) {i : Nat} {b : Value}
    (hi : e.boxes.values[i]? = some b) : ∃ b', d'.boxes.get? (d.next + i) = some b' ∧
      ∀ s₀ d₀, s₀.diagram? host = some d₀ → Store.Frame host s₀ s → s₀.Apart host b → s₀.Held b s' b' := by
  obtain ⟨held, hb, hl, hheld, -⟩ := h.boxes
  obtain ⟨hlen, rfl⟩ := List.getElem?_eq_some_iff.mp hi
  have hlt : i < e.boxes.length := by
    have h := hlen
    rwa [Table.values, List.length_map] at h
  exact ⟨held.get ⟨i, hl ▸ hlt⟩, get?_held hcd hb hl (List.getElem?_eq_getElem (hl ▸ hlt)),
    fun s₀ d₀ hd₀ hf => (hheld s₀ d₀ hd₀ hf).get hlen (hl ▸ hlt)⟩

theorem mem_keys (h : Inlined s s' host v d e d') {n : Nat} : n ∈ d'.boxes.keys ↔
    (n ∈ d.boxes.keys ∧ n ≠ v) ∨ (d.next ≤ n ∧ n < d.next + e.boxes.length) := by
  simp [h.keys, List.mem_range'_1]

/-- A box comes in as it was in any store since which only the host has changed. -/
theorem heldAt_new (h : Inlined s s' host v d e d') (hcd : d.Consistent) {s₀ : Store} {d₀ : Diagram}
    (hd₀ : s₀.diagram? host = some d₀) (hf : Store.Frame host s₀ s) {i u : Nat} {b : Value}
    (hi : e.boxes[i]? = some (u, b)) (ha : s₀.Apart host b) : s₀.HeldAt b s' d' (d.next + i) := by
  obtain ⟨b', hb', hheld⟩ := h.get?_new hcd (Table.value_of_getElem? hi)
  exact ⟨b', hb', hheld s₀ d₀ hd₀ hf ha⟩

/-- What was held in the host stays so. -/
theorem heldAt_old (h : Inlined s s' host v d e d') {s₀ : Store} {b : Value} {n : Nat}
    (hheld : s₀.HeldAt b s d n) (hne : n ≠ v) (hhost : host < s₀.objects.length) :
    s₀.HeldAt b s' d' n := by
  obtain ⟨b', hb', hheld⟩ := hheld
  exact ⟨b', (h.get?_old (Table.mem_keys_of_get? hb') hne).trans hb', hheld.after h.frame hhost⟩

end Inlined

namespace Diagram
variable {d e : Diagram} {v : Nat}

theorem get?_inserted (he : e.Consistent) {i u : Nat} (hi : e.boxes.keys[i]? = some u) :
    (inserted d e).get? u = some (d.next + i) := by
  have hlt := Table.lt_of_key hi
  refine Table.get?_zip he.boxes_nodup (by simp) hi ?_
  rw [List.getElem?_range' hlt, Nat.one_mul]

theorem keys_inserted (d e : Diagram) : Table.keys (inserted d e) = e.boxes.keys := by
  rw [inserted, Table.keys, List.map_fst_zip (by simp)]

theorem get?_inserted_boundary (he : e.Consistent) :
    (inserted d e).get? inputId = none ∧ (inserted d e).get? outputId = none := by
  constructor
  · rw [Table.get?_eq_none, keys_inserted]
    exact fun h => he.ne_input h rfl
  · rw [Table.get?_eq_none, keys_inserted]
    exact fun h => he.ne_output h rfl

theorem exists_inserted (he : e.Consistent) {u : Nat} (hu : u ∈ e.boxes.keys) :
    ∃ i, i < e.boxes.length ∧ (inserted d e).get? u = some (d.next + i) := by
  obtain ⟨i, hi⟩ := List.mem_iff_getElem?.mp hu
  exact ⟨i, Table.lt_of_key hi, get?_inserted he hi⟩

theorem placed_inserted (hd : d.Consistent) (he : e.Consistent) (hv : v ∈ d.boxes.keys)
    {held : List Value} (hl : held.length = e.boxes.length) {c : Connector} (hc : e.Has c)
    (h0 : c.isOn inputId = false) (h1 : c.isOn outputId = false) :
    Placed (d.withBoxes held) v (inserted d e) c := by
  obtain ⟨u, hu, hb⟩ := hc
  have hu : u ∈ e.boxes.keys := by
    rcases mem_live.mp hu with rfl | rfl | hu
    · simp [Connector.isOn, hb] at h0
    · simp [Connector.isOn, hb] at h1
    · exact hu
  obtain ⟨i, hi, hn⟩ := exists_inserted (d := d) he hu
  have hlt := hd.below_next v (Consistent.box_live hv)
  refine ⟨u, d.next + i, hb, hn, by omega, ?_⟩
  rw [live_withBoxes, List.mem_append, hl]
  exact Or.inr (List.mem_range'_1.mpr ⟨by omega, by omega⟩)

theorem host_apart (d : Diagram) (v : Nat) : ∀ a ∈ (d.wires.map (arrow 0) : Multiset (Node × Node)),
    ∀ b ∈ (d.wires.map (arrow 0) : Multiset (Node × Node)), meets v 0 1 a.2 b.1 = false := by
  intro a ha b hb
  obtain ⟨w, -, rfl⟩ := mem_layer.mp ha
  obtain ⟨x, -, rfl⟩ := mem_layer.mp hb
  rfl

/-- All walks are found, whatever the order of the wires and however they come back to box `v`. -/
theorem covers_walks (d e : Diagram) (v : Nat) :
    Covers (meets v 0 1) (d.network e) (d.walks e v) :=
  (covers_self (host_apart d v)).absorb _

/-- They are found as often as they are there, if they do not run in circles. -/
theorem solves_walks {start finish : Node → Nat} {bound : Nat}
    (hr : Ranked (meets v 0 1) (d.network e) start finish bound) :
    Solves (meets v 0 1) (d.network e) (d.walks e v) :=
  (solves_self (host_apart d v)).absorb (covers_self (host_apart d v)) _ hr

/-- Splicing the boxes of `e` and any of its wires into `d` succeeds, if none of these leaves the output
boundary or enters the input boundary. -/
theorem exists_splice_directed (hd : d.Consistent) (he : e.Consistent) (hv : v ∈ d.boxes.keys)
    {held : List Value} (hl : held.length = e.boxes.length) {ws : List Wire} (hws : ∀ w ∈ ws,
      w ∈ e.wires ∧ w.source.isOn outputId = false ∧ w.target.isOn inputId = false) :
    ∃ d', (d.withBoxes held).splice v (inserted d e) ws = (d', none) ∧ d'.Consistent ∧
      (d.withBoxes held).Rewires d' ∧ (d'.wires : Multiset Wire) =
        view (inserted d e) (absorb (meets v 0 1) (d.wires.map (arrow 0)) (ws.map (arrow 1))) := by
  have hlive : v ∈ (d.withBoxes held).live := by
    rw [live_withBoxes]
    exact List.mem_append_left _ (Consistent.box_live hv)
  refine splice_spec (hd.withBoxes held) hlive ?_ ?_ ?_
  · have hview : ∀ ws : List Wire, view (inserted d e) (ws.map (arrow 0)) = (ws : Multiset Wire) := by
      intro ws
      rw [view, ← Multiset.map_coe, Multiset.filter_eq_self.mpr, Multiset.map_map]
      · exact Multiset.map_id _
      · intro a ha
        obtain ⟨w, -, rfl⟩ := Multiset.mem_map.mp ha
        rfl
    rw [hview, (withBoxes_frame d held).1]
  · intro a ha
    obtain ⟨w, -, rfl⟩ := mem_layer.mp ha
    exact ⟨Or.inl rfl, Or.inl rfl⟩
  · intro w hw
    obtain ⟨hw, hs1, ht0⟩ := hws w hw
    obtain ⟨hs, ht⟩ := he.has_ends hw
    constructor
    · refine Or.inr ⟨rfl, ?_⟩
      cases hs0 : w.source.isOn inputId with
      | true => exact Or.inl rfl
      | false => exact Or.inr ⟨rfl, placed_inserted hd he hv hl hs hs0 hs1⟩
    · refine Or.inr ⟨rfl, ?_⟩
      cases ht1 : w.target.isOn outputId with
      | true => exact Or.inl rfl
      | false => exact Or.inr ⟨rfl, placed_inserted hd he hv hl ht ht0 ht1⟩

/-- Splicing the boxes and the wires of `e` into `d` succeeds. -/
theorem exists_splice (hd : d.Consistent) (he : e.Consistent) (hdir : e.Directed)
    (hv : v ∈ d.boxes.keys) {held : List Value} (hl : held.length = e.boxes.length) :
    ∃ d', (d.withBoxes held).splice v (inserted d e) e.wires = (d', none) ∧ d'.Consistent ∧
      (d.withBoxes held).Rewires d' ∧
        (d'.wires : Multiset Wire) = view (inserted d e) (d.walks e v) :=
  exists_splice_directed hd he hv hl fun w hw => ⟨hw, hdir w hw⟩

end Diagram

namespace Action
variable {s : Store} {host inner : Ref} {d e : Diagram} {v : Nat}

/-- The boxes come in and that is noted; then the wires are spliced, and if all of them can be, the box
goes. The inserted diagram may be the host, which has more boxes by then, but the same wires. -/
theorem perform_inline (hd : s.diagram? host = some d) (he : s.diagram? inner = some e) (v : Nat) :
    ∃ s₁ held, s₁.diagram? host = some (d.withBoxes held) ∧
      s₁.notes = s.notes ++ [.substituting v (inserted d e)] ∧ Store.Frame host s s₁ ∧
      held.length = e.boxes.length ∧ List.Forall₂ (s.Entered host d s₁) e.boxes.values held ∧
      s.Brought host e.boxes.values s₁ held ∧
      (inline host v inner).perform s =
        match (d.withBoxes held).splice v (inserted d e) e.wires with
        | (d₂, some fault) => (.error fault, { s₁ with objects := s₁.objects.set host (.diagram d₂) })
        | (d₂, none) => (do let _ ← removeBox host (.ofNat v) : Action Unit).perform
            { s₁ with objects := s₁.objects.set host (.diagram d₂) } := by
  obtain ⟨s₁, held, hins, hd₁, hnotes, hf, hl, hheld, hbrought⟩ := insertBoxes_held hd e.boxes
  let s₂ : Store := { s₁ with notes := s₁.notes ++ [.substituting v (inserted d e)] }
  have hf₂ : Store.Frame host s₁ s₂ := .of_append (List.append_nil _).symm
  have hd₂ : s₂.diagram? host = some (d.withBoxes held) := hd₁
  have he₂ : ∃ e', s₂.diagram? inner = some e' ∧ e'.wires = e.wires := by
    rcases eq_or_ne inner host with rfl | hne
    · obtain rfl : d = e := Option.some.inj (hd.symm.trans he)
      exact ⟨_, hd₂, (withBoxes_frame d held).1⟩
    · exact ⟨e, hf.diagram? hne he, rfl⟩
  obtain ⟨e', he₂, hwires⟩ := he₂
  refine ⟨s₂, held, hd₂, ?_, hf.trans hf₂, hl, hheld.imp fun b b' h => h.after hf₂, hbrought.after hf₂, ?_⟩
  · change s₁.notes ++ _ = _
    rw [hnotes]
  · rw [inline, perform_bind, perform_diagram he]
    dsimp only
    rw [perform_bind, show (insertBoxes host e.boxes).perform s = (.ok (inserted d e), s₁) from hins]
    dsimp only
    rw [perform_bind, perform_note]
    dsimp only
    rw [perform_bind, perform_diagram he₂]
    dsimp only
    rw [perform_bind, perform_diagram hd₂]
    dsimp only
    rw [hwires]
    rcases (d.withBoxes held).splice v (inserted d e) e.wires with ⟨d₂, _ | fault⟩
    · rw [perform_bind, perform_replace]
    · rw [perform_bind, perform_replace]
      rfl

/-- The last step: the box goes from the host. -/
theorem perform_removal (hd : s.diagram? host = some d) (hcd : d.Consistent) (hv : v ∈ d.boxes.keys) :
    (do let _ ← removeBox host (.ofNat v) : Action Unit).perform s =
      (.ok (), { s with objects := s.objects.set host (.diagram (d.without v)) }) := by
  obtain ⟨box, hbox⟩ := Table.exists_get? hv
  have hremove : d.removeBox (.ofNat v) = .ok (box, d.without v) :=
    hcd.removeBox_eq_ok.mpr ⟨v, Value.boxId?_ofNat v, hbox, rfl⟩
  rw [perform_bind, perform_removeBox hd hremove]
  rfl

theorem inline_spec (hd : s.diagram? host = some d) (he : s.diagram? inner = some e)
    (hcd : d.Consistent) (hce : e.Consistent) (hdir : e.Directed) (hv : v ∈ d.boxes.keys) :
    ∃ s' d', (inline host v inner).perform s = (.ok (), s') ∧ Inlined s s' host v d e d' := by
  obtain ⟨s₁, held, hd₁, hnotes, hf₁, hl, hheld, hbrought, hrun⟩ := perform_inline hd he v
  obtain ⟨d₂, hsplice, hcd₂, hr, hw⟩ := exists_splice hcd hce hdir hv hl
  let s₂ : Store := { s₁ with objects := s₁.objects.set host (.diagram d₂) }
  have hd₂ : s₂.diagram? host = some d₂ := Store.diagram?_set hd₁ d₂
  have hboxes : d₂.boxes = d.boxes ++ (List.range' d.next e.boxes.length).zip held := by
    rw [hr.boxes, boxes_withBoxes, hl]
  have hv₂ : v ∈ d₂.boxes.keys := hr.boxes ▸ mem_keys_withBoxes hv held
  refine ⟨{ s₂ with objects := s₂.objects.set host (.diagram (d₂.without v)) }, d₂.without v, ?_, ?_⟩
  · rw [hrun, hsplice]
    exact perform_removal hd₂ hcd₂ hv₂
  · have hf₂ : Store.Frame host s₁ s₂ := .of_set rfl
    have hf₃ : Store.Frame host s₂ { s₂ with objects := s₂.objects.set host (.diagram (d₂.without v)) } :=
      .of_set rfl
    have hframe := withBoxes_frame d held
    refine ⟨Store.diagram?_set hd₂ _, hcd₂.without hv₂, hf₁.trans (hf₂.trans hf₃), hnotes,
      hr.inputs.trans hframe.2.1, hr.outputs.trans hframe.2.2, ?_, ⟨held, ?_, hl, ?_, hbrought.after (hf₂.trans hf₃)⟩, ?_⟩
    · exact hr.next.trans (by rw [next_withBoxes, hl])
    · change d₂.boxes.remove v = _
      rw [hboxes, ← hl, Table.remove_append, Table.remove_eq_self (hcd.not_mem_range' hv held)]
    · exact fun s₀ d₀ hd₀ hf => hheld.imp fun b b' h => (h.after (hf₂.trans hf₃)).held hd₀ hf
    · rw [wires_without hcd₂, coe_filter_bool, hw, spliced]

/-- The diagram that takes the place of a box is given, or it is the box. -/
theorem perform_substitute {w sub box : Value} (hd : s.diagram? host = some d)
    (he : s.diagram? inner = some e) (hw : w.boxId? = some v) (hbox : d.boxes.get? v = some box)
    (hsub : sub = .ref inner ∨ sub = .null ∧ box = .ref inner) :
    (substitute host w sub).perform s = (inline host v inner).perform s := by
  have hinner : s.asDiagram? (.ref inner) = some (inner, e) := by simp [Store.asDiagram?, he]
  rw [substitute, perform_bind, perform_diagram hd]
  dsimp only
  rw [Table.resolve_eq_ok.mpr ⟨hw, hbox⟩, perform_bind, perform_ofExcept]
  dsimp only
  rw [perform_bind, perform_get]
  rcases hsub with rfl | ⟨rfl, rfl⟩
  · simp only [hinner]
  · simp only [hinner]

/-- A diagram can be substituted for any box of another diagram. -/
theorem substitute_spec (hd : s.diagram? host = some d) (he : s.diagram? inner = some e)
    (_ : inner ≠ host) (hcd : d.Consistent) (hce : e.Consistent) (hdir : e.Directed)
    (hv : v ∈ d.boxes.keys) :
    ∃ s' d', (substitute host (.ofNat v) (.ref inner)).perform s = (.ok (), s') ∧
      Inlined s s' host v d e d' := by
  obtain ⟨box, hbox⟩ := Table.exists_get? hv
  obtain ⟨s', d', hrun, h⟩ := inline_spec hd he hcd hce hdir hv
  exact ⟨s', d', (perform_substitute hd he (Value.boxId?_ofNat v) hbox (Or.inl rfl)).trans hrun, h⟩

end Action

end StringDiagram
