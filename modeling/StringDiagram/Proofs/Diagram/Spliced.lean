import StringDiagram.Proofs.Diagram.Wires
import StringDiagram.Proofs.Network.Counts

/-! # What splicing does

The wires of the host and those of the diagram that is spliced into it make a network of two layers.
Each wire that is taken over is absorbed into the walks found so far, and the wires of the host are
those walks that do not stop at a boundary of the other diagram: `splice_spec`. -/
namespace StringDiagram.Diagram
open Network

/-- A connector of the host, in layer 0, or of an inserted diagram, in a layer above. -/
abbrev Node := Nat × Connector

/-- A wire of layer `i` that ends at box `v` is continued by one of layer `j` that starts at the same
port of the input boundary, and back likewise. -/
def meets (v i j : Nat) (a b : Node) : Bool :=
  (a.1 == i && b.1 == j && b.2.isOn inputId && a.2.same (.input (.ofNat v) b.2.port)) ||
    (a.1 == j && b.1 == i && a.2.isOn outputId && b.2.same (.output (.ofNat v) a.2.port))

def arrow (i : Nat) (w : Wire) : Node × Node := ((i, w.source), (i, w.target))

def opens (a : Node) : Bool := a.1 == 0 || !a.2.isOn inputId

def closes (a : Node) : Bool := a.1 == 0 || !a.2.isOn outputId

def IdMap.place (ids : IdMap) (c : Connector) : Connector :=
  match c.box.boxId?.bind ids.get? with
  | some n => c.withBox (.ofNat n)
  | none => c

def spot (ids : IdMap) (a : Node) : Connector := if a.1 = 0 then a.2 else ids.place a.2

def view (ids : IdMap) (T : Multiset (Node × Node)) : Multiset Wire :=
  (T.filter fun a => (opens a.1 && closes a.2) = true).map fun a => ⟨spot ids a.1, spot ids a.2⟩

structure Rewires (d d' : Diagram) : Prop where
  inputs : d'.inputs = d.inputs
  outputs : d'.outputs = d.outputs
  boxes : d'.boxes = d.boxes
  next : d'.next = d.next

theorem Rewires.refl (d : Diagram) : Rewires d d := ⟨rfl, rfl, rfl, rfl⟩

theorem Rewires.trans {d d' d'' : Diagram} (h : Rewires d d') (h' : Rewires d' d'') :
    Rewires d d'' :=
  ⟨h'.inputs.trans h.inputs, h'.outputs.trans h.outputs, h'.boxes.trans h.boxes, h'.next.trans h.next⟩

theorem Rewires.live_eq {d d' : Diagram} (h : Rewires d d') : d'.live = d.live := by
  rw [live, h.boxes, live]

def Has (d : Diagram) (c : Connector) : Prop := ∃ v ∈ d.live, c.box.boxId? = some v

theorem Rewires.has {d d' : Diagram} (h : Rewires d d') {c : Connector} (hc : d.Has c) : d'.Has c := by
  obtain ⟨v, hv, hb⟩ := hc
  exact ⟨v, h.live_eq ▸ hv, hb⟩

section Extend
variable {d : Diagram}

theorem Consistent.has_ends (hd : d.Consistent) {w : Wire} (hw : w ∈ d.wires) :
    d.Has w.source ∧ d.Has w.target := by
  obtain ⟨s, t, hs, ht, hsl, htl⟩ := hd.ends_live hw
  exact ⟨⟨s, hsl, hs⟩, ⟨t, htl, ht⟩⟩

theorem exists_addWire (hd : d.Consistent) {w : Wire} (hs : d.Has w.source) (ht : d.Has w.target) :
    ∃ d', d.addWire w = .ok d' ∧ d'.Consistent ∧ d.Rewires d' ∧ d'.wires.Perm (d.wires ++ [w]) := by
  obtain ⟨s, hsl, hs⟩ := hs
  obtain ⟨t, htl, ht⟩ := ht
  have hout : (d.succ.get? s).isSome = true := Table.get?_isSome.mpr (hd.succ_keys ▸ hsl)
  have hinto : (d.pred.get? t).isSome = true := Table.get?_isSome.mpr (hd.pred_keys ▸ htl)
  exact ⟨d.link s t w, addWire_eq_ok.mpr ⟨s, t, hs, ht, hout, hinto, rfl⟩, hd.link hsl htl ⟨hs, ht⟩,
    ⟨rfl, rfl, rfl, rfl⟩, wires_link d s t w⟩

/-- Wires between boxes that are there are all added. -/
theorem exists_extend (hd : d.Consistent) {ws : List Wire}
    (hws : ∀ w ∈ ws, d.Has w.source ∧ d.Has w.target) :
    ∃ d', d.extend ws = (d', none) ∧ d'.Consistent ∧ d.Rewires d' ∧ d'.wires.Perm (d.wires ++ ws) := by
  induction ws generalizing d with
  | nil => exact ⟨d, rfl, hd, .refl d, by simp⟩
  | cons w ws ih =>
    obtain ⟨hs, ht⟩ := hws w List.mem_cons_self
    obtain ⟨d₁, h₁, hd₁, hr₁, hp₁⟩ := exists_addWire hd hs ht
    obtain ⟨d₂, h₂, hd₂, hr₂, hp₂⟩ := ih hd₁ fun x hx =>
      (hws x (List.mem_cons_of_mem w hx)).imp hr₁.has hr₁.has
    refine ⟨d₂, by rw [extend, h₁]; exact h₂, hd₂, hr₁.trans hr₂, hp₂.trans ?_⟩
    have hp := hp₁.append_right ws
    rwa [List.append_assoc] at hp

end Extend

/-- The box of the connector comes in under an identifier other than `v`, which the host has. -/
def Placed (d : Diagram) (v : Nat) (ids : IdMap) (c : Connector) : Prop :=
  ∃ u n, c.box.boxId? = some u ∧ ids.get? u = some n ∧ n ≠ v ∧ n ∈ d.live

section Placed
variable {d : Diagram} {v : Nat} {ids : IdMap} {c : Connector}

theorem Placed.move_eq (h : Placed d v ids c) : ids.move c = .ok (ids.place c) := by
  obtain ⟨u, n, hu, hn, -, -⟩ := h
  rw [IdMap.move, Table.resolve_eq_ok.mpr ⟨hu, hn⟩, IdMap.place, hu, Option.bind_some, hn]
  rfl

theorem Placed.boxId? (h : Placed d v ids c) :
    ∃ n, (ids.place c).box.boxId? = some n ∧ n ≠ v ∧ n ∈ d.live := by
  obtain ⟨u, n, hu, hn, hne, hl⟩ := h
  refine ⟨n, ?_, hne, hl⟩
  rw [IdMap.place, hu, Option.bind_some, hn]
  exact Value.boxId?_ofNat n

theorem Placed.has (h : Placed d v ids c) : d.Has (ids.place c) := by
  obtain ⟨n, hn, -, hl⟩ := h.boxId?
  exact ⟨n, hl, hn⟩

theorem Placed.isOn_eq_false (h : Placed d v ids c) : (ids.place c).isOn v = false := by
  obtain ⟨n, hn, hne, -⟩ := h.boxId?
  simp [Connector.isOn, hn, hne]

theorem Placed.same_eq_false (h : Placed d v ids c) {x : Connector} (hx : x.isOn v = true) :
    (ids.place c).same x = false := by
  rw [Bool.eq_false_iff]
  intro hs
  have hon := Connector.isOn_eq_of_same hs v
  rw [h.isOn_eq_false, hx] at hon
  cases hon

theorem Rewires.placed {d' : Diagram} (hr : d.Rewires d') (h : Placed d v ids c) :
    Placed d' v ids c := by
  obtain ⟨u, n, hu, hn, hne, hl⟩ := h
  exact ⟨u, n, hu, hn, hne, hr.live_eq ▸ hl⟩

end Placed

def Starts (d : Diagram) (v : Nat) (ids : IdMap) (a : Node) : Prop :=
  a.1 = 0 ∨ a.1 = 1 ∧ (a.2.isOn inputId = true ∨ a.2.isOn inputId = false ∧ Placed d v ids a.2)

def Ends (d : Diagram) (v : Nat) (ids : IdMap) (a : Node) : Prop :=
  a.1 = 0 ∨ a.1 = 1 ∧ (a.2.isOn outputId = true ∨ a.2.isOn outputId = false ∧ Placed d v ids a.2)

theorem isInput_eq (v : Value) : isInput v = decide (v.boxId? = some inputId) := by
  rw [Bool.eq_iff_iff, decide_eq_true_iff, Value.boxId?_eq_some]
  rfl

theorem isOutput_eq (v : Value) : isOutput v = decide (v.boxId? = some outputId) := by
  rw [Bool.eq_iff_iff, decide_eq_true_iff, Value.boxId?_eq_some]
  rfl

theorem coe_filter_bool {α : Type} (l : List α) (p : α → Bool) :
    ((l.filter p : List α) : Multiset α) = (l : Multiset α).filter fun a => p a = true := by
  simp [Multiset.filter_coe]

section Step
variable {d : Diagram} {v : Nat} {ids : IdMap} {T : Multiset (Node × Node)} {c : Connector}

/-- What ends at the input boundary of the inserted diagram is what ends at that port of `v`. -/
theorem meets_input (hc : c.isOn inputId = true) {a : Node} (ha : Ends d v ids a) :
    meets v 0 1 a (1, c) = (closes a && (spot ids a).same (.input (.ofNat v) c.port)) := by
  rcases ha with h0 | ⟨h1, ha⟩
  · simp [meets, closes, spot, h0, hc]
  · rcases ha with ho | ⟨ho, hp⟩
    · simp [meets, closes, h1, ho]
    · have hne : (ids.place a.2).same (.input (.ofNat v) c.port) = false :=
        hp.same_eq_false (by simp)
      simp [meets, closes, spot, h1, hne]

theorem meets_output (hc : c.isOn outputId = true) {a : Node} (ha : Starts d v ids a) :
    meets v 0 1 (1, c) a = (opens a && (spot ids a).same (.output (.ofNat v) c.port)) := by
  rcases ha with h0 | ⟨h1, ha⟩
  · simp [meets, opens, spot, h0, hc]
  · rcases ha with ho | ⟨ho, hp⟩
    · simp [meets, opens, h1, ho]
    · have hne : (ids.place a.2).same (.output (.ofNat v) c.port) = false :=
        hp.same_eq_false (by simp)
      simp [meets, opens, spot, h1, hne]

/-- One end of those wires of a view that are kept is read off the walks that are. -/
theorem map_view {g : Wire → Connector} {f : Node × Node → Node}
    (hfg : ∀ a, g ⟨spot ids a.1, spot ids a.2⟩ = spot ids (f a))
    {p : Wire → Bool} {q : Node × Node → Bool} {r : Node → Bool}
    (h : ∀ a ∈ T, q a = true ∧ r (f a) = true ↔
      p ⟨spot ids a.1, spot ids a.2⟩ = true ∧ (opens a.1 && closes a.2) = true) :
    ((view ids T).filter fun w => p w = true).map g =
      (((T.filter fun a => q a = true).map f).filter fun a => r a = true).map (spot ids) := by
  simp only [view, Multiset.filter_map, Multiset.map_map, Multiset.filter_filter, Function.comp_def, hfg]
  congr 1
  apply Multiset.filter_congr
  intro a ha
  rw [and_comm (a := r (f a) = true), h a ha]

/-- The walks that can be followed by an inner wire from `c` give the connectors in the host from which
that wire is taken over. -/
theorem exists_starts (hd : d.Consistent) (hv : v ∈ d.live) (hw : (d.wires : Multiset Wire) = view ids T)
    (hT : ∀ a ∈ T, Starts d v ids a.1 ∧ Ends d v ids a.2) (hc : Starts d v ids (1, c)) :
    ∃ ss : List Connector, (∀ x ∈ ss, d.Has x) ∧ (ss : Multiset Connector) =
        ((starts (meets v 0 1) T (1, c)).filter fun a => opens a = true).map (spot ids) ∧
      (c.isOn inputId = true → ∃ into, d.inWires (.input (.ofNat v) c.port) = .ok into ∧
        ss = into.map Wire.source) ∧
      (c.isOn inputId = false → ∃ c', ids.move c = .ok c' ∧ ss = [c']) := by
  rcases hc with h0 | ⟨-, hin | ⟨hin, hp⟩⟩
  · exact absurd h0 (by simp)
  · let port : Connector := .input (.ofNat v) c.port
    refine ⟨(d.wires.filter (·.target.same port)).map Wire.source, ?_, ?_, fun _ => ?_, fun h => ?_⟩
    · intro x hx
      obtain ⟨w, hw, rfl⟩ := List.mem_map.mp hx
      exact (hd.has_ends (List.mem_of_mem_filter hw)).1
    · have hclosed : opens (1, c) = false := by simp [opens, hin]
      have hkeep : ∀ a ∈ T, (meets v 0 1 a.2 (1, c) = true ∧ opens a.1 = true ↔
          (spot ids a.2).same port = true ∧ (opens a.1 && closes a.2) = true) := by
        intro a ha
        rw [meets_input hin (hT a ha).2]
        simp only [Bool.and_eq_true]
        tauto
      rw [← Multiset.map_coe, coe_filter_bool, hw, starts, Multiset.filter_cons_of_neg _ (by simp [hclosed])]
      exact map_view (fun _ => rfl) hkeep
    · exact ⟨_, inWires_eq hd (Value.boxId?_ofNat v) hv, rfl⟩
    · rw [hin] at h
      exact absurd h (by simp)
  · refine ⟨[ids.place c], ?_, ?_, fun h => ?_, fun _ => ⟨_, hp.move_eq, rfl⟩⟩
    · intro x hx
      rw [List.mem_singleton.mp hx]
      exact hp.has
    · have hopen : opens (1, c) = true := by simp [opens, hin]
      have hnone : T.filter (fun a => meets v 0 1 a.2 (1, c) = true) = 0 := by
        apply Multiset.filter_eq_nil.mpr
        intro a _ hm
        simp [meets, hin] at hm
      rw [starts, hnone, Multiset.map_zero, Multiset.filter_cons, if_pos hopen]
      simp [spot]
    · rw [hin] at h
      exact absurd h (by simp)

theorem exists_ends (hd : d.Consistent) (hv : v ∈ d.live) (hw : (d.wires : Multiset Wire) = view ids T)
    (hT : ∀ a ∈ T, Starts d v ids a.1 ∧ Ends d v ids a.2) (hc : Ends d v ids (1, c)) :
    ∃ ts : List Connector, (∀ x ∈ ts, d.Has x) ∧ (ts : Multiset Connector) =
        ((ends (meets v 0 1) T (1, c)).filter fun a => closes a = true).map (spot ids) ∧
      (c.isOn outputId = true → ∃ out, d.outWires (.output (.ofNat v) c.port) = .ok out ∧
        ts = out.map Wire.target) ∧
      (c.isOn outputId = false → ∃ c', ids.move c = .ok c' ∧ ts = [c']) := by
  rcases hc with h0 | ⟨-, hout | ⟨hout, hp⟩⟩
  · exact absurd h0 (by simp)
  · let port : Connector := .output (.ofNat v) c.port
    refine ⟨(d.wires.filter (·.source.same port)).map Wire.target, ?_, ?_, fun _ => ?_, fun h => ?_⟩
    · intro x hx
      obtain ⟨w, hw, rfl⟩ := List.mem_map.mp hx
      exact (hd.has_ends (List.mem_of_mem_filter hw)).2
    · have hclosed : closes (1, c) = false := by simp [closes, hout]
      have hkeep : ∀ a ∈ T, (meets v 0 1 (1, c) a.1 = true ∧ closes a.2 = true ↔
          (spot ids a.1).same port = true ∧ (opens a.1 && closes a.2) = true) := by
        intro a ha
        rw [meets_output hout (hT a ha).1]
        simp only [Bool.and_eq_true]
        tauto
      rw [← Multiset.map_coe, coe_filter_bool, hw, ends, Multiset.filter_cons_of_neg _ (by simp [hclosed])]
      exact map_view (fun _ => rfl) hkeep
    · exact ⟨_, outWires_eq hd (Value.boxId?_ofNat v) hv, rfl⟩
    · rw [hout] at h
      exact absurd h (by simp)
  · refine ⟨[ids.place c], ?_, ?_, fun h => ?_, fun _ => ⟨_, hp.move_eq, rfl⟩⟩
    · intro x hx
      rw [List.mem_singleton.mp hx]
      exact hp.has
    · have hopen : closes (1, c) = true := by simp [closes, hout]
      have hnone : T.filter (fun a => meets v 0 1 (1, c) a.1 = true) = 0 := by
        apply Multiset.filter_eq_nil.mpr
        intro a _ hm
        simp [meets, hout] at hm
      rw [ends, hnone, Multiset.map_zero, Multiset.filter_cons, if_pos hopen]
      simp [spot]
    · rw [hout] at h
      exact absurd h (by simp)

/-- A wire is taken over between all its starts and all its ends. -/
theorem splicedWires_eq {w : Wire} {ss ts : List Connector}
    (hs : w.source.isOn inputId = true → ∃ into,
      d.inWires (.input (.ofNat v) w.source.port) = .ok into ∧ ss = into.map Wire.source)
    (hs' : w.source.isOn inputId = false → ∃ c', ids.move w.source = .ok c' ∧ ss = [c'])
    (ht : w.target.isOn outputId = true → ∃ out,
      d.outWires (.output (.ofNat v) w.target.port) = .ok out ∧ ts = out.map Wire.target)
    (ht' : w.target.isOn outputId = false → ∃ c', ids.move w.target = .ok c' ∧ ts = [c']) :
    d.splicedWires v ids w = .ok (ss.flatMap fun a => ts.map fun b => ⟨a, b⟩) := by
  have hsrc : isInput w.source.box = w.source.isOn inputId := isInput_eq w.source.box
  have htgt : isOutput w.target.box = w.target.isOn outputId := isOutput_eq w.target.box
  rw [splicedWires, hsrc, htgt]
  cases hin : w.source.isOn inputId with
  | true =>
    obtain ⟨into, hinto, rfl⟩ := hs hin
    cases hout : w.target.isOn outputId with
    | true =>
      obtain ⟨out, hout, rfl⟩ := ht hout
      simp [hinto, hout, bind, Except.bind, pure, Except.pure, List.flatMap_map, Function.comp_def]
    | false =>
      obtain ⟨c', hc, rfl⟩ := ht' hout
      simp [hinto, hc, bind, Except.bind, pure, Except.pure, List.flatMap_map, ← List.map_eq_flatMap]
  | false =>
    obtain ⟨c, hc, rfl⟩ := hs' hin
    cases hout : w.target.isOn outputId with
    | true =>
      obtain ⟨out, hout, rfl⟩ := ht hout
      simp [hc, hout, bind, Except.bind, pure, Except.pure, Function.comp_def]
    | false =>
      obtain ⟨c', hc', rfl⟩ := ht' hout
      simp [hc, hc', bind, Except.bind, pure, Except.pure]

theorem view_add (ids : IdMap) (A B : Multiset (Node × Node)) :
    view ids (A + B) = view ids A + view ids B := by
  rw [view, Multiset.filter_add, Multiset.map_add, ← view, ← view]

theorem view_product (ids : IdMap) (A B : Multiset Node) : view ids (A ×ˢ B) =
    ((A.filter fun a => opens a = true).map (spot ids)).bind fun x =>
      ((B.filter fun b => closes b = true).map (spot ids)).map fun y => ⟨x, y⟩ := by
  induction A using Multiset.induction_on with
  | empty => rfl
  | cons a A ih =>
    rw [Multiset.cons_product, view_add, Multiset.filter_cons, Multiset.map_add, Multiset.add_bind, ← ih]
    congr 1
    cases ha : opens a <;> simp [view, ha, Multiset.filter_map]

theorem splice_one (hd : d.Consistent) (hv : v ∈ d.live) (hw : (d.wires : Multiset Wire) = view ids T)
    (hT : ∀ a ∈ T, Starts d v ids a.1 ∧ Ends d v ids a.2) {w : Wire}
    (hs : Starts d v ids (1, w.source)) (ht : Ends d v ids (1, w.target)) :
    ∃ new d', d.splicedWires v ids w = .ok new ∧ d.extend new = (d', none) ∧ d'.Consistent ∧
      d.Rewires d' ∧ (d'.wires : Multiset Wire) = view ids (T + through (meets v 0 1) T (arrow 1 w)) := by
  obtain ⟨ss, hss, hsv, hin, hin'⟩ := exists_starts hd hv hw hT hs
  obtain ⟨ts, hts, htv, hout, hout'⟩ := exists_ends hd hv hw hT ht
  have hnew : ∀ x ∈ (ss.flatMap fun a => ts.map fun b => (⟨a, b⟩ : Wire)),
      d.Has x.source ∧ d.Has x.target := by
    intro x hx
    obtain ⟨a, ha, hx⟩ := List.mem_flatMap.mp hx
    obtain ⟨b, hb, rfl⟩ := List.mem_map.mp hx
    exact ⟨hss a ha, hts b hb⟩
  obtain ⟨d', hext, hd', hr, hperm⟩ := exists_extend hd hnew
  refine ⟨_, d', splicedWires_eq hin hin' hout hout', hext, hd', hr, ?_⟩
  have hthrough : view ids (through (meets v 0 1) T (arrow 1 w)) =
      ((ss.flatMap fun a => ts.map fun b => ⟨a, b⟩ : List Wire) : Multiset Wire) := by
    rw [through, view_product]
    simp only [arrow, ← hsv, ← htv]
    simp only [Multiset.map_coe, Multiset.coe_bind]
  rw [Multiset.coe_eq_coe.mpr hperm, ← Multiset.coe_add, hw, ← hthrough, view_add]

/-- Wires that start and end on boxes that came in or on the boundary are all taken over. -/
theorem splice_spec (hd : d.Consistent) (hv : v ∈ d.live) (hw : (d.wires : Multiset Wire) = view ids T)
    (hT : ∀ a ∈ T, Starts d v ids a.1 ∧ Ends d v ids a.2) {ws : List Wire}
    (hws : ∀ w ∈ ws, Starts d v ids (1, w.source) ∧ Ends d v ids (1, w.target)) :
    ∃ d', d.splice v ids ws = (d', none) ∧ d'.Consistent ∧ d.Rewires d' ∧
      (d'.wires : Multiset Wire) = view ids (absorb (meets v 0 1) T (ws.map (arrow 1))) := by
  induction ws generalizing d T with
  | nil => exact ⟨d, rfl, hd, .refl d, hw⟩
  | cons w ws ih =>
    obtain ⟨hs, ht⟩ := hws w List.mem_cons_self
    obtain ⟨new, d₁, hnew, hext, hd₁, hr, hw₁⟩ := splice_one hd hv hw hT hs ht
    have hstart : ∀ {a}, Starts d v ids a → Starts d₁ v ids a := fun h =>
      h.imp id fun h => h.imp id fun h => h.imp id fun h => h.imp id hr.placed
    have hend : ∀ {a}, Ends d v ids a → Ends d₁ v ids a := fun h =>
      h.imp id fun h => h.imp id fun h => h.imp id fun h => h.imp id hr.placed
    have hT₁ : ∀ a ∈ T + through (meets v 0 1) T (arrow 1 w), Starts d₁ v ids a.1 ∧ Ends d₁ v ids a.2 :=
      through_forall (fun a ha => (hT a ha).imp hstart hend) ⟨hstart hs, hend ht⟩
    obtain ⟨d', h, hd', hr', hw'⟩ := ih hd₁ (hr.live_eq ▸ hv) hw₁ hT₁ fun x hx =>
      (hws x (List.mem_cons_of_mem w hx)).imp hstart hend
    refine ⟨d', ?_, hd', hr.trans hr', hw'⟩
    rw [splice, hnew]
    simp only [hext]
    exact h

end Step

end StringDiagram.Diagram
