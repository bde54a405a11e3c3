import StringDiagram.Proofs.Substitution.Renumbered

/-! # Substitution for a box that no wire leads back to

The wires that splicing adds may continue each other only by way of a wire from the box to itself. Without
one, each wire of the inserted diagram is taken over from the wires that the host had before:
`spliced_eq`. -/
namespace StringDiagram
open Diagram Network

namespace Network
variable {N : Type} {meets : N → N → Bool} {H U : Multiset (N × N)} {as : List (N × N)}

def Aside (meets : N → N → Bool) (U : Multiset (N × N)) (as : List (N × N)) : Prop :=
  ∀ u ∈ U, ∀ a ∈ as, meets u.2 a.1 = false ∧ meets a.2 u.1 = false

theorem through_add (hU : Aside meets U as) {a : N × N} (ha : a ∈ as) :
    through meets (H + U) a = through meets H a := by
  have hstarts : U.filter (fun u => meets u.2 a.1 = true) = 0 :=
    Multiset.filter_eq_nil.mpr fun u hu => by simp [(hU u hu a ha).1]
  have hends : U.filter (fun u => meets a.2 u.1 = true) = 0 :=
    Multiset.filter_eq_nil.mpr fun u hu => by simp [(hU u hu a ha).2]
  rw [through, starts, ends, Multiset.filter_add, Multiset.filter_add, hstarts, hends, add_zero, add_zero,
    through, starts, ends]

/-- If arrows meet only arrows of `H`, and no two by the same one, each is absorbed as if it were alone. -/
theorem absorb_eq (hself : ∀ a ∈ as, ∀ b ∈ as, meets a.2 b.1 = false)
    (hH : ∀ a ∈ as, ∀ c ∈ H, meets a.2 c.1 = true → ∀ b ∈ as, meets c.2 b.1 = false) :
    absorb meets H as = H + (as : Multiset (N × N)).bind (through meets H) := by
  have haside : ∀ a ∈ as, Aside meets (through meets H a) as := by
    intro a ha u hu b hb
    obtain ⟨hs, ht⟩ := mem_through.mp (show (u.1, u.2) ∈ _ from hu)
    constructor
    · rcases mem_ends.mp ht with ht | ⟨x, hx, hm⟩
      · rw [ht]
        exact hself a ha b hb
      · exact hH a ha _ hx hm b hb
    · rcases mem_starts.mp hs with hs | ⟨y, hy, hm⟩
      · rw [hs]
        exact hself b hb a ha
      · rw [Bool.eq_false_iff]
        intro hm'
        simp [hH b hb _ hy hm' a ha] at hm
  have hrest : ∀ (bs : List (N × N)), bs ⊆ as → ∀ U, Aside meets U as →
      absorb meets (H + U) bs = H + U + (bs : Multiset (N × N)).bind (through meets H) := by
    intro bs
    induction bs with
    | nil => exact fun _ U _ => by simp [absorb]
    | cons b bs ih =>
      intro hbs U hU
      have hb := hbs List.mem_cons_self
      have hU' : Aside meets (U + through meets H b) as := fun u hu =>
        (Multiset.mem_add.mp hu).elim (hU u) (haside b hb u)
      rw [absorb, through_add hU hb, add_assoc, ih (fun x hx => hbs (List.mem_cons_of_mem b hx)) _ hU',
        ← Multiset.cons_coe, Multiset.cons_bind]
      simp only [add_assoc]
  have h := hrest as (fun _ => id) 0 fun u hu => absurd hu (Multiset.notMem_zero u)
  rwa [add_zero] at h

end Network

namespace Diagram
variable {d e : Diagram} {v : Nat} {ids : IdMap} {c : Connector}

def upstream (d : Diagram) (v : Nat) (ids : IdMap) (c : Connector) : Multiset Connector :=
  if c.isOn inputId then ((d.wires : Multiset Wire).filter fun w =>
    w.target.same (.input (.ofNat v) c.port) = true).map Wire.source
  else {ids.place c}

def downstream (d : Diagram) (v : Nat) (ids : IdMap) (c : Connector) : Multiset Connector :=
  if c.isOn outputId then ((d.wires : Multiset Wire).filter fun w =>
    w.source.same (.output (.ofNat v) c.port) = true).map Wire.target
  else {ids.place c}

theorem starts_host (d : Diagram) (v : Nat) (ids : IdMap) (c : Connector) :
    ((starts (meets v 0 1) (d.wires.map (arrow 0) : Multiset (Node × Node)) (1, c)).filter fun a =>
      opens a = true).map (spot ids) = d.upstream v ids c := by
  rw [starts, ← Multiset.map_coe, Multiset.filter_map, Multiset.map_map, upstream]
  cases hc : c.isOn inputId with
  | true =>
    rw [Multiset.filter_cons_of_neg _ (by simp [opens, hc]), Multiset.filter_map, Multiset.map_map]
    simp [arrow, meets, hc, opens, spot, Function.comp_def]
  | false =>
    rw [Multiset.filter_cons_of_pos _ (by simp [opens, hc])]
    simp [arrow, meets, hc, spot, Function.comp_def]

theorem ends_host (d : Diagram) (v : Nat) (ids : IdMap) (c : Connector) :
    ((ends (meets v 0 1) (d.wires.map (arrow 0) : Multiset (Node × Node)) (1, c)).filter fun a =>
      closes a = true).map (spot ids) = d.downstream v ids c := by
  rw [ends, ← Multiset.map_coe, Multiset.filter_map, Multiset.map_map, downstream]
  cases hc : c.isOn outputId with
  | true =>
    rw [Multiset.filter_cons_of_neg _ (by simp [closes, hc]), Multiset.filter_map, Multiset.map_map]
    simp [arrow, meets, hc, closes, spot, Function.comp_def]
  | false =>
    rw [Multiset.filter_cons_of_pos _ (by simp [closes, hc])]
    simp [arrow, meets, hc, spot, Function.comp_def]

theorem walks_eq (h : ¬ d.Links v v) : d.walks e v = (d.wires.map (arrow 0) : Multiset (Node × Node)) +
    (e.wires.map (arrow 1) : Multiset (Node × Node)).bind
      (through (meets v 0 1) (d.wires.map (arrow 0))) := by
  refine absorb_eq (fun a ha b hb => ?_) fun a ha c hc hm b hb => ?_
  · obtain ⟨w, -, rfl⟩ := List.mem_map.mp ha
    obtain ⟨x, -, rfl⟩ := List.mem_map.mp hb
    rfl
  · obtain ⟨w, -, rfl⟩ := List.mem_map.mp ha
    obtain ⟨z, hz, rfl⟩ := mem_layer.mp hc
    obtain ⟨x, -, rfl⟩ := List.mem_map.mp hb
    rw [Bool.eq_false_iff]
    intro hm'
    rcases isOn_of_meets hm with ⟨h0, -⟩ | ⟨-, -, -, hs⟩
    · cases h0
    · rcases isOn_of_meets hm' with ⟨-, -, -, ht⟩ | ⟨h0, -⟩
      · exact h ⟨z, hz, hs, ht⟩
      · cases h0

theorem view_layer (ids : IdMap) (ws : List Wire) : view ids (ws.map (arrow 0)) = (ws : Multiset Wire) := by
  rw [view, ← Multiset.map_coe, Multiset.filter_eq_self.mpr, Multiset.map_map]
  · exact Multiset.map_id _
  · intro a ha
    obtain ⟨w, -, rfl⟩ := Multiset.mem_map.mp ha
    rfl

theorem view_through (d : Diagram) (v : Nat) (ids : IdMap) (w : Wire) :
    view ids (through (meets v 0 1) (d.wires.map (arrow 0)) (arrow 1 w)) =
      (d.upstream v ids w.source).bind fun a => (d.downstream v ids w.target).map fun b => ⟨a, b⟩ := by
  rw [through, view_product, arrow, starts_host, ends_host]

section Loopless
variable (h : ¬ d.Links v v) (hd : d.Consistent) (he : e.Consistent) (hv : v ∈ d.boxes.keys)

include h hd he hv

theorem isOn_of_upstream (hc : e.Inside inputId c) {a : Connector}
    (ha : a ∈ d.upstream v (inserted d e) c) : a.isOn v = false := by
  rw [upstream] at ha
  split at ha
  · obtain ⟨w, hw, rfl⟩ := Multiset.mem_map.mp ha
    obtain ⟨hw, ht⟩ := Multiset.mem_filter.mp hw
    rw [Bool.eq_false_iff]
    intro hs
    refine h ⟨w, hw, hs, ?_⟩
    rw [Connector.isOn_eq_of_same ht]
    simp
  · next hin =>
    obtain ⟨i, hi⟩ := hc.resolve_left hin
    have hlt := hd.below_next v (Consistent.box_live hv)
    rw [Multiset.mem_singleton.mp ha, hi.place_eq he, Connector.isOn_withBox, decide_eq_false_iff_not]
    omega

theorem isOn_of_downstream (hc : e.Inside outputId c) {b : Connector}
    (hb : b ∈ d.downstream v (inserted d e) c) : b.isOn v = false := by
  rw [downstream] at hb
  split at hb
  · obtain ⟨w, hw, rfl⟩ := Multiset.mem_map.mp hb
    obtain ⟨hw, hs⟩ := Multiset.mem_filter.mp hw
    rw [Bool.eq_false_iff]
    intro ht
    refine h ⟨w, hw, ?_, ht⟩
    rw [Connector.isOn_eq_of_same hs]
    simp
  · next hout =>
    obtain ⟨i, hi⟩ := hc.resolve_left hout
    have hlt := hd.below_next v (Consistent.box_live hv)
    rw [Multiset.mem_singleton.mp hb, hi.place_eq he, Connector.isOn_withBox, decide_eq_false_iff_not]
    omega

/-- The wires that are taken over do not touch the box, and those of the host that do go. -/
theorem spliced_eq (hdir : e.Directed) : d.spliced e v =
      (d.wires : Multiset Wire).filter (fun w => (!w.source.isOn v && !w.target.isOn v) = true) +
      (e.wires : Multiset Wire).bind fun w => (d.upstream v (inserted d e) w.source).bind fun a =>
        (d.downstream v (inserted d e) w.target).map fun b => ⟨a, b⟩ := by
  have hview : view (inserted d e) ((e.wires.map (arrow 1) : Multiset (Node × Node)).bind
      (through (meets v 0 1) (d.wires.map (arrow 0)))) = (e.wires : Multiset Wire).bind fun w =>
        (d.upstream v (inserted d e) w.source).bind fun a =>
          (d.downstream v (inserted d e) w.target).map fun b => ⟨a, b⟩ := by
    rw [view, ← Multiset.map_coe, Multiset.bind_map, Multiset.filter_bind, Multiset.map_bind]
    exact Multiset.bind_congr fun w _ => view_through d v _ w
  rw [spliced, walks_eq h, view_add, view_layer, Multiset.filter_add, hview]
  congr 1
  refine Multiset.filter_eq_self.mpr fun x hx => ?_
  obtain ⟨w, hw, hx⟩ := Multiset.mem_bind.mp hx
  obtain ⟨a, ha, hx⟩ := Multiset.mem_bind.mp hx
  obtain ⟨b, hb, rfl⟩ := Multiset.mem_map.mp hx
  obtain ⟨hs, ht⟩ := inside_ends he hdir (Multiset.mem_coe.mp hw)
  simp [isOn_of_upstream h hd he hv hs ha, isOn_of_downstream h hd he hv ht hb]

/-- A wire starts where one of the host did, or on a box that came in. -/
theorem source_of_mem_spliced (hdir : e.Directed) {w : Wire} (hw : w ∈ d.spliced e v) :
    (∃ z ∈ d.wires, z.source = w.source) ∨ ∀ n < d.next, w.source.isOn n = false := by
  rw [spliced_eq h hd he hv hdir, Multiset.mem_add] at hw
  rcases hw with hw | hw
  · exact Or.inl ⟨w, Multiset.mem_coe.mp (Multiset.mem_filter.mp hw).1, rfl⟩
  · obtain ⟨x, hx, hw⟩ := Multiset.mem_bind.mp hw
    obtain ⟨a, ha, hw⟩ := Multiset.mem_bind.mp hw
    obtain ⟨b, -, rfl⟩ := Multiset.mem_map.mp hw
    rw [upstream] at ha
    split at ha
    · obtain ⟨z, hz, rfl⟩ := Multiset.mem_map.mp ha
      exact Or.inl ⟨z, Multiset.mem_coe.mp (Multiset.mem_filter.mp hz).1, rfl⟩
    · next hin =>
      obtain ⟨i, hi⟩ := (inside_ends he hdir (Multiset.mem_coe.mp hx)).1.resolve_left hin
      refine Or.inr fun n hn => ?_
      rw [Multiset.mem_singleton.mp ha, hi.place_eq he, Connector.isOn_withBox, decide_eq_false_iff_not]
      omega

theorem target_of_mem_spliced (hdir : e.Directed) {w : Wire} (hw : w ∈ d.spliced e v) :
    (∃ z ∈ d.wires, z.target = w.target) ∨ ∀ n < d.next, w.target.isOn n = false := by
  rw [spliced_eq h hd he hv hdir, Multiset.mem_add] at hw
  rcases hw with hw | hw
  · exact Or.inl ⟨w, Multiset.mem_coe.mp (Multiset.mem_filter.mp hw).1, rfl⟩
  · obtain ⟨x, hx, hw⟩ := Multiset.mem_bind.mp hw
    obtain ⟨a, -, hw⟩ := Multiset.mem_bind.mp hw
    obtain ⟨b, hb, rfl⟩ := Multiset.mem_map.mp hw
    rw [downstream] at hb
    split at hb
    · obtain ⟨z, hz, rfl⟩ := Multiset.mem_map.mp hb
      exact Or.inl ⟨z, Multiset.mem_coe.mp (Multiset.mem_filter.mp hz).1, rfl⟩
    · next hout =>
      obtain ⟨i, hi⟩ := (inside_ends he hdir (Multiset.mem_coe.mp hx)).2.resolve_left hout
      refine Or.inr fun n hn => ?_
      rw [Multiset.mem_singleton.mp hb, hi.place_eq he, Connector.isOn_withBox, decide_eq_false_iff_not]
      omega

end Loopless

end Diagram

end StringDiagram
