import StringDiagram.Proofs.Diagram.Neighbours

/-! # Consistent diagrams

The tables of a diagram say the same thing several times: which boxes there are, which edges, and which
neighbours. In a consistent diagram they agree, down to the order of the neighbours. -/
namespace StringDiagram.Diagram

/-- The boundary and the boxes, in the order in which they came. -/
def live (d : Diagram) : List Nat := inputId :: outputId :: d.boxes.keys

structure Consistent (d : Diagram) : Prop where
  succ_keys : d.succ.keys = d.live
  pred_keys : d.pred.keys = d.live
  ascending : d.live.Pairwise (· < ·)
  below_next : ∀ v ∈ d.live, v < d.next
  edges_nodup : d.edges.keys.Nodup
  edge_live : ∀ e ∈ d.edges.keys, e.1 ∈ d.live ∧ e.2 ∈ d.live
  edge_nonempty : ∀ e ws, d.edges.get? e = some ws → ws ≠ []
  edge_wire : ∀ e, ∀ w ∈ d.wiresOn e, w.source.box.boxId? = some e.1 ∧ w.target.box.boxId? = some e.2
  out : Holds d.succ d.targets
  into : Holds d.pred d.sources

theorem mem_live {d : Diagram} {v : Nat} : v ∈ d.live ↔ v = inputId ∨ v = outputId ∨ v ∈ d.boxes.keys := by
  simp [live]

theorem hasWire_ofNat (d : Diagram) (s t : Nat) :
    d.hasWire (.ofNat s) (.ofNat t) = .ok (decide ((s, t) ∈ d.edges.keys)) := by
  have he : edge? (.ofNat s) (.ofNat t) = .ok (some (s, t)) := by
    have hh : ∀ n, (Value.ofNat n).hashable = true := fun n => rfl
    simp [edge?, hh]
    rfl
  rw [hasWire, he]
  change Except.ok _ = _
  rw [Except.ok.injEq, Bool.eq_iff_iff, Table.get?_isSome, decide_eq_true_iff]

namespace Consistent
variable {d : Diagram}

theorem live_nodup (hd : d.Consistent) : d.live.Nodup :=
  hd.ascending.imp fun h => Nat.ne_of_lt h

theorem two_le (hd : d.Consistent) {v : Nat} (hv : v ∈ d.boxes.keys) : 2 ≤ v := by
  have h := List.pairwise_cons.mp (List.pairwise_cons.mp hd.ascending).2
  exact h.1 v hv

theorem ne_input (hd : d.Consistent) {v : Nat} (hv : v ∈ d.boxes.keys) : v ≠ inputId := by
  have h := hd.two_le hv
  rw [inputId]
  omega

theorem ne_output (hd : d.Consistent) {v : Nat} (hv : v ∈ d.boxes.keys) : v ≠ outputId := by
  have h := hd.two_le hv
  rw [outputId]
  omega

theorem two_le_next (hd : d.Consistent) : 2 ≤ d.next :=
  hd.below_next outputId (by simp [live])

theorem boxes_nodup (hd : d.Consistent) : d.boxes.keys.Nodup :=
  (List.nodup_cons.mp (List.nodup_cons.mp hd.live_nodup).2).2

theorem box_live {v : Nat} (hv : v ∈ d.boxes.keys) : v ∈ d.live := by simp [live, hv]

theorem next_not_live (hd : d.Consistent) : d.next ∉ d.live :=
  fun h => Nat.lt_irrefl _ (hd.below_next _ h)

/-- No edge starts or ends at a box that is not there. -/
theorem targets_eq_nil (hd : d.Consistent) {s : Nat} (hs : s ∉ d.live) : d.targets s = [] := by
  rw [List.eq_nil_iff_forall_not_mem]
  intro t ht
  exact hs (hd.edge_live _ (mem_targets.mp ht)).1

theorem sources_eq_nil (hd : d.Consistent) {t : Nat} (ht : t ∉ d.live) : d.sources t = [] := by
  rw [List.eq_nil_iff_forall_not_mem]
  intro s hs
  exact ht (hd.edge_live _ (mem_sources.mp hs)).2

theorem exists_out (hd : d.Consistent) {s : Nat} (hs : s ∈ d.live) :
    ∃ out, d.succ.get? s = some out ∧ Table.keys out = d.targets s := by
  obtain ⟨out, h⟩ := Table.exists_get? (hd.succ_keys ▸ hs)
  exact ⟨out, h, hd.out s out h⟩

theorem exists_into (hd : d.Consistent) {t : Nat} (ht : t ∈ d.live) :
    ∃ into, d.pred.get? t = some into ∧ Table.keys into = d.sources t := by
  obtain ⟨into, h⟩ := Table.exists_get? (hd.pred_keys ▸ ht)
  exact ⟨into, h, hd.into t into h⟩

end Consistent

theorem consistent_new (inputs outputs : List Value) : (new inputs outputs).Consistent where
  succ_keys := rfl
  pred_keys := rfl
  ascending := by simp [live, new, inputId, outputId]
  below_next := by simp [live, new, inputId, outputId]
  edges_nodup := List.nodup_nil
  edge_live := by simp [new]
  edge_nonempty := by simp [new]
  edge_wire := by simp [new, wiresOn]
  out := by
    intro s out h
    have hm := Table.mem_of_get? h
    simp only [new, List.mem_cons, Prod.mk.injEq, List.not_mem_nil, or_false] at hm
    rcases hm with ⟨-, rfl⟩ | ⟨-, rfl⟩ <;> rfl
  into := by
    intro t into h
    have hm := Table.mem_of_get? h
    simp only [new, List.mem_cons, Prod.mk.injEq, List.not_mem_nil, or_false] at hm
    rcases hm with ⟨-, rfl⟩ | ⟨-, rfl⟩ <;> rfl

end StringDiagram.Diagram
