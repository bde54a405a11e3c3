import Mathlib.Data.List.Perm.Basic
import StringDiagram.Proofs.Diagram.Additions
import StringDiagram.Proofs.Diagram.Removals

/-! # The wires of a consistent diagram

The wires at a port are found through the neighbours of its box. In a consistent diagram they are
exactly the wires of the diagram with that end, in the order of the diagram, and every change of the
tables is a change of this one list: `wires_link`, `wires_without`. -/
namespace StringDiagram.Diagram
variable {d : Diagram}

theorem flatMap_filter_of_eq_nil {α β : Type} {l : List α} {p : α → Bool} {f : α → List β}
    (h : ∀ a ∈ l, p a = false → f a = []) : (l.filter p).flatMap f = l.flatMap f := by
  induction l with
  | nil => rfl
  | cons a l ih =>
    have ih := ih fun b hb => h b (List.mem_cons_of_mem _ hb)
    rw [List.filter_cons, List.flatMap_cons]
    cases hp : p a with
    | true => rw [if_pos rfl, List.flatMap_cons, ih]
    | false => rw [if_neg (by simp), ih, h a List.mem_cons_self hp, List.nil_append]

theorem filter_flatMap_of_forall {α β : Type} {l : List α} {p : α → Bool} {q : β → Bool}
    {f : α → List β} (h : ∀ a ∈ l, ∀ b ∈ f a, q b = p a) :
    (l.flatMap f).filter q = (l.filter p).flatMap f := by
  rw [List.filter_flatMap, ← flatMap_filter_of_eq_nil (p := p) (l := l)]
  · apply List.flatMap_congr
    intro a ha
    obtain ⟨ha, hp⟩ := List.mem_filter.mp ha
    exact List.filter_eq_self.mpr fun b hb => (h a ha b hb).trans hp
  · intro a ha hp
    exact List.filter_eq_nil_iff.mpr fun b hb => by simp [h a ha b hb, hp]

theorem wiresOn_of_mem (hd : d.Consistent) {e : (Nat × Nat) × List Wire} (he : e ∈ d.edges) :
    d.wiresOn e.1 = e.2 := by
  rw [wiresOn, Table.get?_of_mem hd.edges_nodup he]
  rfl

theorem wires_eq_flatMap (hd : d.Consistent) : d.wires = d.edges.keys.flatMap d.wiresOn := by
  rw [wires, Table.values, Table.keys, List.flatMap_map, ← List.flatMap_def]
  apply List.flatMap_congr
  intro e he
  exact (wiresOn_of_mem hd he).symm

theorem mem_wires (hd : d.Consistent) {w : Wire} :
    w ∈ d.wires ↔ ∃ e ∈ d.edges.keys, w ∈ d.wiresOn e := by
  rw [wires_eq_flatMap hd, List.mem_flatMap]

/-- Both ends of every wire are on boxes that are there. -/
theorem Consistent.ends_live (hd : d.Consistent) {w : Wire} (hw : w ∈ d.wires) :
    ∃ s t, w.source.box.boxId? = some s ∧ w.target.box.boxId? = some t ∧ s ∈ d.live ∧ t ∈ d.live := by
  obtain ⟨e, he, hw⟩ := (mem_wires hd).mp hw
  have hb := hd.edge_wire e w hw
  have hl := hd.edge_live e he
  exact ⟨e.1, e.2, hb.1, hb.2, hl.1, hl.2⟩

/-- Wires of a kind that is found on certain edges only. -/
theorem filter_wires (hd : d.Consistent) {p : Nat × Nat → Bool} {q : Wire → Bool}
    (h : ∀ e, ∀ w ∈ d.wiresOn e, q w = true → p e = true) :
    d.wires.filter q = (d.edges.keys.filter p).flatMap fun e => (d.wiresOn e).filter q := by
  rw [wires_eq_flatMap hd, List.filter_flatMap, ← flatMap_filter_of_eq_nil]
  intro e _ hp
  apply List.filter_eq_nil_iff.mpr
  intro w hw hq
  rw [h e w hw hq] at hp
  cases hp

theorem inWires_eq (hd : d.Consistent) {c : Connector} {t : Nat} (hc : c.box.boxId? = some t)
    (ht : t ∈ d.live) : d.inWires c = .ok (d.wires.filter (·.target.same c)) := by
  obtain ⟨into, hinto, hk⟩ := hd.exists_into ht
  have hedge : ∀ e, ∀ w ∈ d.wiresOn e, w.target.same c = true → decide (e.2 = t) = true := by
    intro e w hw hs
    have hb := Value.boxId?_eq_of_same (Connector.same_iff.mp hs).1
    rw [(hd.edge_wire e w hw).2, hc] at hb
    exact decide_eq_true (Option.some.inj hb)
  rw [inWires, Table.resolve_eq_ok.mpr ⟨hc, hinto⟩, filter_wires hd hedge]
  simp only [bind, Except.bind, pure, Except.pure, Except.ok.injEq, hk, sources, List.flatMap_map]
  apply List.flatMap_congr
  intro e he
  rw [← of_decide_eq_true (List.mem_filter.mp he).2]

theorem outWires_eq (hd : d.Consistent) {c : Connector} {s : Nat} (hc : c.box.boxId? = some s)
    (hs : s ∈ d.live) : d.outWires c = .ok (d.wires.filter (·.source.same c)) := by
  obtain ⟨out, hout, hk⟩ := hd.exists_out hs
  have hedge : ∀ e, ∀ w ∈ d.wiresOn e, w.source.same c = true → decide (e.1 = s) = true := by
    intro e w hw hsame
    have hb := Value.boxId?_eq_of_same (Connector.same_iff.mp hsame).1
    rw [(hd.edge_wire e w hw).1, hc] at hb
    exact decide_eq_true (Option.some.inj hb)
  rw [outWires, Table.resolve_eq_ok.mpr ⟨hc, hout⟩, filter_wires hd hedge]
  simp only [bind, Except.bind, pure, Except.pure, Except.ok.injEq, hk, targets, List.flatMap_map]
  apply List.flatMap_congr
  intro e he
  rw [← of_decide_eq_true (List.mem_filter.mp he).2]

theorem Table.values_put_perm {κ α : Type} [DecidableEq κ] (t : Table κ (List α)) (k : κ) (a : α) :
    (t.put k (((t.get? k).getD []) ++ [a])).values.flatten.Perm (t.values.flatten ++ [a]) := by
  induction t with
  | nil => simp [Table.put, Table.values]
  | cons e t ih =>
    by_cases he : e.1 = k
    · simp only [Table.put, Table.get?_cons, he, if_true, Option.getD_some, Table.values, List.map_cons,
        List.flatten_cons, List.append_assoc]
      exact List.Perm.append_left _ List.perm_append_comm
    · simp only [Table.put, Table.get?_cons, he, if_false, Table.values, List.map_cons,
        List.flatten_cons, List.append_assoc] at ih ⊢
      exact List.Perm.append_left _ ih

theorem wires_link (d : Diagram) (s t : Nat) (w : Wire) :
    (d.link s t w).wires.Perm (d.wires ++ [w]) := Table.values_put_perm d.edges (s, t) w

theorem wires_without (hd : d.Consistent) (v : Nat) :
    (d.without v).wires = d.wires.filter fun w => !w.source.isOn v && !w.target.isOn v := by
  rw [wires, edges_without, wires, Table.values, Table.values, ← List.flatMap_def, ← List.flatMap_def]
  refine (filter_flatMap_of_forall fun e he w hw => ?_).symm
  rw [← wiresOn_of_mem hd he] at hw
  have hb := hd.edge_wire e.1 w hw
  simp [Connector.isOn, hb.1, hb.2]

end StringDiagram.Diagram
