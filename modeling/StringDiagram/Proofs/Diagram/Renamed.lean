import StringDiagram.Object
import StringDiagram.Proofs.Diagram.Wires

/-! # Diagrams with other references

A copy of a diagram has other references in its types, boxes and ports, but the same boxes by number and the
same wires between them. Ports of a copy are the same as ports elsewhere only if no reference is in them:
`Value.same_rename`. -/
namespace StringDiagram

namespace Value

mutual

theorem refs_norm : ∀ v : Value, v.norm.refs = v.refs
  | .list vs | .tuple vs | .product vs | .row vs => by simp only [norm, refs, refsAll_normAll vs]
  | .connector b k p => by simp only [norm, refs, refs_norm b, refs_norm k, refs_norm p]
  | .wire s t => by simp only [norm, refs, refs_norm s, refs_norm t]
  | .hom n ds cs => by simp only [norm, refs, refs_norm n, refsAll_normAll ds, refsAll_normAll cs]
  | .atomic e => by simp only [norm, refs, refs_norm e]
  | .operation o _ => by simp only [norm, refs, refs_norm o]
  | .truth b => by cases b <;> rfl
  | .ref _ | .null | .int _ | .text _ | .object _ | .side _ | .palette _ => rfl

theorem refsAll_normAll : ∀ vs : List Value, refsAll (normAll vs) = refsAll vs
  | [] => rfl
  | v :: vs => by simp only [normAll, refsAll, refs_norm v, refsAll_normAll vs]

end

theorem refs_eq_of_same {v w : Value} (h : v.same w = true) : v.refs = w.refs := by
  rw [← refs_norm v, same_iff.mp h, refs_norm]

/-- Values whose references were replaced by different ones are the same only if they have none. -/
theorem same_rename {f g : Ref → Ref} {v w : Value} (h : ∀ i ∈ v.refs, ∀ j ∈ w.refs, f i ≠ g j) :
    (v.rename f).same (w.rename g) = true ↔ v.same w = true ∧ w.refs = [] := by
  constructor
  · intro hs
    have hrefs := refs_eq_of_same hs
    rw [refs_rename, refs_rename] at hrefs
    cases hw : w.refs with
    | nil =>
      have hv : v.refs = [] := by simpa [hw] using hrefs
      rw [rename_eq_self f v hv, rename_eq_self g w hw] at hs
      exact ⟨hs, rfl⟩
    | cons j ws =>
      cases hv : v.refs with
      | nil => simp [hv, hw] at hrefs
      | cons i vs =>
        rw [hv, hw, List.map_cons, List.map_cons, List.cons.injEq] at hrefs
        exact absurd hrefs.1 (h i (by simp [hv]) j (by simp [hw]))
  · rintro ⟨hs, hw⟩
    rw [rename_eq_self f v ((refs_eq_of_same hs).trans hw), rename_eq_self g w hw]
    exact hs

/-- A value without references is the same as before, whatever was replaced in the other one. -/
theorem same_rename_left {f : Ref → Ref} {v w : Value} (hw : w.refs = []) :
    (v.rename f).same w = v.same w := by
  have h := same_rename (f := f) (g := f) (v := v) (w := w) (by simp [hw])
  rw [rename_eq_self f w hw] at h
  rw [Bool.eq_iff_iff, h]
  exact and_iff_left hw

theorem boxId?_rename (f : Ref → Ref) (v : Value) : (v.rename f).boxId? = v.boxId? := by
  cases v <;> rfl

end Value

namespace Connector
variable {f g : Ref → Ref} {c : Connector}

theorem isOn_rename (f : Ref → Ref) (c : Connector) (n : Nat) : (c.rename f).isOn n = c.isOn n := by
  rw [isOn, rename, Value.boxId?_rename, isOn]

theorem rename_rename (f g : Ref → Ref) (c : Connector) : (c.rename f).rename g = c.rename (g ∘ f) := by
  simp only [rename, Value.rename_rename]

end Connector

theorem Wire.rename_eq_self (f : Ref → Ref) {w : Wire} (h : w.toValue.refs = []) : w.rename f = w := by
  have hv : (w.rename f).toValue = w.toValue := Value.rename_eq_self f _ h
  obtain ⟨⟨b, k, p⟩, ⟨b', k', p'⟩⟩ := w
  simpa [Wire.toValue, Connector.toValue, Wire.rename, Connector.rename] using hv

theorem Table.get?_map {α β : Type} {κ : Type} [DecidableEq κ] (t : Table κ α) (g : α → β) (k : κ) :
    Table.get? (t.map fun e => (e.1, g e.2)) k = (t.get? k).map g := by
  induction t with
  | nil => rfl
  | cons e t ih =>
    rw [List.map_cons, Table.get?_cons, Table.get?_cons, ih]
    split <;> rfl

namespace Diagram
variable (f : Ref → Ref) {e : Diagram}

theorem keys_rename (e : Diagram) : (e.rename f).boxes.keys = e.boxes.keys := by
  simp [rename, Table.keys]

theorem values_rename (e : Diagram) : (e.rename f).boxes.values = e.boxes.values.map (Value.rename f) := by
  simp [rename, Table.values]

theorem get?_rename (e : Diagram) (n : Nat) :
    (e.rename f).boxes.get? n = (e.boxes.get? n).map (Value.rename f) :=
  Table.get?_map e.boxes (Value.rename f) n

theorem wiresOn_rename (e : Diagram) (edge : Nat × Nat) :
    (e.rename f).wiresOn edge = (e.wiresOn edge).map (Wire.rename f) := by
  have hget : (e.rename f).edges.get? edge = (e.edges.get? edge).map (List.map (Wire.rename f)) :=
    Table.get?_map e.edges (List.map (Wire.rename f)) edge
  rw [wiresOn, hget, wiresOn]
  cases e.edges.get? edge <;> rfl

theorem wires_rename (e : Diagram) : (e.rename f).wires = e.wires.map (Wire.rename f) := by
  simp [wires, rename, Table.values, List.map_flatten, Function.comp_def]

/-- Consistency is a matter of the boxes' numbers and of the edges. -/
theorem Consistent.rename (he : e.Consistent) : (e.rename f).Consistent := by
  have hlive : (e.rename f).live = e.live := by rw [live, keys_rename, live]
  have hkeys : (e.rename f).edges.keys = e.edges.keys := by simp [Diagram.rename, Table.keys]
  refine ⟨hlive ▸ he.succ_keys, hlive ▸ he.pred_keys, hlive ▸ he.ascending, hlive ▸ he.below_next,
    hkeys ▸ he.edges_nodup, by rw [hlive, hkeys]; exact he.edge_live, fun x ws hget => ?_, fun x w hw => ?_, ?_, ?_⟩
  · obtain ⟨ws, hws, rfl⟩ := Option.map_eq_some_iff.mp
      ((Table.get?_map e.edges (List.map (Wire.rename f)) x).symm.trans hget)
    exact fun h => he.edge_nonempty x ws hws (List.map_eq_nil_iff.mp h)
  · rw [wiresOn_rename] at hw
    obtain ⟨y, hy, rfl⟩ := List.mem_map.mp hw
    have hends := he.edge_wire x y hy
    exact ⟨(Value.boxId?_rename f _).trans hends.1, (Value.boxId?_rename f _).trans hends.2⟩
  · rw [show (e.rename f).targets = e.targets by funext s; rw [targets, hkeys, targets]]
    exact he.out
  · rw [show (e.rename f).sources = e.sources by funext t; rw [sources, hkeys, sources]]
    exact he.into

end Diagram
end StringDiagram
