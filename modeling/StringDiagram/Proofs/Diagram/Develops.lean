import StringDiagram.Proofs.Diagram.Additions
import StringDiagram.Proofs.Diagram.Removals

/-! # What may become of a diagram

Every change keeps a consistent diagram consistent and gives no identifier a second time. Both are
properties of the diagram before and the one after, so that a run of changes has them too. -/
namespace StringDiagram

/-- What may become of a diagram: it stays consistent, and new boxes get identifiers that were not
given before. -/
structure Diagram.Develops (d d' : Diagram) : Prop where
  consistent : d.Consistent → d'.Consistent
  next_le : d.next ≤ d'.next
  fresh : ∀ n ∈ d'.boxes.keys, n ∈ d.boxes.keys ∨ d.next ≤ n

namespace Diagram.Develops
variable {d d' d'' : Diagram}

theorem refl (d : Diagram) : Develops d d := ⟨id, Nat.le_refl _, fun _ h => Or.inl h⟩

theorem trans (h : Develops d d') (h' : Develops d' d'') : Develops d d'' := by
  refine ⟨fun hd => h'.consistent (h.consistent hd), Nat.le_trans h.next_le h'.next_le, ?_⟩
  intro n hn
  rcases h'.fresh n hn with hn | hn
  · exact h.fresh n hn
  · exact Or.inr (Nat.le_trans h.next_le hn)

/-- A change that gives no identifier. -/
theorem of_boxes (hc : d.Consistent → d'.Consistent) (hn : d'.next = d.next)
    (hb : ∀ n ∈ d'.boxes.keys, n ∈ d.boxes.keys) : Develops d d' :=
  ⟨hc, Nat.le_of_eq hn.symm, fun n h => Or.inl (hb n h)⟩

theorem addBox (d : Diagram) (box : Value) : Develops d (d.addBox box) := by
  refine ⟨fun hd => hd.addBox box, Nat.le_succ _, ?_⟩
  intro n hn
  simp only [Diagram.addBox, Table.keys_append, List.mem_append, Table.keys_cons, Table.keys_nil,
    List.mem_singleton] at hn
  exact hn.imp id fun h => Nat.le_of_eq h.symm

theorem addWire {w : Wire} (h : d.addWire w = .ok d') : Develops d d' := by
  obtain ⟨s, t, -, -, -, -, hd'⟩ := addWire_eq_ok.mp h
  exact of_boxes (fun hd => hd.addWire h) (by rw [hd']; rfl) (by rw [hd']; exact fun _ hn => hn)

theorem extend (d : Diagram) (ws : List Wire) : Develops d (d.extend ws).1 := by
  induction ws generalizing d with
  | nil => exact refl d
  | cons w ws ih =>
    rw [Diagram.extend]
    cases h : d.addWire w with
    | ok d' => exact (addWire h).trans (ih d')
    | error e => exact refl d

theorem splice (d : Diagram) (v : Nat) (ids : IdMap) (ws : List Wire) :
    Develops d (d.splice v ids ws).1 := by
  induction ws generalizing d with
  | nil => exact refl d
  | cons w ws ih =>
    rw [Diagram.splice]
    cases d.splicedWires v ids w with
    | error e => exact refl d
    | ok new =>
      have hn := extend d new
      rcases h : d.extend new with ⟨d', _ | e⟩
      · rw [h] at hn
        simpa only [h] using hn.trans (ih d')
      · rw [h] at hn
        simpa only [h] using hn

theorem removeEdge (d : Diagram) (e : Nat × Nat) : Develops d (d.removeEdge e) :=
  of_boxes (fun hd => hd.removeEdge e) rfl fun _ h => h

theorem removeWire {w : Wire} (h : d.removeWire w = .ok d') : Develops d d' := by
  refine of_boxes (fun hd => hd.removeWire h) ?_ ?_ <;>
    obtain ⟨e, -, rfl | ⟨ws, -, -, rfl⟩⟩ := removeWire_cases h
  · rfl
  · rfl
  · exact fun _ hn => hn
  · exact fun _ hn => hn

theorem removeWires {src tgt : Value} (h : d.removeWires src tgt = .ok d') : Develops d d' := by
  obtain ⟨e, rfl⟩ := removeWires_cases h
  exact removeEdge d e

theorem removeBox {v box : Value} (h : d.removeBox v = .ok (box, d')) : Develops d d' := by
  obtain ⟨n, -, -, hd'⟩ := removeBox_cases h
  refine of_boxes (fun hd => hd.removeBox h) (by rw [hd']; rfl) ?_
  intro m hm
  rw [hd', unlink, Table.keys_remove] at hm
  exact (List.mem_filter.mp hm).1

end Diagram.Develops

end StringDiagram
