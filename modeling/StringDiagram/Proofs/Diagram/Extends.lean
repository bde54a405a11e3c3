import Mathlib.Data.List.Flatten
import StringDiagram.Proofs.Diagram.Spliced

/-! # Diagrams with more wires

A diagram that is only wired on keeps what it had, and where it had it: each edge has its wires in front
of those that came, and the edges that were there are the first. That survives the removal of a box from
both diagrams. -/
namespace StringDiagram.Diagram

structure Extends (d d' : Diagram) : Prop extends Rewires d d' where
  edges_first : d.edges.keys <+: d'.edges.keys
  wiresOn_first : ∀ e, d.wiresOn e <+: d'.wiresOn e

namespace Extends
variable {d d' d'' : Diagram}

theorem refl (d : Diagram) : Extends d d := ⟨.refl d, List.prefix_rfl, fun _ => List.prefix_rfl⟩

theorem trans (h : Extends d d') (h' : Extends d' d'') : Extends d d'' where
  toRewires := h.toRewires.trans h'.toRewires
  edges_first := h.edges_first.trans h'.edges_first
  wiresOn_first e := (h.wiresOn_first e).trans (h'.wiresOn_first e)

theorem link (d : Diagram) (s t : Nat) (w : Wire) : Extends d (d.link s t w) where
  toRewires := ⟨rfl, rfl, rfl, rfl⟩
  edges_first := by
    rw [keys_link]
    split
    · apply List.prefix_rfl
    · apply List.prefix_append
  wiresOn_first e := by
    rw [wiresOn_link]
    split
    · apply List.prefix_append
    · apply List.prefix_rfl

theorem addWire {w : Wire} (h : d.addWire w = .ok d') : Extends d d' := by
  obtain ⟨s, t, -, -, -, -, rfl⟩ := addWire_eq_ok.mp h
  exact link d s t w

theorem extend (d : Diagram) (ws : List Wire) : Extends d (d.extend ws).1 := by
  induction ws generalizing d with
  | nil => exact refl d
  | cons w ws ih =>
    rw [Diagram.extend]
    cases h : d.addWire w with
    | ok d' => exact (addWire h).trans (ih d')
    | error e => exact refl d

theorem splice (d : Diagram) (v : Nat) (ids : IdMap) (ws : List Wire) :
    Extends d (d.splice v ids ws).1 := by
  induction ws generalizing d with
  | nil => exact refl d
  | cons w ws ih =>
    rw [Diagram.splice]
    cases d.splicedWires v ids w with
    | error e => exact refl d
    | ok new =>
      have hn := extend d new
      rcases h : d.extend new with ⟨d', _ | e⟩
      · rw [h] at hn
        simpa only [h] using hn.trans (ih d')
      · rw [h] at hn
        simpa only [h] using hn

end Extends

theorem wiresOn_without (d : Diagram) (v : Nat) (e : Nat × Nat) :
    (d.without v).wiresOn e = if e.1 = v ∨ e.2 = v then [] else d.wiresOn e := by
  split
  · next h =>
    have hnone : (d.without v).edges.get? e = none := by
      rw [Table.get?_eq_none, mem_edges_without]
      tauto
    rw [wiresOn, hnone]
    rfl
  · next h =>
    obtain ⟨h1, h2⟩ := not_or.mp h
    rw [wiresOn, get?_edges_without h1 h2, wiresOn]

theorem Extends.without {d d' : Diagram} (h : Extends d d') (v : Nat) :
    Extends (d.without v) (d'.without v) where
  inputs := h.inputs
  outputs := h.outputs
  boxes := congrArg (Table.remove · v) h.boxes
  next := h.next
  edges_first := by
    rw [edges_keys_without, edges_keys_without]
    exact h.edges_first.filter _
  wiresOn_first e := by
    rw [wiresOn_without, wiresOn_without]
    split
    · apply List.prefix_rfl
    · exact h.wiresOn_first e

/-- No wire is lost, and those that were there keep their order. -/
theorem Extends.wires_sublist {d d' : Diagram} (h : Extends d d') (hd : d.Consistent)
    (hd' : d'.Consistent) : d.wires.Sublist d'.wires := by
  rw [wires_eq_flatMap hd, wires_eq_flatMap hd']
  have hmore : (d.edges.keys.flatMap d'.wiresOn).Sublist (d'.edges.keys.flatMap d'.wiresOn) :=
    h.edges_first.sublist.flatMap d'.wiresOn
  apply List.Sublist.trans _ hmore
  exact List.Sublist.flatMap_right _ fun e _ => (h.wiresOn_first e).sublist

end StringDiagram.Diagram
