import StringDiagram.Proofs.Store.Matched
import StringDiagram.Proofs.Validity.Substituted

/-! # Boxes that came in

The operations of the category put the boxes of their operands into a new diagram while the store grows. A box
that came in is kept: a diagram as a copy of its own, which leads to nothing that was there, and anything
else as it is. -/
namespace StringDiagram

theorem mem_of_forall₂ {α β : Type} {R : α → β → Prop} {as : List α} {bs : List β}
    (h : List.Forall₂ R as bs) {b : β} (hb : b ∈ bs) : ∃ a ∈ as, R a b := by
  obtain ⟨i, hi, rfl⟩ := List.mem_iff_getElem.mp hb
  have hi' : i < as.length := h.length_eq ▸ hi
  exact ⟨as[i], List.getElem_mem hi', h.get hi' hi⟩

namespace Store
variable {s t u : Store} {host : Ref} {b b' b'' : Value}

/-- The box `b'` came into the diagram at `host` for the box `b` of store `s`. -/
def CameIn (s : Store) (host : Ref) (t : Store) (b b' : Value) : Prop :=
  ∃ u d, Grows s u ∧ u.diagram? host = some d ∧ u.Entered host d t b b'

def Kept (s : Store) (b : Value) (t : Store) (b' : Value) : Prop :=
  s.Matched b t b' ∧ (s.asDiagram? b = none → b' = b)

namespace Kept

theorem of_grows (hg : Grows s t) (hb : s.Rooted b) : s.Kept b t b := ⟨.of_grows hg hb, fun _ => rfl⟩

theorem trans (h : s.Kept b t b') (h' : t.Kept b' u b'') : s.Kept b u b'' := by
  refine ⟨h.1.trans h'.1, fun hn => ?_⟩
  obtain rfl := h.2 hn
  rcases h.1 with ⟨-, hn', -⟩ | ⟨hd, -⟩
  · exact h'.2 hn'
  · simp [hn] at hd

end Kept

namespace CameIn

theorem after (h : s.CameIn host t b b') (hf : Frame host t u) : s.CameIn host u b b' := by
  obtain ⟨v, d, hg, hd, he⟩ := h
  exact ⟨v, d, hg, hd, he.after hf⟩

theorem held (h : s.CameIn host t b b') (hb : s.Rooted b) (hh : s.objects.length ≤ host) :
    ∃ u, Grows s u ∧ u.Held b t b' := by
  obtain ⟨u, d, hg, hd, he⟩ := h
  refine ⟨u, hg, he.held hd (.refl host u) fun _ _ _ _ hreach => ?_⟩
  exact absurd (hb host ((hb.reaches_iff hg).mp hreach)) (Nat.not_lt.mpr hh)

theorem kept (h : s.CameIn host t b b') (hb : s.Rooted b) (hh : s.objects.length ≤ host) (hst : Grows s t) :
    s.Kept b t b' ∧ t.Rooted b' := by
  obtain ⟨u, hg, hheld⟩ := h.held hb hh
  obtain ⟨hm, hr⟩ := hheld.matched hb hg hst
  refine ⟨⟨hm, fun hn => ?_⟩, hr⟩
  exact hheld.eq_of_not_diagram ((hb.asDiagram? hg).trans hn) fun _ => (hb.grows hg).lt_of_ref

/-- A diagram that came in leads only to what was not there. -/
theorem le_of_reaches (h : s.CameIn host t b b') (hb : s.Rooted b) (hst : Grows s t)
    (hh : s.objects.length ≤ host) (hdiag : (t.asDiagram? b').isSome = true) {x : Ref}
    (hx : t.Reaches b' x) : s.objects.length ≤ x := by
  obtain ⟨u, hg, hheld⟩ := h.held hb hh
  cases hn : u.asDiagram? b with
  | none =>
    obtain rfl := hheld.eq_of_not_diagram hn fun _ => (hb.grows hg).lt_of_ref
    rw [hb.asDiagram? hst, ← hb.asDiagram? hg, hn] at hdiag
    cases hdiag
  | some found =>
    cases b with
    | ref r =>
      rcases hheld.ref_cases with ⟨_, -, hcopy⟩ | ⟨o, -, hnot, -⟩ | hmissing
      · exact Nat.le_trans hg.length_le (hcopy.le_of_reaches (hb.grows hg) hx)
      · simp [asDiagram?, hnot] at hn
      · simp [asDiagram?, diagram?, hmissing] at hn
    | _ => cases hn

end CameIn

end Store

end StringDiagram
