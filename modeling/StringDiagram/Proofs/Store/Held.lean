import StringDiagram.Proofs.Store.Copies

/-! # Boxes in other stores

A box of a diagram that is put into another is held there: a diagram as a copy, anything else as it is.
The lemmas say how this lasts while the store changes, and how one such step follows another. -/
namespace StringDiagram.Store

/-- How a box is held in another store: a diagram as a copy, anything else as it is. A reference to
nothing says nothing. -/
def Held (s : Store) (b : Value) (t : Store) (b' : Value) : Prop :=
  match b with
  | .ref r => match s.objects[r]? with
    | some (.diagram _) => s.IsCopy (.ref r) t b'
    | some _ => b' = b
    | none => True
  | _ => b' = b

def HeldAt (s : Store) (b : Value) (t : Store) (d : Diagram) (n : Nat) : Prop :=
  ∃ b', d.boxes.get? n = some b' ∧ s.Held b t b'

def CopiedAt (s : Store) (b : Value) (t : Store) (d : Diagram) (n : Nat) : Prop :=
  ∃ b', d.boxes.get? n = some b' ∧ s.IsCopy b t b'

def Apart (s : Store) (host : Ref) (b : Value) : Prop :=
  ∀ r d, b = .ref r → s.diagram? r = some d → ¬ s.Reaches b host

section Held
variable {s t : Store} {b' : Value} {r : Ref}

theorem diagram?_congr (h : t.objects[r]? = s.objects[r]?) : t.diagram? r = s.diagram? r := by
  rw [diagram?, h, ← diagram?]

theorem asDiagram?_eq_some {b : Value} {d : Diagram} :
    s.asDiagram? b = some (r, d) ↔ b = .ref r ∧ s.diagram? r = some d := by
  cases b with
  | ref q =>
    simp only [asDiagram?, Option.map_eq_some_iff, Prod.mk.injEq, Value.ref.injEq]
    constructor
    · rintro ⟨e, he, rfl, rfl⟩
      exact ⟨rfl, he⟩
    · rintro ⟨rfl, hd⟩
      exact ⟨d, hd, rfl, rfl⟩
  | _ => simp [asDiagram?]

theorem cases_at (s : Store) (r : Ref) : (∃ d, s.diagram? r = some d) ∨
    (∃ o, s.objects[r]? = some o ∧ s.diagram? r = none) ∨ s.objects[r]? = none := by
  cases ho : s.objects[r]? with
  | none => exact Or.inr (Or.inr rfl)
  | some o =>
    cases hd : s.diagram? r with
    | none => exact Or.inr (Or.inl ⟨o, rfl, rfl⟩)
    | some d => exact Or.inl ⟨d, rfl⟩

theorem held_of_diagram {d : Diagram} (hd : s.diagram? r = some d) :
    Held s (.ref r) t b' ↔ s.IsCopy (.ref r) t b' := by
  unfold Held
  simp only [diagram?_eq_some.mp hd]

theorem held_of_other {o : Object} (ho : s.objects[r]? = some o) (hd : s.diagram? r = none) :
    Held s (.ref r) t b' ↔ b' = .ref r := by
  unfold Held
  simp only [ho]
  cases o with
  | diagram d =>
    rw [diagram?_eq_some.mpr ho] at hd
    cases hd
  | _ => exact Iff.rfl

theorem held_of_missing (h : s.objects[r]? = none) : Held s (.ref r) t b' := by
  unfold Held
  simp only [h]

end Held

namespace Held
variable {s s' t t' u : Store} {host : Ref} {b b' b'' : Value}

theorem ref_cases {r : Ref} (h : Held s (.ref r) t b') :
    (∃ d, s.diagram? r = some d ∧ s.IsCopy (.ref r) t b') ∨
      (∃ o, s.objects[r]? = some o ∧ s.diagram? r = none ∧ b' = .ref r) ∨ s.objects[r]? = none := by
  rcases s.cases_at r with ⟨d, hd⟩ | ⟨o, ho, hd⟩ | hn
  · exact Or.inl ⟨d, hd, (held_of_diagram hd).mp h⟩
  · exact Or.inr (Or.inl ⟨o, ho, hd, (held_of_other ho hd).mp h⟩)
  · exact Or.inr (Or.inr hn)

/-- What is no diagram is held as it is. -/
theorem of_not_diagram (h : s.asDiagram? b = none) : Held s b t b := by
  cases b with
  | ref r =>
    rcases s.cases_at r with ⟨d, hd⟩ | ⟨o, ho, hd⟩ | hn
    · simp [asDiagram?, hd] at h
    · exact (held_of_other ho hd).mpr rfl
    · exact held_of_missing hn
  | _ => rfl

theorem eq_of_not_diagram (h : Held s b t b') (hn : s.asDiagram? b = none)
    (hlt : ∀ r ∈ b.refs, r < s.objects.length) : b' = b := by
  cases b with
  | ref r =>
    rcases h.ref_cases with ⟨d, hd, -⟩ | ⟨_, -, -, hr⟩ | hmissing
    · simp [asDiagram?, hd] at hn
    · exact hr
    · rw [List.getElem?_eq_getElem (hlt r List.mem_cons_self)] at hmissing
      cases hmissing
  | _ => exact h

/-- A box that was held when the host had changed, but nothing the box can reach. -/
theorem before (h : Held s' b t b') (hf : Frame host s s') {d : Diagram}
    (hd : s.diagram? host = some d) (hb : s.Apart host b) : Held s b t b' := by
  cases b with
  | ref r =>
    rcases s.cases_at r with ⟨e, hr⟩ | ⟨o, ho, hr⟩ | hn
    · have hn : ¬ s.Reaches (.ref r) host := hb r e rfl hr
      have hne : r ≠ host := fun he => hn (he ▸ reaches_ref.mpr .refl)
      have hc := (held_of_diagram (hf.diagram? hne hr)).mp h
      exact (held_of_diagram hr).mpr (hc.before hf hn)
    · have hne : r ≠ host := by
        rintro rfl
        rw [hd] at hr
        cases hr
      have ho' := hf.same r o hne ho
      have hr' : s'.diagram? r = none := (diagram?_congr (ho'.trans ho.symm)).trans hr
      exact (held_of_other ho hr).mpr ((held_of_other ho' hr').mp h)
    · exact held_of_missing hn
  | _ => exact h

theorem after (h : Held s b t b') (hf : Frame host t t') (hh : host < s.objects.length) :
    Held s b t' b' := by
  cases b with
  | ref r =>
    rcases h.ref_cases with ⟨d, hd, hc⟩ | ⟨o, ho, hd, hr⟩ | hn
    · exact (held_of_diagram hd).mpr (hc.after hf hh)
    · exact (held_of_other ho hd).mpr hr
    · exact held_of_missing hn
  | _ => exact h

/-- A box that was copied and is then held elsewhere is held there as a copy. -/
theorem isCopy (h' : Held t b' u b'') (h : IsCopy s b t b') (hb : ∀ r ∈ b.refs, r < s.objects.length)
    (hle : s.objects.length ≤ t.objects.length) (hf : Frame host t u) (hh : host < s.objects.length) :
    IsCopy s b u b'' := by
  cases b' with
  | ref r' =>
    rcases h'.ref_cases with ⟨_, -, hc⟩ | ⟨_, -, -, rfl⟩ | hmissing
    · exact h.trans hc hle
    · exact h.after hf hh
    · cases b with
      | ref r =>
        have hr := hb r List.mem_cons_self
        obtain ⟨q, _, hq, hget⟩ := h.exists_ref (List.getElem?_eq_getElem hr)
        cases hq
        rw [hget] at hmissing
        cases hmissing
      | _ =>
        obtain ⟨_, hrename, -⟩ := h
        cases hrename
  | _ =>
    obtain rfl : b'' = _ := h'
    exact h.after hf hh

/-- A box that is held elsewhere and from there again. -/
theorem trans (h : Held s b t b') (h' : Held t b' u b'')
    (hsame : ∀ (q : Ref) (o : Object), s.objects[q]? = some o → t.objects[q]? = some o)
    (hle : s.objects.length ≤ t.objects.length) : Held s b u b'' := by
  cases b with
  | ref r =>
    rcases h.ref_cases with ⟨d, hd, hc⟩ | ⟨o, ho, hd, rfl⟩ | hn
    · obtain ⟨r', f, rfl, hget⟩ := hc.exists_ref (diagram?_eq_some.mp hd)
      have hd' : t.diagram? r' = some (d.rename f) := diagram?_eq_some.mpr hget
      exact (held_of_diagram hd).mpr (hc.trans ((held_of_diagram hd').mp h') hle)
    · have ho' := hsame r o ho
      have hd' : t.diagram? r = none := (diagram?_congr (ho'.trans ho.symm)).trans hd
      exact (held_of_other ho hd).mpr ((held_of_other ho' hd').mp h')
    · exact held_of_missing hn
  | _ =>
    obtain rfl : b' = _ := h
    exact h'

/-- What is held leads to no diagram that was there, unless what was held does. -/
theorem apart (h : Held s b t b') (hs : s.Closed) (hb : ∀ r ∈ b.refs, r < s.objects.length)
    (hsame : ∀ (q : Ref) (o : Object), s.objects[q]? = some o → t.objects[q]? = some o)
    (hh : host < s.objects.length) : t.Apart host b' := by
  rintro r' d' rfl hr' hreach
  cases b with
  | ref r =>
    rcases h.ref_cases with ⟨_, -, hc⟩ | ⟨o, ho, hd, hr⟩ | hmissing
    · have hle := hc.le_of_reaches (fun _ => hs.lt_of_reaches hb) hreach
      exact Nat.not_lt.mpr hle hh
    · cases hr
      rw [diagram?_congr ((hsame r' o ho).trans ho.symm), hd] at hr'
      cases hr'
    · rw [List.getElem?_eq_getElem (hb r List.mem_cons_self)] at hmissing
      cases hmissing
  | _ => cases h

end Held

end StringDiagram.Store
