import StringDiagram.Proofs.Store.Reaches

/-! # Deep copies

A copy of a value is an image of all objects that can be reached from it: no two of them are joined,
every object of the image is new, and it refers to the images of what the old one refers to. Copies of
copies are copies, and nothing that happens elsewhere in the store spoils one. -/
namespace StringDiagram.Store

/-- The objects that can be reached from `b` in store `s` have an image in store `t`, among the objects
that are new there, and `b'` is `b` with references to the images. -/
def IsCopy (s : Store) (b : Value) (t : Store) (b' : Value) : Prop :=
  ∃ f : Ref → Ref, b.rename f = b' ∧
    (∀ p q, s.Reaches b p → s.Reaches b q → p < s.objects.length → q < s.objects.length →
      f p = f q → p = q) ∧
    ∀ q o, s.Reaches b q → s.objects[q]? = some o →
      s.objects.length ≤ f q ∧ t.objects[f q]? = some (o.rename f)

section Copy
variable {s : Store} {rs : List Ref}

theorem copyRef_of_mem {q : Ref} (hq : q ∈ rs) :
    ∃ i, rs[i]? = some q ∧ s.copyRef rs q = s.objects.length + i := by
  obtain ⟨i, hi⟩ := Option.isSome_iff_exists.mp (List.isSome_idxOf?.mpr hq)
  obtain ⟨hlt, hget, -⟩ := List.idxOf?_eq_some_iff.mp hi
  exact ⟨i, List.getElem?_eq_some_iff.mpr ⟨hlt, hget⟩, by rw [copyRef, hi]⟩

theorem copies_getElem? (hrs : ∀ q ∈ rs, q < s.objects.length) {i : Nat} {q : Ref}
    (hi : rs[i]? = some q) : (s.copies rs)[i]? = s.objects[q]?.map (Object.rename (s.copyRef rs)) := by
  unfold copies
  generalize s.copyRef rs = f
  induction rs generalizing i with
  | nil => simp at hi
  | cons p rs ih =>
    have hp := hrs p List.mem_cons_self
    rw [List.filterMap_cons, List.getElem?_eq_getElem hp]
    cases i with
    | zero =>
      cases hi
      simp [List.getElem?_eq_getElem hp]
    | succ i => exact ih (fun q hq => hrs q (List.mem_cons_of_mem p hq)) hi

/-- Where the copy of an object is put that can be reached from `r`. -/
theorem copy_getElem? {r q : Ref} {o : Object} (hr : r < s.objects.length) (hq : s.Leads r q)
    (ho : s.objects[q]? = some o) : s.objects.length ≤ s.copyRef (s.reachable r) q ∧
      (s.copy r).2.objects[s.copyRef (s.reachable r) q]? =
        some (o.rename (s.copyRef (s.reachable r))) := by
  have hql := (List.getElem?_eq_some_iff.mp ho).1
  obtain ⟨i, hi, hqi⟩ := copyRef_of_mem (s := s) (mem_reachable hr hq hql)
  rw [hqi]
  refine ⟨Nat.le_add_right _ _, ?_⟩
  rw [copy, List.getElem?_append_right (Nat.le_add_right _ _), Nat.add_sub_cancel_left,
    copies_getElem? (fun p hp => lt_of_mem_reachable hr hp) hi, ho]
  rfl

theorem copyRef_inj {r p q : Ref} (hr : r < s.objects.length) (hp : s.Leads r p) (hq : s.Leads r q)
    (hpl : p < s.objects.length) (hql : q < s.objects.length)
    (h : s.copyRef (s.reachable r) p = s.copyRef (s.reachable r) q) : p = q := by
  obtain ⟨i, hi, hpi⟩ := copyRef_of_mem (s := s) (mem_reachable hr hp hpl)
  obtain ⟨j, hj, hqj⟩ := copyRef_of_mem (s := s) (mem_reachable hr hq hql)
  have hij : i = j := Nat.add_left_cancel (hpi.symm.trans (h.trans hqj))
  rw [hij, hj] at hi
  exact (Option.some.inj hi).symm

/-- Copying the object at `r` copies every value in it. -/
theorem isCopy_rename {r : Ref} {b : Value} (hr : r < s.objects.length) (hb : ∀ q ∈ b.refs, s.Leads r q) :
    s.IsCopy b (s.copy r).2 (b.rename (s.copyRef (s.reachable r))) := by
  have hleads : ∀ {q}, s.Reaches b q → s.Leads r q := by
    rintro q ⟨p, hp, hq⟩
    exact (hb p hp).trans hq
  exact ⟨_, rfl, fun p q hp hq => copyRef_inj hr (hleads hp) (hleads hq),
    fun q o hq => copy_getElem? hr (hleads hq)⟩

theorem isCopy_copy {r : Ref} (hr : r < s.objects.length) :
    s.IsCopy (.ref r) (s.copy r).2 (.ref (s.copy r).1) := by
  apply isCopy_rename hr
  intro q hq
  rw [List.mem_singleton.mp hq]
  exact .refl

end Copy

/-- The copy of a value in an object stays a copy when the copy of the object changes, unless the value
leads back to the object. -/
theorem isCopy_rename_of_frame {s t : Store} {r : Ref} {b : Value} (hr : r < s.objects.length)
    (hb : ∀ q ∈ b.refs, s.Leads r q) (hn : ¬ s.Reaches b r)
    (hf : Frame (s.copy r).1 (s.copy r).2 t) :
    s.IsCopy b t (b.rename (s.copyRef (s.reachable r))) := by
  have hleads : ∀ {q}, s.Reaches b q → s.Leads r q := by
    rintro q ⟨p, hp, hq⟩
    exact (hb p hp).trans hq
  refine ⟨_, rfl, fun p q hp hq => copyRef_inj hr (hleads hp) (hleads hq), fun q o hq ho => ?_⟩
  obtain ⟨hle, hget⟩ := copy_getElem? hr (hleads hq) ho
  refine ⟨hle, hf.same _ _ (fun he => ?_) hget⟩
  have hql := (List.getElem?_eq_some_iff.mp ho).1
  have hqr : q = r := copyRef_inj hr (hleads hq) .refl hql hr he
  exact hn (hqr ▸ hq)

namespace IsCopy
variable {s s' t t' u : Store} {host : Ref} {b b' b'' : Value}

/-- Copying from a store in which nothing that is copied has changed. -/
theorem before (h : IsCopy s' b t b') (hf : Frame host s s') (hb : ¬ s.Reaches b host) :
    IsCopy s b t b' := by
  obtain ⟨f, hfb, hinj, hobj⟩ := h
  have hsame : ∀ q o, s.Reaches b q → s.objects[q]? = some o → s'.objects[q]? = some o :=
    fun q o hq ho => hf.same q o (fun he => hb (he ▸ hq)) ho
  have hlt : ∀ {q}, q < s.objects.length → q < s'.objects.length := fun h =>
    Nat.lt_of_lt_of_le h hf.length_le
  refine ⟨f, hfb, ?_, ?_⟩
  · intro p q hp hq hpl hql
    exact hinj p q (hp.mono hsame) (hq.mono hsame) (hlt hpl) (hlt hql)
  · intro q o hq ho
    obtain ⟨hle, hget⟩ := hobj q o (hq.mono hsame) (hsame q o hq ho)
    exact ⟨Nat.le_trans hf.length_le hle, hget⟩

theorem after (h : IsCopy s b t b') (hf : Frame host t t') (hh : host < s.objects.length) :
    IsCopy s b t' b' := by
  obtain ⟨f, hfb, hinj, hobj⟩ := h
  refine ⟨f, hfb, hinj, fun q o hq ho => ?_⟩
  obtain ⟨hle, hget⟩ := hobj q o hq ho
  have hne : f q ≠ host := fun he => Nat.not_le_of_lt hh (he ▸ hle)
  exact ⟨hle, hf.same _ _ hne hget⟩

theorem trans (h : IsCopy s b t b') (h' : IsCopy t b' u b'') (hle : s.objects.length ≤ t.objects.length) :
    IsCopy s b u b'' := by
  obtain ⟨f, rfl, hinj, hobj⟩ := h
  obtain ⟨g, rfl, hinj', hobj'⟩ := h'
  have himage : ∀ {q}, s.Reaches b q → t.Reaches (b.rename f) (f q) := by
    rintro q ⟨r, hr, hq⟩
    induction hq with
    | refl =>
      refine ⟨f r, ?_, .refl⟩
      rw [Value.refs_rename]
      exact List.mem_map_of_mem hr
    | tail hp hpq ih =>
      obtain ⟨o, ho, hmem⟩ := mem_refsAt.mp hpq
      refine ih.tail (mem_refsAt.mpr ⟨o.rename f, (hobj _ o ⟨r, hr, hp⟩ ho).2, ?_⟩)
      rw [Object.refs_rename]
      exact List.mem_map_of_mem hmem
  have hlt : ∀ {q}, s.Reaches b q → q < s.objects.length → f q < t.objects.length := by
    intro q hq hql
    have h := hobj q _ hq (List.getElem?_eq_getElem hql)
    exact (List.getElem?_eq_some_iff.mp h.2).1
  refine ⟨g ∘ f, (Value.rename_rename f g b).symm, ?_, ?_⟩
  · intro p q hp hq hpl hql he
    exact hinj p q hp hq hpl hql
      (hinj' _ _ (himage hp) (himage hq) (hlt hp hpl) (hlt hq hql) he)
  · intro q o hq ho
    obtain ⟨-, hget⟩ := hobj q o hq ho
    obtain ⟨hge, hget'⟩ := hobj' (f q) _ (himage hq) hget
    rw [Object.rename_rename] at hget'
    exact ⟨Nat.le_trans hle hge, hget'⟩

/-- The copy of a reference refers to the copy of the object. -/
theorem exists_ref {r : Ref} {o : Object} (h : IsCopy s (.ref r) t b') (ho : s.objects[r]? = some o) :
    ∃ r' f, b' = .ref r' ∧ t.objects[r']? = some (o.rename f) := by
  obtain ⟨f, rfl, -, hobj⟩ := h
  exact ⟨f r, f, rfl, (hobj r o (reaches_ref.mpr .refl) ho).2⟩

/-- A copy leads to new objects only. -/
theorem le_of_reaches (h : IsCopy s b t b') (hlt : ∀ q, s.Reaches b q → q < s.objects.length) {x : Ref}
    (hx : t.Reaches b' x) : s.objects.length ≤ x := by
  obtain ⟨f, rfl, -, hobj⟩ := h
  have himage : ∃ q, s.Reaches b q ∧ f q = x := by
    obtain ⟨r', hr', hx⟩ := hx
    rw [Value.refs_rename] at hr'
    obtain ⟨r, hr, rfl⟩ := List.mem_map.mp hr'
    induction hx with
    | refl => exact ⟨r, ⟨r, hr, .refl⟩, rfl⟩
    | tail _ hpx ih =>
      obtain ⟨p, hp, rfl⟩ := ih
      have hget := (hobj p _ hp (List.getElem?_eq_getElem (hlt p hp))).2
      obtain ⟨o, ho, hmem⟩ := mem_refsAt.mp hpx
      rw [hget, Option.some.injEq] at ho
      rw [← ho, Object.refs_rename] at hmem
      obtain ⟨q, hq, hqx⟩ := List.mem_map.mp hmem
      exact ⟨q, hp.tail (mem_refsAt.mpr ⟨_, List.getElem?_eq_getElem (hlt p hp), hq⟩), hqx⟩
  obtain ⟨q, hq, rfl⟩ := himage
  exact (hobj q _ hq (List.getElem?_eq_getElem (hlt q hq))).1

end IsCopy

end StringDiagram.Store
