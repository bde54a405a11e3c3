import Mathlib.Data.List.Perm.Subperm
import StringDiagram.Store.Copy

/-! # What objects lead to

`Reaches` follows the references in a store, and `mem_reachable` says that the search for what is to be
copied finds all of it. A store with a `Frame` around one object has the others as they were. -/
namespace StringDiagram

/-- The references of a box are references of the diagram. -/
theorem Diagram.mem_refs_of_box {d : Diagram} {b : Value} (hb : b ∈ d.boxes.values) {q : Ref}
    (hq : q ∈ b.refs) : q ∈ d.refs := by
  have hmem : q ∈ Value.refsAll d.boxes.values := by
    rw [Value.refsAll_eq]
    exact List.mem_flatMap.mpr ⟨b, hb, hq⟩
  simp [refs, hmem]

namespace Store

def Leads (s : Store) : Ref → Ref → Prop := Relation.ReflTransGen fun p q => q ∈ s.refsAt p

def Reaches (s : Store) (b : Value) (q : Ref) : Prop := ∃ r ∈ b.refs, s.Leads r q

section Reaches
variable {s t : Store} {b : Value} {q r : Ref}

theorem mem_refsAt {p q : Ref} : q ∈ s.refsAt p ↔ ∃ o, s.objects[p]? = some o ∧ q ∈ o.refs := by
  unfold refsAt
  split
  · next o ho => simp [ho]
  · next ho => simp [ho]

theorem mem_refsAt_of_box {p : Ref} {d : Diagram} (hd : s.diagram? p = some d) (hb : b ∈ d.boxes.values)
    (hq : q ∈ b.refs) : q ∈ s.refsAt p :=
  mem_refsAt.mpr ⟨_, diagram?_eq_some.mp hd, Diagram.mem_refs_of_box hb hq⟩

theorem reaches_ref : s.Reaches (.ref r) q ↔ s.Leads r q := by simp [Reaches, Value.refs]

theorem Reaches.tail {p : Ref} (h : s.Reaches b p) (hq : q ∈ s.refsAt p) : s.Reaches b q := by
  obtain ⟨r, hr, hp⟩ := h
  exact ⟨r, hr, hp.tail hq⟩

/-- What can be reached stays so if the objects on the way stay as they are. -/
theorem Reaches.mono (h : ∀ q o, s.Reaches b q → s.objects[q]? = some o → t.objects[q]? = some o)
    (hq : s.Reaches b q) : t.Reaches b q := by
  obtain ⟨r, hr, hq⟩ := hq
  induction hq with
  | refl => exact ⟨r, hr, .refl⟩
  | tail hp hpq ih =>
    obtain ⟨o, ho, hmem⟩ := mem_refsAt.mp hpq
    exact ih.tail (mem_refsAt.mpr ⟨o, h _ o ⟨r, hr, hp⟩ ho, hmem⟩)

end Reaches

section Closure
variable {s : Store} {seen : List Ref}

theorem mem_grow {r : Ref} : r ∈ s.grow seen ↔
    r < s.objects.length ∧ (r ∈ seen ∨ ∃ q ∈ seen, r ∈ s.refsAt q) := by
  simp [grow]

theorem nodup_grow : (s.grow seen).Nodup := List.nodup_range.filter _

def Full (s : Store) (seen : List Ref) : Prop :=
  ∀ q ∈ seen, ∀ r ∈ s.refsAt q, r < s.objects.length → r ∈ seen

theorem length_le_objects (hn : seen.Nodup) (hs : ∀ r ∈ seen, r < s.objects.length) :
    seen.length ≤ s.objects.length := by
  have hsub : seen ⊆ List.range s.objects.length := fun r hr => List.mem_range.mpr (hs r hr)
  have h := (List.subperm_of_subset hn hsub).length_le
  rwa [List.length_range] at h

theorem full_of_length_eq (hn : seen.Nodup) (hs : ∀ r ∈ seen, r < s.objects.length)
    (h : (s.grow seen).length = seen.length) : s.Full seen := by
  have hsub : seen ⊆ s.grow seen := fun r hr => mem_grow.mpr ⟨hs r hr, Or.inl hr⟩
  have hperm := (List.subperm_of_subset hn hsub).perm_of_length_le (Nat.le_of_eq h)
  intro q hq r hr hlt
  exact hperm.mem_iff.mpr (mem_grow.mpr ⟨hlt, Or.inr ⟨q, hq, hr⟩⟩)

theorem closure_full {n : Nat} (hn : seen.Nodup) (hs : ∀ r ∈ seen, r < s.objects.length)
    (hlt : s.objects.length < n + seen.length) :
    s.Full (s.closure n seen) ∧ (∀ r ∈ seen, r ∈ s.closure n seen) ∧
      ∀ r ∈ s.closure n seen, r < s.objects.length := by
  induction n generalizing seen with
  | zero =>
    have h := length_le_objects hn hs
    omega
  | succ n ih =>
    rw [closure]
    split
    · next h => exact ⟨full_of_length_eq hn hs h, fun _ hr => hr, hs⟩
    · next h =>
      have hsub : seen ⊆ s.grow seen := fun r hr => mem_grow.mpr ⟨hs r hr, Or.inl hr⟩
      have hle := (List.subperm_of_subset hn hsub).length_le
      have hmore : s.objects.length < n + (s.grow seen).length := by omega
      obtain ⟨hfull, hin, hall⟩ := ih nodup_grow (fun r hr => (mem_grow.mp hr).1) hmore
      exact ⟨hfull, fun r hr => hin r (hsub hr), hall⟩

theorem mem_reachable {r q : Ref} (hr : r < s.objects.length) (h : s.Leads r q)
    (hq : q < s.objects.length) : q ∈ s.reachable r := by
  have hs : ∀ p ∈ [r], p < s.objects.length := fun p hp => by rwa [List.mem_singleton.mp hp]
  obtain ⟨hfull, hin, -⟩ := closure_full (n := s.objects.length) (by simp) hs (by simp)
  induction h with
  | refl => exact hin r List.mem_cons_self
  | tail _ hpq ih =>
    obtain ⟨o, ho, -⟩ := mem_refsAt.mp hpq
    exact hfull _ (ih (List.getElem?_eq_some_iff.mp ho).1) _ hpq hq

theorem not_reaches {r q : Ref} (hr : r < s.objects.length) (hq : q < s.objects.length)
    (h : q ∉ s.reachable r) : ¬ s.Reaches (.ref r) q :=
  fun hreach => h (mem_reachable hr (reaches_ref.mp hreach) hq)

theorem lt_of_mem_reachable {r q : Ref} (hr : r < s.objects.length) (h : q ∈ s.reachable r) :
    q < s.objects.length := by
  have hs : ∀ p ∈ [r], p < s.objects.length := fun p hp => by rwa [List.mem_singleton.mp hp]
  exact (closure_full (n := s.objects.length) (by simp) hs (by simp)).2.2 q h

end Closure

/-- What a change to the diagram at `host` leaves alone: all other objects. -/
structure Frame (host : Ref) (s t : Store) : Prop where
  length_le : s.objects.length ≤ t.objects.length
  same : ∀ q o, q ≠ host → s.objects[q]? = some o → t.objects[q]? = some o

namespace Frame
variable {host : Ref} {s t u : Store}

theorem refl (host : Ref) (s : Store) : Frame host s s := ⟨Nat.le_refl _, fun _ _ _ h => h⟩

theorem trans (h : Frame host s t) (h' : Frame host t u) : Frame host s u :=
  ⟨Nat.le_trans h.length_le h'.length_le, fun q o hq ho => h'.same q o hq (h.same q o hq ho)⟩

theorem of_append {os : List Object} (h : t.objects = s.objects ++ os) : Frame host s t := by
  refine ⟨?_, fun q o _ ho => ?_⟩
  · rw [h, List.length_append]
    exact Nat.le_add_right _ _
  · rw [h, List.getElem?_append_left (List.getElem?_eq_some_iff.mp ho).1, ho]

theorem of_set {o : Object} (h : t.objects = s.objects.set host o) : Frame host s t := by
  refine ⟨Nat.le_of_eq (by rw [h, List.length_set]), fun q o hq ho => ?_⟩
  rw [h, List.getElem?_set_ne (Ne.symm hq), ho]

theorem diagram? (h : Frame host s t) {q : Ref} {d : Diagram} (hq : q ≠ host)
    (hd : s.diagram? q = some d) : t.diagram? q = some d :=
  diagram?_eq_some.mpr (h.same q _ hq (diagram?_eq_some.mp hd))

end Frame

def Closed (s : Store) : Prop := ∀ q, ∀ r ∈ s.refsAt q, r < s.objects.length

theorem closed_of_forall {s : Store} (h : ∀ o ∈ s.objects, ∀ r ∈ o.refs, r < s.objects.length) :
    s.Closed := by
  intro q r hr
  obtain ⟨o, ho, hmem⟩ := mem_refsAt.mp hr
  exact h o (List.mem_of_getElem? ho) r hmem

theorem Closed.lt_of_box {s : Store} (hs : s.Closed) {r : Ref} {d : Diagram} (hd : s.diagram? r = some d)
    {b : Value} (hb : b ∈ d.boxes.values) : ∀ q ∈ b.refs, q < s.objects.length :=
  fun q hq => hs r q (mem_refsAt_of_box hd hb hq)

theorem Closed.lt_of_reaches {s : Store} (hs : s.Closed) {b : Value}
    (hb : ∀ r ∈ b.refs, r < s.objects.length) {q : Ref} (h : s.Reaches b q) : q < s.objects.length := by
  obtain ⟨r, hr, hq⟩ := h
  induction hq with
  | refl => exact hb r hr
  | tail _ hpq _ => exact hs _ _ hpq

/-- In a store that has grown nothing else can be reached from what was there. -/
theorem Closed.reaches_of_append {s t : Store} (hs : s.Closed) {b : Value}
    (hb : ∀ r ∈ b.refs, r < s.objects.length) {os : List Object} (ht : t.objects = s.objects ++ os)
    {q : Ref} (h : t.Reaches b q) : s.Reaches b q := by
  obtain ⟨r, hr, hq⟩ := h
  induction hq with
  | refl => exact ⟨r, hr, .refl⟩
  | tail _ hpq ih =>
    refine ih.tail ?_
    obtain ⟨o, ho, hmem⟩ := mem_refsAt.mp hpq
    rw [ht, List.getElem?_append_left (hs.lt_of_reaches hb ih)] at ho
    exact mem_refsAt.mpr ⟨o, ho, hmem⟩

end Store

end StringDiagram
