import StringDiagram.Proofs.Store.Held
import StringDiagram.Proofs.Store.Runs

/-! # What a run leaves alone

A call changes the diagram on which it is made and no other object, so an object stays as it is during any
run without calls on it: `run_elsewhere`. What is nested in a diagram is found by going from diagrams to
their boxes, which may lead in circles. -/
namespace StringDiagram.Store
variable {s t : Store} {p q r : Ref}

theorem frame_tracks (host : Ref) : Tracks host (Frame host) where
  refl := .refl host
  trans := .trans
  append := fun h _ => .of_append h
  set := fun _ _ => .of_set

theorem frame_call (s : Store) (r : Ref) (c : Call) : Frame r s (s.call r c) := c.keeps (frame_tracks r) s

/-- An object on which no call is made stays as it is. -/
theorem run_elsewhere {calls : List (Ref × Call)} (h : ∀ c ∈ calls, c.1 ≠ r) (hr : r < s.objects.length) :
    (s.run calls).objects[r]? = s.objects[r]? := by
  induction calls generalizing s with
  | nil => rfl
  | cons c calls ih =>
    have hf := frame_call s c.1 c.2
    have hne : r ≠ c.1 := (h c List.mem_cons_self).symm
    have hsame := hf.same r _ hne (List.getElem?_eq_getElem hr)
    have hrest := ih (s := s.call c.1 c.2) (fun c' hc' => h c' (List.mem_cons_of_mem c hc'))
      (Nat.lt_of_lt_of_le hr hf.length_le)
    exact hrest.trans (hsame.trans (List.getElem?_eq_getElem hr).symm)

inductive Nests (s : Store) (r : Ref) : Ref → Prop
  | self : Nests s r r
  | box {p q : Ref} {d e : Diagram} (h : Nests s r p) (hd : s.diagram? p = some d)
    (hb : .ref q ∈ d.boxes.values) (he : s.diagram? q = some e) : Nests s r q

/-- Boxes lead to nothing else than what all references lead to. -/
theorem Nests.leads (h : s.Nests r q) : s.Leads r q := by
  induction h with
  | self => exact .refl
  | box _ hd hb _ ih => exact ih.tail (mem_refsAt_of_box hd hb List.mem_cons_self)

theorem Nests.lt (h : s.Nests r q) (hr : r < s.objects.length) : q < s.objects.length := by
  cases h with
  | self => exact hr
  | box _ _ _ he => exact lt_of_diagram? he

/-- What is nested in a diagram is the diagram or can be reached from one of its boxes that is a diagram. -/
theorem Nests.cases_box {d : Diagram} (h : s.Nests r q) (hd : s.diagram? r = some d) : q = r ∨
    ∃ b ∈ d.boxes.values, (s.asDiagram? b).isSome = true ∧ s.Reaches b q := by
  induction h with
  | self => exact Or.inl rfl
  | box _ hd' hb he ih =>
    rcases ih with rfl | ⟨b, hmem, hsome, hreach⟩
    · obtain rfl := Option.some.inj (hd.symm.trans hd')
      exact Or.inr ⟨_, hb, by simp [asDiagram?, he], reaches_ref.mpr .refl⟩
    · exact Or.inr ⟨b, hmem, hsome, hreach.tail (mem_refsAt_of_box hd' hb List.mem_cons_self)⟩

end StringDiagram.Store
