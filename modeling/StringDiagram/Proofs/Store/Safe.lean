import StringDiagram.Substitution
import StringDiagram.Proofs.Diagram.Develops

/-! # Safe actions

A relation between stores that tracks a diagram allows for copies and for changes to that diagram. It
holds between the stores before and after any action on the diagram, also when that is refused half way:
`keeps_substitute` and the lemmas before it. An action is safe if no diagram of any store comes to harm by
it, and this relation tracks every diagram. -/
namespace StringDiagram

def Store.Evolves (s s' : Store) : Prop :=
  ∀ r d, s.diagram? r = some d → ∃ d', s'.diagram? r = some d' ∧ d.Develops d'

namespace Store.Evolves
variable {s s' s'' : Store}

theorem refl (s : Store) : Evolves s s := fun _ d h => ⟨d, h, .refl d⟩

theorem trans (h : Evolves s s') (h' : Evolves s' s'') : Evolves s s'' := by
  intro r d hd
  obtain ⟨d', hd', hdd'⟩ := h r d hd
  obtain ⟨d'', hd'', hdd''⟩ := h' r d' hd'
  exact ⟨d'', hd'', hdd'.trans hdd''⟩

theorem of_append {os : List Object} (h : s'.objects = s.objects ++ os) : Evolves s s' := by
  intro r d hd
  rw [diagram?_eq_some] at hd
  have hr := (List.getElem?_eq_some_iff.mp hd).1
  refine ⟨d, ?_, .refl d⟩
  rw [diagram?_eq_some, h, List.getElem?_append_left hr, hd]

theorem of_set {r : Ref} {d d' : Diagram} (hd : s.diagram? r = some d) (hdd' : d.Develops d')
    (h : s'.objects = s.objects.set r (.diagram d')) : Evolves s s' := by
  intro q e he
  rw [diagram?_eq_some] at hd he
  by_cases hq : r = q
  · subst hq
    rw [hd] at he
    cases he
    refine ⟨d', ?_, hdd'⟩
    rw [diagram?_eq_some, h, List.getElem?_set_self (List.getElem?_eq_some_iff.mp hd).1]
  · exact ⟨e, by rw [diagram?_eq_some, h, List.getElem?_set_ne hq, he], .refl e⟩

end Store.Evolves

/-- A copied object is one of the store, with other references. -/
theorem Store.mem_copies {s : Store} {rs : List Ref} {o : Object} (h : o ∈ s.copies rs) :
    ∃ p ∈ s.objects, ∃ f, p.rename f = o := by
  obtain ⟨r, -, hr⟩ := List.mem_filterMap.mp h
  obtain ⟨p, hp, rfl⟩ := Option.map_eq_some_iff.mp hr
  exact ⟨p, List.mem_of_getElem? hp, _, rfl⟩

/-- The relation allows for copies of what is there and for what may become of the diagram at `host`. -/
structure Store.Tracks (host : Ref) (R : Store → Store → Prop) : Prop where
  refl : ∀ s, R s s
  trans : ∀ {s s' s''}, R s s' → R s' s'' → R s s''
  append : ∀ {s s' : Store} {os : List Object}, s'.objects = s.objects ++ os →
    (∀ o ∈ os, ∃ p ∈ s.objects, ∃ f, p.rename f = o) → R s s'
  set : ∀ {s s' : Store} {d d' : Diagram}, s.diagram? host = some d → d.Develops d' →
    s'.objects = s.objects.set host (.diagram d') → R s s'

theorem Store.evolves_tracks (host : Ref) : Store.Tracks host Store.Evolves where
  refl := .refl
  trans := .trans
  append := fun h _ => .of_append h
  set := .of_set

namespace Action
variable {α β : Type} {R : Store → Store → Prop} {host : Ref}

/-- The relation holds between the stores before and after the action, also when it is refused. -/
def Keeps (R : Store → Store → Prop) (a : Action α) : Prop := ∀ s : Store, R s (a.perform s).2

def Safe (a : Action α) : Prop := ∀ s : Store, s.Evolves (a.perform s).2

section
variable (hR : Store.Tracks host R)
include hR

theorem keeps_pure (x : α) : Keeps R (pure x) := hR.refl

theorem keeps_throw (e : Fault) : Keeps R (throw e : Action α) := hR.refl

theorem keeps_ofExcept (x : Except Fault α) : Keeps R (ofExcept x) := by
  intro s
  rw [perform_ofExcept]
  exact hR.refl s

theorem keeps_ask (question : Store → Except Fault α) : Keeps R (ask question) := by
  intro s
  rw [perform_ask]
  exact hR.refl s

theorem keeps_note (n : Note) : Keeps R (note n) := by
  intro s
  exact hR.append (List.append_nil _).symm fun _ ho => absurd ho List.not_mem_nil

theorem keeps_bind {a : Action α} {f : α → Action β} (ha : Keeps R a) (hf : ∀ x, Keeps R (f x)) :
    Keeps R (a >>= f) := by
  intro s
  have h := ha s
  rw [perform_bind]
  rcases hs : perform a s with ⟨x | e, s'⟩
  · rw [hs] at h
    exact h
  · rw [hs] at h
    exact hR.trans h (hf _ s')

/-- Only what is done to the diagram found needs to be looked at. -/
theorem keeps_diagram_bind {r : Ref} {f : Diagram → Action α}
    (h : ∀ (s : Store) (d : Diagram), s.diagram? r = some d → R s ((f d).perform s).2) :
    Keeps R (diagram r >>= f) := by
  intro s
  rw [perform_bind]
  cases hd : s.diagram? r with
  | none =>
    simp only [diagram, perform_ask, hd]
    exact hR.refl s
  | some d =>
    rw [perform_diagram hd]
    exact h s d hd

theorem keeps_insertBox (box : Value) : Keeps R (insertBox host box) := by
  apply keeps_diagram_bind hR
  intro s d hd
  exact hR.set hd (.addBox d box) rfl

theorem keeps_addBox (v : Value) : Keeps R (addBox host v) :=
  keeps_bind hR (keeps_ask hR _) fun box => keeps_insertBox hR box

theorem keeps_mapM {γ : Type} {f : γ → Action α} (hf : ∀ x, Keeps R (f x)) (xs : List γ) :
    Keeps R (xs.mapM f) := by
  induction xs with
  | nil => exact keeps_pure hR []
  | cons x xs ih =>
    rw [List.mapM_cons]
    exact keeps_bind hR (hf x) fun y => keeps_bind hR ih fun ys => keeps_pure hR (y :: ys)

theorem keeps_forM {γ : Type} {f : γ → Action PUnit} (hf : ∀ x, Keeps R (f x)) (xs : List γ) :
    Keeps R (xs.forM f) := by
  induction xs with
  | nil => exact keeps_pure hR _
  | cons x xs ih =>
    change Keeps R (f x >>= fun _ => xs.forM f)
    exact keeps_bind hR (hf x) fun _ => ih

theorem keeps_addBoxes (boxes : Value) : Keeps R (addBoxes host boxes) :=
  keeps_bind hR (keeps_ask hR _) fun vs => keeps_mapM hR (keeps_addBox hR) vs

theorem keeps_removeBox (v : Value) : Keeps R (removeBox host v) := by
  apply keeps_diagram_bind hR
  intro s d hd
  rw [perform_bind, perform_ofExcept]
  cases h : d.removeBox v with
  | error e => exact hR.refl s
  | ok p => exact hR.set hd (.removeBox h) rfl

end

theorem withWire_cases {s : Store} {d d' : Diagram} {v : Value} (h : s.withWire d v = .ok d') :
    ∃ w, d.addWire w = .ok d' := by
  unfold Store.withWire at h
  split at h
  · split at h
    · exact ⟨_, h⟩
    · obtain ⟨source, -, h⟩ := bind_eq_ok.mp h
      obtain ⟨target, -, h⟩ := bind_eq_ok.mp h
      obtain ⟨_, -, h⟩ := bind_eq_ok.mp h
      cases h
  · obtain ⟨w, -, h⟩ := bind_eq_ok.mp h
    exact ⟨w, h⟩

theorem withoutWire_cases {s : Store} {d d' : Diagram} {v : Value}
    (h : s.withoutWire d v = .ok d') : ∃ w, d.removeWire w = .ok d' := by
  unfold Store.withoutWire at h
  split at h
  · split at h
    · exact ⟨_, h⟩
    · obtain ⟨source, -, h⟩ := bind_eq_ok.mp h
      obtain ⟨target, -, h⟩ := bind_eq_ok.mp h
      obtain ⟨_, -, h⟩ := bind_eq_ok.mp h
      cases h
  · obtain ⟨w, -, h⟩ := bind_eq_ok.mp h
    exact ⟨w, h⟩

section
variable (hR : Store.Tracks host R)
include hR

theorem keeps_addWire (v : Value) : Keeps R (addWire host v) := by
  apply keeps_diagram_bind hR
  intro s d hd
  rw [perform_bind, perform_ask]
  cases h : s.withWire d v with
  | error e => exact hR.refl s
  | ok d' =>
    obtain ⟨w, hw⟩ := withWire_cases h
    exact hR.set hd (.addWire hw) rfl

theorem keeps_addWires (wires : Value) : Keeps R (addWires host wires) :=
  keeps_bind hR (keeps_ask hR _) fun vs => keeps_forM hR (keeps_addWire hR) vs

theorem keeps_removeWire (v : Value) : Keeps R (removeWire host v) := by
  apply keeps_diagram_bind hR
  intro s d hd
  rw [perform_bind, perform_ask]
  cases h : s.withoutWire d v with
  | error e => exact hR.refl s
  | ok d' =>
    obtain ⟨w, hw⟩ := withoutWire_cases h
    exact hR.set hd (.removeWire hw) rfl

theorem keeps_removeWires (src tgt : Value) : Keeps R (removeWires host src tgt) := by
  apply keeps_diagram_bind hR
  intro s d hd
  rw [perform_bind, perform_ofExcept]
  cases h : d.removeWires src tgt with
  | error e => exact hR.refl s
  | ok d' => exact hR.set hd (.removeWires h) rfl

theorem keeps_copyBox (box : Value) : Keeps R (copyBox box) := by
  intro s
  simp only [copyBox, perform_bind, perform_get]
  split
  · exact hR.append rfl fun _ => Store.mem_copies
  · exact hR.refl s

theorem keeps_insertBoxes (boxes : Table Nat Value) : Keeps R (insertBoxes host boxes) := by
  induction boxes with
  | nil => exact keeps_pure hR []
  | cons e rest ih =>
    exact keeps_bind hR (keeps_copyBox hR e.2) fun copied => keeps_bind hR (keeps_insertBox hR copied)
      fun v => keeps_bind hR ih fun ids => keeps_pure hR _

theorem keeps_inline (v : Nat) (inner : Ref) : Keeps R (inline host v inner) := by
  refine keeps_bind hR (keeps_ask hR _) fun sub => keeps_bind hR (keeps_insertBoxes hR sub.boxes)
    fun ids => keeps_bind hR (keeps_note hR _) fun _ => keeps_bind hR (keeps_ask hR _) fun sub =>
      keeps_diagram_bind hR ?_
  intro s d hd
  have hs := Diagram.Develops.splice d v ids sub.wires
  rcases h : d.splice v ids sub.wires with ⟨d', _ | e⟩
  · rw [h] at hs
    have hset : R s { s with objects := s.objects.set host (.diagram d') } := hR.set hd hs rfl
    exact hR.trans hset (keeps_bind hR (keeps_removeBox hR (.ofNat v)) (fun _ => keeps_pure hR _) _)
  · rw [h] at hs
    exact hR.set hd hs rfl

theorem keeps_substitute (v sub : Value) : Keeps R (substitute host v sub) := by
  refine keeps_bind hR (keeps_ask hR _) fun d => keeps_bind hR (keeps_ofExcept hR _) fun found s => ?_
  rw [perform_bind, perform_get]
  dsimp only
  split
  · split
    · exact keeps_inline hR _ _ s
    · exact keeps_note hR _ s
  · split
    · exact keeps_inline hR _ _ s
    · exact keeps_throw hR _ s

end

end Action

end StringDiagram
