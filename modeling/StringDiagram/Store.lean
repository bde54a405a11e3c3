import StringDiagram.Object
import StringDiagram.Note

/-! # The store

All objects, each at its reference, and the notes made so far. An action reads and changes the store
and may be refused; what it did before it was refused stays. The lemmas say what each basic action
does to a store when it is performed. -/
namespace StringDiagram

structure Store where
  objects : List Object
  notes : List Note
deriving DecidableEq, Inhabited

abbrev Action := ExceptT Fault (StateM Store)

namespace Store

def empty : Store := ⟨[], []⟩

def diagram? (s : Store) (r : Ref) : Option Diagram :=
  match s.objects[r]? with
  | some (.diagram d) => some d
  | _ => none

def asDiagram? (s : Store) : Value → Option (Ref × Diagram)
  | .ref r => (s.diagram? r).map (r, ·)
  | _ => none

theorem diagram?_eq_some {s : Store} {r : Ref} {d : Diagram} :
    s.diagram? r = some d ↔ s.objects[r]? = some (.diagram d) := by
  unfold diagram?
  split <;> simp_all

theorem lt_of_diagram? {s : Store} {r : Ref} {d : Diagram} (h : s.diagram? r = some d) :
    r < s.objects.length :=
  (List.getElem?_eq_some_iff.mp (diagram?_eq_some.mp h)).1

theorem diagram?_set {s : Store} {r : Ref} {d : Diagram} (h : s.diagram? r = some d) (d' : Diagram) :
    diagram? { s with objects := s.objects.set r (.diagram d') } r = some d' := by
  rw [diagram?_eq_some]
  exact List.getElem?_set_self (lt_of_diagram? h)

end Store

namespace Action
variable {α β : Type}

def perform (a : Action α) (s : Store) : Except Fault α × Store := a.run.run s

def allocate (o : Object) : Action Ref := do
  let s ← get
  set { s with objects := s.objects ++ [o] }
  return s.objects.length

def note (n : Note) : Action Unit :=
  modify fun s => { s with notes := s.notes ++ [n] }

def ask (question : Store → Except Fault α) : Action α := do
  let s ← get
  ofExcept (question s)

def diagram (r : Ref) : Action Diagram :=
  ask fun s => match s.diagram? r with
    | some d => .ok d
    | none => .error .missingAttribute

def replace (r : Ref) (d : Diagram) : Action Unit :=
  modify fun s => { s with objects := s.objects.set r (.diagram d) }

@[simp] theorem perform_pure (x : α) (s : Store) : perform (pure x) s = (.ok x, s) := rfl

theorem perform_bind (a : Action α) (f : α → Action β) (s : Store) :
    perform (a >>= f) s = match perform a s with
      | (.ok x, s') => perform (f x) s'
      | (.error e, s') => (.error e, s') := by
  simp only [perform, ExceptT.run_bind, StateT.run_bind]
  rcases h : (ExceptT.run a).run s with ⟨r, s'⟩
  cases r <;> rfl

/-- An action in two steps succeeds if both do. -/
theorem perform_bind_eq_ok {a : Action α} {f : α → Action β} {s t : Store} {y : β} :
    perform (a >>= f) s = (.ok y, t) ↔ ∃ x u, perform a s = (.ok x, u) ∧ perform (f x) u = (.ok y, t) := by
  rw [perform_bind]
  rcases perform a s with ⟨e | x, u⟩
  · simp
  · simp only [Prod.mk.injEq, Except.ok.injEq]
    exact ⟨fun h => ⟨x, u, ⟨rfl, rfl⟩, h⟩, fun ⟨_, _, ⟨hx, hu⟩, h⟩ => hx ▸ hu ▸ h⟩

@[simp] theorem perform_throw (e : Fault) (s : Store) :
    perform (throw e : Action α) s = (.error e, s) := rfl

@[simp] theorem perform_get (s : Store) : perform get s = (.ok s, s) := rfl

@[simp] theorem perform_set (s s' : Store) : perform (set s') s = (.ok (), s') := rfl

@[simp] theorem perform_ofExcept (x : Except Fault α) (s : Store) :
    perform (ofExcept x) s = (x, s) := by
  cases x <;> rfl

@[simp] theorem perform_ask (question : Store → Except Fault α) (s : Store) :
    perform (ask question) s = (question s, s) := by
  simp [ask, perform_bind]

@[simp] theorem perform_note (n : Note) (s : Store) :
    perform (note n) s = (.ok (), { s with notes := s.notes ++ [n] }) := rfl

@[simp] theorem perform_allocate (o : Object) (s : Store) :
    perform (allocate o) s = (.ok s.objects.length, { s with objects := s.objects ++ [o] }) := rfl

theorem perform_diagram {s : Store} {r : Ref} {d : Diagram} (h : s.diagram? r = some d) :
    perform (diagram r) s = (.ok d, s) := by
  simp [diagram, h]

@[simp] theorem perform_replace (r : Ref) (d : Diagram) (s : Store) :
    perform (replace r d) s = (.ok (), { s with objects := s.objects.set r (.diagram d) }) := rfl

end Action
end StringDiagram
