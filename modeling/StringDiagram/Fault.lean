import StringDiagram.Value.Equality

/-! # Faults

Why an operation was refused. -/
namespace StringDiagram

inductive Fault where
  | boundaryRemoval (box : Value)
  | wireNotFound (wire : Value)
  /-- The box has only `ports` ports on that side. -/
  | portOutOfRange (connector : Value) (ports : Nat)
  | incompatibleWire (wire sourceType targetType : Value)
  | missingKey (key : Value)
  /-- Only one end of an edge was given. -/
  | halfEdge
  | notABox (shown : String)
  | notAConnector (shown : String)
  | wrongType
  | missingAttribute
  | indexOutOfRange
  | badValue
  /-- A list tells which element it was asked for in vain. -/
  | notInList (shown : String)
  /-- A drawn connector has to be on one of the two sides of its box. -/
  | unsupportedSide (shown : String)
  /-- The text of a value that is inside itself does not end. -/
  | endlessText
deriving DecidableEq, Inhabited

/-- An answer that is made of two comes only if both do. -/
theorem bind_eq_ok {α β : Type} {x : Except Fault α} {f : α → Except Fault β} {b : β} :
    x >>= f = .ok b ↔ ∃ a, x = .ok a ∧ f a = .ok b := by
  cases x with
  | error e => simp [bind, Except.bind]
  | ok a => simp [bind, Except.bind]

end StringDiagram
