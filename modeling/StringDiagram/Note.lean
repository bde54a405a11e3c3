import StringDiagram.Diagram.Splice

/-! # Notes

What an operation tells about itself while it runs. The names in a note are kept as they are, and
only read when the note is. -/
namespace StringDiagram

inductive Note where
  /-- Box `v` holds no diagram. -/
  | atomic (v : Nat)
  /-- The boxes of a diagram came in for box `v`, under new identifiers. -/
  | substituting (v : Nat) (ids : Diagram.IdMap)
  | composing (f g : Value)
  | tensoring (f g : Value)
deriving DecidableEq, Inhabited

end StringDiagram
