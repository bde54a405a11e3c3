import StringDiagram.Store.Text

/-! # The text of notes

A note is a line of text as long as the names in it can be written. An action that is read out gives
its notes as they come, and the first that cannot be written ends it. -/
namespace StringDiagram

namespace Note

def shownIds (ids : Diagram.IdMap) : String :=
  let entry := fun (e : Nat × Nat) => toString e.1 ++ ": " ++ toString e.2
  "\x7b" ++ String.intercalate ", " (ids.map entry) ++ "\x7d"

def text (s : Store) : Note → Except Fault String
  | .atomic v => .ok ("Box " ++ toString v ++ " is atomic, nothing to substitute")
  | .substituting v ids =>
    .ok ("Substituting box " ++ toString v ++ ", inserted boxes " ++ shownIds ids)
  | .composing f g => do
    let f ← s.text .plain f
    let g ← s.text .plain g
    return "Composing " ++ f ++ " with " ++ g
  | .tensoring f g => do
    let f ← s.text .plain f
    let g ← s.text .plain g
    return "Tensoring " ++ f ++ " with " ++ g

def readable (s : Store) : List Note → List Note × Option Fault
  | [] => ([], none)
  | n :: ns => match n.text s with
    | .ok _ => (n :: (readable s ns).1, (readable s ns).2)
    | .error e => ([], some e)

end Note

namespace Action
variable {α : Type}

/-- The action with each note read when it is made. -/
def readOut (a : Action α) : Action α := do
  let s ← get
  let (result, after) := a.perform s
  let (notes, fault) := Note.readable after (after.notes.drop s.notes.length)
  set { after with notes := s.notes ++ notes }
  match fault with
  | some e => throw e
  | none => ofExcept result

end Action
end StringDiagram
