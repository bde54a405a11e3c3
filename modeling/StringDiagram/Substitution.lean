import StringDiagram.Store.Edit
import StringDiagram.Store.Copy

/-! # Substitution

A box is replaced by what a diagram holds: its boxes come in under new identifiers, nested diagrams as
copies of their own, its wires are spliced onto whatever was connected to the box, and the box goes.
The diagram may be the host itself; its wires are taken after its boxes came in. -/
namespace StringDiagram.Action

def copyBox (box : Value) : Action Value := do
  let s ← get
  match s.asDiagram? box with
  | some (r, _) =>
    let (r, s) := s.copy r
    set s
    return .ref r
  | none => return box

def insertBoxes (host : Ref) : Table Nat Value → Action Diagram.IdMap
  | [] => return []
  | (u, box) :: rest => do
    let copied ← copyBox box
    let v ← insertBox host copied
    let ids ← insertBoxes host rest
    return (u, v) :: ids

def inline (host : Ref) (v : Nat) (inner : Ref) : Action Unit := do
  let sub ← diagram inner
  let ids ← insertBoxes host sub.boxes
  note (.substituting v ids)
  let sub ← diagram inner
  let d ← diagram host
  let (d, fault) := d.splice v ids sub.wires
  replace host d
  match fault with
  | some e => throw e
  | none => let _ ← removeBox host (.ofNat v)

/-- Substitutes a diagram for box `v`, or, if none is given, the box itself. An atomic box stays. -/
def substitute (host : Ref) (v sub : Value) : Action Unit := do
  let d ← diagram host
  let (n, box) ← ofExcept (d.boxes.resolve v)
  let s ← get
  match sub with
  | .null => match s.asDiagram? box with
    | some (inner, _) => inline host n inner
    | none => note (.atomic n)
  | sub => match s.asDiagram? sub with
    | some (inner, _) => inline host n inner
    | none => throw .missingAttribute

end StringDiagram.Action
