import StringDiagram.Box
import StringDiagram.Text.Lowercase

/-! # The wording of faults

Faults that come from the rules of diagrams say what they are about. There are no words where what
they are about cannot be written. -/
namespace StringDiagram.Fault

def message? (s : Store) (fault : Fault) : Option String :=
  let plain := fun (v : Value) => (s.text .plain v).toOption
  match fault with
  | .boundaryRemoval box => do
    return "Box " ++ (← plain box) ++ " is a boundary box of the diagram and cannot be removed."
  | .wireNotFound wire => do return (← plain wire) ++ " is not in the diagram."
  | .portOutOfRange connector ports => do
    let shown ← plain connector
    match connector.connector?.bind fun c => s.nameOf? c.kind with
    | some (.text side) =>
      return shown ++ " is out of range, box has " ++ toString ports ++ " "
        ++ Text.Lowercase.lower side ++ " ports."
    | _ => none
  | .incompatibleWire wire sourceType targetType => do
    return (← plain wire) ++ " connects a port of type " ++ (← plain sourceType)
      ++ " to a port of type " ++ (← plain targetType) ++ "."
  | .missingKey key => (s.text .quoted key).toOption
  | .halfEdge => some "Both source and target boxes must be given."
  | .notABox shown => some ("Cannot add " ++ shown ++ " as a box.")
  | .notAConnector shown => some ("Cannot interpret " ++ shown ++ " as a connector.")
  | .wrongType | .missingAttribute | .indexOutOfRange | .badValue | .notInList _
  | .unsupportedSide _ | .endlessText => none

end StringDiagram.Fault
