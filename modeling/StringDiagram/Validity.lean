import StringDiagram.Box
import StringDiagram.Wire.Given

/-! # Validity

A wire is valid when both its ends are ports that their boxes have, and the types of the two ports are
the same. The sides of the boundary are turned: the outputs of the input box are the inputs of the
diagram, the inputs of the output box its outputs, and there are no other ports on the boundary. -/
namespace StringDiagram.Store
open Diagram

def kindOf : Value → Except Fault Value
  | .connector _ k _ => .ok k
  | _ => .error .missingAttribute

def portOf : Value → Except Fault Value
  | .connector _ _ p => .ok p
  | _ => .error .missingAttribute

def portTypes (s : Store) (d : Diagram) (connector : Value) : Except Fault Value := do
  let b ← s.boxOf connector
  if isInput b then
    let kind ← kindOf connector
    return .list (if kind = .side .output then d.inputs else [])
  else if isOutput b then
    let kind ← kindOf connector
    return .list (if kind = .side .input then d.outputs else [])
  else
    let box ← d.box b
    let kind ← kindOf connector
    s.ports (if kind = .side .input then .input else .output) box

def portType (s : Store) (d : Diagram) (connector : Value) : Except Fault Value := do
  let types ← s.portTypes d connector
  let port ← portOf connector
  let i ← port.index
  let n ← types.length
  if 0 ≤ i ∧ i < n then s.item types port
  else .error (.portOutOfRange connector n)

def checkWire (s : Store) (d : Diagram) (wire : Value) : Except Fault Unit :=
  match wire with
  | .wire source target => do
    let sourceType ← s.portType d source
    let targetType ← s.portType d target
    if sourceType.same targetType then return
    else .error (.incompatibleWire wire sourceType targetType)
  | _ => .error .missingAttribute

def validate (s : Store) (d : Diagram) : Except Fault Unit :=
  d.wires.forM fun w => s.checkWire d w.toValue

end StringDiagram.Store
