import StringDiagram.Sequence
import StringDiagram.Store.Text

/-! # Ways to give a wire

A connector is given as itself, as box, side and port, or as box and port; then it is on the side that
its end of the wire asks for. Lists, tuples and rows may hold these parts. -/
namespace StringDiagram.Store

def moved (connector box : Value) : Except Fault Value :=
  match connector.connector? with
  | some c => .ok (c.withBox box).toValue
  | none => .error .missingAttribute

def connector (s : Store) (side : Side) (spec : Value) : Except Fault Connector :=
  match spec with
  | .connector b k p => .ok ⟨b, k, p⟩
  | .list [b, .side k, p] | .tuple [b, .side k, p] | .row [b, .side k, p] => .ok ⟨b, .side k, p⟩
  | .list [b, p] | .tuple [b, p] | .row [b, p] => .ok ⟨b, .side side, p⟩
  | v => do .error (.notAConnector (← s.text .quoted v))

def wireOfPair (s : Store) (pair : Value) : Except Fault Wire := do
  match ← s.elements pair with
  | [a, b] =>
    let source ← s.connector .output a
    let target ← s.connector .input b
    return ⟨source, target⟩
  | _ => .error .badValue

def wireOfPorts (s : Store) (a b : Value) : Except Fault Wire := do
  let source := Connector.output (← s.item a (.int 0)) (← s.item a (.int 1))
  let target := Connector.input (← s.item b (.int 0)) (← s.item b (.int 1))
  return ⟨source, target⟩

def connectorOfTriple (s : Store) (v : Value) : Except Fault Connector := do
  match ← s.elements v with
  | [b, k, p] => return ⟨b, k, p⟩
  | _ => .error .wrongType

def wireOfTriples (s : Store) (a b : Value) : Except Fault Wire := do
  let source ← s.connectorOfTriple a
  let target ← s.connectorOfTriple b
  return ⟨source, target⟩

/-- What a value has for a box: a connector the box it is on, a palette a colour, a diagram the
operation that gives its boxes. -/
def boxOf (s : Store) (v : Value) : Except Fault Value :=
  match v with
  | .connector b _ _ => .ok b
  | .palette p => .ok (.text p.box)
  | .ref r => match s.diagram? r with
    | some _ => .ok (.operation v "WiringDiagram.box")
    | none => .error .missingAttribute
  | _ => .error .missingAttribute

def boxesOf (s : Store) : Value → Except Fault (List Value)
  | .wire a b => do
    let source ← s.boxOf a
    let target ← s.boxOf b
    return [source, target]
  | .ref r => match s.diagram? r with
    | some d => .ok d.boxes.values
    | none => .error .missingAttribute
  | _ => .error .missingAttribute

def inWires (s : Store) (d : Diagram) (v : Value) : Except Fault (List Wire) :=
  match v.connector? with
  | some c => d.inWires c
  | none => do .error (.missingKey (← s.boxOf v))

def outWires (s : Store) (d : Diagram) (v : Value) : Except Fault (List Wire) :=
  match v.connector? with
  | some c => d.outWires c
  | none => do .error (.missingKey (← s.boxOf v))

def withWire (s : Store) (d : Diagram) (v : Value) : Except Fault Diagram :=
  match v with
  | .wire a b => match a.connector?, b.connector? with
    | some source, some target => d.addWire ⟨source, target⟩
    | _, _ => do
      let source ← s.boxOf a
      let target ← s.boxOf b
      let _ ← d.succ.resolve source
      .error (.missingKey target)
  | v => do d.addWire (← s.wireOfPair v)

def withoutWire (s : Store) (d : Diagram) (v : Value) : Except Fault Diagram :=
  match v with
  | .wire a b => match a.connector?, b.connector? with
    | some source, some target => d.removeWire ⟨source, target⟩
    | _, _ => do
      let source ← s.boxOf a
      let target ← s.boxOf b
      let _ ← Diagram.edge? source target
      .error (.wireNotFound v)
  | v => do d.removeWire (← s.wireOfPair v)

end StringDiagram.Store
