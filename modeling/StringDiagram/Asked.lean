import StringDiagram.Box
import StringDiagram.Wire.Given

/-! # Values in the place of diagrams

What a diagram is asked may be asked of any value. Most of it only a diagram can answer. A value that
has its types or its box at hand, and so is not to be asked for them, refuses in another way than a
value that lacks them. -/
namespace StringDiagram.Store

def diagramOf (s : Store) (v : Value) : Except Fault (Ref × Diagram) :=
  match s.asDiagram? v with
  | some found => .ok found
  | none => .error .missingAttribute

def askedTypes (s : Store) (side : Side) (v : Value) : Except Fault (List Value) :=
  match s.asDiagram? v, side with
  | some (_, d), .input => .ok d.inputs
  | some (_, d), .output => .ok d.outputs
  | none, side => do
    let _ ← s.exprPorts side v
    .error .wrongType

def askedBox (s : Store) (v key : Value) : Except Fault Value :=
  match s.asDiagram? v with
  | some (_, d) => d.box key
  | none => do
    let _ ← s.boxOf v
    .error .wrongType

end StringDiagram.Store
