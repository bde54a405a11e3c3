import StringDiagram.Table
import StringDiagram.Wire

/-! # Diagrams

A diagram is a directed multigraph of boxes, with wires between their ports. Its own ports belong to
two boundary boxes: the outputs of `inputId` are the inputs of the diagram, and the inputs of
`outputId` are its outputs. The wires are kept by edge, and the neighbours of each box in two tables
beside them, each under the spelling with which it was first linked. -/
namespace StringDiagram

structure Diagram where
  inputs : List Value
  outputs : List Value
  boxes : Table Nat Value
  edges : Table (Nat × Nat) (List Wire)
  succ : Table Nat (Table Nat Value)
  pred : Table Nat (Table Nat Value)
  next : Nat
deriving DecidableEq, Inhabited

namespace Diagram

def inputId : Nat := 0

def outputId : Nat := 1

def new (inputs outputs : List Value) : Diagram where
  inputs := inputs
  outputs := outputs
  boxes := []
  edges := []
  succ := [(inputId, []), (outputId, [])]
  pred := [(inputId, []), (outputId, [])]
  next := 2

def isInput (v : Value) : Bool := v.same (.ofNat inputId)

def isOutput (v : Value) : Bool := v.same (.ofNat outputId)

def isBoundary (v : Value) : Bool := isInput v || isOutput v

def box (d : Diagram) (v : Value) : Except Fault Value := do
  let (_, b) ← d.boxes.resolve v
  return b

/-- All wires, edge by edge in the order in which the edges came. -/
def wires (d : Diagram) : List Wire := d.edges.values.flatten

def wiresOn (d : Diagram) (edge : Nat × Nat) : List Wire := (d.edges.get? edge).getD []

def edge? (src tgt : Value) : Except Fault (Option (Nat × Nat)) :=
  if src.hashable && tgt.hashable then
    return do
      let s ← src.boxId?
      let t ← tgt.boxId?
      return (s, t)
  else .error .wrongType

def hasWire (d : Diagram) (src tgt : Value) : Except Fault Bool := do
  match ← edge? src tgt with
  | some e => return (d.edges.get? e).isSome
  | none => return false

def wiresBetween (d : Diagram) (src tgt : Value) : Except Fault (List Wire) :=
  match src, tgt with
  | .null, .null => .ok d.wires
  | .null, _ | _, .null => .error .halfEdge
  | src, tgt => do
    match ← edge? src tgt with
    | some e => return d.wiresOn e
    | none => return []

def outNeighbors (d : Diagram) (v : Value) : Except Fault (List Value) := do
  let (_, out) ← d.succ.resolve v
  return out.values

def inNeighbors (d : Diagram) (v : Value) : Except Fault (List Value) := do
  let (_, into) ← d.pred.resolve v
  return into.values

def graph (d : Diagram) : List (Nat × List Value) := d.succ.map fun e => (e.1, e.2.values)

def allNeighbors (d : Diagram) (v : Value) : Except Fault (List Value) := do
  let (_, into) ← d.pred.resolve v
  let (_, out) ← d.succ.resolve v
  return (out.foldl (fun t e => t.putNew e.1 e.2) into).values

def inWires (d : Diagram) (c : Connector) : Except Fault (List Wire) := do
  let (t, into) ← d.pred.resolve c.box
  return into.keys.flatMap fun s => (d.wiresOn (s, t)).filter (·.target.same c)

def outWires (d : Diagram) (c : Connector) : Except Fault (List Wire) := do
  let (s, out) ← d.succ.resolve c.box
  return out.keys.flatMap fun t => (d.wiresOn (s, t)).filter (·.source.same c)

end Diagram
end StringDiagram
