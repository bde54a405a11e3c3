import StringDiagram.Validity
import StringDiagram.Dot
import StringDiagram.Text.Markup

/-! # Drawing

The drawing of a diagram is a DOT document: a node for each side of the boundary, a node for each box
and an edge for each wire. A node is a table with a cell for every port, and an edge runs between the
cells that its connectors name. Nested diagrams are drawn as boxes. -/
namespace StringDiagram

structure Drawing where
  palette : Palette
  /-- Whether each wire is labelled with the type of its source port. -/
  showTypes : Bool
  rankdir : String
deriving DecidableEq, Inhabited

def Drawing.standard : Drawing := ⟨.standard, true, "TB"⟩

def Side.portPrefix : Side → String
  | .input => "in."
  | .output => "out."

namespace Palette

def fontface : String := "monospace"

def find (v : Value) : Except Fault Palette :=
  if v.hashable then
    match named.find? fun e => v.same (.text e.1) with
    | some e => .ok e.2
    | none => .error (.missingKey v)
  else .error .wrongType

def portCell (p : Palette) (side : Side) (i : Nat) : String :=
  "<TD PORT=\"" ++ side.portPrefix ++ toString i ++ "\" BGCOLOR=\"" ++ p.background ++ "\">"
    ++ "<FONT POINT-SIZE=\"10.0\" FACE=\"" ++ fontface ++ "\" COLOR=\"" ++ p.dark ++ "\">"
    ++ toString i ++ "</FONT></TD>"

def portsRow (p : Palette) (side : Side) (n : Nat) : String :=
  if n = 0 then ""
  else "<TR><TD><TABLE BORDER=\"0\" CELLBORDER=\"1\" CELLSPACING=\"3\" CELLPADDING=\"2\" COLOR=\""
    ++ p.portBorder ++ "\"><TR>" ++ String.join ((List.range n).map (p.portCell side))
    ++ "</TR></TABLE></TD></TR>"

def boxTable (p : Palette) (label : String) (inputs outputs : Nat) (fill borderColour : String)
    (border : Nat) : String :=
  "<TABLE BORDER=\"" ++ toString border
    ++ "\" CELLBORDER=\"0\" CELLSPACING=\"1\" CELLPADDING=\"1\" BGCOLOR=\"" ++ fill
    ++ "\" COLOR=\"" ++ borderColour ++ "\">" ++ p.portsRow .input inputs
    ++ "<TR><TD><FONT POINT-SIZE=\"11.0\" FACE=\"" ++ fontface ++ "\" COLOR=\"" ++ p.dark
    ++ "\"><B>" ++ label ++ "</B></FONT></TD></TR>" ++ p.portsRow .output outputs ++ "</TABLE>"

def boundaryTable (p : Palette) (label : String) (inputs outputs : Nat) : String :=
  p.boxTable label inputs outputs p.background p.boundary 2

end Palette

namespace Store
open Diagram

def nodeStatement (v : Nat) (table : String) : Dot.Statement :=
  .node (toString v) [("label", "<" ++ table ++ ">"), ("shape", "plain")]

def boxStatement (s : Store) (p : Palette) (v : Nat) (box : Value) :
    Except Fault Dot.Statement := do
  let fill := if (s.asDiagram? box).isSome then p.nestedBox else p.box
  match ← s.boxName box with
  | .text name =>
    let inputs ← s.ports .input box
    let outputs ← s.ports .output box
    let m ← inputs.length
    let n ← outputs.length
    return nodeStatement v (p.boxTable (Text.Markup.escape name) m n fill p.background 1)
  | _ => .error .missingAttribute

def connectorName (s : Store) (c : Connector) : Except Fault String :=
  match c.kind with
  | .side side => do
    let box ← s.text .plain c.box
    let port ← s.text .plain c.port
    return box ++ ":" ++ side.portPrefix ++ port
  | kind => do .error (.unsupportedSide (← s.text .quoted kind))

def wireLabel (s : Store) (d : Diagram) (w : Wire) : Except Fault String := do
  let types ← s.portTypes d w.source.toValue
  let i ← w.source.port.index
  if 0 ≤ i then
    let n ← types.length
    if i < n then
      match ← s.item types w.source.port with
      | .null => return ""
      | type => s.text .plain type
    else return ""
  else return ""

def wireStatement (s : Store) (drawing : Drawing) (d : Diagram) (w : Wire) :
    Except Fault Dot.Statement := do
  let label ← if drawing.showTypes then s.wireLabel d w else .ok ""
  let source ← s.connectorName w.source
  let target ← s.connectorName w.target
  return .edge source target
    [("label", label), ("arrowhead", "none"), ("arrowsize", "1.0"),
      ("color", drawing.palette.wire), ("fontcolor", "black"), ("fontname", Palette.fontface),
      ("fontsize", "9"), ("penwidth", "1.5")]

def draw (s : Store) (drawing : Drawing) (d : Diagram) : Except Fault Dot.Document := do
  let p := drawing.palette
  let boxes ← d.boxes.mapM fun e => s.boxStatement p e.1 e.2
  let wires ← d.wires.mapM (s.wireStatement drawing d)
  let graph : Dot.Statement := .graph
    [("bgcolor", p.background), ("margin", "0"), ("nodesep", "0.15"),
      ("rankdir", drawing.rankdir), ("ranksep", "0.1")]
  let inputs := nodeStatement inputId (p.boundaryTable "inputs" 0 d.inputs.length)
  let outputs := nodeStatement outputId (p.boundaryTable "outputs" d.outputs.length 0)
  return ⟨"wiring_diagram", graph :: inputs :: outputs :: boxes ++ wires⟩

end Store
end StringDiagram
