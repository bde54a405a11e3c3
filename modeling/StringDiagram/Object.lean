import StringDiagram.Diagram

/-! # Objects

What has an identity of its own: diagrams, which change, and three kinds of things that callers bring
along. An expression has a domain and a codomain or lacks them, a block is a box that is named by its
text, and a shape is a box only if it has ports on both sides and a name. -/
namespace StringDiagram

structure Expression where
  dom : Option (List Value)
  codom : Option (List Value)
  name : Option String
  text : String
deriving DecidableEq, Inhabited

structure Block where
  inputs : Value
  outputs : Value
  text : String
deriving DecidableEq, Inhabited

structure Shape where
  inputs : Option (List Value)
  outputs : Option (List Value)
  /-- A shape may also have a name that is nothing. -/
  name : Option (Option String)
deriving DecidableEq, Inhabited

inductive Object where
  | diagram (d : Diagram)
  | expression (e : Expression)
  | block (b : Block)
  | shape (s : Shape)
deriving DecidableEq, Inhabited

namespace Diagram

def refs (d : Diagram) : List Ref :=
  Value.refsAll d.inputs ++ Value.refsAll d.outputs ++ Value.refsAll d.boxes.values
    ++ d.wires.flatMap fun w => w.toValue.refs

def rename (f : Ref → Ref) (d : Diagram) : Diagram :=
  { d with
    inputs := Value.renameAll f d.inputs
    outputs := Value.renameAll f d.outputs
    boxes := d.boxes.map fun e => (e.1, e.2.rename f)
    edges := d.edges.map fun e => (e.1, e.2.map (Wire.rename f)) }

theorem rename_rename (f g : Ref → Ref) (d : Diagram) :
    (d.rename f).rename g = d.rename (g ∘ f) := by
  simp only [rename, Value.renameAll_renameAll, List.map_map, Diagram.mk.injEq, true_and, and_true]
  constructor
  · refine List.map_congr_left fun e _ => ?_
    simp [Value.rename_rename]
  · refine List.map_congr_left fun e _ => ?_
    simp [Wire.rename, Connector.rename, Value.rename_rename]

theorem refs_rename (f : Ref → Ref) (d : Diagram) : (d.rename f).refs = d.refs.map f := by
  have hboxes : (d.rename f).boxes.values = Value.renameAll f d.boxes.values := by
    simp [rename, Table.values, Value.renameAll_eq]
  have hwires : (d.rename f).wires = d.wires.map (Wire.rename f) := by
    simp [wires, rename, Table.values, List.map_flatten, Function.comp_def]
  have hwire : ∀ w : Wire, (w.rename f).toValue = w.toValue.rename f := fun w => rfl
  simp only [refs, hboxes, hwires, Value.refsAll_renameAll, List.map_append, List.flatMap_map,
    List.map_flatMap, hwire, Value.refs_rename]
  simp only [rename, Value.refsAll_renameAll]

end Diagram

namespace Object

def refs : Object → List Ref
  | .diagram d => d.refs
  | .expression e => Value.refsAll (e.dom.getD []) ++ Value.refsAll (e.codom.getD [])
  | .block b => b.inputs.refs ++ b.outputs.refs
  | .shape s => Value.refsAll (s.inputs.getD []) ++ Value.refsAll (s.outputs.getD [])

def rename (f : Ref → Ref) : Object → Object
  | .diagram d => .diagram (d.rename f)
  | .expression e => .expression
    { e with dom := e.dom.map (Value.renameAll f), codom := e.codom.map (Value.renameAll f) }
  | .block b => .block { b with inputs := b.inputs.rename f, outputs := b.outputs.rename f }
  | .shape s => .shape
    { s with inputs := s.inputs.map (Value.renameAll f), outputs := s.outputs.map (Value.renameAll f) }

theorem rename_rename (f g : Ref → Ref) (o : Object) : (o.rename f).rename g = o.rename (g ∘ f) := by
  have hall : Value.renameAll g ∘ Value.renameAll f = Value.renameAll (g ∘ f) :=
    funext (Value.renameAll_renameAll f g)
  cases o <;> simp [rename, Diagram.rename_rename, Value.rename_rename, hall]

theorem refs_rename (f : Ref → Ref) (o : Object) : (o.rename f).refs = o.refs.map f := by
  have hopt : ∀ vs : Option (List Value),
      Value.refsAll ((vs.map (Value.renameAll f)).getD []) = (Value.refsAll (vs.getD [])).map f := by
    intro vs
    cases vs with
    | none => rfl
    | some vs => exact Value.refsAll_renameAll f vs
  cases o <;> simp [rename, refs, Diagram.refs_rename, Value.refs_rename, hopt]

end Object
end StringDiagram
