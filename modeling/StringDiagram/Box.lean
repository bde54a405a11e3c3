import StringDiagram.Sequence
import StringDiagram.Store.Text

/-! # Boxes and expressions

A box has ports on both sides and a name, an expression has a domain and a codomain. An atomic box
takes its ports and its name from its expression, a diagram has its own, and blocks and shapes have
what their callers gave them. -/
namespace StringDiagram.Store

def isExpr (s : Store) : Value → Bool
  | .hom _ _ _ => true
  | .ref r => match s.objects[r]? with
    | some (.diagram _) => true
    | some (.expression e) => e.dom.isSome && e.codom.isSome
    | _ => false
  | _ => false

def exprPorts (s : Store) (side : Side) : Value → Except Fault (List Value)
  | .hom _ dom codom => .ok (match side with
    | .input => dom
    | .output => codom)
  | .ref r => match s.objects[r]? with
    | some (.expression e) => match (match side with
        | .input => e.dom
        | .output => e.codom) with
      | some vs => .ok vs
      | none => .error .missingAttribute
    | some (.diagram _) => .error .wrongType
    | _ => .error .missingAttribute
  | _ => .error .missingAttribute

/-- Whether a value is a box. It is asked for its ports, and an atomic box around a diagram cannot
answer, because the domain of a diagram is an operation and no list of types. -/
def isBox (s : Store) : Value → Except Fault Bool
  | .atomic e => match s.exprPorts .input e with
    | .error .wrongType => .error .wrongType
    | _ => .ok true
  | .ref r => match s.objects[r]? with
    | some (.diagram _) | some (.block _) => .ok true
    | some (.shape t) => .ok (t.inputs.isSome && t.outputs.isSome && (t.name.getD none).isSome)
    | _ => .ok false
  | _ => .ok false

def ports (s : Store) (side : Side) : Value → Except Fault Value
  | .atomic e => do return .list (← s.exprPorts side e)
  | .ref r => match s.objects[r]?, side with
    | some (.diagram d), .input => .ok (.list d.inputs)
    | some (.diagram d), .output => .ok (.list d.outputs)
    | some (.block b), .input => .ok b.inputs
    | some (.block b), .output => .ok b.outputs
    | some (.shape t), side => match (match side with
        | .input => t.inputs
        | .output => t.outputs) with
      | some vs => .ok (.list vs)
      | none => .error .missingAttribute
    | _, _ => .error .missingAttribute
  | _ => .error .missingAttribute

/-- The name that a value carries. The name of a box is an operation that has yet to be asked. -/
def nameOf? (s : Store) (v : Value) : Option Value :=
  match v with
  | .object n => some (.text n)
  | .hom n _ _ => some n
  | .side t => some (.text t.label)
  | .atomic _ => some (.operation v "AtomicBox.name")
  | .ref r => match s.objects[r]? with
    | some (.diagram _) => some (.operation v "WiringDiagram.name")
    | some (.expression e) => e.name.map .text
    | some (.block _) => some (.operation v "Box.name")
    | some (.shape t) => t.name.map fun
      | some _ => .operation v "Duck.name"
      | none => .null
    | none => none
  | _ => none

def boxName (s : Store) (v : Value) : Except Fault Value :=
  match v with
  | .atomic e => do
    let shown ← s.text .plain e
    return (s.nameOf? e).getD (.text shown)
  | .ref r => match s.objects[r]? with
    | some (.diagram d) => .text <$> s.diagramName d
    | some (.block b) => .ok (.text b.text)
    | some (.shape ⟨_, _, some (some n)⟩) => .ok (.text n)
    | _ => .error (if (s.nameOf? v).isSome then .wrongType else .missingAttribute)
  | _ => .error (if (s.nameOf? v).isSome then .wrongType else .missingAttribute)

def boxOrAtomic (s : Store) (v : Value) : Except Fault Value := do
  if ← s.isBox v then return v else return .atomic v

def asBox (s : Store) (v : Value) : Except Fault Value := do
  if ← s.isBox v then return v
  else if s.isExpr v then return .atomic v
  else .error (.notABox (← s.text .quoted v))

end StringDiagram.Store
