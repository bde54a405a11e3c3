import StringDiagram.Store.Text
import StringDiagram.Text.Search

/-! # Values as sequences

Text, lists, tuples, products and rows have elements; the elements of a text are its characters. A
generating object is a row of one for `collect` and has no elements of its own otherwise. Positions
count from the end when they are negative. -/
namespace StringDiagram

def Text.characters (s : String) : List Value := s.toList.map fun c => .text (String.singleton c)

/-- Elements `start`, `start + step` and so on, before `stop`. Bounds that are left out or lie outside
are those of the sequence. -/
def slice {α : Type} (xs : List α) (start stop : Option Int) (step : Int) : List α :=
  let size : Int := xs.length
  let low : Int := if step < 0 then -1 else 0
  let high : Int := if step < 0 then size - 1 else size
  let bound := fun (i : Int) => if i < 0 then max (i + size) low else min i high
  let first := match start with
    | some i => bound i
    | none => if step < 0 then high else low
  let last := match stop with
    | some i => bound i
    | none => if step < 0 then low else high
  let number := if step < 0 then (first - last - 1) / (-step) + 1 else (last - first - 1) / step + 1
  (List.range number.toNat).filterMap fun (k : Nat) => xs[(first + k * step).toNat]?

namespace Value

def length : Value → Except Fault Nat
  | .text s => .ok s.length
  | .list vs | .tuple vs | .product vs | .row vs => .ok vs.length
  | _ => .error .wrongType

def index (v : Value) : Except Fault Int :=
  match v.number? with
  | some n => .ok n
  | none => .error .wrongType

def optionalIndex : Value → Except Fault (Option Int)
  | .null => .ok none
  | v => some <$> v.index

def atPosition (vs : List Value) (i : Int) : Except Fault Value :=
  let place := if i < 0 then i + vs.length else i
  match if place < 0 then none else vs[place.toNat]? with
  | some v => .ok v
  | none => .error .indexOutOfRange

def sliceBounds (start stop step : Value) : Except Fault (Option Int × Option Int × Int) := do
  let step := (← step.optionalIndex).getD 1
  if step = 0 then .error .badValue
  let start ← start.optionalIndex
  let stop ← stop.optionalIndex
  return (start, stop, step)

def slice (v start stop step : Value) : Except Fault Value :=
  let part : {α : Type} → List α → Except Fault (List α) := fun xs => do
    let (i, j, k) ← sliceBounds start stop step
    return StringDiagram.slice xs i j k
  match v with
  | .text s => do return .text (String.ofList (← part s.toList))
  | .list vs => .list <$> part vs
  | .tuple vs => .tuple <$> part vs
  | .row vs => .row <$> part vs
  | _ => .error .wrongType

def reversed : Value → Except Fault (List Value)
  | .text s => .ok (Text.characters s).reverse
  | .list vs | .tuple vs | .row vs => .ok vs.reverse
  | _ => .error .wrongType

def toList : Value → Except Fault (List Value)
  | .row vs => .ok vs
  | _ => .error .missingAttribute

def count : Value → Value → Except Fault Nat
  | .text s, .text part => .ok (Text.Search.count part.toList s.toList)
  | .text _, _ => .error .wrongType
  | .list vs, x | .tuple vs, x | .row vs, x => .ok (vs.countP (·.same x))
  | _, _ => .error .missingAttribute

def unit : Value := .row []

def productOf (factors : List Value) : Value :=
  .product (factors.flatMap fun
    | .product fs => fs
    | v => [v])

end Value

namespace Store

/-- The elements of a value. A diagram is asked for its boxes one by one, and has none at `inputId`. -/
def elements (s : Store) : Value → Except Fault (List Value)
  | .text t => .ok (Text.characters t)
  | .list vs | .tuple vs | .product vs | .row vs => .ok vs
  | .ref r => match s.diagram? r with
    | some _ => .error (.missingKey (.ofNat Diagram.inputId))
    | none => .error .wrongType
  | _ => .error .wrongType

def collect (s : Store) : Value → Except Fault (List Value)
  | .object n => .ok [.object n]
  | v => s.elements v

def item (s : Store) (v i : Value) : Except Fault Value :=
  match v with
  | .text t => do Value.atPosition (Text.characters t) (← i.index)
  | .list vs | .tuple vs | .row vs => do Value.atPosition vs (← i.index)
  | .ref r => match s.diagram? r with
    | some d => d.box i
    | none => .error .wrongType
  | _ => .error .wrongType

def contains (s : Store) (v x : Value) : Except Fault Bool :=
  match v, x with
  | .text t, .text part => .ok (Text.Search.find? part.toList t.toList).isSome
  | .text _, _ => .error .wrongType
  | v, x => do return (← s.elements v).any (·.same x)

def indexOf (s : Store) (v x : Value) : Except Fault Nat :=
  match v, x with
  | .text t, .text part => match Text.Search.find? part.toList t.toList with
    | some i => .ok i
    | none => .error .badValue
  | .text _, _ => .error .wrongType
  | .list vs, x => match vs.findIdx? (·.same x) with
    | some i => .ok i
    | none => do .error (.notInList (← s.text .quoted x))
  | .tuple vs, x | .row vs, x => match vs.findIdx? (·.same x) with
    | some i => .ok i
    | none => .error .badValue
  | _, _ => .error .missingAttribute

def distinct (s : Store) (v : Value) : Except Fault Nat := do
  let vs ← s.elements v
  if vs.all Value.hashable then
    return (vs.foldl (fun seen v => if seen.any (·.same v) then seen else v :: seen) []).length
  else .error .wrongType

end Store
end StringDiagram
