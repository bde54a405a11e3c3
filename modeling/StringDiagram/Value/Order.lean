import StringDiagram.Value.Equality
import StringDiagram.Fault

/-! # The order of values

Numbers, texts and generating objects are ordered, texts and names by their characters, and lists and
tuples by the first place where they differ. Values of two kinds are not compared. -/
namespace StringDiagram

inductive Comparison where
  | less
  | lessOrEqual
deriving DecidableEq

namespace Comparison

def onInt (c : Comparison) (m n : Int) : Bool :=
  match c with
  | .less => m < n
  | .lessOrEqual => m ≤ n

def onText (c : Comparison) (s t : String) : Bool :=
  match c with
  | .less => s.toList < t.toList
  | .lessOrEqual => !decide (t.toList < s.toList)

end Comparison

namespace Value

mutual

def compare (c : Comparison) : Value → Value → Except Fault Bool
  | .int m, w => match w.number? with
    | some n => .ok (c.onInt m n)
    | none => .error .wrongType
  | .truth b, w => match w.number? with
    | some n => .ok (c.onInt b.toNat n)
    | none => .error .wrongType
  | .text s, w => match w with
    | .text t => .ok (c.onText s t)
    | _ => .error .wrongType
  | .object m, w => match w with
    | .object n => .ok (c.onText m n)
    | _ => .error .wrongType
  | .list vs, w => match w with
    | .list ws => compareAll c vs ws
    | _ => .error .wrongType
  | .tuple vs, w => match w with
    | .tuple ws => compareAll c vs ws
    | _ => .error .wrongType
  | _, _ => .error .wrongType

def compareAll (c : Comparison) : List Value → List Value → Except Fault Bool
  | [], ws => .ok (c.onInt 0 ws.length)
  | _ :: _, [] => .ok false
  | v :: vs, w :: ws => if v.same w then compareAll c vs ws else compare c v w

end

def insertOrdered (v : Value) : List Value → Except Fault (List Value)
  | [] => .ok [v]
  | w :: ws => do
    if ← compare .less v w then return v :: w :: ws
    else return w :: (← insertOrdered v ws)

def sorted (vs : List Value) : Except Fault (List Value) :=
  vs.foldlM (fun done v => insertOrdered v done) []

end Value
end StringDiagram
