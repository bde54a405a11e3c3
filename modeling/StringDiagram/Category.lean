import StringDiagram.Substitution

/-! # The category of diagrams

Rows of types are the objects and diagrams the morphisms. Every operation wires the boundary of a new
diagram to one or two boxes and then substitutes the diagrams among them. -/
namespace StringDiagram

/-- The diagram with `n` more wires, from the outputs of box `a` that begin with `i` to the inputs of
box `b` that begin with `j`. -/
def Diagram.connect (d : Diagram) (a i b j n : Nat) : Diagram :=
  (List.range n).foldl (fun d k => d.link a b (.ofPorts a (i + k) b (j + k))) d

namespace Store

def dom (s : Store) (v : Value) : Except Fault (List Value) := do
  s.collect (← s.ports .input (← s.boxOrAtomic v))

def codom (s : Store) (v : Value) : Except Fault (List Value) := do
  s.collect (← s.ports .output (← s.boxOrAtomic v))

end Store

namespace Action
open Diagram

def identity (a : Value) : Action Ref := do
  let types ← ask (·.collect a)
  allocate (.diagram ((Diagram.new types types).connect inputId 0 outputId 0 types.length))

/-- The diagram with a single box, wired port for port to the boundary. -/
def generator (f : Value) : Action Ref := do
  let s ← get
  let box ← ofExcept (s.boxOrAtomic f)
  let inputs ← ofExcept (s.ports .input box)
  let outputs ← ofExcept (s.ports .output box)
  let h ← newDiagram inputs outputs
  let v ← insertBox h box
  let m ← ofExcept inputs.length
  let d ← diagram h
  replace h (d.connect inputId 0 v 0 m)
  let n ← ofExcept outputs.length
  let d ← diagram h
  replace h (d.connect v 0 outputId 0 n)
  return h

/-- First `f`, then `g`. That the outputs of `f` are the inputs of `g` is not checked. -/
def compose (f g : Value) : Action Ref := do
  let s ← get
  let f ← ofExcept (s.boxOrAtomic f)
  let g ← ofExcept (s.boxOrAtomic g)
  let dom ← ofExcept (s.dom f)
  let codom ← ofExcept (s.codom g)
  let h ← allocate (.diagram (.new dom codom))
  let fv ← insertBox h f
  let gv ← insertBox h g
  let middle ← ofExcept (s.codom f)
  let d ← diagram h
  replace h (((d.connect inputId 0 fv 0 dom.length).connect fv 0 gv 0 middle.length).connect
    gv 0 outputId 0 codom.length)
  let fName ← ask (·.boxName f)
  let gName ← ask (·.boxName g)
  note (.composing fName gName)
  substitute h (.ofNat fv) .null
  substitute h (.ofNat gv) .null
  return h

def otimesBoxes (f g : Value) : Action Ref := do
  let s ← get
  let f ← ofExcept (s.boxOrAtomic f)
  let g ← ofExcept (s.boxOrAtomic g)
  let domF ← ofExcept (s.dom f)
  let domG ← ofExcept (s.dom g)
  let codomF ← ofExcept (s.codom f)
  let codomG ← ofExcept (s.codom g)
  let h ← allocate (.diagram (.new (domF ++ domG) (codomF ++ codomG)))
  let fv ← insertBox h f
  let gv ← insertBox h g
  let d ← diagram h
  replace h ((((d.connect inputId 0 fv 0 domF.length).connect
    inputId domF.length gv 0 domG.length).connect
    fv 0 outputId 0 codomF.length).connect
    gv 0 outputId codomF.length codomG.length)
  let fName ← ask (·.boxName f)
  let gName ← ask (·.boxName g)
  note (.tensoring fName gName)
  substitute h (.ofNat fv) .null
  substitute h (.ofNat gv) .null
  return h

def otimes (f g : Value) : Action Value :=
  match f, g with
  | .row as, .row bs => return .row (as ++ bs)
  | f, g => do return .ref (← otimesBoxes f g)

def braid (a b : Value) : Action Ref := do
  let as ← ask (·.collect a)
  let bs ← ask (·.collect b)
  let d := Diagram.new (as ++ bs) (bs ++ as)
  allocate (.diagram ((d.connect inputId 0 outputId bs.length as.length).connect
    inputId as.length outputId 0 bs.length))

def product (a b : Value) : Action Value := do
  let s ← get
  match a with
  | .object _ | .product _ => return Value.productOf [a, b]
  | .row as => return .row (as ++ (← ofExcept (s.elements b)))
  | a => if (s.asDiagram? a).isSome then otimes a b else throw .wrongType

def andThen (a b : Value) : Action Value := do
  let s ← get
  if (s.asDiagram? a).isSome then return .ref (← compose a b) else throw .wrongType

end Action
end StringDiagram
