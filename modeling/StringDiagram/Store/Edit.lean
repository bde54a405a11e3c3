import StringDiagram.Box
import StringDiagram.Wire.Given

/-! # Changing stored diagrams

Boxes and wires are given in any way that names them. A run over several stops at the first that is
refused and keeps those before it. -/
namespace StringDiagram.Action

def newDiagram (inputs outputs : Value) : Action Ref := do
  let inputs ← ask (·.collect inputs)
  let outputs ← ask (·.collect outputs)
  allocate (.diagram (.new inputs outputs))

def insertBox (r : Ref) (box : Value) : Action Nat := do
  let d ← diagram r
  replace r (d.addBox box)
  return d.next

theorem perform_insertBox {s : Store} {r : Ref} {d : Diagram} (h : s.diagram? r = some d)
    (box : Value) : (insertBox r box).perform s =
      (.ok d.next, { s with objects := s.objects.set r (.diagram (d.addBox box)) }) := by
  rw [insertBox, perform_bind, perform_diagram h]
  rfl

def addBox (r : Ref) (v : Value) : Action Nat := do
  let box ← ask (·.asBox v)
  insertBox r box

def addBoxes (r : Ref) (boxes : Value) : Action (List Nat) := do
  let vs ← ask (·.elements boxes)
  vs.mapM (addBox r)

def removeBox (r : Ref) (v : Value) : Action Value := do
  let d ← diagram r
  let (box, d) ← ofExcept (d.removeBox v)
  replace r d
  return box

theorem perform_removeBox {s : Store} {r : Ref} {d d' : Diagram} {v box : Value}
    (h : s.diagram? r = some d) (hd : d.removeBox v = .ok (box, d')) : (removeBox r v).perform s =
      (.ok box, { s with objects := s.objects.set r (.diagram d') }) := by
  rw [removeBox, perform_bind, perform_diagram h]
  simp only [perform_bind, perform_ofExcept, hd, perform_replace, perform_pure]

def addWire (r : Ref) (v : Value) : Action Unit := do
  let d ← diagram r
  let d ← ask (·.withWire d v)
  replace r d

def addWires (r : Ref) (wires : Value) : Action Unit := do
  let vs ← ask (·.elements wires)
  vs.forM (addWire r)

def removeWire (r : Ref) (v : Value) : Action Unit := do
  let d ← diagram r
  let d ← ask (·.withoutWire d v)
  replace r d

def removeWires (r : Ref) (src tgt : Value) : Action Unit := do
  let d ← diagram r
  let d ← ofExcept (d.removeWires src tgt)
  replace r d

end StringDiagram.Action
