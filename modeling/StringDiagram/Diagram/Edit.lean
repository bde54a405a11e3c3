import StringDiagram.Diagram

/-! # Changing a diagram

Each change either succeeds as a whole or is refused, and then gives no diagram at all. Only `extend`,
which adds wire after wire, also says how far it came. -/
namespace StringDiagram.Diagram

def addBox (d : Diagram) (box : Value) : Diagram :=
  { d with
    boxes := d.boxes ++ [(d.next, box)]
    succ := d.succ ++ [(d.next, [])]
    pred := d.pred ++ [(d.next, [])]
    next := d.next + 1 }

def unlink (d : Diagram) (v : Nat) (out into : List Nat) : Diagram :=
  { d with
    boxes := d.boxes.remove v
    edges := d.edges.filter fun e =>
      !(e.1.1 == v && out.contains e.1.2) && !(e.1.2 == v && into.contains e.1.1)
    succ := into.foldl (fun t u => t.adjust u (·.remove v)) (d.succ.remove v)
    pred := out.foldl (fun t u => t.adjust u (·.remove v)) (d.pred.remove v) }

def removeBox (d : Diagram) (v : Value) : Except Fault (Value × Diagram) :=
  if isBoundary v then .error (.boundaryRemoval v)
  else do
    let (n, b) ← d.boxes.resolve v
    let out := (d.succ.get? n).getD []
    let into := (d.pred.get? n).getD []
    return (b, d.unlink n out.keys into.keys)

def link (d : Diagram) (s t : Nat) (w : Wire) : Diagram :=
  { d with
    succ := d.succ.adjust s (·.putNew t w.target.box)
    pred := d.pred.adjust t (·.putNew s w.source.box)
    edges := d.edges.put (s, t) (d.wiresOn (s, t) ++ [w]) }

theorem wiresOn_link (d : Diagram) (s t : Nat) (w : Wire) (e : Nat × Nat) :
    (d.link s t w).wiresOn e = if (s, t) = e then d.wiresOn e ++ [w] else d.wiresOn e := by
  simp only [link, wiresOn, Table.get?_put]
  split
  · next h => simp [h]
  · rfl

def addWire (d : Diagram) (w : Wire) : Except Fault Diagram := do
  let (s, _) ← d.succ.resolve w.source.box
  let (t, _) ← d.pred.resolve w.target.box
  return d.link s t w

def extend (d : Diagram) : List Wire → Diagram × Option Fault
  | [] => (d, none)
  | w :: ws => match d.addWire w with
    | .ok d' => d'.extend ws
    | .error e => (d, some e)

theorem extend_append (d : Diagram) (ws xs : List Wire) :
    d.extend (ws ++ xs) = match d.extend ws with
      | (d', none) => d'.extend xs
      | (d', some e) => (d', some e) := by
  induction ws generalizing d with
  | nil => rfl
  | cons w ws ih =>
    simp only [List.cons_append, extend]
    cases d.addWire w with
    | error e => rfl
    | ok d' => exact ih d'

def removeEdge (d : Diagram) (e : Nat × Nat) : Diagram :=
  { d with
    edges := d.edges.remove e
    succ := d.succ.adjust e.1 (·.remove e.2)
    pred := d.pred.adjust e.2 (·.remove e.1) }

theorem wiresOn_removeEdge (d : Diagram) (e e' : Nat × Nat) :
    (d.removeEdge e).wiresOn e' = if e = e' then [] else d.wiresOn e' := by
  simp only [removeEdge, wiresOn, Table.get?_remove]
  split <;> rfl

def removeWire (d : Diagram) (w : Wire) : Except Fault Diagram := do
  match ← edge? w.source.box w.target.box with
  | none => .error (.wireNotFound w.toValue)
  | some e =>
    let ws := d.wiresOn e
    if ws.any (·.same w) then
      match ws.eraseP (·.same w) with
      | [] => return d.removeEdge e
      | rest => return { d with edges := d.edges.put e rest }
    else .error (.wireNotFound w.toValue)

def removeWires (d : Diagram) (src tgt : Value) : Except Fault Diagram := do
  let missing := Fault.missingKey (.tuple [src, tgt])
  match ← edge? src tgt with
  | none => .error missing
  | some e => if (d.edges.get? e).isSome then return d.removeEdge e else .error missing

end StringDiagram.Diagram
