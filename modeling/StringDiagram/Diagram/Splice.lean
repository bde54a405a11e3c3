import StringDiagram.Diagram.Edit

/-! # Splicing

The wires of an inserted diagram replace a box. A wire of it that starts at its input boundary
continues whatever ends at that input port of the box, one that ends at its output boundary is
continued by whatever starts at that output port, and the others keep their ends under new
identifiers. The host is read anew for each wire, so that it also sees the wires made before. -/
namespace StringDiagram.Diagram

/-- The new identifiers of inserted boxes, by the old ones. -/
abbrev IdMap := Table Nat Nat

namespace IdMap

def move (ids : IdMap) (c : Connector) : Except Fault Connector := do
  let (_, n) ← ids.resolve c.box
  return c.withBox (.ofNat n)

end IdMap

/-- The wires by which the host takes over one wire of the diagram inserted for `v`. -/
def splicedWires (host : Diagram) (v : Nat) (ids : IdMap) (w : Wire) :
    Except Fault (List Wire) :=
  match isInput w.source.box, isOutput w.target.box with
  | true, true => do
    let into ← host.inWires (.input (.ofNat v) w.source.port)
    let out ← host.outWires (.output (.ofNat v) w.target.port)
    return into.flatMap fun i => out.map fun o => ⟨i.source, o.target⟩
  | true, false => do
    let target ← IdMap.move ids w.target
    let into ← host.inWires (.input (.ofNat v) w.source.port)
    return into.map fun i => ⟨i.source, target⟩
  | false, true => do
    let source ← IdMap.move ids w.source
    let out ← host.outWires (.output (.ofNat v) w.target.port)
    return out.map fun o => ⟨source, o.target⟩
  | false, false => do
    let source ← IdMap.move ids w.source
    let target ← IdMap.move ids w.target
    return [⟨source, target⟩]

def splice (host : Diagram) (v : Nat) (ids : IdMap) : List Wire → Diagram × Option Fault
  | [] => (host, none)
  | w :: ws => match host.splicedWires v ids w with
    | .error e => (host, some e)
    | .ok new => match host.extend new with
      | (host', none) => host'.splice v ids ws
      | (host', some e) => (host', some e)

theorem splice_append (host : Diagram) (v : Nat) (ids : IdMap) (ws xs : List Wire) :
    host.splice v ids (ws ++ xs) = match host.splice v ids ws with
      | (host', none) => host'.splice v ids xs
      | (host', some e) => (host', some e) := by
  induction ws generalizing host with
  | nil => rfl
  | cons w ws ih =>
    simp only [List.cons_append, splice]
    cases host.splicedWires v ids w with
    | error e => rfl
    | ok new =>
      rcases h : host.extend new with ⟨host', _ | e⟩
      · simpa [h] using ih host'
      · simp [h]

end StringDiagram.Diagram
