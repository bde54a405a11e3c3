import StringDiagram.Value.Equality

/-! # Connectors and wires

A connector is a port of a box, found by the box, its side and the position of the port. A wire runs
from a source connector to a target connector. -/
namespace StringDiagram

structure Connector where
  box : Value
  kind : Value
  port : Value
deriving DecidableEq, Inhabited

namespace Connector

def toValue (c : Connector) : Value := .connector c.box c.kind c.port

def input (box port : Value) : Connector := ⟨box, .side .input, port⟩

def output (box port : Value) : Connector := ⟨box, .side .output, port⟩

def withBox (c : Connector) (box : Value) : Connector := { c with box }

def norm (c : Connector) : Connector := ⟨c.box.norm, c.kind.norm, c.port.norm⟩

def same (c d : Connector) : Bool := c.norm == d.norm

def rename (f : Ref → Ref) (c : Connector) : Connector :=
  ⟨c.box.rename f, c.kind.rename f, c.port.rename f⟩

theorem same_toValue (c d : Connector) : c.toValue.same d.toValue = c.same d := by
  rw [Bool.eq_iff_iff, Value.same_iff]
  simp [toValue, Value.norm, same, norm]

theorem same_iff {c d : Connector} : c.same d = true ↔
    c.box.same d.box = true ∧ c.kind.same d.kind = true ∧ c.port.same d.port = true := by
  simp [same, norm, Value.same]

theorem same_symm {c d : Connector} (h : c.same d = true) : d.same c = true := by
  have hb := same_iff.mp h
  exact same_iff.mpr ⟨Value.same_symm hb.1, Value.same_symm hb.2.1, Value.same_symm hb.2.2⟩

theorem same_trans {c d e : Connector} (h : c.same d = true) (h' : d.same e = true) :
    c.same e = true := by
  have hb := same_iff.mp h
  have hb' := same_iff.mp h'
  exact same_iff.mpr ⟨Value.same_trans hb.1 hb'.1, Value.same_trans hb.2.1 hb'.2.1,
    Value.same_trans hb.2.2 hb'.2.2⟩

def isOn (c : Connector) (v : Nat) : Bool := decide (c.box.boxId? = some v)

theorem isOn_iff {c : Connector} {v : Nat} : c.isOn v = true ↔ c.box.boxId? = some v := by
  simp [isOn]

theorem isOn_eq_false {c : Connector} {v w : Nat} (h : c.isOn v = true) (hne : v ≠ w) : c.isOn w = false := by
  have hv := isOn_iff.mp h
  simp [isOn, hv, hne]

theorem isOn_eq_of_same {c d : Connector} (h : c.same d = true) (v : Nat) : c.isOn v = d.isOn v := by
  rw [isOn, isOn, Value.boxId?_eq_of_same (same_iff.mp h).1]

theorem isOn_norm (c : Connector) (v : Nat) : c.norm.isOn v = c.isOn v := by
  simp [isOn, norm, Value.boxId?_norm]

@[simp] theorem isOn_input (n v : Nat) (p : Value) : (input (.ofNat n) p).isOn v = decide (n = v) := by
  simp [isOn, input]

@[simp] theorem isOn_output (n v : Nat) (p : Value) : (output (.ofNat n) p).isOn v = decide (n = v) := by
  simp [isOn, output]

end Connector

def Value.connector? : Value → Option Connector
  | .connector b k p => some ⟨b, k, p⟩
  | _ => none

structure Wire where
  source : Connector
  target : Connector
deriving DecidableEq, Inhabited

namespace Wire

def toValue (w : Wire) : Value := .wire w.source.toValue w.target.toValue

def ofPorts (a i b j : Nat) : Wire :=
  ⟨.output (.ofNat a) (.ofNat i), .input (.ofNat b) (.ofNat j)⟩

def norm (w : Wire) : Wire := ⟨w.source.norm, w.target.norm⟩

def same (w x : Wire) : Bool := w.norm == x.norm

def rename (f : Ref → Ref) (w : Wire) : Wire := ⟨w.source.rename f, w.target.rename f⟩

theorem same_toValue (w x : Wire) : w.toValue.same x.toValue = w.same x := by
  rw [Bool.eq_iff_iff, Value.same_iff]
  simp [toValue, Connector.toValue, Value.norm, same, norm, Connector.norm]

/-- Wires that are the same are on the same boxes. -/
theorem isOn_eq_of_norm {w x : Wire} (h : w.norm = x.norm) (v : Nat) :
    w.source.isOn v = x.source.isOn v ∧ w.target.isOn v = x.target.isOn v := by
  have hs : w.source.norm = x.source.norm := congrArg Wire.source h
  have ht : w.target.norm = x.target.norm := congrArg Wire.target h
  rw [← Connector.isOn_norm, hs, Connector.isOn_norm, ← Connector.isOn_norm w.target, ht, Connector.isOn_norm]
  exact ⟨rfl, rfl⟩

end Wire
end StringDiagram
