import StringDiagram.Validity
import StringDiagram.Proofs.Diagram.Spliced
import StringDiagram.Proofs.Store.Reaches

/-! # The types of ports

What type a port has depends on the rows of the diagram and on the box, and on nothing else in the
diagram: `types_iff`. A diagram is valid if both ends of each of its wires have types that are the same. -/
namespace StringDiagram
open Diagram

def Value.entries? : Value → Option (List Value)
  | .text t => some (Text.characters t)
  | .list vs | .tuple vs | .row vs => some vs
  | _ => none

def Value.typeAt (types port : Value) : Option Value := do
  let as ← types.entries?
  let i ← port.boxId?
  as[i]?

def Diagram.row (d : Diagram) : Side → List Value
  | .input => d.inputs
  | .output => d.outputs

def Connector.side (c : Connector) : Side := if c.kind = .side .input then .input else .output

namespace Store
variable {s s' : Store} {d d' : Diagram} {c c' : Connector} {a b : Value}

def Types (s : Store) (d : Diagram) (c : Connector) (a : Value) : Prop := s.portType d c.toValue = .ok a

def ValidWire (s : Store) (d : Diagram) (w : Wire) : Prop :=
  ∃ a b, s.Types d w.source a ∧ s.Types d w.target b ∧ a.same b = true

def KeepsPorts (s s' : Store) : Prop :=
  ∀ side box types, s.ports side box = .ok types → s'.ports side box = .ok types

theorem boxId?_eq_some_iff {v : Value} {i : Nat} : v.boxId? = some i ↔ v.number? = some (i : Int) := by
  unfold Value.boxId?
  cases v.number? with
  | none => simp
  | some n =>
    simp only [Option.bind_eq_bind, Option.bind_some, Option.some.injEq]
    split <;> simp <;> omega

theorem index_eq_ok {port : Value} {i : Int} : port.index = .ok i ↔ port.number? = some i := by
  unfold Value.index
  cases port.number? <;> simp

theorem length_eq_ok {types : Value} {as : List Value} (h : types.entries? = some as) :
    types.length = .ok as.length := by
  cases types with
  | text t =>
    obtain rfl : Text.characters t = as := Option.some.inj h
    simp [Value.length, Text.characters, String.length_toList]
  | list vs | tuple vs | row vs =>
    obtain rfl : vs = as := Option.some.inj h
    rfl
  | _ => cases h

theorem item_eq_ok {types port : Value} {as : List Value} {i : Nat} (s : Store)
    (h : types.entries? = some as) (hi : port.index = .ok (i : Int)) :
    s.item types port = .ok a ↔ as[i]? = some a := by
  have hat : Value.atPosition as i = .ok a ↔ as[i]? = some a := by
    have hneg : ¬ ((i : Int) < 0) := by omega
    unfold Value.atPosition
    simp only [hneg, if_false, Int.toNat_natCast]
    cases as[i]? <;> simp
  rw [← hat]
  cases types with
  | text t | list vs | tuple vs | row vs =>
    cases h
    simp [item, hi, bind, Except.bind]
  | _ => cases h

/-- A sequence that has items at positions lists them. -/
theorem exists_entries {types port : Value} {n : Nat} (hn : types.length = .ok n)
    (h : s.item types port = .ok a) : ∃ as, types.entries? = some as := by
  cases types with
  | text _ | list _ | tuple _ | row _ => exact ⟨_, rfl⟩
  | _ => simp_all [Value.length, item]

/-- A port is looked up at a position that there is. -/
theorem typed_eq_ok {types port : Value} (s : Store) (e : Nat → Fault) :
    (do
      let i ← port.index
      let n ← types.length
      if 0 ≤ i ∧ i < n then s.item types port else .error (e n)) = .ok a ↔ types.typeAt port = some a := by
  simp only [bind_eq_ok, Value.typeAt, Option.bind_eq_bind, Option.bind_eq_some_iff]
  constructor
  · rintro ⟨i, hi, n, hn, h⟩
    split at h
    · next hlt =>
      obtain ⟨as, has⟩ := exists_entries hn h
      lift i to Nat using hlt.1
      exact ⟨as, has, i, boxId?_eq_some_iff.mpr (index_eq_ok.mp hi), (item_eq_ok s has hi).mp h⟩
    · cases h
  · rintro ⟨as, has, i, hi, h⟩
    have hindex := index_eq_ok.mpr (boxId?_eq_some_iff.mp hi)
    have hlt := (List.getElem?_eq_some_iff.mp h).1
    refine ⟨i, hindex, as.length, length_eq_ok has, ?_⟩
    rw [if_pos (by omega)]
    exact (item_eq_ok s has hindex).mpr h

theorem portTypes_eq (s : Store) (d : Diagram) (c : Connector) : s.portTypes d c.toValue =
    if c.isOn inputId then .ok (.list (if c.kind = .side .output then d.inputs else []))
    else if c.isOn outputId then .ok (.list (if c.kind = .side .input then d.outputs else []))
    else (d.box c.box >>= s.ports c.side) := by
  simp only [portTypes, Connector.toValue, boxOf, kindOf, isInput_eq, isOutput_eq, Connector.isOn,
    Connector.side, bind, Except.bind]
  rfl

theorem box_eq_ok {v box : Value} :
    d.box v = .ok box ↔ ∃ n, v.boxId? = some n ∧ d.boxes.get? n = some box := by
  rw [Diagram.box, bind_eq_ok]
  constructor
  · rintro ⟨⟨n, b⟩, h, hb⟩
    cases hb
    exact ⟨n, Table.resolve_eq_ok.mp h⟩
  · rintro ⟨n, h⟩
    exact ⟨(n, box), Table.resolve_eq_ok.mpr h, rfl⟩

theorem types_iff : s.Types d c a ↔
    ∃ types, s.portTypes d c.toValue = .ok types ∧ types.typeAt c.port = some a := by
  rw [Types, portType, bind_eq_ok]
  exact exists_congr fun types => and_congr_right fun _ => typed_eq_ok s _

theorem typeAt_nil (port : Value) : (Value.list []).typeAt port = none := by
  simp only [Value.typeAt, Value.entries?, Option.bind_eq_bind, Option.bind_some, List.getElem?_nil]
  cases port.boxId? <;> rfl

namespace Types

/-- The inputs of a diagram are at the outputs of its input boundary. -/
theorem of_input (h : s.Types d c a) (hc : c.isOn inputId = true) :
    c.kind = .side .output ∧ (Value.list d.inputs).typeAt c.port = some a := by
  obtain ⟨types, ht, ha⟩ := types_iff.mp h
  rw [portTypes_eq, if_pos hc, Except.ok.injEq] at ht
  subst ht
  by_cases hk : c.kind = .side .output
  · exact ⟨hk, by rwa [if_pos hk] at ha⟩
  · rw [if_neg hk, typeAt_nil] at ha
    cases ha

theorem of_output (h : s.Types d c a) (hc : c.isOn outputId = true) :
    c.kind = .side .input ∧ (Value.list d.outputs).typeAt c.port = some a := by
  obtain ⟨types, ht, ha⟩ := types_iff.mp h
  have h0 : c.isOn inputId = false := Connector.isOn_eq_false hc (by decide)
  rw [portTypes_eq, if_neg (by simp [h0]), if_pos hc, Except.ok.injEq] at ht
  subst ht
  by_cases hk : c.kind = .side .input
  · exact ⟨hk, by rwa [if_pos hk] at ha⟩
  · rw [if_neg hk, typeAt_nil] at ha
    cases ha

/-- A port that is not on the boundary has the type that its box says. -/
theorem box_iff {n : Nat} (hn : c.box.boxId? = some n) (h2 : 2 ≤ n) : s.Types d c a ↔ ∃ box types,
    d.boxes.get? n = some box ∧ s.ports c.side box = .ok types ∧ types.typeAt c.port = some a := by
  have hon : c.isOn n = true := Connector.isOn_iff.mpr hn
  have h0 : c.isOn inputId = false := Connector.isOn_eq_false hon (by rw [inputId]; omega)
  have h1 : c.isOn outputId = false := Connector.isOn_eq_false hon (by rw [outputId]; omega)
  have hbox : ∀ box, d.box c.box = .ok box ↔ d.boxes.get? n = some box := fun box => by simp [box_eq_ok, hn]
  rw [types_iff, portTypes_eq, h0, h1]
  simp only [Bool.false_eq_true, if_false, bind_eq_ok, hbox]
  constructor
  · rintro ⟨types, ⟨box, hbox, ht⟩, ha⟩
    exact ⟨box, types, hbox, ht, ha⟩
  · rintro ⟨box, types, hbox, ht, ha⟩
    exact ⟨types, ⟨box, hbox, ht⟩, ha⟩

/-- The type is the same at the same port of another diagram, if the rows, the box and what boxes answer
are. -/
theorem transfer (h : s.Types d c a) (hc : c.same c' = true) (hs : KeepsPorts s s')
    (hi : d'.inputs = d.inputs) (ho : d'.outputs = d.outputs)
    (hb : ∀ box, d.box c.box = .ok box → d'.box c'.box = .ok box) : s'.Types d' c' a := by
  obtain ⟨-, hkind, hport⟩ := Connector.same_iff.mp hc
  have hside : ∀ k : Side, c'.kind = .side k ↔ c.kind = .side k := by
    intro k
    have hnorm : ∀ v : Value, v = .side k ↔ v.norm = .side k := by
      intro v
      cases v <;> simp [Value.norm]
    rw [hnorm c.kind, hnorm c'.kind, Value.same_iff.mp hkind]
  obtain ⟨types, ht, ha⟩ := types_iff.mp h
  refine types_iff.mpr ⟨types, ?_, ?_⟩
  · rw [portTypes_eq] at ht ⊢
    simp only [Connector.side, hside, hi, ho, ← Connector.isOn_eq_of_same hc] at ht ⊢
    split at ht
    · rwa [if_pos ‹_›]
    · rw [if_neg ‹_›]
      split at ht
      · rwa [if_pos ‹_›]
      · rw [if_neg ‹_›]
        obtain ⟨box, hbox, ht⟩ := bind_eq_ok.mp ht
        exact bind_eq_ok.mpr ⟨box, hb box hbox, hs _ _ _ ht⟩
  · rwa [Value.typeAt, ← Value.boxId?_eq_of_same hport]

theorem congr (h : s.Types d c a) (hc : c.same c' = true) : s.Types d c' a := by
  refine h.transfer hc (fun _ _ _ ht => ht) rfl rfl fun box hbox => ?_
  rw [box_eq_ok] at hbox ⊢
  rwa [← Value.boxId?_eq_of_same (Connector.same_iff.mp hc).1]

end Types

/-- Of the boxes only those at the ends of the wire matter. -/
theorem ValidWire.transfer {w : Wire} (h : s.ValidWire d w) (hs : KeepsPorts s s') (hi : d'.inputs = d.inputs)
    (ho : d'.outputs = d.outputs)
    (hb : ∀ c, c = w.source ∨ c = w.target → ∀ box, d.box c.box = .ok box → d'.box c.box = .ok box) :
    s'.ValidWire d' w := by
  obtain ⟨a, b, ha, hb', hab⟩ := h
  have hself : ∀ c : Connector, c.same c = true := fun c => by simp [Connector.same]
  exact ⟨a, b, ha.transfer (hself _) hs hi ho (hb _ (Or.inl rfl)),
    hb'.transfer (hself _) hs hi ho (hb _ (Or.inr rfl)), hab⟩

theorem checkWire_eq_ok {w : Wire} : s.checkWire d w.toValue = .ok () ↔ s.ValidWire d w := by
  simp only [Wire.toValue, checkWire, bind_eq_ok, ValidWire, Types]
  refine exists_congr fun a => ⟨?_, ?_⟩
  · rintro ⟨ha, b, hb, h⟩
    refine ⟨b, ha, hb, ?_⟩
    cases hs : a.same b with
    | true => rfl
    | false => simp [hs] at h
  · rintro ⟨b, ha, hb, hs⟩
    exact ⟨ha, b, hb, by simp [hs, pure, Except.pure]⟩

theorem validate_eq_ok : s.validate d = .ok () ↔ ∀ w ∈ d.wires, s.ValidWire d w := by
  have hall : ∀ ws : List Wire, (ws.forM fun w => s.checkWire d w.toValue) = .ok () ↔
      ∀ w ∈ ws, s.ValidWire d w := by
    intro ws
    induction ws with
    | nil => simp [pure, Except.pure]
    | cons w ws ih =>
      change (s.checkWire d w.toValue >>= fun _ => ws.forM fun w => s.checkWire d w.toValue) = .ok () ↔ _
      rw [bind_eq_ok, List.forall_mem_cons, ← ih, ← checkWire_eq_ok]
      exact ⟨fun ⟨_, hw, hws⟩ => ⟨hw, hws⟩, fun ⟨hw, hws⟩ => ⟨(), hw, hws⟩⟩
  exact hall d.wires

theorem ports_of_diagram {r : Ref} (side : Side) (hd : s.diagram? r = some d) :
    s.ports side (.ref r) = .ok (.list (d.row side)) := by
  simp only [ports, diagram?_eq_some.mp hd]
  cases side <;> rfl

/-- Boxes answer the same when nothing has changed but diagrams, and not their rows. -/
theorem keepsPorts_of_objects (h : ∀ (r : Ref) (o : Object), s.objects[r]? = some o → s'.objects[r]? = some o ∨
    ∃ d d', o = .diagram d ∧ s'.diagram? r = some d' ∧ d'.inputs = d.inputs ∧ d'.outputs = d.outputs) :
    KeepsPorts s s' := by
  have hexpr : ∀ side e vs, s.exprPorts side e = .ok vs → s'.exprPorts side e = .ok vs := by
    intro side e vs he
    cases e with
    | ref r =>
      simp only [exprPorts] at he ⊢
      cases hget : s.objects[r]? with
      | none => simp [hget] at he
      | some o =>
        rcases h r o hget with hget' | ⟨d, d', rfl, -⟩
        · simpa only [hget, hget'] using he
        · simp [hget] at he
    | _ => exact he
  intro side box types hp
  cases box with
  | atomic e =>
    obtain ⟨vs, hvs, hlist⟩ := bind_eq_ok.mp hp
    exact bind_eq_ok.mpr ⟨vs, hexpr side e vs hvs, hlist⟩
  | ref r =>
    cases hget : s.objects[r]? with
    | none => simp [ports, hget] at hp
    | some o =>
      rcases h r o hget with hget' | ⟨d, d', rfl, hd', hi, ho⟩
      · simpa only [ports, hget, hget'] using hp
      · have hports := (ports_of_diagram side (diagram?_eq_some.mpr hget)).symm.trans hp
        refine (ports_of_diagram side hd').trans (Eq.trans ?_ hports)
        cases side
        · exact congrArg _ (congrArg _ hi)
        · exact congrArg _ (congrArg _ ho)
  | _ => exact hp

theorem keepsPorts_of_frame {host : Ref} (hf : Frame host s s') (hd : s.diagram? host = some d)
    (hd' : s'.diagram? host = some d') (hi : d'.inputs = d.inputs) (ho : d'.outputs = d.outputs) :
    KeepsPorts s s' := by
  refine keepsPorts_of_objects fun r o h => ?_
  rcases eq_or_ne r host with rfl | hne
  · rw [diagram?_eq_some.mp hd, Option.some.injEq] at h
    exact Or.inr ⟨d, d', h.symm, hd', hi, ho⟩
  · exact Or.inl (hf.same r o hne h)

end Store

end StringDiagram
