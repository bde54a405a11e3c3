import StringDiagram.Proofs.Category.Joined
import StringDiagram.Proofs.Linear.Ports

/-! # Strands

A strand is a row of wires between consecutive ports. The diagrams that the operations of the category begin
with are woven of strands, and each of them is valid and linear if the rows at both ends of every strand are
the same and every port has a strand: `straight_proper` and the lemmas after it. -/
namespace StringDiagram
open Diagram

namespace Store
variable {s t : Store} {d : Diagram} {side : Side} {b : Value} {as bs : List Value} {v i j : Nat}

def Reads (s : Store) (side : Side) (b : Value) (as : List Value) : Prop :=
  ∃ types, s.ports side b = .ok types ∧ types.entries? = some as

theorem Reads.arity (h : s.Reads side b as) : s.Arity side b as.length :=
  h.imp fun _ ht => ⟨ht.1, length_eq_ok ht.2⟩

theorem Reads.keeps (h : s.Reads side b as) (hk : KeepsPorts s t) : t.Reads side b as :=
  h.imp fun _ ht => ⟨hk _ _ _ ht.1, ht.2⟩

theorem reads_of_diagram {r : Ref} (hd : s.diagram? r = some d) (side : Side) :
    s.Reads side (.ref r) (d.row side) := ⟨_, ports_of_diagram side hd, rfl⟩

/-- The types on a side can be collected, and are as many as the side is long. So it is with a product of
objects too, although no type can be looked up in it. -/
def Lists (s : Store) (side : Side) (b : Value) (as : List Value) : Prop :=
  ∃ types, s.ports side b = .ok types ∧ s.collect types = .ok as ∧ types.length = .ok as.length

theorem Reads.lists (h : s.Reads side b as) : s.Lists side b as :=
  h.imp fun _ ht => ⟨ht.1, collect_of_entries ht.2, length_eq_ok ht.2⟩

theorem Arity.exists_lists {n : Nat} (h : s.Arity side b n) : ∃ as, s.Lists side b as ∧ as.length = n := by
  obtain ⟨types, ht, hn⟩ := h
  cases types with
  | text t =>
    obtain rfl : t.length = n := Except.ok.inj hn
    have hlen : (Text.characters t).length = t.length := by simp [Text.characters, String.length_toList]
    exact ⟨Text.characters t, ⟨_, ht, rfl, hlen ▸ rfl⟩, hlen⟩
  | list as | tuple as | product as | row as =>
    obtain rfl : as.length = n := Except.ok.inj hn
    exact ⟨as, ⟨_, ht, rfl, rfl⟩, rfl⟩
  | _ => cases hn

def Row (s : Store) (d : Diagram) (v : Nat) (side : Side) (i : Nat) (as : List Value) : Prop :=
  ∀ k x, as[k]? = some x → s.Types d (.numbered v side (i + k)) x

theorem typeAt_ofNat {types : Value} (h : types.entries? = some as) (k : Nat) :
    types.typeAt (.ofNat k) = as[k]? := by
  simp [Value.typeAt, h]

theorem row_inputs (before after : List Value) (h : d.inputs = before ++ as ++ after) :
    s.Row d inputId .output before.length as := by
  intro k x hx
  refine types_iff.mpr ⟨.list d.inputs, ?_, ?_⟩
  · rw [portTypes_eq, if_pos (by simp)]
    rfl
  · refine (typeAt_ofNat rfl _).trans ?_
    rw [h, List.append_assoc, List.getElem?_append_right (Nat.le_add_right _ _), Nat.add_sub_cancel_left,
      List.getElem?_append_left (List.getElem?_eq_some_iff.mp hx).1, hx]

theorem row_outputs (before after : List Value) (h : d.outputs = before ++ as ++ after) :
    s.Row d outputId .input before.length as := by
  intro k x hx
  refine types_iff.mpr ⟨.list d.outputs, ?_, ?_⟩
  · rw [portTypes_eq, if_neg (by simp [inputId, outputId]), if_pos (by simp)]
    rfl
  · refine (typeAt_ofNat rfl _).trans ?_
    rw [h, List.append_assoc, List.getElem?_append_right (Nat.le_add_right _ _), Nat.add_sub_cancel_left,
      List.getElem?_append_left (List.getElem?_eq_some_iff.mp hx).1, hx]

theorem row_box (hb : d.boxes.get? v = some b) (h2 : 2 ≤ v) (h : s.Reads side b as) :
    s.Row d v side 0 as := by
  intro k x hx
  obtain ⟨types, ht, he⟩ := h
  have hside : (Connector.numbered v side (0 + k)).side = side := by cases side <;> rfl
  refine (Types.box_iff (Value.boxId?_ofNat v) h2).mpr ⟨b, types, hb, hside.symm ▸ ht, ?_⟩
  refine (typeAt_ofNat he _).trans ?_
  rw [Nat.zero_add, hx]

theorem same_row_iff : (Value.row as).same (.row bs) = true ↔ as.map Value.norm = bs.map Value.norm := by
  rw [Value.same_iff]
  simp [Value.norm, Value.normAll_eq]

/-- A strand between rows that are the same is valid. -/
theorem validWire_strand {a c : Nat} (ha : s.Row d a .output i as) (hc : s.Row d c .input j bs)
    (hsame : (Value.row as).same (.row bs) = true) : ∀ w ∈ strand a i c j as.length, s.ValidWire d w := by
  intro w hw
  obtain ⟨k, hk, rfl⟩ := mem_strand.mp hw
  have hnorm := same_row_iff.mp hsame
  have hlen : as.length = bs.length := by simpa using congrArg List.length hnorm
  have hk' : k < bs.length := hlen ▸ hk
  refine ⟨as[k], bs[k], ha k _ (List.getElem?_eq_getElem hk), hc k _ (List.getElem?_eq_getElem hk'), ?_⟩
  have hat := congrArg (·[k]?) hnorm
  simp only [List.getElem?_map, List.getElem?_eq_getElem hk, List.getElem?_eq_getElem hk', Option.map_some,
    Option.some.injEq] at hat
  exact Value.same_iff.mpr hat

end Store

def block (v : Nat) (side : Side) (i n : Nat) : Multiset Connector :=
  (Multiset.range n).map fun k => .numbered v side (i + k)

theorem block_add (v : Nat) (side : Side) (i m n : Nat) :
    block v side i (m + n) = block v side i m + block v side (i + m) n := by
  simp [block, Multiset.range_add, Nat.add_assoc]

theorem ends_strand (a i b j n : Nat) : (strand a i b j n).map (fun w => (w.endOn .output).norm) = block a .output i n ∧
    (strand a i b j n).map (fun w => (w.endOn .input).norm) = block b .input j n := by
  rw [strand, Multiset.map_map, Multiset.map_map]
  exact ⟨rfl, rfl⟩

structure Woven (inputs outputs held : List Value) (W : Multiset Wire) (d : Diagram) : Prop where
  consistent : d.Consistent
  inputs : d.inputs = inputs
  outputs : d.outputs = outputs
  boxes : d.boxes = (List.range' 2 held.length).zip held
  next : d.next = 2 + held.length
  wires : (d.wires : Multiset Wire) = W

/-- A diagram without fault: the wires are valid, and there is one for each port. -/
structure Store.Proper (s : Store) (d : Diagram) : Prop where
  consistent : d.Consistent
  valid : s.validate d = .ok ()
  linear : s.Linear d

namespace Woven
variable {inputs outputs held : List Value} {W : Multiset Wire} {d : Diagram}

theorem new (inputs outputs held : List Value) :
    Woven inputs outputs held 0 ((Diagram.new inputs outputs).withBoxes held) := by
  have hframe := withBoxes_frame (Diagram.new inputs outputs) held
  refine ⟨(consistent_new _ _).withBoxes held, hframe.2.1, hframe.2.2, boxes_withBoxes _ held,
    next_withBoxes _ held, ?_⟩
  rw [hframe.1]
  rfl

theorem mem_live (h : Woven inputs outputs held W d) {v : Nat} (hv : v < 2 + held.length) : v ∈ d.live := by
  have hkeys : d.boxes.keys = List.range' 2 held.length := by
    rw [h.boxes, Table.keys, List.map_fst_zip (by simp)]
  rw [Diagram.mem_live, hkeys, List.mem_range'_1, inputId, outputId]
  omega

theorem connect (h : Woven inputs outputs held W d) {a b : Nat} (ha : a < 2 + held.length)
    (hb : b < 2 + held.length) (i j n : Nat) :
    Woven inputs outputs held (W + strand a i b j n) (d.connect a i b j n) := by
  obtain ⟨hc, hr, hw⟩ := connect_spec h.consistent (h.mem_live ha) (h.mem_live hb) i j n
  exact ⟨hc, hr.inputs.trans h.inputs, hr.outputs.trans h.outputs, hr.boxes.trans h.boxes,
    hr.next.trans h.next, hw.trans (congrArg (· + _) h.wires)⟩

theorem get? (h : Woven inputs outputs held W d) {i : Nat} {b : Value} (hi : held[i]? = some b) :
    d.boxes.get? (2 + i) = some b := by
  rw [h.boxes]
  refine Table.get?_zip List.nodup_range' (by simp) ?_ hi
  rw [List.getElem?_range' (List.getElem?_eq_some_iff.mp hi).1, Nat.one_mul]

/-- It is enough to look at the strands. -/
theorem proper {s : Store} (h : Woven inputs outputs held W d) (hW : ∀ w ∈ W, s.ValidWire d w)
    (hends : ∀ side, W.map (fun w => (w.endOn side).norm) = block (boundary side) side 0 (d.rim side).length +
      (d.boxes.map fun e => block e.1 side 0 (s.arity side e.2)).sum) : s.Proper d := by
  refine ⟨h.consistent, Store.validate_eq_ok.mpr fun w hw => hW w (h.wires ▸ Multiset.mem_coe.mpr hw), ?_⟩
  refine (Store.linear_iff_ports h.consistent).mpr fun side => ?_
  have hblock : ∀ v n, ((List.range n).map (Connector.numbered v side) : Multiset Connector) =
      block v side 0 n := by
    intro v n
    simp [block, ← Multiset.map_coe, ← Multiset.coe_range]
  rw [endsOn, h.wires, hends side, Store.portsOn, ← Multiset.coe_add, hblock]
  congr 1
  induction d.boxes with
  | nil => rfl
  | cons e t ih => rw [List.map_cons, List.sum_cons, ih, List.flatMap_cons, ← Multiset.coe_add, hblock]

end Woven

def Diagram.solo (inputs outputs : List Value) (b : Value) : Diagram :=
  (((Diagram.new inputs outputs).addBox b).connect inputId 0 2 0 inputs.length).connect 2 0 outputId 0
    outputs.length

section Diagrams
variable {s : Store} {ins ins' mid mid' outs outs' : List Value} {b c : Value}

theorem woven_straight (as : List Value) :
    Woven as as [] (0 + strand inputId 0 outputId 0 as.length) (straight as) :=
  (Woven.new as as []).connect (of_decide_eq_true rfl) (of_decide_eq_true rfl) 0 0 _

theorem woven_crossed (as bs : List Value) : Woven (as ++ bs) (bs ++ as) []
    (0 + strand inputId 0 outputId bs.length as.length + strand inputId as.length outputId 0 bs.length)
    (crossed as bs) :=
  (Woven.new _ _ []).connect (of_decide_eq_true rfl) (of_decide_eq_true rfl) _ _ _
    |>.connect (of_decide_eq_true rfl) (of_decide_eq_true rfl) _ _ _

theorem woven_solo (ins outs : List Value) (b : Value) : Woven ins outs [b]
    (0 + strand inputId 0 2 0 ins.length + strand 2 0 outputId 0 outs.length) (solo ins outs b) :=
  (Woven.new ins outs [b]).connect (of_decide_eq_true rfl) (of_decide_eq_true rfl) _ _ _
    |>.connect (of_decide_eq_true rfl) (of_decide_eq_true rfl) _ _ _

theorem woven_inSequence (ins outs : List Value) (b c : Value) (n : Nat) : Woven ins outs [b, c]
    (0 + strand inputId 0 2 0 ins.length + strand 2 0 3 0 n + strand 3 0 outputId 0 outs.length)
    (inSequence ins outs b c n) :=
  (Woven.new ins outs [b, c]).connect (of_decide_eq_true rfl) (of_decide_eq_true rfl) _ _ _
    |>.connect (of_decide_eq_true rfl) (of_decide_eq_true rfl) _ _ _
    |>.connect (of_decide_eq_true rfl) (of_decide_eq_true rfl) _ _ _

theorem woven_sideBySide (ins ins' outs outs' : List Value) (b c : Value) :
    Woven (ins ++ ins') (outs ++ outs') [b, c]
      (0 + strand inputId 0 2 0 ins.length + strand inputId ins.length 3 0 ins'.length +
        strand 2 0 outputId 0 outs.length + strand 3 0 outputId outs.length outs'.length)
      (sideBySide ins ins' outs outs' b c) :=
  (Woven.new _ _ [b, c]).connect (of_decide_eq_true rfl) (of_decide_eq_true rfl) _ _ _
    |>.connect (of_decide_eq_true rfl) (of_decide_eq_true rfl) _ _ _
    |>.connect (of_decide_eq_true rfl) (of_decide_eq_true rfl) _ _ _
    |>.connect (of_decide_eq_true rfl) (of_decide_eq_true rfl) _ _ _

open Store

theorem straight_proper (s : Store) (as : List Value) : s.Proper (straight as) := by
  have h := woven_straight as
  refine h.proper (fun w hw => ?_) fun side => ?_
  · rw [zero_add] at hw
    exact validWire_strand (row_inputs [] [] (by simp [h.inputs]))
      (row_outputs [] [] (by simp [h.outputs])) (Value.same_refl _) w hw
  · rw [h.boxes, zero_add]
    cases side
    · simp [ends_strand, rim, h.outputs, boundary]
    · simp [ends_strand, rim, h.inputs, boundary]

theorem crossed_proper (s : Store) (as bs : List Value) : s.Proper (crossed as bs) := by
  have h := woven_crossed as bs
  refine h.proper (fun w hw => ?_) fun side => ?_
  · rw [zero_add, Multiset.mem_add] at hw
    rcases hw with hw | hw
    · exact validWire_strand (row_inputs [] bs h.inputs)
        (row_outputs bs [] (by simp [h.outputs])) (Value.same_refl _) w hw
    · exact validWire_strand (row_inputs as [] (by simp [h.inputs]))
        (row_outputs [] as h.outputs) (Value.same_refl _) w hw
  · rw [h.boxes, zero_add, Multiset.map_add]
    cases side
    · simp only [ends_strand, rim, h.outputs, boundary, List.length_append, block_add, zero_add]
      exact (add_comm _ _).trans (add_zero _).symm
    · simp [ends_strand, rim, h.inputs, boundary, block_add]

theorem solo_proper (hi : s.Reads .input b ins) (ho : s.Reads .output b outs) :
    s.Proper (solo ins outs b) := by
  have h := woven_solo ins outs b
  have hb := h.get? (i := 0) rfl
  refine h.proper (fun w hw => ?_) fun side => ?_
  · rw [zero_add, Multiset.mem_add] at hw
    rcases hw with hw | hw
    · exact validWire_strand (row_inputs [] [] (by simp [h.inputs]))
        (row_box hb (by decide) hi) (Value.same_refl _) w hw
    · exact validWire_strand (row_box hb (by decide) ho)
        (row_outputs [] [] (by simp [h.outputs])) (Value.same_refl _) w hw
  · rw [h.boxes, zero_add, Multiset.map_add]
    cases side
    · simp [ends_strand, rim, h.outputs, boundary, hi.arity.eq, add_comm]
    · simp [ends_strand, rim, h.inputs, boundary, ho.arity.eq]

/-- One box after the other, where the types between them are the same. -/
theorem inSequence_proper (hi : s.Reads .input b ins) (ho : s.Reads .output b mid)
    (hi' : s.Reads .input c mid') (ho' : s.Reads .output c outs)
    (hsame : (Value.row mid).same (.row mid') = true) : s.Proper (inSequence ins outs b c mid.length) := by
  have h := woven_inSequence ins outs b c mid.length
  have hb := h.get? (i := 0) rfl
  have hc := h.get? (i := 1) rfl
  have hlen : mid.length = mid'.length := by simpa using congrArg List.length (same_row_iff.mp hsame)
  refine h.proper (fun w hw => ?_) fun side => ?_
  · rw [zero_add, Multiset.mem_add, Multiset.mem_add] at hw
    rcases hw with (hw | hw) | hw
    · exact validWire_strand (row_inputs [] [] (by simp [h.inputs]))
        (row_box hb (by decide) hi) (Value.same_refl _) w hw
    · exact validWire_strand (row_box hb (by decide) ho) (row_box hc (by decide) hi') hsame w hw
    · exact validWire_strand (row_box hc (by decide) ho')
        (row_outputs [] [] (by simp [h.outputs])) (Value.same_refl _) w hw
  · rw [h.boxes, zero_add, Multiset.map_add, Multiset.map_add]
    cases side
    · simp [ends_strand, rim, h.outputs, boundary, hi.arity.eq, hi'.arity.eq, ← hlen, List.range']
      abel
    · simp [ends_strand, rim, h.inputs, boundary, ho.arity.eq, ho'.arity.eq, List.range', add_assoc]

/-- One box beside the other. -/
theorem sideBySide_proper (hi : s.Reads .input b ins) (ho : s.Reads .output b outs)
    (hi' : s.Reads .input c ins') (ho' : s.Reads .output c outs') :
    s.Proper (sideBySide ins ins' outs outs' b c) := by
  have h := woven_sideBySide ins ins' outs outs' b c
  have hb := h.get? (i := 0) rfl
  have hc := h.get? (i := 1) rfl
  refine h.proper (fun w hw => ?_) fun side => ?_
  · rw [zero_add, Multiset.mem_add, Multiset.mem_add, Multiset.mem_add] at hw
    rcases hw with ((hw | hw) | hw) | hw
    · exact validWire_strand (row_inputs [] ins' h.inputs)
        (row_box hb (by decide) hi) (Value.same_refl _) w hw
    · exact validWire_strand (row_inputs ins [] (by simp [h.inputs]))
        (row_box hc (by decide) hi') (Value.same_refl _) w hw
    · exact validWire_strand (row_box hb (by decide) ho)
        (row_outputs [] outs' h.outputs) (Value.same_refl _) w hw
    · exact validWire_strand (row_box hc (by decide) ho')
        (row_outputs outs [] (by simp [h.outputs])) (Value.same_refl _) w hw
  · rw [h.boxes, zero_add, Multiset.map_add, Multiset.map_add, Multiset.map_add]
    cases side
    · simp [ends_strand, rim, h.outputs, boundary, hi.arity.eq, hi'.arity.eq, List.range', block_add]
      abel
    · simp [ends_strand, rim, h.inputs, boundary, ho.arity.eq, ho'.arity.eq, List.range', block_add, add_assoc]

end Diagrams

end StringDiagram
