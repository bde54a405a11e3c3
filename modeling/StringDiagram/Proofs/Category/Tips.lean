import StringDiagram.Proofs.Category.Graft
import StringDiagram.Proofs.Substitution.Direct

/-! # The plans of diagrams

A diagram has a plan, which forgets the identifiers of its boxes but for their order. When a diagram is
substituted for a box whose ports are numbered, its plan is grafted into that of the host:
`Inlined.tips_eq`. -/
namespace StringDiagram
open Diagram Network

/-- Where a connector is. The identifier of a box stands for its place. -/
def Connector.tip (c : Connector) : Tip :=
  match c.box.boxId? with
  | some n => if n ≤ outputId then .port c.port.boxId? else .pin n c.kind.norm c.port.norm
  | none => .port none

def Wire.tips (w : Wire) : Tip × Tip := (w.source.tip, w.target.tip)

namespace Connector
variable {c : Connector} {v n : Nat}

theorem tip_boundary (h : c.box.boxId? = some n) (hn : n ≤ outputId) : c.tip = .port c.port.boxId? := by
  rw [tip, h]
  exact if_pos hn

theorem tip_box (h : c.box.boxId? = some n) (hn : 2 ≤ n) : c.tip = .pin n c.kind.norm c.port.norm := by
  rw [tip, h]
  exact if_neg (by rw [outputId]; omega)

theorem isAt_tip (hv : 2 ≤ v) (c : Connector) : c.tip.isAt v = c.isOn v := by
  rw [tip, isOn]
  cases h : c.box.boxId? with
  | none => simp [Tip.isAt]
  | some n =>
    dsimp only
    split
    · next hn =>
      have hne : n ≠ v := by rw [outputId] at hn; omega
      simp [Tip.isAt, hne]
    · simp [Tip.isAt]

theorem tip_withBox (hn : 2 ≤ n) (c : Connector) :
    (c.withBox (.ofNat n)).tip = .pin n c.kind.norm c.port.norm :=
  tip_box (c := c.withBox (.ofNat n)) (Value.boxId?_ofNat n) hn

end Connector

namespace Diagram
variable {d e : Diagram} {v : Nat} {c : Connector}

def tips (d : Diagram) : Plan := (d.wires : Multiset Wire).map Wire.tips

def plan (d : Diagram) : Plan := d.tips.move fun n => d.boxes.keys.idxOf n

def Numbered (d : Diagram) (v : Nat) : Prop := ∀ w ∈ d.wires,
  (w.source.isOn v = true → ∃ i, w.source = .output (.ofNat v) (.ofNat i)) ∧
    (w.target.isOn v = true → ∃ i, w.target = .input (.ofNat v) (.ofNat i))

theorem mem_tips {a : Tip × Tip} : a ∈ d.tips ↔ ∃ w ∈ d.wires, w.tips = a :=
  Multiset.mem_map.trans (exists_congr fun _ => and_congr_left fun _ => Multiset.mem_coe)

theorem off_tips (hv : 2 ≤ v) (d : Diagram) : Plan.off v d.tips = ((d.wires : Multiset Wire).filter fun w =>
    (!w.source.isOn v && !w.target.isOn v) = true).map Wire.tips := by
  simp only [Plan.off, tips, Multiset.filter_map, Function.comp_def, Wire.tips, Connector.isAt_tip hv]

/-- The place of a connector on a box, if the boxes before it are `d.next`. -/
theorem OnBox.tip_move (he : e.Consistent) {i : Nat} (hi : e.OnBox i c) (d : Diagram) (hd : 2 ≤ d.next) :
    (c.tip.move fun n => e.boxes.keys.idxOf n).move (· + d.next) = ((inserted d e).place c).tip := by
  rw [hi.place_eq he, Connector.tip_withBox (by omega)]
  obtain ⟨u, hu, hc⟩ := hi
  obtain ⟨hlt, hget⟩ := List.getElem?_eq_some_iff.mp hu
  have hidx : e.boxes.keys.idxOf u = i := by
    rw [← hget]
    exact he.boxes_nodup.idxOf_getElem i hlt
  rw [Connector.tip_box hc (he.two_le (List.mem_of_getElem? hu)), Tip.move, Tip.move, hidx, Nat.add_comm]

theorem tip_of_isOn (hb : c.isOn inputId = true ∨ c.isOn outputId = true) :
    c.tip = .port c.port.boxId? := by
  rcases hb with hb | hb
  · exact Connector.tip_boundary (Connector.isOn_iff.mp hb) (by decide)
  · exact Connector.tip_boundary (Connector.isOn_iff.mp hb) (by decide)

section Ports
variable (hv : 2 ≤ v) (hn : d.Numbered v) {w : Wire} (hw : w ∈ d.wires) (p : Value)

include hv hn hw

theorem same_input_iff : w.target.same (.input (.ofNat v) p) = true ↔
    Tip.meets w.target.tip.inward (.port p.boxId?) = true ∧ w.target.tip.isAt v = true := by
  rw [Connector.isAt_tip hv]
  cases hon : w.target.isOn v with
  | true =>
    obtain ⟨i, hi⟩ := (hn w hw).2 hon
    have htip : w.target.tip = .pin v (.side .input) (.ofNat i) := by
      rw [hi]
      exact Connector.tip_box (c := .input _ _) (Value.boxId?_ofNat v) hv
    have hsame : (Value.ofNat i).same p = true ↔ p.boxId? = some i := by
      rw [Value.boxId?_eq_some]
      exact ⟨Value.same_symm, Value.same_symm⟩
    rw [htip, hi, Connector.same_iff, Tip.inward, Value.boxId?_ofNat, Tip.meets_port]
    simp [Connector.input, hsame, eq_comm]
  | false =>
    refine ⟨fun h => ?_, fun h => absurd h.2 (by simp)⟩
    rw [Connector.isOn_eq_of_same h] at hon
    simp at hon

theorem same_output_iff : w.source.same (.output (.ofNat v) p) = true ↔
    Tip.meets (.port p.boxId?) w.source.tip.inward = true ∧ w.source.tip.isAt v = true := by
  rw [Connector.isAt_tip hv]
  cases hon : w.source.isOn v with
  | true =>
    obtain ⟨i, hi⟩ := (hn w hw).1 hon
    have htip : w.source.tip = .pin v (.side .output) (.ofNat i) := by
      rw [hi]
      exact Connector.tip_box (c := .output _ _) (Value.boxId?_ofNat v) hv
    have hsame : (Value.ofNat i).same p = true ↔ p.boxId? = some i := by
      rw [Value.boxId?_eq_some]
      exact ⟨Value.same_symm, Value.same_symm⟩
    rw [htip, hi, Connector.same_iff, Tip.inward, Value.boxId?_ofNat, Tip.meets_port]
    simp [Connector.output, hsame]
  | false =>
    refine ⟨fun h => ?_, fun h => absurd h.2 (by simp)⟩
    rw [Connector.isOn_eq_of_same h] at hon
    simp at hon

end Ports

section Taken
variable (hd : d.Consistent) (he : e.Consistent) (hv : v ∈ d.boxes.keys) (hn : d.Numbered v)

include hd he hv hn

theorem upstream_tips (hc : e.Inside inputId c) :
    (d.upstream v (inserted d e) c).map Connector.tip = Plan.before (Plan.into v d.tips)
      ((c.tip.move fun n => e.boxes.keys.idxOf n).move (· + d.next)) := by
  have h2 := hd.two_le_next
  rw [upstream]
  cases hon : c.isOn inputId with
  | true =>
    rw [if_pos rfl, tip_of_isOn (Or.inl hon), Tip.move, Tip.move, Plan.before, if_neg (by simp [Tip.isPin])]
    simp only [Plan.into, tips, Multiset.filter_map, Multiset.map_map, Multiset.filter_filter,
      Function.comp_def]
    exact congrArg₂ Multiset.map rfl
      (Multiset.filter_congr fun w hw => same_input_iff (hd.two_le hv) hn (Multiset.mem_coe.mp hw) c.port)
  | false =>
    obtain ⟨i, hi⟩ := hc.resolve_left (by simp [hon])
    have hpin : ((inserted d e).place c).tip.isPin = true := by
      rw [hi.place_eq he, Connector.tip_withBox (by omega)]
      rfl
    rw [if_neg (by simp), hi.tip_move he d h2, Multiset.map_singleton, Plan.before, if_pos hpin]

theorem downstream_tips (hc : e.Inside outputId c) :
    (d.downstream v (inserted d e) c).map Connector.tip = Plan.behind (Plan.outOf v d.tips)
      ((c.tip.move fun n => e.boxes.keys.idxOf n).move (· + d.next)) := by
  have h2 := hd.two_le_next
  rw [downstream]
  cases hon : c.isOn outputId with
  | true =>
    rw [if_pos rfl, tip_of_isOn (Or.inr hon), Tip.move, Tip.move, Plan.behind, if_neg (by simp [Tip.isPin])]
    simp only [Plan.outOf, tips, Multiset.filter_map, Multiset.map_map, Multiset.filter_filter,
      Function.comp_def]
    exact congrArg₂ Multiset.map rfl
      (Multiset.filter_congr fun w hw => same_output_iff (hd.two_le hv) hn (Multiset.mem_coe.mp hw) c.port)
  | false =>
    obtain ⟨i, hi⟩ := hc.resolve_left (by simp [hon])
    have hpin : ((inserted d e).place c).tip.isPin = true := by
      rw [hi.place_eq he, Connector.tip_withBox (by omega)]
      rfl
    rw [if_neg (by simp), hi.tip_move he d h2, Multiset.map_singleton, Plan.behind, if_pos hpin]

/-- The plan of the inserted diagram comes into the place of the box. -/
theorem spliced_tips (hdir : e.Directed) (h : ¬ d.Links v v) :
    (d.spliced e v).map Wire.tips = Plan.graft v d.tips (e.plan.move (· + d.next)) := by
  have htaken : ∀ w ∈ (e.wires : Multiset Wire), (((d.upstream v (inserted d e) w.source).bind fun a =>
        (d.downstream v (inserted d e) w.target).map fun b => (⟨a, b⟩ : Wire)).map Wire.tips) =
      (Plan.before (Plan.into v d.tips)
        ((w.source.tip.move fun n => e.boxes.keys.idxOf n).move (· + d.next))).bind fun y =>
      (Plan.behind (Plan.outOf v d.tips)
        ((w.target.tip.move fun n => e.boxes.keys.idxOf n).move (· + d.next))).map (Prod.mk y) := by
    intro w hw
    obtain ⟨hs, ht⟩ := inside_ends he hdir (Multiset.mem_coe.mp hw)
    rw [← upstream_tips hd he hv hn hs, ← downstream_tips hd he hv hn ht, Multiset.map_bind,
      Multiset.bind_map]
    refine Multiset.bind_congr fun a _ => ?_
    rw [Multiset.map_map, Multiset.map_map]
    rfl
  rw [spliced_eq h hd he hv hdir, Multiset.map_add, ← off_tips (hd.two_le hv), Multiset.map_bind,
    Multiset.bind_congr htaken, Plan.graft, Plan.serial_between (fun _ => Plan.into_not_isPin)
      fun _ => Plan.outOf_not_isPin, plan, Plan.move, Plan.move, Multiset.bind_map, Multiset.bind_map]
  conv_rhs => rw [show e.tips = (e.wires : Multiset Wire).map Wire.tips from rfl, Multiset.bind_map]
  rfl

end Taken

end Diagram

end StringDiagram
