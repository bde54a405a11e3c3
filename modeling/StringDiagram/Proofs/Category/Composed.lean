import StringDiagram.Proofs.Category.Correspond
import StringDiagram.Proofs.Category.Laws
import StringDiagram.Proofs.Linear.Ports

/-! # The wires of composites

Composition and product are made by two substitutions into a scaffold, but what comes out can be written
down at once: `composed` and `tensored` list its wires, each as often as it is there, and
`composites_wires` says that these are the wires of the two diagrams. Nothing is asked of the rows between
them, and wires that end where the boundary has no port are left out. -/
namespace StringDiagram
open Diagram Network Store

/-- The connector is not on box `b`, or at one of the first `n` ports of it. -/
def Connector.within (b n : Nat) (c : Connector) : Bool := !c.isOn b || c.port.boxId?.any (decide <| · < n)

/-- A wire that ends at `c` goes on as one that starts at `c'`, at one of the first `n` ports between. -/
def Connector.joins (n : Nat) (c c' : Connector) : Bool :=
  c.isOn outputId && c'.isOn inputId && c.within outputId n && c.port.boxId? == c'.port.boxId?

theorem Connector.within_of_off {b n : Nat} {c : Connector} (h : c.isOn b = false) : c.within b n = true := by
  rw [within, h]
  rfl

theorem Tip.move_zero (x : Tip) : x.move (· + 0) = x := x.move_id

theorem Tip.reroute_zero (x : Tip) : x.reroute (· + 0) = x := x.reroute_id

theorem Plan.move_zero (P : Plan) : P.move (· + 0) = P := P.move_id

theorem Plan.reroute_zero (P : Plan) : P.reroute (· + 0) (· + 0) = P := P.reroute_id

namespace Diagram

/-- The connector where the boxes of `f` have the identifiers from `base` on, and the ports of its boundary
come after `n` others. -/
def relocate (f : Diagram) (base n : Nat) (side : Side) (c : Connector) : Connector :=
  if c.isOn (boundary side) then .numbered (boundary side) side (c.port.boxId?.getD 0 + n)
  else IdMap.place (f.boxes.keys.zip (List.range' base f.boxes.length)) c

def relocated (f : Diagram) (base m n : Nat) (w : Wire) : Wire :=
  ⟨f.relocate base m .output w.source, f.relocate base n .input w.target⟩

/-- The wires of `f` and then `g`: those of `f` that end on a box, those of `g` that start on one, and one
for each wire of `f` and each of `g` that goes on from it. -/
def composed (f g : Diagram) : List Wire :=
  ((f.wires.filter fun w => w.source.within inputId f.inputs.length && !w.target.isOn outputId).map
      (f.relocated 4 0 0)) ++
    ((g.wires.filter fun w => !w.source.isOn inputId && w.target.within outputId g.outputs.length).map
      (g.relocated (4 + f.boxes.length) 0 0)) ++
    (f.wires.filter fun a => a.source.within inputId f.inputs.length).flatMap fun a =>
      (g.wires.filter fun b => a.target.joins f.outputs.length b.source &&
        b.target.within outputId g.outputs.length).map fun b =>
      ⟨f.relocate 4 0 .output a.source, g.relocate (4 + f.boxes.length) 0 .input b.target⟩

def tensored (f g : Diagram) : List Wire :=
  ((f.wires.filter fun w => w.source.within inputId f.inputs.length &&
      w.target.within outputId f.outputs.length).map (f.relocated 4 0 0)) ++
    (g.wires.filter fun w => w.source.within inputId g.inputs.length &&
      w.target.within outputId g.outputs.length).map
        (g.relocated (4 + f.boxes.length) f.inputs.length f.outputs.length)

variable {f g : Diagram} {c : Connector} {ks : List Nat} {k m n : Nat}

def placed (f : Diagram) (w : Wire) : Tip × Tip :=
  Prod.map (Tip.move fun n => f.boxes.keys.idxOf n) (Tip.move fun n => f.boxes.keys.idxOf n) w.tips

theorem plan_eq (f : Diagram) : f.plan = (f.wires : Multiset Wire).map f.placed := by
  rw [plan, tips, Plan.move, Multiset.map_map]
  rfl

theorem boundary_cases (side : Side) : boundary side = inputId ∨ boundary side = outputId := by
  cases side
  · exact Or.inr rfl
  · exact Or.inl rfl

section Tips
variable (side : Side) (hf : f.Consistent) (hc : f.Inside (boundary side) c)
include hf hc

theorem Inside.isPin_tip : (c.tip.move fun n => f.boxes.keys.idxOf n).isPin = !c.isOn (boundary side) := by
  rcases hc with hon | ⟨i, hi⟩
  · rw [tip_boundary (boundary_cases side) hon, hon]
    rfl
  · obtain ⟨u, hu, hbox⟩ := hi
    have h2 := hf.two_le (List.mem_of_getElem? hu)
    have hlt := boundary_lt side
    have hoff : c.isOn (boundary side) = false := by
      rw [Connector.isOn, hbox, decide_eq_false_iff_not, Option.some.injEq]
      omega
    rw [OnBox.tip hf ⟨u, hu, hbox⟩, hoff]
    rfl

theorem Inside.fits_tip (n : Nat) :
    (c.tip.move fun n => f.boxes.keys.idxOf n).fits n = c.within (boundary side) n := by
  rw [Tip.fits_move]
  cases hon : c.isOn (boundary side) with
  | true =>
    rw [Connector.within, hon, tip_of_isOn]
    · rfl
    · rcases boundary_cases side with h | h <;> rw [h] at hon
      · exact Or.inl hon
      · exact Or.inr hon
  | false =>
    have hpin := hc.isPin_tip side hf
    rw [Tip.isPin_move, hon] at hpin
    rw [Connector.within, hon, Tip.fits_of_isPin hpin]
    rfl

/-- The connector is found again from its place, where the boxes of `f` come after `k` others. -/
theorem Inside.connector_relocate (hks : ∀ i < f.boxes.length, keyAt ks (i + k) = 4 + k + i)
    (hw : c.within (boundary side) m = true) :
    ((((c.tip.move fun n => f.boxes.keys.idxOf n).move (· + k)).reroute (· + n)).connector ks (boundary side)
      side) = (f.relocate (4 + k) n side c).norm := by
  rcases hc with hon | ⟨i, hi⟩
  · rw [Connector.within, hon, Bool.not_true, Bool.false_or, Option.any_eq_true] at hw
    obtain ⟨j, hj, -⟩ := hw
    rw [relocate, if_pos hon, tip_boundary (boundary_cases side) hon, hj]
    rfl
  · have hpin := Inside.isPin_tip side hf (Or.inr ⟨i, hi⟩ : f.Inside (boundary side) c)
    have hplace := hi.place_eq hf { f with next := 4 + k }
    have hlt := hi.lt
    rw [hi.tip hf] at hpin ⊢
    have hoff : c.isOn (boundary side) = false := by simpa [Tip.isPin] using hpin.symm
    rw [inserted] at hplace
    rw [relocate, hoff, if_neg (by simp), hplace, Tip.move, Tip.reroute, Tip.connector, hks i hlt]
    rfl

end Tips

theorem meets_tip (hf : f.Consistent) (hg : g.Consistent) {c c' : Connector} (hc : f.Inside outputId c)
    (hc' : g.Inside inputId c') : Tip.meets (c.tip.move fun n => f.boxes.keys.idxOf n)
      (c'.tip.move fun n => g.boxes.keys.idxOf n) =
        (c.isOn outputId && c'.isOn inputId && c.port.boxId? == c'.port.boxId?) := by
  have hpin := Inside.isPin_tip .input hf hc
  have hpin' := Inside.isPin_tip .output hg hc'
  cases hon : c.isOn outputId with
  | false => exact Tip.meets_of_isPin (hpin.trans (by rw [show boundary .input = outputId from rfl, hon]; rfl)) _
  | true =>
    cases hon' : c'.isOn inputId with
    | false =>
      exact Tip.meets_isPin _ (hpin'.trans (by rw [show boundary .output = inputId from rfl, hon']; rfl))
    | true =>
      rw [tip_of_isOn (Or.inr hon), tip_of_isOn (Or.inl hon')]
      rfl

section Part
variable (hf : f.Consistent) (hfd : f.Directed) {w : Wire}
include hf hfd

theorem isPin_placed (hw : w ∈ f.wires) : (f.placed w).1.isPin = !w.source.isOn inputId ∧
    (f.placed w).2.isPin = !w.target.isOn outputId := by
  obtain ⟨hs, ht⟩ := inside_ends hf hfd hw
  exact ⟨Inside.isPin_tip .output hf hs, Inside.isPin_tip .input hf ht⟩

theorem fits_placed (hw : w ∈ f.wires) (m n : Nat) : (f.placed w).1.fits m = w.source.within inputId m ∧
    (f.placed w).2.fits n = w.target.within outputId n := by
  obtain ⟨hs, ht⟩ := inside_ends hf hfd hw
  exact ⟨Inside.fits_tip .output hf hs m, Inside.fits_tip .input hf ht n⟩

/-- Part of the plan makes part of the wires. -/
theorem map_wire_part (hks : ∀ i < f.boxes.length, keyAt ks (i + k) = 4 + k + i) {p : Tip × Tip → Bool}
    {q : Wire → Bool} (hpq : ∀ w ∈ f.wires, p (f.placed w) = q w)
    (hq : ∀ w ∈ f.wires, q w = true → w.source.within inputId m = true ∧ w.target.within outputId n = true)
    (i j : Nat) : (Plan.reroute (· + i) (· + j) (Plan.move (· + k) (f.plan.filter fun a => p a = true))).map
        (Tip.wire ks) =
      (((f.wires.filter q).map (f.relocated (4 + k) i j) : List Wire) : Multiset Wire).map Wire.norm := by
  rw [plan_eq, Plan.move, Plan.reroute, Multiset.filter_map, Multiset.map_map, Multiset.map_map,
    Multiset.map_map, ← Multiset.map_coe, coe_filter_bool, Multiset.map_map,
    Multiset.filter_congr fun w hw => by rw [Function.comp_apply, hpq w (Multiset.mem_coe.mp hw)]]
  refine Multiset.map_congr rfl fun w hw => ?_
  obtain ⟨hw, hqw⟩ := Multiset.mem_filter.mp hw
  have hw := Multiset.mem_coe.mp hw
  obtain ⟨hs, ht⟩ := inside_ends hf hfd hw
  obtain ⟨hsw, htw⟩ := hq w hw hqw
  have hsource := hs.connector_relocate .output (n := i) hf hks hsw
  have htarget := ht.connector_relocate .input (n := j) hf hks htw
  exact congrArg₂ Wire.mk hsource htarget

theorem map_wire_clip (hks : ∀ i < f.boxes.length, keyAt ks (i + k) = 4 + k + i) (m n i j : Nat) :
    ((((f.plan.clip m n).move (· + k)).reroute (· + i) (· + j)).map (Tip.wire ks)) =
      (((f.wires.filter fun w => w.source.within inputId m && w.target.within outputId n).map
        (f.relocated (4 + k) i j) : List Wire) : Multiset Wire).map Wire.norm := by
  refine map_wire_part (p := fun a => a.1.fits m && a.2.fits n) hf hfd hks (fun w hw => ?_)
    (fun w _ => Bool.and_eq_true_iff.mp) i j
  rw [(fits_placed hf hfd hw m n).1, (fits_placed hf hfd hw m n).2]

end Part

abbrev fresh (f g : Diagram) : List Nat := List.range' 4 (f.boxes.length + g.boxes.length)

theorem keyAt_first (f g : Diagram) : ∀ i < f.boxes.length, keyAt (fresh f g) (i + 0) = 4 + 0 + i := by
  intro i hi
  rw [keyAt_of_getElem? (List.getElem?_range' (by omega))]
  omega

theorem keyAt_second (f g : Diagram) : ∀ i < g.boxes.length,
    keyAt (fresh f g) (i + f.boxes.length) = 4 + f.boxes.length + i := by
  intro i hi
  rw [keyAt_of_getElem? (List.getElem?_range' (by omega))]
  omega

section Composites
variable (hf : f.Consistent) (hfd : f.Directed) (hg : g.Consistent) (hgd : g.Directed)

section First
include hf hfd

theorem map_wire_first : (Multiset.filter (fun a => a.2.isPin = true)
      (f.plan.clip f.inputs.length f.outputs.length)).map (Tip.wire (fresh f g)) =
    (((f.wires.filter fun w => w.source.within inputId f.inputs.length && !w.target.isOn outputId).map
      (f.relocated 4 0 0) : List Wire) : Multiset Wire).map Wire.norm := by
  rw [Plan.clip, Multiset.filter_filter, ← Plan.reroute_zero (Multiset.filter _ _), ← Plan.move_zero (Multiset.filter _ _)]
  simp only [← Bool.and_eq_true]
  refine map_wire_part (m := f.inputs.length) (n := f.outputs.length) hf hfd (keyAt_first f g)
    (fun w hw => ?_) (fun w hw hq => ?_) 0 0
  · rw [(isPin_placed hf hfd hw).2, (fits_placed hf hfd hw _ 0).1, (fits_placed hf hfd hw 0 _).2]
    cases hon : w.target.isOn outputId with
    | true => simp
    | false => simp [Connector.within_of_off hon]
  · obtain ⟨hs, ht⟩ := Bool.and_eq_true_iff.mp hq
    exact ⟨hs, Connector.within_of_off (by simpa using ht)⟩

end First

section Second
include hg hgd

theorem map_wire_second : (Multiset.filter (fun a => a.1.isPin = true)
      ((g.plan.clip f.outputs.length g.outputs.length).move (· + f.boxes.length))).map (Tip.wire (fresh f g)) =
    (((g.wires.filter fun w => !w.source.isOn inputId && w.target.within outputId g.outputs.length).map
      (g.relocated (4 + f.boxes.length) 0 0) : List Wire) : Multiset Wire).map Wire.norm := by
  have hmove : ∀ P : Plan, Multiset.filter (fun a => a.1.isPin = true) (P.move (· + f.boxes.length)) =
      Plan.move (· + f.boxes.length) (P.filter fun a => a.1.isPin = true) := by
    intro P
    simp only [Plan.move, Multiset.filter_map, Function.comp_def, Prod.map_fst, Tip.isPin_move]
  rw [hmove, Plan.clip, Multiset.filter_filter, ← Plan.reroute_zero (Plan.move _ _)]
  simp only [← Bool.and_eq_true]
  refine map_wire_part (m := f.outputs.length) (n := g.outputs.length) hg hgd (keyAt_second f g)
    (fun w hw => ?_) (fun w hw hq => ?_) 0 0
  · rw [(isPin_placed hg hgd hw).1, (fits_placed hg hgd hw _ 0).1, (fits_placed hg hgd hw 0 _).2]
    cases hon : w.source.isOn inputId with
    | true => simp
    | false => simp [Connector.within_of_off hon]
  · obtain ⟨hs, ht⟩ := Bool.and_eq_true_iff.mp hq
    exact ⟨Connector.within_of_off (by simpa using hs), ht⟩

end Second

include hf hfd hg hgd

/-- Whether a wire of `g` goes on from one of `f` is seen in the plans. -/
theorem joins_eq {a b : Wire} (ha : a ∈ f.wires) (hb : b ∈ g.wires) (k n : Nat) :
    ((f.placed a).2.meets (g.placed b).1 && ((g.placed b).1.fits k && (g.placed b).2.fits n)) =
      (a.target.joins k b.source && b.target.within outputId n) := by
  have hmeets : (f.placed a).2.meets (g.placed b).1 = (a.target.isOn outputId && b.source.isOn inputId &&
      a.target.port.boxId? == b.source.port.boxId?) :=
    meets_tip hf hg (inside_ends hf hfd ha).2 (inside_ends hg hgd hb).1
  rw [hmeets, (fits_placed hg hgd hb k 0).1, (fits_placed hg hgd hb 0 n).2, ← Bool.and_assoc]
  refine congrArg (· && _) ?_
  rw [Connector.joins, Connector.within, Connector.within]
  cases a.target.isOn outputId with
  | false => rfl
  | true =>
    cases b.source.isOn inputId with
    | false => rfl
    | true =>
      cases hp : a.target.port.boxId? == b.source.port.boxId? with
      | false => simp
      | true => simp [eq_of_beq hp]

/-- The wires of `g` that go on from one of `f`. -/
theorem map_wire_after {a : Wire} (ha : a ∈ f.wires) (hs : a.source.within inputId m = true) (k n : Nat) :
    ((Multiset.filter (fun b => (f.placed a).2.meets b.1 = true)
      ((g.plan.clip k n).move (· + f.boxes.length))).map fun b => ((f.placed a).1, b.2)).map
        (Tip.wire (fresh f g)) =
    (((g.wires.filter fun b => a.target.joins k b.source && b.target.within outputId n).map fun b =>
      (⟨f.relocate 4 0 .output a.source, g.relocate (4 + f.boxes.length) 0 .input b.target⟩ : Wire) : List Wire) :
        Multiset Wire).map Wire.norm := by
  have hmeets : ∀ x : Tip, (f.placed a).2.meets (x.move (· + f.boxes.length)) = (f.placed a).2.meets x := by
    intro x
    cases (f.placed a).2 <;> cases x <;> rfl
  simp only [Plan.clip, plan_eq g, Plan.move, Multiset.filter_map, Multiset.map_map, Multiset.filter_filter,
    ← Multiset.map_coe, coe_filter_bool, Function.comp_def, Prod.map_fst, Prod.map_snd, hmeets]
  simp only [← Bool.and_eq_true]
  rw [Multiset.filter_congr fun b hb => by rw [joins_eq hf hfd hg hgd ha (Multiset.mem_coe.mp hb)]]
  refine Multiset.map_congr rfl fun b hb => ?_
  obtain ⟨hb, hjoin⟩ := Multiset.mem_filter.mp hb
  obtain ⟨-, ht⟩ := Bool.and_eq_true_iff.mp hjoin
  have hsource := (inside_ends hf hfd ha).1.connector_relocate .output (n := 0) hf (keyAt_first f g) hs
  have htarget := (inside_ends hg hgd (Multiset.mem_coe.mp hb)).2.connector_relocate .input (n := 0) hg
    (keyAt_second f g) ht
  rw [Tip.reroute_zero] at hsource htarget
  rw [Tip.move_zero] at hsource
  exact congrArg₂ Wire.mk hsource htarget

theorem map_wire_joined : (seq Tip.meets (f.plan.clip f.inputs.length f.outputs.length)
      ((g.plan.clip f.outputs.length g.outputs.length).move (· + f.boxes.length))).map (Tip.wire (fresh f g)) =
    (((f.wires.filter fun a => a.source.within inputId f.inputs.length).flatMap fun a =>
      (g.wires.filter fun b => a.target.joins f.outputs.length b.source &&
        b.target.within outputId g.outputs.length).map fun b =>
      (⟨f.relocate 4 0 .output a.source, g.relocate (4 + f.boxes.length) 0 .input b.target⟩ : Wire) : List Wire) :
        Multiset Wire).map Wire.norm := by
  rw [seq, Plan.clip, plan_eq f, Multiset.filter_map, Multiset.bind_map, Multiset.bind_filter, Multiset.map_bind,
    ← Multiset.coe_bind, coe_filter_bool, Multiset.bind_filter, Multiset.map_bind]
  refine Multiset.bind_congr fun a ha => ?_
  have ha := Multiset.mem_coe.mp ha
  have hfits := fits_placed hf hfd ha
  simp only [Function.comp_apply, (hfits _ 0).1, (hfits 0 _).2]
  cases hs : a.source.within inputId f.inputs.length with
  | false => rfl
  | true =>
    cases ht : a.target.within outputId f.outputs.length with
    | true => exact map_wire_after hf hfd hg hgd ha hs _ _
    | false =>
      have hnone : (g.wires.filter fun b => a.target.joins f.outputs.length b.source &&
          b.target.within outputId g.outputs.length) = [] := by
        rw [List.filter_eq_nil_iff]
        simp [Connector.joins, ht]
      rw [hnone]
      rfl

theorem map_wire_composed : (f.blueprint.compose g.blueprint).plan.map (Tip.wire (fresh f g)) =
    (composed f g : Multiset Wire).map Wire.norm := by
  have hlen : f.blueprint.parts.length = f.boxes.length := List.length_map _
  rw [Blueprint.compose, Plan.serial, hlen, Multiset.map_add, Multiset.map_add]
  rw [show f.blueprint.tight = f.plan.clip f.inputs.length f.outputs.length from rfl, map_wire_first hf hfd]
  change _ + Multiset.map _ (Multiset.filter _ ((g.plan.clip f.outputs.length g.outputs.length).move _)) + _ = _
  rw [map_wire_second hg hgd]
  change _ + _ + Multiset.map _ (seq _ _ ((g.plan.clip f.outputs.length g.outputs.length).move _)) = _
  rw [map_wire_joined hf hfd hg hgd, composed, ← Multiset.coe_add, ← Multiset.coe_add, Multiset.map_add,
    Multiset.map_add]

theorem map_wire_tensored : (f.blueprint.otimes g.blueprint).plan.map (Tip.wire (fresh f g)) =
    (tensored f g : Multiset Wire).map Wire.norm := by
  have hlen : f.blueprint.parts.length = f.boxes.length := List.length_map _
  have hfirst := map_wire_clip hf hfd (keyAt_first f g) f.inputs.length f.outputs.length 0 0
  have hsecond := map_wire_clip hg hgd (keyAt_second f g) g.inputs.length g.outputs.length f.inputs.length
    f.outputs.length
  rw [Plan.reroute_zero, Plan.move_zero] at hfirst
  rw [Blueprint.otimes, Plan.beside, hlen, Multiset.map_add, tensored, ← Multiset.coe_add, Multiset.map_add]
  exact congrArg₂ _ hfirst hsecond

end Composites

section Between
variable (side : Side) (hf : f.Consistent) {base v : Nat}
include hf

/-- A connector that is on a box stays on one of the boxes of `f`. -/
theorem isOn_relocate (hc : f.Inside (boundary side) c) (h : (f.relocate base n side c).isOn v = true)
    (hv : 2 ≤ v) : base ≤ v ∧ v < base + f.boxes.length := by
  rw [relocate] at h
  split at h
  · have hlt := boundary_lt side
    rw [Connector.isOn_numbered, decide_eq_true_iff] at h
    omega
  · next hoff =>
    obtain ⟨i, hi⟩ := hc.resolve_left hoff
    have hplace := hi.place_eq hf { f with next := base }
    rw [inserted] at hplace
    rw [hplace, Connector.isOn_withBox, decide_eq_true_iff] at h
    have hlt := hi.lt
    dsimp only at h
    omega

end Between

/-- No wire of the product runs between a box of `f` and one of `g`. -/
theorem apart_tensored (hf : f.Consistent) (hfd : f.Directed) (hg : g.Consistent) (hgd : g.Directed) {w : Wire}
    (hw : w ∈ tensored f g) {u v : Nat} (hu : 2 ≤ u) (hv : 2 ≤ v) (hs : w.source.isOn u = true)
    (ht : w.target.isOn v = true) : u < 4 + f.boxes.length ↔ v < 4 + f.boxes.length := by
  rcases List.mem_append.mp hw with hw | hw
  · obtain ⟨x, hx, rfl⟩ := List.mem_map.mp hw
    obtain ⟨hxs, hxt⟩ := inside_ends hf hfd (List.mem_of_mem_filter hx)
    have h1 := isOn_relocate .output hf hxs hs hu
    have h2 := isOn_relocate .input hf hxt ht hv
    omega
  · obtain ⟨x, hx, rfl⟩ := List.mem_map.mp hw
    obtain ⟨hxs, hxt⟩ := inside_ends hg hgd (List.mem_of_mem_filter hx)
    have h1 := isOn_relocate .output hg hxs hs hu
    have h2 := isOn_relocate .input hg hxt ht hv
    omega

end Diagram

/-- The diagram at `r` has the boxes of `f` and then those of `g`, numbered from 4 on, nested diagrams up to
copying, and the given wires. -/
structure Store.MadeOf (s : Store) (f g : Diagram) (ins outs : List Value) (ws : List Wire) (t : Store)
    (r : Ref) (d : Diagram) : Prop where
  found : t.diagram? r = some d
  inputs : d.inputs = ins
  outputs : d.outputs = outs
  keys : d.boxes.keys = fresh f g
  held : List.Forall₂ (s.Matched · t ·) (f.boxes.values ++ g.boxes.values) d.boxes.values
  wires : (d.wires.map Wire.norm).Perm (ws.map Wire.norm)

namespace Action
variable {s : Store} {p q : Ref} {f g : Diagram}

theorem enter_madeOf {P : Plan} {d : Diagram} {ins outs : List Value} {ws : List Wire}
    (message : Value → Value → Note) (hf : s.Morphism p f) (hg : s.Morphism q g)
    (hs : Scaffold (.ref p) (.ref q) P d) (hl : Plan.Loopless 2 P)
    (hl' : Plan.Loopless 3 (Plan.graft 2 P (f.plan.move (· + 4)))) (hi : d.inputs = ins) (ho : d.outputs = outs)
    (hw : ∀ d', Filled P d f g d' → d'.plan.map (Tip.wire (fresh f g)) = (ws : Multiset Wire).map Wire.norm) :
    ∃ t d', (enter s.objects.length (.ref p) (.ref q) message).perform (s.withNew d) =
        (.ok s.objects.length, t) ∧ s.MadeOf f g ins outs ws t s.objects.length d' := by
  obtain ⟨t, d', hrun, -, hfound, hfill, hmatch⟩ := enter_filled message hf hg hs hl hl'
  refine ⟨t, d', hrun, hfound, hfill.inputs.trans hi, hfill.outputs.trans ho, hfill.keys,
    hmatch.imp fun _ _ h => h.1, ?_⟩
  have hwires := map_wire_plan hfill.consistent hfill.directed hfill.outward
  rw [hfill.keys, hw d' hfill] at hwires
  exact Multiset.coe_eq_coe.mp hwires.symm

end Action

section Wires
variable {s : Store} {p q : Ref} {f g : Diagram}

/-- Composition and product of any two diagrams whose names can be written. -/
theorem composites_wires (hf : s.Morphism p f) (hg : s.Morphism q g) :
    (∃ t d, (Action.compose (.ref p) (.ref q)).perform s = (.ok s.objects.length, t) ∧
      s.MadeOf f g f.inputs g.outputs (composed f g) t s.objects.length d) ∧
    ∃ t d, (Action.otimes (.ref p) (.ref q)).perform s = (.ok (.ref s.objects.length), t) ∧
      s.MadeOf f g (f.inputs ++ g.inputs) (f.outputs ++ g.outputs) (tensored f g) t s.objects.length d ∧
      ∀ w ∈ d.wires, ∀ u v, 2 ≤ u → 2 ≤ v → w.source.isOn u = true → w.target.isOn v = true →
        (u < 4 + f.boxes.length ↔ v < 4 + f.boxes.length) := by
  constructor
  · obtain ⟨hs, hi, ho⟩ := scaffold_inSequence f.inputs g.outputs (.ref p) (.ref q) f.outputs.length
    rw [Action.perform_compose (operand_of_diagram hf.found) (operand_of_diagram hg.found)]
    refine Action.enter_madeOf .composing hf hg hs (Plan.loopless_chain (by decide) _ _ _)
      (Plan.loopless_graft_chain (by decide) (Plan.away_move (fun i => by omega) _) _ _ _) hi ho fun d' h => ?_
    rw [h.compose_plan hf.consistent hg.consistent hf.directed hg.directed,
      map_wire_composed hf.consistent hf.directed hg.consistent hg.directed]
  · obtain ⟨hs, hi, ho⟩ := scaffold_sideBySide f.inputs g.inputs f.outputs g.outputs (.ref p) (.ref q)
    obtain ⟨t, d, hrun, h⟩ := Action.enter_madeOf .tensoring hf hg hs (Plan.loopless_pair _ _ _ _ _ _)
      (Plan.loopless_graft_pair (by decide) (Plan.away_move (fun i => by omega) _) _ _ _ _) hi ho fun d' h => by
        rw [h.otimes_plan hf.consistent hg.consistent hf.directed hg.directed,
          map_wire_tensored hf.consistent hf.directed hg.consistent hg.directed]
    refine ⟨t, d, ?_, h, fun w hw u v hu hv hsu htv => ?_⟩
    · rw [Action.otimes, Action.perform_bind,
        Action.perform_otimesBoxes (operand_of_diagram hf.found) (operand_of_diagram hg.found), hrun]
      · rfl
      · exact fun _ _ h => by cases h
    · obtain ⟨x, hx, hnorm⟩ := List.mem_map.mp (h.wires.mem_iff.mp (List.mem_map_of_mem hw))
      exact apart_tensored hf.consistent hf.directed hg.consistent hg.directed hx hu hv
        ((Wire.isOn_eq_of_norm hnorm u).1.trans hsu) ((Wire.isOn_eq_of_norm hnorm v).2.trans htv)

/-- The wires that come together where the fork meets the merge, and those of both beside each other. -/
theorem composites_wires_forking :
    (∃ t d, (Action.compose (.ref 0) (.ref 1)).perform forking = (.ok 3, t) ∧ t.diagram? 3 = some d ∧
      (d.wires.map Wire.norm).Perm [.ofPorts 0 0 4 0, .ofPorts 5 0 1 0, .ofPorts 4 0 5 0, .ofPorts 0 0 1 0]) ∧
    ∃ t d, (Action.otimes (.ref 0) (.ref 1)).perform forking = (.ok (.ref 3), t) ∧ t.diagram? 3 = some d ∧
      (d.wires.map Wire.norm).Perm [.ofPorts 0 0 4 0, .ofPorts 4 0 1 0, .ofPorts 0 0 1 1, .ofPorts 0 1 5 0,
        .ofPorts 5 0 1 2, .ofPorts 0 2 1 2] := by
  obtain ⟨⟨t, d, hrun, h⟩, t', d', hrun', h', -⟩ := composites_wires morphism_forked morphism_merged
  exact ⟨⟨t, d, hrun, h.found, h.wires.trans (by decide)⟩, t', d', hrun', h'.found, h'.wires.trans (by decide)⟩

/-- A diagram that cannot be named is neither composed with another nor put beside one. -/
theorem composites_refused : let d := new [.untold] []
    unnamed.diagram? 0 = some d ∧ d.Consistent ∧ d.Directed ∧
      ((Action.compose (.ref 0) (.ref 0)).perform unnamed).1 = .error .missingAttribute ∧
      ((Action.otimes (.ref 0) (.ref 0)).perform unnamed).1 = .error .missingAttribute := by
  refine ⟨rfl, consistent_new _ _, (bare_new _ _).directed, ?_, ?_⟩
  · decide +kernel
  · decide +kernel

end Wires

end StringDiagram
