import StringDiagram.Proofs.Linear.Ports
import StringDiagram.Proofs.Network.Lines

/-! # Splicing linear diagrams

The wires of a linear host and of a linear diagram that takes the place of a box neither fork nor join, so
that they make lines and circles, also if the box feeds itself. Of each line one wire is left in the host,
and of a circle none: `endsOn_spliced`. -/
namespace StringDiagram
open Diagram Network

namespace Diagram
variable {s : Store} {d e : Diagram} {v : Nat} {side : Side} {c : Connector} {a b x y : Node}

def settle (a : Node) : Node := (a.1, a.2.norm)

theorem meets_settle (v i j : Nat) (y x : Node) : meets v i j (settle y) (settle x) = meets v i j y x := by
  have hsame : ∀ c c' : Connector, c.norm.same c'.norm = c.same c' := fun c c' => by
    rw [Connector.same, Connector.norm_norm, Connector.norm_norm, Connector.same]
  have hin : ∀ p : Value, Connector.input (.ofNat v) p.norm = (Connector.input (.ofNat v) p).norm :=
    fun _ => rfl
  have hout : ∀ p : Value, Connector.output (.ofNat v) p.norm = (Connector.output (.ofNat v) p).norm :=
    fun _ => rfl
  have hport : ∀ c : Connector, c.norm.port = c.port.norm := fun _ => rfl
  simp only [meets, settle, Connector.isOn_norm, hport, hin, hout, hsame]

def settled (d e : Diagram) : Multiset (Node × Node) := (d.network e).map (Prod.map settle settle)

def nodesOn (d e : Diagram) (side : Side) : Multiset Node :=
  (d.endsOn side).map (Prod.mk 0) + (e.endsOn side).map (Prod.mk 1)

theorem starts_settled (d e : Diagram) : (settled d e).map Prod.fst = nodesOn d e .output := by
  simp [settled, network, nodesOn, endsOn, settle, arrow, Wire.endOn, Function.comp_def]

theorem ends_settled (d e : Diagram) : (settled d e).map Prod.snd = nodesOn d e .input := by
  simp [settled, network, nodesOn, endsOn, settle, arrow, Wire.endOn, Function.comp_def]

theorem mem_nodesOn : a ∈ nodesOn d e side ↔
    a.1 = 0 ∧ a.2 ∈ d.endsOn side ∨ a.1 = 1 ∧ a.2 ∈ e.endsOn side := by
  obtain ⟨i, c⟩ := a
  simp only [nodesOn, Multiset.mem_add, Multiset.mem_map, Prod.mk.injEq]
  constructor
  · rintro (⟨c, hc, rfl, rfl⟩ | ⟨c, hc, rfl, rfl⟩)
    · exact Or.inl ⟨rfl, hc⟩
    · exact Or.inr ⟨rfl, hc⟩
  · rintro (⟨rfl, hc⟩ | ⟨rfl, hc⟩)
    · exact Or.inl ⟨c, hc, rfl, rfl⟩
    · exact Or.inr ⟨c, hc, rfl, rfl⟩

section Linear
variable (hd : s.Linear d) (he : s.Linear e)
include hd he

theorem nodup_nodesOn (side : Side) : (nodesOn d e side).Nodup := by
  refine Multiset.Nodup.add_iff ?_ ?_ |>.mpr ?_
  · exact (Store.linear_iff.mp hd side).1.map fun _ _ h => (Prod.mk.inj h).2
  · exact (Store.linear_iff.mp he side).1.map fun _ _ h => (Prod.mk.inj h).2
  · rw [Multiset.disjoint_left]
    intro a ha ha'
    obtain ⟨_, -, rfl⟩ := Multiset.mem_map.mp ha
    obtain ⟨_, -, h⟩ := Multiset.mem_map.mp ha'
    exact absurd (Prod.mk.inj h).1 Nat.one_ne_zero

/-- The numbered port of box `v` in the host and that on the boundary which takes its place. -/
theorem meets_iff (hy : y ∈ nodesOn d e .input) (hx : x ∈ nodesOn d e .output) : meets v 0 1 y x = true ↔
    ∃ i, y = (0, .numbered v .input i) ∧ x = (1, .numbered inputId .output i) ∨
      y = (1, .numbered outputId .input i) ∧ x = (0, .numbered v .output i) := by
  obtain ⟨iy, y⟩ := y
  obtain ⟨ix, x⟩ := x
  constructor
  · intro hm
    rcases isOn_of_meets hm with ⟨rfl, rfl, hin, hv⟩ | ⟨rfl, rfl, hout, hv⟩
    · obtain ⟨i, rfl⟩ := (hd.port (by simpa [mem_nodesOn] using hy)).on hv
      obtain ⟨j, rfl⟩ := (he.port (by simpa [mem_nodesOn] using hx)).on hin
      have hs : (Connector.numbered v .input i).same (.numbered v .input j) = true := by
        simpa [meets] using hm
      obtain ⟨-, rfl⟩ := Connector.numbered_same_iff.mp hs
      exact ⟨i, Or.inl ⟨rfl, rfl⟩⟩
    · obtain ⟨i, rfl⟩ := (he.port (by simpa [mem_nodesOn] using hy)).on hout
      obtain ⟨j, rfl⟩ := (hd.port (by simpa [mem_nodesOn] using hx)).on hv
      have hs : (Connector.numbered v .output j).same (.numbered v .output i) = true := by
        simpa [meets] using hm
      obtain ⟨-, rfl⟩ := Connector.numbered_same_iff.mp hs
      exact ⟨j, Or.inr ⟨rfl, rfl⟩⟩
  · have hself : ∀ side i, (Connector.numbered v side i).same (.numbered v side i) = true := fun _ _ =>
      Connector.numbered_same_iff.mpr ⟨rfl, rfl⟩
    rintro ⟨i, ⟨hy, hx⟩ | ⟨hy, hx⟩⟩
    · cases hy
      cases hx
      exact Bool.or_eq_true_iff.mpr (Or.inl (Bool.and_eq_true_iff.mpr ⟨by simp, hself .input i⟩))
    · cases hy
      cases hx
      exact Bool.or_eq_true_iff.mpr (Or.inr (Bool.and_eq_true_iff.mpr ⟨by simp, hself .output i⟩))

theorem unforked_settled (v : Nat) : Unforked (meets v 0 1) (settled d e) := by
  have hstart : ∀ a ∈ settled d e, a.1 ∈ nodesOn d e .output := fun a ha =>
    starts_settled d e ▸ Multiset.mem_map_of_mem _ ha
  have hend : ∀ a ∈ settled d e, a.2 ∈ nodesOn d e .input := fun a ha =>
    ends_settled d e ▸ Multiset.mem_map_of_mem _ ha
  refine ⟨starts_settled d e ▸ nodup_nodesOn hd he _, ends_settled d e ▸ nodup_nodesOn hd he _, ?_, ?_⟩
  · intro a ha b hb c hc hac hbc
    obtain ⟨i, ⟨hy, hx⟩ | ⟨hy, hx⟩⟩ := (meets_iff hd he (hend a ha) (hstart c hc)).mp hac <;>
      obtain ⟨j, ⟨hy', hx'⟩ | ⟨hy', hx'⟩⟩ := (meets_iff hd he (hend b hb) (hstart c hc)).mp hbc <;>
      simp_all [Connector.numbered]
  · intro a ha b hb c hc hab hac
    obtain ⟨i, ⟨hy, hx⟩ | ⟨hy, hx⟩⟩ := (meets_iff hd he (hend a ha) (hstart b hb)).mp hab <;>
      obtain ⟨j, ⟨hy', hx'⟩ | ⟨hy', hx'⟩⟩ := (meets_iff hd he (hend a ha) (hstart c hc)).mp hac <;>
      simp_all [Connector.numbered]

end Linear

def free (v : Nat) (side : Side) (a : Node) : Bool :=
  if a.1 = 0 then !a.2.isOn v else !a.2.isOn (boundary side)

theorem spot_settle (a : Node) : spot (inserted d e) (settle a) = (spot (inserted d e) a).norm := by
  obtain ⟨layer, c⟩ := a
  have hplace : (inserted d e).place c.norm = ((inserted d e).place c).norm := by
    rw [IdMap.place, IdMap.place, Connector.norm, Value.boxId?_norm]
    split
    · rfl
    · rfl
  simp only [spot, settle, hplace]
  split
  · rfl
  · rfl

section Fit
variable {box : Value} (hd : s.Linear d) (he : s.Linear e) (hcd : d.Consistent) (hce : e.Consistent)
  (hbox : d.boxes.get? v = some box) (hfit : ∀ side, s.Arity side box (e.row side).length)
include hd he hcd hce hbox hfit

/-- Each port of the box is met by one on the boundary, and the other way round. -/
theorem exists_partner (ha : a ∈ nodesOn d e side) (hfree : free v side a = false) :
    ∃ i, a = (0, .numbered v side i) ∧
        (1, .numbered (boundary side.other) side.other i) ∈ nodesOn d e side.other ∨
      a = (1, .numbered (boundary side) side i) ∧ (0, .numbered v side.other i) ∈ nodesOn d e side.other := by
  obtain ⟨layer, c⟩ := a
  rcases mem_nodesOn.mp ha with ⟨h, hc⟩ | ⟨h, hc⟩
  · obtain rfl : layer = 0 := h
    have hon : c.isOn v = true := by simpa [free] using hfree
    obtain ⟨i, hi, rfl⟩ := (hd.port hc).on_box hon hbox (hcd.two_le (Table.mem_keys_of_get? hbox)) (hfit side)
    refine ⟨i, Or.inl ⟨rfl, mem_nodesOn.mpr (Or.inr ⟨rfl, he.mem_endsOn (.edge ?_)⟩)⟩⟩
    rwa [rim_other]
  · obtain rfl : layer = 1 := h
    have hon : c.isOn (boundary side) = true := by simpa [free] using hfree
    obtain ⟨i, hi, rfl⟩ := (he.port hc).on_boundary hon hce
    refine ⟨i, Or.inr ⟨rfl, mem_nodesOn.mpr (Or.inl ⟨rfl, hd.mem_endsOn (.box hbox (hfit _) ?_)⟩)⟩⟩
    rwa [row_other]

theorem initial_iff (hx : x ∈ nodesOn d e .output) :
    Initial (meets v 0 1) (settled d e) x ↔ free v .output x = true := by
  constructor
  · intro h
    rw [← Bool.not_eq_false]
    intro hfree
    obtain ⟨y, hy, hm⟩ : ∃ y ∈ nodesOn d e .input, meets v 0 1 y x = true := by
      obtain ⟨i, ⟨rfl, hy⟩ | ⟨rfl, hy⟩⟩ := exists_partner hd he hcd hce hbox hfit hx hfree
      · exact ⟨_, hy, (meets_iff hd he hy hx).mpr ⟨i, Or.inr ⟨rfl, rfl⟩⟩⟩
      · exact ⟨_, hy, (meets_iff hd he hy hx).mpr ⟨i, Or.inl ⟨rfl, rfl⟩⟩⟩
    rw [← ends_settled] at hy
    obtain ⟨a, ha, rfl⟩ := Multiset.mem_map.mp hy
    rw [h a ha] at hm
    cases hm
  · intro hfree a _
    rw [Bool.eq_false_iff]
    intro hm
    rcases isOn_of_meets hm with ⟨-, h1, hin, -⟩ | ⟨-, h0, -, hv⟩
    · simp [free, h1, boundary, hin] at hfree
    · simp [free, h0, hv] at hfree

theorem final_iff (hy : y ∈ nodesOn d e .input) :
    Final (meets v 0 1) (settled d e) y ↔ free v .input y = true := by
  constructor
  · intro h
    rw [← Bool.not_eq_false]
    intro hfree
    obtain ⟨x, hx, hm⟩ : ∃ x ∈ nodesOn d e .output, meets v 0 1 y x = true := by
      obtain ⟨i, ⟨rfl, hx⟩ | ⟨rfl, hx⟩⟩ := exists_partner hd he hcd hce hbox hfit hy hfree
      · exact ⟨_, hx, (meets_iff hd he hy hx).mpr ⟨i, Or.inl ⟨rfl, rfl⟩⟩⟩
      · exact ⟨_, hx, (meets_iff hd he hy hx).mpr ⟨i, Or.inr ⟨rfl, rfl⟩⟩⟩
    rw [← starts_settled] at hx
    obtain ⟨a, ha, rfl⟩ := Multiset.mem_map.mp hx
    rw [h a ha] at hm
    cases hm
  · intro hfree a _
    rw [Bool.eq_false_iff]
    intro hm
    rcases isOn_of_meets hm with ⟨h0, -, -, hv⟩ | ⟨h1, -, hout, -⟩
    · simp [free, h0, hv] at hfree
    · simp [free, h1, boundary, hout] at hfree

omit hcd hce hbox hfit in
/-- Of the walks that splicing finds, one follows each line. -/
theorem matched_walks (v : Nat) : Matched (meets v 0 1) (settled d e)
    ((d.walks e v).map (Prod.map settle settle)) := by
  have hsum : settled d e = (d.wires.map (arrow 0) : Multiset (Node × Node)).map (Prod.map settle settle) +
      ((e.wires.map (arrow 1)).map (Prod.map settle settle) : List (Node × Node)) := by
    rw [settled, network, Multiset.map_add]
    simp
  have hhost : Matched (meets v 0 1)
      ((d.wires.map (arrow 0) : Multiset (Node × Node)).map (Prod.map settle settle))
      ((d.wires.map (arrow 0) : Multiset (Node × Node)).map (Prod.map settle settle)) := by
    refine matched_self fun a ha b hb => ?_
    obtain ⟨x, hx, rfl⟩ := Multiset.mem_map.mp ha
    obtain ⟨y, hy, rfl⟩ := Multiset.mem_map.mp hb
    exact (meets_settle v 0 1 x.2 y.1).trans (host_apart d v x hx y hy)
  have hE := unforked_settled hd he v
  rw [hsum] at hE ⊢
  rw [walks, absorb_map (meets_settle v 0 1)]
  exact hhost.absorb _ hE

omit hd hfit in
/-- In the host the node is off box `v`, if it is seen there. -/
theorem free_settle (hx : settle x ∈ nodesOn d e side) : free v side (settle x) = true ↔
    (x.1 == 0 || !x.2.isOn (boundary side)) = true ∧ (spot (inserted d e) x).isOn v = false := by
  rw [← Connector.isOn_norm (spot (inserted d e) x), ← spot_settle]
  obtain ⟨layer, c⟩ := x
  rcases mem_nodesOn.mp hx with ⟨h, -⟩ | ⟨h, hc⟩
  · obtain rfl : layer = 0 := h
    simp [free, settle, spot]
  · obtain rfl : layer = 1 := h
    have hon : c.isOn (boundary side) = c.norm.isOn (boundary side) := (Connector.isOn_norm c _).symm
    have hoff : c.norm.isOn (boundary side) = false → ((inserted d e).place c.norm).isOn v = false := by
      intro hoff
      obtain ⟨i, hi⟩ : ∃ i, e.OnBox i c.norm := (he.port hc).exists_onBox hoff
      have hlt := hcd.below_next v (Consistent.box_live (Table.mem_keys_of_get? hbox))
      rw [hi.place_eq hce, Connector.isOn_withBox, decide_eq_false_iff_not]
      omega
    simp only [free, settle, spot, hon]
    simpa using hoff

/-- The wires of the host that are left, one for each line. -/
theorem spliced_settled : (d.spliced e v).map Wire.norm =
    (lines (meets v 0 1) (settled d e) ((d.walks e v).map (Prod.map settle settle))).map fun t =>
      ⟨spot (inserted d e) t.1, spot (inserted d e) t.2⟩ := by
  have hm := matched_walks hd he v
  rw [spliced, view, Multiset.filter_map, Multiset.map_map, lines, Multiset.filter_map, Multiset.map_map,
    Multiset.filter_filter]
  have hfun : (Wire.norm ∘ fun a : Node × Node => ⟨spot (inserted d e) a.1, spot (inserted d e) a.2⟩) =
      (fun t => ⟨spot (inserted d e) t.1, spot (inserted d e) t.2⟩) ∘ Prod.map settle settle := by
    funext a
    simp only [Function.comp_apply, Prod.map_fst, Prod.map_snd, spot_settle, Wire.norm]
  rw [hfun]
  refine congrArg _ (Multiset.filter_congr fun a ha => ?_)
  obtain ⟨hs, ht⟩ := hm.within _ (Multiset.mem_map_of_mem _ ha)
  rw [starts_settled, Prod.map_fst] at hs
  rw [ends_settled, Prod.map_snd] at ht
  simp only [Function.comp_apply, initial_iff hd he hcd hce hbox hfit hs, final_iff hd he hcd hce hbox hfit ht,
    Prod.map_fst, Prod.map_snd, free_settle he hcd hce hbox hs, free_settle he hcd hce hbox ht, Bool.and_eq_true,
    Bool.not_eq_true', opens, closes, boundary]
  tauto

theorem endsOn_spliced {d' : Diagram} (hw : (d'.wires : Multiset Wire) = d.spliced e v) (side : Side) :
    d'.endsOn side = ((d.endsOn side).filter fun c => c.isOn v = false) +
      ((e.endsOn side).filter fun c => c.isOn (boundary side) = false).map (inserted d e).place := by
  have hm := matched_walks hd he v
  have hends : d'.endsOn side = (((nodesOn d e side).filter fun a => free v side a = true).map
      (spot (inserted d e))) := by
    have hmap : d'.endsOn side = ((d.spliced e v).map Wire.norm).map (Wire.endOn side) := by
      rw [endsOn, hw, Multiset.map_map]
      refine Multiset.map_congr rfl fun w _ => ?_
      cases side <;> rfl
    rw [hmap, spliced_settled hd he hcd hce hbox hfit, Multiset.map_map]
    cases side with
    | output =>
      rw [← Multiset.filter_congr fun x hx => initial_iff hd he hcd hce hbox hfit hx, ← starts_settled,
        ← hm.starts, Multiset.map_map]
      rfl
    | input =>
      rw [← Multiset.filter_congr fun x hx => final_iff hd he hcd hce hbox hfit hx, ← ends_settled,
        ← hm.ends, Multiset.map_map]
      rfl
  rw [hends, nodesOn, Multiset.filter_add, Multiset.map_add, Multiset.filter_map, Multiset.filter_map,
    Multiset.map_map, Multiset.map_map]
  simp [free, spot, Function.comp_def]

end Fit

end Diagram

end StringDiagram
