import StringDiagram.Proofs.Linear.Spliced
import StringDiagram.Proofs.Network.Orders
import StringDiagram.Proofs.Substitution.Chains

/-! # The order of the inserted wires

Two diagrams that differ in the order of their wires only give the same wires when they are substituted
for the same box, and as often: `substitute_order`. There is one exception. Where a chain of wires passes
a wire of the inserted diagram, then a different one and then the first again, the chain is found only if
the one that it passes twice comes first, and the number of wires tells the order: `substitute_knotted`. -/
namespace StringDiagram
open Diagram Network

/-- The chain comes back to a wire of the inserted diagram after a different one. -/
def Revisits {d e : Diagram} (c : List (Link d e)) : Prop :=
  ∃ j k, [.inr j, .inr k, .inr j].Sublist c ∧ (e.wires.get j).same (e.wires.get k) = false

section Links
variable {d e e' : Diagram} {v : Nat} {w : Wire}

/-- No chain comes back where different wires do not feed each other. -/
theorem not_revisits {c : List (Link d e)} (hc : c.IsChain (Link.Joins v))
    (h : ∀ j k, Relation.TransGen (Feeds d e v) j k → Relation.TransGen (Feeds d e v) k j →
      (e.wires.get j).same (e.wires.get k) = true) : ¬ Revisits c := by
  rintro ⟨j, k, hs, hne⟩
  have hpair : [Sum.inr j, .inr k, .inr j].Pairwise (Relation.TransGen (Link.Joins (d := d) (e := e) v)) :=
    ((hc.imp fun _ _ => .single).pairwise).sublist hs
  obtain ⟨hj, hk, -⟩ := by simpa only [List.pairwise_cons] using hpair
  have hjk : Relation.TransGen (Feeds d e v) j k := feeds_of_joins (hj (.inr k) (by simp))
  have hkj : Relation.TransGen (Feeds d e v) k j := feeds_of_joins (hk (.inr j) (by simp))
  rw [h j k hjk hkj] at hne
  cases hne

namespace Diagram

@[simp] theorem opens_settle (a : Node) : opens (settle a) = opens a := by
  simp [opens, settle, Connector.isOn_norm]

@[simp] theorem closes_settle (a : Node) : closes (settle a) = closes a := by
  simp [closes, settle, Connector.isOn_norm]

theorem settle_arrow (i : Nat) (w : Wire) : Prod.map settle settle (arrow i w) = arrow i w.norm := rfl

theorem map_settle_layer (i : Nat) (ws : List Wire) :
    (ws.map (arrow i)).map (Prod.map settle settle) = (ws.map Wire.norm).map (arrow i) := by
  simp only [List.map_map, Function.comp_def, settle_arrow]

theorem settled_walks (d e : Diagram) (v : Nat) : (d.walks e v).map (Prod.map settle settle) =
    absorb (meets v 0 1) ((d.wires.map Wire.norm).map (arrow 0) : List (Node × Node))
      ((e.wires.map Wire.norm).map (arrow 1)) := by
  rw [walks, absorb_map (meets_settle v 0 1), Multiset.map_coe, map_settle_layer, map_settle_layer]

theorem settled_eq (d e : Diagram) : settled d e =
    ((d.wires.map Wire.norm).map (arrow 0) : List (Node × Node)) + ((e.wires.map Wire.norm).map (arrow 1)) := by
  rw [settled, network, Multiset.map_add, Multiset.map_coe, Multiset.map_coe, map_settle_layer,
    map_settle_layer]

theorem settled_congr (hw : (e'.wires.map Wire.norm).Perm (e.wires.map Wire.norm)) :
    settled d e' = settled d e := by
  rw [settled_eq, settled_eq, Multiset.coe_eq_coe.mpr (hw.map (arrow 1))]

theorem inserted_congr (hk : e'.boxes.keys = e.boxes.keys) : inserted d e' = inserted d e := by
  have hl : e'.boxes.length = e.boxes.length := by simpa [Table.keys] using congrArg List.length hk
  rw [inserted, inserted, hk, hl]

theorem Directed.congr (hdir : e.Directed) (hw : (e'.wires.map Wire.norm).Perm (e.wires.map Wire.norm)) :
    e'.Directed := by
  intro w' hw'
  obtain ⟨w, hmem, heq⟩ := List.mem_map.mp (hw.mem_iff.mp (List.mem_map_of_mem hw'))
  obtain ⟨hs, ht⟩ := hdir w hmem
  exact ⟨(Wire.isOn_eq_of_norm heq.symm _).1.trans hs, (Wire.isOn_eq_of_norm heq.symm _).2.trans ht⟩

theorem covers_settled (d e : Diagram) (v : Nat) : Covers (meets v 0 1) (settled d e)
    ((d.walks e v).map (Prod.map settle settle)) :=
  (covers_walks d e v).map fun a _ b _ => meets_settle v 0 1 a.2 b.1

/-- The wires of the host that equal a given one, off box `v`. -/
theorem countP_spliced (hs : w.source.isOn v = false) (ht : w.target.isOn v = false) :
    (d.spliced e v).countP (fun x => x.same w = true) = ((d.walks e v).map (Prod.map settle settle)).countP
      fun a => stands (inserted d e) w.source.norm w.target.norm a = true := by
  have hsame : ∀ x : Wire, x.same w = true ↔ x.source.norm = w.source.norm ∧ x.target.norm = w.target.norm := by
    simp [Wire.same, Wire.norm]
  rw [spliced, Multiset.countP_filter, view, Multiset.countP_map, Multiset.filter_filter, Multiset.countP_map,
    ← Multiset.countP_eq_card_filter, ← Multiset.countP_eq_card_filter]
  refine Multiset.countP_congr rfl fun a _ => propext ?_
  simp only [hsame, stands, Prod.map_fst, Prod.map_snd, opens_settle, closes_settle, spot_settle,
    Bool.and_eq_true, Bool.not_eq_true', decide_eq_true_eq]
  constructor
  · rintro ⟨⟨⟨hx, hy⟩, -⟩, ho⟩
    exact ⟨⟨ho, hx⟩, hy⟩
  · rintro ⟨⟨ho, hx⟩, hy⟩
    refine ⟨⟨⟨hx, hy⟩, ?_, ?_⟩, ho⟩
    · rw [← hs, ← Connector.isOn_norm, hx, Connector.isOn_norm]
    · rw [← ht, ← Connector.isOn_norm, hy, Connector.isOn_norm]

/-- No wire of the host is left on box `v`. -/
theorem countP_spliced_eq_zero (h : ¬ (w.source.isOn v = false ∧ w.target.isOn v = false)) :
    (d.spliced e v).countP (fun x => x.same w = true) = 0 := by
  rw [Multiset.countP_eq_zero]
  intro x hx hsame
  have hnorm : x.norm = w.norm := by simpa [Wire.same] using hsame
  have hoff := (Multiset.mem_filter.mp hx).2
  rw [Bool.and_eq_true, Bool.not_eq_true', Bool.not_eq_true'] at hoff
  have hon := Wire.isOn_eq_of_norm hnorm v
  exact h ⟨hon.1.symm.trans hoff.1, hon.2.symm.trans hoff.2⟩

def settledArrow (l : Link d e) : Node × Node := Prod.map settle settle l.toArrow

theorem arrows_settledArrow : arrows (settledArrow (d := d) (e := e)) = settled d e := by
  rw [settled, ← arrows_toArrow, arrows, arrows, Multiset.map_map]
  rfl

theorem linked_settledArrow {l m : Link d e} :
    Linked (meets v 0 1) settledArrow l m ↔ l.Joins v m := by
  rw [← linked_iff, Linked, Linked, settledArrow, settledArrow, Prod.map_snd, Prod.map_fst, meets_settle]

theorem exists_link {a : Node × Node} (ha : a ∈ (e.wires.map Wire.norm).map (arrow 1)) :
    ∃ j : Fin e.wires.length, settledArrow (.inr j : Link d e) = a := by
  obtain ⟨x, hx, rfl⟩ := List.mem_map.mp ha
  obtain ⟨w, hw, rfl⟩ := List.mem_map.mp hx
  obtain ⟨j, hj, rfl⟩ := List.mem_iff_getElem.mp hw
  exact ⟨⟨j, hj⟩, rfl⟩

end Diagram

section Order
variable (hcd : d.Consistent) (hce : e.Consistent) (hdir : e.Directed) (hv : v ∈ d.boxes.keys)
  (hk : e'.boxes.keys = e.boxes.keys) (hw : (e'.wires.map Wire.norm).Perm (e.wires.map Wire.norm))

section Threads
include hcd hce hdir hv

/-- A chain of settled arrows that stands for a wire of the host is a thread. -/
theorem exists_threads {x y : Node} {c : List (Link d e)}
    (hc : Chain (meets v 0 1) settledArrow x y c) (hx : opens x = true ∧ spot (inserted d e) x = w.source.norm)
    (hy : closes y = true ∧ spot (inserted d e) y = w.target.norm) :
    ∃ x' y', Threads d e v x' y' c ∧ (Wire.mk x' y').same w = true := by
  obtain ⟨l, hl, rfl⟩ := hc.first
  obtain ⟨m, hm, rfl⟩ := hc.last
  rw [settledArrow, Prod.map_fst, opens_settle, spot_settle] at hx
  rw [settledArrow, Prod.map_snd, closes_settle, spot_settle] at hy
  refine ⟨_, _, ⟨?_, ⟨l, hl, (startsAt_iff hcd hce hdir hv).mpr ⟨hx.1, rfl⟩⟩,
    ⟨m, hm, (endsAt_iff hcd hce hdir hv).mpr ⟨hy.1, rfl⟩⟩⟩, ?_⟩
  · exact hc.linked.imp fun _ _ => linked_settledArrow.mp
  · simp [Wire.same, Wire.norm, hx.2, hy.2]

end Threads

section Wires
include hk hw

/-- The same wires are there after both. -/
theorem exists_spliced_iff :
    (∃ x ∈ d.spliced e' v, x.same w = true) ↔ ∃ x ∈ d.spliced e v, x.same w = true := by
  rw [← Multiset.countP_pos, ← Multiset.countP_pos]
  by_cases h : w.source.isOn v = false ∧ w.target.isOn v = false
  · rw [countP_spliced h.1 h.2, countP_spliced h.1 h.2, inserted_congr hk, Multiset.countP_pos,
      Multiset.countP_pos]
    have hc : Covers (meets v 0 1) (settled d e) ((d.walks e' v).map (Prod.map settle settle)) :=
      settled_congr hw ▸ covers_settled d e' v
    simp only [hc.mem_iff (covers_settled d e v)]
  · rw [countP_spliced_eq_zero h, countP_spliced_eq_zero h]

include hcd hce hdir hv

theorem countP_spliced_congr (h : ∀ x y (c : List (Link d e)), Threads d e v x y c →
      (Wire.mk x y).same w = true → ¬ Revisits c) :
    (d.spliced e' v).countP (fun x => x.same w = true) = (d.spliced e v).countP fun x => x.same w = true := by
  by_cases hoff : w.source.isOn v = false ∧ w.target.isOn v = false
  swap
  · rw [countP_spliced_eq_zero hoff, countP_spliced_eq_zero hoff]
  rw [countP_spliced hoff.1 hoff.2, countP_spliced hoff.1 hoff.2, inserted_congr hk, settled_walks,
    settled_walks]
  have hhost : Follows (meets v 0 1) (settled d e)
      ((d.wires.map Wire.norm).map (arrow 0) : List (Node × Node)) := fun a ha =>
    .arrow (settled_eq d e ▸ Multiset.mem_add.mpr (Or.inl ha))
  have hinner : ∀ a ∈ (e.wires.map Wire.norm).map (arrow 1), a ∈ settled d e := fun a ha =>
    settled_eq d e ▸ Multiset.mem_add.mpr (Or.inr (Multiset.mem_coe.mpr ha))
  refine (countP_absorb (hw.symm.map (arrow 1)) hhost hinner
    (X := fun x => opens x = true ∧ spot (inserted d e) x = w.source.norm)
    (Y := fun y => closes y = true ∧ spot (inserted d e) y = w.target.norm) ?_ ?_).symm
  · intro a ha
    simp only [stands, Bool.and_eq_true, decide_eq_true_eq] at ha
    exact ⟨⟨ha.1.1.1, ha.1.2⟩, ha.1.1.2, ha.2⟩
  · rintro a ha b hb hne hx hy ⟨hab, hba⟩
    obtain ⟨j, rfl⟩ := exists_link (d := d) ha
    obtain ⟨k, rfl⟩ := exists_link (d := d) hb
    rw [← arrows_settledArrow] at hx hy hab hba
    obtain ⟨x, y, c, hx, hy, hc, hs⟩ := exists_chain_back hx hy hab hba
    obtain ⟨x', y', ht, hsame⟩ := exists_threads hcd hce hdir hv hc hx hy
    refine h x' y' c ht hsame ⟨j, k, hs, ?_⟩
    rw [Wire.same, beq_eq_false_iff_ne]
    exact fun heq => hne (congrArg (arrow 1) heq)

end Wires

end Order

end Links

/-- The order of the wires of an inserted diagram does not tell which wires are there after a substitution,
nor how often one of them is there, unless it stands for a chain that comes back to an inner wire after a
different one. -/
theorem substitute_order {s s' : Store} {host host' inner inner' : Ref} {d e e' : Diagram} {v : Nat}
    {box : Value} (hd : s.diagram? host = some d) (he : s.diagram? inner = some e)
    (hd' : s'.diagram? host' = some d) (he' : s'.diagram? inner' = some e') (hcd : d.Consistent)
    (hce : e.Consistent) (hce' : e'.Consistent) (hbox : box.boxId? = some v) (hv : v ∈ d.boxes.keys)
    (hdir : e.Directed) (hk : e'.boxes.keys = e.boxes.keys)
    (hw : (e'.wires.map Wire.norm).Perm (e.wires.map Wire.norm)) :
    ∃ t t' d₁ d₂, (Action.substitute host box (.ref inner)).perform s = (.ok (), t) ∧
      (Action.substitute host' box (.ref inner')).perform s' = (.ok (), t') ∧
      t.diagram? host = some d₁ ∧ t'.diagram? host' = some d₂ ∧ d₂.boxes.keys = d₁.boxes.keys ∧
      ∀ w : Wire, ((∃ x ∈ d₂.wires, x.same w = true) ↔ ∃ x ∈ d₁.wires, x.same w = true) ∧
        ((∀ x y (c : List (Link d e)), Threads d e v x y c → (Wire.mk x y).same w = true → ¬ Revisits c) →
          d₂.wires.countP (fun x => x.same w) = d₁.wires.countP fun x => x.same w) := by
  obtain ⟨b, hb⟩ := Table.exists_get? hv
  obtain ⟨t, d₁, hrun, h⟩ := Action.inline_spec hd he hcd hce hdir hv
  obtain ⟨t', d₂, hrun', h'⟩ := Action.inline_spec hd' he' hcd hce' (hdir.congr hw) hv
  have hcount : ∀ (d : Diagram) (w : Wire), d.wires.countP (fun x => x.same w) =
      (d.wires : Multiset Wire).countP fun x => x.same w = true := by
    intro d w
    rw [Multiset.coe_countP]
    simp
  have hl : e'.boxes.length = e.boxes.length := by simpa [Table.keys] using congrArg List.length hk
  refine ⟨t, t', d₁, d₂, (Action.perform_substitute hd he hbox hb (Or.inl rfl)).trans hrun,
    (Action.perform_substitute hd' he' hbox hb (Or.inl rfl)).trans hrun', h.found, h'.found, ?_, fun w => ⟨?_, ?_⟩⟩
  · rw [h'.keys, h.keys, hl]
  · have hmem := exists_spliced_iff (d := d) (v := v) (w := w) hk hw
    rwa [← h.wires, ← h'.wires] at hmem
  · intro hnot
    rw [hcount, hcount, h.wires, h'.wires]
    exact countP_spliced_congr hcd hce hdir hv hk hw hnot

def Diagram.reversed : Diagram :=
  ((new [] []).link 0 1 (.ofPorts 0 1 1 1)).link 0 1 (.ofPorts 0 0 1 0)

theorem Diagram.consistent_reversed : reversed.Consistent := by
  refine ((consistent_new [] []).link ?_ ?_ ?_).link ?_ ?_ ?_ <;> decide

/-- Through the loop around the box the wires feed each other in one direction only. -/
theorem substitute_order_looped :
    let s : Store := ⟨[.diagram looped, .diagram parallel, .diagram reversed], []⟩
    ∃ t t' d₁ d₂, (Action.substitute 0 (.ofNat 2) (.ref 1)).perform s = (.ok (), t) ∧
      (Action.substitute 0 (.ofNat 2) (.ref 2)).perform s = (.ok (), t') ∧
      t.diagram? 0 = some d₁ ∧ t'.diagram? 0 = some d₂ ∧
      ∀ w : Wire, d₂.wires.countP (fun x => x.same w) = d₁.wires.countP fun x => x.same w := by
  intro s
  have hdir : parallel.Directed := by
    unfold Diagram.Directed
    decide
  have hd : s.diagram? 0 = some looped := rfl
  have he : s.diagram? 1 = some parallel := rfl
  have he' : s.diagram? 2 = some reversed := rfl
  obtain ⟨t, t', d₁, d₂, hrun, hrun', hd₁, hd₂, -, hw⟩ := substitute_order hd he hd he' consistent_looped
    consistent_parallel consistent_reversed (Value.boxId?_ofNat 2) (by decide) hdir rfl (by decide)
  refine ⟨t, t', d₁, d₂, hrun, hrun', hd₁, hd₂, fun w => (hw w).2 fun x y c hc _ => ?_⟩
  have hfeeds : ∀ j k, Feeds looped parallel 2 j k → k < j := by decide
  have hlt : ∀ {j k}, Relation.TransGen (Feeds looped parallel 2) j k → k < j := by
    intro j k h
    induction h with
    | single h => exact hfeeds _ _ h
    | tail _ h ih => exact lt_trans (hfeeds _ _ h) ih
  exact not_revisits hc.joined fun j k hjk hkj => absurd (hlt hjk) (lt_asymm (hlt hkj))

def Diagram.knotted : Diagram :=
  (((((new [] []).addBox (.atomic (.hom (.text "f") [] []))).link 0 2 (.ofPorts 0 0 2 0)).link 2 2
    (.ofPorts 2 0 2 1)).link 2 2 (.ofPorts 2 1 2 0)).link 2 1 (.ofPorts 2 0 1 0)

/-- Here the wire that goes round is there if the first of the two wires comes first, and is not if the
second does, so that one order gives two equal wires and the other only one. -/
theorem substitute_knotted :
    let s : Store := ⟨[.diagram knotted, .diagram parallel, .diagram reversed], []⟩
    reversed.inputs = parallel.inputs ∧ reversed.outputs = parallel.outputs ∧ reversed.boxes = parallel.boxes ∧
      reversed.wires.Perm parallel.wires ∧ parallel.Directed ∧ reversed.Directed ∧ ∃ t t' d₁ d₂,
        (Action.substitute 0 (.ofNat 2) (.ref 1)).perform s = (.ok (), t) ∧
        (Action.substitute 0 (.ofNat 2) (.ref 2)).perform s = (.ok (), t') ∧
        t.diagram? 0 = some d₁ ∧ t'.diagram? 0 = some d₂ ∧
        d₁.wires.countP (fun x => x.same (.ofPorts 0 0 1 0)) = 2 ∧
        d₂.wires.countP (fun x => x.same (.ofPorts 0 0 1 0)) = 1 := by
  intro s
  refine ⟨rfl, rfl, rfl, by decide, ?_, ?_, _, _, _, _, rfl, rfl, rfl, rfl, by decide, by decide⟩
  · unfold Diagram.Directed
    decide
  · unfold Diagram.Directed
    decide

end StringDiagram
