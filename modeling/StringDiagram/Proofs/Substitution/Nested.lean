import StringDiagram.Proofs.Substitution.Within

/-! # Nested substitutions

A diagram with a box for another diagram may be put into a host before or after that box is substituted. The
first way needs a copy of the diagram. Then the host has the same boxes and the same wires, if neither diagram
holds what changes meanwhile: `substitute_nested`. -/
namespace StringDiagram
open Diagram Network

section Numbers
variable {s₂ t t₁ t₂ r₁ r₂ : Store} {host c : Ref} {d e k m₁ d₁ d₂ d₂' : Diagram} {v i : Nat}

theorem makeRoom_inj {u n n' : Nat} (h : makeRoom u n = makeRoom u n') : n = n' := by
  unfold makeRoom at h
  split_ifs at h <;> omega

theorem exists_makeRoom {u n : Nat} (h : n ≠ u) :
    ∃ n', makeRoom u n' = n ∧ (n < u ∧ n' = n ∨ u < n ∧ n' + 1 = n) := by
  rcases Nat.lt_or_gt_of_ne h with h | h
  · exact ⟨n, makeRoom_of_lt h, Or.inl ⟨h, rfl⟩⟩
  · exact ⟨n - 1, by rw [makeRoom_of_le (by omega)]; omega, Or.inr ⟨h, by omega⟩⟩

/-- The boxes of the host if the second substitution is for a box that came in by the first one. -/
theorem Inlined.mem_keys_inward (h₁ : Inlined r₁ t₁ host v d e d₁)
    (h₂ : Inlined t₁ t₂ host (d.next + i) d₁ k d₂') (hd : d.Consistent) (hi : i < e.boxes.length) {n : Nat} :
    n ∈ d₂'.boxes.keys ↔ (n ∈ d.boxes.keys ∧ n ≠ v) ∨
      (d.next ≤ n ∧ n < d.next + e.boxes.length + k.boxes.length ∧ n ≠ d.next + i) := by
  rw [h₂.mem_keys, h₁.mem_keys, h₁.next]
  constructor
  · rintro (⟨hn | hn, hne⟩ | hn)
    · exact Or.inl hn
    · exact Or.inr ⟨hn.1, by omega, hne⟩
    · exact Or.inr ⟨by omega, hn.2, by omega⟩
  · rintro (hn | hn)
    · have hlt := hd.below_next n (Consistent.box_live hn.1)
      exact Or.inl ⟨Or.inl hn, by omega⟩
    · by_cases hlt : n < d.next + e.boxes.length
      · exact Or.inl ⟨Or.inr ⟨hn.1, hlt⟩, hn.2.2⟩
      · exact Or.inr ⟨by omega, hn.2.1⟩

/-- The numbers of the boxes in both orders. -/
theorem Inlined.bijOn_makeRoom (h : Inlined s₂ t host v d m₁ d₂) (h₁ : Inlined r₁ t₁ host v d e d₁)
    (h₂ : Inlined t₁ t₂ host (d.next + i) d₁ k d₂') (hd : d.Consistent) (hi : i < e.boxes.length)
    (hm : m₁.boxes.length = e.boxes.length - 1 + k.boxes.length) :
    Set.BijOn (makeRoom (d.next + i)) {n | n ∈ d₂.boxes.keys} {n | n ∈ d₂'.boxes.keys} := by
  have hbelow : ∀ {n}, n ∈ d.boxes.keys → n < d.next := fun h => hd.below_next _ (Consistent.box_live h)
  refine ⟨fun n hn => ?_, fun n _ n' _ => makeRoom_inj, fun n hn => ?_⟩
  · apply (h₁.mem_keys_inward h₂ hd hi).mpr
    rcases h.mem_keys.mp hn with hn | hn
    · have hlt := hbelow hn.1
      rw [makeRoom_of_lt (by omega)]
      exact Or.inl hn
    · refine Or.inr ⟨?_, ?_, makeRoom_ne _ _⟩ <;> unfold makeRoom <;> split <;> omega
  · rcases (h₁.mem_keys_inward h₂ hd hi).mp hn with hn | hn
    · have hlt := hbelow hn.1
      exact ⟨n, h.mem_keys.mpr (Or.inl hn), makeRoom_of_lt (by omega)⟩
    · obtain ⟨n', hn', hcases⟩ := exists_makeRoom hn.2.2
      exact ⟨n', h.mem_keys.mpr (Or.inr (by omega)), hn'⟩

end Numbers

structure Nestable (s : Store) (host m p : Ref) (d e k : Diagram) (v u : Nat) : Prop where
  closed : s.Closed
  outer : s.diagram? host = some d
  middle : s.diagram? m = some e
  inner : s.diagram? p = some k
  middle_ne : m ≠ host
  inner_ne : p ≠ host
  outer_consistent : d.Consistent
  middle_consistent : e.Consistent
  inner_consistent : k.Consistent
  middle_directed : e.Directed
  inner_directed : k.Directed
  outer_box : v ∈ d.boxes.keys
  middle_box : u ∈ e.boxes.keys

/-- The innermost diagram can come in before the one around it or after it, and the results agree. One numbering
of boxes `σ` fixes those of the host, matches those of `e` and `k` by the identifiers under which they came in,
and carries the wires of the one result to those of the other. The boxes of `e` are copies of what they were
where a copy of `e` was used, and all others are held as they were, diagrams as copies. The wires are there as
often if neither box feeds itself. -/
def NestsAlike (s : Store) (host m p : Ref) (d e k : Diagram) (v u : Nat) : Prop :=
  ∃ u' t t' d₂ d₂' ids ids₂ ids' σ, (inserted d e).get? u = some u' ∧
    (Action.substituteWithin host m p v u).perform s = (.ok (), t) ∧
    (Action.substituteTwice host v m u' p).perform s = (.ok (), t') ∧
    t.diagram? host = some d₂ ∧ t'.diagram? host = some d₂' ∧
    t.notes = s.notes ++ [.substituting u ids, .substituting v ids₂] ∧
    t'.notes = s.notes ++ [.substituting v (inserted d e), .substituting u' ids'] ∧
    d₂.Renumbers σ d₂' ∧ (∀ n < d.next, σ n = n) ∧
    (∀ n ∈ d.boxes.keys, n ≠ v →
      d₂.boxes.get? n = d.boxes.get? n ∧ d₂'.boxes.get? n = d.boxes.get? n) ∧
    (∀ x b, e.boxes.get? x = some b → x ≠ u → ∃ n, ids₂.get? x = some n ∧
      (inserted d e).get? x = some (σ n) ∧ s.CopiedAt b t d₂ n ∧ s.HeldAt b t' d₂' (σ n)) ∧
    (∀ x b, k.boxes.get? x = some b → ∃ n₁ n, ids.get? x = some n₁ ∧ ids₂.get? n₁ = some n ∧
      ids'.get? x = some (σ n) ∧ s.HeldAt b t d₂ n ∧ s.HeldAt b t' d₂' (σ n)) ∧
    (¬ d.Links v v → ¬ e.Links u u → d₂'.wires.Perm (d₂.wires.map (Wire.renumber σ)))

/-- A diagram can be put in the place of a box of another one before or after that is put into a host, if
the host is not in what the two diagrams hold and the inner diagram not in what it holds itself, and if its
ports are not things that are copied with it. -/
theorem substitute_nested {s : Store} {host m p : Ref} {d e k : Diagram} {v u : Nat}
    (h : Nestable s host m p d e k v u)
    (hae : ∀ b ∈ e.boxes.values, s.Apart host b) (hak : ∀ b ∈ k.boxes.values, s.Apart host b)
    (hself : ∀ b ∈ e.boxes.values, ¬ s.Reaches b m) (hwires : ∀ w ∈ e.wires, w.toValue.refs = []) :
    NestsAlike s host m p d e k v u := by
  obtain ⟨hs, hd, he, hk, hm, hp, hcd, hce, hck, hde, hdk, hv, hu⟩ := h
  obtain ⟨i, hi⟩ := List.mem_iff_getElem?.mp hu
  have hlt := Table.lt_of_key hi
  have hvlt : v < d.next := hcd.below_next v (Consistent.box_live hv)
  have hhost := Store.lt_of_diagram? hd
  obtain ⟨s₂, m₁, t, d₂, hrun, hle, hc, h₁, h₂⟩ :=
    Action.substituteWithin_spec hd he hk hcd hce hck hde hdk hv hu hwires
  obtain ⟨t₁, d₁, t', d₂', hrun', h₁', h₂'⟩ := Action.substituteTwice_spec hd he hk hm hp hcd hce hck hde hdk
    hv (Or.inr ⟨Nat.le_add_right d.next i, Nat.add_lt_add_left hlt _⟩)
  let f := s.copyRef (s.reachable m)
  have hce' : (e.rename f).Consistent := hce.rename f
  have hi' : (e.rename f).boxes.keys[i]? = some u := keys_rename f e ▸ hi
  have hkeys : m₁.boxes.keys = e.boxes.keys.eraseIdx i ++ List.range' e.next k.boxes.length := by
    rw [h₁.keys_eraseIdx hce' hi', keys_rename]
    rfl
  have hw₁ : (m₁.wires : Multiset Wire) = e.spliced k u := h₁.wires.trans (spliced_rename f hwires k u)
  refine ⟨d.next + i, t, t', d₂, d₂', inserted e k, inserted d m₁, inserted d₁ k, makeRoom (d.next + i),
    get?_inserted hce hi, hrun, hrun', h₂.found, h₂'.found, ?_, ?_, ⟨?_, ?_, ?_, fun x => ?_⟩,
    fun n hn => makeRoom_of_lt (by omega), fun n hn hne => ⟨h₂.get?_old hn hne, ?_⟩,
    fun x b hb hx => ?_, fun x b hb => ?_, fun hvv huu => ?_⟩
  · rw [h₂.notes, h₁.notes, List.append_assoc]
    rfl
  · rw [h₂'.notes, h₁'.notes, List.append_assoc]
    rfl
  · rw [h₂'.inputs, h₁'.inputs, h₂.inputs]
  · rw [h₂'.outputs, h₁'.outputs, h₂.outputs]
  · exact h₂.bijOn_makeRoom h₁' h₂' hcd hlt (length_taken hlt hkeys)
  · have h := Order.mem_nested hcd hce hck hde hdk hi hvlt h₁.consistent hkeys h₁'.next hw₁ h₁'.wires x
    rw [← h₂'.wires, ← h₂.wires] at h
    exact h
  · have hbelow := hcd.below_next n (Consistent.box_live hn)
    rw [h₂'.get?_old (h₁'.mem_keys.mpr (Or.inl ⟨hn, hne⟩)) (by omega), h₁'.get?_old hn hne]
  · obtain ⟨j, hj, hplace, hkey⟩ := exists_place hb
    have hji : j ≠ i := by
      rintro rfl
      exact hx (Option.some.inj (hkey.symm.trans hi))
    obtain ⟨j', hj', hroom⟩ := exists_key_old hlt hkeys hkey hji d
    refine ⟨d.next + j', get?_inserted h₁.consistent hj', ?_, ?_, ?_⟩
    · rw [hroom, get?_inserted hce hkey]
    · exact h₁.copiedAt_within hs hd he hcd hle h₂ hself hb hx hj'
    · rw [hroom]
      exact h₂'.heldAt_old (h₁'.heldAt_new hcd hd (.refl host s) hplace
        (hae b (Table.mem_values_of_get? hb))) (by omega) hhost
  · obtain ⟨j, hj, hplace, hkey⟩ := exists_place hb
    obtain ⟨j', hj', hroom⟩ := exists_key_new hlt hkeys hj d
    refine ⟨e.next + j, d.next + j', get?_inserted hck hkey, get?_inserted h₁.consistent hj', ?_, ?_, ?_⟩
    · rw [hroom, get?_inserted hck hkey, h₁'.next]
    · exact h₁.heldAt_within hs hd hk hcd hle h₂ hce' hc hak hplace hb hj'
    · rw [hroom, ← h₁'.next]
      exact h₂'.heldAt_new h₁'.consistent hd h₁'.frame hplace
        (hak b (Table.mem_values_of_get? hb))
  · have h := Order.spliced_nested hcd hce hck hde hdk hi hvlt h₁.consistent hkeys h₁'.next hw₁ h₁'.wires
      hvv huu
    rw [← h₂'.wires, ← h₂.wires, Multiset.map_coe] at h
    exact Multiset.coe_eq_coe.mp h

/-- A diagram that holds two diagrams, one of them also where the other one belongs. -/
theorem substitute_nested_chained :
    let d := chained (.named "f") (.named "g")
    let s : Store := ⟨[.diagram d, .diagram (chained (.ref 2) (.ref 3)), .diagram (passed (.ref 3)),
      .diagram (new [] [])], []⟩
    Nestable s 0 1 2 d (chained (.ref 2) (.ref 3)) (passed (.ref 3)) 2 2 ∧
      NestsAlike s 0 1 2 d (chained (.ref 2) (.ref 3)) (passed (.ref 3)) 2 2 := by
  intro d s
  have hmiddle : (chained (.ref 2) (.ref 3)).Directed := by
    unfold Diagram.Directed
    decide
  have hinner : (passed (.ref 3)).Directed := by
    unfold Diagram.Directed
    decide
  have h : Nestable s 0 1 2 d (chained (.ref 2) (.ref 3)) (passed (.ref 3)) 2 2 :=
    ⟨Store.closed_of_forall (by decide), rfl, rfl, rfl, by decide, by decide, consistent_chained _ _,
      consistent_chained _ _, consistent_passed _, hmiddle, hinner, by decide, by decide⟩
  have hout : ∀ r, r = 2 ∨ r = 3 → ∀ q, q = 0 ∨ q = 1 → ¬ s.Reaches (.ref r) q := by
    rintro r (rfl | rfl) q (rfl | rfl) <;>
      exact Store.not_reaches (by decide) (by decide) (by decide)
  have hboxes : ∀ b ∈ (chained (.ref 2) (.ref 3)).boxes.values, ∃ r, b = .ref r ∧ (r = 2 ∨ r = 3) := by
    intro b hb
    rcases List.mem_pair.mp hb with rfl | rfl
    · exact ⟨2, rfl, Or.inl rfl⟩
    · exact ⟨3, rfl, Or.inr rfl⟩
  refine ⟨h, substitute_nested h (fun b hb _ _ _ _ => ?_) (fun b hb _ _ _ _ => ?_) (fun b hb => ?_) ?_⟩
  · obtain ⟨r, rfl, hr⟩ := hboxes b hb
    exact hout r hr 0 (Or.inl rfl)
  · obtain rfl : b = .ref 3 := List.mem_singleton.mp hb
    exact hout 3 (Or.inr rfl) 0 (Or.inl rfl)
  · obtain ⟨r, rfl, hr⟩ := hboxes b hb
    exact hout r hr 1 (Or.inr rfl)
  · decide

def Store.heldSizes (t : Store) (host : Ref) : List Nat :=
  match t.diagram? host with
  | some d => d.boxes.values.filterMap fun b => (t.asDiagram? b).map fun q => q.2.boxes.length
  | none => []

def Store.portsUsed (t : Store) (host : Ref) : List Value :=
  match t.diagram? host with
  | some d => d.wires.map fun w => w.source.port
  | none => []

/-- A copy has as many boxes. -/
theorem Store.CopiedAt.mem_heldSizes {s t : Store} {b : Value} {d c : Diagram} {n : Nat} {host r : Ref}
    (h : s.CopiedAt b t d n) (hd : t.diagram? host = some d) (hb : s.asDiagram? b = some (r, c)) :
    c.boxes.length ∈ t.heldSizes host := by
  obtain ⟨b', hb', hcopy⟩ := h
  have hvalue := Table.mem_values_of_get? hb'
  cases b with
  | ref q =>
    obtain ⟨c', hc, hq⟩ := Option.map_eq_some_iff.mp hb
    cases hq
    obtain ⟨r', f, rfl, hget⟩ := hcopy.exists_ref (Store.diagram?_eq_some.mp hc)
    have hsize : (t.asDiagram? (.ref r')).map (fun q => q.2.boxes.length) = some c.boxes.length := by
      have hcopied : t.diagram? r' = some (c.rename f) := Store.diagram?_eq_some.mpr hget
      simp [Store.asDiagram?, hcopied, Diagram.rename]
    unfold Store.heldSizes
    rw [hd]
    exact List.mem_filterMap.mpr ⟨_, hvalue, hsize⟩
  | _ => cases hb

theorem Store.HeldAt.mem_heldSizes {s t : Store} {b : Value} {d c : Diagram} {n : Nat} {host r : Ref}
    (h : s.HeldAt b t d n) (hd : t.diagram? host = some d) (hb : s.asDiagram? b = some (r, c)) :
    c.boxes.length ∈ t.heldSizes host := by
  obtain ⟨b', hb', hheld⟩ := h
  have hcopied : s.CopiedAt b t d n := by
    cases b with
    | ref q =>
      obtain ⟨c', hc, -⟩ := Option.map_eq_some_iff.mp hb
      rcases hheld.ref_cases with ⟨_, -, hcopy⟩ | ⟨_, -, hnone, -⟩ | hmissing
      · exact ⟨b', hb', hcopy⟩
      · rw [hc] at hnone
        cases hnone
      · rw [Store.diagram?_eq_some.mp hc] at hmissing
        cases hmissing
    | _ => cases hb
  exact hcopied.mem_heldSizes hd hb

section Differences
variable {s : Store} {host m p r : Ref} {d e k c : Diagram} {v u u' x : Nat} {b : Value}
  (h : NestsAlike s host m p d e k v u) (hu : (inserted d e).get? u = some u')

include h hu

theorem NestsAlike.middle_size (hb : e.boxes.get? x = some b) (hx : x ≠ u)
    (hc : s.asDiagram? b = some (r, c)) :
    c.boxes.length ∈ ((Action.substituteWithin host m p v u).perform s).2.heldSizes host ∧
      c.boxes.length ∈ ((Action.substituteTwice host v m u' p).perform s).2.heldSizes host := by
  obtain ⟨u₁, t, t', d₂, d₂', _, _, _, _, hu₁, hrun, hrun', hd₂, hd₂', -, -, -, -, -, he, -⟩ := h
  obtain rfl : u₁ = u' := Option.some.inj (hu₁.symm.trans hu)
  obtain ⟨n, -, -, hcopied, hheld⟩ := he x b hb hx
  rw [hrun, hrun']
  exact ⟨hcopied.mem_heldSizes hd₂ hc, hheld.mem_heldSizes hd₂' hc⟩

theorem NestsAlike.inner_size (hb : k.boxes.get? x = some b) (hc : s.asDiagram? b = some (r, c)) :
    c.boxes.length ∈ ((Action.substituteTwice host v m u' p).perform s).2.heldSizes host := by
  obtain ⟨u₁, t, t', d₂, d₂', _, _, _, _, hu₁, -, hrun', -, hd₂', -, -, -, -, -, -, hk, -⟩ := h
  obtain rfl : u₁ = u' := Option.some.inj (hu₁.symm.trans hu)
  obtain ⟨_, _, -, -, -, -, hheld⟩ := hk x b hb
  rw [hrun']
  exact hheld.mem_heldSizes hd₂' hc

theorem NestsAlike.portsUsed_subset :
    ((Action.substituteTwice host v m u' p).perform s).2.portsUsed host ⊆
      ((Action.substituteWithin host m p v u).perform s).2.portsUsed host := by
  obtain ⟨u₁, t, t', d₂, d₂', _, _, _, σ, hu₁, hrun, hrun', hd₂, hd₂', -, -, hσ, -⟩ := h
  obtain rfl : u₁ = u' := Option.some.inj (hu₁.symm.trans hu)
  intro q hq
  rw [hrun', Store.portsUsed, hd₂'] at hq
  obtain ⟨w, hw, rfl⟩ := List.mem_map.mp hq
  obtain ⟨z, hz, rfl⟩ := (hσ.wires w).mp hw
  rw [hrun, Store.portsUsed, hd₂]
  exact List.mem_map.mpr ⟨z, hz, (Connector.port_renumber σ z.source).symm⟩

end Differences

def Diagram.holding (boxes : List Value) : Diagram := (new [] []).withBoxes boxes

theorem Diagram.consistent_holding (boxes : List Value) : (holding boxes).Consistent :=
  (consistent_new [] []).withBoxes boxes

def Store.nesting (middle inner : Diagram) : Store :=
  ⟨[.diagram (holding [.named "f"]), .diagram middle, .diagram inner], []⟩

def NestingDiffers (middle inner : Diagram) : Prop :=
  Nestable (.nesting middle inner) 0 1 2 (holding [.named "f"]) middle inner 2 2 ∧
    ¬ NestsAlike (.nesting middle inner) 0 1 2 (holding [.named "f"]) middle inner 2 2

theorem nestable_nesting {middle inner : Diagram}
    (hs : ∀ o ∈ (Store.nesting middle inner).objects, ∀ r ∈ o.refs, r < 3)
    (hm : middle.Consistent) (hi : inner.Consistent) (hdm : middle.Directed) (hdi : inner.Directed)
    (hu : 2 ∈ middle.boxes.keys) : Nestable (.nesting middle inner) 0 1 2
      (holding [.named "f"]) middle inner 2 2 :=
  ⟨Store.closed_of_forall hs, rfl, rfl, rfl, by decide, by decide, consistent_holding _, hm, hi, hdm, hdi,
    by decide, hu⟩

def Diagram.selfWired : Diagram :=
  (holding [.named "f", .named "g"]).link 3 3 ⟨.output (.ofNat 3) (.ref 2), .input (.ofNat 3) (.ref 2)⟩

/-- They do not if the middle diagram holds the host, if the inner one does, if the middle one holds itself,
or if a port of it is copied along with it. -/
theorem nesting_differs :
    NestingDiffers (holding [.named "f", .ref 0]) (holding []) ∧
    NestingDiffers (holding [.named "f", .named "g"]) (holding [.ref 0]) ∧
    NestingDiffers (holding [.named "f", .ref 1]) (holding []) ∧
    NestingDiffers selfWired (holding []) := by
  have hdirected : ∀ boxes, (holding boxes).Directed := by
    intro boxes w hw
    rw [holding, (withBoxes_frame _ boxes).1] at hw
    cases hw
  refine ⟨⟨?_, fun h => ?_⟩, ⟨?_, fun h => ?_⟩, ⟨?_, fun h => ?_⟩, ⟨?_, fun h => ?_⟩⟩
  · exact nestable_nesting (by decide) (consistent_holding _) (consistent_holding _) (hdirected _)
      (hdirected _) (by decide)
  · have hsize := (h.middle_size (show _ = some 3 from rfl) (show _ = some (.ref 0) from rfl)
      (show 3 ≠ 2 by decide) rfl).2
    revert hsize
    decide +kernel
  · exact nestable_nesting (by decide) (consistent_holding _) (consistent_holding _) (hdirected _)
      (hdirected _) (by decide)
  · have hsize := h.inner_size (show _ = some 3 from rfl)
      (show Table.get? (holding [.ref 0]).boxes 2 = some (.ref 0) from rfl) rfl
    revert hsize
    decide +kernel
  · exact nestable_nesting (by decide) (consistent_holding _) (consistent_holding _) (hdirected _)
      (hdirected _) (by decide)
  · have hsize := (h.middle_size (show _ = some 3 from rfl) (show _ = some (.ref 1) from rfl)
      (show 3 ≠ 2 by decide) rfl).1
    revert hsize
    decide +kernel
  · have hc : selfWired.Consistent := by
      refine (consistent_holding _).link ?_ ?_ ?_ <;> decide
    have hdir : selfWired.Directed := by
      unfold Diagram.Directed
      decide
    exact nestable_nesting (by decide) hc (consistent_holding _) hdir (hdirected _) (by decide)
  · have hports := h.portsUsed_subset (show _ = some 3 from rfl)
    revert hports
    decide +kernel

end StringDiagram
