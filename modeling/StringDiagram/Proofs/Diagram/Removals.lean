import StringDiagram.Proofs.Diagram.Consistent

/-! # Boxes and wires that are removed

A box goes with the edges at both its sides, and an edge with its last wire. -/
namespace StringDiagram.Diagram

theorem keys_removeEdge (d : Diagram) (e : Nat × Nat) :
    (d.removeEdge e).edges.keys = d.edges.keys.filter fun e' => !decide (e' = e) :=
  Table.keys_remove ..

theorem targets_removeEdge (d : Diagram) (e : Nat × Nat) (v : Nat) :
    (d.removeEdge e).targets v =
      if e.1 = v then (d.targets v).filter (fun u => !decide (u = e.2)) else d.targets v := by
  rw [targets_eq, targets_eq, keys_removeEdge]
  exact beside_remove fun _ _ => Prod.ext

theorem sources_removeEdge (d : Diagram) (e : Nat × Nat) (v : Nat) :
    (d.removeEdge e).sources v =
      if e.2 = v then (d.sources v).filter (fun u => !decide (u = e.1)) else d.sources v := by
  rw [sources_eq, sources_eq, keys_removeEdge]
  exact beside_remove fun _ _ h h' => Prod.ext h' h

theorem Consistent.removeEdge {d : Diagram} (hd : d.Consistent) (e : Nat × Nat) :
    (d.removeEdge e).Consistent where
  succ_keys := (Table.keys_adjust d.succ e.1 (·.remove e.2)).trans hd.succ_keys
  pred_keys := (Table.keys_adjust d.pred e.2 (·.remove e.1)).trans hd.pred_keys
  ascending := hd.ascending
  below_next := hd.below_next
  edges_nodup := by
    rw [keys_removeEdge]
    exact hd.edges_nodup.filter _
  edge_live := by
    intro e' he
    rw [keys_removeEdge] at he
    exact hd.edge_live e' (List.mem_filter.mp he).1
  edge_nonempty := by
    intro e' ws h
    rw [Diagram.removeEdge, Table.get?_remove] at h
    split at h
    · cases h
    · exact hd.edge_nonempty e' ws h
  edge_wire := by
    intro e' w hw
    rw [wiresOn_removeEdge] at hw
    split at hw
    · cases hw
    · exact hd.edge_wire e' w hw
  out := hd.out.remove (targets_removeEdge d e)
  into := hd.into.remove (sources_removeEdge d e)

def withEdge (d : Diagram) (e : Nat × Nat) (ws : List Wire) : Diagram :=
  { d with edges := d.edges.put e ws }

theorem wiresOn_withEdge (d : Diagram) (e e' : Nat × Nat) (ws : List Wire) :
    (d.withEdge e ws).wiresOn e' = if e = e' then ws else d.wiresOn e' := by
  simp only [withEdge, wiresOn, Table.get?_put]
  split <;> rfl

/-- Fewer wires on an edge that keeps some. -/
theorem Consistent.withEdge {d : Diagram} (hd : d.Consistent) {e : Nat × Nat} {ws : List Wire}
    (he : e ∈ d.edges.keys) (hne : ws ≠ []) (hsub : ∀ w ∈ ws, w ∈ d.wiresOn e) :
    (d.withEdge e ws).Consistent := by
  have hk : (d.withEdge e ws).edges.keys = d.edges.keys := Table.keys_put_of_mem he ws
  refine ⟨hd.succ_keys, hd.pred_keys, hd.ascending, hd.below_next, hk ▸ hd.edges_nodup,
    hk ▸ hd.edge_live, ?_, ?_, ?_, ?_⟩
  · intro e' ws' h
    simp only [Diagram.withEdge, Table.get?_put] at h
    split at h
    · cases h
      exact hne
    · exact hd.edge_nonempty e' ws' h
  · intro e' w hw
    rw [wiresOn_withEdge] at hw
    split at hw
    · next hee => exact hee ▸ hd.edge_wire e w (hsub w hw)
    · exact hd.edge_wire e' w hw
  · have ht : (d.withEdge e ws).targets = d.targets := by
      funext v
      rw [targets, hk, targets]
    exact ht ▸ hd.out
  · have hs : (d.withEdge e ws).sources = d.sources := by
      funext v
      rw [sources, hk, sources]
    exact hs ▸ hd.into

theorem removeWire_cases {d d' : Diagram} {w : Wire} (h : d.removeWire w = .ok d') :
    ∃ e ∈ d.edges.keys, d' = d.removeEdge e ∨
      ∃ ws, ws ≠ [] ∧ (∀ x ∈ ws, x ∈ d.wiresOn e) ∧ d' = d.withEdge e ws := by
  obtain ⟨edge, -, h⟩ := bind_eq_ok.mp h
  cases edge with
  | none => cases h
  | some e =>
    dsimp only at h
    split at h
    · next hany =>
      obtain ⟨x, hx, -⟩ := List.any_eq_true.mp hany
      have hmem : e ∈ d.edges.keys := by
        rw [← Table.get?_isSome]
        cases hg : d.edges.get? e with
        | some ws => rfl
        | none => simp [wiresOn, hg] at hx
      split at h
      · cases h
        exact ⟨e, hmem, Or.inl rfl⟩
      · next hrest =>
        cases h
        exact ⟨e, hmem, Or.inr ⟨_, hrest, fun y hy => List.mem_of_mem_eraseP hy, rfl⟩⟩
    · cases h

theorem Consistent.removeWire {d d' : Diagram} (hd : d.Consistent) {w : Wire}
    (h : d.removeWire w = .ok d') : d'.Consistent := by
  obtain ⟨e, he, rfl | ⟨ws, hne, hsub, rfl⟩⟩ := removeWire_cases h
  · exact hd.removeEdge e
  · exact hd.withEdge he hne hsub

theorem removeWires_cases {d d' : Diagram} {src tgt : Value} (h : d.removeWires src tgt = .ok d') :
    ∃ e, d' = d.removeEdge e := by
  obtain ⟨edge, -, h⟩ := bind_eq_ok.mp h
  cases edge with
  | none => cases h
  | some e =>
    dsimp only at h
    split at h
    · cases h
      exact ⟨e, rfl⟩
    · cases h

theorem removeBox_cases {d d' : Diagram} {v box : Value} (h : d.removeBox v = .ok (box, d')) :
    ∃ n, v.boxId? = some n ∧ d.boxes.get? n = some box ∧
      d' = d.unlink n ((d.succ.get? n).getD []).keys ((d.pred.get? n).getD []).keys := by
  rw [removeBox] at h
  split at h
  · cases h
  · obtain ⟨⟨n, b⟩, hr, h⟩ := bind_eq_ok.mp h
    obtain ⟨hv, hb⟩ := Table.resolve_eq_ok.mp hr
    cases h
    exact ⟨n, hv, hb, rfl⟩

section Unlink
variable {d : Diagram} {v : Nat}

/-- The diagram without box `v` and its wires. In a consistent diagram the neighbours of `v` need not
be named. -/
def without (d : Diagram) (v : Nat) : Diagram := d.unlink v (d.targets v) (d.sources v)

theorem live_without (hd : d.Consistent) (hv : v ∈ d.boxes.keys) :
    (d.without v).live = d.live.filter fun u => !decide (u = v) := by
  simp [live, without, unlink, (hd.ne_input hv).symm, (hd.ne_output hv).symm]

theorem edges_without (d : Diagram) (v : Nat) :
    (d.without v).edges = d.edges.filter fun e => !decide (e.1.1 = v) && !decide (e.1.2 = v) := by
  apply List.filter_congr
  intro e he
  have hk : e.1 ∈ d.edges.keys := List.mem_map.mpr ⟨e, he, rfl⟩
  by_cases h1 : e.1.1 = v
  · have ht : e.1.2 ∈ d.targets v := mem_targets.mpr (h1 ▸ hk)
    simp [h1, ht]
  · by_cases h2 : e.1.2 = v
    · have hs : e.1.1 ∈ d.sources v := mem_sources.mpr (h2 ▸ hk)
      simp [h1, h2, hs]
    · simp [h1, h2]

theorem edges_keys_without (d : Diagram) (v : Nat) :
    (d.without v).edges.keys = d.edges.keys.filter fun e => !decide (e.1 = v) && !decide (e.2 = v) := by
  rw [edges_without, Table.keys, Table.keys, List.filter_map]
  rfl

theorem mem_edges_without {e : Nat × Nat} :
    e ∈ (d.without v).edges.keys ↔ e ∈ d.edges.keys ∧ e.1 ≠ v ∧ e.2 ≠ v := by
  simp [edges_keys_without]

theorem targets_without {u : Nat} (hu : u ≠ v) :
    (d.without v).targets u = (d.targets u).filter fun x => !decide (x = v) :=
  beside_apart (edges_keys_without d v) hu

theorem sources_without {u : Nat} (hu : u ≠ v) :
    (d.without v).sources u = (d.sources u).filter fun x => !decide (x = v) := by
  refine beside_apart ?_ hu
  rw [edges_keys_without]
  apply List.filter_congr
  intro e _
  exact Bool.and_comm _ _

theorem get?_edges_without {e : Nat × Nat} (h1 : e.1 ≠ v) (h2 : e.2 ≠ v) :
    (d.without v).edges.get? e = d.edges.get? e := by
  rw [edges_without]
  induction d.edges with
  | nil => rfl
  | cons x t ih =>
    by_cases hx : x.1 = e
    · simp [hx, h1, h2, Table.get?_cons]
    · rw [List.filter_cons]
      split <;> simp [Table.get?_cons, hx, ih]

theorem Consistent.without (hd : d.Consistent) (hv : v ∈ d.boxes.keys) : (d.without v).Consistent where
  succ_keys := by
    rw [live_without hd hv, ← hd.succ_keys]
    exact (keys_foldl_remove ..).trans (Table.keys_remove ..)
  pred_keys := by
    rw [live_without hd hv, ← hd.pred_keys]
    exact (keys_foldl_remove ..).trans (Table.keys_remove ..)
  ascending := by
    rw [live_without hd hv]
    exact hd.ascending.filter _
  below_next := by
    intro u hu
    rw [live_without hd hv] at hu
    exact hd.below_next u (List.mem_filter.mp hu).1
  edges_nodup := by
    rw [edges_keys_without]
    exact hd.edges_nodup.filter _
  edge_live := by
    intro e he
    obtain ⟨he, h1, h2⟩ := mem_edges_without.mp he
    have hl := hd.edge_live e he
    simp [live_without hd hv, hl.1, hl.2, h1, h2]
  edge_nonempty := by
    intro e ws h
    obtain ⟨-, h1, h2⟩ := mem_edges_without.mp (Table.mem_keys_of_get? h)
    rw [get?_edges_without h1 h2] at h
    exact hd.edge_nonempty e ws h
  edge_wire := by
    intro e w hw
    cases h : (d.without v).edges.get? e with
    | none => simp [wiresOn, h] at hw
    | some ws =>
      obtain ⟨-, h1, h2⟩ := mem_edges_without.mp (Table.mem_keys_of_get? h)
      rw [wiresOn, get?_edges_without h1 h2] at hw
      exact hd.edge_wire e w hw
  out := by
    apply hd.out.unlink
    · intro u hu
      exact mem_sources.mpr (mem_targets.mp hu)
    · intro u hu
      exact targets_without hu
  into := by
    apply hd.into.unlink
    · intro u hu
      exact mem_targets.mpr (mem_sources.mp hu)
    · intro u hu
      exact sources_without hu

end Unlink

theorem isBoundary_eq {v : Value} {n : Nat} (h : v.boxId? = some n) :
    isBoundary v = (decide (n = inputId) || decide (n = outputId)) := by
  simp [isBoundary, isInput, isOutput, Value.same_ofNat, h]

theorem Consistent.removeBox_eq_ok {d d' : Diagram} (hd : d.Consistent) {v box : Value} :
    d.removeBox v = .ok (box, d') ↔
      ∃ n, v.boxId? = some n ∧ d.boxes.get? n = some box ∧ d' = d.without n := by
  have hkeys : ∀ n, n ∈ d.boxes.keys →
      ((d.succ.get? n).getD []).keys = d.targets n ∧ ((d.pred.get? n).getD []).keys = d.sources n := by
    intro n hn
    obtain ⟨out, ho, hok⟩ := hd.exists_out (Consistent.box_live hn)
    obtain ⟨into, hi, hik⟩ := hd.exists_into (Consistent.box_live hn)
    simp [ho, hok, hi, hik]
  constructor
  · intro h
    obtain ⟨n, hv, hb, rfl⟩ := removeBox_cases h
    obtain ⟨ho, hi⟩ := hkeys n (Table.mem_keys_of_get? hb)
    exact ⟨n, hv, hb, by rw [ho, hi, Diagram.without]⟩
  · rintro ⟨n, hv, hb, rfl⟩
    have hn := Table.mem_keys_of_get? hb
    have hnb : isBoundary v = false := by simp [isBoundary_eq hv, hd.ne_input hn, hd.ne_output hn]
    obtain ⟨ho, hi⟩ := hkeys n hn
    rw [Diagram.removeBox, hnb, Table.resolve_eq_ok.mpr ⟨hv, hb⟩]
    simp [bind, Except.bind, pure, Except.pure, ho, hi, Diagram.without]

theorem Consistent.removeBox {d d' : Diagram} (hd : d.Consistent) {v box : Value}
    (h : d.removeBox v = .ok (box, d')) : d'.Consistent := by
  obtain ⟨n, -, hb, rfl⟩ := hd.removeBox_eq_ok.mp h
  exact hd.without (Table.mem_keys_of_get? hb)

end StringDiagram.Diagram
