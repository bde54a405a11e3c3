import StringDiagram.Proofs.Diagram.Consistent

/-! # Boxes and wires that are added -/
namespace StringDiagram.Diagram

theorem live_addBox (d : Diagram) (box : Value) : (d.addBox box).live = d.live ++ [d.next] := by
  simp [live, addBox]

theorem Consistent.addBox {d : Diagram} (hd : d.Consistent) (box : Value) :
    (d.addBox box).Consistent where
  succ_keys := by rw [live_addBox, ← hd.succ_keys]; simp [Diagram.addBox]
  pred_keys := by rw [live_addBox, ← hd.pred_keys]; simp [Diagram.addBox]
  ascending := by
    rw [live_addBox]
    exact List.pairwise_append.mpr ⟨hd.ascending, by simp, by simpa using hd.below_next⟩
  below_next := by
    intro v hv
    rw [live_addBox] at hv
    rcases List.mem_append.mp hv with hv | hv
    · exact Nat.lt_succ_of_lt (hd.below_next v hv)
    · rw [List.mem_singleton.mp hv]
      exact Nat.lt_succ_self _
  edges_nodup := hd.edges_nodup
  edge_live := by
    intro e he
    have h := hd.edge_live e he
    simp [live_addBox, h.1, h.2]
  edge_nonempty := hd.edge_nonempty
  edge_wire := hd.edge_wire
  out := hd.out.append (hd.targets_eq_nil hd.next_not_live)
  into := hd.into.append (hd.sources_eq_nil hd.next_not_live)

theorem keys_link (d : Diagram) (s t : Nat) (w : Wire) : (d.link s t w).edges.keys =
    if (s, t) ∈ d.edges.keys then d.edges.keys else d.edges.keys ++ [(s, t)] := by
  split
  · next he => exact Table.keys_put_of_mem he _
  · next he => exact Table.keys_put_of_not_mem he _

theorem targets_link (d : Diagram) (s t : Nat) (w : Wire) (v : Nat) :
    (d.link s t w).targets v =
      if s = v then (if t ∈ d.targets v then d.targets v else d.targets v ++ [t]) else d.targets v := by
  rw [targets_eq, targets_eq, keys_link]
  exact beside_insert fun _ _ => Prod.ext

theorem sources_link (d : Diagram) (s t : Nat) (w : Wire) (v : Nat) :
    (d.link s t w).sources v =
      if t = v then (if s ∈ d.sources v then d.sources v else d.sources v ++ [s]) else d.sources v := by
  rw [sources_eq, sources_eq, keys_link]
  exact beside_insert fun _ _ h h' => Prod.ext h' h

@[simp] theorem live_link (d : Diagram) (s t : Nat) (w : Wire) : (d.link s t w).live = d.live := rfl

theorem mem_edges_link {d : Diagram} {s t : Nat} {w : Wire} {e : Nat × Nat} :
    e ∈ (d.link s t w).edges.keys ↔ e ∈ d.edges.keys ∨ e = (s, t) := by
  rw [keys_link]
  split
  · next he =>
    refine ⟨Or.inl, ?_⟩
    rintro (h | rfl)
    · exact h
    · exact he
  · rw [List.mem_append, List.mem_singleton]

theorem Consistent.link {d : Diagram} (hd : d.Consistent) {s t : Nat} {w : Wire}
    (hs : s ∈ d.live) (ht : t ∈ d.live)
    (hw : w.source.box.boxId? = some s ∧ w.target.box.boxId? = some t) : (d.link s t w).Consistent where
  succ_keys := (Table.keys_adjust d.succ s (·.putNew t w.target.box)).trans hd.succ_keys
  pred_keys := (Table.keys_adjust d.pred t (·.putNew s w.source.box)).trans hd.pred_keys
  ascending := hd.ascending
  below_next := hd.below_next
  edges_nodup := by
    rw [keys_link]
    split
    · exact hd.edges_nodup
    · next he =>
      rw [List.nodup_append]
      refine ⟨hd.edges_nodup, by simp, ?_⟩
      intro e h e' h' heq
      exact he (List.mem_singleton.mp h' ▸ heq ▸ h)
  edge_live := by
    intro e he
    rcases mem_edges_link.mp he with he | rfl
    · exact hd.edge_live e he
    · exact ⟨hs, ht⟩
  edge_nonempty := by
    intro e ws h
    simp only [Diagram.link, Table.get?_put] at h
    split at h
    · cases h
      simp
    · exact hd.edge_nonempty e ws h
  edge_wire := by
    intro e x hx
    rw [wiresOn_link] at hx
    split at hx
    · next he =>
      rcases List.mem_append.mp hx with hx | hx
      · exact hd.edge_wire e x hx
      · rw [List.mem_singleton.mp hx, ← he]
        exact hw
    · exact hd.edge_wire e x hx
  out := hd.out.putNew (targets_link d s t w)
  into := hd.into.putNew (sources_link d s t w)

theorem addWire_eq_ok {d d' : Diagram} {w : Wire} : d.addWire w = .ok d' ↔
    ∃ s t, w.source.box.boxId? = some s ∧ w.target.box.boxId? = some t ∧
      (d.succ.get? s).isSome = true ∧ (d.pred.get? t).isSome = true ∧ d' = d.link s t w := by
  simp only [addWire]
  constructor
  · intro h
    obtain ⟨⟨s, out⟩, hs, h⟩ := bind_eq_ok.mp h
    obtain ⟨⟨t, into⟩, ht, h⟩ := bind_eq_ok.mp h
    have hs := Table.resolve_eq_ok.mp hs
    have ht := Table.resolve_eq_ok.mp ht
    exact ⟨s, t, hs.1, ht.1, by simp [hs.2], by simp [ht.2], (Except.ok.inj h).symm⟩
  · rintro ⟨s, t, hs, ht, hout, hinto, rfl⟩
    obtain ⟨out, hout⟩ := Option.isSome_iff_exists.mp hout
    obtain ⟨into, hinto⟩ := Option.isSome_iff_exists.mp hinto
    rw [Table.resolve_eq_ok.mpr ⟨hs, hout⟩, Table.resolve_eq_ok.mpr ⟨ht, hinto⟩]
    rfl

theorem Consistent.addWire {d d' : Diagram} (hd : d.Consistent) {w : Wire}
    (h : d.addWire w = .ok d') : d'.Consistent := by
  obtain ⟨s, t, hs, ht, hout, hinto, rfl⟩ := addWire_eq_ok.mp h
  refine hd.link ?_ ?_ ⟨hs, ht⟩
  · exact hd.succ_keys ▸ Table.get?_isSome.mp hout
  · exact hd.pred_keys ▸ Table.get?_isSome.mp hinto

theorem Consistent.extend {d : Diagram} (hd : d.Consistent) (ws : List Wire) :
    (d.extend ws).1.Consistent := by
  induction ws generalizing d with
  | nil => exact hd
  | cons w ws ih =>
    rw [Diagram.extend]
    cases h : d.addWire w with
    | ok d' => exact ih (hd.addWire h)
    | error e => exact hd

theorem Consistent.splice {d : Diagram} (hd : d.Consistent) (v : Nat) (ids : IdMap) (ws : List Wire) :
    (d.splice v ids ws).1.Consistent := by
  induction ws generalizing d with
  | nil => exact hd
  | cons w ws ih =>
    rw [Diagram.splice]
    cases d.splicedWires v ids w with
    | error e => exact hd
    | ok new =>
      have hn := hd.extend new
      rcases h : d.extend new with ⟨d', _ | e⟩
      · rw [h] at hn
        simpa only [h] using ih hn
      · rw [h] at hn
        simpa only [h] using hn

end StringDiagram.Diagram
