import StringDiagram.Proofs.Category.Joined
import StringDiagram.Proofs.Store.Matched

/-! # Diagrams that correspond

Two diagrams correspond if a bijection of the identifiers of their boxes turns the wires of the one into
those of the other. Their blueprints are then alike, and the converse holds if the boundary is left and
entered as it should: `Corresponds.like` and `corresponds_of_like`. -/
namespace StringDiagram
open Diagram

/-- The rows are the same, and `σ` turns the boxes and the wires of `d` into those of `e`, as often as they
are there. Diagrams that boxes hold may be copies. -/
structure Store.Corresponds (s : Store) (σ : Nat → Nat) (d e : Diagram) : Prop where
  inputs : (Value.row d.inputs).same (.row e.inputs) = true
  outputs : (Value.row d.outputs).same (.row e.outputs) = true
  boundary : σ inputId = inputId ∧ σ outputId = outputId
  boxes : Set.BijOn σ {n | n ∈ d.boxes.keys} {n | n ∈ e.boxes.keys}
  held : ∀ n b, d.boxes.get? n = some b → ∃ b', e.boxes.get? (σ n) = some b' ∧ s.Matched b s b'
  wires : (e.wires.map Wire.norm).Perm (d.wires.map fun w => (w.renumber σ).norm)

section Places
variable {ks : List Nat} {n i : Nat}

def keyAt (ks : List Nat) (i : Nat) : Nat := ks.getD i 0

theorem keyAt_of_getElem? (h : ks[i]? = some n) : keyAt ks i = n := by
  rw [keyAt, List.getD_eq_getElem?_getD, h]
  rfl

theorem getElem?_keyAt (h : i < ks.length) : ks[i]? = some (keyAt ks i) := by
  rw [keyAt, List.getD_eq_getElem?_getD, List.getElem?_eq_getElem h]
  rfl

theorem keyAt_mem (hi : i < ks.length) : keyAt ks i ∈ ks := List.mem_of_getElem? (getElem?_keyAt hi)

theorem invOn_idxOf (hks : ks.Nodup) :
    Set.InvOn (keyAt ks) ks.idxOf {n | n ∈ ks} {i | i < ks.length} :=
  ⟨fun _ hn => keyAt_of_getElem? (List.getElem?_idxOf hn),
    fun _ hi => idxOf_of_getElem? hks (getElem?_keyAt hi)⟩

theorem bijOn_idxOf (hks : ks.Nodup) : Set.BijOn ks.idxOf {n | n ∈ ks} {i | i < ks.length} :=
  (invOn_idxOf hks).bijOn (fun _ hn => List.idxOf_lt_length_of_mem hn) fun _ hi => keyAt_mem hi

theorem bijOn_keyAt (hks : ks.Nodup) : Set.BijOn (keyAt ks) {i | i < ks.length} {n | n ∈ ks} :=
  (invOn_idxOf hks).symm.bijOn (fun _ hi => keyAt_mem hi) fun _ hn => List.idxOf_lt_length_of_mem hn

end Places

def Tip.connector (ks : List Nat) (b : Nat) (k : Side) : Tip → Connector
  | .port p => ⟨.ofNat b, .side k, .ofNat (p.getD 0)⟩
  | .pin i kind p => ⟨.ofNat (keyAt ks i), kind, p⟩

def Tip.wire (ks : List Nat) (a : Tip × Tip) : Wire :=
  ⟨a.1.connector ks inputId .output, a.2.connector ks outputId .input⟩

theorem Connector.tip_norm (c : Connector) : c.norm.tip = c.tip := by
  simp only [tip, norm, Value.boxId?_norm, Value.norm_norm]

theorem Wire.tips_norm (w : Wire) : w.norm.tips = w.tips := by
  rw [tips, norm, Connector.tip_norm, Connector.tip_norm, tips]

namespace Diagram
variable {d e : Diagram} {σ τ : Nat → Nat} {c : Connector} {b : Nat}

def carry (τ : Nat → Nat) (d e : Diagram) (n : Nat) : Nat :=
  if n ≤ outputId then n else keyAt e.boxes.keys (τ (d.boxes.keys.idxOf n))

theorem carry_box (hd : d.Consistent) {n : Nat} (hn : n ∈ d.boxes.keys) :
    carry τ d e n = keyAt e.boxes.keys (τ (d.boxes.keys.idxOf n)) := by
  have h2 := hd.two_le hn
  exact if_neg (by rw [outputId]; omega)

theorem carry_id (hd : d.Consistent) {n : Nat} (hn : n ∈ d.live) : carry id d d n = n := by
  rcases mem_live.mp hn with rfl | rfl | hn
  · rfl
  · rfl
  · rw [carry_box hd hn]
    exact keyAt_of_getElem? (List.getElem?_idxOf hn)

/-- If places are kept, the boxes are in the same order. -/
theorem map_carry_id (hd : d.Consistent)
    (h : d.blueprint.parts.length = e.blueprint.parts.length) :
    d.boxes.keys.map (carry id d e) = e.boxes.keys := by
  have hlen : d.boxes.keys.length = e.boxes.keys.length := by simpa [blueprint, Table.values] using h
  refine List.ext_getElem (by rw [List.length_map, hlen]) fun i hi hi' => ?_
  have hid : i < d.boxes.keys.length := hlen ▸ hi'
  rw [List.getElem_map, carry_box hd (List.getElem_mem hid), hd.boxes_nodup.idxOf_getElem i hid]
  exact keyAt_of_getElem? (List.getElem?_eq_getElem hi')

theorem renumber_carry_id (hd : d.Consistent) {w : Wire} (hw : w ∈ d.wires) :
    w.renumber (carry id d d) = w := by
  have hfix : ∀ c : Connector, d.Has c → c.renumber (carry id d d) = c := by
    rintro c ⟨n, hn, hc⟩
    exact Connector.renumber_eq_self hc (carry_id hd hn)
  obtain ⟨hs, ht⟩ := hd.has_ends hw
  rw [Wire.renumber, hfix _ hs, hfix _ ht]

theorem bijOn_carry (hd : d.Consistent) (he : e.Consistent)
    (hτ : Set.BijOn τ {i | i < d.boxes.length} {i | i < e.boxes.length}) :
    Set.BijOn (carry τ d e) {n | n ∈ d.boxes.keys} {n | n ∈ e.boxes.keys} := by
  rw [← Table.length_keys, ← Table.length_keys] at hτ
  refine ((bijOn_keyAt he.boxes_nodup).comp (hτ.comp (bijOn_idxOf hd.boxes_nodup))).congr fun n hn => ?_
  exact (carry_box hd hn).symm

theorem renumber_boundary (hb : b = inputId ∨ b = outputId) (hσ : σ inputId = inputId ∧ σ outputId = outputId)
    (hc : c.isOn b = true) : c.renumber σ = c := by
  refine Connector.renumber_eq_self (Connector.isOn_iff.mp hc) ?_
  rcases hb with rfl | rfl
  · exact hσ.1
  · exact hσ.2

theorem OnBox.renumber (hd : d.Consistent) {i : Nat} (hc : d.OnBox i c) (σ : Nat → Nat) :
    c.renumber σ = c.withBox (.ofNat (σ (keyAt d.boxes.keys i))) := by
  obtain ⟨u, hu, hbox⟩ := hc
  have hself : c.withBox (.ofNat u) = c := by
    rw [Connector.withBox, ← Value.eq_ofNat_of_boxId? hbox (hd.two_le (List.mem_of_getElem? hu))]
  rw [keyAt_of_getElem? hu, ← Connector.renumber_withBox, hself]

theorem OnBox.tip (hd : d.Consistent) {i : Nat} (hc : d.OnBox i c) :
    (c.tip.move fun n => d.boxes.keys.idxOf n) = .pin i c.kind.norm c.port.norm := by
  obtain ⟨u, hu, hbox⟩ := hc
  rw [Connector.tip_box hbox (hd.two_le (List.mem_of_getElem? hu)), Tip.move,
    idxOf_of_getElem? hd.boxes_nodup hu]

/-- Where the connector is when the boxes have other identifiers. -/
theorem Inside.tip_renumber (hd : d.Consistent) (he : e.Consistent) (hb : b = inputId ∨ b = outputId)
    (hσ : σ inputId = inputId ∧ σ outputId = outputId) (hk : ∀ n ∈ d.boxes.keys, σ n ∈ e.boxes.keys)
    (hc : d.Inside b c) : ((c.renumber σ).tip.move fun n => e.boxes.keys.idxOf n) =
      (c.tip.move fun n => d.boxes.keys.idxOf n).move
        fun i => e.boxes.keys.idxOf (σ (keyAt d.boxes.keys i)) := by
  rcases hc with hon | ⟨i, hi⟩
  · rw [renumber_boundary hb hσ hon, tip_boundary hb hon]
    rfl
  · have hi' := hi
    obtain ⟨u, hu, -⟩ := hi'
    rw [hi.tip hd, hi.renumber hd, keyAt_of_getElem? hu,
      Connector.tip_withBox (he.two_le (hk u (List.mem_of_getElem? hu))), Tip.move, Tip.move,
      keyAt_of_getElem? hu]

/-- The connector is found again from its place. -/
theorem Inside.connector (hd : d.Consistent) (hb : b = inputId ∨ b = outputId) {k : Side} {m : Nat}
    (τ : Nat → Nat) (e : Diagram) (hc : d.Inside b c)
    (ho : c.isOn b = true → c.kind = .side k ∧ ∃ i < m, c.port.boxId? = some i) :
    ((c.tip.move fun n => d.boxes.keys.idxOf n).move τ).connector e.boxes.keys b k =
      (c.renumber (carry τ d e)).norm := by
  rcases hc with hon | ⟨i, hi⟩
  · obtain ⟨hk, j, -, hj⟩ := ho hon
    rw [renumber_boundary hb ⟨rfl, rfl⟩ hon, tip_boundary hb hon, hj, Connector.norm, hk,
      Value.norm_of_boxId? (Connector.isOn_iff.mp hon), Value.norm_of_boxId? hj]
    rfl
  · have hi' := hi
    obtain ⟨u, hu, -⟩ := hi'
    rw [hi.tip hd, hi.renumber hd, keyAt_of_getElem? hu, carry_box hd (List.mem_of_getElem? hu),
      idxOf_of_getElem? hd.boxes_nodup hu]
    rfl

/-- The wires are found again from the plan. -/
theorem wires_of_plan (hd : d.Consistent) (hdir : d.Directed) (ho : d.Outward) (τ : Nat → Nat) (e : Diagram) :
    (d.plan.move τ).map (Tip.wire e.boxes.keys) =
      (d.wires : Multiset Wire).map fun w => (w.renumber (carry τ d e)).norm := by
  rw [plan, tips, Plan.move, Plan.move, Multiset.map_map, Multiset.map_map, Multiset.map_map]
  refine Multiset.map_congr rfl fun w hw => ?_
  have hw := Multiset.mem_coe.mp hw
  obtain ⟨hs, ht⟩ := inside_ends hd hdir hw
  have hsource := hs.connector hd (Or.inl rfl) τ e (ho w hw).1
  have htarget := ht.connector hd (Or.inr rfl) τ e (ho w hw).2
  simp only [Function.comp_apply, Wire.tips, Tip.wire, Prod.map_apply, hsource, htarget]
  rfl

theorem map_wire_plan (hd : d.Consistent) (hdir : d.Directed) (ho : d.Outward) :
    d.plan.map (Tip.wire d.boxes.keys) = (d.wires : Multiset Wire).map Wire.norm := by
  rw [← Plan.move_id d.plan, wires_of_plan hd hdir ho]
  exact Multiset.map_congr rfl fun w hw => by rw [renumber_carry_id hd (Multiset.mem_coe.mp hw)]

end Diagram

theorem Table.getElem?_of_get? {t : Table Nat Value} (ht : t.keys.Nodup) {n : Nat} {b : Value}
    (h : t.get? n = some b) : t.values[t.keys.idxOf n]? = some b :=
  Table.value_of_getElem? (Table.getElem?_of_key ht (List.getElem?_idxOf (Table.mem_keys_of_get? h)) h)

theorem Table.get?_of_getElem? {t : Table Nat Value} (ht : t.keys.Nodup) {i : Nat} {b : Value}
    (h : t.values[i]? = some b) : t.get? (keyAt t.keys i) = some b := by
  obtain ⟨⟨n, b'⟩, he, rfl⟩ := Option.map_eq_some_iff.mp ((List.getElem?_map ..).symm.trans h)
  rw [keyAt_of_getElem? (Table.key_of_getElem? he)]
  exact Table.get?_of_mem ht (List.mem_of_getElem? he)

section Likeness
variable {s : Store} {d e : Diagram} {σ τ : Nat → Nat}

theorem corresponds_of_like (hd : d.Consistent) (he : e.Consistent) (hdir : d.Directed) (hedir : e.Directed)
    (hdo : d.Outward) (heo : e.Outward)
    (h : Blueprint.Like (fun b b' => s.Matched b s b') τ d.blueprint e.blueprint) :
    s.Corresponds (carry τ d e) d e where
  inputs := h.inputs
  outputs := h.outputs
  boundary := ⟨rfl, rfl⟩
  boxes := by
    refine bijOn_carry hd he ?_
    simpa [blueprint, Table.values] using h.places
  held := by
    intro n b hb
    obtain ⟨b', hb', hm⟩ := h.parts _ b (Table.getElem?_of_get? hd.boxes_nodup hb)
    refine ⟨b', ?_, hm⟩
    rw [carry_box hd (Table.mem_keys_of_get? hb)]
    exact Table.get?_of_getElem? he.boxes_nodup hb'
  wires := by
    have hplan : e.plan = d.plan.move τ := h.plan
    rw [← Multiset.coe_eq_coe, ← Multiset.map_coe, ← Multiset.map_coe, ← wires_of_plan hd hdir hdo, ← hplan,
      map_wire_plan he hedir heo]

theorem Store.Corresponds.refl (h : ∀ b ∈ d.boxes.values, s.Rooted b) : s.Corresponds id d d where
  inputs := Value.same_refl _
  outputs := Value.same_refl _
  boundary := ⟨rfl, rfl⟩
  boxes := Set.bijOn_id _
  held := fun _ b hb => ⟨b, hb, .of_grows (.refl s) (h b (Table.mem_values_of_get? hb))⟩
  wires := by
    have hfix : ∀ c : Connector, c.renumber id = c := by
      intro c
      unfold Connector.renumber
      split <;> simp
    simp only [Wire.renumber, hfix]
    exact .refl _

theorem Store.Corresponds.plan_eq (h : s.Corresponds σ d e) (hd : d.Consistent) (he : e.Consistent)
    (hdir : d.Directed) :
    e.plan = d.plan.move fun i => e.boxes.keys.idxOf (σ (keyAt d.boxes.keys i)) := by
  have htips : e.tips = (d.wires : Multiset Wire).map fun w => (w.renumber σ).tips := by
    calc e.tips = ((e.wires.map Wire.norm : List Wire) : Multiset Wire).map Wire.tips := by
          simp only [tips, Multiset.map_coe, List.map_map, Function.comp_def, Wire.tips_norm]
      _ = ((d.wires.map fun w => (w.renumber σ).norm : List Wire) : Multiset Wire).map Wire.tips := by
          rw [Multiset.coe_eq_coe.mpr h.wires]
      _ = (d.wires : Multiset Wire).map fun w => (w.renumber σ).tips := by
          simp only [Multiset.map_coe, List.map_map, Function.comp_def, Wire.tips_norm]
  rw [plan, htips, plan, tips, Plan.move, Plan.move, Plan.move, Multiset.map_map, Multiset.map_map,
    Multiset.map_map]
  refine Multiset.map_congr rfl fun w hw => ?_
  obtain ⟨hs, ht⟩ := inside_ends hd hdir (Multiset.mem_coe.mp hw)
  simp only [Function.comp_apply, Wire.tips, Wire.renumber, Prod.map_apply,
    hs.tip_renumber hd he (Or.inl rfl) h.boundary fun n hn => h.boxes.mapsTo hn,
    ht.tip_renumber hd he (Or.inr rfl) h.boundary fun n hn => h.boxes.mapsTo hn]

theorem Store.Corresponds.like (h : s.Corresponds σ d e) (hd : d.Consistent) (he : e.Consistent)
    (hdir : d.Directed) : Blueprint.Like (fun b b' => s.Matched b s b')
      (fun i => e.boxes.keys.idxOf (σ (keyAt d.boxes.keys i))) d.blueprint e.blueprint where
  inputs := h.inputs
  outputs := h.outputs
  places := by
    have hplaces := (bijOn_idxOf he.boxes_nodup).comp (h.boxes.comp (bijOn_keyAt hd.boxes_nodup))
    simpa [blueprint, Table.values, Function.comp_def] using hplaces
  parts := by
    intro i b hb
    obtain ⟨b', hb', hm⟩ := h.held _ b (Table.get?_of_getElem? hd.boxes_nodup hb)
    exact ⟨b', Table.getElem?_of_get? he.boxes_nodup hb', hm⟩
  plan := h.plan_eq hd he hdir

end Likeness

end StringDiagram
