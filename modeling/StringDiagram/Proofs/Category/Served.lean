import StringDiagram.Proofs.Category.Graft

/-! # Boxes that are served by their ports

A box is served if no wire leads from it to itself and all its wires are at its first inputs and outputs. The
plan with a single box is then a unit: in the place of the box it leaves everything as it was,
`Served.graft_single`. In the scaffolds of both operations each box is served by the ports that the operation
counts, the second also after the first was replaced. -/
namespace StringDiagram
open Network

namespace Plan
variable {v w m n k m' n' : Nat} {side : Side} {φ : Nat → Nat} {P Q : Plan}

def single (v m n : Nat) : Plan :=
  (wiring id m).map (Prod.map id (Tip.outward v .input)) + (wiring id n).map (Prod.map (Tip.outward v .output) id)

/-- The wires at box `v` are at its first `m` inputs and its first `n` outputs, and none of them is a loop. -/
structure Served (v m n : Nat) (P : Plan) : Prop where
  loopless : Loopless v P
  inputs : ∀ a ∈ P, a.2.isAt v = true → ∃ i < m, a.2 = .pin v (.side .input) (.ofNat i)
  outputs : ∀ a ∈ P, a.1.isAt v = true → ∃ i < n, a.1 = .pin v (.side .output) (.ofNat i)

theorem move_single (τ : Nat → Nat) (v m n : Nat) : (single v m n).move τ = single (τ v) m n := by
  simp only [single, move, wiring, Multiset.map_add, Multiset.map_map]
  rfl

namespace Served

theorem add (hP : Served v m n P) (hQ : Served v m n Q) : Served v m n (P + Q) where
  loopless := hP.loopless.add hQ.loopless
  inputs a ha := (Multiset.mem_add.mp ha).elim (hP.inputs a) (hQ.inputs a)
  outputs a ha := (Multiset.mem_add.mp ha).elim (hP.outputs a) (hQ.outputs a)

theorem mono (h : Served v m n P) (hm : m ≤ m') (hn : n ≤ n') : Served v m' n' P where
  loopless := h.loopless
  inputs a ha hat := (h.inputs a ha hat).imp fun _ hi => ⟨Nat.lt_of_lt_of_le hi.1 hm, hi.2⟩
  outputs a ha hat := (h.outputs a ha hat).imp fun _ hi => ⟨Nat.lt_of_lt_of_le hi.1 hn, hi.2⟩

theorem of_away (h : P.Away v) (m n : Nat) : Served v m n P where
  loopless := h.loopless
  inputs a ha hat := by simp [(h a ha).2] at hat
  outputs a ha hat := by simp [(h a ha).1] at hat

/-- No wire comes from the box. -/
theorem of_inputs (hs : ∀ a ∈ P, a.1.isAt v = false)
    (ht : ∀ a ∈ P, a.2.isAt v = true → ∃ i < m, a.2 = .pin v (.side .input) (.ofNat i)) (n : Nat) :
    Served v m n P where
  loopless := loopless_of_source hs
  inputs := ht
  outputs a ha hat := by simp [hs a ha] at hat

/-- No wire leads to the box. -/
theorem of_outputs (ht : ∀ a ∈ P, a.2.isAt v = false)
    (hs : ∀ a ∈ P, a.1.isAt v = true → ∃ i < n, a.1 = .pin v (.side .output) (.ofNat i)) (m : Nat) :
    Served v m n P where
  loopless := loopless_of_target ht
  inputs a ha hat := by simp [ht a ha] at hat
  outputs := hs

end Served

section Single

def reaching (v : Nat) (P : Plan) : Plan := P.filter fun a => a.2.isAt v = true

def leaving (v : Nat) (P : Plan) : Plan := P.filter fun a => a.1.isAt v = true

/-- Without loops every wire reaches the box, leaves it, or does not touch it. -/
theorem Loopless.split (h : Loopless v P) : off v P + (reaching v P + leaving v P) = P := by
  have hreach : P.filter (fun a => a.2.isAt v = true ∧ ¬ a.1.isAt v = true) = reaching v P :=
    Multiset.filter_congr fun a ha => ⟨And.left, fun ht => ⟨ht, fun hs => h a ha ⟨hs, ht⟩⟩⟩
  have hoff : P.filter (fun a => ¬ a.2.isAt v = true ∧ ¬ a.1.isAt v = true) = off v P :=
    Multiset.filter_congr fun a _ => by simp [and_comm]
  have hrest := Multiset.filter_add_not (fun a => a.2.isAt v = true) (P.filter fun a => ¬ a.1.isAt v = true)
  rw [Multiset.filter_filter, Multiset.filter_filter, hreach, hoff] at hrest
  calc off v P + (reaching v P + leaving v P)
      = leaving v P + (reaching v P + off v P) := by abel
    _ = P := by
        rw [hrest]
        exact Multiset.filter_add_not _ P

theorem seq_map_left (f : Tip → Tip) (P Q : Plan) :
    seq Tip.meets (P.map (Prod.map f id)) Q = (seq Tip.meets P Q).map (Prod.map f id) := by
  simp only [seq, Multiset.map_bind, Multiset.bind_map, Multiset.map_map]
  exact Multiset.bind_congr fun a _ => rfl

/-- What ends at the ports of a wiring goes on as it was. -/
theorem seq_wiring (h : ∀ a ∈ P, ∃ i < m, a.2 = .port (some i)) : seq Tip.meets P (wiring id m) = P := by
  have hpins : P.filter (fun a => a.2.isPin = true) = 0 := by
    refine Multiset.filter_eq_nil.mpr fun a ha => ?_
    obtain ⟨i, -, hi⟩ := h a ha
    simp [hi, Tip.isPin]
  have hfits : P.filter (fun a => a.2.fits m = true) = P := by
    refine Multiset.filter_eq_self.mpr fun a ha => ?_
    obtain ⟨i, hlt, hi⟩ := h a ha
    simpa [hi, Tip.fits] using hlt
  have hserial := serial_wiring_eq P id (n := m)
  rwa [serial_of_ports (fun a ha => (wiring_not_isPin ha).1), hpins, zero_add, hfits, reroute_id] at hserial

theorem wiring_seq (h : ∀ a ∈ Q, ∃ i < n, a.1 = .port (some i)) : seq Tip.meets (wiring id n) Q = Q := by
  have hports : ∀ a ∈ Q, a.1.isPin = false := by
    intro a ha
    obtain ⟨i, -, hi⟩ := h a ha
    rw [hi]
    rfl
  have hpins : (wiring id n).filter (fun a => a.2.isPin = true) = 0 :=
    Multiset.filter_eq_nil.mpr fun a ha => by simp [(wiring_not_isPin ha).2]
  have hfits : Q.filter (fun a => a.1.fits n = true) = Q := by
    refine Multiset.filter_eq_self.mpr fun a ha => ?_
    obtain ⟨i, hlt, hi⟩ := h a ha
    simpa [hi, Tip.fits] using hlt
  have hserial := wiring_serial_eq Q id (n := n)
  rwa [turn_wiring_id, serial_of_ports hports, hpins, zero_add, hfits, reroute_id] at hserial

/-- What starts at boxes has nothing to do with what comes before. -/
theorem serial_add_pins (hQ : ∀ a ∈ Q, a.1.isPin = true) (P Q' : Plan) :
    serial P (Q' + Q) = serial P Q' + Q := by
  have hseq : seq Tip.meets P Q = 0 := seq_eq_zero fun a _ b hb => Tip.meets_isPin a.2 (hQ b hb)
  rw [serial, serial, Multiset.filter_add, seq_add_right, hseq, Multiset.filter_eq_self.mpr hQ, add_zero]
  abel

namespace Served
variable (h : Served v m n P)
include h

theorem into_ports : ∀ a ∈ into v P, ∃ i < m, a.2 = .port (some i) := by
  intro a ha
  obtain ⟨b, hb, rfl⟩ := Multiset.mem_map.mp ha
  obtain ⟨hb, hat⟩ := Multiset.mem_filter.mp hb
  obtain ⟨i, hi, hpin⟩ := h.inputs b hb hat
  exact ⟨i, hi, by simp [hpin, Tip.inward]⟩

theorem outOf_ports : ∀ a ∈ outOf v P, ∃ i < n, a.1 = .port (some i) := by
  intro a ha
  obtain ⟨b, hb, rfl⟩ := Multiset.mem_map.mp ha
  obtain ⟨hb, hat⟩ := Multiset.mem_filter.mp hb
  obtain ⟨i, hi, hpin⟩ := h.outputs b hb hat
  exact ⟨i, hi, by simp [hpin, Tip.inward]⟩

/-- The wires into the box are found again from what they lead to in it. -/
theorem map_into : (into v P).map (Prod.map id (Tip.outward v .input)) = reaching v P := by
  rw [into, Multiset.map_map]
  refine (Multiset.map_congr rfl fun a ha => ?_).trans (Multiset.map_id _)
  obtain ⟨ha, hat⟩ := Multiset.mem_filter.mp ha
  obtain ⟨i, -, hpin⟩ := h.inputs a ha hat
  exact Prod.ext rfl (by simp [hpin, Tip.inward, Tip.outward])

theorem map_outOf : (outOf v P).map (Prod.map (Tip.outward v .output) id) = leaving v P := by
  rw [outOf, Multiset.map_map]
  refine (Multiset.map_congr rfl fun a ha => ?_).trans (Multiset.map_id _)
  obtain ⟨ha, hat⟩ := Multiset.mem_filter.mp ha
  obtain ⟨i, -, hpin⟩ := h.outputs a ha hat
  exact Prod.ext (by simp [hpin, Tip.inward, Tip.outward]) rfl

theorem reaching_isPin : ∀ a ∈ reaching v P, a.2.isPin = true := by
  intro a ha
  obtain ⟨ha, hat⟩ := Multiset.mem_filter.mp ha
  obtain ⟨i, -, hpin⟩ := h.inputs a ha hat
  rw [hpin]
  rfl

/-- In the place of a box that is served, the plan with a single box changes nothing. -/
theorem graft_single : graft v P (single v m n) = P := by
  have hW := bare_wiring id m
  have hW' := bare_wiring id n
  let I := (wiring id m).map (Prod.map id (Tip.outward v .input))
  let O := (wiring id n).map (Prod.map (Tip.outward v .output) id)
  have hI : ∀ a ∈ I, a.1.isPin = false := by
    intro a ha
    obtain ⟨b, hb, rfl⟩ := Multiset.mem_map.mp ha
    exact (hW b hb).1
  have hO : ∀ a ∈ O, a.1.isPin = true := by
    intro a ha
    obtain ⟨b, hb, rfl⟩ := Multiset.mem_map.mp ha
    obtain ⟨i, -, rfl⟩ := Multiset.mem_map.mp hb
    rfl
  have hstart : (into v P).filter (fun a => a.2.isPin = true) = 0 :=
    Multiset.filter_eq_nil.mpr fun a ha => by simp [into_not_isPin ha]
  have hend : O.filter (fun a => a.2.isPin = true) = 0 := by
    refine Multiset.filter_eq_nil.mpr fun a ha => ?_
    obtain ⟨b, hb, rfl⟩ := Multiset.mem_map.mp ha
    simp [(hW' b hb).2]
  have hfirst : serial (into v P) (I + O) = reaching v P + O := by
    rw [serial_add_pins hO, serial_of_ports hI, hstart, zero_add, seq_map_right, seq_wiring h.into_ports, h.map_into]
  have hsecond : serial (reaching v P + O) (outOf v P) = reaching v P + leaving v P := by
    rw [serial_pins_add h.reaching_isPin, serial_of_ports fun a => outOf_not_isPin, hend, zero_add, seq_map_left,
      wiring_seq h.outOf_ports, h.map_outOf]
  rw [graft, single, hfirst, hsecond, h.loopless.split]

end Served

end Single

section Scaffolds

theorem outward_target (hP : ∀ a ∈ P, ∃ i < m, a.2 = .port (some i)) (f : Tip → Tip) (v : Nat) :
    ∀ a ∈ P.map (Prod.map f (Tip.outward v .input)), ∃ i < m, a.2 = .pin v (.side .input) (.ofNat i) := by
  intro a ha
  obtain ⟨b, hb, rfl⟩ := Multiset.mem_map.mp ha
  obtain ⟨i, hi, hport⟩ := hP b hb
  exact ⟨i, hi, by simp [hport, Tip.outward]⟩

theorem outward_source (hP : ∀ a ∈ P, ∃ i < n, a.1 = .port (some i)) (f : Tip → Tip) (v : Nat) :
    ∀ a ∈ P.map (Prod.map (Tip.outward v .output) f), ∃ i < n, a.1 = .pin v (.side .output) (.ofNat i) := by
  intro a ha
  obtain ⟨b, hb, rfl⟩ := Multiset.mem_map.mp ha
  obtain ⟨i, hi, hport⟩ := hP b hb
  exact ⟨i, hi, by simp [hport, Tip.outward]⟩

theorem source_wiring (φ : Nat → Nat) (n : Nat) : ∀ a ∈ wiring φ n, ∃ i < n, a.1 = .port (some i) := by
  intro a ha
  obtain ⟨i, hi, rfl⟩ := Multiset.mem_map.mp ha
  exact ⟨i, Multiset.mem_range.mp hi, rfl⟩

theorem target_wiring_turn (φ : Nat → Nat) (n : Nat) : ∀ a ∈ (wiring φ n).turn, ∃ i < n, a.2 = .port (some i) := by
  intro a ha
  obtain ⟨b, hb, rfl⟩ := Multiset.mem_map.mp ha
  exact source_wiring φ n b hb

/-- A strand of wires into the box. -/
theorem served_into (φ : Nat → Nat) (v m n : Nat) :
    Served v m n ((wiring φ m).turn.map (Prod.map id (Tip.outward v .input))) :=
  .of_inputs (isAt_source_id (bare_wiring φ m).turn _)
    (fun a ha _ => outward_target (target_wiring_turn φ m) id v a ha) n

/-- A strand of wires out of the box. -/
theorem served_outOf (φ : Nat → Nat) (v m n : Nat) :
    Served v m n ((wiring φ n).map (Prod.map (Tip.outward v .output) id)) :=
  .of_outputs (isAt_target_id (bare_wiring φ n) _) (fun a ha _ => outward_source (source_wiring φ n) id v a ha) m

variable (hvw : v ≠ w)
include hvw

theorem away_into (φ : Nat → Nat) (m : Nat) :
    Away v ((wiring φ m).turn.map (Prod.map id (Tip.outward w .input))) := fun a ha =>
  ⟨isAt_source_id (bare_wiring φ m).turn _ a ha,
    (isAt_target (bare_wiring φ m).turn _ w _ a ha).trans (decide_eq_false hvw.symm)⟩

theorem away_outOf (φ : Nat → Nat) (n : Nat) :
    Away v ((wiring φ n).map (Prod.map (Tip.outward w .output) id)) := fun a ha =>
  ⟨(isAt_source (bare_wiring φ n) _ w _ a ha).trans (decide_eq_false hvw.symm),
    isAt_target_id (bare_wiring φ n) _ a ha⟩

theorem served_chain (m n k : Nat) : Served v m n (chain v w m n k) := by
  have hmiddle : Served v m n ((wiring id n).map (Prod.map (Tip.outward v .output) (Tip.outward w .input))) := by
    refine .of_outputs (fun a ha => ?_) (fun a ha _ => outward_source (source_wiring id n) _ v a ha) m
    exact (isAt_target (bare_wiring id n) _ w _ a ha).trans (decide_eq_false hvw.symm)
  have hfirst := served_into id v m n
  rw [turn_wiring_id] at hfirst
  exact (hfirst.add hmiddle).add (.of_away (away_outOf hvw id k) m n)

/-- The second box is served by the ports between the boxes, whatever came in for the first one. -/
theorem served_graft_chain (hQ : Q.Away w) (m n k : Nat) : Served w n k (graft v (chain v w m n k) Q) := by
  have hS : Away w (serial (wiring id m) Q) := (away_wiring id m w).serial hQ
  have hends := serial_forall (P := serial (wiring id m) Q)
    (Q := (wiring id n).map (Prod.map id (Tip.outward w .input)))
    (p := (·.isAt w = false)) (q := fun x => x.isAt w = true → ∃ i < n, x = .pin w (.side .input) (.ofNat i))
    (fun a ha => ⟨(hS a ha).1, fun _ hat => by simp [(hS a ha).2] at hat⟩) fun a ha => ?_
  · rw [graft_chain_first hvw]
    exact (served_outOf id w n k).add (.of_inputs (fun a ha => (hends a ha).1) (fun a ha => (hends a ha).2) k)
  · rw [← turn_wiring_id] at ha
    have hserved := served_into id w n k
    exact ⟨fun _ => isAt_source_id (bare_wiring id n).turn _ a ha, hserved.inputs a ha⟩

theorem served_pair (m m' n n' : Nat) : Served v m n (pair v w m m' n n') := by
  have hfirst := served_into id v m n
  rw [turn_wiring_id] at hfirst
  exact ((hfirst.add (.of_away (away_into hvw _ m') m n)).add (served_outOf id v m n)).add
    (.of_away (away_outOf hvw _ n') m n)

theorem served_graft_pair (hQ : Q.Away w) (m m' n n' : Nat) :
    Served w m' n' (graft v (pair v w m m' n n') Q) := by
  have hclip : Away w (Q.clip m n) := hQ.filter _
  rw [graft_pair_first hvw]
  exact ((served_into (· + m) w m' n').add (served_outOf (· + n) w m' n')).add (.of_away hclip m' n')

end Scaffolds

end Plan

end StringDiagram
