import StringDiagram.Proofs.Category.Plan

/-! # Plans in the place of boxes

A box of a plan is replaced by another plan, whose boundary takes the ports of the box. The scaffolds of
the two operations of the category are plans with two boxes; grafted for both, two plans come to stand
one after the other, or beside each other: `graft_chain`, `graft_pair`. -/
namespace StringDiagram
open Network

namespace Tip
variable {v w : Nat} {s : Side} {x : Tip}

def isAt (v : Nat) : Tip → Bool
  | .port _ => false
  | .pin i _ _ => decide (i = v)

def inward : Tip → Tip
  | .port p => .port p
  | .pin _ _ p => .port p.boxId?

def outward (v : Nat) (s : Side) : Tip → Tip
  | .port p => .pin v (.side s) ((p.map Value.ofNat).getD .null)
  | .pin i k p => .pin i k p

theorem isAt_of_not_isPin (h : x.isPin = false) (v : Nat) : x.isAt v = false := by
  cases x <;> simp_all [isPin, isAt]

theorem isAt_outward (h : x.isPin = false) (v w : Nat) (s : Side) :
    (x.outward v s).isAt w = decide (v = w) := by
  cases x <;> simp_all [isPin, isAt, outward]

theorem inward_outward (h : x.isPin = false) (v : Nat) (s : Side) : (x.outward v s).inward = x := by
  cases x with
  | port p => cases p <;> simp [inward, outward, Value.boxId?, Value.number?, Value.ofNat]
  | pin i k p => simp [isPin] at h

end Tip

namespace Plan
variable {v w m n k l : Nat} {s : Side} {φ ψ : Nat → Nat} {P P' Q R : Plan}

def into (v : Nat) (P : Plan) : Plan :=
  (P.filter fun a => a.2.isAt v = true).map (Prod.map id Tip.inward)

def outOf (v : Nat) (P : Plan) : Plan :=
  (P.filter fun a => a.1.isAt v = true).map (Prod.map Tip.inward id)

def off (v : Nat) (P : Plan) : Plan := P.filter fun a => (!a.1.isAt v && !a.2.isAt v) = true

/-- Plan `Q` in the place of box `v`. -/
def graft (v : Nat) (P Q : Plan) : Plan := off v P + serial (serial (into v P) Q) (outOf v P)

def Away (v : Nat) (P : Plan) : Prop := ∀ a ∈ P, a.1.isAt v = false ∧ a.2.isAt v = false

section Parts

@[simp] theorem into_add (v : Nat) (P Q : Plan) : into v (P + Q) = into v P + into v Q := by
  rw [into, Multiset.filter_add, Multiset.map_add, ← into, ← into]

@[simp] theorem outOf_add (v : Nat) (P Q : Plan) : outOf v (P + Q) = outOf v P + outOf v Q := by
  rw [outOf, Multiset.filter_add, Multiset.map_add, ← outOf, ← outOf]

@[simp] theorem off_add (v : Nat) (P Q : Plan) : off v (P + Q) = off v P + off v Q :=
  Multiset.filter_add ..

theorem into_eq_zero (h : ∀ a ∈ P, a.2.isAt v = false) : into v P = 0 := by
  rw [into, Multiset.filter_eq_nil.mpr fun a ha => by simp [h a ha], Multiset.map_zero]

theorem outOf_eq_zero (h : ∀ a ∈ P, a.1.isAt v = false) : outOf v P = 0 := by
  rw [outOf, Multiset.filter_eq_nil.mpr fun a ha => by simp [h a ha], Multiset.map_zero]

theorem off_eq_zero (h : ∀ a ∈ P, a.1.isAt v = true ∨ a.2.isAt v = true) : off v P = 0 :=
  Multiset.filter_eq_nil.mpr fun a ha => by rcases h a ha with h | h <;> simp [h]

theorem Away.off_eq (h : P.Away v) : off v P = P :=
  Multiset.filter_eq_self.mpr fun a ha => by simp [h a ha]

theorem Away.into_eq (h : P.Away v) : into v P = 0 := into_eq_zero fun a ha => (h a ha).2

theorem Away.outOf_eq (h : P.Away v) : outOf v P = 0 := outOf_eq_zero fun a ha => (h a ha).1

theorem Away.filter (h : P.Away v) (p : Tip × Tip → Prop) [DecidablePred p] :
    Away v (Multiset.filter p P) := fun a ha => h a (Multiset.mem_filter.mp ha).1

theorem into_outward (hP : ∀ a ∈ P, a.2.isPin = false) (f : Tip → Tip) :
    into v (P.map (Prod.map f (Tip.outward v s))) = P.map (Prod.map f id) := by
  rw [into, Multiset.filter_eq_self.mpr, Multiset.map_map]
  · exact Multiset.map_congr rfl fun a ha => Prod.ext rfl (Tip.inward_outward (hP a ha) v s)
  · intro a ha
    obtain ⟨b, hb, rfl⟩ := Multiset.mem_map.mp ha
    simpa using Tip.isAt_outward (hP b hb) v v s

theorem outOf_outward (hP : ∀ a ∈ P, a.1.isPin = false) (f : Tip → Tip) :
    outOf v (P.map (Prod.map (Tip.outward v s) f)) = P.map (Prod.map id f) := by
  rw [outOf, Multiset.filter_eq_self.mpr, Multiset.map_map]
  · exact Multiset.map_congr rfl fun a ha => Prod.ext (Tip.inward_outward (hP a ha) v s) rfl
  · intro a ha
    obtain ⟨b, hb, rfl⟩ := Multiset.mem_map.mp ha
    simpa using Tip.isAt_outward (hP b hb) v v s

theorem wiring_not_isPin {a : Tip × Tip} (h : a ∈ wiring φ n) : a.1.isPin = false ∧ a.2.isPin = false := by
  obtain ⟨i, -, rfl⟩ := Multiset.mem_map.mp h
  exact ⟨rfl, rfl⟩

end Parts

section Serial

/-- Wires behind a plan that all start at ports. -/
theorem serial_of_ports (hQ : ∀ a ∈ Q, a.1.isPin = false) (P : Plan) :
    serial P Q = P.filter (fun a => a.2.isPin = true) + seq Tip.meets P Q := by
  have hpins : Q.filter (fun a => a.1.isPin = true) = 0 :=
    Multiset.filter_eq_nil.mpr fun a ha => by simp [hQ a ha]
  rw [serial, hpins, add_zero]

theorem seq_map_right (f : Tip → Tip) (P Q : Plan) :
    seq Tip.meets P (Q.map (Prod.map id f)) = (seq Tip.meets P Q).map (Prod.map id f) := by
  simp only [seq, Multiset.map_bind, Multiset.filter_map, Multiset.map_map]
  exact Multiset.bind_congr fun a _ => rfl

/-- What ends at boxes has nothing to do with what comes behind. -/
theorem serial_pins_add (hP : ∀ a ∈ P, a.2.isPin = true) (P' Q : Plan) :
    serial (P + P') Q = P + serial P' Q := by
  have hseq : seq Tip.meets P Q = 0 :=
    seq_eq_zero fun a ha b _ => Tip.meets_of_isPin (hP a ha) b.1
  rw [serial, serial, Multiset.filter_add, seq_add_left, hseq, Multiset.filter_eq_self.mpr hP, zero_add]
  simp only [add_assoc]

def before (H : Plan) (x : Tip) : Multiset Tip :=
  if x.isPin then {x} else (H.filter fun a => Tip.meets a.2 x = true).map Prod.fst

def behind (K : Plan) (x : Tip) : Multiset Tip :=
  if x.isPin then {x} else (K.filter fun a => Tip.meets x a.1 = true).map Prod.snd

theorem serial_behind {K : Plan} (hK : ∀ a ∈ K, a.1.isPin = false) (P : Plan) :
    serial P K = P.bind fun x => (behind K x.2).map (Prod.mk x.1) := by
  rw [serial_of_ports hK]
  induction P using Multiset.induction_on with
  | empty => rfl
  | cons a P ih =>
    rw [seq, Multiset.cons_bind, ← seq, Multiset.cons_bind, ← ih, Multiset.filter_cons, behind]
    cases hpin : a.2.isPin with
    | true =>
      have hnone : K.filter (fun b => Tip.meets a.2 b.1 = true) = 0 :=
        Multiset.filter_eq_nil.mpr fun b _ => by simp [Tip.meets_of_isPin hpin]
      simp [hnone]
    | false => simp [add_left_comm]

theorem serial_before {H : Plan} (hH : ∀ a ∈ H, a.2.isPin = false) (P : Plan) :
    serial H P = P.bind fun x => (before H x.1).map fun y => (y, x.2) := by
  have hturn : ∀ a ∈ H.turn, a.1.isPin = false := by
    intro a ha
    obtain ⟨b, hb, rfl⟩ := Multiset.mem_map.mp ha
    exact hH b hb
  have hbehind : ∀ x, behind H.turn x = before H x := by
    intro x
    simp only [behind, before, turn, Multiset.filter_map, Multiset.map_map, Function.comp_def,
      Prod.fst_swap, Prod.snd_swap, Tip.meets_symm x]
  rw [← turn_turn (serial H P), ← serial_turn, serial_behind hturn, turn, turn, Multiset.bind_map,
    Multiset.map_bind]
  refine Multiset.bind_congr fun a _ => ?_
  rw [Multiset.map_map, Prod.snd_swap, hbehind]
  rfl

/-- Every wire between those that lead to its start and those that lead on from its end. -/
theorem serial_between {H K : Plan} (hH : ∀ a ∈ H, a.2.isPin = false) (hK : ∀ a ∈ K, a.1.isPin = false)
    (P : Plan) : serial (serial H P) K = P.bind fun x => (before H x.1).bind fun y =>
      (behind K x.2).map (Prod.mk y) := by
  rw [serial_behind hK, serial_before hH, Multiset.bind_assoc]
  exact Multiset.bind_congr fun a _ => by rw [Multiset.bind_map]

theorem into_not_isPin {a : Tip × Tip} (h : a ∈ into v P) : a.2.isPin = false := by
  obtain ⟨b, -, rfl⟩ := Multiset.mem_map.mp h
  obtain ⟨x, p | p⟩ := b <;> rfl

theorem outOf_not_isPin {a : Tip × Tip} (h : a ∈ outOf v P) : a.1.isPin = false := by
  obtain ⟨b, -, rfl⟩ := Multiset.mem_map.mp h
  obtain ⟨p | p, x⟩ := b <;> rfl

theorem clip_eq_serial (m n : Nat) (P : Plan) :
    P.clip m n = serial (serial (wiring id m) P) (wiring id n) := by
  rw [← turn_wiring_id m, wiring_serial_eq, reroute_id, serial_wiring_eq, reroute_id, Multiset.filter_filter,
    clip]
  exact Multiset.filter_congr fun a _ => by rw [Bool.and_eq_true, and_comm]

end Serial

section Scaffolds

def Loopless (v : Nat) (P : Plan) : Prop := ∀ a ∈ P, ¬ (a.1.isAt v = true ∧ a.2.isAt v = true)

theorem Away.loopless (h : P.Away v) : Loopless v P := fun a ha hl => by simp [(h a ha).1] at hl

theorem loopless_of_source (h : ∀ a ∈ P, a.1.isAt v = false) : Loopless v P := fun a ha hl => by
  simp [h a ha] at hl

theorem loopless_of_target (h : ∀ a ∈ P, a.2.isAt v = false) : Loopless v P := fun a ha hl => by
  simp [h a ha] at hl

theorem Loopless.add (hP : Loopless v P) (hQ : Loopless v Q) : Loopless v (P + Q) := fun a ha =>
  (Multiset.mem_add.mp ha).elim (hP a) (hQ a)

def chain (v w m n k : Nat) : Plan :=
  (wiring id m).map (Prod.map id (Tip.outward v .input)) +
    (wiring id n).map (Prod.map (Tip.outward v .output) (Tip.outward w .input)) +
    (wiring id k).map (Prod.map (Tip.outward w .output) id)

def pair (v w m m' n n' : Nat) : Plan :=
  (wiring id m).map (Prod.map id (Tip.outward v .input)) +
    (wiring (· + m) m').turn.map (Prod.map id (Tip.outward w .input)) +
    (wiring id n).map (Prod.map (Tip.outward v .output) id) +
    (wiring (· + n) n').map (Prod.map (Tip.outward w .output) id)

theorem map_id_id (P : Plan) : P.map (Prod.map id id) = P := by
  rw [Prod.map_id, Multiset.map_id]

theorem Away.serial (hP : P.Away v) (hQ : Q.Away v) : (serial P Q).Away v :=
  serial_forall (p := (·.isAt v = false)) (q := (·.isAt v = false))
    (fun a ha => ⟨(hP a ha).1, fun _ => (hP a ha).2⟩) fun a ha => ⟨fun _ => (hQ a ha).1, (hQ a ha).2⟩

theorem away_wiring (φ : Nat → Nat) (n v : Nat) : (wiring φ n).Away v := fun _ ha =>
  (wiring_not_isPin ha).imp (fun h => Tip.isAt_of_not_isPin h v) fun h => Tip.isAt_of_not_isPin h v

def Bare (P : Plan) : Prop := ∀ a ∈ P, a.1.isPin = false ∧ a.2.isPin = false

theorem bare_wiring (φ : Nat → Nat) (n : Nat) : (wiring φ n).Bare := fun _ => wiring_not_isPin

theorem Bare.turn (h : P.Bare) : P.turn.Bare := by
  intro a ha
  obtain ⟨b, hb, rfl⟩ := Multiset.mem_map.mp ha
  exact (h b hb).symm

section Strands
variable (hP : P.Bare) (f : Tip → Tip)

include hP

theorem isAt_target (w : Nat) (s : Side) :
    ∀ a ∈ P.map (Prod.map f (Tip.outward w s)), a.2.isAt v = decide (w = v) := by
  intro a ha
  obtain ⟨b, hb, rfl⟩ := Multiset.mem_map.mp ha
  exact Tip.isAt_outward (hP b hb).2 w v s

theorem isAt_source (w : Nat) (s : Side) :
    ∀ a ∈ P.map (Prod.map (Tip.outward w s) f), a.1.isAt v = decide (w = v) := by
  intro a ha
  obtain ⟨b, hb, rfl⟩ := Multiset.mem_map.mp ha
  exact Tip.isAt_outward (hP b hb).1 w v s

theorem isAt_target_id : ∀ a ∈ P.map (Prod.map f id), a.2.isAt v = false := by
  intro a ha
  obtain ⟨b, hb, rfl⟩ := Multiset.mem_map.mp ha
  exact Tip.isAt_of_not_isPin (hP b hb).2 v

theorem isAt_source_id : ∀ a ∈ P.map (Prod.map id f), a.1.isAt v = false := by
  intro a ha
  obtain ⟨b, hb, rfl⟩ := Multiset.mem_map.mp ha
  exact Tip.isAt_of_not_isPin (hP b hb).1 v

end Strands

theorem graft_chain_first (hvw : v ≠ w) (m n k : Nat) (Q : Plan) : graft v (chain v w m n k) Q =
    (wiring id k).map (Prod.map (Tip.outward w .output) id) +
      serial (serial (wiring id m) Q) ((wiring id n).map (Prod.map id (Tip.outward w .input))) := by
  have hne : decide (w = v) = false := decide_eq_false hvw.symm
  have hA := bare_wiring id m
  have hM := bare_wiring id n
  have hB := bare_wiring id k
  have hinto : into v (chain v w m n k) = wiring id m := by
    rw [chain, into_add, into_add, into_outward fun a ha => (hA a ha).2, map_id_id,
      into_eq_zero fun a ha => (isAt_target hM _ w _ a ha).trans hne,
      into_eq_zero (isAt_target_id hB _), add_zero, add_zero]
  have hout : outOf v (chain v w m n k) = (wiring id n).map (Prod.map id (Tip.outward w .input)) := by
    rw [chain, outOf_add, outOf_add, outOf_eq_zero (isAt_source_id hA _),
      outOf_outward fun a ha => (hM a ha).1,
      outOf_eq_zero fun a ha => (isAt_source hB _ w _ a ha).trans hne, add_zero, zero_add]
  have hoff : off v (chain v w m n k) = (wiring id k).map (Prod.map (Tip.outward w .output) id) := by
    have hrest : Away v ((wiring id k).map (Prod.map (Tip.outward w .output) id)) := fun a ha =>
      ⟨(isAt_source hB _ w _ a ha).trans hne, isAt_target_id hB _ a ha⟩
    rw [chain, off_add, off_add, hrest.off_eq,
      off_eq_zero fun a ha => Or.inr ((isAt_target hA _ v _ a ha).trans (by simp)),
      off_eq_zero fun a ha => Or.inl ((isAt_source hM _ v _ a ha).trans (by simp)), add_zero, zero_add]
  rw [graft, hinto, hout, hoff]

/-- Two plans in the scaffold of composition. -/
theorem graft_chain (hvw : v ≠ w) (hQ : Q.Away w) (m n k : Nat) (R : Plan) :
    graft w (graft v (chain v w m n k) Q) R = serial (Q.clip m n) (R.clip n k) := by
  have hB := bare_wiring id k
  have hW := bare_wiring id n
  let S := serial (wiring id m) Q
  have hS : S.Away w := (away_wiring id m w).serial hQ
  have hpins : Away w (S.filter fun a => a.2.isPin = true) := hS.filter _
  have hjoined : ∀ a ∈ seq Tip.meets S (wiring id n), a.2.isPin = false := by
    intro a ha
    obtain ⟨y, x, -, hx, -⟩ := mem_seq.mp (show (a.1, a.2) ∈ _ from ha)
    exact (hW _ hx).2
  have hstrand : ∀ a ∈ (wiring id n).map (Prod.map id (Tip.outward w .input)), a.1.isPin = false := by
    intro a ha
    obtain ⟨b, hb, rfl⟩ := Multiset.mem_map.mp ha
    exact (hW b hb).1
  have hfirst : graft v (chain v w m n k) Q = (wiring id k).map (Prod.map (Tip.outward w .output) id) +
      (S.filter (fun a => a.2.isPin = true) +
        (seq Tip.meets S (wiring id n)).map (Prod.map id (Tip.outward w .input))) := by
    rw [graft_chain_first hvw, serial_of_ports hstrand, seq_map_right]
  have hinto : into w (graft v (chain v w m n k) Q) = seq Tip.meets S (wiring id n) := by
    rw [hfirst, into_add, into_add, into_eq_zero (isAt_target_id hB _), hpins.into_eq,
      into_outward hjoined, map_id_id, zero_add, zero_add]
  have hout : outOf w (graft v (chain v w m n k) Q) = wiring id k := by
    have hsource : ∀ a ∈ (seq Tip.meets S (wiring id n)).map (Prod.map id (Tip.outward w .input)),
        a.1.isAt w = false := by
      intro a ha
      obtain ⟨b, hb, rfl⟩ := Multiset.mem_map.mp ha
      obtain ⟨y, x, hy, -, -⟩ := mem_seq.mp (show (b.1, b.2) ∈ _ from hb)
      exact (hS _ hy).1
    rw [hfirst, outOf_add, outOf_add, outOf_outward fun a ha => (hB a ha).1, map_id_id, hpins.outOf_eq,
      outOf_eq_zero hsource, add_zero, add_zero]
  have hoff : off w (graft v (chain v w m n k) Q) = S.filter fun a => a.2.isPin = true := by
    have htarget : ∀ a ∈ (seq Tip.meets S (wiring id n)).map (Prod.map id (Tip.outward w .input)),
        a.2.isAt w = true := by
      intro a ha
      obtain ⟨b, hb, rfl⟩ := Multiset.mem_map.mp ha
      simpa using Tip.isAt_outward (hjoined b hb) w w .input
    rw [hfirst, off_add, off_add, hpins.off_eq,
      off_eq_zero fun a ha => Or.inl ((isAt_source hB _ w _ a ha).trans (by simp)),
      off_eq_zero fun a ha => Or.inr (htarget a ha), add_zero, zero_add]
  have hpin : ∀ a ∈ S.filter (fun a => a.2.isPin = true), a.2.isPin = true := fun a ha =>
    (Multiset.mem_filter.mp ha).2
  calc graft w (graft v (chain v w m n k) Q) R
      = S.filter (fun a => a.2.isPin = true) +
          serial (serial (seq Tip.meets S (wiring id n)) R) (wiring id k) := by
        rw [graft, hinto, hout, hoff]
    _ = serial (serial (serial S (wiring id n)) R) (wiring id k) := by
        rw [serial_of_ports (fun a ha => (hW a ha).1) S, serial_pins_add hpin, serial_pins_add hpin]
    _ = serial (Q.clip m n) (R.clip n k) := by
        have hmiddle : serial (wiring id n) (wiring id n) = wiring id n := by
          have hfits : Fits n n (wiring id n) := fits_wiring fun _ h => h
          rw [serial_wiring_eq, reroute_id, Multiset.filter_eq_self.mpr]
          exact fun a ha => (hfits a ha).2
        rw [clip_eq_serial, clip_eq_serial, ← serial_assoc, ← serial_assoc,
          serial_assoc (serial (wiring id m) Q) (wiring id n) (wiring id n), hmiddle]

theorem graft_pair_first (hvw : v ≠ w) (m m' n n' : Nat) (Q : Plan) : graft v (pair v w m m' n n') Q =
    (wiring (· + m) m').turn.map (Prod.map id (Tip.outward w .input)) +
      (wiring (· + n) n').map (Prod.map (Tip.outward w .output) id) + Q.clip m n := by
  have hne : decide (w = v) = false := decide_eq_false hvw.symm
  have hA := bare_wiring id m
  have hA' := (bare_wiring (· + m) m').turn
  have hB := bare_wiring id n
  have hB' := bare_wiring (· + n) n'
  have hinto : into v (pair v w m m' n n') = wiring id m := by
    rw [pair, into_add, into_add, into_add, into_outward fun a ha => (hA a ha).2, map_id_id,
      into_eq_zero fun a ha => (isAt_target hA' _ w _ a ha).trans hne,
      into_eq_zero (isAt_target_id hB _), into_eq_zero (isAt_target_id hB' _), add_zero, add_zero, add_zero]
  have hout : outOf v (pair v w m m' n n') = wiring id n := by
    rw [pair, outOf_add, outOf_add, outOf_add, outOf_eq_zero (isAt_source_id hA _),
      outOf_eq_zero (isAt_source_id hA' _), outOf_outward fun a ha => (hB a ha).1, map_id_id,
      outOf_eq_zero fun a ha => (isAt_source hB' _ w _ a ha).trans hne, add_zero, zero_add, zero_add]
  have hoff : off v (pair v w m m' n n') =
      (wiring (· + m) m').turn.map (Prod.map id (Tip.outward w .input)) +
        (wiring (· + n) n').map (Prod.map (Tip.outward w .output) id) := by
    have hinputs : Away v ((wiring (· + m) m').turn.map (Prod.map id (Tip.outward w .input))) :=
      fun a ha => ⟨isAt_source_id hA' _ a ha, (isAt_target hA' _ w _ a ha).trans hne⟩
    have houtputs : Away v ((wiring (· + n) n').map (Prod.map (Tip.outward w .output) id)) :=
      fun a ha => ⟨(isAt_source hB' _ w _ a ha).trans hne, isAt_target_id hB' _ a ha⟩
    rw [pair, off_add, off_add, off_add, hinputs.off_eq, houtputs.off_eq,
      off_eq_zero fun a ha => Or.inr ((isAt_target hA _ v _ a ha).trans (by simp)),
      off_eq_zero fun a ha => Or.inl ((isAt_source hB _ v _ a ha).trans (by simp)), add_zero, zero_add]
  rw [graft, hinto, hout, hoff, clip_eq_serial]

/-- Two plans in the scaffold of the product. -/
theorem graft_pair (hvw : v ≠ w) (hQ : Q.Away w) (m m' n n' : Nat) (R : Plan) :
    graft w (graft v (pair v w m m' n n') Q) R = beside m n (Q.clip m n) (R.clip m' n') := by
  have hA' := (bare_wiring (· + m) m').turn
  have hB' := bare_wiring (· + n) n'
  have hclip : Away w (Q.clip m n) := hQ.filter _
  have hinto : into w (graft v (pair v w m m' n n') Q) = (wiring (· + m) m').turn := by
    rw [graft_pair_first hvw, into_add, into_add, into_outward fun a ha => (hA' a ha).2, map_id_id,
      into_eq_zero (isAt_target_id hB' _), hclip.into_eq, add_zero, add_zero]
  have hout : outOf w (graft v (pair v w m m' n n') Q) = wiring (· + n) n' := by
    rw [graft_pair_first hvw, outOf_add, outOf_add, outOf_eq_zero (isAt_source_id hA' _),
      outOf_outward fun a ha => (hB' a ha).1, map_id_id, hclip.outOf_eq, add_zero, zero_add]
  have hoff : off w (graft v (pair v w m m' n n') Q) = Q.clip m n := by
    rw [graft_pair_first hvw, off_add, off_add, hclip.off_eq,
      off_eq_zero fun a ha => Or.inr ((isAt_target hA' _ w _ a ha).trans (by simp)),
      off_eq_zero fun a ha => Or.inl ((isAt_source hB' _ w _ a ha).trans (by simp)), add_zero, zero_add]
  have hgrafted : serial (serial (wiring (· + m) m').turn R) (wiring (· + n) n') =
      (R.clip m' n').reroute (· + m) (· + n) := by
    have hkeep : (Plan.reroute (· + m) id (R.filter fun a => a.1.fits m' = true)).filter
        (fun a => a.2.fits n' = true) = Plan.reroute (· + m) id (R.clip m' n') := by
      rw [reroute, Multiset.filter_map, Multiset.filter_filter, reroute, clip]
      congr 1
      exact Multiset.filter_congr fun a _ => by simp [and_comm]
    rw [wiring_serial_eq, serial_wiring_eq, hkeep, reroute_reroute]
    rfl
  rw [graft, hinto, hout, hoff, hgrafted, beside]

theorem loopless_chain (hvw : v ≠ w) (m n k : Nat) : Loopless v (chain v w m n k) := by
  refine ((loopless_of_source (isAt_source_id (bare_wiring id m) _)).add (loopless_of_target ?_)).add
    (loopless_of_target (isAt_target_id (bare_wiring id k) _))
  exact fun a ha => (isAt_target (bare_wiring id n) _ w _ a ha).trans (decide_eq_false hvw.symm)

theorem loopless_graft_chain (hvw : v ≠ w) (hQ : Q.Away w) (m n k : Nat) :
    Loopless w (graft v (chain v w m n k) Q) := by
  rw [graft_chain_first hvw]
  refine (loopless_of_target (isAt_target_id (bare_wiring id k) _)).add (loopless_of_source ?_)
  have hS : Away w (serial (wiring id m) Q) := (away_wiring id m w).serial hQ
  exact fun a ha => (serial_forall (p := (·.isAt w = false)) (q := fun _ => True)
    (fun b hb => ⟨(hS b hb).1, fun _ => trivial⟩)
    (fun b hb => ⟨fun _ => isAt_source_id (bare_wiring id n) _ b hb, trivial⟩) a ha).1

theorem loopless_pair (v w m m' n n' : Nat) : Loopless v (pair v w m m' n n') :=
  (((loopless_of_source (isAt_source_id (bare_wiring id m) _)).add
    (loopless_of_source (isAt_source_id (bare_wiring (· + m) m').turn _))).add
    (loopless_of_target (isAt_target_id (bare_wiring id n) _))).add
    (loopless_of_target (isAt_target_id (bare_wiring (· + n) n') _))

theorem loopless_graft_pair (hvw : v ≠ w) (hQ : Q.Away w) (m m' n n' : Nat) :
    Loopless w (graft v (pair v w m m' n n') Q) := by
  rw [graft_pair_first hvw]
  exact ((loopless_of_source (isAt_source_id (bare_wiring (· + m) m').turn _)).add
    (loopless_of_target (isAt_target_id (bare_wiring (· + n) n') _))).add (hQ.filter _).loopless

end Scaffolds

end Plan

end StringDiagram
