import Mathlib.Data.Multiset.Range
import StringDiagram.Proofs.Network.Counts
import StringDiagram.Value.Equality

/-! # Plans

The wires of a diagram without the names of its boxes: which port of the boundary, or of the box at which
place, leads to which. Plans are put one after the other (`serial`) or beside each other (`beside`), and
the laws of this algebra hold as equations of multisets; `serial_assoc` and `serial_beside` are the main
ones. -/
namespace StringDiagram
open Network

/-- An end of a wire: a port of the boundary by its position, if it has one, or a port of the box at a
place. -/
inductive Tip where
  | port (position : Option Nat)
  | pin (place : Nat) (kind port : Value)
deriving DecidableEq

namespace Tip

def fits (n : Nat) : Tip → Bool
  | .port p => p.any (decide <| · < n)
  | .pin _ _ _ => true

def isPin : Tip → Bool
  | .port _ => false
  | .pin _ _ _ => true

def meets : Tip → Tip → Bool
  | .port p, .port q => p == q
  | _, _ => false

def move (τ : Nat → Nat) : Tip → Tip
  | .port p => .port p
  | .pin i k p => .pin (τ i) k p

def reroute (φ : Nat → Nat) : Tip → Tip
  | .port p => .port (p.map φ)
  | .pin i k p => .pin i k p

def below (n : Nat) : Tip → Bool
  | .port _ => true
  | .pin i _ _ => decide (i < n)

section
variable {n : Nat} {φ ψ τ τ' : Nat → Nat} {x y : Tip}

theorem fits_of_isPin (h : x.isPin = true) : x.fits n = true := by cases x <;> simp_all [isPin, fits]

@[simp] theorem meets_port {p q : Option Nat} : meets (.port p) (.port q) = true ↔ p = q := beq_iff_eq

theorem meets_symm (x y : Tip) : meets x y = meets y x := by
  cases x <;> cases y <;> simp [meets, Bool.beq_comm]

theorem meets_of_isPin (h : x.isPin = true) (y : Tip) : meets x y = false := by
  cases x <;> simp_all [isPin, meets]

theorem meets_isPin (x : Tip) (h : y.isPin = true) : meets x y = false := by
  cases y <;> cases x <;> simp_all [isPin, meets]

@[simp] theorem isPin_move (τ : Nat → Nat) (x : Tip) : (x.move τ).isPin = x.isPin := by cases x <;> rfl

@[simp] theorem isPin_reroute (φ : Nat → Nat) (x : Tip) : (x.reroute φ).isPin = x.isPin := by
  cases x <;> rfl

@[simp] theorem fits_move (τ : Nat → Nat) (x : Tip) (n : Nat) : (x.move τ).fits n = x.fits n := by
  cases x <;> rfl

@[simp] theorem meets_move (τ : Nat → Nat) (x y : Tip) : meets (x.move τ) (y.move τ) = meets x y := by
  cases x <;> cases y <;> rfl

theorem move_move (τ τ' : Nat → Nat) (x : Tip) : (x.move τ).move τ' = x.move (τ' ∘ τ) := by cases x <;> rfl

theorem reroute_reroute (φ ψ : Nat → Nat) (x : Tip) : (x.reroute φ).reroute ψ = x.reroute (ψ ∘ φ) := by
  cases x <;> simp [reroute]

theorem move_reroute (τ φ : Nat → Nat) (x : Tip) : (x.reroute φ).move τ = (x.move τ).reroute φ := by
  cases x <;> rfl

@[simp] theorem move_id (x : Tip) : x.move id = x := by cases x <;> rfl

@[simp] theorem reroute_id (x : Tip) : x.reroute id = x := by cases x <;> simp [reroute]

theorem reroute_of_isPin (h : x.isPin = true) : x.reroute φ = x := by
  cases x <;> simp_all [isPin, reroute]

theorem move_congr (h : ∀ i < n, τ i = τ' i) (hx : x.below n = true) : x.move τ = x.move τ' := by
  cases x with
  | port p => rfl
  | pin i k p => simp [move, h i (by simpa [below] using hx)]

/-- Only the ports that there are need to be told apart. -/
theorem reroute_congr (h : ∀ i < n, φ i = ψ i) (hx : x.fits n = true) : x.reroute φ = x.reroute ψ := by
  cases x with
  | port p => cases p <;> simp_all [reroute, fits]
  | pin i k p => rfl

theorem fits_reroute {m : Nat} (h : ∀ i < n, φ i < m) (hx : x.fits n = true) :
    (x.reroute φ).fits m = true := by
  cases x with
  | port p => cases p <;> simp_all [reroute, fits]
  | pin i k p => rfl

theorem meets_reroute (hφ : φ.Injective) (x y : Tip) :
    meets (x.reroute φ) (y.reroute φ) = meets x y := by
  cases x with
  | port p => cases y with
    | port q =>
      simp only [reroute, meets, Bool.beq_eq_decide_eq]
      exact decide_eq_decide.mpr (Option.map_injective hφ).eq_iff
    | pin i k p => rfl
  | pin i k p => cases y <;> rfl

/-- A port that is moved up by `n` is not one of the first `n`. -/
theorem meets_raised (hx : x.fits n = true) : meets x (y.reroute (· + n)) = false ∧
    meets (y.reroute (· + n)) x = false := by
  cases x with
  | port p => cases y with
    | port q => cases p <;> cases q <;> simp_all [reroute, meets, fits]; omega
    | pin i k p => exact ⟨rfl, rfl⟩
  | pin i k p => cases y <;> exact ⟨rfl, rfl⟩

theorem fits_mono {m : Nat} (h : n ≤ m) (hx : x.fits n = true) : x.fits m = true := by
  cases x with
  | port p => cases p <;> simp_all [fits]; omega
  | pin i k p => rfl

theorem below_move {m : Nat} (h : ∀ i < n, τ i < m) (hx : x.below n = true) :
    (x.move τ).below m = true := by
  cases x with
  | port p => rfl
  | pin i k p => simpa [move, below] using h i (by simpa [below] using hx)

@[simp] theorem below_reroute (φ : Nat → Nat) (x : Tip) : (x.reroute φ).below n = x.below n := by
  cases x <;> rfl

theorem below_mono {m : Nat} (h : n ≤ m) (hx : x.below n = true) : x.below m = true := by
  cases x with
  | port p => rfl
  | pin i k p => simp_all [below]; omega

end

end Tip

abbrev Plan := Multiset (Tip × Tip)

namespace Plan
variable {m n k l : Nat} {φ ψ τ τ' : Nat → Nat} {P Q R : Plan}

def move (τ : Nat → Nat) (P : Plan) : Plan := P.map (Prod.map (Tip.move τ) (Tip.move τ))

def reroute (φ ψ : Nat → Nat) (P : Plan) : Plan := P.map (Prod.map (Tip.reroute φ) (Tip.reroute ψ))

def clip (m n : Nat) (P : Plan) : Plan := P.filter fun a => (a.1.fits m && a.2.fits n) = true

def serial (P Q : Plan) : Plan :=
  P.filter (fun a => a.2.isPin = true) + Q.filter (fun a => a.1.isPin = true) + seq Tip.meets P Q

def beside (m n : Nat) (P Q : Plan) : Plan := P + Q.reroute (· + m) (· + n)

def wiring (φ : Nat → Nat) (n : Nat) : Plan :=
  (Multiset.range n).map fun i => (.port (some i), .port (some (φ i)))

def turn (P : Plan) : Plan := P.map Prod.swap

def Fits (m n : Nat) (P : Plan) : Prop := ∀ a ∈ P, a.1.fits m = true ∧ a.2.fits n = true

def Below (n : Nat) (P : Plan) : Prop := ∀ a ∈ P, a.1.below n = true ∧ a.2.below n = true

section Moving

theorem move_move (τ τ' : Nat → Nat) (P : Plan) : (P.move τ).move τ' = P.move (τ' ∘ τ) := by
  simp only [move, Multiset.map_map, Function.comp_def, Tip.move_move, Prod.map_def]

theorem reroute_reroute (φ ψ φ' ψ' : Nat → Nat) (P : Plan) :
    (P.reroute φ ψ).reroute φ' ψ' = P.reroute (φ' ∘ φ) (ψ' ∘ ψ) := by
  simp only [reroute, Multiset.map_map, Function.comp_def, Tip.reroute_reroute, Prod.map_def]

theorem move_reroute (τ φ ψ : Nat → Nat) (P : Plan) :
    (P.reroute φ ψ).move τ = (P.move τ).reroute φ ψ := by
  simp only [move, reroute, Multiset.map_map, Function.comp_def, Tip.move_reroute, Prod.map_def]

@[simp] theorem move_id (P : Plan) : P.move id = P := by
  have h : Prod.map (Tip.move id) (Tip.move id) = id := funext fun a => by simp [Prod.map_def]
  rw [move, h, Multiset.map_id]

@[simp] theorem reroute_id (P : Plan) : P.reroute id id = P := by
  have h : Prod.map (Tip.reroute id) (Tip.reroute id) = id := funext fun a => by simp [Prod.map_def]
  rw [reroute, h, Multiset.map_id]

@[simp] theorem move_add (τ : Nat → Nat) (P Q : Plan) : (P + Q).move τ = P.move τ + Q.move τ :=
  Multiset.map_add _ P Q

@[simp] theorem reroute_add (φ ψ : Nat → Nat) (P Q : Plan) :
    (P + Q).reroute φ ψ = P.reroute φ ψ + Q.reroute φ ψ := Multiset.map_add _ P Q

theorem move_congr (hP : P.Below n) (h : ∀ i < n, τ i = τ' i) : P.move τ = P.move τ' := by
  refine Multiset.map_congr rfl fun a ha => ?_
  rw [Prod.map_apply', Prod.map_apply', Tip.move_congr h (hP a ha).1, Tip.move_congr h (hP a ha).2]

theorem reroute_congr {φ' ψ' : Nat → Nat} (hP : P.Fits m n) (h : ∀ i < m, φ i = φ' i)
    (h' : ∀ i < n, ψ i = ψ' i) : P.reroute φ ψ = P.reroute φ' ψ' := by
  refine Multiset.map_congr rfl fun a ha => ?_
  rw [Prod.map_apply', Prod.map_apply', Tip.reroute_congr h (hP a ha).1,
    Tip.reroute_congr h' (hP a ha).2]

theorem mem_move {a : Tip × Tip} : a ∈ P.move τ ↔ ∃ b ∈ P, (b.1.move τ, b.2.move τ) = a := by
  simp [move, Prod.map_apply']

theorem mem_reroute {a : Tip × Tip} :
    a ∈ P.reroute φ ψ ↔ ∃ b ∈ P, (b.1.reroute φ, b.2.reroute ψ) = a := by
  simp [reroute, Prod.map_apply']

@[simp] theorem turn_turn (P : Plan) : P.turn.turn = P := by
  simp [turn, Multiset.map_map]

@[simp] theorem turn_add (P Q : Plan) : (P + Q).turn = P.turn + Q.turn := Multiset.map_add _ P Q

theorem turn_reroute (φ ψ : Nat → Nat) (P : Plan) : (P.reroute φ ψ).turn = P.turn.reroute ψ φ := by
  simp only [turn, reroute, Multiset.map_map, Function.comp_def, Prod.map_def, Prod.fst_swap, Prod.snd_swap,
    Prod.swap_prod_mk]

end Moving

section Clipping

theorem fits_clip (m n : Nat) (P : Plan) : (P.clip m n).Fits m n := by
  intro a ha
  exact Bool.and_eq_true_iff.mp (Multiset.mem_filter.mp ha).2

theorem Fits.clip_eq (h : P.Fits m n) : P.clip m n = P :=
  Multiset.filter_eq_self.mpr fun a ha => Bool.and_eq_true_iff.mpr (h a ha)

theorem Fits.add (hP : P.Fits m n) (hQ : Q.Fits m n) : (P + Q).Fits m n := fun a ha =>
  (Multiset.mem_add.mp ha).elim (hP a) (hQ a)

theorem clip_move (τ : Nat → Nat) (m n : Nat) (P : Plan) : (P.move τ).clip m n = (P.clip m n).move τ := by
  simp only [clip, move, Multiset.filter_map, Function.comp_def, Prod.map_fst, Prod.map_snd, Tip.fits_move]

theorem Fits.move (h : P.Fits m n) (τ : Nat → Nat) : (P.move τ).Fits m n := by
  intro a ha
  obtain ⟨b, hb, rfl⟩ := mem_move.mp ha
  simpa using h b hb

theorem Fits.reroute (h : P.Fits m n) (hφ : ∀ i < m, φ i < k) (hψ : ∀ i < n, ψ i < l) :
    (P.reroute φ ψ).Fits k l := by
  intro a ha
  obtain ⟨b, hb, rfl⟩ := mem_reroute.mp ha
  exact ⟨Tip.fits_reroute hφ (h b hb).1, Tip.fits_reroute hψ (h b hb).2⟩

/-- What holds of all ends of two plans that stay ends when one follows the other. -/
theorem serial_forall {p q : Tip → Prop} (hP : ∀ a ∈ P, p a.1 ∧ (a.2.isPin = true → q a.2))
    (hQ : ∀ a ∈ Q, (a.1.isPin = true → p a.1) ∧ q a.2) : ∀ a ∈ serial P Q, p a.1 ∧ q a.2 := by
  intro a ha
  rcases Multiset.mem_add.mp ha with ha | ha
  · rcases Multiset.mem_add.mp ha with ha | ha
    · obtain ⟨ha, hpin⟩ := Multiset.mem_filter.mp ha
      exact ⟨(hP a ha).1, (hP a ha).2 hpin⟩
    · obtain ⟨ha, hpin⟩ := Multiset.mem_filter.mp ha
      exact ⟨(hQ a ha).1 hpin, (hQ a ha).2⟩
  · obtain ⟨y, x, hy, hx, -⟩ := mem_seq.mp (show (a.1, a.2) ∈ _ from ha)
    exact ⟨(hP _ hy).1, (hQ _ hx).2⟩

theorem Fits.serial (hP : P.Fits m n) (hQ : Q.Fits k l) : (serial P Q).Fits m l :=
  serial_forall (p := (·.fits m = true)) (q := (·.fits l = true))
    (fun a ha => ⟨(hP a ha).1, Tip.fits_of_isPin⟩) fun a ha => ⟨Tip.fits_of_isPin, (hQ a ha).2⟩

theorem Fits.beside (hP : P.Fits m n) (hQ : Q.Fits k l) : (beside m n P Q).Fits (m + k) (n + l) := by
  have hP' : P.Fits (m + k) (n + l) := fun a ha =>
    ⟨Tip.fits_mono (Nat.le_add_right _ _) (hP a ha).1, Tip.fits_mono (Nat.le_add_right _ _) (hP a ha).2⟩
  exact hP'.add (hQ.reroute (fun i hi => by omega) (fun i hi => by omega))

theorem fits_wiring (h : ∀ i < n, φ i < m) : (wiring φ n).Fits n m := by
  intro a ha
  obtain ⟨i, hi, rfl⟩ := Multiset.mem_map.mp ha
  have hi := Multiset.mem_range.mp hi
  simp [Tip.fits, hi, h i hi]

end Clipping

section Places

theorem Below.add (hP : P.Below n) (hQ : Q.Below n) : (P + Q).Below n := fun a ha =>
  (Multiset.mem_add.mp ha).elim (hP a) (hQ a)

theorem Below.mono (hP : P.Below n) (h : n ≤ m) : P.Below m := fun a ha =>
  (hP a ha).imp (Tip.below_mono h) (Tip.below_mono h)

theorem Below.clip (hP : P.Below n) (m l : Nat) : (P.clip m l).Below n := fun a ha =>
  hP a (Multiset.mem_filter.mp ha).1

theorem Below.move (hP : P.Below n) (h : ∀ i < n, τ i < m) : (P.move τ).Below m := by
  intro a ha
  obtain ⟨b, hb, rfl⟩ := mem_move.mp ha
  exact (hP b hb).imp (Tip.below_move h) (Tip.below_move h)

theorem Below.reroute (hP : P.Below n) (φ ψ : Nat → Nat) : (P.reroute φ ψ).Below n := by
  intro a ha
  obtain ⟨b, hb, rfl⟩ := mem_reroute.mp ha
  simpa using hP b hb

theorem Below.serial (hP : P.Below n) (hQ : Q.Below n) : (serial P Q).Below n :=
  serial_forall (p := (·.below n = true)) (q := (·.below n = true))
    (fun a ha => ⟨(hP a ha).1, fun _ => (hP a ha).2⟩) fun a ha => ⟨fun _ => (hQ a ha).1, (hQ a ha).2⟩

theorem below_wiring (φ : Nat → Nat) (n m : Nat) : (wiring φ n).Below m := by
  intro a ha
  obtain ⟨i, -, rfl⟩ := Multiset.mem_map.mp ha
  exact ⟨rfl, rfl⟩

end Places

section Serial

theorem seq_of_isPin_left (P Q : Plan) :
    seq Tip.meets (P.filter fun a => a.2.isPin = true) Q = 0 :=
  seq_eq_zero fun _ ha b _ => Tip.meets_of_isPin (Multiset.mem_filter.mp ha).2 b.1

theorem seq_of_isPin_right (P Q : Plan) :
    seq Tip.meets P (Q.filter fun a => a.1.isPin = true) = 0 :=
  seq_eq_zero fun a _ _ hb => Tip.meets_isPin a.2 (Multiset.mem_filter.mp hb).2

theorem filter_seq_right (p : Tip → Bool) (P Q : Plan) :
    (seq Tip.meets P Q).filter (fun a => p a.2 = true) =
      seq Tip.meets P (Q.filter fun a => p a.2 = true) := by
  simp only [seq, Multiset.filter_bind, Multiset.filter_map, Multiset.filter_filter, Function.comp_def,
    and_comm]

theorem filter_seq_left (p : Tip → Bool) (P Q : Plan) :
    (seq Tip.meets P Q).filter (fun a => p a.1 = true) =
      seq Tip.meets (P.filter fun a => p a.1 = true) Q := by
  simp only [seq, Multiset.filter_bind, Multiset.bind_filter]
  refine Multiset.bind_congr fun a _ => ?_
  cases h : p a.1 <;> simp [Multiset.filter_map, h]

/-- A wire of the middle plan that has a box at one end only is joined once, at whichever side comes
first. -/
theorem serial_assoc (P Q R : Plan) : serial (serial P Q) R = serial P (serial Q R) := by
  have hleft : (serial P Q).filter (fun a => a.2.isPin = true) = P.filter (fun a => a.2.isPin = true)
      + (Q.filter fun a => a.1.isPin = true).filter (fun a => a.2.isPin = true)
      + seq Tip.meets P (Q.filter fun a => a.2.isPin = true) := by
    rw [serial, Multiset.filter_add, Multiset.filter_add, Multiset.filter_filter, filter_seq_right]
    simp only [and_self]
  have hright : (serial Q R).filter (fun a => a.1.isPin = true)
      = (Q.filter fun a => a.1.isPin = true).filter (fun a => a.2.isPin = true)
      + R.filter (fun a => a.1.isPin = true)
      + seq Tip.meets (Q.filter fun a => a.1.isPin = true) R := by
    rw [serial, Multiset.filter_add, Multiset.filter_add, Multiset.filter_comm, filter_seq_left]
    simp only [Multiset.filter_filter, and_self]
  rw [serial, hleft, serial, serial, hright, serial]
  simp only [seq_add_left, seq_add_right, seq_of_isPin_left, seq_of_isPin_right, seq_assoc, zero_add,
    add_zero]
  abel

theorem serial_move (τ : Nat → Nat) (P Q : Plan) : serial (P.move τ) (Q.move τ) = (serial P Q).move τ := by
  have hseq : seq Tip.meets (P.move τ) (Q.move τ) = Plan.move τ (seq Tip.meets P Q) :=
    seq_map fun a _ b _ => Tip.meets_move τ a.2 b.1
  rw [serial, hseq, serial, move_add, move_add]
  simp only [move, Multiset.filter_map, Function.comp_def, Prod.map_fst, Prod.map_snd, Tip.isPin_move]

theorem seq_eq_bind (P Q : Plan) : seq Tip.meets P Q =
    P.bind fun a => Q.bind fun b => if Tip.meets a.2 b.1 = true then {(a.1, b.2)} else 0 := by
  refine Multiset.bind_congr fun a _ => ?_
  induction Q using Multiset.induction_on with
  | empty => rfl
  | cons b Q ih =>
    rw [Multiset.cons_bind, ← ih, Multiset.filter_cons, Multiset.map_add]
    split <;> rfl

/-- Read from the outputs to the inputs. -/
theorem serial_turn (P Q : Plan) : serial Q.turn P.turn = (serial P Q).turn := by
  have hseq : seq Tip.meets Q.turn P.turn = Plan.turn (seq Tip.meets P Q) := by
    simp only [seq_eq_bind, turn, Multiset.map_bind, Multiset.bind_map, Prod.fst_swap, Prod.snd_swap]
    rw [Multiset.bind_bind]
    refine Multiset.bind_congr fun a _ => Multiset.bind_congr fun b _ => ?_
    rw [Tip.meets_symm]
    split <;> rfl
  rw [serial, hseq, serial, turn_add, turn_add]
  simp only [turn, Multiset.filter_map, Function.comp_def, Prod.fst_swap, Prod.snd_swap]
  rw [add_comm (Multiset.map _ _)]

/-- Of the wires between ports just one starts at a port that there is. -/
theorem wiring_meeting (x : Tip) (φ : Nat → Nat) :
    ((wiring φ n).filter fun b => Tip.meets x b.1 = true).map Prod.snd =
      if x.isPin then 0 else if x.fits n then {x.reroute φ} else 0 := by
  cases x with
  | pin i k p =>
    rw [Multiset.filter_eq_nil.mpr fun b _ => by simp [Tip.meets]]
    rfl
  | port p =>
    by_cases hfits : (Tip.port p).fits n = true
    · obtain ⟨i, rfl, hi⟩ : ∃ i, p = some i ∧ i < n := by
        cases p <;> simp_all [Tip.fits]
      have hone : (Multiset.range n).filter (fun j => i = j) = {i} := by
        rw [Multiset.filter_eq, Multiset.count_eq_one_of_mem (Multiset.nodup_range n)
          (Multiset.mem_range.mpr hi)]
        rfl
      rw [if_neg (by simp [Tip.isPin]), if_pos hfits]
      simp only [wiring, Multiset.filter_map, Multiset.map_map, Function.comp_def, Tip.meets_port,
        Option.some.injEq, hone]
      rfl
    · have hnone : (wiring φ n).filter (fun b => Tip.meets (.port p) b.1 = true) = 0 := by
        refine Multiset.filter_eq_nil.mpr fun b hb hm => hfits ?_
        obtain ⟨i, hi, rfl⟩ := Multiset.mem_map.mp hb
        rw [Tip.meets_port.mp hm]
        simpa [Tip.fits] using Multiset.mem_range.mp hi
      rw [hnone, if_neg (by simp [Tip.isPin]), if_neg hfits, Multiset.map_zero]

theorem turn_wiring_id (n : Nat) : (wiring id n).turn = wiring id n := by
  simp [wiring, turn, Multiset.map_map]

/-- Wires of the boundary behind a plan cut off the outputs that they do not reach. -/
theorem serial_wiring_eq (P : Plan) (φ : Nat → Nat) :
    serial P (wiring φ n) = Plan.reroute id φ (P.filter fun a => a.2.fits n = true) := by
  have hpins : (wiring φ n).filter (fun a => a.1.isPin = true) = 0 := by
    apply Multiset.filter_eq_nil.mpr
    intro a ha
    obtain ⟨i, -, rfl⟩ := Multiset.mem_map.mp ha
    simp [Tip.isPin]
  rw [serial, hpins, add_zero]
  induction P using Multiset.induction_on with
  | empty => rfl
  | cons a P ih =>
    have hmap : ((wiring φ n).filter fun b => Tip.meets a.2 b.1 = true).map (fun b => (a.1, b.2)) =
        (((wiring φ n).filter fun b => Tip.meets a.2 b.1 = true).map Prod.snd).map (Prod.mk a.1) := by
      rw [Multiset.map_map]
      rfl
    rw [seq, Multiset.cons_bind, ← seq, hmap, wiring_meeting, Multiset.filter_cons, Multiset.filter_cons,
      reroute_add, ← ih]
    cases hpin : a.2.isPin with
    | true =>
      have hfix : a.2.reroute φ = a.2 := Tip.reroute_of_isPin hpin
      simp [hfix, Tip.fits_of_isPin hpin, reroute, Prod.map_def]
    | false => cases hfits : a.2.fits n <;> simp [reroute, Prod.map_def]

/-- Wires of the boundary behind a plan only change its outputs. -/
theorem serial_wiring (hP : P.Fits m n) (φ : Nat → Nat) : serial P (wiring φ n) = P.reroute id φ := by
  rw [serial_wiring_eq, Multiset.filter_eq_self.mpr fun a ha => (hP a ha).2]

theorem wiring_serial_eq (Q : Plan) (φ : Nat → Nat) :
    serial (wiring φ n).turn Q = Plan.reroute φ id (Q.filter fun a => a.1.fits n = true) := by
  have h := serial_wiring_eq Q.turn φ (n := n)
  rw [← turn_turn Q, serial_turn, h, turn_reroute]
  congr 1
  rw [turn_turn, turn, turn, Multiset.filter_map, Multiset.map_map]
  simp

/-- Wires of the boundary before a plan only change its inputs. -/
theorem wiring_serial (hQ : Q.Fits n k) (φ : Nat → Nat) :
    serial (wiring φ n).turn Q = Q.reroute φ id := by
  rw [wiring_serial_eq, Multiset.filter_eq_self.mpr fun a ha => (hQ a ha).1]

end Serial

section Beside

/-- A wire to a box does not tell where the outputs are. -/
theorem filter_reroute_right (φ ψ χ : Nat → Nat) (P : Plan) :
    (P.reroute φ ψ).filter (fun a => a.2.isPin = true) =
      Plan.reroute φ χ (P.filter fun a => a.2.isPin = true) := by
  simp only [reroute, Multiset.filter_map, Function.comp_def, Prod.map_snd, Tip.isPin_reroute]
  refine Multiset.map_congr rfl fun a ha => ?_
  have hpin := (Multiset.mem_filter.mp ha).2
  rw [Prod.map_apply', Prod.map_apply', Tip.reroute_of_isPin hpin, Tip.reroute_of_isPin hpin]

theorem filter_reroute_left (φ ψ χ : Nat → Nat) (P : Plan) :
    (P.reroute φ ψ).filter (fun a => a.1.isPin = true) =
      Plan.reroute χ ψ (P.filter fun a => a.1.isPin = true) := by
  simp only [reroute, Multiset.filter_map, Function.comp_def, Prod.map_fst, Tip.isPin_reroute]
  refine Multiset.map_congr rfl fun a ha => ?_
  have hpin := (Multiset.mem_filter.mp ha).2
  rw [Prod.map_apply', Prod.map_apply', Tip.reroute_of_isPin hpin, Tip.reroute_of_isPin hpin]

theorem seq_reroute (hψ : ψ.Injective) (φ χ : Nat → Nat) (P Q : Plan) :
    seq Tip.meets (P.reroute φ ψ) (Q.reroute ψ χ) = Plan.reroute φ χ (seq Tip.meets P Q) := by
  simp only [seq_eq_bind, reroute, Multiset.map_bind, Multiset.bind_map, Prod.map_fst, Prod.map_snd,
    Tip.meets_reroute hψ]
  refine Multiset.bind_congr fun a _ => Multiset.bind_congr fun b _ => ?_
  split <;> rfl

theorem serial_reroute (hψ : ψ.Injective) (φ χ : Nat → Nat) (P Q : Plan) :
    serial (P.reroute φ ψ) (Q.reroute ψ χ) = (serial P Q).reroute φ χ := by
  rw [serial, seq_reroute hψ, filter_reroute_right φ ψ χ, filter_reroute_left ψ χ φ, serial, reroute_add,
    reroute_add]

/-- What is beside each other does not meet. -/
theorem serial_beside {P' Q' : Plan} (hP : P.Fits m n) (hQ : Q.Fits n k) :
    serial (beside m n P P') (beside n k Q Q') = beside m k (serial P Q) (serial P' Q') := by
  have hcross : seq Tip.meets P (Q'.reroute (· + n) (· + k)) = 0 := by
    apply seq_eq_zero
    intro a ha b hb
    obtain ⟨c, -, rfl⟩ := mem_reroute.mp hb
    exact (Tip.meets_raised (hP a ha).2).1
  have hcross' : seq Tip.meets (P'.reroute (· + m) (· + n)) Q = 0 := by
    apply seq_eq_zero
    intro a ha b hb
    obtain ⟨c, -, rfl⟩ := mem_reroute.mp ha
    exact (Tip.meets_raised (hQ b hb).1).2
  rw [beside, beside, beside, ← serial_reroute (add_left_injective n)]
  simp only [serial, Multiset.filter_add, seq_add_left, seq_add_right, hcross, hcross']
  abel

theorem beside_move (τ : Nat → Nat) (m n : Nat) (P Q : Plan) :
    beside m n (P.move τ) (Q.move τ) = (beside m n P Q).move τ := by
  rw [beside, beside, move_add, move_reroute]

theorem beside_assoc (m n m' n' : Nat) (P Q R : Plan) :
    beside (m + m') (n + n') (beside m n P Q) R = beside m n P (beside m' n' Q R) := by
  have hadd : ∀ i j : Nat, (fun x => x + i) ∘ (fun x => x + j) = fun x => x + (i + j) := by
    intro i j
    funext x
    simp only [Function.comp_apply]
    omega
  simp only [beside, reroute_add, reroute_reroute, hadd, add_assoc]

/-- The ports of the first wiring and then those of the second. -/
theorem wiring_beside (φ ψ : Nat → Nat) (m n l : Nat) : beside m n (wiring φ m) (wiring ψ l) =
    wiring (fun i => if i < m then φ i else ψ (i - m) + n) (m + l) := by
  rw [beside, wiring, wiring, wiring, Multiset.range_add, Multiset.map_add, reroute, Multiset.map_map,
    Multiset.map_map]
  congr 1
  · refine Multiset.map_congr rfl fun i hi => ?_
    rw [if_pos (Multiset.mem_range.mp hi)]
  · refine Multiset.map_congr rfl fun i _ => ?_
    simp [Tip.reroute, Nat.add_comm m i]

theorem move_wiring (τ φ : Nat → Nat) (n : Nat) : (wiring φ n).move τ = wiring φ n := by
  rw [wiring, move, Multiset.map_map]
  rfl

theorem reroute_wiring (φ ψ : Nat → Nat) (n : Nat) :
    (wiring φ n).reroute id ψ = wiring (ψ ∘ φ) n := by
  rw [wiring, reroute, Multiset.map_map]
  rfl

theorem wiring_congr (h : ∀ i < n, φ i = ψ i) : wiring φ n = wiring ψ n :=
  Multiset.map_congr rfl fun i hi => by rw [h i (Multiset.mem_range.mp hi)]

end Beside

section Crossing

def crossing (m n i : Nat) : Nat := if i < m then i + n else i - m

theorem crossing_lt {i : Nat} (h : i < m + n) : crossing m n i < n + m := by
  unfold crossing
  split <;> omega

theorem crossing_crossing {i : Nat} (h : i < m + n) : crossing n m (crossing m n i) = i := by
  unfold crossing
  split_ifs <;> omega

/-- All ports are reached. -/
theorem map_crossing (m n : Nat) :
    (Multiset.range (m + n)).map (crossing m n) = Multiset.range (n + m) := by
  have hfirst : (Multiset.range m).map (crossing m n) = (Multiset.range m).map (n + ·) :=
    Multiset.map_congr rfl fun i hi => by
      rw [crossing, if_pos (Multiset.mem_range.mp hi), Nat.add_comm]
  have hrest : (Multiset.range n).map (crossing m n ∘ (m + ·)) = Multiset.range n := by
    refine (Multiset.map_congr rfl fun i _ => ?_).trans (Multiset.map_id _)
    simp [crossing]
  rw [Multiset.range_add, Multiset.map_add, Multiset.map_map, hfirst, hrest, Multiset.range_add, add_comm]

/-- Each crossing is read backwards as the other one. -/
theorem wiring_crossing (m n : Nat) :
    wiring (crossing m n) (m + n) = (wiring (crossing n m) (n + m)).turn := by
  rw [wiring, wiring, turn, Multiset.map_map, ← map_crossing m n, Multiset.map_map]
  refine Multiset.map_congr rfl fun i hi => ?_
  rw [Function.comp_apply, Function.comp_apply, crossing_crossing (Multiset.mem_range.mp hi)]
  rfl

end Crossing

end Plan

end StringDiagram
