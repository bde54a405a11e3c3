import Mathlib.Data.Finset.Lattice.Fold
import StringDiagram.Proofs.Network.Chains
import StringDiagram.Proofs.Flattening.Layers

/-! # Layers without cycles

If no layer runs in a circle, then neither does the network of all layers. Every box gets an interval of
numbers. The intervals of the boxes inside are in it, and along a wire one interval comes after another:
`Opened.exists_ranked`. -/
namespace StringDiagram
open Diagram Network

namespace Diagram
variable {d : Diagram}

theorem precedes_of_wire (hd : d.Consistent) {w : Wire} (hw : w ∈ d.wires) {m n : Nat}
    (hm : w.source.box.boxId? = some m) (hn : w.target.box.boxId? = some n) : d.Precedes m n := by
  obtain ⟨e, he, hw⟩ := (mem_wires hd).mp hw
  have hends := hd.edge_wire e w hw
  obtain rfl : m = e.1 := Option.some.inj (hm.symm.trans hends.1)
  obtain rfl : n = e.2 := Option.some.inj (hn.symm.trans hends.2)
  obtain ⟨out, hout, hkeys⟩ := hd.exists_out (hd.edge_live e he).1
  exact ⟨out, hout, hkeys ▸ mem_targets.mpr he⟩

/-- The boxes of a diagram without cycles have an order that its wires follow. -/
theorem Acyclic.exists_order (h : d.Acyclic) (hd : d.Consistent) : ∃ τ : Nat → Nat, (∀ n, τ n ≤ d.next) ∧
    ∀ w ∈ d.wires, ∀ m n, w.source.box.boxId? = some m → w.target.box.boxId? = some n → τ m < τ n := by
  obtain ⟨rank, hlt, hle⟩ := exists_rank (R := fun i j : Fin d.next => d.Precedes i j) fun i hi =>
    h i (hi.lift Fin.val fun _ _ => id)
  rw [Fintype.card_fin] at hle
  refine ⟨fun n => if hn : n < d.next then rank ⟨n, hn⟩ else 0, fun n => ?_, fun w hw m n hm hn => ?_⟩
  · dsimp only
    split
    · exact hle _
    · exact Nat.zero_le _
  · obtain ⟨hs, ht⟩ := hd.has_ends hw
    obtain ⟨m', hm', hmlt⟩ := hs.lt_next hd
    obtain ⟨n', hn', hnlt⟩ := ht.lt_next hd
    obtain rfl := Option.some.inj (hm.symm.trans hm')
    obtain rfl := Option.some.inj (hn.symm.trans hn')
    dsimp only
    rw [dif_pos hmlt, dif_pos hnlt]
    exact hlt _ _ (precedes_of_wire hd hw hm hn)

end Diagram

section Intervals
variable (τ : Path → Nat → Nat) (K M : Nat)

def width (p : Path) : Nat := (K + 2) ^ (M + 1 - p.length)

def left : Path → Nat
  | [] => 0
  | n :: p => left p + 1 + τ p n * width K M (n :: p)

def right (p : Path) : Nat := left τ K M p + width K M p

/-- Inside a box walks start at its input boundary, and elsewhere after the box on which they start. -/
def startRank (a : Site) : Nat :=
  match a.2.box.boxId? with
  | none => 0
  | some n => if n = inputId ∧ a.1 ≠ [] then left τ K M a.1 + 1 else right τ K M (n :: a.1)

def finishRank (a : Site) : Nat :=
  match a.2.box.boxId? with
  | none => 0
  | some n => if n = outputId ∧ a.1 ≠ [] then right τ K M a.1 - 1 else left τ K M (n :: a.1)

variable {τ K M} {p : Path} {m n : Nat}

theorem width_pos (p : Path) : 0 < width K M p := Nat.pow_pos (by omega)

theorem width_cons (n : Nat) (hp : p.length ≤ M) : width K M p = (K + 2) * width K M (n :: p) := by
  have h : M + 1 - p.length = M + 1 - (n :: p).length + 1 := by
    rw [List.length_cons]
    omega
  rw [width, h, Nat.pow_succ, mul_comm, width]

theorem left_lt_cons (n : Nat) (p : Path) : left τ K M p + 1 ≤ left τ K M (n :: p) := Nat.le_add_right _ _

theorem right_cons_lt (hp : p.length ≤ M) (hτ : τ p n < K) : right τ K M (n :: p) < right τ K M p := by
  have hmul := Nat.mul_le_mul_right (width K M (n :: p)) (Nat.succ_le_of_lt hτ)
  have hpos := width_pos (K := K) (M := M) (n :: p)
  rw [right, right, left, width_cons n hp]
  rw [Nat.succ_mul] at hmul
  rw [Nat.add_mul]
  omega

theorem right_le_left (h : τ p m < τ p n) : right τ K M (m :: p) ≤ left τ K M (n :: p) := by
  have hmul := Nat.mul_le_mul_right (width K M (n :: p)) (Nat.succ_le_of_lt h)
  rw [Nat.succ_mul] at hmul
  have hw : width K M (m :: p) = width K M (n :: p) := rfl
  rw [right, left, left, hw]
  omega

theorem left_lt_right (p : Path) : left τ K M p < right τ K M p := Nat.lt_add_of_pos_right (width_pos p)

end Intervals

section Joins
variable {a b : Site}

theorem enters_iff : enters a b = true ↔ ∃ u, b.1 = u :: a.1 ∧ b.2.isOn inputId = true ∧
    a.2.same (.input (.ofNat u) b.2.port) = true ∧ (a.1 = [] ∨ b.2.port.refs = []) := by
  obtain ⟨q, c⟩ := b
  cases q with
  | nil => simp [enters]
  | cons u p =>
    simp only [enters, Bool.and_eq_true, Bool.or_eq_true, decide_eq_true_eq, List.isEmpty_iff, List.cons.injEq]
    constructor
    · rintro ⟨⟨⟨rfl, hc⟩, hs⟩, hr⟩
      exact ⟨u, ⟨rfl, rfl⟩, hc, hs, hr⟩
    · rintro ⟨_, ⟨rfl, rfl⟩, hc, hs, hr⟩
      exact ⟨⟨⟨rfl, hc⟩, hs⟩, hr⟩

theorem exits_iff : exits a b = true ↔ ∃ u, a.1 = u :: b.1 ∧ a.2.isOn outputId = true ∧
    b.2.same (.output (.ofNat u) a.2.port) = true ∧ (b.1 = [] ∨ a.2.port.refs = []) := by
  obtain ⟨q, c⟩ := a
  cases q with
  | nil => simp [exits]
  | cons u p =>
    simp only [exits, Bool.and_eq_true, Bool.or_eq_true, decide_eq_true_eq, List.isEmpty_iff, List.cons.injEq]
    constructor
    · rintro ⟨⟨⟨rfl, hc⟩, hs⟩, hr⟩
      exact ⟨u, ⟨rfl, rfl⟩, hc, hs, hr⟩
    · rintro ⟨_, ⟨rfl, rfl⟩, hc, hs, hr⟩
      exact ⟨⟨⟨rfl, hc⟩, hs⟩, hr⟩

end Joins

section Ranks
variable {D : Path → Diagram} {L : Finset Path} {τ : Path → Nat → Nat} {K M : Nat}

theorem startRank_of_box {p : Path} {c : Connector} {u : Nat} (hc : c.isOn u = true) (hu : u ≠ inputId) :
    startRank τ K M (p, c) = right τ K M (u :: p) := by
  simp [startRank, Connector.isOn_iff.mp hc, hu]

theorem finishRank_of_box {p : Path} {c : Connector} {u : Nat} (hc : c.isOn u = true) (hu : u ≠ outputId) :
    finishRank τ K M (p, c) = left τ K M (u :: p) := by
  simp [finishRank, Connector.isOn_iff.mp hc, hu]

/-- A walk that starts at a box comes back to this box neither through the box nor around it. -/
theorem Opened.exists_ranked (ho : Opened D L) (h : ∀ p ∈ L, (D p).Acyclic) :
    ∃ start finish bound, Ranked joins (arrowsOf D L) start finish bound ∧
      ∀ p u c c', 2 ≤ u → c.isOn u = true → c'.isOn u = true → finish (p, c) < start (p, c') := by
  have horder : ∀ p, ∃ τ : Nat → Nat, p ∈ L → (∀ n, τ n ≤ (D p).next) ∧ ∀ w ∈ (D p).wires, ∀ m n,
      w.source.box.boxId? = some m → w.target.box.boxId? = some n → τ m < τ n := by
    intro p
    by_cases hp : p ∈ L
    · obtain ⟨τ, hτ⟩ := (h p hp).exists_order (ho.consistent p hp)
      exact ⟨τ, fun _ => hτ⟩
    · exact ⟨id, fun hp' => absurd hp' hp⟩
  choose τ hτ using horder
  let K := (L.sup fun p => (D p).next) + 1
  let M := L.sup List.length
  have hK : ∀ p ∈ L, ∀ n, τ p n < K := fun p hp n =>
    Nat.lt_succ_of_le (((hτ p hp).1 n).trans (Finset.le_sup (f := fun p => (D p).next) hp))
  have hM : ∀ p ∈ L, p.length ≤ M := fun p hp => Finset.le_sup (f := List.length) hp
  refine ⟨startRank τ K M, finishRank τ K M, ((arrowsOf D L).map fun a => finishRank τ K M a.2).sup,
    ⟨fun a ha => ?_, fun a ha => Multiset.le_sup (Multiset.mem_map_of_mem _ ha), fun a ha b hb hm => ?_⟩,
    fun p u c c' hu hc hc' => ?_⟩
  · obtain ⟨p, hp, w, hw, rfl⟩ := mem_arrowsOf.mp ha
    obtain ⟨⟨m, -, hm⟩, n, -, hn⟩ := (ho.consistent p hp).has_ends hw
    have hlt := right_cons_lt (n := m) (hM p hp) (hK p hp m)
    have hlt' := left_lt_cons (τ := τ) (K := K) (M := M) n p
    have hnext := right_le_left (K := K) (M := M) ((hτ p hp).2 w hw m n hm hn)
    have hlr := left_lt_right (τ := τ) (K := K) (M := M) (m :: p)
    have hl := left_lt_cons (τ := τ) (K := K) (M := M) m p
    simp only [startRank, finishRank, hm, hn]
    split <;> split <;> omega
  · have hkey : ∀ {u p}, u :: p ∈ L → 2 ≤ u := fun hup =>
      (ho.consistent _ (ho.parent hup).1).two_le (ho.parent hup).2
    rcases Bool.or_eq_true_iff.mp hm with hm | hm
    · obtain ⟨u, hu, hc, hs, -⟩ := enters_iff.mp hm
      have h2 := hkey (hu ▸ (ho.ends hb).1.1)
      have hon : a.2.2.isOn u = true := (Connector.isOn_eq_of_same hs u).trans (by simp)
      have hfinish : finishRank τ K M a.2 = left τ K M b.1.1 :=
        (finishRank_of_box (p := a.2.1) hon (by rw [outputId]; omega)).trans (by rw [hu])
      have hstart : startRank τ K M b.1 = left τ K M b.1.1 + 1 := by
        simp [startRank, Connector.isOn_iff.mp hc, hu]
      omega
    · obtain ⟨u, hu, hc, hs, -⟩ := exits_iff.mp hm
      have h2 := hkey (hu ▸ (ho.ends ha).2.1)
      have hon : b.1.2.isOn u = true := (Connector.isOn_eq_of_same hs u).trans (by simp)
      have hstart : startRank τ K M b.1 = right τ K M a.2.1 :=
        (startRank_of_box (p := b.1.1) hon (by rw [inputId]; omega)).trans (by rw [hu])
      have hfinish : finishRank τ K M a.2 = right τ K M a.2.1 - 1 := by
        simp [finishRank, Connector.isOn_iff.mp hc, hu]
      have hlr := left_lt_right (τ := τ) (K := K) (M := M) a.2.1
      omega
  · rw [finishRank_of_box hc (by rw [outputId]; omega), startRank_of_box hc' (by rw [inputId]; omega)]
    exact left_lt_right (u :: p)

end Ranks

end StringDiagram
