import Mathlib.Tactic.Abel
import StringDiagram.Proofs.Network.Walks

/-! # Counting walks

Where no walk comes back to an arrow it has used, each pair of nodes has a number of walks, and arrows
with these multiplicities are the only solution of one linear equation, `Solves`. The arrows are then
ranked: along a walk the ranks ascend, and ranks are bounded. -/
namespace StringDiagram.Network
variable {N M : Type} {meets meets' : N → N → Bool} {A B C E F T U : Multiset (N × N)}

def seq (meets : N → N → Bool) (A B : Multiset (N × N)) : Multiset (N × N) :=
  A.bind fun a => (B.filter fun b => meets a.2 b.1 = true).map fun b => (a.1, b.2)

section Seq

theorem mem_seq {x y : N} : (x, y) ∈ seq meets A B ↔
    ∃ z t, (x, z) ∈ A ∧ (t, y) ∈ B ∧ meets z t = true := by
  simp only [seq, Multiset.mem_bind, Multiset.mem_map, Multiset.mem_filter, Prod.mk.injEq, Prod.exists]
  constructor
  · rintro ⟨x', z, hA, t, y', ⟨hB, hm⟩, rfl, rfl⟩
    exact ⟨z, t, hA, hB, hm⟩
  · rintro ⟨z, t, hA, hB, hm⟩
    exact ⟨x, z, hA, t, y, ⟨hB, hm⟩, rfl, rfl⟩

theorem seq_eq_zero (h : ∀ a ∈ A, ∀ b ∈ B, meets a.2 b.1 = false) : seq meets A B = 0 := by
  rw [Multiset.eq_zero_iff_forall_notMem]
  rintro ⟨x, y⟩ hxy
  obtain ⟨z, t, hA, hB, hm⟩ := mem_seq.mp hxy
  simp [h _ hA _ hB] at hm

theorem seq_add_left (A B C : Multiset (N × N)) :
    seq meets (A + B) C = seq meets A C + seq meets B C := Multiset.add_bind ..

theorem seq_add_right (A B C : Multiset (N × N)) :
    seq meets A (B + C) = seq meets A B + seq meets A C := by
  simp only [seq, Multiset.filter_add, Multiset.map_add, Multiset.bind_add]

/-- Three parts in a row, whatever meets at the two places. -/
theorem seq_assoc (A B C : Multiset (N × N)) :
    seq meets' (seq meets A B) C = seq meets A (seq meets' B C) := by
  simp only [seq, Multiset.bind_assoc, Multiset.bind_map, Multiset.filter_bind, Multiset.map_bind,
    Multiset.filter_map, Multiset.map_map]
  apply Multiset.bind_congr
  intro a _
  induction B using Multiset.induction_on with
  | empty => rfl
  | cons b B ih =>
    rw [Multiset.cons_bind, ← ih, Multiset.filter_cons, Multiset.add_bind]
    cases hm : meets a.2 b.1 <;> simp [hm]

theorem seq_or (hd : ∀ y x, ¬ (meets y x = true ∧ meets' y x = true)) (A B : Multiset (N × N)) :
    seq (fun y x => meets y x || meets' y x) A B = seq meets A B + seq meets' A B := by
  simp only [seq, ← Multiset.bind_add, ← Multiset.map_add]
  refine Multiset.bind_congr fun a _ => congrArg _ ?_
  induction B using Multiset.induction_on with
  | empty => rfl
  | cons b B ih =>
    have h := hd a.2 b.1
    simp only [Multiset.filter_cons, ih]
    cases hm : meets a.2 b.1 <;> cases hm' : meets' a.2 b.1 <;> simp_all

theorem seq_map {f : N → M} {meets' : M → M → Bool}
    (hf : ∀ a ∈ A, ∀ b ∈ B, meets' (f a.2) (f b.1) = meets a.2 b.1) :
    seq meets' (A.map (Prod.map f f)) (B.map (Prod.map f f)) = (seq meets A B).map (Prod.map f f) := by
  simp only [seq, Multiset.bind_map, Multiset.map_bind, Multiset.filter_map, Multiset.map_map]
  apply Multiset.bind_congr
  intro a ha
  have hfilter : (B.filter fun b => meets' (f a.2) (f b.1) = true) =
      B.filter fun b => meets a.2 b.1 = true :=
    Multiset.filter_congr fun b hb => by rw [hf a ha b hb]
  simp only [Function.comp_def, Prod.map_fst, Prod.map_snd, hfilter]
  rfl

theorem seq_filter {p q : N → Bool} (hpq : ∀ y x, meets y x = true → q y = true ∧ p x = true)
    (A B : Multiset (N × N)) :
    (seq meets A B).filter (fun a => (p a.1 && q a.2) = true) =
      seq meets (A.filter fun a => (p a.1 && q a.2) = true) (B.filter fun a => (p a.1 && q a.2) = true) := by
  simp only [seq, Multiset.filter_bind, Multiset.bind_filter, Multiset.filter_map, Multiset.filter_filter]
  apply Multiset.bind_congr
  intro a _
  by_cases ha : p a.1 = true ∧ q a.2 = true
  · rw [if_pos (by simp [ha])]
    refine congrArg _ (Multiset.filter_congr fun b _ => ?_)
    have h := hpq a.2 b.1
    simp only [Function.comp_apply, Bool.and_eq_true]
    exact ⟨fun hb => ⟨hb.2, (h hb.2).2, hb.1.2⟩, fun hb => ⟨⟨ha.1, hb.2.2⟩, hb.1⟩⟩
  · rw [if_neg (by simpa using ha), Multiset.map_eq_zero, Multiset.filter_eq_nil]
    rintro b _ ⟨hb, hm⟩
    simp only [Function.comp_apply, Bool.and_eq_true] at hb
    exact ha ⟨hb.1, (hpq _ _ hm).1⟩

end Seq

/-- The arrows of `T` are those of `E` and the ways that go on from an arrow of `E` by one of `T`. -/
def Solves (meets : N → N → Bool) (E T : Multiset (N × N)) : Prop := T = E + seq meets E T

theorem Solves.eq (hT : Solves meets E T) : T = E + seq meets E T := hT

/-- Ranks for the nodes as starts and as ends of arrows. They ascend along every walk. -/
structure Ranked (meets : N → N → Bool) (E : Multiset (N × N)) (start finish : N → Nat)
    (bound : Nat) : Prop where
  arrow : ∀ a ∈ E, start a.1 ≤ finish a.2
  le : ∀ a ∈ E, finish a.2 ≤ bound
  meet : ∀ a ∈ E, ∀ b ∈ E, meets a.2 b.1 = true → finish a.2 < start b.1

section Ranks
variable {start finish : N → Nat} {bound : Nat}

theorem Ranked.walk (hr : Ranked meets E start finish bound) {x y : N} (h : Walk meets E x y) :
    start x ≤ finish y := by
  induction h with
  | arrow h => exact hr.arrow _ h
  | step h hm hw ih =>
    obtain ⟨z', hz⟩ := hw.first
    have h1 := hr.arrow _ h
    have h2 := hr.meet _ h _ hz hm
    dsimp only at h1 h2
    omega

/-- A walk of `k + 1` arrows from `E` starts so low that its first arrow leaves room for the others. -/
theorem Ranked.iterate (hr : Ranked meets E start finish bound) (k : Nat) {a : N × N}
    (ha : a ∈ (seq meets E)^[k + 1] T) : ∃ y, (a.1, y) ∈ E ∧ finish y + k ≤ bound := by
  induction k generalizing a with
  | zero =>
    obtain ⟨z, t, hz, -, -⟩ := mem_seq.mp ha
    exact ⟨z, hz, hr.le _ hz⟩
  | succ k ih =>
    rw [Function.iterate_succ_apply'] at ha
    obtain ⟨z, t, hz, ht, hm⟩ := mem_seq.mp ha
    obtain ⟨y, hy, hk⟩ := ih ht
    have h1 := hr.meet _ hz _ hy hm
    have h2 := hr.arrow _ hy
    refine ⟨z, hz, ?_⟩
    dsimp only at h1 h2
    omega

theorem Ranked.iterate_eq_zero (hr : Ranked meets E start finish bound) (T : Multiset (N × N)) :
    (seq meets E)^[bound + 2] T = 0 := by
  rw [Multiset.eq_zero_iff_forall_notMem]
  intro a ha
  obtain ⟨y, -, hy⟩ := hr.iterate (bound + 1) ha
  omega

/-- All solutions agree but for walks that are longer than any number. -/
theorem exists_solution_upTo (meets : N → N → Bool) (E : Multiset (N × N)) (k : Nat) :
    ∃ S, ∀ T, Solves meets E T → T = S + (seq meets E)^[k] T := by
  induction k with
  | zero => exact ⟨0, fun T _ => (zero_add T).symm⟩
  | succ k ih =>
    obtain ⟨S, hS⟩ := ih
    refine ⟨E + seq meets E S, fun T hT => ?_⟩
    rw [Function.iterate_succ_apply', add_assoc, ← seq_add_right, ← hS T hT]
    exact hT.eq

theorem Solves.unique (hr : Ranked meets E start finish bound) (hT : Solves meets E T)
    (hU : Solves meets E U) : T = U := by
  obtain ⟨S, hS⟩ := exists_solution_upTo meets E (bound + 2)
  rw [hS T hT, hS U hU, hr.iterate_eq_zero, hr.iterate_eq_zero]

end Ranks

/-- What follows a walk follows an arrow or a longer walk. -/
theorem Solves.seq_eq (hT : Solves meets E T) (A : Multiset (N × N)) :
    seq meets' T A = seq meets' E A + seq meets E (seq meets' T A) := by
  rw [← seq_assoc, ← seq_add_left]
  exact congrArg (fun X => seq meets' X A) hT.eq

theorem solves_self (h : ∀ a ∈ E, ∀ b ∈ E, meets a.2 b.1 = false) : Solves meets E E := by
  rw [Solves, seq_eq_zero h, add_zero]

/-- What is followed by arrows that all start at one node. -/
theorem seq_map_mk (T : Multiset (N × N)) (z : N) (L : Multiset N) :
    seq meets T (L.map (Prod.mk z)) =
      ((T.filter fun b => meets b.2 z = true).map Prod.fst) ×ˢ L := by
  induction T using Multiset.induction_on with
  | empty => rfl
  | cons b T ih =>
    rw [seq, Multiset.cons_bind, ← seq, ih, Multiset.filter_cons]
    cases hm : meets b.2 z <;> simp [hm, Multiset.filter_map]

def onward (meets : N → N → Bool) (T : Multiset (N × N)) (a : N × N) : Multiset (N × N) :=
  (ends meets T a.2).map (Prod.mk a.1)

theorem onward_eq (meets : N → N → Bool) (T : Multiset (N × N)) (a : N × N) :
    onward meets T a = {a} + seq meets {a} T := by
  rw [onward, ends, Multiset.map_cons, Multiset.map_map, seq, Multiset.singleton_bind,
    Multiset.singleton_add]
  rfl

theorem through_eq (meets : N → N → Bool) (T : Multiset (N × N)) (a : N × N) :
    through meets T a = onward meets T a + seq meets T (onward meets T a) := by
  rw [onward, seq_map_mk, through, starts, Multiset.cons_product]

/-- One more arrow, which no walk leads back to. -/
theorem Solves.absorb_one {a : N × N} (hT : Solves meets E T) (ha : meets a.2 a.1 = false)
    (hback : ∀ b ∈ T, ¬ (meets a.2 b.1 = true ∧ meets b.2 a.1 = true)) :
    Solves meets (a ::ₘ E) (T + through meets T a) := by
  have hstart : ∀ b ∈ onward meets T a, b.1 = a.1 := by
    intro b hb
    obtain ⟨y, -, rfl⟩ := Multiset.mem_map.mp hb
    rfl
  have hnext : seq meets {a} (onward meets T a) = 0 := by
    apply seq_eq_zero
    intro b hb c hc
    rw [Multiset.mem_singleton.mp hb, hstart c hc]
    exact ha
  have hloop : seq meets {a} (seq meets T (onward meets T a)) = 0 := by
    apply seq_eq_zero
    intro b hb c hc
    obtain ⟨z, t, hz, ht, hm⟩ := mem_seq.mp (show (c.1, c.2) ∈ _ from hc)
    rw [show t = a.1 from hstart _ ht] at hm
    rw [Multiset.mem_singleton.mp hb, Bool.eq_false_iff]
    exact fun hm' => hback _ hz ⟨hm', hm⟩
  rw [Solves, ← Multiset.singleton_add, seq_add_left, through_eq]
  simp only [seq_add_right, hnext, hloop, add_zero]
  calc T + (onward meets T a + seq meets T (onward meets T a))
      = (E + seq meets E T) + (({a} + seq meets {a} T) + (seq meets E (onward meets T a)
          + seq meets E (seq meets T (onward meets T a)))) := by
        rw [← hT.seq_eq, ← onward_eq, ← hT.eq]
    _ = _ := by abel

section Ranks
variable {start finish : N → Nat} {bound : Nat}

theorem Ranked.mono (hr : Ranked meets E start finish bound) (h : ∀ a ∈ F, a ∈ E) :
    Ranked meets F start finish bound :=
  ⟨fun a ha => hr.arrow a (h a ha), fun a ha => hr.le a (h a ha),
    fun a ha b hb => hr.meet a (h a ha) b (h b hb)⟩

theorem Solves.absorb (hT : Solves meets E T) (hw : Covers meets E T) (as : List (N × N))
    (hr : Ranked meets (E + as) start finish bound) :
    Solves meets (E + as) (absorb meets T as) := by
  induction as generalizing E T with
  | nil => simpa [Network.absorb] using hT
  | cons a as ih =>
    rw [← Multiset.cons_coe, Multiset.add_cons, ← Multiset.cons_add] at hr ⊢
    have ha : a ∈ a ::ₘ E + as := Multiset.mem_add.mpr (Or.inl (Multiset.mem_cons_self _ _))
    have hE : ∀ b ∈ E, b ∈ a ::ₘ E + as := fun b hb =>
      Multiset.mem_add.mpr (Or.inl (Multiset.mem_cons_of_mem hb))
    have hself : meets a.2 a.1 = false := by
      rw [Bool.eq_false_iff]
      intro hm
      have h1 := hr.arrow a ha
      have h2 := hr.meet a ha a ha hm
      omega
    refine ih (hT.absorb_one hself ?_) (hw.absorb_one a) hr
    rintro ⟨x, y⟩ hb ⟨hm, hm'⟩
    have hwalk := (hw x y).mp hb
    obtain ⟨y', hx⟩ := hwalk.first
    obtain ⟨x', hy⟩ := hwalk.last
    have h1 := hr.meet a ha _ (hE _ hx) hm
    have h2 := (hr.mono hE).walk hwalk
    have h3 := hr.meet _ (hE _ hy) a ha hm'
    have h4 := hr.arrow a ha
    dsimp only at h1 h3
    omega

end Ranks

theorem Solves.map {f : N → M} {meets' : M → M → Bool} (hT : Solves meets E T)
    (hf : ∀ a ∈ E, ∀ b ∈ T, meets' (f a.2) (f b.1) = meets a.2 b.1) :
    Solves meets' (E.map (Prod.map f f)) (T.map (Prod.map f f)) := by
  rw [Solves, seq_map hf, ← Multiset.map_add]
  exact congrArg _ hT

theorem Solves.of_meets (hT : Solves meets E T)
    (h : ∀ a ∈ E, ∀ b ∈ T, meets' a.2 b.1 = meets a.2 b.1) : Solves meets' E T := by
  simpa using hT.map (f := id) h

theorem Solves.add (hT : Solves meets E T) (hET : ∀ a ∈ E, ∀ b ∈ F, meets a.2 b.1 = false)
    (hF : ∀ a ∈ F, ∀ b ∈ T + F, meets a.2 b.1 = false) : Solves meets (E + F) (T + F) := by
  rw [Solves, seq_add_left, seq_add_right, seq_eq_zero hET, seq_eq_zero hF, add_zero, add_zero,
    add_right_comm, ← hT.eq]

theorem Solves.filter {p q : N → Bool} (hT : Solves meets E T)
    (hpq : ∀ y x, meets y x = true → q y = true ∧ p x = true) :
    Solves meets (E.filter fun a => (p a.1 && q a.2) = true)
      (T.filter fun a => (p a.1 && q a.2) = true) := by
  rw [Solves, ← seq_filter hpq, ← Multiset.filter_add]
  exact congrArg _ hT

/-- A solution may be found in two stages, as in `Covers.nest`. -/
theorem Solves.nest (hd : ∀ y x, ¬ (meets y x = true ∧ meets' y x = true)) (hT : Solves meets E T)
    (hU : Solves meets' T U) : Solves (fun y x => meets y x || meets' y x) E U := by
  rw [Solves, seq_or hd]
  calc U = T + seq meets' T U := hU.eq
    _ = (E + seq meets E T) + (seq meets' E U + seq meets E (seq meets' T U)) := by
      rw [← hT.seq_eq, ← hT.eq]
    _ = E + (seq meets E (T + seq meets' T U) + seq meets' E U) := by
      rw [seq_add_right]
      abel
    _ = E + (seq meets E U + seq meets' E U) := by rw [← hU.eq]

end StringDiagram.Network
