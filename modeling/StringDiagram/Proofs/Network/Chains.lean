import Mathlib.Data.Fintype.Basic
import Mathlib.Data.Set.Card
import Mathlib.Data.Set.Finite.List
import StringDiagram.Proofs.Network.Counts

/-! # Chains of links

The arrows of a network, each under a name of its own, so that two equal arrows are two. A chain lists
the names of the arrows that a walk follows. If no link leads back to itself there are finitely many
chains, and they are counted by the solution of the network: `Solves.countP_eq`. -/
namespace StringDiagram.Network
variable {N ι : Type} {meets : N → N → Bool} {link : ι → N × N}

def Linked (meets : N → N → Bool) (link : ι → N × N) (i j : ι) : Prop :=
  meets (link i).2 (link j).1 = true

def arrows [Fintype ι] (link : ι → N × N) : Multiset (N × N) := Finset.univ.val.map link

theorem mem_arrows [Fintype ι] {a : N × N} : a ∈ arrows link ↔ ∃ i, link i = a := by
  simp [arrows]

structure Chain (meets : N → N → Bool) (link : ι → N × N) (x y : N) (c : List ι) : Prop where
  linked : c.IsChain (Linked meets link)
  first : ∃ i, c.head? = some i ∧ (link i).1 = x
  last : ∃ i, c.getLast? = some i ∧ (link i).2 = y

/-- The ends of the chain with first link `c.1` and then `c.2`. -/
def chainEnds (link : ι → N × N) (c : ι × List ι) : N × N := ((link c.1).1, (link (c.2.getLastD c.1)).2)

theorem chain_cons_iff {x y : N} {i : ι} {c : List ι} : Chain meets link x y (i :: c) ↔
    (i :: c).IsChain (Linked meets link) ∧ chainEnds link (i, c) = (x, y) := by
  constructor
  · rintro ⟨hc, ⟨j, hj, hx⟩, ⟨k, hk, hy⟩⟩
    cases hj
    rw [List.getLast?_cons, Option.some.injEq, ← List.getLastD_eq_getLast?] at hk
    rw [chainEnds, hk]
    exact ⟨hc, Prod.ext hx hy⟩
  · rintro ⟨hc, he⟩
    have hx := congrArg Prod.fst he
    have hy := congrArg Prod.snd he
    refine ⟨hc, ⟨i, rfl, hx⟩, ⟨c.getLastD i, ?_, hy⟩⟩
    rw [List.getLast?_cons, List.getLastD_eq_getLast?]

theorem not_chain_nil {x y : N} : ¬ Chain meets link x y [] := by
  rintro ⟨-, ⟨i, hi, -⟩, -⟩
  simp at hi

theorem walk_iff_chain [Fintype ι] {x y : N} :
    Walk meets (arrows link) x y ↔ ∃ c, Chain meets link x y c := by
  constructor
  · intro h
    induction h with
    | arrow h =>
      obtain ⟨i, hi⟩ := mem_arrows.mp h
      exact ⟨[i], chain_cons_iff.mpr ⟨List.isChain_singleton i, hi⟩⟩
    | @step x y z t h hm _ ih =>
      obtain ⟨i, hi⟩ := mem_arrows.mp h
      obtain ⟨c, hc⟩ := ih
      cases c with
      | nil => exact absurd hc not_chain_nil
      | cons j c =>
        obtain ⟨hl, he⟩ := chain_cons_iff.mp hc
        refine ⟨i :: j :: c, chain_cons_iff.mpr ⟨List.isChain_cons_cons.mpr ⟨?_, hl⟩, ?_⟩⟩
        · have hz : (link j).1 = z := congrArg Prod.fst he
          rw [Linked, hi, hz]
          exact hm
        · have hy := congrArg Prod.snd he
          rw [chainEnds, hi, List.getLastD_cons]
          exact Prod.ext rfl hy
  · rintro ⟨c, hc⟩
    induction c generalizing x with
    | nil => exact absurd hc not_chain_nil
    | cons i c ih =>
      obtain ⟨hl, he⟩ := chain_cons_iff.mp hc
      have hx : (link i).1 = x := congrArg Prod.fst he
      cases c with
      | nil => exact .arrow (mem_arrows.mpr ⟨i, he⟩)
      | cons j c =>
        obtain ⟨hij, hl⟩ := List.isChain_cons_cons.mp hl
        have hy := congrArg Prod.snd he
        rw [chainEnds, List.getLastD_cons] at hy
        have hrest := ih (chain_cons_iff.mpr ⟨hl, Prod.ext rfl hy⟩)
        rw [← hx]
        exact .step (mem_arrows.mpr ⟨i, rfl⟩) hij hrest

/-- Along a chain the ranks ascend one by one at least. -/
theorem length_le_of_rank {R : ι → ι → Prop} {rank : ι → Nat} {bound : Nat}
    (hR : ∀ i j, R i j → rank i < rank j) (hb : ∀ i, rank i ≤ bound) {i : ι} {c : List ι}
    (h : (i :: c).IsChain R) : rank i + c.length ≤ bound := by
  induction c generalizing i with
  | nil => exact hb i
  | cons j c ih =>
    obtain ⟨hij, hc⟩ := List.isChain_cons_cons.mp h
    have h1 := hR i j hij
    have h2 := ih hc
    rw [List.length_cons]
    omega

/-- Links of which none leads back to itself can be ranked. -/
theorem exists_rank [Fintype ι] {R : ι → ι → Prop} (h : ∀ i, ¬ Relation.TransGen R i i) :
    ∃ rank : ι → Nat, (∀ i j, R i j → rank i < rank j) ∧ ∀ i, rank i ≤ Fintype.card ι := by
  classical
  let before := fun i => Finset.univ.filter fun j => Relation.TransGen R j i
  refine ⟨fun i => (before i).card, fun i j hij => ?_, fun i => Finset.card_le_univ _⟩
  refine Finset.card_lt_card (Finset.ssubset_iff_subset_ne.mpr ⟨fun k hk => ?_, fun heq => ?_⟩)
  · have hk := (Finset.mem_filter.mp hk).2
    exact Finset.mem_filter.mpr ⟨Finset.mem_univ k, hk.tail hij⟩
  · have hi : i ∈ before j := Finset.mem_filter.mpr ⟨Finset.mem_univ i, .single hij⟩
    rw [← heq] at hi
    exact h i (Finset.mem_filter.mp hi).2

theorem exists_ranked [Fintype ι] (h : ∀ i, ¬ Relation.TransGen (Linked meets link) i i) :
    ∃ start finish bound, Ranked meets (arrows link) start finish bound := by
  classical
  obtain ⟨rank, hlt, hle⟩ := exists_rank h
  let finish := fun y => (Finset.univ.filter fun i => (link i).2 = y).sup rank
  let start := fun x => (Finset.univ.filter fun i => meets (link i).2 x = true).sup fun i => rank i + 1
  refine ⟨start, finish, Fintype.card ι, ⟨?_, ?_, ?_⟩⟩
  · intro a ha
    obtain ⟨i, rfl⟩ := mem_arrows.mp ha
    apply Finset.sup_le
    intro j hj
    have h1 := hlt j i (Finset.mem_filter.mp hj).2
    have h2 : rank i ≤ finish (link i).2 :=
      Finset.le_sup (Finset.mem_filter.mpr ⟨Finset.mem_univ i, rfl⟩)
    omega
  · intro a _
    exact Finset.sup_le fun j _ => hle j
  · intro a ha b _ hm
    obtain ⟨i, rfl⟩ := mem_arrows.mp ha
    have hne : (Finset.univ.filter fun j => (link j).2 = (link i).2).Nonempty :=
      ⟨i, Finset.mem_filter.mpr ⟨Finset.mem_univ i, rfl⟩⟩
    obtain ⟨j, hj, hmax⟩ := Finset.exists_mem_eq_sup _ hne rank
    have hj := (Finset.mem_filter.mp hj).2
    have h1 : rank j + 1 ≤ start b.1 :=
      Finset.le_sup (f := fun i => rank i + 1)
        (Finset.mem_filter.mpr ⟨Finset.mem_univ j, by rw [hj]; exact hm⟩)
    have h2 : finish (link i).2 = rank j := hmax
    omega

section Count
variable [Fintype ι]

/-- If no link leads back to itself, there are finitely many chains. -/
theorem finite_chains (h : ∀ i, ¬ Relation.TransGen (Linked meets link) i i) :
    {c : ι × List ι | (c.1 :: c.2).IsChain (Linked meets link)}.Finite := by
  obtain ⟨rank, hlt, hle⟩ := exists_rank h
  have hfin : (Set.univ ×ˢ {c : List ι | c.length ≤ Fintype.card ι} : Set (ι × List ι)).Finite :=
    Set.finite_univ.prod (List.finite_length_le ι _)
  refine hfin.subset fun c hc => ⟨Set.mem_univ _, ?_⟩
  have hb := length_le_of_rank hlt hle hc
  exact Nat.le_of_add_left_le hb

/-- A chain is one link, or a link before a chain. -/
theorem chains_eq {P : Finset (ι × List ι)}
    (hP : ∀ c, c ∈ P ↔ (c.1 :: c.2).IsChain (Linked meets link)) :
    P.val = Finset.univ.val.map (fun i => (i, [])) + ((Finset.univ.val ×ˢ P.val).filter fun a =>
      meets (link a.1).2 (link a.2.1).1 = true).map fun a => (a.1, a.2.1 :: a.2.2) := by
  have hone : Function.Injective fun i : ι => ((i, []) : ι × List ι) := fun i j h =>
    congrArg Prod.fst h
  have hmore : Function.Injective fun a : ι × ι × List ι => (a.1, a.2.1 :: a.2.2) := by
    rintro ⟨i, j, c⟩ ⟨i', j', c'⟩ h
    simp only [Prod.mk.injEq, List.cons.injEq] at h
    rw [h.1, h.2.1, h.2.2]
  refine (Multiset.Nodup.ext P.nodup ?_).mpr ?_
  · refine Multiset.nodup_add.mpr ⟨Finset.univ.nodup.map hone, ?_, ?_⟩
    · exact ((Finset.univ.nodup.product P.nodup).filter _).map hmore
    · rw [Multiset.disjoint_left]
      intro c hc hc'
      obtain ⟨i, -, rfl⟩ := Multiset.mem_map.mp hc
      obtain ⟨a, -, ha⟩ := Multiset.mem_map.mp hc'
      simp at ha
  · rintro ⟨i, c⟩
    rw [Finset.mem_val, hP, Multiset.mem_add, Multiset.mem_map, Multiset.mem_map]
    cases c with
    | nil => simp
    | cons j c =>
      rw [List.isChain_cons_cons]
      constructor
      · rintro ⟨hij, hc⟩
        refine Or.inr ⟨(i, j, c), Multiset.mem_filter.mpr ⟨?_, hij⟩, rfl⟩
        exact Multiset.mem_product.mpr ⟨Finset.mem_univ_val i, (hP (j, c)).mpr hc⟩
      · rintro (⟨i', -, hi⟩ | ⟨a, ha, hi⟩)
        · simp at hi
        · obtain ⟨ha, hm⟩ := Multiset.mem_filter.mp ha
          obtain ⟨-, ha⟩ := Multiset.mem_product.mp ha
          simp only [Prod.mk.injEq, List.cons.injEq] at hi
          obtain ⟨rfl, rfl, rfl⟩ := hi
          exact ⟨hm, (hP _).mp ha⟩

theorem solves_chains {P : Finset (ι × List ι)}
    (hP : ∀ c, c ∈ P ↔ (c.1 :: c.2).IsChain (Linked meets link)) :
    Solves meets (arrows link) (P.val.map (chainEnds link)) := by
  have hends : ∀ a : ι × ι × List ι, chainEnds link (a.1, a.2.1 :: a.2.2) =
      ((link a.1).1, (chainEnds link a.2).2) := by
    intro a
    rw [chainEnds, chainEnds, List.getLastD_cons]
  rw [Solves]
  conv_lhs => rw [chains_eq hP]
  rw [Multiset.map_add, Multiset.map_map, Multiset.map_map, seq, arrows, Multiset.bind_map]
  congr 1
  change ((Multiset.bind _ _).filter _).map _ = _
  rw [Multiset.filter_bind, Multiset.map_bind]
  apply Multiset.bind_congr
  intro i _
  rw [Multiset.filter_map, Multiset.map_map, Multiset.filter_map, Multiset.map_map]
  exact Multiset.map_congr rfl fun a _ => hends (i, a)

/-- The arrows of the solution with a property are as many as the chains whose ends have it. -/
theorem Solves.countP_eq {T : Multiset (N × N)} (hT : Solves meets (arrows link) T)
    (h : ∀ i, ¬ Relation.TransGen (Linked meets link) i i) (p : N × N → Bool) :
    {c | ∃ x y, Chain meets link x y c ∧ p (x, y) = true}.Finite ∧
      T.countP (fun a => p a = true) = {c | ∃ x y, Chain meets link x y c ∧ p (x, y) = true}.ncard := by
  obtain ⟨start, finish, bound, hr⟩ := exists_ranked h
  have hfin := finite_chains h
  have hP : ∀ c, c ∈ hfin.toFinset ↔ (c.1 :: c.2).IsChain (Linked meets link) := fun c =>
    hfin.mem_toFinset
  have himage : {c | ∃ x y, Chain meets link x y c ∧ p (x, y) = true} =
      (fun c : ι × List ι => c.1 :: c.2) ''
        (hfin.toFinset.filter fun c => p (chainEnds link c) = true : Finset (ι × List ι)) := by
    ext c
    constructor
    · rintro ⟨x, y, hc, hp⟩
      cases c with
      | nil => exact absurd hc not_chain_nil
      | cons i c =>
        obtain ⟨hl, he⟩ := chain_cons_iff.mp hc
        refine ⟨(i, c), ?_, rfl⟩
        exact Finset.mem_coe.mpr (Finset.mem_filter.mpr ⟨(hP _).mpr hl, by rw [he]; exact hp⟩)
    · rintro ⟨⟨i, c⟩, hc, rfl⟩
      obtain ⟨hc, hp⟩ := Finset.mem_filter.mp (Finset.mem_coe.mp hc)
      exact ⟨_, _, chain_cons_iff.mpr ⟨(hP _).mp hc, rfl⟩, hp⟩
  have hinj : Function.Injective fun c : ι × List ι => c.1 :: c.2 := by
    rintro ⟨i, c⟩ ⟨j, c'⟩ heq
    simp only [List.cons.injEq] at heq
    rw [heq.1, heq.2]
  rw [himage]
  refine ⟨(Finset.finite_toSet _).image _, ?_⟩
  rw [Set.ncard_image_of_injective _ hinj, Set.ncard_coe_finset,
    hT.unique hr (solves_chains hP), Multiset.countP_map, Finset.card_def, Finset.filter_val]

end Count

end StringDiagram.Network
