import StringDiagram.Proofs.Network.Counts

/-! # Walks in two stages

A network in which arrows meet in two ways can be walked in two stages. The first finds the walks along
arrows that meet in the one way; some of these go, all nodes get other names, and the second stage takes
the rest for arrows. The walks it finds are those of the whole network, under their new names. -/
namespace StringDiagram.Network
variable {N M : Type} {meets meets' : N → N → Bool} {meets'' : M → M → Bool}
  {E T U : Multiset (N × N)} {V : Multiset (M × M)} {p q : N → Bool} {f : N → M}

theorem exists_covers (meets : N → N → Bool) (E : Multiset (N × N)) : ∃ T, Covers meets E T := by
  obtain ⟨as, rfl⟩ := Quot.exists_rep E
  have h : Covers meets 0 0 := covers_self fun a ha => absurd ha (Multiset.notMem_zero a)
  have has := h.absorb as
  rw [zero_add] at has
  exact ⟨_, has⟩

section Ranks
variable {start finish : N → Nat} {bound : Nat}

theorem exists_solution (hr : Ranked meets E start finish bound) :
    ∃ T, Covers meets E T ∧ Solves meets E T := by
  obtain ⟨as, rfl⟩ := Quot.exists_rep E
  have hr : Ranked meets (0 + (as : Multiset (N × N))) start finish bound := by rwa [zero_add]
  have hc : Covers meets 0 0 := covers_self fun a ha => absurd ha (Multiset.notMem_zero a)
  have hs : Solves meets 0 0 := rfl
  have hcs := hc.absorb as
  have hss := hs.absorb hc as hr
  rw [zero_add] at hcs hss
  exact ⟨_, hcs, hss⟩

theorem Ranked.left (hr : Ranked (fun y x => meets y x || meets' y x) E start finish bound) :
    Ranked meets E start finish bound :=
  ⟨hr.arrow, hr.le, fun a ha b hb hm => hr.meet a ha b hb (by simp [hm])⟩

/-- The walks of the first stage are ranked as the arrows are. -/
theorem Ranked.stage (hT : Covers meets E T)
    (hr : Ranked (fun y x => meets y x || meets' y x) E start finish bound) :
    Ranked meets' T start finish bound := by
  refine ⟨fun a ha => hr.left.walk ((hT _ _).mp ha), fun a ha => ?_, fun a ha b hb hm => ?_⟩
  · obtain ⟨x, hx⟩ := ((hT _ _).mp ha).last
    exact hr.le (x, a.2) hx
  · obtain ⟨x, hx⟩ := ((hT _ _).mp ha).last
    obtain ⟨y, hy⟩ := ((hT _ _).mp hb).first
    exact hr.meet (x, a.2) hx (b.1, y) hy (by simp [hm])

end Ranks

def stage (p q : N → Bool) (f : N → M) (T : Multiset (N × N)) : Multiset (M × M) :=
  (T.filter fun a => (p a.1 && q a.2) = true).map (Prod.map f f)

theorem mem_stage {a b : M} : (a, b) ∈ stage p q f T ↔
    ∃ x y, (x, y) ∈ T ∧ p x = true ∧ q y = true ∧ f x = a ∧ f y = b := by
  simp only [stage, Multiset.mem_map, Multiset.mem_filter, Bool.and_eq_true, Prod.exists, Prod.map_apply,
    Prod.mk.injEq]
  constructor
  · rintro ⟨x, y, ⟨h, hx, hy⟩, rfl, rfl⟩
    exact ⟨x, y, h, hx, hy, rfl, rfl⟩
  · rintro ⟨x, y, h, hx, hy, rfl, rfl⟩
    exact ⟨x, y, ⟨h, hx, hy⟩, rfl, rfl⟩

theorem stage_add (A B : Multiset (N × N)) : stage p q f (A + B) = stage p q f A + stage p q f B := by
  rw [stage, Multiset.filter_add, Multiset.map_add, ← stage, ← stage]

/-- What the second stage must keep: all nodes where arrows meet, and the way in which they meet. -/
structure Keeps (meets' : N → N → Bool) (meets'' : M → M → Bool) (p q : N → Bool) (f : N → M)
    (T : Multiset (N × N)) : Prop where
  nodes : ∀ y x, meets' y x = true → q y = true ∧ p x = true
  meets : ∀ a ∈ T, ∀ b ∈ T, q a.2 = true → p b.1 = true → meets'' (f a.2) (f b.1) = meets' a.2 b.1

theorem Covers.stage (hT : Covers meets E T) (hk : Keeps meets' meets'' p q f T)
    (hU : Covers (fun y x => meets y x || meets' y x) E U) (hV : Covers meets'' (stage p q f T) V)
    (a : M × M) : a ∈ V ↔ a ∈ Network.stage p q f U := by
  obtain ⟨W, hW⟩ := exists_covers meets' T
  have hWU := (hT.nest hW).mem_iff hU
  have hmap : Covers meets'' (Network.stage p q f T) (Network.stage p q f W) := by
    apply (hW.filter hk.nodes).map
    intro a ha b hb
    obtain ⟨ha, hpq⟩ := Multiset.mem_filter.mp ha
    obtain ⟨hb, hpq'⟩ := Multiset.mem_filter.mp hb
    rw [Bool.and_eq_true] at hpq hpq'
    exact hk.meets a ha b hb hpq.2 hpq'.1
  rw [hV.mem_iff hmap]
  obtain ⟨a, b⟩ := a
  simp only [mem_stage, hWU]

theorem Solves.stage (hc : Covers meets E T) (hT : Solves meets E T) (hk : Keeps meets' meets'' p q f T)
    (hd : ∀ y x, ¬ (meets y x = true ∧ meets' y x = true)) {start finish : N → Nat} {bound : Nat}
    (hr : Ranked (fun y x => meets y x || meets' y x) E start finish bound)
    (hU : Solves (fun y x => meets y x || meets' y x) E U) {start' finish' : M → Nat} {bound' : Nat}
    (hr' : Ranked meets'' (stage p q f T) start' finish' bound')
    (hV : Solves meets'' (Network.stage p q f T) V) : V = Network.stage p q f U := by
  obtain ⟨W, hcW, hW⟩ := exists_solution (hr.stage hc)
  have hWU : W = U := (Solves.nest hd hT hW).unique hr hU
  subst hWU
  have hmap : Solves meets'' (Network.stage p q f T) (Network.stage p q f W) := by
    apply (hW.filter hk.nodes).map
    intro a ha b hb
    obtain ⟨ha, hpq⟩ := Multiset.mem_filter.mp ha
    obtain ⟨hb, hpq'⟩ := Multiset.mem_filter.mp hb
    obtain ⟨y, hy⟩ := ((hcW _ _).mp (show (b.1, b.2) ∈ W from hb)).first
    rw [Bool.and_eq_true] at hpq hpq'
    exact hk.meets a ha (b.1, y) hy hpq.2 hpq'.1
  exact hV.unique hr' hmap

end StringDiagram.Network
