import StringDiagram.Proofs.Network.Chains

/-! # The order in which arrows are absorbed

Two arrows absorbed one after the other give the same ways in either order, but for the ways that pass
one of them, then the other and then the first again: `absorb_swap`. So the order is seen only where a
walk comes back to an arrow after another one, and there in the number of ways: `absorb_perm`. -/
namespace StringDiagram.Network
variable {N : Type} {meets : N → N → Bool} {A B E T : Multiset (N × N)} {a b : N × N}

def Follows (meets : N → N → Bool) (E T : Multiset (N × N)) : Prop := ∀ a ∈ T, Walk meets E a.1 a.2

def Leads (meets : N → N → Bool) (E : Multiset (N × N)) (a b : N × N) : Prop :=
  meets a.2 b.1 = true ∨ ∃ x y, meets a.2 x = true ∧ Walk meets E x y ∧ meets y b.1 = true

section Follows

theorem Follows.add_through (hT : Follows meets E T) (ha : a ∈ E) :
    Follows meets E (T + through meets T a) := by
  have hw : Walk meets E a.1 a.2 := .arrow ha
  intro c hc
  rcases Multiset.mem_add.mp hc with hc | hc
  · exact hT c hc
  · obtain ⟨hs, ht⟩ := mem_through.mp hc
    have hstart : Walk meets E c.1 a.2 := by
      rcases mem_starts.mp hs with h | ⟨y, hy, hm⟩
      · rwa [h]
      · exact (hT _ hy).append hm hw
    rcases mem_ends.mp ht with h | ⟨x, hx, hm⟩
    · rwa [h]
    · exact hstart.append hm (hT _ hx)

theorem Follows.leads_left (hT : Follows meets E T) {c : N × N} (hc : c ∈ through meets T a)
    (hm : meets c.2 b.1 = true) : Leads meets E a b := by
  rcases mem_ends.mp (mem_through.mp hc).2 with h | ⟨x, hx, hax⟩
  · exact Or.inl (h ▸ hm)
  · exact Or.inr ⟨x, c.2, hax, hT _ hx, hm⟩

theorem Follows.leads_right (hT : Follows meets E T) {c : N × N} (hc : c ∈ through meets T a)
    (hm : meets b.2 c.1 = true) : Leads meets E b a := by
  rcases mem_starts.mp (mem_through.mp hc).1 with h | ⟨y, hy, hya⟩
  · exact Or.inl (h ▸ hm)
  · exact Or.inr ⟨c.1, y, hm, hT _ hy, hya⟩

end Follows

section Swap

def back (meets : N → N → Bool) (T : Multiset (N × N)) (a b : N × N) : Multiset (N × N) :=
  seq meets (through meets T a) (seq meets {b} (through meets T a))

theorem back_eq_zero (hT : Follows meets E T) (h : ¬ (Leads meets E a b ∧ Leads meets E b a)) :
    back meets T a b = 0 := by
  rw [Multiset.eq_zero_iff_forall_notMem]
  rintro ⟨x, y⟩ hxy
  obtain ⟨z, t, hz, ht, hm⟩ := mem_seq.mp hxy
  obtain ⟨z', t', hz', ht', hm'⟩ := mem_seq.mp ht
  cases Multiset.mem_singleton.mp hz'
  exact h ⟨hT.leads_left hz hm, hT.leads_right ht' hm'⟩

theorem through_expand (meets : N → N → Bool) (T : Multiset (N × N)) (a : N × N) : through meets T a =
    {a} + seq meets {a} T + (seq meets T {a} + seq meets T (seq meets {a} T)) := by
  rw [through_eq, onward_eq, seq_add_right]

/-- The ways through `b` and then `a`, cut before or after the stretch between them. -/
theorem seq_through (meets : N → N → Bool) (T : Multiset (N × N)) (a b : N × N) :
    seq meets {b} (through meets T a) + seq meets T (seq meets {b} (through meets T a)) =
      seq meets (through meets T b) {a} + seq meets (through meets T b) (seq meets {a} T) := by
  simp only [through_expand, seq_add_left, seq_add_right, seq_assoc]
  abel

theorem absorb_pair (meets : N → N → Bool) (T : Multiset (N × N)) (a b : N × N) :
    T + through meets T a + through meets (T + through meets T a) b =
      T + through meets T a + through meets T b +
        (seq meets (through meets T a) {b} + seq meets (through meets T a) (seq meets {b} T)) +
        (seq meets (through meets T b) {a} + seq meets (through meets T b) (seq meets {a} T)) +
        back meets T a b := by
  rw [← seq_through meets T a b, through_expand meets (T + through meets T a), through_expand meets T b, back]
  simp only [seq_add_left, seq_add_right]
  abel

/-- Two arrows that do not lead to each other in a circle are absorbed in either order. -/
theorem absorb_swap (hT : Follows meets E T) (h : a ≠ b → ¬ (Leads meets E a b ∧ Leads meets E b a))
    (as : List (N × N)) : absorb meets T (a :: b :: as) = absorb meets T (b :: a :: as) := by
  rcases eq_or_ne a b with rfl | hne
  · rfl
  · rw [absorb, absorb, absorb, absorb, absorb_pair, absorb_pair, back_eq_zero hT (h hne),
      back_eq_zero hT fun hba => h hne hba.symm]
    congr 1
    abel

theorem absorb_perm {as bs : List (N × N)} (hp : as.Perm bs) (hT : Follows meets E T) (has : ∀ a ∈ as, a ∈ E)
    (h : ∀ a ∈ as, ∀ b ∈ as, a ≠ b → ¬ (Leads meets E a b ∧ Leads meets E b a)) :
    absorb meets T as = absorb meets T bs := by
  induction hp generalizing T with
  | nil => rfl
  | cons a _ ih =>
    exact ih (hT.add_through (has a List.mem_cons_self)) (fun b hb => has b (List.mem_cons_of_mem a hb))
      fun b hb c hc => h b (List.mem_cons_of_mem a hb) c (List.mem_cons_of_mem a hc)
  | swap a b as =>
    exact absorb_swap hT (h b List.mem_cons_self a (List.mem_cons_of_mem b List.mem_cons_self)) as
  | trans hp _ ih ih' =>
    rw [ih hT has h]
    exact ih' hT (fun a ha => has a (hp.mem_iff.mpr ha)) fun a ha b hb =>
      h a (hp.mem_iff.mpr ha) b (hp.mem_iff.mpr hb)

end Swap

section Within
variable {X Y : N → Prop}

/-- The nodes of `X`, and those where a walk from one of them is continued. -/
def Entered (meets : N → N → Bool) (E : Multiset (N × N)) (X : N → Prop) (x : N) : Prop :=
  X x ∨ ∃ z t, X z ∧ Walk meets E z t ∧ meets t x = true

def Exited (meets : N → N → Bool) (E : Multiset (N × N)) (Y : N → Prop) (y : N) : Prop :=
  Y y ∨ ∃ z t, meets y z = true ∧ Walk meets E z t ∧ Y t

theorem Entered.step (hA : Follows meets E A) (ha : a ∈ A) (h : Entered meets E X a.1) {x : N}
    (hm : meets a.2 x = true) : Entered meets E X x := by
  rcases h with h | ⟨z, t, hz, hw, hm'⟩
  · exact Or.inr ⟨a.1, a.2, h, hA a ha, hm⟩
  · exact Or.inr ⟨z, a.2, hz, hw.append hm' (hA a ha), hm⟩

theorem Exited.step (hA : Follows meets E A) (ha : a ∈ A) (h : Exited meets E Y a.2) {y : N}
    (hm : meets y a.1 = true) : Exited meets E Y y := by
  rcases h with h | ⟨z, t, hm', hw, hz⟩
  · exact Or.inr ⟨a.1, a.2, hm, hA a ha, h⟩
  · exact Or.inr ⟨a.1, t, hm, (hA a ha).append hm' hw, hz⟩

open Classical in
noncomputable def within (meets : N → N → Bool) (E : Multiset (N × N)) (X Y : N → Prop)
    (A : Multiset (N × N)) : Multiset (N × N) :=
  A.filter fun a => Entered meets E X a.1 ∧ Exited meets E Y a.2

theorem mem_within : a ∈ within meets E X Y A ↔
    a ∈ A ∧ Entered meets E X a.1 ∧ Exited meets E Y a.2 := by
  classical
  exact Multiset.mem_filter

theorem within_add (A B : Multiset (N × N)) :
    within meets E X Y (A + B) = within meets E X Y A + within meets E X Y B := by
  classical
  exact Multiset.filter_add ..

theorem within_seq (hA : Follows meets E A) (hB : Follows meets E B) :
    within meets E X Y (seq meets A B) = seq meets (within meets E X Y A) (within meets E X Y B) := by
  classical
  simp only [within, seq, Multiset.filter_bind, Multiset.bind_filter, Multiset.filter_map,
    Multiset.filter_filter]
  refine Multiset.bind_congr fun a ha => ?_
  have hboth : ∀ b ∈ B, meets a.2 b.1 = true → Entered meets E X a.1 → Exited meets E Y b.2 →
      Exited meets E Y a.2 ∧ Entered meets E X b.1 := fun b hb hm hx hy =>
    ⟨hy.step hB hb hm, hx.step hA ha hm⟩
  split_ifs with h
  · refine congrArg _ (Multiset.filter_congr fun b hb => ?_)
    constructor
    · rintro ⟨⟨hx, hy⟩, hm⟩
      exact ⟨hm, (hboth b hb hm hx hy).2, hy⟩
    · rintro ⟨hm, -, hy⟩
      exact ⟨⟨h.1, hy⟩, hm⟩
  · rw [Multiset.map_eq_zero, Multiset.filter_eq_nil]
    intro b hb hm
    have hb := hboth b hb hm.2 hm.1.1 hm.1.2
    exact h ⟨hm.1.1, hb.1⟩

theorem within_through (hT : Follows meets E T) (ha : a ∈ E) : within meets E X Y (through meets T a) =
    (within meets E X Y {a}).bind fun a => through meets (within meets E X Y T) a := by
  classical
  have hone : Follows meets E {a} := fun c hc => .arrow (Multiset.mem_singleton.mp hc ▸ ha)
  have hnext : Follows meets E (seq meets {a} T) := by
    rintro ⟨x, y⟩ hc
    obtain ⟨z, t, hz, ht, hm⟩ := mem_seq.mp hc
    exact (hone _ hz).append hm (hT _ ht)
  rw [through_expand, within_add, within_add, within_add, within_seq hone hT, within_seq hT hone,
    within_seq hT hnext, within_seq hone hT]
  by_cases h : Entered meets E X a.1 ∧ Exited meets E Y a.2
  · have hin : within meets E X Y {a} = {a} := by simp [within, Multiset.filter_singleton, h]
    rw [hin, Multiset.singleton_bind, through_expand]
  · have hout : within meets E X Y {a} = 0 := by simp [within, Multiset.filter_singleton, h]
    simp [hout, seq]

open Classical in
/-- The ways from `X` to `Y` are found among the arrows that are part of one. -/
theorem within_absorb (hT : Follows meets E T) {as : List (N × N)} (has : ∀ a ∈ as, a ∈ E) :
    within meets E X Y (absorb meets T as) = absorb meets (within meets E X Y T)
      (as.filter fun a => Entered meets E X a.1 ∧ Exited meets E Y a.2) := by
  induction as generalizing T with
  | nil => rfl
  | cons a as ih =>
    have ha := has a List.mem_cons_self
    rw [absorb, ih (hT.add_through ha) fun b hb => has b (List.mem_cons_of_mem a hb), within_add,
      within_through hT ha, List.filter_cons]
    by_cases h : Entered meets E X a.1 ∧ Exited meets E Y a.2
    · have hin : within meets E X Y {a} = {a} := by simp [within, Multiset.filter_singleton, h]
      rw [hin, Multiset.singleton_bind, if_pos (by simpa using h), absorb]
    · have hout : within meets E X Y {a} = 0 := by simp [within, Multiset.filter_singleton, h]
      rw [hout, Multiset.zero_bind, add_zero, if_neg (by simpa using h)]

/-- Where no way from `X` to `Y` passes an arrow, then a different one and then the first again, the ways
are found as often in either order. -/
theorem countP_absorb {as bs : List (N × N)} (hp : as.Perm bs) (hT : Follows meets E T)
    (has : ∀ a ∈ as, a ∈ E) {p : N × N → Bool} (hpX : ∀ c, p c = true → X c.1 ∧ Y c.2)
    (h : ∀ a ∈ as, ∀ b ∈ as, a ≠ b → Entered meets E X a.1 → Exited meets E Y a.2 →
      ¬ (Leads meets E a b ∧ Leads meets E b a)) :
    (absorb meets T as).countP (fun c => p c = true) = (absorb meets T bs).countP fun c => p c = true := by
  classical
  have hcount : ∀ A, A.countP (fun c => p c = true) =
      (within meets E X Y A).countP fun c => p c = true := by
    intro A
    rw [within, Multiset.countP_filter]
    refine Multiset.countP_congr rfl fun c _ => propext ⟨fun hc => ⟨hc, ?_⟩, fun hc => hc.1⟩
    exact ⟨Or.inl (hpX c hc).1, Or.inl (hpX c hc).2⟩
  have hwithin : Follows meets E (within meets E X Y T) := fun c hc => hT c (mem_within.mp hc).1
  rw [hcount, hcount (absorb meets T bs), within_absorb hT has,
    within_absorb hT fun b hb => has b (hp.mem_iff.mpr hb),
    absorb_perm (hp.filter _) hwithin fun a ha => has a (List.mem_of_mem_filter ha)]
  intro a ha b hb hne
  obtain ⟨ha, hx⟩ := List.mem_filter.mp ha
  obtain ⟨hx, hy⟩ := of_decide_eq_true hx
  exact h a ha b (List.mem_of_mem_filter hb) hne hx hy

end Within

section Chain
variable {ι : Type} [Fintype ι] {link : ι → N × N} {X Y : N → Prop} {x y z t : N} {i j : ι} {c c' : List ι}

omit [Fintype ι] in
theorem Chain.append (h : Chain meets link x y c) (hm : meets y z = true) (h' : Chain meets link z t c') :
    Chain meets link x t (c ++ c') := by
  obtain ⟨i, hi, hx⟩ := h.first
  obtain ⟨j, hj, hy⟩ := h.last
  obtain ⟨k, hk, hz⟩ := h'.first
  obtain ⟨l, hl, ht⟩ := h'.last
  refine ⟨List.isChain_append.mpr ⟨h.linked, h'.linked, ?_⟩, ⟨i, by simp [hi], hx⟩, ⟨l, by simp [hl], ht⟩⟩
  intro a ha b hb
  obtain rfl : a = j := Option.some.inj (ha.symm.trans hj)
  obtain rfl : b = k := Option.some.inj (hb.symm.trans hk)
  rw [Linked, hy, hz]
  exact hm

omit [Fintype ι] in
theorem chain_singleton (meets : N → N → Bool) (link : ι → N × N) (i : ι) :
    Chain meets link (link i).1 (link i).2 [i] :=
  ⟨List.isChain_singleton i, ⟨i, rfl, rfl⟩, ⟨i, rfl, rfl⟩⟩

theorem Chain.lead (h : Chain meets link x (link i).2 c) (hl : Leads meets (arrows link) (link i) (link j)) :
    ∃ c', Chain meets link x (link j).2 (c ++ c' ++ [j]) := by
  have hj := chain_singleton meets link j
  rcases hl with hm | ⟨z, t, hm, hw, hm'⟩
  · exact ⟨[], by simpa using h.append hm hj⟩
  · obtain ⟨c', hc'⟩ := walk_iff_chain.mp hw
    exact ⟨c', (h.append hm hc').append hm' hj⟩

theorem Entered.exists_chain (h : Entered meets (arrows link) X (link i).1) :
    ∃ x c, X x ∧ Chain meets link x (link i).2 (c ++ [i]) := by
  have hi := chain_singleton meets link i
  rcases h with h | ⟨z, t, hz, hw, hm⟩
  · exact ⟨_, [], h, hi⟩
  · obtain ⟨c, hc⟩ := walk_iff_chain.mp hw
    exact ⟨z, c, hz, hc.append hm hi⟩

theorem Exited.exists_chain (hy : Exited meets (arrows link) Y (link i).2)
    (h : Chain meets link x (link i).2 c) : ∃ y c', Y y ∧ Chain meets link x y (c ++ c') := by
  rcases hy with hy | ⟨z, t, hm, hw, ht⟩
  · exact ⟨_, [], hy, by simpa using h⟩
  · obtain ⟨c', hc'⟩ := walk_iff_chain.mp hw
    exact ⟨t, c', ht, h.append hm hc'⟩

/-- Two links that lead to each other are on one chain, the one before and after the other. -/
theorem exists_chain_back (hx : Entered meets (arrows link) X (link i).1)
    (hy : Exited meets (arrows link) Y (link i).2) (hij : Leads meets (arrows link) (link i) (link j))
    (hji : Leads meets (arrows link) (link j) (link i)) :
    ∃ x y c, X x ∧ Y y ∧ Chain meets link x y c ∧ [i, j, i].Sublist c := by
  obtain ⟨x, c₀, hx, h₀⟩ := hx.exists_chain
  obtain ⟨c₁, h₁⟩ := h₀.lead hij
  obtain ⟨c₂, h₂⟩ := h₁.lead hji
  obtain ⟨y, c₃, hy, h₃⟩ := hy.exists_chain h₂
  have hi : [i].Sublist (c₀ ++ [i]) := List.sublist_append_right c₀ [i]
  have hj : [i, j].Sublist (c₀ ++ [i] ++ c₁ ++ [j]) :=
    (hi.trans (List.sublist_append_left _ c₁)).append (List.Sublist.refl [j])
  have hi' : [i, j, i].Sublist (c₀ ++ [i] ++ c₁ ++ [j] ++ c₂ ++ [i]) :=
    (hj.trans (List.sublist_append_left _ c₂)).append (List.Sublist.refl [i])
  exact ⟨x, y, _, hx, hy, h₃, hi'.trans (List.sublist_append_left _ c₃)⟩

end Chain

end StringDiagram.Network
