import StringDiagram.Proofs.Network.Walks

/-! # Lines

Where no two arrows start together or end together, and no end meets two starts and no start two ends,
the arrows make lines and circles. Of the ways that `absorb` finds, one then leads along each line from
its first node to its last, whatever was found between: `Matched.absorb`. A circle has no first node. -/
namespace StringDiagram.Network
variable {N : Type} {meets : N → N → Bool} {E F T : Multiset (N × N)} {a : N × N} {x y : N}

def Initial (meets : N → N → Bool) (E : Multiset (N × N)) (x : N) : Prop := ∀ a ∈ E, meets a.2 x = false

def Final (meets : N → N → Bool) (E : Multiset (N × N)) (y : N) : Prop := ∀ a ∈ E, meets y a.1 = false

instance : DecidablePred (Initial meets E) := fun _ => Multiset.decidableForallMultiset

instance : DecidablePred (Final meets E) := fun _ => Multiset.decidableForallMultiset

/-- Arrows that neither fork nor join. -/
structure Unforked (meets : N → N → Bool) (E : Multiset (N × N)) : Prop where
  starts : (E.map Prod.fst).Nodup
  ends : (E.map Prod.snd).Nodup
  left : ∀ a ∈ E, ∀ b ∈ E, ∀ c ∈ E, meets a.2 c.1 = true → meets b.2 c.1 = true → a.2 = b.2
  right : ∀ a ∈ E, ∀ b ∈ E, ∀ c ∈ E, meets a.2 b.1 = true → meets a.2 c.1 = true → b.1 = c.1

theorem Unforked.mono (hF : Unforked meets F) (h : E ≤ F) : Unforked meets E where
  starts := Multiset.nodup_of_le (Multiset.map_le_map h) hF.starts
  ends := Multiset.nodup_of_le (Multiset.map_le_map h) hF.ends
  left a ha b hb c hc := hF.left a (Multiset.mem_of_le h ha) b (Multiset.mem_of_le h hb) c (Multiset.mem_of_le h hc)
  right a ha b hb c hc := hF.right a (Multiset.mem_of_le h ha) b (Multiset.mem_of_le h hb) c (Multiset.mem_of_le h hc)

def lines (meets : N → N → Bool) (E T : Multiset (N × N)) : Multiset (N × N) :=
  T.filter fun t => Initial meets E t.1 ∧ Final meets E t.2

/-- The lines match the first nodes with the last nodes, each with one. -/
structure Matched (meets : N → N → Bool) (E T : Multiset (N × N)) : Prop where
  within : ∀ t ∈ T, t.1 ∈ E.map Prod.fst ∧ t.2 ∈ E.map Prod.snd
  starts : (lines meets E T).map Prod.fst = (E.map Prod.fst).filter (Initial meets E)
  ends : (lines meets E T).map Prod.snd = (E.map Prod.snd).filter (Final meets E)

/-- Where no arrows meet, each is a line. -/
theorem matched_self (h : ∀ a ∈ E, ∀ b ∈ E, meets a.2 b.1 = false) : Matched meets E E := by
  have hlines : lines meets E E = E := Multiset.filter_eq_self.mpr fun t ht =>
    ⟨fun a ha => h a ha t ht, fun a ha => h t ht a ha⟩
  refine ⟨fun t ht => ⟨Multiset.mem_map_of_mem _ ht, Multiset.mem_map_of_mem _ ht⟩, ?_, ?_⟩
  · rw [hlines, Multiset.filter_eq_self.mpr]
    intro x hx
    obtain ⟨t, ht, rfl⟩ := Multiset.mem_map.mp hx
    exact fun a ha => h a ha t ht
  · rw [hlines, Multiset.filter_eq_self.mpr]
    intro x hx
    obtain ⟨t, ht, rfl⟩ := Multiset.mem_map.mp hx
    exact fun a ha => h t ht a ha

section Mirror

def mirror (E : Multiset (N × N)) : Multiset (N × N) := E.map Prod.swap

abbrev turned (meets : N → N → Bool) : N → N → Bool := fun y x => meets x y

theorem mem_mirror : a ∈ mirror E ↔ a.swap ∈ E := by
  rw [mirror, Multiset.mem_map]
  exact ⟨fun ⟨b, hb, h⟩ => by rwa [← h, Prod.swap_swap], fun h => ⟨_, h, Prod.swap_swap a⟩⟩

theorem map_fst_mirror (E : Multiset (N × N)) : (mirror E).map Prod.fst = E.map Prod.snd := by
  simp [mirror, Multiset.map_map]

theorem map_snd_mirror (E : Multiset (N × N)) : (mirror E).map Prod.snd = E.map Prod.fst := by
  simp [mirror, Multiset.map_map]

theorem forall_mirror {p : N × N → Prop} : (∀ a ∈ mirror E, p a) ↔ ∀ a ∈ E, p a.swap :=
  Multiset.forall_mem_map_iff

theorem initial_mirror : Initial (turned meets) (mirror E) x ↔ Final meets E x := forall_mirror

theorem final_mirror : Final (turned meets) (mirror E) x ↔ Initial meets E x := forall_mirror

theorem lines_mirror (E T : Multiset (N × N)) :
    lines (turned meets) (mirror E) (mirror T) = mirror (lines meets E T) := by
  rw [lines, show mirror T = T.map Prod.swap from rfl, Multiset.filter_map]
  refine congrArg mirror (Multiset.filter_congr fun t _ => ?_)
  simp only [Function.comp_apply, Prod.fst_swap, Prod.snd_swap, initial_mirror, final_mirror, and_comm]

theorem starts_mirror (T : Multiset (N × N)) (y : N) : starts (turned meets) (mirror T) y = ends meets T y := by
  simp [starts, ends, mirror, Multiset.filter_map]

theorem ends_mirror (T : Multiset (N × N)) (x : N) : ends (turned meets) (mirror T) x = starts meets T x := by
  simp [starts, ends, mirror, Multiset.filter_map]

theorem matched_mirror (h : Matched meets E T) : Matched (turned meets) (mirror E) (mirror T) := by
  refine ⟨forall_mirror.mpr fun t ht => ?_, ?_, ?_⟩
  · rw [map_fst_mirror, map_snd_mirror]
    exact (h.within t ht).symm
  · rw [lines_mirror, map_fst_mirror, map_fst_mirror, h.ends]
    exact Multiset.filter_congr fun x _ => initial_mirror.symm
  · rw [lines_mirror, map_snd_mirror, map_snd_mirror, h.starts]
    exact Multiset.filter_congr fun x _ => final_mirror.symm

theorem unforked_mirror (h : Unforked meets E) : Unforked (turned meets) (mirror E) where
  starts := map_fst_mirror E ▸ h.ends
  ends := map_snd_mirror E ▸ h.starts
  left _ ha _ hb _ hc hac hbc :=
    h.right _ (mem_mirror.mp hc) _ (mem_mirror.mp ha) _ (mem_mirror.mp hb) hac hbc
  right _ ha _ hb _ hc hab hac :=
    h.left _ (mem_mirror.mp hb) _ (mem_mirror.mp hc) _ (mem_mirror.mp ha) hab hac

end Mirror

section Step

def Closes (meets : N → N → Bool) (E T : Multiset (N × N)) (a : N × N) : Prop :=
  meets a.2 a.1 = true ∨ ∃ t ∈ lines meets E T, meets t.2 a.1 = true ∧ meets a.2 t.1 = true

theorem initial_cons : Initial meets (a ::ₘ E) x ↔ meets a.2 x = false ∧ Initial meets E x :=
  Multiset.forall_mem_cons

theorem final_cons : Final meets (a ::ₘ E) y ↔ meets y a.1 = false ∧ Final meets E y :=
  Multiset.forall_mem_cons

/-- What goes on where the new arrow starts goes on nowhere else. -/
theorem Unforked.final (hE : Unforked meets (a ::ₘ E)) {b : N × N} (hb : b ∈ E) (hm : meets b.2 a.1 = true) :
    Final meets E b.2 := by
  intro c hc
  rw [Bool.eq_false_iff]
  intro hmc
  have hac := hE.right b (Multiset.mem_cons_of_mem hb) a (Multiset.mem_cons_self a E) c
    (Multiset.mem_cons_of_mem hc) hm hmc
  have hn := hE.starts
  rw [Multiset.map_cons, Multiset.nodup_cons, hac] at hn
  exact hn.1 (Multiset.mem_map_of_mem _ hc)

/-- A multiset whose members are told apart by what is the same for all has one member at most. -/
theorem eq_zero_or_singleton {M : Type} {R : Multiset M} {g : M → N} (hR : (R.map g).Nodup)
    (h : ∀ r ∈ R, ∀ r' ∈ R, g r = g r') : R = 0 ∨ ∃ r, R = {r} := by
  rcases R.empty_or_exists_mem with h0 | ⟨r, hr⟩
  · exact Or.inl h0
  · obtain ⟨R', rfl⟩ := Multiset.exists_cons_of_mem hr
    refine Or.inr ⟨r, ?_⟩
    rw [Multiset.map_cons, Multiset.nodup_cons] at hR
    have hR' : R' = 0 := by
      apply Multiset.eq_zero_of_forall_notMem
      intro r' hr'
      exact hR.1 (h r hr r' (Multiset.mem_cons_of_mem hr') ▸ Multiset.mem_map_of_mem g hr')
    rw [hR', Multiset.cons_zero]

def before (meets : N → N → Bool) (E T : Multiset (N × N)) (x : N) : Multiset (N × N) :=
  (lines meets E T).filter fun t => meets t.2 x = true

theorem mem_before {t : N × N} : t ∈ before meets E T x ↔ t ∈ lines meets E T ∧ meets t.2 x = true :=
  Multiset.mem_filter

theorem mem_lines {t : N × N} : t ∈ lines meets E T ↔ t ∈ T ∧ Initial meets E t.1 ∧ Final meets E t.2 :=
  Multiset.mem_filter

theorem Matched.exists_last (h : Matched meets E T) {t : N × N} (ht : t ∈ T) : ∃ b ∈ E, b.2 = t.2 :=
  Multiset.mem_map.mp (h.within t ht).2

/-- There is at most one, and if there is none no arrow ends there. -/
theorem Matched.before_cases (hE : Unforked meets (a ::ₘ E)) (h : Matched meets E T) :
    before meets E T a.1 = 0 ∧ Initial meets E a.1 ∨
      ∃ t, before meets E T a.1 = {t} ∧ ¬ Initial meets E a.1 := by
  have hlast : ∀ t ∈ before meets E T a.1, ∃ b ∈ E, b.2 = t.2 := fun t ht =>
    h.exists_last (mem_lines.mp (mem_before.mp ht).1).1
  have hnodup : ((before meets E T a.1).map Prod.snd).Nodup := by
    refine Multiset.nodup_of_le (Multiset.map_le_map (Multiset.filter_le _ _)) ?_
    rw [h.ends]
    exact (hE.mono (Multiset.le_cons_self E a)).ends.filter _
  have hsame : ∀ r ∈ before meets E T a.1, ∀ r' ∈ before meets E T a.1, r.2 = r'.2 := by
    intro r hr r' hr'
    obtain ⟨b, hb, hbr⟩ := hlast r hr
    obtain ⟨b', hb', hbr'⟩ := hlast r' hr'
    rw [← hbr, ← hbr']
    refine hE.left b (Multiset.mem_cons_of_mem hb) b' (Multiset.mem_cons_of_mem hb') a
      (Multiset.mem_cons_self a E) ?_ ?_
    · exact hbr ▸ (mem_before.mp hr).2
    · exact hbr' ▸ (mem_before.mp hr').2
  rcases eq_zero_or_singleton hnodup hsame with h0 | ⟨t, ht⟩
  · refine Or.inl ⟨h0, fun b hb => ?_⟩
    rw [Bool.eq_false_iff]
    intro hm
    have hmem : b.2 ∈ (lines meets E T).map Prod.snd := by
      rw [h.ends]
      exact Multiset.mem_filter.mpr ⟨Multiset.mem_map_of_mem _ hb, hE.final hb hm⟩
    obtain ⟨t, ht, htb⟩ := Multiset.mem_map.mp hmem
    have ht : t ∈ before meets E T a.1 := mem_before.mpr ⟨ht, htb ▸ hm⟩
    rw [h0] at ht
    exact Multiset.notMem_zero t ht
  · have htm : t ∈ before meets E T a.1 := ht ▸ Multiset.mem_singleton_self t
    obtain ⟨b, hb, hbt⟩ := hlast t htm
    refine Or.inr ⟨t, ht, fun hi => ?_⟩
    have hm := hbt ▸ hi b hb
    rw [(mem_before.mp htm).2] at hm
    cases hm

/-- The starts that the new arrow gives: its own, or that of the line before it. -/
theorem starts_filter (hE : Unforked meets (a ::ₘ E)) (h : Matched meets E T) :
    (starts meets T a.1).filter (Initial meets (a ::ₘ E)) =
      ({a.1} : Multiset N).filter (Initial meets (a ::ₘ E)) +
        ((before meets E T a.1).filter fun t => meets a.2 t.1 = false).map Prod.fst := by
  rw [starts, ← Multiset.singleton_add a.1, Multiset.filter_add, Multiset.filter_map, before, lines]
  congr 2
  simp only [Multiset.filter_filter]
  refine Multiset.filter_congr fun t ht => ?_
  simp only [Function.comp_apply, initial_cons]
  constructor
  · rintro ⟨⟨hm, hi⟩, hx⟩
    obtain ⟨b, hb, hbt⟩ := h.exists_last ht
    exact ⟨hm, hx, hi, hbt ▸ hE.final hb (hbt ▸ hx)⟩
  · rintro ⟨hm, hx, hi, -⟩
    exact ⟨⟨hm, hi⟩, hx⟩

/-- The new arrow makes a line longer or a new line, unless it makes a circle. -/
theorem card_starts (hE : Unforked meets (a ::ₘ E)) (h : Matched meets E T)
    [Decidable (Closes meets E T a)] : ((starts meets T a.1).filter (Initial meets (a ::ₘ E))).card =
      if Closes meets E T a then 0 else 1 := by
  rw [starts_filter hE h, Multiset.card_add, Multiset.card_map]
  by_cases hself : meets a.2 a.1 = true
  · have hnone : before meets E T a.1 = 0 := by
      apply Multiset.eq_zero_of_forall_notMem
      intro t ht
      obtain ⟨htl, hm⟩ := mem_before.mp ht
      obtain ⟨b, hb, hbt⟩ := h.exists_last (mem_lines.mp htl).1
      have hba := hE.left b (Multiset.mem_cons_of_mem hb) a (Multiset.mem_cons_self a E) a
        (Multiset.mem_cons_self a E) (hbt ▸ hm) hself
      have hn := hE.ends
      rw [Multiset.map_cons, Multiset.nodup_cons, ← hba] at hn
      exact hn.1 (Multiset.mem_map_of_mem _ hb)
    have hclose : Closes meets E T a := Or.inl hself
    rw [if_pos hclose, hnone, Multiset.filter_singleton, if_neg (by simp [initial_cons, hself])]
    rfl
  · rw [Bool.not_eq_true] at hself
    rcases h.before_cases hE with ⟨h0, hi⟩ | ⟨t, ht, hi⟩
    · have hopen : ¬ Closes meets E T a := by
        rintro (hm | ⟨t, ht, hm, -⟩)
        · rw [hself] at hm
          cases hm
        · exact Multiset.notMem_zero t (h0 ▸ mem_before.mpr ⟨ht, hm⟩)
      rw [if_neg hopen, h0, Multiset.filter_singleton, if_pos (initial_cons.mpr ⟨hself, hi⟩)]
      rfl
    · have hclose : Closes meets E T a ↔ meets a.2 t.1 = true := by
        constructor
        · rintro (hm | ⟨t', ht', hm, hm'⟩)
          · rw [hself] at hm
            cases hm
          · have hmem : t' ∈ before meets E T a.1 := mem_before.mpr ⟨ht', hm⟩
            rw [ht, Multiset.mem_singleton] at hmem
            exact hmem ▸ hm'
        · intro hm
          obtain ⟨htl, htm⟩ := mem_before.mp (ht ▸ Multiset.mem_singleton_self t)
          exact Or.inr ⟨t, htl, htm, hm⟩
      rw [ht, Multiset.filter_singleton, if_neg (by simp [initial_cons, hi]), Multiset.filter_singleton]
      simp only [hclose]
      cases meets a.2 t.1 <;> rfl

theorem closes_mirror : Closes (turned meets) (mirror E) (mirror T) a.swap ↔ Closes meets E T a := by
  unfold Closes
  refine or_congr Iff.rfl ?_
  constructor
  · rintro ⟨t, ht, hm, hm'⟩
    rw [lines_mirror, mem_mirror] at ht
    exact ⟨t.swap, ht, hm', hm⟩
  · rintro ⟨t, ht, hm, hm'⟩
    exact ⟨t.swap, by rwa [lines_mirror, mem_mirror, Prod.swap_swap], hm', hm⟩

theorem filter_product (p q : N → Prop) [DecidablePred p] [DecidablePred q] (A B : Multiset N) :
    (A ×ˢ B).filter (fun t => p t.1 ∧ q t.2) = A.filter p ×ˢ B.filter q := by
  induction A using Multiset.induction_on with
  | empty => rfl
  | cons a A ih =>
    rw [Multiset.cons_product, Multiset.filter_add, ih, Multiset.filter_map, Multiset.filter_cons]
    by_cases ha : p a <;> simp [ha]

/-- The lines after one more arrow: those that it leaves alone, and one if it makes no circle. -/
theorem lines_absorb_one (a : N × N) (E T : Multiset (N × N)) :
    lines meets (a ::ₘ E) (T + through meets T a) =
      (lines meets E T).filter (fun t => meets a.2 t.1 = false ∧ meets t.2 a.1 = false) +
        (starts meets T a.1).filter (Initial meets (a ::ₘ E)) ×ˢ
          (ends meets T a.2).filter (Final meets (a ::ₘ E)) := by
  rw [lines, Multiset.filter_add, through, filter_product, lines, Multiset.filter_filter]
  congr 1
  refine Multiset.filter_congr fun t _ => ?_
  rw [initial_cons, final_cons]
  tauto

theorem unforked_cons_mirror (hE : Unforked meets (a ::ₘ E)) :
    Unforked (turned meets) (a.swap ::ₘ mirror E) := by
  have h := unforked_mirror hE
  rwa [mirror, Multiset.map_cons] at h

theorem card_ends (hE : Unforked meets (a ::ₘ E)) (h : Matched meets E T) [Decidable (Closes meets E T a)] :
    ((ends meets T a.2).filter (Final meets (a ::ₘ E))).card = if Closes meets E T a then 0 else 1 := by
  classical
  have hcard := card_starts (unforked_cons_mirror hE) (matched_mirror h)
  have hfinal : ∀ y, Initial (turned meets) (a.swap ::ₘ mirror E) y ↔ Final meets (a ::ₘ E) y := by
    intro y
    rw [initial_cons, final_cons, initial_mirror]
    rfl
  rw [Prod.fst_swap, starts_mirror, Multiset.filter_congr fun y _ => hfinal y] at hcard
  simpa only [closes_mirror] using hcard

/-- The starts of the lines after one more arrow. -/
theorem starts_absorb_one (hE : Unforked meets (a ::ₘ E)) (h : Matched meets E T) :
    (lines meets (a ::ₘ E) (T + through meets T a)).map Prod.fst =
      ((a ::ₘ E).map Prod.fst).filter (Initial meets (a ::ₘ E)) := by
  classical
  have hproduct : ((starts meets T a.1).filter (Initial meets (a ::ₘ E)) ×ˢ
      (ends meets T a.2).filter (Final meets (a ::ₘ E))).map Prod.fst =
        (starts meets T a.1).filter (Initial meets (a ::ₘ E)) := by
    have hs := card_starts hE h
    have he := card_ends hE h
    by_cases hc : Closes meets E T a
    · rw [if_pos hc, Multiset.card_eq_zero] at hs
      rw [hs]
      rfl
    · rw [if_neg hc, Multiset.card_eq_one] at he
      obtain ⟨y, hy⟩ := he
      rw [hy, ← Multiset.cons_zero, Multiset.product_cons, Multiset.product_zero, add_zero, Multiset.map_map]
      exact Multiset.map_id _
  have hkeep : (E.map Prod.fst).filter (Initial meets (a ::ₘ E)) =
      ((lines meets E T).filter fun t => meets a.2 t.1 = false).map Prod.fst := by
    have hsplit : ∀ x ∈ E.map Prod.fst, Initial meets (a ::ₘ E) x ↔ meets a.2 x = false ∧ Initial meets E x :=
      fun x _ => initial_cons
    rw [Multiset.filter_congr hsplit, ← Multiset.filter_filter, ← h.starts, Multiset.filter_map]
    rfl
  rw [lines_absorb_one, Multiset.map_add, hproduct, starts_filter hE h, Multiset.map_cons,
    ← Multiset.singleton_add a.1, Multiset.filter_add, hkeep, add_left_comm, ← Multiset.map_add]
  refine congrArg (fun L => _ + Multiset.map Prod.fst L) ?_
  have hmeet := Multiset.filter_add_not (fun t => meets t.2 a.1 = true)
    ((lines meets E T).filter fun t => meets a.2 t.1 = false)
  rw [← hmeet, add_comm, before]
  simp only [Multiset.filter_filter, Bool.not_eq_true, and_comm]

theorem through_mirror (T : Multiset (N × N)) (a : N × N) :
    mirror (T + through meets T a) = mirror T + through (turned meets) (mirror T) a.swap := by
  rw [mirror, Multiset.map_add, through, Multiset.map_swap_product, through, Prod.fst_swap, Prod.snd_swap,
    starts_mirror, ends_mirror]
  rfl

/-- The ends of the lines, which are the starts in the other direction. -/
theorem ends_absorb_one (hE : Unforked meets (a ::ₘ E)) (h : Matched meets E T) :
    (lines meets (a ::ₘ E) (T + through meets T a)).map Prod.snd =
      ((a ::ₘ E).map Prod.snd).filter (Final meets (a ::ₘ E)) := by
  have hcons : mirror (a ::ₘ E) = a.swap ::ₘ mirror E := Multiset.map_cons _ _ _
  have hstarts := starts_absorb_one (unforked_cons_mirror hE) (matched_mirror h)
  rw [← through_mirror, ← hcons, lines_mirror, map_fst_mirror, map_fst_mirror] at hstarts
  exact hstarts.trans (Multiset.filter_congr fun y _ => initial_mirror)

theorem Matched.absorb_one (hE : Unforked meets (a ::ₘ E)) (h : Matched meets E T) :
    Matched meets (a ::ₘ E) (T + through meets T a) := by
  refine ⟨?_, starts_absorb_one hE h, ends_absorb_one hE h⟩
  rw [Multiset.map_cons, Multiset.map_cons]
  exact through_forall
    (fun t ht => (h.within t ht).imp Multiset.mem_cons_of_mem Multiset.mem_cons_of_mem)
    ⟨Multiset.mem_cons_self _ _, Multiset.mem_cons_self _ _⟩

/-- There is one way along each line when all arrows are absorbed. -/
theorem Matched.absorb (h : Matched meets E T) (as : List (N × N)) (hE : Unforked meets (E + as)) :
    Matched meets (E + as) (absorb meets T as) := by
  induction as generalizing E T with
  | nil => simpa [Network.absorb] using h
  | cons a as ih =>
    rw [← Multiset.cons_coe, Multiset.add_cons, ← Multiset.cons_add] at hE ⊢
    exact ih (h.absorb_one (hE.mono (Multiset.le_add_right _ _))) hE

end Step

section Rename
variable {M : Type} {meets' : M → M → Bool} {f : N → M}

theorem through_map (hf : ∀ y x, meets' (f y) (f x) = meets y x) (T : Multiset (N × N)) (a : N × N) :
    (through meets T a).map (Prod.map f f) = through meets' (T.map (Prod.map f f)) (Prod.map f f a) := by
  have hproduct : ∀ A B : Multiset N, (A ×ˢ B).map (Prod.map f f) = A.map f ×ˢ B.map f := by
    intro A B
    induction A using Multiset.induction_on with
    | empty => rfl
    | cons a A ih =>
      rw [Multiset.cons_product, Multiset.map_add, ih, Multiset.map_cons, Multiset.cons_product,
        Multiset.map_map, Multiset.map_map]
      rfl
  rw [through, hproduct, through]
  simp [starts, ends, Multiset.filter_map, hf]

/-- The same ways are found under other names, if the same nodes meet. -/
theorem absorb_map (hf : ∀ y x, meets' (f y) (f x) = meets y x) (T : Multiset (N × N)) (as : List (N × N)) :
    (absorb meets T as).map (Prod.map f f) =
      absorb meets' (T.map (Prod.map f f)) (as.map (Prod.map f f)) := by
  induction as generalizing T with
  | nil => rfl
  | cons a as ih => rw [absorb, ih, Multiset.map_add, through_map hf, List.map_cons, absorb]

end Rename

end StringDiagram.Network
