import Mathlib.Data.Multiset.Bind
import StringDiagram.Wire

/-! # Walks through a network

A network has arrows, each from a node to a node, and tells at which nodes the end of one arrow meets
the start of another. A walk follows arrows that meet. `absorb` adds arrows one after the other to the
ends of the walks found so far, and `Covers.absorb` says that it finds all walks, loops or not. -/
namespace StringDiagram.Network
variable {N M : Type} {meets meets' : N → N → Bool} {E F T U : Multiset (N × N)}

/-- From the start of an arrow to the end of an arrow, along arrows that meet. -/
inductive Walk (meets : N → N → Bool) (E : Multiset (N × N)) : N → N → Prop
  | arrow {x y : N} (h : (x, y) ∈ E) : Walk meets E x y
  | step {x y z t : N} (h : (x, y) ∈ E) (hm : meets y z = true) (hw : Walk meets E z t) :
    Walk meets E x t

namespace Walk
variable {x y z t : N}

theorem append (h : Walk meets E x y) (hm : meets y z = true) (h' : Walk meets E z t) :
    Walk meets E x t := by
  induction h with
  | arrow hxy => exact step hxy hm h'
  | step hxy hyz _ ih => exact step hxy hyz (ih hm)

theorem mono (hE : ∀ a ∈ E, a ∈ F) (hm : ∀ y x, meets y x = true → meets' y x = true)
    (h : Walk meets E x y) : Walk meets' F x y := by
  induction h with
  | arrow hxy => exact arrow (hE _ hxy)
  | step hxy hyz _ ih => exact step (hE _ hxy) (hm _ _ hyz) ih

theorem first (h : Walk meets E x y) : ∃ y', (x, y') ∈ E := by
  cases h with
  | arrow hxy => exact ⟨y, hxy⟩
  | step hxy _ _ => exact ⟨_, hxy⟩

theorem last (h : Walk meets E x y) : ∃ x', (x', y) ∈ E := by
  induction h with
  | arrow hxy => exact ⟨_, hxy⟩
  | step _ _ _ ih => exact ih

end Walk

/-- The arrows of `T` run between the ends of the walks, and between no other nodes. -/
def Covers (meets : N → N → Bool) (E T : Multiset (N × N)) : Prop :=
  ∀ x y, (x, y) ∈ T ↔ Walk meets E x y

theorem Covers.mem_iff (h : Covers meets E T) (h' : Covers meets E U) (a : N × N) :
    a ∈ T ↔ a ∈ U :=
  (h a.1 a.2).trans (h' a.1 a.2).symm

/-- It does not matter how often an arrow is there. -/
theorem Covers.congr (hT : Covers meets E T) (h : ∀ a, a ∈ E ↔ a ∈ F) : Covers meets F T := fun x y =>
  (hT x y).trans ⟨Walk.mono (fun a => (h a).mp) fun _ _ => id, Walk.mono (fun a => (h a).mpr) fun _ _ => id⟩

/-- Where no arrows meet, the walks are the arrows. -/
theorem covers_self (h : ∀ a ∈ E, ∀ b ∈ E, meets a.2 b.1 = false) : Covers meets E E := by
  intro x y
  refine ⟨Walk.arrow, fun hw => ?_⟩
  cases hw with
  | arrow hxy => exact hxy
  | step hxy hm hw =>
    obtain ⟨z', hz⟩ := hw.first
    simp [h _ hxy _ hz] at hm

def starts (meets : N → N → Bool) (T : Multiset (N × N)) (x : N) : Multiset N :=
  x ::ₘ (T.filter fun a => meets a.2 x = true).map Prod.fst

def ends (meets : N → N → Bool) (T : Multiset (N × N)) (y : N) : Multiset N :=
  y ::ₘ (T.filter fun a => meets y a.1 = true).map Prod.snd

def through (meets : N → N → Bool) (T : Multiset (N × N)) (a : N × N) : Multiset (N × N) :=
  starts meets T a.1 ×ˢ ends meets T a.2

def absorb (meets : N → N → Bool) (T : Multiset (N × N)) : List (N × N) → Multiset (N × N)
  | [] => T
  | a :: as => absorb meets (T + through meets T a) as

theorem mem_starts {x z : N} : z ∈ starts meets T x ↔ z = x ∨ ∃ y, (z, y) ∈ T ∧ meets y x = true := by
  simp [starts]

theorem mem_ends {y z : N} : z ∈ ends meets T y ↔ z = y ∨ ∃ x, (x, z) ∈ T ∧ meets y x = true := by
  simp [ends]

theorem mem_through {a : N × N} {x y : N} :
    (x, y) ∈ through meets T a ↔ x ∈ starts meets T a.1 ∧ y ∈ ends meets T a.2 :=
  Multiset.mem_product

/-- Every way through starts where an arrow starts and ends where one ends. -/
theorem through_forall {p q : N → Prop} {a : N × N} (hT : ∀ b ∈ T, p b.1 ∧ q b.2) (ha : p a.1 ∧ q a.2) :
    ∀ b ∈ T + through meets T a, p b.1 ∧ q b.2 := by
  rintro ⟨x, y⟩ hb
  rcases Multiset.mem_add.mp hb with hb | hb
  · exact hT _ hb
  · obtain ⟨hx, hy⟩ := mem_through.mp hb
    constructor
    · rcases mem_starts.mp hx with rfl | ⟨z, hz, -⟩
      · exact ha.1
      · exact (hT _ hz).1
    · rcases mem_ends.mp hy with rfl | ⟨z, hz, -⟩
      · exact ha.2
      · exact (hT _ hz).2

section One
variable {a : N × N} {x y z t : N}

/-- One arrow before: it continues a way found so far or one through the new arrow. -/
theorem Covers.extend (hT : Covers meets E T) (hxy : (x, y) ∈ a ::ₘ E) (hyz : meets y z = true)
    (hzt : (z, t) ∈ T + through meets T a) : (x, t) ∈ T + through meets T a := by
  rw [Multiset.mem_add, mem_through] at hzt ⊢
  rcases Multiset.mem_cons.mp hxy with rfl | hxy
  · refine Or.inr ⟨mem_starts.mpr (Or.inl rfl), ?_⟩
    rcases hzt with hzt | ⟨-, ht⟩
    · exact mem_ends.mpr (Or.inr ⟨z, hzt, hyz⟩)
    · exact ht
  · have hx : (x, y) ∈ T := (hT x y).mpr (.arrow hxy)
    rcases hzt with hzt | ⟨hz, ht⟩
    · exact Or.inl ((hT x t).mpr (.step hxy hyz ((hT z t).mp hzt)))
    · refine Or.inr ⟨mem_starts.mpr ?_, ht⟩
      rcases mem_starts.mp hz with rfl | ⟨z', hz', hm⟩
      · exact Or.inr ⟨y, hx, hyz⟩
      · exact Or.inr ⟨z', (hT x z').mpr (.step hxy hyz ((hT z z').mp hz')), hm⟩

theorem Covers.absorb_one (hT : Covers meets E T) (a : N × N) :
    Covers meets (a ::ₘ E) (T + through meets T a) := by
  have hold : ∀ {x y}, (x, y) ∈ T → Walk meets (a ::ₘ E) x y := fun h =>
    ((hT _ _).mp h).mono (fun _ => Multiset.mem_cons_of_mem) fun _ _ => id
  have hnew : Walk meets (a ::ₘ E) a.1 a.2 := .arrow (Multiset.mem_cons_self _ _)
  intro x y
  constructor
  · intro h
    rw [Multiset.mem_add, mem_through, mem_starts, mem_ends] at h
    rcases h with h | ⟨hx, hy⟩
    · exact hold h
    · have hx : Walk meets (a ::ₘ E) x a.2 := by
        rcases hx with rfl | ⟨x', hx, hm⟩
        · exact hnew
        · exact (hold hx).append hm hnew
      rcases hy with rfl | ⟨y', hy, hm⟩
      · exact hx
      · exact hx.append hm (hold hy)
  · intro h
    induction h with
    | arrow hxy =>
      rw [Multiset.mem_add, mem_through, hT]
      rcases Multiset.mem_cons.mp hxy with rfl | hxy
      · exact Or.inr ⟨mem_starts.mpr (Or.inl rfl), mem_ends.mpr (Or.inl rfl)⟩
      · exact Or.inl (.arrow hxy)
    | step hxy hyz _ ih => exact hT.extend hxy hyz ih

end One

theorem Covers.absorb (hT : Covers meets E T) (as : List (N × N)) :
    Covers meets (E + as) (absorb meets T as) := by
  induction as generalizing E T with
  | nil => simpa [Network.absorb] using hT
  | cons a as ih =>
    have h := ih (hT.absorb_one a)
    rwa [Multiset.cons_add, ← Multiset.add_cons, Multiset.cons_coe] at h

/-- A network looks the same after its nodes were renamed, if the same ends meet. -/
theorem Covers.map {f : N → M} {meets' : M → M → Bool} (hT : Covers meets E T)
    (hf : ∀ a ∈ E, ∀ b ∈ E, meets' (f a.2) (f b.1) = meets a.2 b.1) :
    Covers meets' (E.map (Prod.map f f)) (T.map (Prod.map f f)) := by
  intro p q
  have hmem : ∀ {A : Multiset (N × N)} {p q}, (p, q) ∈ A.map (Prod.map f f) ↔
      ∃ x y, (x, y) ∈ A ∧ f x = p ∧ f y = q := by
    intro A p q
    simp [Prod.ext_iff]
  rw [hmem]
  constructor
  · rintro ⟨x, y, hxy, rfl, rfl⟩
    have hw := (hT x y).mp hxy
    clear hxy
    induction hw with
    | arrow hxy => exact .arrow (hmem.mpr ⟨_, _, hxy, rfl, rfl⟩)
    | step hxy hm hw ih =>
      obtain ⟨z', hz⟩ := hw.first
      exact .step (hmem.mpr ⟨_, _, hxy, rfl, rfl⟩) ((hf _ hxy _ hz).trans hm) ih
  · intro hw
    induction hw with
    | arrow h =>
      obtain ⟨x, y, hxy, rfl, rfl⟩ := hmem.mp h
      exact ⟨x, y, (hT x y).mpr (.arrow hxy), rfl, rfl⟩
    | step h hm _ ih =>
      obtain ⟨x, y, hxy, rfl, rfl⟩ := hmem.mp h
      obtain ⟨z, t, hzt, rfl, rfl⟩ := ih
      have hw := (hT z t).mp hzt
      obtain ⟨z', hz⟩ := hw.first
      rw [hf _ hxy _ hz] at hm
      exact ⟨x, t, (hT x t).mpr (.step hxy hm hw), rfl, rfl⟩

theorem Covers.of_meets (hT : Covers meets E T)
    (h : ∀ a ∈ E, ∀ b ∈ E, meets' a.2 b.1 = meets a.2 b.1) : Covers meets' E T := by
  simpa using hT.map (f := id) h

/-- Arrows that meet none. -/
theorem Covers.add (hT : Covers meets E T)
    (hF : ∀ a ∈ F, ∀ b ∈ E + F, meets a.2 b.1 = false ∧ meets b.2 a.1 = false) :
    Covers meets (E + F) (T + F) := by
  intro x y
  rw [Multiset.mem_add, hT]
  constructor
  · rintro (h | h)
    · exact h.mono (fun _ ha => Multiset.mem_add.mpr (Or.inl ha)) fun _ _ => id
    · exact .arrow (Multiset.mem_add.mpr (Or.inr h))
  · intro hw
    induction hw with
    | arrow h => exact (Multiset.mem_add.mp h).imp .arrow id
    | step h hm hw ih =>
      obtain ⟨z', hz⟩ := hw.first
      rcases Multiset.mem_add.mp h with h | h
      · rcases ih with ih | ih
        · exact Or.inl (.step h hm ih)
        · simp [(hF _ ih _ (Multiset.mem_add.mpr (Or.inl h))).2] at hm
      · simp [(hF _ h _ hz).1] at hm

/-- Only arrows that stay among certain nodes, which all ends that meet are. -/
theorem Covers.filter {p q : N → Bool} (hT : Covers meets E T)
    (hpq : ∀ y x, meets y x = true → q y = true ∧ p x = true) :
    Covers meets (E.filter fun a => (p a.1 && q a.2) = true) (T.filter fun a => (p a.1 && q a.2) = true) := by
  intro x y
  rw [Multiset.mem_filter, hT, Bool.and_eq_true]
  constructor
  · rintro ⟨hw, hx, hy⟩
    dsimp only at hx hy
    induction hw with
    | arrow h => exact .arrow (Multiset.mem_filter.mpr ⟨h, by simp [hx, hy]⟩)
    | step h hm _ ih =>
      obtain ⟨hq, hp⟩ := hpq _ _ hm
      exact .step (Multiset.mem_filter.mpr ⟨h, by simp [hx, hq]⟩) hm (ih hp hy)
  · intro hw
    induction hw with
    | arrow h =>
      obtain ⟨h, hxy⟩ := Multiset.mem_filter.mp h
      exact ⟨.arrow h, Bool.and_eq_true_iff.mp hxy⟩
    | step h hm _ ih =>
      obtain ⟨h, hxy⟩ := Multiset.mem_filter.mp h
      exact ⟨.step h hm ih.1, (Bool.and_eq_true_iff.mp hxy).1, ih.2.2⟩

/-- Walks may be found in two stages, first where the ends meet in one way and then in the other. -/
theorem Covers.nest (hT : Covers meets E T) (hU : Covers meets' T U) :
    Covers (fun y x => meets y x || meets' y x) E U := by
  intro x y
  rw [hU]
  have hor : ∀ y x, meets y x = true → (meets y x || meets' y x) = true := fun y x h => by simp [h]
  have hor' : ∀ y x, meets' y x = true → (meets y x || meets' y x) = true := fun y x h => by simp [h]
  have hone : ∀ {x y}, (x, y) ∈ T → Walk (fun y x => meets y x || meets' y x) E x y := fun h =>
    ((hT _ _).mp h).mono (fun _ => id) hor
  constructor
  · intro hw
    induction hw with
    | arrow h => exact hone h
    | step h hm _ ih => exact (hone h).append (hor' _ _ hm) ih
  · intro hw
    induction hw with
    | arrow h => exact .arrow ((hT _ _).mpr (.arrow h))
    | step h hm _ ih =>
      rcases Bool.or_eq_true_iff.mp hm with hm | hm
      · cases ih with
        | arrow hzt => exact .arrow ((hT _ _).mpr (.step h hm ((hT _ _).mp hzt)))
        | step hzt hm' hw => exact .step ((hT _ _).mpr (.step h hm ((hT _ _).mp hzt))) hm' hw
      · exact .step ((hT _ _).mpr (.arrow h)) hm ih

end StringDiagram.Network
