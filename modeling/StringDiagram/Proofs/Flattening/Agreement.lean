import Mathlib.Logic.Function.Basic
import StringDiagram.Proofs.Flattening.Progress

/-! # The same layers, opened in another order

Two diagrams that came from one by opening the same layers are the same up to the numbers of their boxes and
up to the copies of what the layers refer to: `Progress.exists_mirror`. -/
namespace StringDiagram
open Diagram Network

/-- The diagrams are the same up to the numbers `σ` of their boxes, and references that `ρ` tells apart. -/
structure Diagram.Mirrors (σ : Nat → Nat) (ρ : Ref → Ref) (d d' : Diagram) : Prop where
  renumbers : (d.rename ρ).Renumbers σ d'
  boundary : σ inputId = inputId ∧ σ outputId = outputId
  boxes : ∀ n b, d.boxes.get? n = some b → d'.boxes.get? (σ n) = some (b.rename ρ)
  apart : Set.InjOn ρ {r | r ∈ d.refs}

namespace Connector
variable {c : Connector} {σ : Nat → Nat} {f g ρ : Ref → Ref} {n m : Nat} {r : Ref}

theorem refs_withBox (h : r ∈ (c.withBox (.ofNat n)).toValue.refs) : r ∈ c.toValue.refs := by
  simp only [withBox, toValue, Value.refs, List.mem_append] at h ⊢
  rcases h with (h | h) | h
  · cases h
  · exact Or.inl (Or.inr h)
  · exact Or.inr h

theorem refs_renumber (h : r ∈ (c.renumber σ).toValue.refs) : r ∈ c.toValue.refs := by
  unfold renumber at h
  split at h
  · split at h
    · exact h
    · exact refs_withBox h
  · exact h

theorem refs_rename (f : Ref → Ref) (c : Connector) : (c.rename f).toValue.refs = c.toValue.refs.map f :=
  Value.refs_rename f c.toValue

theorem rename_congr (h : ∀ r ∈ c.toValue.refs, f r = g r) : c.rename f = c.rename g := by
  have hvalue : (c.rename f).toValue = (c.rename g).toValue := Value.rename_congr c.toValue h
  simpa [toValue, rename] using hvalue

theorem rename_withBox (ρ : Ref → Ref) (c : Connector) (n : Nat) :
    (c.withBox (.ofNat n)).rename ρ = (c.rename ρ).withBox (.ofNat n) := rfl

end Connector

section Named
variable {ν₁ ν₂ : Path → Nat} {φ₁ φ₂ : Path → Ref → Ref} {σ : Nat → Nat} {ρ : Ref → Ref} {a : Site} {n : Nat}

/-- The two names of one connector. -/
theorem named_eq (hn : a.2.box.boxId? = some n) (hσ : ∀ n, n ≤ outputId → σ n = n)
    (hν : ¬ n ≤ outputId → σ (ν₁ (n :: a.1)) = ν₂ (n :: a.1))
    (hρ : ∀ r ∈ a.2.toValue.refs, ρ (φ₁ a.1 r) = φ₂ a.1 r) :
    named ν₂ φ₂ a = ((named ν₁ φ₁ a).rename ρ).renumber σ := by
  have hbox : ∀ f, (a.2.rename f).box.boxId? = some n := fun f => (Value.boxId?_rename f _).trans hn
  have hcopy : (a.2.rename (φ₁ a.1)).rename ρ = a.2.rename (φ₂ a.1) := by
    rw [Connector.rename_rename]
    exact Connector.rename_congr hρ
  by_cases hle : n ≤ outputId
  · have hlow : ∀ ν, numberAt ν a.1 n = n := fun ν => if_pos hle
    rw [named, Connector.renumber_eq_self (hbox _) (hlow _), named,
      Connector.renumber_eq_self (hbox _) (hlow _), hcopy, Connector.renumber_eq_self (hbox _) (hσ n hle)]
  · have h2 : 2 ≤ n := Nat.lt_of_not_le hle
    rw [named, Connector.renumber_eq_withBox (hbox _) h2, numberAt, if_neg hle, named,
      Connector.renumber_eq_withBox (hbox _) h2, numberAt, if_neg hle, Connector.rename_withBox, hcopy,
      Connector.renumber_withBox, hν hle]

/-- What is left of the walks under the two names. -/
theorem remaining_eq {L : Finset Path} {U : Multiset (Site × Site)} (h : ∀ a ∈ U,
    (kept L a.1 = true → named ν₂ φ₂ a.1 = ((named ν₁ φ₁ a.1).rename ρ).renumber σ) ∧
      (kept L a.2 = true → named ν₂ φ₂ a.2 = ((named ν₁ φ₁ a.2).rename ρ).renumber σ)) :
    remaining L ν₂ φ₂ U = (remaining L ν₁ φ₁ U).map fun w => (w.rename ρ).renumber σ :=
  outcome_congr (g := fun c => (c.rename ρ).renumber σ) (fun _ _ => rfl) (fun _ _ => rfl)
    (fun a ha => (h a ha).1) fun a ha => (h a ha).2

end Named

namespace Progress
variable {s t t₁ t₂ : Store} {host : Ref} {d₀ d d₁ d₂ : Diagram} {L : Finset Path} {ν ν₁ ν₂ : Path → Nat}
  {φ φ₁ φ₂ : Path → Ref → Ref} {x y : Path} {q q' r : Ref} {b : Value}

/-- What is at the boundary of the unfolding was copied with a diagram. -/
theorem exists_owner (h : s.Nest host d₀) (ht : s.Subtree host L) (hx : x ∈ border (s.layerAt host) L)
    (hb : s.boxAt (.ref host) x = some b) : ∃ y ∈ s.known host L, (∀ q ∈ b.refs, s.Past host (s.rootsAt host y) q) ∧
      ∀ t d ν φ, Progress s host L t d ν φ → φ x = φ y := by
  have hborder := hx
  obtain ⟨-, u, p, rfl, hp, -⟩ := hx
  rcases Store.Nest.nested_or_leaf hb with hn | hl
  · refine ⟨u :: p, ⟨Or.inr hborder, Or.inr hn⟩, fun q hq => .of_mem ?_, fun _ _ _ _ _ => rfl⟩
    rwa [Store.Nest.rootsAt_eq hb]
  · obtain ⟨r, e, hr, he, hu⟩ := Store.boxAt_cons_eq_some.mp hb
    exact ⟨p, ⟨Or.inl hp, ht.nested p hp⟩, fun q hq => h.past_of_box ⟨hr, he⟩ hu hq,
      fun _ _ _ _ hp => hp.leaf u p hborder hl⟩

/-- What is one thing in the first diagram is one in the second. -/
theorem copy_eq (hp₁ : Progress s host L t₁ d₁ ν₁ φ₁) (hp₂ : Progress s host L t₂ d₂ ν₂ φ₂)
    (hx : x ∈ s.known host L) (hy : y ∈ s.known host L) (hq : s.Past host (s.rootsAt host x) q)
    (hq' : s.Past host (s.rootsAt host y) q') (he : φ₁ x q = φ₁ y q') : φ₂ x q = φ₂ y q' := by
  rcases eq_or_ne x y with rfl | hne
  · rw [(hp₁.carried x hx.1).inj q q' hq hq' he]
  · -- copies of different diagrams are different, so that neither was copied
    have hshort : ¬ (2 ≤ x.length ∨ 2 ≤ y.length) := fun hlen => hp₁.apart x hx y hy hne hlen q q' hq hq' he
    have hx1 : x.length ≤ 1 := by omega
    have hy1 : y.length ≤ 1 := by omega
    rw [hp₁.shallow x hx1, hp₁.shallow y hy1] at he
    rw [hp₂.shallow x hx1, hp₂.shallow y hy1, he]

theorem exists_refs (hp₁ : Progress s host L t₁ d₁ ν₁ φ₁) (hp₂ : Progress s host L t₂ d₂ ν₂ φ₂) :
    ∃ ρ : Ref → Ref, ∀ x ∈ s.known host L, ∀ q, s.Past host (s.rootsAt host x) q → ρ (φ₁ x q) = φ₂ x q := by
  let S : Set (Path × Ref) := {a | a.1 ∈ s.known host L ∧ s.Past host (s.rootsAt host a.1) a.2}
  have hfactor : Function.FactorsThrough (S.domRestrict fun a => φ₂ a.1 a.2) (S.domRestrict fun a => φ₁ a.1 a.2) :=
    fun a b he => hp₁.copy_eq hp₂ a.2.1 b.2.1 a.2.2 b.2.2 he
  obtain ⟨ρ, hρ⟩ := (Function.factorsThrough_iff _).mp hfactor
  exact ⟨ρ, fun x hx q hq => (congrFun hρ ⟨(x, q), hx, hq⟩).symm⟩

theorem exists_numbers (hp₁ : Progress s host L t₁ d₁ ν₁ φ₁) (hp₂ : Progress s host L t₂ d₂ ν₂ φ₂) :
    ∃ σ : Nat → Nat, (∀ n, n ≤ outputId → σ n = n) ∧ (∀ x ∈ border (s.layerAt host) L, σ (ν₁ x) = ν₂ x) ∧
      Set.BijOn σ {n | n ∈ d₁.boxes.keys} {n | n ∈ d₂.boxes.keys} := by
  let S := border (s.layerAt host) L
  have hfactor : Function.FactorsThrough (S.domRestrict ν₂) (S.domRestrict ν₁) := fun x y he =>
    congrArg ν₂ (hp₁.number.injOn x.2 y.2 he)
  obtain ⟨τ, hτ⟩ := (Function.factorsThrough_iff _).mp hfactor
  have hσ : ∀ x ∈ S, (fun n => if n ≤ outputId then n else τ n) (ν₁ x) = ν₂ x := by
    intro x hx
    have h2 : ¬ ν₁ x ≤ outputId := Nat.not_le_of_lt (hp₁.consistent.two_le (hp₁.number.mapsTo hx))
    exact (if_neg h2).trans (congrFun hτ ⟨x, hx⟩).symm
  refine ⟨fun n => if n ≤ outputId then n else τ n, fun n hn => if_pos hn, hσ, fun n hn => ?_,
    fun n hn m hm he => ?_, fun n hn => ?_⟩
  · obtain ⟨x, hx, rfl⟩ := hp₁.number.surjOn hn
    rw [hσ x hx]
    exact hp₂.number.mapsTo hx
  · obtain ⟨x, hx, rfl⟩ := hp₁.number.surjOn hn
    obtain ⟨y, hy, rfl⟩ := hp₁.number.surjOn hm
    rw [hσ x hx, hσ y hy] at he
    rw [hp₂.number.injOn hx hy he]
  · obtain ⟨x, hx, rfl⟩ := hp₂.number.surjOn hn
    exact ⟨ν₁ x, hp₁.number.mapsTo hx, hσ x hx⟩

/-- Whatever the diagram refers to is a copy of something that a layer refers to. -/
theorem exists_copy (hp : Progress s host L t d ν φ) (h : s.Nest host d₀) (hr : r ∈ d.refs) :
    ∃ x ∈ s.known host L, ∃ q, s.Past host (s.rootsAt host x) q ∧ φ x q = r := by
  have hroot : ∀ {r}, r ∈ (s.layerAt host []).refs → ∃ x ∈ s.known host L, ∃ q,
      s.Past host (s.rootsAt host x) q ∧ φ x q = r := fun hr =>
    ⟨[], ⟨Or.inl hp.tree.root, Or.inl rfl⟩, _, .of_mem hr, by rw [hp.shallow [] (by simp)]; rfl⟩
  have hsite : ∀ {i a}, Opened.At (s.layerAt host) L i a → ∀ {r}, r ∈ (named ν φ a).toValue.refs →
      ∃ x ∈ s.known host L, ∃ q, s.Past host (s.rootsAt host x) q ∧ φ x q = r := by
    rintro i ⟨p, c⟩ ⟨hpL, hc, -⟩ r hr
    have hr := Connector.refs_renumber hr
    rw [Connector.refs_rename] at hr
    obtain ⟨q, hq, rfl⟩ := List.mem_map.mp hr
    have hnest := hp.tree.nested p hpL
    obtain ⟨r, e, hl⟩ := h.exists_layer hnest
    rw [hl.layerAt_eq] at hc
    exact ⟨p, ⟨Or.inl hpL, hnest⟩, q, h.past_of_connector hl hc hq, rfl⟩
  rw [Diagram.refs, List.mem_append, List.mem_append, List.mem_append, hp.inputs, hp.outputs] at hr
  rcases hr with ((hr | hr) | hr) | hr
  · exact hroot (List.mem_append_left _ (List.mem_append_left _ (List.mem_append_left _ hr)))
  · exact hroot (List.mem_append_left _ (List.mem_append_left _ (List.mem_append_right _ hr)))
  · rw [Value.refsAll_eq] at hr
    obtain ⟨b', hb', hr⟩ := List.mem_flatMap.mp hr
    obtain ⟨⟨n, b'⟩, hmem, rfl⟩ := List.mem_map.mp hb'
    have hget := Table.get?_of_mem hp.consistent.boxes_nodup hmem
    obtain ⟨x, hx, rfl⟩ := hp.number.surjOn (Table.mem_keys_of_get? hget)
    obtain ⟨b, hb⟩ := h.exists_box_of_border hp.tree hx
    obtain ⟨y, hy, hpast, hown⟩ := exists_owner h hp.tree hx hb
    rw [hp.held x hx b hb] at hget
    rw [← Option.some.inj hget, Value.refs_rename, hown t d ν φ hp] at hr
    obtain ⟨q, hq, rfl⟩ := List.mem_map.mp hr
    exact ⟨y, hy, q, hpast q hq, rfl⟩
  · obtain ⟨w, hw, hr⟩ := List.mem_flatMap.mp hr
    obtain ⟨U, hU⟩ := exists_covers joins (arrowsOf (s.layerAt host) L)
    obtain ⟨a, b, hab, -, -, hsource, htarget⟩ := mem_outcome.mp ((hp.shows.mem U hU w).mp hw)
    obtain ⟨ha, hb⟩ := (h.opened hp.tree).ends_of_covers hU hab
    rcases List.mem_append.mp hr with hr | hr
    · exact hsite ha (hsource ▸ hr)
    · exact hsite hb (htarget ▸ hr)

/-- However the layers were opened, the diagram is the same up to the numbers of its boxes and up to copies.
The numbers match those in the unfolding, and the copies what they were made of. The wires are there as often
if no layer runs in a circle. -/
theorem exists_mirror (hp₁ : Progress s host L t₁ d₁ ν₁ φ₁) (hp₂ : Progress s host L t₂ d₂ ν₂ φ₂)
    (h : s.Nest host d₀) : ∃ σ ρ, d₁.Mirrors σ ρ d₂ ∧ (∀ x ∈ border (s.layerAt host) L, σ (ν₁ x) = ν₂ x) ∧
      (∀ x ∈ s.known host L, ∀ q, s.Past host (s.rootsAt host x) q → ρ (φ₁ x q) = φ₂ x q) ∧
      ((∀ p ∈ L, (s.layerAt host p).Acyclic) → d₂.wires.Perm ((d₁.rename ρ).wires.map (Wire.renumber σ))) := by
  obtain ⟨ρ, hρ⟩ := hp₁.exists_refs hp₂
  obtain ⟨σ, hσ, hν, hbij⟩ := hp₁.exists_numbers hp₂
  have ho := h.opened hp₁.tree
  have hnamed : ∀ {i a}, Opened.At (s.layerAt host) L i a → kept L a = true →
      named ν₂ φ₂ a = ((named ν₁ φ₁ a).rename ρ).renumber σ := by
    intro i a ha hk
    obtain ⟨n, -, hn⟩ := ha.2.2.1
    refine named_eq hn hσ (fun hle => hν _ (Opens.mem_border_of_kept ha hk hn hle)) fun r hr => ?_
    have hnest := hp₁.tree.nested a.1 ha.1
    obtain ⟨q, e, hl⟩ := h.exists_layer hnest
    have hc := ha.2.1
    rw [hl.layerAt_eq] at hc
    exact hρ a.1 ⟨Or.inl ha.1, hnest⟩ r (h.past_of_connector hl hc hr)
  have hremaining : ∀ {U}, Covers joins (arrowsOf (s.layerAt host) L) U →
      remaining L ν₂ φ₂ U = (remaining L ν₁ φ₁ U).map fun w => (w.rename ρ).renumber σ := by
    intro U hU
    refine remaining_eq fun a ha => ?_
    obtain ⟨hs, ht⟩ := ho.ends_of_covers hU ha
    exact ⟨hnamed hs, hnamed ht⟩
  have hrows : ∀ vs, (∀ r ∈ Value.refsAll vs, r ∈ (s.layerAt host []).refs) → Value.renameAll ρ vs = vs := by
    intro vs hvs
    refine Value.renameAll_of_fixed vs fun r hr => ?_
    have hfix := hρ [] ⟨Or.inl hp₁.tree.root, Or.inl rfl⟩ r (.of_mem (hvs r hr))
    rwa [hp₁.shallow [] (by simp), hp₂.shallow [] (by simp)] at hfix
  refine ⟨σ, ρ, ⟨⟨?_, ?_, ?_, fun w => ?_⟩, ⟨hσ _ (by decide), hσ _ (by decide)⟩, fun n b' hb' => ?_,
    fun r hr r' hr' he => ?_⟩, hν, hρ, fun hacyc => ?_⟩
  · rw [hp₂.inputs, Diagram.rename, hp₁.inputs]
    exact (hrows _ fun r hr => List.mem_append_left _ (List.mem_append_left _ (List.mem_append_left _ hr))).symm
  · rw [hp₂.outputs, Diagram.rename, hp₁.outputs]
    exact (hrows _ fun r hr => List.mem_append_left _ (List.mem_append_left _ (List.mem_append_right _ hr))).symm
  · rwa [keys_rename]
  · obtain ⟨U, hU⟩ := exists_covers joins (arrowsOf (s.layerAt host) L)
    rw [hp₂.shows.mem U hU, hremaining hU, wires_rename, Multiset.mem_map]
    simp only [List.mem_map, hp₁.shows.mem U hU]
    constructor
    · rintro ⟨x, hx, rfl⟩
      exact ⟨_, ⟨x, hx, rfl⟩, rfl⟩
    · rintro ⟨_, ⟨x, hx, rfl⟩, rfl⟩
      exact ⟨x, hx, rfl⟩
  · obtain ⟨x, hx, rfl⟩ := hp₁.number.surjOn (Table.mem_keys_of_get? hb')
    obtain ⟨b, hb⟩ := h.exists_box_of_border hp₁.tree hx
    obtain ⟨y, hy, hpast, hown⟩ := exists_owner h hp₁.tree hx hb
    rw [hp₁.held x hx b hb] at hb'
    rw [hν x hx, hp₂.held x hx b hb, ← Option.some.inj hb', Value.rename_rename, hown _ _ _ _ hp₁, hown _ _ _ _ hp₂]
    exact congrArg some (Value.rename_congr b fun q hq => (hρ y hy q (hpast q hq)).symm)
  · obtain ⟨x, hx, q, hq, rfl⟩ := hp₁.exists_copy h hr
    obtain ⟨y, hy, q', hq', rfl⟩ := hp₁.exists_copy h hr'
    rw [hρ x hx q hq, hρ y hy q' hq'] at he
    exact hp₂.copy_eq hp₁ hx hy hq hq' he
  · obtain ⟨start, finish, bound, hr, -⟩ := ho.exists_ranked hacyc
    obtain ⟨U, hU, hS⟩ := exists_solution hr
    rw [← Multiset.coe_eq_coe, hp₂.shows.eq hacyc U hU hS, hremaining hU, ← hp₁.shows.eq hacyc U hU hS,
      wires_rename, List.map_map, Multiset.map_coe]
    rfl

end Progress

end StringDiagram
