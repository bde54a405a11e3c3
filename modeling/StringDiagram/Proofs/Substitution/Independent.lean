import StringDiagram.Proofs.Substitution.Exchange

/-! # Independent substitutions

Diagrams may be put in the places of two boxes of a host in either order: `substitute_comm`. -/
namespace StringDiagram
open Diagram Network

namespace Inlined
variable {s s₁ s₂ t₁ t₂ : Store} {host : Ref} {v w : Nat} {d e k d₁ d₂ d₁' d₂' : Diagram}

theorem mem_keys_twice (h₁ : Inlined s s₁ host v d e d₁) (h₂ : Inlined s₁ s₂ host w d₁ k d₂)
    (hw : w < d.next) {n : Nat} : n ∈ d₂.boxes.keys ↔ (n ∈ d.boxes.keys ∧ n ≠ v ∧ n ≠ w) ∨
      (d.next ≤ n ∧ n < d.next + e.boxes.length + k.boxes.length) := by
  rw [h₂.mem_keys, h₁.mem_keys, h₁.next]
  constructor
  · rintro (⟨⟨h, hv⟩ | h, hne⟩ | h)
    · exact Or.inl ⟨h, hv, hne⟩
    · exact Or.inr ⟨h.1, by omega⟩
    · exact Or.inr ⟨by omega, h.2⟩
  · rintro (⟨h, hv, hne⟩ | h)
    · exact Or.inl ⟨Or.inl ⟨h, hv⟩, hne⟩
    · by_cases hlt : n < d.next + e.boxes.length
      · exact Or.inl ⟨Or.inr ⟨h.1, hlt⟩, by omega⟩
      · exact Or.inr ⟨by omega, h.2⟩

/-- The boxes that stay in the host are those that were there. -/
theorem get?_twice (h₁ : Inlined s s₁ host v d e d₁) (h₂ : Inlined s₁ s₂ host w d₁ k d₂) {n : Nat}
    (hn : n ∈ d.boxes.keys) (hv : n ≠ v) (hw : n ≠ w) : d₂.boxes.get? n = d.boxes.get? n :=
  (h₂.get?_old (h₁.mem_keys.mpr (Or.inl ⟨hn, hv⟩)) hw).trans (h₁.get?_old hn hv)

section Exchange
variable (h₁ : Inlined s s₁ host v d e d₁) (h₂ : Inlined s₁ s₂ host w d₁ k d₂)
  (h₁' : Inlined s t₁ host w d k d₁') (h₂' : Inlined t₁ t₂ host v d₁' e d₂') (hd : d.Consistent)

include h₁ h₂ h₁' h₂' hd

theorem mapsTo_exchange (hv : v < d.next) (hw : w < d.next) :
    Set.MapsTo (exchange d e k) {n | n ∈ d₂.boxes.keys} {n | n ∈ d₂'.boxes.keys} := by
  intro n hn
  apply (h₁'.mem_keys_twice h₂' hv).mpr
  rcases (h₁.mem_keys_twice h₂ hw).mp hn with ⟨hn, hnv, hnw⟩ | hn
  · rw [exchange_old (hd.below_next n (Consistent.box_live hn))]
    exact Or.inl ⟨hn, hnw, hnv⟩
  · have hlt := exchange_lt hn.2
    exact Or.inr (by omega)

omit h₁' h₂' in
theorem leftInvOn_exchange (hw : w < d.next) :
    Set.LeftInvOn (exchange d k e) (exchange d e k) {n | n ∈ d₂.boxes.keys} := by
  intro n hn
  rcases (h₁.mem_keys_twice h₂ hw).mp hn with ⟨hn, -⟩ | hn
  · have hlt := hd.below_next n (Consistent.box_live hn)
    exact exchange_exchange (by omega)
  · exact exchange_exchange hn.2

theorem bijOn_exchange (hv : v < d.next) (hw : w < d.next) :
    Set.BijOn (exchange d e k) {n | n ∈ d₂.boxes.keys} {n | n ∈ d₂'.boxes.keys} := by
  have hinv : Set.InvOn (exchange d k e) (exchange d e k) {n | n ∈ d₂.boxes.keys}
      {n | n ∈ d₂'.boxes.keys} :=
    ⟨h₁.leftInvOn_exchange h₂ hd hw, h₁'.leftInvOn_exchange h₂' hd hv⟩
  exact hinv.bijOn (h₁.mapsTo_exchange h₂ h₁' h₂' hd hv hw) (h₁'.mapsTo_exchange h₂' h₁ h₂ hd hw hv)

theorem matches_first (he : e.Consistent) (hs : s.diagram? host = some d) (hw : w < d.next)
    (ha : ∀ b ∈ e.boxes.values, s.Apart host b) :
    Matches (exchange d e k) s e s₂ d₂ (inserted d e) t₂ d₂' (inserted d₁' e) := by
  intro u b hb
  obtain ⟨i, hlt, hi, hu⟩ := exists_place hb
  have hapart := ha b (Table.mem_values_of_get? hb)
  have hhost := Store.lt_of_diagram? hs
  refine ⟨d.next + i, get?_inserted he hu, ?_, ?_, ?_⟩
  · rw [get?_inserted he hu, h₁'.next, exchange_inner hlt]
  · exact h₂.heldAt_old (h₁.heldAt_new hd hs (.refl host s) hi hapart) (by omega) hhost
  · rw [exchange_inner hlt, ← h₁'.next]
    exact h₂'.heldAt_new h₁'.consistent hs h₁'.frame hi hapart

theorem matches_second (hk : k.Consistent) (hs : s.diagram? host = some d) (hv : v < d.next)
    (ha : ∀ b ∈ k.boxes.values, s.Apart host b) :
    Matches (exchange d e k) s k s₂ d₂ (inserted d₁ k) t₂ d₂' (inserted d k) := by
  intro u b hb
  obtain ⟨i, -, hi, hu⟩ := exists_place hb
  have hapart := ha b (Table.mem_values_of_get? hb)
  have hhost := Store.lt_of_diagram? hs
  refine ⟨d₁.next + i, get?_inserted hk hu, ?_, ?_, ?_⟩
  · rw [get?_inserted hk hu, h₁.next, exchange_rest]
  · exact h₂.heldAt_new h₁.consistent hs h₁.frame hi hapart
  · rw [h₁.next, exchange_rest]
    exact h₂'.heldAt_old (h₁'.heldAt_new hd hs (.refl host s) hi hapart) (by omega) hhost

end Exchange

end Inlined

/-- Two boxes of a host can be substituted in either order. The boxes that came in are the same in both
and hold what they held, and so are the wires, all up to one renumbering of boxes; and unless the two boxes
feed themselves or each other the wires are there as often. -/
theorem substitute_comm {s : Store} {host p q : Ref} {d e k : Diagram} {v w : Nat}
    (hd : s.diagram? host = some d) (he : s.diagram? p = some e) (hk : s.diagram? q = some k)
    (hp : p ≠ host) (hq : q ≠ host) (hcd : d.Consistent) (hce : e.Consistent) (hck : k.Consistent)
    (hde : e.Directed) (hdk : k.Directed) (hv : v ∈ d.boxes.keys) (hw : w ∈ d.boxes.keys) (hvw : v ≠ w)
    (hae : ∀ b ∈ e.boxes.values, s.Apart host b) (hak : ∀ b ∈ k.boxes.values, s.Apart host b) :
    ∃ t t' d₂ d₂' ids₁ ids₂ ids₁' ids₂' σ,
      (Action.substituteTwice host v p w q).perform s = (.ok (), t) ∧
      (Action.substituteTwice host w q v p).perform s = (.ok (), t') ∧
      t.diagram? host = some d₂ ∧ t'.diagram? host = some d₂' ∧
      t.notes = s.notes ++ [.substituting v ids₁, .substituting w ids₂] ∧
      t'.notes = s.notes ++ [.substituting w ids₂', .substituting v ids₁'] ∧
      d₂.Renumbers σ d₂' ∧ (∀ n < d.next, σ n = n) ∧
      (∀ n ∈ d.boxes.keys, n ≠ v → n ≠ w →
        d₂.boxes.get? n = d.boxes.get? n ∧ d₂'.boxes.get? n = d.boxes.get? n) ∧
      Matches σ s e t d₂ ids₁ t' d₂' ids₁' ∧ Matches σ s k t d₂ ids₂ t' d₂' ids₂' ∧
      (¬ d.Links v v → ¬ d.Links w w → ¬ (d.Links v w ∧ d.Links w v) →
        d₂'.wires.Perm (d₂.wires.map (Wire.renumber σ))) := by
  have hvlt : v < d.next := hcd.below_next v (Consistent.box_live hv)
  have hwlt : w < d.next := hcd.below_next w (Consistent.box_live hw)
  obtain ⟨s₁, d₁, t, d₂, hrun, h₁, h₂⟩ :=
    Action.substituteTwice_spec hd he hk hp hq hcd hce hck hde hdk hv (Or.inl ⟨hw, hvw.symm⟩)
  obtain ⟨t₁, d₁', t', d₂', hrun', h₁', h₂'⟩ :=
    Action.substituteTwice_spec hd hk he hq hp hcd hck hce hdk hde hw (Or.inl ⟨hv, hvw⟩)
  refine ⟨t, t', d₂, d₂', _, _, _, _, exchange d e k, hrun, hrun', h₂.found, h₂'.found, ?_, ?_,
    ⟨?_, ?_, h₁.bijOn_exchange h₂ h₁' h₂' hcd hvlt hwlt, fun x => ?_⟩, fun n hn => exchange_old hn,
    fun n hn hnv hnw => ⟨h₁.get?_twice h₂ hn hnv hnw, h₁'.get?_twice h₂' hn hnw hnv⟩,
    h₁.matches_first h₂ h₁' h₂' hcd hce hd hwlt hae, h₁.matches_second h₂ h₁' h₂' hcd hck hd hvlt hak,
    fun hvv hww hloop => ?_⟩
  · rw [h₂.notes, h₁.notes, List.append_assoc]
    rfl
  · rw [h₂'.notes, h₁'.notes, List.append_assoc]
    rfl
  · rw [h₂'.inputs, h₁'.inputs, h₂.inputs, h₁.inputs]
  · rw [h₂'.outputs, h₁'.outputs, h₂.outputs, h₁.outputs]
  · have h := Order.mem_exchange hcd hce hck hde hdk hvlt hwlt hvw h₁.next h₁'.next h₁.wires h₁'.wires x
    rw [← h₂'.wires, ← h₂.wires] at h
    exact h
  · have h := Order.spliced_exchange hcd hce hck hde hdk hvlt hwlt hvw h₁.next h₁'.next h₁.wires h₁'.wires
      hvv hww hloop
    rw [← h₂'.wires, ← h₂.wires, Multiset.map_coe] at h
    exact Multiset.coe_eq_coe.mp h

/-- A diagram with a diagram in it comes in for two boxes in a row. -/
theorem substitute_comm_chained :
    let d := chained (.named "f") (.named "g")
    let s : Store := ⟨[.diagram d, .diagram (passed (.ref 2)), .diagram (new [] [])], []⟩
    ∃ t t' d₂ d₂' σ, (Action.substituteTwice 0 2 1 3 1).perform s = (.ok (), t) ∧
      (Action.substituteTwice 0 3 1 2 1).perform s = (.ok (), t') ∧
      t.diagram? 0 = some d₂ ∧ t'.diagram? 0 = some d₂' ∧ d₂.Renumbers σ d₂' ∧
      d₂'.wires.Perm (d₂.wires.map (Wire.renumber σ)) := by
  intro d s
  have hd : s.diagram? 0 = some d := rfl
  have he : s.diagram? 1 = some (passed (.ref 2)) := rfl
  have hdir : (passed (.ref 2)).Directed := by
    unfold Diagram.Directed
    decide
  have hapart : ∀ b ∈ (passed (.ref 2)).boxes.values, s.Apart 0 b := by
    intro b hb _ _ _ _
    obtain rfl : b = .ref 2 := List.mem_singleton.mp hb
    exact Store.not_reaches (by decide) (by decide) (by decide)
  obtain ⟨t, t', d₂, d₂', _, _, _, _, σ, hrun, hrun', hd₂, hd₂', -, -, hσ, -, -, -, -, hperm⟩ :=
    substitute_comm hd he he (by decide) (by decide) (consistent_chained _ _) (consistent_passed _)
      (consistent_passed _) hdir hdir (v := 2) (w := 3) (by decide) (by decide) (by decide) hapart hapart
  exact ⟨t, t', d₂, d₂', σ, hrun, hrun', hd₂, hd₂', hσ, hperm (by decide) (by decide) (by decide)⟩

end StringDiagram
