import StringDiagram.Proofs.Flattening.Agreement

/-! # Flattening

Diagrams that are boxes are substituted, one after the other, until none is left. This takes as many calls as
there are nested diagrams in the unfolding, and the diagram that is left is the same whatever the order,
up to the numbers of its boxes and up to copies: `flatten_confluent`. -/
namespace StringDiagram
open Diagram Network

namespace Store

/-- The store after the calls `substitute n` on the diagram at `host`, each while box `n` is a diagram. -/
inductive Flattens (s : Store) (host : Ref) : List Nat → Store → Prop
  | nil : Flattens s host [] s
  | snoc {ns : List Nat} {t : Store} {n : Nat} (h : Flattens s host ns t) (hn : t.HoldsDiagram host n) :
    Flattens s host (ns ++ [n]) ((Action.substitute host (.ofNat n) .null).perform t).2

/-- Calls that cannot be continued. -/
def FlattensFully (s : Store) (host : Ref) (ns : List Nat) (t : Store) : Prop :=
  s.Flattens host ns t ∧ ∀ n, ¬ t.HoldsDiagram host n

/-- The diagram `d` in store `t` has a box for each box of the unfolding that is no diagram. That for box `u` of
the layer `p` has the number `ν (u :: p)`, and what it refers to was copied by `φ p`. Nothing was in the outermost
layer, nor in the diagrams that are boxes there. -/
structure Flattened (s : Store) (host : Ref) (t : Store) (d : Diagram) (ν : Path → Nat) (φ : Path → Ref → Ref) :
    Prop where
  found : t.diagram? host = some d
  consistent : d.Consistent
  inputs : d.inputs = (s.layerAt host []).inputs
  outputs : d.outputs = (s.layerAt host []).outputs
  atomic : ∀ b ∈ d.boxes.values, t.asDiagram? b = none
  number : Set.BijOn ν (s.leaves host) {n | n ∈ d.boxes.keys}
  box : ∀ u p b, s.boxAt (.ref host) (u :: p) = some b → s.asDiagram? b = none →
    d.boxes.get? (ν (u :: p)) = some (b.rename (φ p))
  carried : ∀ p, p = [] ∨ p ∈ s.nested host → s.Carried host (φ p) (s.rootsAt host p) t
  shallow : ∀ p : Path, p.length ≤ 1 → φ p = id

/-- Flattening ends, and what it ends with does not depend on the order. -/
structure Confluent (s : Store) (host : Ref) : Prop where
  finite : (s.nested host).Finite
  succeeds : ∀ ns t n, s.Flattens host ns t → t.HoldsDiagram host n →
    ∃ t', (Action.substitute host (.ofNat n) .null).perform t = (.ok (), t')
  bounded : ∀ ns t, s.Flattens host ns t → ns.length ≤ (s.nested host).ncard
  completes : ∀ ns t, s.Flattens host ns t → ∃ ns' t', s.FlattensFully host (ns ++ ns') t'
  length_eq : ∀ ns t, s.FlattensFully host ns t → ns.length = (s.nested host).ncard
  agrees : ∀ ns₁ ns₂ t₁ t₂, s.FlattensFully host ns₁ t₁ → s.FlattensFully host ns₂ t₂ →
    ∃ d₁ d₂ ν₁ ν₂ φ₁ φ₂ σ ρ, s.Flattened host t₁ d₁ ν₁ φ₁ ∧ s.Flattened host t₂ d₂ ν₂ φ₂ ∧ d₁.Mirrors σ ρ d₂ ∧
      (∀ x ∈ s.leaves host, σ (ν₁ x) = ν₂ x) ∧
      (∀ p, p = [] ∨ p ∈ s.nested host → ∀ q, s.Past host (s.rootsAt host p) q → ρ (φ₁ p q) = φ₂ p q) ∧
      ((∀ q e, s.Nests host q → s.diagram? q = some e → e.Acyclic) →
        d₂.wires.Perm ((d₁.rename ρ).wires.map (Wire.renumber σ)))

end Store

section Runs
variable {s t : Store} {host : Ref} {d d₀ : Diagram} {L : Finset Path} {ν : Path → Nat} {φ : Path → Ref → Ref}
  {ns : List Nat} {x : Path}

/-- Every call opens one more layer. -/
theorem Store.Flattens.exists_progress (hr : s.Flattens host ns t) (h : s.Nest host d₀) :
    ∃ L d ν φ, Progress s host L t d ν φ ∧ L.card = ns.length + 1 := by
  induction hr with
  | nil => exact ⟨_, _, _, _, Progress.start h, rfl⟩
  | @snoc ns t n _ hn ih =>
    obtain ⟨L, d, ν, φ, hp, hcard⟩ := ih
    obtain ⟨x, t', d', ν', φ', hrun, hx, hp'⟩ := hp.step h hn
    rw [hrun]
    refine ⟨_, _, _, _, hp', ?_⟩
    rw [Finset.card_insert_of_notMem hx, hcard, List.length_append, List.length_singleton]

namespace Progress

theorem coe_subset (hp : Progress s host L t d ν φ) : (L : Set Path) ⊆ insert [] (s.nested host) :=
  fun p hpL => hp.tree.nested p hpL

theorem card_eq (h : s.Nest host d₀) : (insert [] (s.nested host)).ncard = (s.nested host).ncard + 1 :=
  Set.ncard_insert_of_notMem (fun hn => hn.1 rfl) h.finite_nested

/-- If no box is a diagram any more, all layers are open. -/
theorem coe_eq (hp : Progress s host L t d ν φ) (h : s.Nest host d₀) (hflat : ∀ n, ¬ t.HoldsDiagram host n) :
    (L : Set Path) = insert [] (s.nested host) := by
  refine hp.coe_subset.antisymm fun p hpath => ?_
  -- on the way to a layer that is not open there is a first one, and that is on the border
  induction p with
  | nil => exact hp.tree.root
  | cons u p ih =>
    have hn : u :: p ∈ s.nested host := hpath.resolve_left (List.cons_ne_nil u p)
    obtain ⟨hparent, hu⟩ := Store.Nest.parent hn
    by_contra hfresh
    have hx : u :: p ∈ border (s.layerAt host) L := mem_border_cons.mpr ⟨hfresh, ih hparent, hu⟩
    exact hflat _ ((hp.holdsDiagram_iff h hx).mpr hn)

theorem mem_iff (hp : Progress s host L t d ν φ) (h : s.Nest host d₀) (hflat : ∀ n, ¬ t.HoldsDiagram host n)
    {p : Path} : p ∈ L ↔ p = [] ∨ p ∈ s.nested host := by
  rw [← Finset.mem_coe, hp.coe_eq h hflat]
  rfl

theorem border_eq (hp : Progress s host L t d ν φ) (h : s.Nest host d₀) (hflat : ∀ n, ¬ t.HoldsDiagram host n) :
    border (s.layerAt host) L = s.leaves host := by
  ext x
  constructor
  · intro hx
    obtain ⟨b, hb⟩ := h.exists_box_of_border hp.tree hx
    obtain ⟨hfresh, u, p, rfl, -⟩ := hx
    exact (Store.Nest.nested_or_leaf hb).resolve_left fun hn => hfresh ((hp.mem_iff h hflat).mpr (Or.inr hn))
  · rintro ⟨b, hb, hnone⟩
    cases x with
    | nil =>
      obtain rfl := Option.some.inj hb
      rw [Store.asDiagram?_ref h.found] at hnone
      cases hnone
    | cons u p =>
      obtain ⟨r, e, hr, he, hu⟩ := Store.boxAt_cons_eq_some.mp hb
      have hl : s.IsLayer host p r e := ⟨hr, he⟩
      have hp' : p = [] ∨ p ∈ s.nested host := or_iff_not_imp_left.mpr fun hne => ⟨hne, r, e, hl⟩
      refine mem_border_cons.mpr ⟨fun hx => ?_, (hp.mem_iff h hflat).mpr hp', ?_⟩
      · have hn := ((hp.mem_iff h hflat).mp hx).resolve_left (List.cons_ne_nil u p)
        exact Store.Nest.not_leaf_of_nested hn ⟨b, hb, hnone⟩
      · rw [hl.layerAt_eq]
        exact Table.mem_keys_of_get? hu

theorem flattened (hp : Progress s host L t d ν φ) (h : s.Nest host d₀) (hflat : ∀ n, ¬ t.HoldsDiagram host n) :
    s.Flattened host t d ν φ where
  found := hp.found
  consistent := hp.consistent
  inputs := hp.inputs
  outputs := hp.outputs
  atomic b hb := by
    obtain ⟨⟨n, b⟩, hmem, rfl⟩ := List.mem_map.mp hb
    refine Option.eq_none_iff_forall_ne_some.mpr fun re hre => hflat n ⟨d, b, re, hp.found, ?_, hre⟩
    exact Table.get?_of_mem hp.consistent.boxes_nodup hmem
  number := by
    rw [← hp.border_eq h hflat]
    exact hp.number
  box u p b hb hnone := by
    have hl : u :: p ∈ s.leaves host := ⟨b, hb, hnone⟩
    have hx : u :: p ∈ border (s.layerAt host) L := hp.border_eq h hflat ▸ hl
    rw [hp.held _ hx b hb, hp.leaf u p hx hl]
  carried p hpath := hp.carried p (Or.inl ((hp.mem_iff h hflat).mpr hpath))
  shallow := hp.shallow

end Progress

end Runs

theorem Store.Flattens.length_le {s t : Store} {host : Ref} {d : Diagram} {ns : List Nat}
    (hr : s.Flattens host ns t) (h : s.Nest host d) : ns.length ≤ (s.nested host).ncard := by
  obtain ⟨L, d, ν, φ, hp, hcard⟩ := hr.exists_progress h
  have hle := Set.ncard_le_ncard hp.coe_subset (h.finite_nested.insert [])
  rw [Set.ncard_coe_finset, hcard, Progress.card_eq h] at hle
  omega

/-- As long as a box is a diagram there is one more call, and there are not more calls than nested diagrams. -/
theorem Store.Flattens.exists_fully {s t : Store} {host : Ref} {d : Diagram} {ns : List Nat}
    (hr : s.Flattens host ns t) (h : s.Nest host d) : ∃ ns' t', s.FlattensFully host (ns ++ ns') t' := by
  induction hk : (s.nested host).ncard - ns.length generalizing ns t with
  | zero =>
    refine ⟨[], t, by rwa [List.append_nil], fun n hn => ?_⟩
    have hle := (Flattens.snoc hr hn).length_le h
    rw [List.length_append, List.length_singleton] at hle
    omega
  | succ k ih =>
    by_cases hflat : ∃ n, t.HoldsDiagram host n
    · obtain ⟨n, hn⟩ := hflat
      obtain ⟨ns', t', hfull⟩ := ih (Flattens.snoc hr hn) (by rw [List.length_append, List.length_singleton]; omega)
      exact ⟨n :: ns', t', by rwa [List.append_cons]⟩
    · exact ⟨[], t, by rwa [List.append_nil], not_exists.mp hflat⟩

/-- Calls after which no box is a diagram. -/
theorem Store.Flattens.fully {s t : Store} {host : Ref} {ns : List Nat} (h : s.Flattens host ns t)
    (hflat : ∀ d ∈ t.diagram? host, ∀ b ∈ d.boxes.values, (t.asDiagram? b).isSome = false) :
    s.FlattensFully host ns t := by
  refine ⟨h, fun n ⟨d, b, re, hd, hb, hre⟩ => ?_⟩
  have hnone := hflat d hd b (Table.mem_values_of_get? hb)
  rw [hre] at hnone
  cases hnone

/-- If nothing is nested in itself, and no nested diagram has a wire out of its output boundary or into its input
boundary, every way to flatten a diagram ends, and all of them with the same diagram. -/
theorem flatten_confluent {s : Store} {host : Ref} {d : Diagram} (h : s.Nest host d) : s.Confluent host where
  finite := h.finite_nested
  succeeds ns t n hr hn := by
    obtain ⟨L, d, ν, φ, hp, -⟩ := hr.exists_progress h
    obtain ⟨x, t', d', ν', φ', hrun, -⟩ := hp.step h hn
    exact ⟨t', hrun⟩
  bounded ns t hr := hr.length_le h
  completes ns t hr := hr.exists_fully h
  length_eq ns t hr := by
    obtain ⟨L, d, ν, φ, hp, hcard⟩ := hr.1.exists_progress h
    have heq := congrArg Set.ncard (hp.coe_eq h hr.2)
    rw [Set.ncard_coe_finset, hcard, Progress.card_eq h] at heq
    omega
  agrees ns₁ ns₂ t₁ t₂ hr₁ hr₂ := by
    obtain ⟨L, d₁, ν₁, φ₁, hp₁, -⟩ := hr₁.1.exists_progress h
    obtain ⟨L₂, d₂, ν₂, φ₂, hp₂, -⟩ := hr₂.1.exists_progress h
    obtain rfl : L = L₂ := Finset.coe_injective ((hp₁.coe_eq h hr₁.2).trans (hp₂.coe_eq h hr₂.2).symm)
    have hopen : ∀ {p}, p ∈ L ↔ p = [] ∨ p ∈ s.nested host := hp₁.mem_iff h hr₁.2
    obtain ⟨σ, ρ, hmirror, hσ, hρ, hperm⟩ := hp₁.exists_mirror hp₂ h
    refine ⟨d₁, d₂, ν₁, ν₂, φ₁, φ₂, σ, ρ, hp₁.flattened h hr₁.2, hp₂.flattened h hr₂.2, hmirror, ?_, ?_, ?_⟩
    · rw [← hp₁.border_eq h hr₁.2]
      exact hσ
    · exact fun p hpath => hρ p ⟨Or.inl (hopen.mpr hpath), hpath⟩
    · refine fun hacyc => hperm fun p hpL => ?_
      obtain ⟨r, e, hl⟩ := h.exists_layer (hopen.mp hpL)
      rw [hl.layerAt_eq]
      exact hacyc r e hl.nests hl.2

/-- A diagram that is a box of the outermost one and also of another box there, flattened in two orders. -/
theorem flatten_confluent_shared :
    let outer := chained (.ref 1) (.ref 2)
    let s : Store := ⟨[.diagram outer, .diagram (chained (.ref 2) (.named "g")),
      .diagram (passed (.named "h"))], []⟩
    s.Nest 0 outer ∧ s.Confluent 0 ∧ (s.nested 0).ncard = 3 ∧ (∃ t, s.FlattensFully 0 [2, 3, 4] t) ∧
      (∃ t, s.FlattensFully 0 [3, 2, 5] t) ∧ ∀ q e, s.Nests 0 q → s.diagram? q = some e → e.Acyclic := by
  intro outer s
  have hcases : ∀ q e, s.diagram? q = some e → q = 0 ∧ e = outer ∨
      q = 1 ∧ e = chained (.ref 2) (.named "g") ∨ q = 2 ∧ e = passed (.named "h") := by
    intro q e he
    match q, he with
    | 0, he => exact Or.inl ⟨rfl, (Option.some.inj he).symm⟩
    | 1, he => exact Or.inr (Or.inl ⟨rfl, (Option.some.inj he).symm⟩)
    | 2, he => exact Or.inr (Or.inr ⟨rfl, (Option.some.inj he).symm⟩)
    | _ + 3, he => cases he
  have hnest : s.Nest 0 outer := by
    refine Store.nest_of_later (Store.closed_of_forall (by decide)) rfl (fun p e q he hq => ?_) fun p e he => ?_
    · rcases hcases p e he with ⟨rfl, rfl⟩ | ⟨rfl, rfl⟩ | ⟨rfl, rfl⟩
      · rcases List.mem_pair.mp hq with h | h <;> cases h <;> decide
      · rcases List.mem_pair.mp hq with h | h <;> cases h
        decide
      · cases List.mem_singleton.mp hq
    · unfold Diagram.Directed
      rcases hcases p e he with ⟨-, rfl⟩ | ⟨-, rfl⟩ | ⟨-, rfl⟩
      · exact ⟨consistent_chained _ _, by decide⟩
      · exact ⟨consistent_chained _ _, by decide⟩
      · exact ⟨consistent_passed _, by decide⟩
  have hfull : ∃ t, s.FlattensFully 0 [2, 3, 4] t := by
    refine ⟨_, Store.Flattens.fully (.snoc (.snoc (.snoc .nil ?_) ?_) ?_) ?_⟩
    · decide +kernel
    · decide +kernel
    · decide +kernel
    · decide +kernel
  have hfull' : ∃ t, s.FlattensFully 0 [3, 2, 5] t := by
    refine ⟨_, Store.Flattens.fully (.snoc (.snoc (.snoc .nil ?_) ?_) ?_) ?_⟩
    · decide +kernel
    · decide +kernel
    · decide +kernel
    · decide +kernel
  have hconfluent := flatten_confluent hnest
  refine ⟨hnest, hconfluent, ?_, hfull, hfull', ?_⟩
  · obtain ⟨t, ht⟩ := hfull
    exact (hconfluent.length_eq _ t ht).symm
  · -- along the wires boxes come in the order of their numbers, but for the output boundary
    intro q e _ he
    refine acyclic_of_rank (fun n => if n = outputId then 4 else n) ?_
    rcases hcases q e he with ⟨-, rfl⟩ | ⟨-, rfl⟩ | ⟨-, rfl⟩ <;> decide

end StringDiagram
