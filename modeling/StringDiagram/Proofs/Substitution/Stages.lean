import StringDiagram.Proofs.Network.Stages
import StringDiagram.Proofs.Substitution.Inlined

/-! # Two substitutions, one after the other

The wires of three diagrams make a network of three layers. The first of two substitutions walks it where
two of the layers meet, the second from there on. So the wires after both are walks of the whole network,
whichever comes first, and the order shows only in the names of their ends: `Order.Follows.mem_spliced`
and `Order.Follows.spliced_eq`. -/
namespace StringDiagram
open Diagram Network

/-- The layers of two substitutions: those of the host and of the inserted diagram in the first one, and
that of the third diagram, which is in layer `side` of the second one. -/
structure Order where
  host : Nat
  inner : Nat
  rest : Nat
  side : Nat

namespace Order

structure Proper (o : Order) : Prop where
  host_inner : o.host ≠ o.inner
  rest_host : o.rest ≠ o.host
  rest_inner : o.rest ≠ o.inner

def lift (o : Order) (a : Node) : Node := (if a.1 = 0 then o.host else o.inner, a.2)

def found (o : Order) (ids : IdMap) (a : Node) : Connector :=
  if a.1 = o.host then a.2 else ids.place a.2

def keeps (o : Order) (ids : IdMap) (x boundary : Nat) (a : Node) : Bool :=
  a.1 == o.rest || ((a.1 == o.host || !a.2.isOn boundary) && !(o.found ids a).isOn x)

def into (o : Order) (ids : IdMap) (a : Node) : Node :=
  if a.1 = o.rest then (o.side, a.2) else (1 - o.side, o.found ids a)

def name (o : Order) (ids ids' : IdMap) (a : Node) : Connector := spot ids' (o.into ids a)

def stays (o : Order) (ids ids' : IdMap) (x y boundary : Nat) (a : Node) : Bool :=
  o.keeps ids x boundary a && ((o.into ids a).1 == 0 || !(o.into ids a).2.isOn boundary) &&
    !(o.name ids ids' a).isOn y

def arrows (o : Order) (d e k : Diagram) : Multiset (Node × Node) :=
  d.wires.map (arrow o.host) + e.wires.map (arrow o.inner) + k.wires.map (arrow o.rest)

def walked (o : Order) (d e k : Diagram) (x : Nat) : Multiset (Node × Node) :=
  (d.walks e x).map (Prod.map o.lift o.lift) + k.wires.map (arrow o.rest)

end Order

def outcome {N : Type} (p q : N → Bool) (f : N → Connector) (T : Multiset (N × N)) : Multiset Wire :=
  (T.filter fun a => (p a.1 && q a.2) = true).map fun a => ⟨f a.1, f a.2⟩

section Outcome
variable {N M : Type} {p q p' q' : N → Bool} {f f' : N → Connector} {T : Multiset (N × N)}

theorem mem_outcome {w : Wire} :
    w ∈ outcome p q f T ↔
      ∃ a b, (a, b) ∈ T ∧ p a = true ∧ q b = true ∧ f a = w.source ∧ f b = w.target := by
  simp only [outcome, Multiset.mem_map, Multiset.mem_filter, Bool.and_eq_true]
  constructor
  · rintro ⟨⟨a, b⟩, ⟨h, ha, hb⟩, rfl⟩
    exact ⟨a, b, h, ha, hb, rfl, rfl⟩
  · rintro ⟨a, b, h, ha, hb, hs, ht⟩
    exact ⟨(a, b), ⟨h, ha, hb⟩, by rw [hs, ht]⟩

theorem outcome_congr {g : Connector → Connector} (hp : ∀ a ∈ T, p a.1 = p' a.1) (hq : ∀ a ∈ T, q a.2 = q' a.2)
    (hs : ∀ a ∈ T, p a.1 = true → f' a.1 = g (f a.1)) (ht : ∀ a ∈ T, q a.2 = true → f' a.2 = g (f a.2)) :
    outcome p' q' f' T = (outcome p q f T).map fun w => ⟨g w.source, g w.target⟩ := by
  have hfilter : T.filter (fun a => (p' a.1 && q' a.2) = true) =
      T.filter fun a => (p a.1 && q a.2) = true :=
    Multiset.filter_congr fun a ha => by rw [hp a ha, hq a ha]
  rw [outcome, outcome, Multiset.map_map, hfilter]
  apply Multiset.map_congr rfl
  intro a ha
  obtain ⟨ha, hpq⟩ := Multiset.mem_filter.mp ha
  rw [Bool.and_eq_true] at hpq
  rw [hs a ha hpq.1, ht a ha hpq.2]
  rfl

theorem outcome_stage {p' q' : M → Bool} {f : N → M} {f' : M → Connector} (T : Multiset (N × N)) :
    outcome p' q' f' (stage p q f T) =
      outcome (fun a => p a && p' (f a)) (fun a => q a && q' (f a)) (fun a => f' (f a)) T := by
  rw [outcome, outcome, stage, Multiset.filter_map, Multiset.map_map, Multiset.filter_filter]
  refine congrArg _ (Multiset.filter_congr fun a _ => ?_)
  simp only [Function.comp_apply, Prod.map_fst, Prod.map_snd, Bool.and_eq_true]
  tauto

end Outcome

theorem spliced_eq_outcome (d e : Diagram) (v : Nat) : d.spliced e v =
    outcome (fun a => opens a && !(spot (inserted d e) a).isOn v)
      (fun a => closes a && !(spot (inserted d e) a).isOn v) (spot (inserted d e)) (d.walks e v) := by
  rw [spliced, view, outcome, Multiset.filter_map, Multiset.filter_filter]
  refine congrArg _ (Multiset.filter_congr fun a _ => ?_)
  simp only [Function.comp_apply, Bool.and_eq_true]
  tauto

namespace Order
variable {o : Order} {d e k : Diagram} {x : Nat}

theorem mem_arrows {a : Node × Node} : a ∈ o.arrows d e k ↔ (∃ w ∈ d.wires, arrow o.host w = a) ∨
    (∃ w ∈ e.wires, arrow o.inner w = a) ∨ ∃ w ∈ k.wires, arrow o.rest w = a := by
  rw [arrows, Multiset.mem_add, Multiset.mem_add, mem_layer, mem_layer,
    mem_layer, or_assoc]

theorem layers_of_mem_network {a : Node × Node} (ha : a ∈ d.network e) :
    a.1.1 = a.2.1 ∧ (a.1.1 = 0 ∨ a.1.1 = 1) := by
  rcases mem_network.mp ha with ⟨w, -, rfl⟩ | ⟨w, -, rfl⟩
  · exact ⟨rfl, Or.inl rfl⟩
  · exact ⟨rfl, Or.inr rfl⟩

theorem map_lift (o : Order) (d e : Diagram) : (d.network e).map (Prod.map o.lift o.lift) =
    d.wires.map (arrow o.host) + e.wires.map (arrow o.inner) := by
  rw [network, Multiset.map_add, Multiset.map_coe, Multiset.map_coe, List.map_map, List.map_map]
  rfl

theorem meets_lift (ho : o.Proper) {a b : Node} (ha : a.1 = 0 ∨ a.1 = 1) (hb : b.1 = 0 ∨ b.1 = 1) :
    meets x o.host o.inner (o.lift a) (o.lift b) = meets x 0 1 a b := by
  have h := ho.host_inner
  rcases ha with ha | ha <;> rcases hb with hb | hb <;> simp [meets, lift, ha, hb, h, h.symm]

theorem meets_rest (ho : o.Proper) {a b : Node} (h : a.1 = o.rest ∨ b.1 = o.rest) :
    meets x o.host o.inner a b = false := by
  have h₁ := ho.rest_host
  have h₂ := ho.rest_inner
  rcases h with h | h <;> simp [meets, h, h₁, h₂]

theorem mem_rest {a : Node × Node} (ha : a ∈ (k.wires.map (arrow o.rest) : Multiset (Node × Node))) :
    a.1.1 = o.rest ∧ a.2.1 = o.rest := by
  obtain ⟨w, -, rfl⟩ := mem_layer.mp ha
  exact ⟨rfl, rfl⟩

theorem layer_of_walk {a : Node × Node} (ha : a ∈ d.walks e x) :
    (a.1.1 = 0 ∨ a.1.1 = 1) ∧ (a.2.1 = 0 ∨ a.2.1 = 1) := by
  have hw := (covers_walks d e x a.1 a.2).mp ha
  obtain ⟨z, hz⟩ := hw.first
  obtain ⟨z', hz'⟩ := hw.last
  have h := layers_of_mem_network hz'
  exact ⟨(layers_of_mem_network hz).2, h.1 ▸ h.2⟩

theorem covers_walked (ho : o.Proper) (d e k : Diagram) (x : Nat) :
    Covers (meets x o.host o.inner) (o.arrows d e k) (o.walked d e k x) := by
  have hmap := (covers_walks d e x).map (f := o.lift) fun a ha b hb => meets_lift ho
    ((layers_of_mem_network ha).1 ▸ (layers_of_mem_network ha).2) (layers_of_mem_network hb).2
  rw [map_lift] at hmap
  apply hmap.add
  intro a ha b _
  exact ⟨meets_rest ho (Or.inl (mem_rest ha).2), meets_rest ho (Or.inr (mem_rest ha).1)⟩

theorem solves_walked (ho : o.Proper) {start finish : Node → Nat} {bound : Nat}
    (hr : Ranked (meets x 0 1) (d.network e) start finish bound) (k : Diagram) :
    Solves (meets x o.host o.inner) (o.arrows d e k) (o.walked d e k x) := by
  have hmap := (solves_walks hr).map (f := o.lift) fun a ha b hb => meets_lift ho
    ((layers_of_mem_network ha).1 ▸ (layers_of_mem_network ha).2) (layer_of_walk hb).1
  rw [map_lift] at hmap
  exact hmap.add (fun a _ b hb => meets_rest ho (Or.inr (mem_rest hb).1))
    fun a ha b _ => meets_rest ho (Or.inl (mem_rest ha).2)

theorem found_lift (ho : o.Proper) (ids : IdMap) (a : Node) : o.found ids (o.lift a) = spot ids a := by
  have h := ho.host_inner
  by_cases h0 : a.1 = 0 <;> simp [found, lift, spot, h0, h.symm]

theorem keeps_lift (ho : o.Proper) (ids : IdMap) (boundary : Nat) (a : Node) :
    o.keeps ids x boundary (o.lift a) =
      ((a.1 == 0 || !a.2.isOn boundary) && !(spot ids a).isOn x) := by
  have hh : (o.host == o.rest) = false := beq_false_of_ne ho.rest_host.symm
  have hi : (o.inner == o.rest) = false := beq_false_of_ne ho.rest_inner.symm
  have hih : (o.inner == o.host) = false := beq_false_of_ne ho.host_inner.symm
  rw [keeps, found_lift ho, lift]
  by_cases h0 : a.1 = 0
  · simp [h0, hh]
  · have ha : (a.1 == 0) = false := beq_false_of_ne h0
    simp [h0, hi, hih, ha]

theorem into_lift (ho : o.Proper) (ids : IdMap) (a : Node) :
    o.into ids (o.lift a) = (1 - o.side, spot ids a) := by
  have hne : (o.lift a).1 ≠ o.rest := by
    rw [lift]
    dsimp only
    split
    · exact ho.rest_host.symm
    · exact ho.rest_inner.symm
  rw [into, if_neg hne, found_lift ho]

/-- The first substitution leaves the network of the second one. -/
theorem stage_walked (ho : o.Proper) {d₁ : Diagram} (hw : (d₁.wires : Multiset Wire) = d.spliced e x)
    (k : Diagram) : stage (o.keeps (inserted d e) x inputId) (o.keeps (inserted d e) x outputId)
        (o.into (inserted d e)) (o.walked d e k x) =
      d₁.wires.map (arrow (1 - o.side)) + k.wires.map (arrow o.side) := by
  rw [walked, stage_add]
  congr 1
  · rw [← Multiset.map_coe, hw, spliced_eq_outcome, outcome, stage, Multiset.filter_map, Multiset.map_map,
      Multiset.map_map]
    refine congrArg₂ _ (funext fun a => ?_) (Multiset.filter_congr fun a _ => ?_)
    · simp only [Function.comp_apply, Prod.map, into_lift ho]
      rfl
    · simp only [Function.comp_apply, Prod.map, keeps_lift ho]
      rfl
  · rw [stage, ← Multiset.map_coe, Multiset.filter_eq_self.mpr, Multiset.map_map, ← Multiset.map_coe]
    · apply Multiset.map_congr rfl
      intro w _
      simp [into, arrow]
    · intro a ha
      rw [Multiset.map_coe] at ha
      simp [keeps, mem_rest ha]

section Twice
variable {d₁ d₂ e₂ : Diagram} {y : Nat} {meets' : Node → Node → Bool} {U : Multiset (Node × Node)}

structure Follows (o : Order) (d e k d₁ d₂ e₂ : Diagram) (x y : Nat) (meets' : Node → Node → Bool) :
    Prop where
  proper : o.Proper
  first : (d₁.wires : Multiset Wire) = d.spliced e x
  second : d₂.network e₂ = d₁.wires.map (arrow (1 - o.side)) + k.wires.map (arrow o.side)
  keeps : Keeps meets' (meets y 0 1) (o.keeps (inserted d e) x inputId)
    (o.keeps (inserted d e) x outputId) (o.into (inserted d e)) (o.walked d e k x)

def outcome₂ (o : Order) (ids ids' : IdMap) (x y : Nat) (U : Multiset (Node × Node)) : Multiset Wire :=
  outcome (o.stays ids ids' x y inputId) (o.stays ids ids' x y outputId) (o.name ids ids') U

theorem outcome_walks (o : Order) (d e d₂ e₂ : Diagram) (x y : Nat) (U : Multiset (Node × Node)) :
    outcome (fun a => opens a && !(spot (inserted d₂ e₂) a).isOn y)
        (fun a => closes a && !(spot (inserted d₂ e₂) a).isOn y) (spot (inserted d₂ e₂))
        (stage (o.keeps (inserted d e) x inputId) (o.keeps (inserted d e) x outputId)
          (o.into (inserted d e)) U) =
      o.outcome₂ (inserted d e) (inserted d₂ e₂) x y U := by
  rw [outcome_stage, outcome₂]
  congr 1 <;> funext a <;> rw [stays, Bool.and_assoc] <;> rfl

/-- After two substitutions there are the walks of the whole network. -/
theorem Follows.mem_spliced (h : Follows o d e k d₁ d₂ e₂ x y meets')
    (hU : Covers (fun b a => meets x o.host o.inner b a || meets' b a) (o.arrows d e k) U) (w : Wire) :
    w ∈ d₂.spliced e₂ y ↔ w ∈ o.outcome₂ (inserted d e) (inserted d₂ e₂) x y U := by
  have hV := covers_walks d₂ e₂ y
  rw [h.second, ← stage_walked h.proper h.first] at hV
  have hmem := (covers_walked h.proper d e k x).stage h.keeps hU hV
  rw [spliced_eq_outcome, ← outcome_walks]
  simp only [mem_outcome, hmem]

/-- They are there as often, if neither these walks nor those of either substitution run in circles. -/
theorem Follows.spliced_eq (h : Follows o d e k d₁ d₂ e₂ x y meets')
    (hd : ∀ b a, ¬ (meets x o.host o.inner b a = true ∧ meets' b a = true))
    {start finish start₁ finish₁ start₂ finish₂ : Node → Nat} {bound bound₁ bound₂ : Nat}
    (hr : Ranked (fun b a => meets x o.host o.inner b a || meets' b a) (o.arrows d e k) start finish bound)
    (hr₁ : Ranked (meets x 0 1) (d.network e) start₁ finish₁ bound₁)
    (hr₂ : Ranked (meets y 0 1) (d₂.network e₂) start₂ finish₂ bound₂)
    (hU : Solves (fun b a => meets x o.host o.inner b a || meets' b a) (o.arrows d e k) U) :
    d₂.spliced e₂ y = o.outcome₂ (inserted d e) (inserted d₂ e₂) x y U := by
  have hV := solves_walks hr₂
  rw [h.second, ← stage_walked h.proper h.first] at hV hr₂
  have heq := (solves_walked h.proper hr₁ k).stage (covers_walked h.proper d e k x) h.keeps hd hr hU hr₂ hV
  rw [spliced_eq_outcome, heq, outcome_walks]

end Twice

end Order

end StringDiagram
