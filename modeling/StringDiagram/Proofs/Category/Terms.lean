import StringDiagram.Proofs.Category.Correspond
import StringDiagram.Proofs.Category.Operations

/-! # Terms of the category

A term says which operations make a diagram of others. Building it one operation after the other gives
a diagram whose blueprint is that of the term, so that two terms agree if their blueprints are alike:
`Draws.builds` and `agree_of_like`. -/
namespace StringDiagram
open Diagram Store

inductive Term where
  /-- A diagram that is there. -/
  | given (r : Ref)
  | identity (as : List Value)
  | braid (as bs : List Value)
  | compose (a b : Term)
  | otimes (a b : Term)

namespace Term

/-- The diagram of a term is made from the inside out, what stands first before what stands second. -/
def build : Term → Action Value
  | .given r => return .ref r
  | .identity as => do return .ref (← Action.identity (.row as))
  | .braid as bs => do return .ref (← Action.braid (.row as) (.row bs))
  | .compose a b => do
    let f ← a.build
    let g ← b.build
    return .ref (← Action.compose f g)
  | .otimes a b => do
    let f ← a.build
    let g ← b.build
    Action.otimes f g

def both (a b : Term) : Action (Value × Value) := do
  let f ← a.build
  let g ← b.build
  return (f, g)

theorem build_compose (a b : Term) : (compose a b).build = (do
    let (f, g) ← a.both b
    return .ref (← Action.compose f g)) := by
  simp [build, both]

theorem build_otimes (a b : Term) : (otimes a b).build = (do
    let (f, g) ← a.both b
    Action.otimes f g) := by
  simp [build, both]

/-- What is made by an operation leaves and enters the boundary as it should, but what was there may
not. -/
def Outward (s : Store) : Term → Prop
  | .given r => ∀ d, s.diagram? r = some d → d.Outward
  | _ => True

end Term

namespace Store
variable {s t : Store} {a b : Term} {X Y : Blueprint}

theorem Morphism.outward {r : Ref} {d : Diagram} (h : s.Morphism r d) (ho : d.Outward) :
    (Term.given r).Outward s := by
  intro e he
  obtain rfl : d = e := Option.some.inj (h.found.symm.trans he)
  exact ho

def Builds (s : Store) (a : Term) (X : Blueprint) : Prop :=
  ∀ t, Grows s t → ∃ u r d, a.build.perform t = (.ok (.ref r), u) ∧ Grows t u ∧
    (a.Outward s → d.Outward) ∧ s.Realizes X u r d

/-- What the first term made is as it was when the second has been built. -/
theorem Builds.both (ha : s.Builds a X) (hb : s.Builds b Y) (hg : Grows s t) : ∃ u p d q e,
    (a.both b).perform t = (.ok (.ref p, .ref q), u) ∧ Grows t u ∧ (a.Outward s → d.Outward) ∧
      (b.Outward s → e.Outward) ∧ s.Realizes X u p d ∧ s.Realizes Y u q e := by
  obtain ⟨t', p, d, hrun, hg', hdo, hd⟩ := ha t hg
  obtain ⟨u, q, e, hrun', hg'', heo, he⟩ := hb t' hd.grows
  refine ⟨u, p, d, q, e, ?_, hg'.trans hg'', hdo, heo, hd.lasts hg'', he⟩
  rw [Term.both, Action.perform_bind, hrun]
  dsimp only
  rw [Action.perform_bind, hrun']
  rfl

/-- The blueprint of a term, if the diagrams in it are there and all rows can be written. -/
inductive Draws (s : Store) : Term → Blueprint → Prop
  | given {r : Ref} {d : Diagram} (h : s.Morphism r d) : Draws s (.given r) d.blueprint
  | identity {as : List Value} (h : s.Writable as) : Draws s (.identity as) (.identity as)
  | braid {as bs : List Value} (h : s.Writable as) (h' : s.Writable bs) :
    Draws s (.braid as bs) (.braid as bs)
  | compose {a b : Term} {X Y : Blueprint} (h : Draws s a X) (h' : Draws s b Y) :
    Draws s (.compose a b) (X.compose Y)
  | otimes {a b : Term} {X Y : Blueprint} (h : Draws s a X) (h' : Draws s b Y) :
    Draws s (.otimes a b) (X.otimes Y)

namespace Draws

theorem sound (h : s.Draws a X) : X.Sound := by
  induction h with
  | given h => exact sound_blueprint h.consistent h.directed
  | identity => exact Blueprint.sound_ports _ _ _
  | braid => exact Blueprint.sound_ports _ _ _
  | compose _ _ ih ih' => exact ih.compose ih'
  | otimes _ _ ih ih' => exact ih.otimes ih'

theorem rooted (h : s.Draws a X) : ∀ b ∈ X.parts, s.Rooted b := by
  induction h with
  | given h => exact h.rooted
  | identity => exact fun b hb => nomatch hb
  | braid => exact fun b hb => nomatch hb
  | compose _ _ ih ih' => exact fun b hb => (List.mem_append.mp hb).elim (ih b) (ih' b)
  | otimes _ _ ih ih' => exact fun b hb => (List.mem_append.mp hb).elim (ih b) (ih' b)

/-- A term can be built in any later store, and the diagram is what its blueprint says. -/
theorem builds (h : s.Draws a X) : s.Builds a X := by
  induction h with
  | @given r d h =>
    exact fun t hg => ⟨t, r, d, rfl, .refl t, fun ho => ho d h.found, (Realizes.given h).lasts hg⟩
  | identity h =>
    intro t hg
    obtain ⟨u, d, hrun, ho, hr⟩ := Action.identity_spec (h.grows hg)
    refine ⟨u, _, d, ?_, hr.grows, fun _ => ho, hr.of_grows hg fun b hb => nomatch hb⟩
    rw [Term.build, Action.perform_bind, hrun]
    rfl
  | braid h h' =>
    intro t hg
    obtain ⟨u, d, hrun, ho, hr⟩ := Action.braid_spec (h.grows hg) (h'.grows hg)
    refine ⟨u, _, d, ?_, hr.grows, fun _ => ho, hr.of_grows hg fun b hb => nomatch hb⟩
    rw [Term.build, Action.perform_bind, hrun]
    rfl
  | compose ha hb iha ihb =>
    intro t hg
    obtain ⟨t', p, f, q, g, hboth, hg', -, -, hf, hgr⟩ := iha.both ihb hg
    obtain ⟨u, d, hrun, ho, hr⟩ := Action.compose_spec hf.morphism hgr.morphism
    refine ⟨u, _, d, ?_, hg'.trans hr.grows, fun _ => ho,
      hr.of_like hf.grows (hf.like.compose_id hgr.like ha.sound hb.sound)⟩
    rw [Term.build_compose, Action.perform_bind, hboth]
    dsimp only
    rw [Action.perform_bind, hrun]
    rfl
  | otimes ha hb iha ihb =>
    intro t hg
    obtain ⟨t', p, f, q, g, hboth, hg', -, -, hf, hgr⟩ := iha.both ihb hg
    obtain ⟨u, d, hrun, ho, hr⟩ := Action.otimesBoxes_spec hf.morphism hgr.morphism
    refine ⟨u, _, d, ?_, hg'.trans hr.grows, fun _ => ho,
      hr.of_like hf.grows (hf.like.otimes_id hgr.like ha.sound hb.sound)⟩
    rw [Term.build_otimes, Action.perform_bind, hboth]
    simp only [Action.otimes, Action.perform_bind, hrun]
    rfl

end Draws

/-- Both terms can be built, one after the other, and what they make is the same up to the identifiers of
the boxes. All that was there stays as it was. -/
def Agree (s : Store) (a b : Term) : Prop := ∃ t p q d e σ,
  (a.both b).perform s = (.ok (.ref p, .ref q), t) ∧ Grows s t ∧
    t.diagram? p = some d ∧ t.diagram? q = some e ∧ t.Corresponds σ d e

/-- The terms agree, and the boxes of what they make are in the same order. -/
def AgreeInOrder (s : Store) (a b : Term) : Prop := ∃ t p q d e σ,
  (a.both b).perform s = (.ok (.ref p, .ref q), t) ∧ Grows s t ∧
    t.diagram? p = some d ∧ t.diagram? q = some e ∧ t.Corresponds σ d e ∧
      d.boxes.keys.map σ = e.boxes.keys

variable {τ : Nat → Nat}

/-- What is made of two terms corresponds if their blueprints are alike. -/
theorem corresponds_of_draws (ha : s.Draws a X) (hb : s.Draws b Y) (hao : a.Outward s) (hbo : b.Outward s)
    (h : Blueprint.Like (s.Matched · s ·) τ X Y) : ∃ t p q d e,
      (a.both b).perform s = (.ok (.ref p, .ref q), t) ∧ Grows s t ∧
        t.diagram? p = some d ∧ t.diagram? q = some e ∧ d.Consistent ∧
          Blueprint.Like (t.Matched · t ·) τ d.blueprint e.blueprint ∧ t.Corresponds (carry τ d e) d e := by
  obtain ⟨t, p, d, q, e, hrun, hg, hdo, heo, hd, he⟩ := ha.builds.both hb.builds (.refl s)
  have hback : Blueprint.Like (fun b' b => t.Matched b' s b) id d.blueprint X :=
    hd.like.symm fun b hb _ hm => hm.symm (ha.rooted b hb)
  have hlike : Blueprint.Like (t.Matched · t ·) τ d.blueprint e.blueprint :=
    (hback.trans h (T := (t.Matched · s ·)) fun _ _ _ _ => .trans).trans he.like fun _ _ _ _ => .trans
  exact ⟨t, p, q, d, e, hrun, hg, hd.morphism.found, he.morphism.found, hd.morphism.consistent, hlike,
    corresponds_of_like hd.morphism.consistent he.morphism.consistent hd.morphism.directed
      he.morphism.directed (hdo hao) (heo hbo) hlike⟩

theorem agree_of_like (ha : s.Draws a X) (hb : s.Draws b Y) (hao : a.Outward s) (hbo : b.Outward s)
    (h : Blueprint.Like (s.Matched · s ·) τ X Y) : s.Agree a b := by
  obtain ⟨t, p, q, d, e, hrun, hg, hd, he, -, -, hc⟩ := corresponds_of_draws ha hb hao hbo h
  exact ⟨t, p, q, d, e, _, hrun, hg, hd, he, hc⟩

/-- Terms with one blueprint agree in order. -/
theorem agreeInOrder_of_eq (ha : s.Draws a X) (hb : s.Draws b Y) (hao : a.Outward s) (hbo : b.Outward s)
    (h : X = Y) : s.AgreeInOrder a b := by
  obtain ⟨t, p, q, d, e, hrun, hg, hd, he, hcd, hlike, hc⟩ := corresponds_of_draws ha hb hao hbo
    (.of_eq (fun b hb => .of_grows (.refl s) (ha.rooted b hb)) h)
  exact ⟨t, p, q, d, e, _, hrun, hg, hd, he, hc, map_carry_id hcd hlike.length_eq⟩

theorem AgreeInOrder.agree (h : s.AgreeInOrder a b) : s.Agree a b := by
  obtain ⟨t, p, q, d, e, σ, hrun, hg, hd, he, hc, -⟩ := h
  exact ⟨t, p, q, d, e, σ, hrun, hg, hd, he, hc⟩

end Store

end StringDiagram
