import StringDiagram.Proofs.Category.Terms

/-! # The laws of composition

Diagrams form a category up to the identifiers of their boxes, as long as their names can be written:
`compose_category`. Composition notes the names before it does anything else, so a type that has no text
stops it: `identity_compose_refused`. -/
namespace StringDiagram
open Diagram Store

namespace Diagram

def forked (a b : Value) : Diagram :=
  ((((new [a] [a, a]).addBox b).link 0 2 (.ofPorts 0 0 2 0)).link 2 1 (.ofPorts 2 0 1 0)).link 0 1
    (.ofPorts 0 0 1 1)

def merged (a b : Value) : Diagram :=
  ((((new [a, a] [a]).addBox b).link 0 2 (.ofPorts 0 0 2 0)).link 2 1 (.ofPorts 2 0 1 0)).link 0 1
    (.ofPorts 0 1 1 0)

theorem consistent_forked (a b : Value) : (forked a b).Consistent := by
  have h := (consistent_new [a] [a, a]).addBox b
  have hlive : (new [a] [a, a]).live = [0, 1] := rfl
  have hnext : (new [a] [a, a]).next = 2 := rfl
  refine ((h.link ?_ ?_ ?_).link ?_ ?_ ?_).link ?_ ?_ ?_ <;>
    simp [live_addBox, hlive, hnext, Wire.ofPorts, Connector.input, Connector.output]

theorem consistent_merged (a b : Value) : (merged a b).Consistent := by
  have h := (consistent_new [a, a] [a]).addBox b
  have hlive : (new [a, a] [a]).live = [0, 1] := rfl
  have hnext : (new [a, a] [a]).next = 2 := rfl
  refine ((h.link ?_ ?_ ?_).link ?_ ?_ ?_).link ?_ ?_ ?_ <;>
    simp [live_addBox, hlive, hnext, Wire.ofPorts, Connector.input, Connector.output]

end Diagram

/-- Two diagrams that can follow each other either way, and hold a third. -/
def Store.forking : Store :=
  ⟨[.diagram (forked (.object "A") (.ref 2)), .diagram (merged (.object "A") (.ref 2)),
    .diagram (new [] [])], []⟩

namespace Store

theorem closed_forking : forking.Closed := closed_of_forall (by decide)

theorem morphism_forked : forking.Morphism 0 (forked (.object "A") (.ref 2)) := by
  refine closed_forking.morphism rfl (consistent_forked _ _) ?_ ⟨_, rfl⟩
  unfold Diagram.Directed
  decide

theorem morphism_merged : forking.Morphism 1 (merged (.object "A") (.ref 2)) := by
  refine closed_forking.morphism rfl (consistent_merged _ _) ?_ ⟨_, rfl⟩
  unfold Diagram.Directed
  decide

theorem outward_forked : (forked (.object "A") (.ref 2)).Outward := by
  unfold Outward
  decide

end Store

section Laws
variable {s : Store} {p q r : Ref} {f g h : Diagram}

/-- Composition respects correspondence, and it is associative in the order of the boxes; and composing
with an identity changes nothing if the boundary is left at outputs and entered at inputs that there are. -/
theorem compose_category (hf : s.Morphism p f) (hg : s.Morphism q g) (hh : s.Morphism r h) :
    (∀ p' q' f' g' σ σ', s.Morphism p' f' → s.Morphism q' g' → s.Corresponds σ f f' →
      s.Corresponds σ' g g' →
      s.Agree (.compose (.given p) (.given q)) (.compose (.given p') (.given q'))) ∧
    (f.outputs.length = g.inputs.length → g.outputs.length = h.inputs.length →
      s.AgreeInOrder (.compose (.compose (.given p) (.given q)) (.given r))
        (.compose (.given p) (.compose (.given q) (.given r)))) ∧
    (f.Outward → s.Agree (.compose (.identity f.inputs) (.given p)) (.given p) ∧
      s.Agree (.compose (.given p) (.identity f.outputs)) (.given p)) := by
  have hF : s.Draws (.given p) f.blueprint := .given hf
  have hG : s.Draws (.given q) g.blueprint := .given hg
  have hH : s.Draws (.given r) h.blueprint := .given hh
  refine ⟨fun p' q' f' g' σ σ' hf' hg' hσ hσ' => ?_, fun hfg _ => ?_, fun ho => ?_⟩
  · have hlike := hσ.like hf.consistent hf'.consistent hf.directed
    have hlike' := hσ'.like hg.consistent hg'.consistent hg.directed
    exact agree_of_like (hF.compose hG) (.compose (.given hf') (.given hg')) trivial trivial
      (hlike.compose hlike' hF.sound hG.sound)
  · exact agreeInOrder_of_eq ((hF.compose hG).compose hH) (hF.compose (hG.compose hH)) trivial trivial
      (Blueprint.compose_assoc hfg)
  · have htight := tight_blueprint hf.consistent hf.directed ho
    exact ⟨(agreeInOrder_of_eq (.compose (.identity hf.writable.1) hF) hF trivial (hf.outward ho)
        (Blueprint.identity_compose htight)).agree,
      (agreeInOrder_of_eq (.compose hF (.identity hf.writable.2)) hF trivial (hf.outward ho)
        (Blueprint.compose_identity htight)).agree⟩

/-- A diagram with a fork and one with a merge, which hold a third. -/
theorem compose_category_forking :
    forking.Agree (.compose (.given 0) (.given 1)) (.compose (.given 0) (.given 1)) ∧
    forking.AgreeInOrder (.compose (.compose (.given 0) (.given 1)) (.given 0))
      (.compose (.given 0) (.compose (.given 1) (.given 0))) ∧
    forking.Agree (.compose (.identity [.object "A"]) (.given 0)) (.given 0) ∧
    forking.Agree (.compose (.given 0) (.identity [.object "A", .object "A"])) (.given 0) := by
  have hlaws := compose_category morphism_forked morphism_merged morphism_forked
  exact ⟨hlaws.1 0 1 _ _ id id morphism_forked morphism_merged (.refl morphism_forked.rooted)
    (.refl morphism_merged.rooted), hlaws.2.1 rfl rfl, hlaws.2.2 outward_forked⟩

/-- A type without a text: the kind of a port that is none. -/
def Value.untold : Value := .connector (.ofNat 0) (.ofNat 3) (.ofNat 0)

def Store.unnamed : Store := ⟨[.diagram (new [.untold] [])], []⟩

theorem Store.not_agree_of_refused {a b : Term} {e : Fault} (h : ((a.both b).perform s).1 = .error e) :
    ¬ s.Agree a b := by
  rintro ⟨t, p, q, d, e', σ, hrun, -⟩
  rw [hrun] at h
  cases h

/-- An identity is not composed with a diagram that cannot be named. -/
theorem identity_compose_refused : let d := new [.untold] []
    unnamed.diagram? 0 = some d ∧ d.Consistent ∧ d.Directed ∧ d.Outward ∧
      ¬ unnamed.Agree (.compose (.identity d.inputs) (.given 0)) (.given 0) := by
  refine ⟨rfl, consistent_new _ _, (bare_new _ _).directed, (bare_new _ _).outward, ?_⟩
  exact not_agree_of_refused (e := .missingAttribute) (by decide +kernel)

/-- The product respects correspondence, it is associative, the empty row is its unit, and it is compatible
with identities and with composition. -/
theorem otimes_monoidal {x : Ref} {k : Diagram} (hf : s.Morphism p f) (hg : s.Morphism q g)
    (hh : s.Morphism r h) (hk : s.Morphism x k) :
    (∀ p' q' f' g' σ σ', s.Morphism p' f' → s.Morphism q' g' → s.Corresponds σ f f' →
      s.Corresponds σ' g g' →
      s.Agree (.otimes (.given p) (.given q)) (.otimes (.given p') (.given q'))) ∧
    s.Agree (.otimes (.otimes (.given p) (.given q)) (.given r))
      (.otimes (.given p) (.otimes (.given q) (.given r))) ∧
    (f.Outward → s.Agree (.otimes (.given p) (.identity [])) (.given p) ∧
      s.Agree (.otimes (.identity []) (.given p)) (.given p)) ∧
    (∀ as bs, s.Writable as → s.Writable bs →
      s.Agree (.otimes (.identity as) (.identity bs)) (.identity (as ++ bs))) ∧
    (f.outputs.length = g.inputs.length → h.outputs.length = k.inputs.length →
      s.Agree (.otimes (.compose (.given p) (.given q)) (.compose (.given r) (.given x)))
        (.compose (.otimes (.given p) (.given r)) (.otimes (.given q) (.given x)))) := by
  have hF : s.Draws (.given p) f.blueprint := .given hf
  have hG : s.Draws (.given q) g.blueprint := .given hg
  have hH : s.Draws (.given r) h.blueprint := .given hh
  have hK : s.Draws (.given x) k.blueprint := .given hk
  have hU : s.Draws (.identity []) (.identity []) := .identity ⟨_, rfl⟩
  refine ⟨fun p' q' f' g' σ σ' hf' hg' hσ hσ' => ?_, ?_, fun ho => ?_, fun as bs has hbs => ?_,
    fun hfg hhk => ?_⟩
  · have hlike := hσ.like hf.consistent hf'.consistent hf.directed
    have hlike' := hσ'.like hg.consistent hg'.consistent hg.directed
    exact agree_of_like (hF.otimes hG) (.otimes (.given hf') (.given hg')) trivial trivial
      (hlike.otimes hlike' hF.sound hG.sound)
  · exact (agreeInOrder_of_eq ((hF.otimes hG).otimes hH) (hF.otimes (hG.otimes hH)) trivial trivial
      (Blueprint.otimes_assoc _ _ _)).agree
  · have htight := tight_blueprint hf.consistent hf.directed ho
    exact ⟨(agreeInOrder_of_eq (hF.otimes hU) hF trivial (hf.outward ho) (Blueprint.otimes_unit htight)).agree,
      (agreeInOrder_of_eq (hU.otimes hF) hF trivial (hf.outward ho) (Blueprint.unit_otimes htight)).agree⟩
  · exact (agreeInOrder_of_eq (.otimes (.identity has) (.identity hbs)) (.identity (has.append hbs)) trivial
      trivial (Blueprint.identity_otimes as bs)).agree
  · have hleft := (hF.compose hG).otimes (hH.compose hK)
    exact agree_of_like hleft ((hF.otimes hH).compose (hG.otimes hK)) trivial trivial
      (Blueprint.interchange hfg hhk hF.sound hG.sound hH.sound fun b hb =>
        .of_grows (.refl s) (hleft.rooted b hb))

/-- The fork beside the merge, before the merge beside the fork. -/
theorem otimes_monoidal_forking :
    forking.Agree (.otimes (.given 0) (.given 1)) (.otimes (.given 0) (.given 1)) ∧
    forking.Agree (.otimes (.otimes (.given 0) (.given 1)) (.given 1))
      (.otimes (.given 0) (.otimes (.given 1) (.given 1))) ∧
    (forking.Agree (.otimes (.given 0) (.identity [])) (.given 0) ∧
      forking.Agree (.otimes (.identity []) (.given 0)) (.given 0)) ∧
    forking.Agree (.otimes (.identity [.object "A"]) (.identity [.null, .text "B"]))
      (.identity [.object "A", .null, .text "B"]) ∧
    forking.Agree (.otimes (.compose (.given 0) (.given 1)) (.compose (.given 1) (.given 0)))
      (.compose (.otimes (.given 0) (.given 1)) (.otimes (.given 1) (.given 0))) := by
  have hlaws := otimes_monoidal morphism_forked morphism_merged morphism_merged morphism_forked
  exact ⟨hlaws.1 0 1 _ _ id id morphism_forked morphism_merged (.refl morphism_forked.rooted)
    (.refl morphism_merged.rooted), hlaws.2.1, hlaws.2.2.1 outward_forked,
    hlaws.2.2.2.1 [.object "A"] [.null, .text "B"] ⟨_, rfl⟩ ⟨_, rfl⟩, hlaws.2.2.2.2 rfl rfl⟩

/-- Nor is it put beside the unit. -/
theorem otimes_unit_refused : let d := new [.untold] []
    unnamed.diagram? 0 = some d ∧ d.Consistent ∧ d.Directed ∧ d.Outward ∧
      ¬ unnamed.Agree (.otimes (.given 0) (.identity [])) (.given 0) := by
  refine ⟨rfl, consistent_new _ _, (bare_new _ _).directed, (bare_new _ _).outward, ?_⟩
  exact not_agree_of_refused (e := .missingAttribute) (by decide +kernel)

/-- The braid undoes itself the other way round, it passes two rows as it passes one after the other, and
diagrams slide through it. -/
theorem braid_symmetry {as bs cs : List Value} (has : s.Writable as) (hbs : s.Writable bs)
    (hcs : s.Writable cs) (hf : s.Morphism p f) (hg : s.Morphism q g) :
    s.Agree (.compose (.braid as bs) (.braid bs as)) (.identity (as ++ bs)) ∧
    s.Agree (.braid as (bs ++ cs)) (.compose (.otimes (.braid as bs) (.identity cs))
      (.otimes (.identity bs) (.braid as cs))) ∧
    s.Agree (.braid (as ++ bs) cs) (.compose (.otimes (.identity as) (.braid bs cs))
      (.otimes (.braid as cs) (.identity bs))) ∧
    s.Agree (.compose (.otimes (.given p) (.given q)) (.braid f.outputs g.outputs))
      (.compose (.braid f.inputs g.inputs) (.otimes (.given q) (.given p))) := by
  have hF : s.Draws (.given p) f.blueprint := .given hf
  have hG : s.Draws (.given q) g.blueprint := .given hg
  refine ⟨?_, ?_, ?_, ?_⟩
  · exact (agreeInOrder_of_eq (.compose (.braid has hbs) (.braid hbs has)) (.identity (has.append hbs)) trivial
      trivial (Blueprint.braid_braid as bs)).agree
  · exact (agreeInOrder_of_eq (.braid has (hbs.append hcs)) (.compose (.otimes (.braid has hbs) (.identity hcs))
      (.otimes (.identity hbs) (.braid has hcs))) trivial trivial (Blueprint.braid_append as bs cs)).agree
  · exact (agreeInOrder_of_eq (.braid (has.append hbs) hcs) (.compose (.otimes (.identity has) (.braid hbs hcs))
      (.otimes (.braid has hcs) (.identity hbs))) trivial trivial (Blueprint.append_braid as bs cs)).agree
  · have hleft := (hF.otimes hG).compose (.braid hf.writable.2 hg.writable.2)
    exact agree_of_like hleft (.compose (.braid hf.writable.1 hg.writable.1) (hG.otimes hF)) trivial trivial
      (Blueprint.naturality hF.sound fun b hb => .of_grows (.refl s) ((hF.otimes hG).rooted b hb))

/-- Rows of different lengths, and the fork and the merge beside each other. -/
theorem braid_symmetry_forking : let f := forked (.object "A") (.ref 2)
    let g := merged (.object "A") (.ref 2)
    let as : List Value := [.object "A", .null]
    let bs : List Value := [.text "B"]
    forking.Agree (.compose (.braid as bs) (.braid bs as)) (.identity (as ++ bs)) ∧
    forking.Agree (.braid as (bs ++ [])) (.compose (.otimes (.braid as bs) (.identity []))
      (.otimes (.identity bs) (.braid as []))) ∧
    forking.Agree (.braid (as ++ bs) []) (.compose (.otimes (.identity as) (.braid bs []))
      (.otimes (.braid as []) (.identity bs))) ∧
    forking.Agree (.compose (.otimes (.given 0) (.given 1)) (.braid f.outputs g.outputs))
      (.compose (.braid f.inputs g.inputs) (.otimes (.given 1) (.given 0))) :=
  braid_symmetry ⟨_, rfl⟩ ⟨_, rfl⟩ ⟨_, rfl⟩ morphism_forked morphism_merged

/-- A braid of such a type cannot be composed with anything. -/
theorem braid_compose_refused :
    ¬ Store.empty.Agree (.compose (.braid [.untold] []) (.braid [] [.untold])) (.identity [.untold]) :=
  not_agree_of_refused (e := .missingAttribute) (by decide +kernel)

end Laws

end StringDiagram
