import StringDiagram.Proofs.Category.Apart
import StringDiagram.Proofs.Category.Laws
import StringDiagram.Proofs.Store.Sessions
import StringDiagram.Proofs.Substitution.Refused
import StringDiagram.Proofs.Validity.Types

/-! # Which valid diagrams can be inserted

The check of a wire asks for ports and types, and not for the direction of the wire. So a wire of a valid
diagram may leave the output boundary, from a port where the outputs arrive, or enter the input boundary at
a port where the inputs start. The splice cannot take such a wire over; all other valid diagrams can be
inserted, composed and put side by side: `insertion_of_valid`. -/
namespace StringDiagram
open Diagram Store

/-- The wire starts where the outputs of the diagram arrive or ends where the inputs start. -/
def Wire.Turned (w : Wire) : Prop :=
  (w.source.isOn outputId = true ∧ w.source.kind = .side .input) ∨
    (w.target.isOn inputId = true ∧ w.target.kind = .side .output)

instance (w : Wire) : Decidable w.Turned := inferInstanceAs (Decidable (_ ∨ _))

namespace Store
variable {s : Store} {d : Diagram}

/-- A valid wire that runs the wrong way is at ports of the boundary that there are. -/
theorem ValidWire.reversed_iff {w : Wire} (h : s.ValidWire d w) : w.Reversed ↔ w.Turned := by
  obtain ⟨a, b, ha, hb, -⟩ := h
  constructor
  · rintro (hout | hin)
    · exact Or.inl ⟨hout, (ha.of_output hout).1⟩
    · exact Or.inr ⟨hin, (hb.of_input hin).1⟩
  · exact Or.imp And.left And.left

theorem directed_iff_of_valid (h : s.validate d = .ok ()) : d.Directed ↔ ∀ w ∈ d.wires, ¬ w.Turned := by
  rw [← not_iff_not, not_directed]
  push Not
  exact exists_congr fun w => and_congr_right fun hw => (validate_eq_ok.mp h w hw).reversed_iff

end Store

namespace Action
variable {s s₀ t : Store} {host inner p q : Ref} {d e f g : Diagram} {P : Plan}

/-- Substitution into a box that there is returns if and only if all wires run the right way. -/
theorem substitute_returns_iff {v : Value} {n : Nat} (hd : s.diagram? host = some d)
    (he : s.diagram? inner = some e) (hcd : d.Consistent) (hce : e.Consistent) (hv : v.boxId? = some n)
    (hn : n ∈ d.boxes.keys) :
    (∃ t, (substitute host v (.ref inner)).perform s = (.ok (), t)) ↔ e.Directed := by
  obtain ⟨box, hbox⟩ := Table.exists_get? hn
  rw [perform_substitute hd he hv hbox (Or.inl rfl)]
  constructor
  · rintro ⟨t, hrun⟩
    by_contra hdir
    obtain ⟨w, -, -, s', d', hfail, -⟩ := inline_reversed hd he hcd hce hn (not_directed.mp hdir)
    rw [hfail] at hrun
    cases hrun
  · intro hdir
    obtain ⟨t, d', hrun, -⟩ := inline_spec hd he hcd hce hdir hn
    exact ⟨t, hrun⟩

/-- A nested diagram that is replaced by what it holds has no wire that runs the wrong way. -/
theorem directed_of_opened {v : Nat} (hd : s.diagram? host = some d) (he : s.diagram? inner = some e)
    (hcd : d.Consistent) (hce : e.Consistent) (hbox : d.boxes.get? v = some (.ref inner))
    (hrun : (substitute host (.ofNat v) .null).perform s = (.ok (), t)) : e.Directed := by
  have hv := Value.boxId?_ofNat v
  refine (substitute_returns_iff hd he hcd hce hv (Table.mem_keys_of_get? hbox)).mp ⟨t, ?_⟩
  rw [← hrun, perform_substitute hd he hv hbox (Or.inl rfl), perform_substitute hd he hv hbox (Or.inr ⟨rfl, rfl⟩)]

/-- If both diagrams came into a scaffold, neither has a wire that runs the wrong way. -/
theorem directed_of_fill (hf : s.diagram? p = some f) (hg : s.diagram? q = some g) (hcf : f.Consistent)
    (hcg : g.Consistent) (hgrow : Grows s s₀) (hnew : s.objects.length ≤ host) (hd : s₀.diagram? host = some d)
    (hsc : Scaffold (.ref p) (.ref q) P d)
    (hrun : (do substitute host (.ofNat 2) .null; substitute host (.ofNat 3) .null).perform s₀ = (.ok (), t)) :
    f.Directed ∧ g.Directed := by
  obtain ⟨_, s₁, hrun₁, hrun₂⟩ := perform_bind_eq_ok.mp hrun
  have hbox : d.boxes.get? 2 = some (.ref p) := by rw [hsc.boxes]; rfl
  have hdf := directed_of_opened hd (hgrow.diagram? hf) hsc.consistent hcf hbox hrun₁
  obtain ⟨s₁', d₁, hheld, h₁⟩ := substitute_held hd hbox (hgrow.diagram? hf) hsc.consistent hcf hdf
  obtain rfl : s₁ = s₁' := congrArg Prod.snd (hrun₁.symm.trans hheld)
  have hbox' : d₁.boxes.get? 3 = some (.ref q) := by
    rw [h₁.get?_old hsc.mem_keys.2 (by decide), hsc.boxes]
    rfl
  have hgrow₁ : Grows s s₁ := .of_frame h₁.frame hgrow hnew
  exact ⟨hdf, directed_of_opened h₁.found (hgrow₁.diagram? hg) h₁.consistent hcg hbox' hrun₂⟩

theorem directed_of_enter {message : Value → Value → Note} {r : Ref} (hf : s.diagram? p = some f)
    (hg : s.diagram? q = some g) (hcf : f.Consistent) (hcg : g.Consistent)
    (hsc : Scaffold (.ref p) (.ref q) P d)
    (hrun : (enter s.objects.length (.ref p) (.ref q) message).perform (s.withNew d) = (.ok r, t)) :
    f.Directed ∧ g.Directed := by
  obtain ⟨-, s₀, hobj, hrun⟩ := of_enter hrun
  have hgrow : Grows s s₀ := by
    rw [Grows, hobj]
    exact grows_withNew s d
  have hd : s₀.diagram? s.objects.length = some d :=
    (diagram?_congr (congrArg (·[s.objects.length]?) hobj)).trans (diagram?_withNew s d)
  exact directed_of_fill hf hg hcf hcg hgrow (Nat.le_refl _) hd hsc hrun

section Operations
variable (hs : s.Closed) (hf : s.diagram? p = some f) (hg : s.diagram? q = some g) (hcf : f.Consistent)
  (hcg : g.Consistent) (hnf : ∃ name, s.diagramName f = .ok name) (hng : ∃ name, s.diagramName g = .ok name)
include hs hf hg hcf hcg hnf hng

theorem compose_returns_iff :
    (∃ r t, (compose (.ref p) (.ref q)).perform s = (.ok r, t)) ↔ f.Directed ∧ g.Directed := by
  constructor
  · rintro ⟨r, t, hrun⟩
    rw [perform_compose (operand_of_diagram hf) (operand_of_diagram hg)] at hrun
    exact directed_of_enter hf hg hcf hcg (scaffold_inSequence _ _ _ _ _).1 hrun
  · rintro ⟨hdf, hdg⟩
    obtain ⟨t, d, hrun, -⟩ := compose_spec (hs.morphism hf hcf hdf hnf) (hs.morphism hg hcg hdg hng)
    exact ⟨_, t, hrun⟩

theorem otimes_returns_iff :
    (∃ v t, (otimes (.ref p) (.ref q)).perform s = (.ok v, t)) ↔ f.Directed ∧ g.Directed := by
  constructor
  · rintro ⟨v, t, hrun⟩
    obtain ⟨r, u, hmade, -⟩ := perform_bind_eq_ok.mp hrun
    rw [perform_otimesBoxes (operand_of_diagram hf) (operand_of_diagram hg)] at hmade
    exact directed_of_enter hf hg hcf hcg (scaffold_sideBySide _ _ _ _ _ _).1 hmade
  · rintro ⟨hdf, hdg⟩
    obtain ⟨t, d, hrun, -⟩ := otimesBoxes_spec (hs.morphism hf hcf hdf hnf) (hs.morphism hg hcg hdg hng)
    exact ⟨_, t, perform_bind_eq_ok.mpr ⟨_, t, hrun, rfl⟩⟩

end Operations

end Action

/-- A valid diagram can be inserted if and only if none of its wires is turned; and valid diagrams whose
names can be written can be composed, and put side by side, if and only if no wire of either is. -/
theorem insertion_of_valid {s : Store} (hs : s.Closed) (hsound : s.Sound) :
    (∀ host inner d e, s.diagram? host = some d → s.diagram? inner = some e → s.validate e = .ok () →
      ∀ v n, v.boxId? = some n → n ∈ d.boxes.keys →
        ((∃ t, (Action.substitute host v (.ref inner)).perform s = (.ok (), t)) ↔ ∀ w ∈ e.wires, ¬ w.Turned)) ∧
    ∀ p q f g, s.diagram? p = some f → s.diagram? q = some g → s.validate f = .ok () → s.validate g = .ok () →
      (∃ name, s.diagramName f = .ok name) → (∃ name, s.diagramName g = .ok name) →
        ((∃ r t, (Action.compose (.ref p) (.ref q)).perform s = (.ok r, t)) ↔
          (∀ w ∈ f.wires, ¬ w.Turned) ∧ ∀ w ∈ g.wires, ¬ w.Turned) ∧
        ((∃ v t, (Action.otimes (.ref p) (.ref q)).perform s = (.ok v, t)) ↔
          (∀ w ∈ f.wires, ¬ w.Turned) ∧ ∀ w ∈ g.wires, ¬ w.Turned) := by
  refine ⟨fun host inner d e hd he hvalid v n hv hn => ?_, fun p q f g hf hg hvf hvg hnf hng => ?_⟩
  · rw [← directed_iff_of_valid hvalid]
    exact Action.substitute_returns_iff hd he (hsound.consistent hd) (hsound.consistent he) hv hn
  · have hcf := hsound.consistent hf
    have hcg := hsound.consistent hg
    rw [← directed_iff_of_valid hvf, ← directed_iff_of_valid hvg]
    exact ⟨Action.compose_returns_iff hs hf hg hcf hcg hnf hng,
      Action.otimes_returns_iff hs hf hg hcf hcg hnf hng⟩

def Store.framed : Store :=
  let a := Value.object "A"
  let f := Value.atomic (.hom (.text "f") [a] [a])
  ⟨[.diagram (forked a f), .diagram (merged a f)], []⟩

theorem insertion_of_valid_framed :
    (∃ t, (Action.substitute 0 (.ofNat 2) (.ref 1)).perform framed = (.ok (), t)) ∧
    (∃ r t, (Action.compose (.ref 0) (.ref 1)).perform framed = (.ok r, t)) ∧
    ∃ v t, (Action.otimes (.ref 0) (.ref 1)).perform framed = (.ok v, t) := by
  let a := Value.object "A"
  let f := Value.atomic (.hom (.text "f") [a] [a])
  have hs : framed.Closed := closed_of_forall (by decide)
  have hsound : framed.Sound := fun d hd => by
    rcases List.mem_pair.mp hd with hd | hd
    · exact Object.diagram.inj hd ▸ consistent_forked a f
    · exact Object.diagram.inj hd ▸ consistent_merged a f
  have hforked : ∀ w ∈ (forked a f).wires, ¬ w.Turned := by decide
  have hmerged : ∀ w ∈ (merged a f).wires, ¬ w.Turned := by decide
  obtain ⟨hinsert, hcombine⟩ := insertion_of_valid hs hsound
  obtain ⟨hcompose, hotimes⟩ := hcombine 0 1 (forked a f) (merged a f) rfl rfl rfl rfl ⟨_, rfl⟩ ⟨_, rfl⟩
  exact ⟨(hinsert 0 1 (forked a f) (merged a f) rfl rfl rfl (.ofNat 2) 2 (Value.boxId?_ofNat 2) (by decide)).mpr
    hmerged, hcompose.mpr ⟨hforked, hmerged⟩, hotimes.mpr ⟨hforked, hmerged⟩⟩

def Diagram.turned : Diagram :=
  let c := Connector.input (.ofNat 1) (.ofNat 0)
  (new [] [.object "A"]).link 1 1 ⟨c, c⟩

/-- A valid diagram is refused for such a wire, and another, which has no wires, for a type without a text. -/
theorem valid_refused :
    let s : Store := ⟨[.diagram looped, .diagram turned, .diagram (new [.untold] [])], []⟩
    (s.validate turned = .ok () ∧ 2 ∈ looped.boxes.keys ∧
      ((Action.substitute 0 (.ofNat 2) (.ref 1)).perform s).1 = .error (.missingKey (.ofNat 1))) ∧
    s.validate (new [.untold] []) = .ok () ∧
      ((Action.compose (.ref 2) (.ref 2)).perform s).1 = .error .missingAttribute ∧
      ((Action.otimes (.ref 2) (.ref 2)).perform s).1 = .error .missingAttribute := by
  refine ⟨⟨?_, ?_, ?_⟩, ?_, ?_, ?_⟩ <;> decide +kernel

end StringDiagram
