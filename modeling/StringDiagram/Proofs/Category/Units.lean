import StringDiagram.Proofs.Linear.Composites
import StringDiagram.Proofs.Linear.Solo

/-! # Units of substitution

The diagram of a single box is a unit on both sides. Put in the place of that box it leaves the host as it
was, with the box under a new identifier, and a diagram that is put in the place of its own single box comes
out as it was: `substitute_units`. A box without rows has no such diagram, though no wire may ask for
them: `generator_unreadable`. -/
namespace StringDiagram
open Diagram Store

/-- The same rows, and the same wires as often as before, once `σ` has given the boxes their numbers. -/
structure Diagram.Renewed (σ : Nat → Nat) (d d' : Diagram) : Prop where
  consistent : d'.Consistent
  inputs : d'.inputs = d.inputs
  outputs : d'.outputs = d.outputs
  wires : (d'.wires : Multiset Wire).map Wire.norm = (d.wires : Multiset Wire).map fun w => (w.renumber σ).norm

namespace Store
variable {s t : Store} {host : Ref} {b : Value} {held : List Value}

theorem boxOrAtomic_of_isBox (hb : s.isBox b = .ok true) : s.boxOrAtomic b = .ok b := by
  rw [boxOrAtomic, hb]
  rfl

/-- A single box that is no diagram is brought as it is. -/
theorem Brought.eq_singleton (h : s.Brought host [b] t held) (hn : s.asDiagram? b = none) : held = [b] := by
  have hcopy : (Action.copyBox b).perform s = (.ok b, s) := by simp [Action.copyBox, Action.perform_bind, hn]
  cases h with
  | cons h _ hrest =>
    cases hrest
    cases hcopy.symm.trans h
    rfl

/-- A box that is there does not turn into a new diagram. -/
theorem asDiagram?_withNew (hb : s.isBox b = .ok true) (hn : s.asDiagram? b = none) (d : Diagram) :
    (s.withNew d).asDiagram? b = none := by
  cases b with
  | ref r =>
    have hlt : r < s.objects.length := by
      by_contra hge
      have hmissing : s.objects[r]? = none := List.getElem?_eq_none (Nat.le_of_not_lt hge)
      simp [isBox, hmissing] at hb
    rw [asDiagram?_grows (grows_withNew s d) (b := .ref r) (fun q hq => List.mem_singleton.mp hq ▸ hlt)]
    exact hn
  | _ => rfl

/-- From what was in the store no new diagram can be reached. -/
theorem Closed.apart_withNew (hs : s.Closed) {r : Ref} {e : Diagram} (he : s.diagram? r = some e)
    (hb : b ∈ e.boxes.values) (d : Diagram) : (s.withNew d).Apart s.objects.length b := by
  intro q e' _ _ hreach
  have hlt := hs.lt_of_box he hb
  exact absurd (hs.lt_of_reaches hlt (hs.reaches_of_append hlt rfl hreach)) (Nat.lt_irrefl _)

end Store

/-- The diagram of box `b` can be put in the place of `b` at `v`, and only the number of that box changes. -/
def Store.RenewsBox (s : Store) (host : Ref) (d : Diagram) (v : Nat) (b : Value) : Prop :=
  ∃ g t s' d', (Action.generator b).perform s = (.ok g, t) ∧
    (Action.substitute host (.ofNat v) (.ref g)).perform t = (.ok (), s') ∧ s'.diagram? host = some d' ∧
    d'.boxes = d.boxes.remove v ++ [(d.next, b)] ∧ d.Renewed (Function.update id v d.next) d'

/-- The diagram at `r` can be put in the place of the single box of its own diagram. Its boxes come out in their
order, nested diagrams as copies, and its boundary stays the boundary. -/
def Store.RenewsWhole (s : Store) (r : Ref) (d : Diagram) : Prop :=
  ∃ g t, (Action.generator (.ref r)).perform s = (.ok g, t) ∧ ∀ sub, sub = .ref r ∨ sub = .null →
    ∃ s' d' held σ, (Action.substitute g (.ofNat 2) sub).perform t = (.ok (), s') ∧ s'.diagram? g = some d' ∧
      d'.boxes = (List.range' 3 held.length).zip held ∧
      List.Forall₂ (fun b b' => t.Held b s' b') d.boxes.values held ∧
      σ inputId = inputId ∧ σ outputId = outputId ∧ (∀ (i u : Nat), d.boxes.keys[i]? = some u → σ u = 3 + i) ∧
      d.Renewed σ d'

section Units
variable {s : Store} {host r : Ref} {d : Diagram} {v m n : Nat} {b : Value}

theorem renewsBox (hd : s.diagram? host = some d) (hcd : d.Consistent) (hb : d.boxes.get? v = some b)
    (hbox : s.isBox b = .ok true) (hn : s.asDiagram? b = none) (hin : s.Arity .input b m)
    (hout : s.Arity .output b n) (hw : ∀ w ∈ d.wires, w.source.Among v .output n ∧ w.target.Among v .input m) :
    s.RenewsBox host d v b := by
  obtain ⟨ins, hins, rfl⟩ := hin.exists_lists
  obtain ⟨outs, houts, rfl⟩ := hout.exists_lists
  have hwoven := woven_solo ins outs b
  have hv := Table.mem_keys_of_get? hb
  have hgen := Action.perform_generator (boxOrAtomic_of_isBox hbox) hins houts
  obtain ⟨s', d', hrun, h⟩ := Action.substitute_spec ((grows_withNew s _).diagram? hd) (diagram?_withNew s _)
    (lt_of_diagram? hd).ne' hcd hwoven.consistent (directed_solo ins outs b) hv
  obtain ⟨held, hboxes, -, -, hbrought⟩ := h.boxes
  have hvalues : (solo ins outs b).boxes.values = [b] := by
    rw [hwoven.boxes]
    rfl
  have hheld : held = [b] := (hvalues ▸ hbrought).eq_singleton (asDiagram?_withNew hbox hn _)
  refine ⟨_, _, s', d', hgen, hrun, h.found, ?_, h.consistent, h.inputs, h.outputs, ?_⟩
  · rw [hboxes, hheld, hwoven.boxes]
    rfl
  · rw [h.wires]
    exact spliced_solo hcd hv hw

theorem renewsWhole (hs : s.Closed) (hd : s.diagram? r = some d) (hcd : d.Consistent) (hdir : d.Directed)
    (hw : ∀ w ∈ d.wires, w.source.Among inputId .output d.inputs.length ∧
      w.target.Among outputId .input d.outputs.length) : s.RenewsWhole r d := by
  have hwoven := woven_solo d.inputs d.outputs (.ref r)
  have hbox : s.isBox (.ref r) = .ok true := by simp only [isBox, diagram?_eq_some.mp hd]
  have hgen := Action.perform_generator (boxOrAtomic_of_isBox hbox) (reads_of_diagram hd .input).lists
    (reads_of_diagram hd .output).lists
  set g := solo d.inputs d.outputs (.ref r)
  have hgd : (s.withNew g).diagram? s.objects.length = some g := diagram?_withNew s g
  have hrd : (s.withNew g).diagram? r = some d := (grows_withNew s g).diagram? hd
  have hget : g.boxes.get? 2 = some (.ref r) := hwoven.get? (i := 0) rfl
  refine ⟨_, _, hgen, fun sub hsub => ?_⟩
  obtain ⟨s', d', hrun, h⟩ := Action.inline_spec hgd hrd hwoven.consistent hcd hdir (Table.mem_keys_of_get? hget)
  obtain ⟨held, hboxes, hlen, hheld, -⟩ := h.boxes
  have hsubstitute := Action.perform_substitute hgd hrd (Value.boxId?_ofNat 2) hget
    (hsub.imp_right fun hnull => ⟨hnull, rfl⟩)
  obtain ⟨hinput, houtput⟩ := apply_boundary hcd g
  refine ⟨s', d', held, (inserted g d).apply, hsubstitute.trans hrun, h.found, ?_, ?_, hinput, houtput,
    fun i u hu => ?_, h.consistent, ?_, ?_, ?_⟩
  · rw [hboxes, hwoven.boxes, hlen, hwoven.next]
    rfl
  · -- Nothing that was there leads to the host, which is new.
    have hapart : ∀ b ∈ d.boxes.values, (s.withNew g).Apart s.objects.length b := fun b hb =>
      hs.apart_withNew hd hb g
    exact ((List.forall₂_and_left _ _).mpr ⟨hapart, hheld _ g hgd (.refl _ _)⟩).imp fun _ _ hb => hb.2 hb.1
  · rw [apply_inserted hcd g hu, hwoven.next]
    rfl
  · exact h.inputs.trans hwoven.inputs
  · exact h.outputs.trans hwoven.outputs
  · rw [h.wires]
    exact solo_spliced hcd hdir hw

end Units

/-- Substitution has units. A box whose rows can be read, and whose wires are all at its ports, may give way to
the diagram of that box. A diagram whose wires respect its boundary comes out of the diagram of itself. -/
theorem substitute_units (s : Store) :
    (∀ (host : Ref) (d : Diagram) (v m n : Nat) (b : Value), s.diagram? host = some d → d.Consistent →
      d.boxes.get? v = some b → s.isBox b = .ok true → s.asDiagram? b = none →
      s.Arity .input b m → s.Arity .output b n →
      (∀ w ∈ d.wires, w.source.Among v .output n ∧ w.target.Among v .input m) → s.RenewsBox host d v b) ∧
    (s.Closed → ∀ (r : Ref) (d : Diagram), s.diagram? r = some d → d.Consistent → d.Directed →
      (∀ w ∈ d.wires, w.source.Among inputId .output d.inputs.length ∧
        w.target.Among outputId .input d.outputs.length) → s.RenewsWhole r d) := by
  constructor
  · intro host d v m n b hd hcd hb hbox hn hin hout hw
    exact renewsBox hd hcd hb hbox hn hin hout hw
  · intro hs r d hd hcd hdir hw
    exact renewsWhole hs hd hcd hdir hw

def Diagram.wound : Diagram :=
  (((new [.text "x"] [.text "x"]).addBox (.atomic (.hom (.text "f") [.text "x"] [.text "x"]))).link 0 2
    (.ofPorts 0 0 2 0)).link 2 2 (.ofPorts 2 0 2 0) |>.link 2 1 (.ofPorts 2 0 1 0)

theorem Diagram.consistent_wound : wound.Consistent := by
  have h := (consistent_new [.text "x"] [.text "x"]).addBox (.atomic (.hom (.text "f") [.text "x"] [.text "x"]))
  exact ((h.link (by decide) (by decide) (by decide)).link (by decide) (by decide) (by decide)).link (by decide)
    (by decide) (by decide)

theorem substitute_units_wound :
    let b : Value := .atomic (.hom (.text "f") [.text "x"] [.text "x"])
    let s : Store := ⟨[.diagram wound], []⟩
    s.RenewsBox 0 wound 2 b ∧ s.RenewsWhole 0 wound := by
  intro b s
  have hd : s.diagram? 0 = some wound := rfl
  have hs : s.Closed := closed_of_forall (by decide)
  have hdir : wound.Directed := by
    unfold Diagram.Directed
    decide
  obtain ⟨hbox, hwhole⟩ := substitute_units s
  constructor
  · exact hbox 0 wound 2 1 1 b hd consistent_wound rfl rfl rfl ⟨_, rfl, rfl⟩ ⟨_, rfl, rfl⟩ (by decide)
  · exact hwhole hs 0 wound hd consistent_wound hdir (by decide)

/-- An atomic box may be about anything. If that has no types, the diagram of the box cannot be made. -/
theorem generator_unreadable :
    let b : Value := .atomic (.int 3)
    let d := (Diagram.new [] []).addBox b
    let s : Store := ⟨[.diagram d], []⟩
    d.Consistent ∧ d.boxes.get? 2 = some b ∧ s.isBox b = .ok true ∧ s.asDiagram? b = none ∧ d.wires = [] ∧
      (Action.generator b).perform s = (.error .missingAttribute, s) ∧ ¬ s.RenewsBox 0 d 2 b := by
  intro b d s
  have hrun : (Action.generator b).perform s = (.error .missingAttribute, s) := rfl
  refine ⟨(Diagram.consistent_new [] []).addBox b, rfl, rfl, rfl, rfl, hrun, ?_⟩
  rintro ⟨g, t, s', d', hgen, -⟩
  rw [hrun] at hgen
  cases hgen

end StringDiagram
