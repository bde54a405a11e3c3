import StringDiagram.Proofs.Diagram.Extends
import StringDiagram.Proofs.Substitution.Chains

/-! # When substitution is refused

Substitution is refused if there is no such box, and then nothing has happened, or if a wire of the
diagram to be inserted runs out of its output boundary or into its input boundary. Such a wire is met
after all boxes came in and the wires before it were spliced: `Abandoned` says what the host is then. -/
namespace StringDiagram
open Diagram Network

/-- The wire leaves the output boundary of its diagram or enters the input boundary. -/
def Wire.Reversed (w : Wire) : Prop := w.source.isOn outputId = true ∨ w.target.isOn inputId = true

instance (w : Wire) : Decidable w.Reversed := inferInstanceAs (Decidable (_ ∨ _))

/-- The end of such a wire that is looked up in vain. The source is looked up first. -/
def Wire.wrongEnd (w : Wire) : Connector := if w.source.isOn outputId then w.source else w.target

namespace Diagram

theorem not_directed {e : Diagram} : ¬ e.Directed ↔ ∃ w ∈ e.wires, w.Reversed := by
  have hreversed : ∀ w : Wire, w.Reversed ↔
      ¬ (w.source.isOn outputId = false ∧ w.target.isOn inputId = false) := by
    intro w
    rw [Wire.Reversed, not_and_or, Bool.not_eq_false, Bool.not_eq_false]
  simp [Directed, hreversed]

/-- The wires up to the first that runs the wrong way. -/
theorem exists_first_reversed {e : Diagram} (h : ∃ w ∈ e.wires, w.Reversed) :
    ∃ before w after, e.wires = before ++ w :: after ∧ w.Reversed ∧ ∀ x ∈ before, ¬ x.Reversed := by
  obtain ⟨x, hx, hrev⟩ := h
  have hfound : (e.wires.find? fun w => decide w.Reversed).isSome = true :=
    List.find?_isSome.mpr ⟨x, hx, decide_eq_true hrev⟩
  obtain ⟨w, hw⟩ := Option.isSome_iff_exists.mp hfound
  obtain ⟨hrev, before, after, hwires, hbefore⟩ := List.find?_eq_some_iff_append.mp hw
  exact ⟨before, w, after, hwires, of_decide_eq_true hrev, fun x hx => by simpa using hbefore x hx⟩

theorem IdMap.move_eq_error {ids : IdMap} {c : Connector} {n : Nat} (hc : c.isOn n = true)
    (hn : ids.get? n = none) : ids.move c = .error (.missingKey c.box) := by
  have hb := Connector.isOn_iff.mp hc
  have hresolve : Table.resolve ids c.box = .error (.missingKey c.box) := by
    simp [Table.resolve, Value.hashable_of_boxId? hb, hb, hn]
  rw [IdMap.move, hresolve]
  rfl

/-- A wire that runs the wrong way cannot be taken over, even if the port of the box is not connected:
its wrong end is looked up among the boxes that came in. -/
theorem splicedWires_reversed {d : Diagram} {v : Nat} {ids : IdMap} {w : Wire}
    (h0 : ids.get? inputId = none) (h1 : ids.get? outputId = none) (hw : w.Reversed)
    (hs : w.source.isOn inputId = false → w.source.isOn outputId = false → Placed d v ids w.source) :
    d.splicedWires v ids w = .error (.missingKey w.wrongEnd.box) := by
  have hsrc : isInput w.source.box = w.source.isOn inputId := isInput_eq w.source.box
  have htgt : isOutput w.target.box = w.target.isOn outputId := isOutput_eq w.target.box
  rw [splicedWires, hsrc, htgt, Wire.wrongEnd]
  cases hout : w.source.isOn outputId with
  | true =>
    have hin : w.source.isOn inputId = false := Connector.isOn_eq_false hout (by decide)
    have hmove := IdMap.move_eq_error hout h1
    cases w.target.isOn outputId <;> simp [hin, hmove, bind, Except.bind]
  | false =>
    have hin : w.target.isOn inputId = true := hw.resolve_left (by simp [hout])
    have htout : w.target.isOn outputId = false := Connector.isOn_eq_false hin (by decide)
    have hmove := IdMap.move_eq_error hin h0
    cases hsin : w.source.isOn inputId with
    | true => simp [htout, hmove, bind, Except.bind]
    | false => simp [htout, (hs hsin hout).move_eq, hmove, bind, Except.bind]

section Splice
variable {d e : Diagram} {v : Nat}

/-- The splice ends at the first wire that runs the wrong way. -/
theorem splice_reversed (hd : d.Consistent) (he : e.Consistent) (hv : v ∈ d.boxes.keys)
    (hrev : ∃ w ∈ e.wires, w.Reversed) {held : List Value} (hl : held.length = e.boxes.length) :
    ∃ w ∈ e.wires, w.Reversed ∧ ∃ d', (d.withBoxes held).splice v (inserted d e) e.wires =
      (d', some (.missingKey w.wrongEnd.box)) ∧ d'.Consistent := by
  obtain ⟨before, w, after, hwires, hw, hbefore⟩ := exists_first_reversed hrev
  have hmem : w ∈ e.wires := by simp [hwires]
  have hws : ∀ x ∈ before, x ∈ e.wires ∧ x.source.isOn outputId = false ∧ x.target.isOn inputId = false := by
    intro x hx
    have hforward := not_or.mp (hbefore x hx)
    refine ⟨by simp [hwires, hx], ?_, ?_⟩
    · exact Bool.eq_false_iff.mpr hforward.1
    · exact Bool.eq_false_iff.mpr hforward.2
  obtain ⟨d', hsplice, hd', hr, -⟩ := exists_splice_directed hd he hv hl hws
  have hplaced : w.source.isOn inputId = false → w.source.isOn outputId = false →
      Placed d' v (inserted d e) w.source :=
    fun h0 h1 => hr.placed (placed_inserted hd he hv hl (he.has_ends hmem).1 h0 h1)
  obtain ⟨hin, hout⟩ := get?_inserted_boundary (d := d) he
  refine ⟨w, hmem, hw, d', ?_, hd'⟩
  rw [hwires, splice_append, hsplice]
  dsimp only
  rw [splice, splicedWires_reversed hin hout hw hplaced]

end Splice

end Diagram

/-- What became of store `s` when `e` was to be put in the place of a box of the diagram `d` at `host`,
but could not be spliced: all boxes that were there and all that were to come in, all wires that were
there, and perhaps some that were spliced. -/
structure Abandoned (s s' : Store) (host : Ref) (d e d' : Diagram) : Prop where
  found : s'.diagram? host = some d'
  consistent : d'.Consistent
  frame : Store.Frame host s s'
  inputs : d'.inputs = d.inputs
  outputs : d'.outputs = d.outputs
  boxes : ∃ held, d'.boxes = d.boxes ++ (List.range' d.next e.boxes.length).zip held ∧
    held.length = e.boxes.length ∧ s.Brought host e.boxes.values s' held
  wires : d.wires.Sublist d'.wires
  wiresOn : ∀ edge, d.wiresOn edge <+: d'.wiresOn edge

namespace Action
variable {s : Store} {host inner : Ref} {d e : Diagram}

theorem inline_reversed (hd : s.diagram? host = some d) (he : s.diagram? inner = some e)
    (hcd : d.Consistent) (hce : e.Consistent) {v : Nat} (hv : v ∈ d.boxes.keys)
    (hrev : ∃ w ∈ e.wires, w.Reversed) :
    ∃ w ∈ e.wires, w.Reversed ∧ ∃ s' d', (inline host v inner).perform s =
      (.error (.missingKey w.wrongEnd.box), s') ∧ Abandoned s s' host d e d' := by
  obtain ⟨s₁, held, hd₁, -, hf₁, hl, -, hbrought, hrun⟩ := perform_inline hd he v
  obtain ⟨w, hw, hwrev, d₂, hsplice, hcd₂⟩ := splice_reversed hcd hce hv hrev hl
  let s₂ : Store := { s₁ with objects := s₁.objects.set host (.diagram d₂) }
  have hf₂ : Store.Frame host s₁ s₂ := .of_set rfl
  have hext : (d.withBoxes held).Extends d₂ := by
    have h := Extends.splice (d.withBoxes held) v (inserted d e) e.wires
    rwa [hsplice] at h
  obtain ⟨hwires, hinputs, houtputs⟩ := withBoxes_frame d held
  refine ⟨w, hw, hwrev, s₂, d₂, ?_, Store.diagram?_set hd₁ d₂, hcd₂, hf₁.trans hf₂,
    hext.inputs.trans hinputs, hext.outputs.trans houtputs, ⟨held, ?_, hl, hbrought.after hf₂⟩, ?_, ?_⟩
  · rw [hrun, hsplice]
  · rw [hext.boxes, boxes_withBoxes, hl]
  · exact hwires ▸ hext.wires_sublist (hcd.withBoxes held) hcd₂
  · intro edge
    have hon : (d.withBoxes held).wiresOn edge = d.wiresOn edge := by
      rw [wiresOn, edges_withBoxes, wiresOn]
    exact hon ▸ hext.wiresOn_first edge

/-- A box is named by a value, or there is no such box. -/
theorem perform_substitute_missing {v : Value} (hd : s.diagram? host = some d) (sub : Value)
    (hv : ∀ n, v.boxId? = some n → n ∉ d.boxes.keys) : (substitute host v sub).perform s =
      (.error (if v.hashable then .missingKey v else .wrongType), s) := by
  have hresolve : d.boxes.resolve v = .error (if v.hashable then .missingKey v else .wrongType) := by
    cases hn : v.boxId? with
    | none => cases hh : v.hashable <;> simp [Table.resolve, hn, hh]
    | some n =>
      have hnone := Table.get?_eq_none.mpr (hv n hn)
      simp [Table.resolve, Value.hashable_of_boxId? hn, hn, hnone]
  rw [substitute, perform_bind, perform_diagram hd]
  dsimp only
  rw [hresolve, perform_bind, perform_ofExcept]

end Action

/-- Substitution of a diagram is refused for what is no box, which leaves everything as it was, and for
a diagram with a wire that runs the wrong way, which leaves the host with all it had. Nothing else is. -/
theorem substitute_refusals {s : Store} {host inner : Ref} {d e : Diagram}
    (hd : s.diagram? host = some d) (he : s.diagram? inner = some e) (hcd : d.Consistent)
    (hce : e.Consistent) (v : Value) :
    ((∃ fault s', (Action.substitute host v (.ref inner)).perform s = (.error fault, s')) ↔
      (∀ n, v.boxId? = some n → n ∉ d.boxes.keys) ∨ ∃ w ∈ e.wires, w.Reversed) ∧
    ((∀ n, v.boxId? = some n → n ∉ d.boxes.keys) → (Action.substitute host v (.ref inner)).perform s =
      (.error (if v.hashable then .missingKey v else .wrongType), s)) ∧
    (∀ n, v.boxId? = some n → n ∈ d.boxes.keys → (∃ w ∈ e.wires, w.Reversed) →
      ∃ w ∈ e.wires, w.Reversed ∧ ∃ s' d', (Action.substitute host v (.ref inner)).perform s =
        (.error (.missingKey w.wrongEnd.box), s') ∧ Abandoned s s' host d e d') := by
  have hmissing := Action.perform_substitute_missing (v := v) hd (.ref inner)
  have hreversed : ∀ n, v.boxId? = some n → n ∈ d.boxes.keys → (∃ w ∈ e.wires, w.Reversed) →
      ∃ w ∈ e.wires, w.Reversed ∧ ∃ s' d', (Action.substitute host v (.ref inner)).perform s =
        (.error (.missingKey w.wrongEnd.box), s') ∧ Abandoned s s' host d e d' := by
    intro n hv hn hrev
    obtain ⟨box, hbox⟩ := Table.exists_get? hn
    rw [Action.perform_substitute hd he hv hbox (Or.inl rfl)]
    exact Action.inline_reversed hd he hcd hce hn hrev
  refine ⟨⟨?_, ?_⟩, hmissing, hreversed⟩
  · rintro ⟨fault, s', hrun⟩
    by_contra hnone
    obtain ⟨hbox, hdir⟩ := not_or.mp hnone
    push Not at hbox
    obtain ⟨n, hv, hn⟩ := hbox
    obtain ⟨box, hbox⟩ := Table.exists_get? hn
    obtain ⟨s₁, d₁, hok, -⟩ := Action.inline_spec hd he hcd hce (by_contra (hdir ∘ not_directed.mp)) hn
    rw [Action.perform_substitute hd he hv hbox (Or.inl rfl), hok] at hrun
    cases hrun
  · rintro (hbox | hrev)
    · exact ⟨_, _, hmissing hbox⟩
    · by_cases hbox : ∀ n, v.boxId? = some n → n ∉ d.boxes.keys
      · exact ⟨_, _, hmissing hbox⟩
      · push Not at hbox
        obtain ⟨n, hv, hn⟩ := hbox
        obtain ⟨w, -, -, s', d', hrun, -⟩ := hreversed n hv hn hrev
        exact ⟨_, _, hrun⟩

def Diagram.returning : Diagram :=
  ((new [] []).link 0 1 (.ofPorts 0 0 1 0)).link 1 0 (.ofPorts 1 0 0 0)

theorem Diagram.consistent_returning : returning.Consistent := by
  refine ((consistent_new [] []).link ?_ ?_ ?_).link ?_ ?_ ?_ <;> decide

theorem substitute_refusals_returning :
    let s : Store := ⟨[.diagram looped, .diagram returning], []⟩
    (∃ fault s', (Action.substitute 0 (.ofNat 2) (.ref 1)).perform s = (.error fault, s')) ∧
    ((Action.substitute 0 (.ofNat 1) (.ref 1)).perform s = (.error (.missingKey (.ofNat 1)), s)) ∧
    ∃ s' d', (Action.substitute 0 (.ofNat 2) (.ref 1)).perform s = (.error (.missingKey (.ofNat 1)), s') ∧
      Abandoned s s' 0 looped returning d' := by
  intro s
  have hd : s.diagram? 0 = some looped := rfl
  have he : s.diagram? 1 = some returning := rfl
  have hcd := consistent_looped
  have hce := consistent_returning
  have hrev : ∃ w ∈ returning.wires, w.Reversed := ⟨.ofPorts 1 0 0 0, by decide, by decide⟩
  have hend : ∀ w ∈ returning.wires, w.Reversed → w.wrongEnd.box = .ofNat 1 := by decide
  obtain ⟨hiff, -, hmidway⟩ := substitute_refusals hd he hcd hce (.ofNat 2)
  obtain ⟨w, hw, hwrev, s', d', hrun, h⟩ := hmidway 2 (Value.boxId?_ofNat 2) (by decide) hrev
  refine ⟨hiff.mpr (Or.inr hrev), ?_, s', d', ?_, h⟩
  · apply (substitute_refusals hd he hcd hce (.ofNat 1)).2.1
    intro n hn
    cases hn
    decide
  · rw [hrun, hend w hw hwrev]

end StringDiagram
