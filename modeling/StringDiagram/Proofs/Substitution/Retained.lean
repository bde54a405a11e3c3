import StringDiagram.Proofs.Substitution.Refused

/-! # What substitution retains

The host is wired on while its wires are read, and then a box is taken from it. All else that it had
stays where it was: `Retained`. The boxes that came in follow, under the identifiers that were next. -/
namespace StringDiagram
open Diagram

namespace Diagram
variable {d d₂ : Diagram} {v : Nat}

theorem wiresBetween_ids (d : Diagram) {src tgt : Value} {a b : Nat} (hs : src.boxId? = some a)
    (ht : tgt.boxId? = some b) : d.wiresBetween src tgt = .ok (d.wiresOn (a, b)) := by
  have hedge : edge? src tgt = .ok (some (a, b)) := by
    simp [edge?, Value.hashable_of_boxId? hs, Value.hashable_of_boxId? ht, hs, ht]
    rfl
  unfold wiresBetween
  split
  · cases hs
  · cases hs
  · cases ht
  · rw [hedge]
    rfl

/-- The wires between two boxes that stay are in front of those that came. -/
theorem Extends.wiresBetween_without (h : d.Extends d₂) {src tgt : Value} {a b : Nat}
    (hs : src.boxId? = some a) (ht : tgt.boxId? = some b) (ha : a ≠ v) (hb : b ≠ v) :
    ∃ more, (d₂.without v).wiresBetween src tgt = .ok (d.wiresOn (a, b) ++ more) := by
  obtain ⟨more, hmore⟩ := (h.without v).wiresOn_first (a, b)
  have hapart : ¬ (a = v ∨ b = v) := not_or.mpr ⟨ha, hb⟩
  rw [wiresOn_without, if_neg hapart] at hmore
  exact ⟨more, by rw [wiresBetween_ids _ hs ht, hmore]⟩

/-- Diagram `d'` has all of `d` but box `v` and the wires at it, each thing in its place, and then the
boxes `held` and perhaps more wires. -/
structure Retains (d d' : Diagram) (v : Nat) (held : List Value) : Prop where
  inputs : d'.inputs = d.inputs
  outputs : d'.outputs = d.outputs
  next : d'.next = d.next + held.length
  boxes : d'.boxes = d.boxes.remove v ++ (List.range' d.next held.length).zip held
  live : d'.live = (d.live.filter fun u => !decide (u = v)) ++ List.range' d.next held.length
  gone : v ∉ d'.live ∧ ∀ w ∈ d'.wires, w.source.isOn v = false ∧ w.target.isOn v = false
  between : ∀ src tgt a b, src.boxId? = some a → tgt.boxId? = some b → a ≠ v → b ≠ v →
    ∃ before more, d.wiresBetween src tgt = .ok before ∧ d'.wiresBetween src tgt = .ok (before ++ more)
  edges : (d.edges.keys.filter fun e => !decide (e.1 = v) && !decide (e.2 = v)) <+: d'.edges.keys
  wires : (d.wires.filter fun w => !w.source.isOn v && !w.target.isOn v).Sublist d'.wires

theorem Extends.retains (hd : d.Consistent) (hv : v ∈ d.boxes.keys) {held : List Value}
    (h : (d.withBoxes held).Extends d₂) (hd₂ : d₂.Consistent) : d.Retains (d₂.without v) v held := by
  obtain ⟨hwires, hinputs, houtputs⟩ := withBoxes_frame d held
  have hedges := edges_withBoxes d held
  have hd₁ := hd.withBoxes held
  have hv₁ := mem_keys_withBoxes hv held
  have hv₂ : v ∈ d₂.boxes.keys := h.boxes ▸ hv₁
  refine ⟨h.inputs.trans hinputs, h.outputs.trans houtputs, h.next.trans (next_withBoxes d held), ?_, ?_,
    ⟨?_, ?_⟩, ?_, ?_, ?_⟩
  · change d₂.boxes.remove v = _
    rw [h.boxes, boxes_withBoxes, Table.remove_append, Table.remove_eq_self (hd.not_mem_range' hv held)]
  · have hnew : ∀ u ∈ List.range' d.next held.length, (!decide (u = v)) = true := by
      intro u hu
      have hlt := hd.below_next v (Consistent.box_live hv)
      have hle := (List.mem_range'_1.mp hu).1
      simp only [Bool.not_eq_true', decide_eq_false_iff_not]
      omega
    rw [live_without hd₂ hv₂, h.live_eq, live_withBoxes, List.filter_append, List.filter_eq_self.mpr hnew]
  · rw [live_without hd₂ hv₂]
    simp
  · intro w hw
    rw [wires_without hd₂] at hw
    simpa using (List.mem_filter.mp hw).2
  · intro src tgt a b hs ht ha hb
    obtain ⟨more, hmore⟩ := h.wiresBetween_without hs ht ha hb
    rw [wiresOn, hedges, ← wiresOn] at hmore
    exact ⟨d.wiresOn (a, b), more, d.wiresBetween_ids hs ht, hmore⟩
  · rw [← hedges, ← edges_keys_without]
    exact (h.without v).edges_first
  · rw [← hwires, ← wires_without hd₁]
    exact (h.without v).wires_sublist (hd₁.without hv₁) (hd₂.without hv₂)

end Diagram

/-- What store `s'` has of store `s` after box `v` of the diagram `d` at `host` gave way to what `e`
holds, and what was noted. -/
structure Retained (s s' : Store) (host : Ref) (v : Nat) (d e d' : Diagram) (held : List Value) :
    Prop where
  found : s'.diagram? host = some d'
  consistent : d'.Consistent
  frame : Store.Frame host s s'
  notes : s'.notes = s.notes ++
    [.substituting v (e.boxes.keys.zip (List.range' d.next e.boxes.length))]
  length_held : held.length = e.boxes.length
  brought : s.Brought host e.boxes.values s' held
  retains : d.Retains d' v held

namespace Action
variable {s s' : Store} {host inner : Ref} {d e : Diagram} {v : Nat}

/-- Whatever the wires of the inserted diagram are, if all could be taken over. -/
theorem inline_retains (hd : s.diagram? host = some d) (he : s.diagram? inner = some e)
    (hcd : d.Consistent) (hv : v ∈ d.boxes.keys) (hrun : (inline host v inner).perform s = (.ok (), s')) :
    ∃ d' held, Retained s s' host v d e d' held := by
  obtain ⟨s₁, held, hd₁, hnotes, hf₁, hl, -, hbrought, hsteps⟩ := perform_inline hd he v
  have hext := Extends.splice (d.withBoxes held) v (inserted d e) e.wires
  have hcd₂ := (hcd.withBoxes held).splice v (inserted d e) e.wires
  rw [hsteps] at hrun
  rcases hsplice : (d.withBoxes held).splice v (inserted d e) e.wires with ⟨d₂, _ | fault⟩
  · rw [hsplice] at hrun hext hcd₂
    let s₂ : Store := { s₁ with objects := s₁.objects.set host (.diagram d₂) }
    have hd₂ : s₂.diagram? host = some d₂ := Store.diagram?_set hd₁ d₂
    have hv₂ : v ∈ d₂.boxes.keys := hext.boxes ▸ mem_keys_withBoxes hv held
    cases hrun.symm.trans (perform_removal hd₂ hcd₂ hv₂)
    have hf₂ : Store.Frame host s₁ s₂ := .of_set rfl
    have hf₃ : Store.Frame host s₂ { s₂ with objects := s₂.objects.set host (.diagram (d₂.without v)) } :=
      .of_set rfl
    exact ⟨d₂.without v, held, Store.diagram?_set hd₂ _, hcd₂.without hv₂, hf₁.trans (hf₂.trans hf₃),
      hnotes, hl, hbrought.after (hf₂.trans hf₃), hext.retains hcd hv hcd₂⟩
  · rw [hsplice] at hrun
    cases hrun

end Action

/-- A substitution that succeeds takes one box and the wires at it, and nothing else, from the host: the
other boxes, the edges and the wires between them stay in their order, with what came in after them. The
inserted diagram stays as it was. -/
theorem substitute_retains {s s' : Store} {host inner : Ref} {d e : Diagram} {v sub : Value}
    (hd : s.diagram? host = some d) (he : s.diagram? inner = some e) (hne : inner ≠ host)
    (hcd : d.Consistent) (hsub : sub = .ref inner ∨ sub = .null ∧ d.box v = .ok (.ref inner))
    (hrun : (Action.substitute host v sub).perform s = (.ok (), s')) :
    ∃ n d' held, v.boxId? = some n ∧ n ∈ d.boxes.keys ∧ Retained s s' host n d e d' held ∧
      s'.diagram? inner = some e := by
  by_cases hbox : ∀ n, v.boxId? = some n → n ∉ d.boxes.keys
  · rw [Action.perform_substitute_missing hd sub hbox] at hrun
    cases hrun
  · push Not at hbox
    obtain ⟨n, hv, hn⟩ := hbox
    obtain ⟨box, hbox⟩ := Table.exists_get? hn
    have hsub : sub = .ref inner ∨ sub = .null ∧ box = .ref inner := by
      rw [Diagram.box, Table.resolve_eq_ok.mpr ⟨hv, hbox⟩] at hsub
      exact hsub.imp_right fun h => ⟨h.1, Except.ok.inj h.2⟩
    rw [Action.perform_substitute hd he hv hbox hsub] at hrun
    obtain ⟨d', held, h⟩ := Action.inline_retains hd he hcd hn hrun
    exact ⟨n, d', held, hv, hn, h, h.frame.diagram? hne he⟩

/-- A box with a loop gives way to two wires. -/
theorem substitute_retains_looped :
    let s : Store := ⟨[.diagram looped, .diagram parallel], []⟩
    ∃ s', (Action.substitute 0 (.ofNat 2) (.ref 1)).perform s = (.ok (), s') ∧
      ∃ n d' held, (Value.ofNat 2).boxId? = some n ∧ n ∈ looped.boxes.keys ∧
        Retained s s' 0 n looped parallel d' held ∧ s'.diagram? 1 = some parallel := by
  intro s
  have hd : s.diagram? 0 = some looped := rfl
  have he : s.diagram? 1 = some parallel := rfl
  have hdir : parallel.Directed := by
    unfold Diagram.Directed
    decide
  obtain ⟨s', d', hrun, -⟩ := Action.substitute_spec hd he (by decide) consistent_looped
    consistent_parallel hdir (v := 2) (by decide)
  exact ⟨s', hrun, substitute_retains hd he (by decide) consistent_looped (Or.inl rfl) hrun⟩

end StringDiagram
