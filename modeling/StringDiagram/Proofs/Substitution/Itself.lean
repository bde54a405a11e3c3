import StringDiagram.Proofs.Store.Carried
import StringDiagram.Proofs.Substitution.Within

/-! # A diagram in the place of its own box

A diagram may be substituted for a box of itself. It comes out as if a copy had been made of it before and
that had been substituted: with the same identifiers, the same wires in the same order and the same
neighbours, and boxes that differ only as copies do. This is `substitute_itself`. What the boxes hold does not
matter for the wires (`splice_refilled`), but the ports do: a port with an identity of its own is another one
in the copy, and then the two outcomes differ, `itself_differs`. -/
namespace StringDiagram
open Diagram Store

namespace Diagram

def refilled (d : Diagram) (bs : Table Nat Value) : Diagram := { d with boxes := bs }

section Refilled
variable (d : Diagram) (bs : Table Nat Value)

theorem addWire_refilled (w : Wire) : (d.refilled bs).addWire w = (d.addWire w).map (·.refilled bs) := by
  have hsucc : (d.refilled bs).succ = d.succ := rfl
  have hpred : (d.refilled bs).pred = d.pred := rfl
  unfold addWire
  rw [hsucc, hpred]
  cases d.succ.resolve w.source.box with
  | error e => rfl
  | ok p =>
    simp only [bind, Except.bind]
    cases d.pred.resolve w.target.box <;> rfl

theorem extend_refilled (ws : List Wire) :
    (d.refilled bs).extend ws = ((d.extend ws).1.refilled bs, (d.extend ws).2) := by
  induction ws generalizing d with
  | nil => rfl
  | cons w ws ih =>
    simp only [extend, addWire_refilled]
    cases d.addWire w with
    | error e => rfl
    | ok d' => exact ih d'

/-- Splicing wires does not depend on what the boxes hold. -/
theorem splice_refilled (v : Nat) (ids : IdMap) (ws : List Wire) :
    (d.refilled bs).splice v ids ws = ((d.splice v ids ws).1.refilled bs, (d.splice v ids ws).2) := by
  induction ws generalizing d with
  | nil => rfl
  | cons w ws ih =>
    have hnew : (d.refilled bs).splicedWires v ids w = d.splicedWires v ids w := rfl
    simp only [splice, hnew]
    cases d.splicedWires v ids w with
    | error e => rfl
    | ok new =>
      simp only [extend_refilled]
      rcases d.extend new with ⟨d', _ | e⟩
      · exact ih d'
      · rfl

theorem without_refilled (v : Nat) : (d.refilled bs).without v = (d.without v).refilled (bs.remove v) := rfl

theorem refilled_withBoxes {held held' : List Value} (h : held.length = held'.length) :
    (d.refilled bs).withBoxes held' = (d.withBoxes held).refilled ((d.refilled bs).withBoxes held').boxes := by
  induction held generalizing d bs held' with
  | nil =>
    cases held' with
    | nil => rfl
    | cons b' held' => cases h
  | cons b held ih =>
    cases held' with
    | nil => cases h
    | cons b' held' => exact ih (d.addBox b) (bs ++ [(d.next, b')]) (Nat.succ.inj h)

/-- Boxes that came in make a difference to the boxes only. -/
theorem withBoxes_eq_refilled {held held' : List Value} (h : held.length = held'.length) :
    d.withBoxes held' = (d.withBoxes held).refilled (d.withBoxes held').boxes :=
  d.refilled_withBoxes d.boxes h

end Refilled

theorem inserted_rename (d e : Diagram) (f : Ref → Ref) : inserted d (e.rename f) = inserted d e := by
  have hlength : (e.rename f).boxes.length = e.boxes.length := by simp [Diagram.rename]
  simp only [inserted, keys_rename, hlength]

end Diagram

namespace Store
variable {s t : Store} {host : Ref} {b b' : Value}

theorem IsCopy.isImage (h : s.IsCopy b t b') (hb : s.Rooted b) : s.IsImage b t b' := by
  obtain ⟨f, hf, hinj, hobj⟩ := h
  exact ⟨f, hf, fun p q hp hq => hinj p q hp hq (hb p hp) (hb q hq), fun q o hq ho => (hobj q o hq ho).2⟩

/-- What does not lead to the host stays as it is when only the host changes. -/
theorem Frame.isImage (hf : Frame host s t) (hn : ¬ s.Reaches b host) : s.IsImage b t b := by
  refine ⟨id, b.rename_id, fun _ _ _ _ => id, fun q o hq ho => ?_⟩
  have hsame := hf.same q o (fun he => hn (he ▸ hq)) ho
  simpa only [Object.rename_id, id_eq] using hsame

/-- However a box is held, as itself or as a copy, it is an image of what it was. -/
theorem Held.isImage (h : s.Held b t b') (hb : s.Rooted b) (hn : ¬ s.Reaches b host) (hf : Frame host s t) :
    s.IsImage b t b' := by
  cases hd : s.asDiagram? b with
  | none =>
    obtain rfl := h.eq_of_not_diagram hd fun _ => hb.lt_of_ref
    exact hf.isImage hn
  | some found =>
    obtain ⟨r, d⟩ := found
    obtain ⟨rfl, hr⟩ := asDiagram?_eq_some.mp hd
    exact ((held_of_diagram hr).mp h).isImage hb

end Store

namespace Action
variable {s : Store} {host inner : Ref} {d e : Diagram} {v : Nat}

/-- What a substitution comes to, wire by wire. -/
theorem inline_eq (hd : s.diagram? host = some d) (he : s.diagram? inner = some e) (hcd : d.Consistent)
    (hce : e.Consistent) (hdir : e.Directed) (hv : v ∈ d.boxes.keys) :
    ∃ s' k held, (inline host v inner).perform s = (.ok (), s') ∧
      (d.withBoxes held).splice v (inserted d e) e.wires = (k, none) ∧ s'.diagram? host = some (k.without v) ∧
      (k.without v).boxes = d.boxes.remove v ++ (List.range' d.next held.length).zip held ∧
      Frame host s s' ∧ held.length = e.boxes.length ∧ List.Forall₂ (s.Entered host d s') e.boxes.values held := by
  obtain ⟨s₁, held, hd₁, -, hf₁, hl, hheld, -, hrun⟩ := perform_inline hd he v
  obtain ⟨k, hsplice, hck, hr, -⟩ := exists_splice hcd hce hdir hv hl
  let s₂ : Store := { s₁ with objects := s₁.objects.set host (.diagram k) }
  let s₃ : Store := { s₂ with objects := s₂.objects.set host (.diagram (k.without v)) }
  have hd₂ : s₂.diagram? host = some k := diagram?_set hd₁ k
  have hf₂ : Frame host s₁ s₂ := .of_set rfl
  have hf₃ : Frame host s₂ s₃ := .of_set rfl
  have hboxes : k.boxes = d.boxes ++ (List.range' d.next held.length).zip held :=
    hr.boxes.trans (boxes_withBoxes d held)
  have hvk : v ∈ k.boxes.keys := hr.boxes ▸ mem_keys_withBoxes hv held
  refine ⟨s₃, k, held, ?_, hsplice, diagram?_set hd₂ _, ?_, hf₁.trans (hf₂.trans hf₃), hl,
    hheld.imp fun _ _ h => h.after (hf₂.trans hf₃)⟩
  · rw [hrun, hsplice]
    exact perform_removal hd₂ hck hvk
  · change k.boxes.remove v = _
    rw [hboxes, Table.remove_append, Table.remove_eq_self (hcd.not_mem_range' hv held)]

end Action

structure Store.Coincides (s : Store) (d : Diagram) (t : Store) (e : Diagram) : Prop where
  same : e = d.refilled e.boxes
  keys : e.boxes.keys = d.boxes.keys
  held : List.Forall₂ (fun b b' => s.IsImage b t b') d.boxes.values e.boxes.values

theorem forall₂_of_common {α β γ : Type} {R : α → β → Prop} {S : α → γ → Prop} {xs : List α} {ys : List β}
    {zs : List γ} (h : List.Forall₂ R xs ys) (h' : List.Forall₂ S xs zs) :
    List.Forall₂ (fun y z => ∃ x ∈ xs, R x y ∧ S x z) ys zs := by
  induction h generalizing zs with
  | nil =>
    cases h'
    exact .nil
  | cons hxy _ ih =>
    cases h' with
    | cons hxz h' =>
      refine .cons ⟨_, List.mem_cons_self, hxy, hxz⟩ ((ih h').imp fun y z ⟨x, hx, hyz⟩ => ?_)
      exact ⟨x, List.mem_cons_of_mem _ hx, hyz⟩

section Itself
variable {s t : Store} {r : Ref} {d : Diagram} {held : List Value} (hs : s.Closed) (hd : s.diagram? r = some d)

include hs hd

/-- The boxes that came in are images of those that were there. -/
theorem images_of_entered (hself : ∀ b ∈ d.boxes.values, ¬ s.Reaches b r) (hf : Frame r s t)
    (h : List.Forall₂ (s.Entered r d t) d.boxes.values held) :
    List.Forall₂ (fun b b' => s.IsImage b t b') d.boxes.values held := by
  refine ((List.forall₂_and_left _ _).mpr ⟨fun b hb => hb, h⟩).imp fun b b' ⟨hb, hentered⟩ => ?_
  have hheld : s.Held b t b' := hentered.held hd (.refl r s) fun _ _ _ _ => hself b hb
  exact hheld.isImage (hs.rooted_of_box hd hb) (hself b hb) hf

/-- So are those that came in from a copy of the diagram. -/
theorem images_of_copy (hf : Frame r (s.copy r).2 t)
    (h : List.Forall₂ ((s.copy r).2.Entered r d t) (d.rename (s.copyRef (s.reachable r))).boxes.values held) :
    List.Forall₂ (fun b b' => s.IsImage b t b') d.boxes.values held := by
  have hr := lt_of_diagram? hd
  have hgrow : Grows s (s.copy r).2 := ⟨_, rfl⟩
  rw [values_rename, List.forall₂_map_left_iff] at h
  refine ((List.forall₂_and_left _ _).mpr ⟨fun b hb => hb, h⟩).imp fun b b' ⟨hb, hentered⟩ => ?_
  have hroot := hs.rooted_of_box hd hb
  have hcopy := isCopy_rename hr (b := b) fun q hq => .single (mem_refsAt_of_box hd hb hq)
  have hn : ¬ (s.copy r).2.Reaches (b.rename (s.copyRef (s.reachable r))) r := fun hreach =>
    absurd (hcopy.le_of_reaches hroot hreach) (Nat.not_le.mpr hr)
  have himage := hcopy.isImage hroot
  have hheld := hentered.held (hgrow.diagram? hd) (.refl r _) fun _ _ _ _ => hn
  exact himage.trans (hheld.isImage (himage.rooted hroot) hn hf)

end Itself

/-- A diagram without a wire against the direction of its boundary may be substituted for any box of itself, if
none of its boxes leads back to it. The outcome is that of the substitution of a copy, identifier by identifier
and wire by wire, with the same boxes but for copies. The ports of the wires must have no identity of their own,
which a copy would not share. -/
theorem substitute_itself {s : Store} {r : Ref} {d : Diagram} {v : Value} {n : Nat} (hs : s.Closed)
    (hd : s.diagram? r = some d) (hcd : d.Consistent) (hdir : d.Directed)
    (hself : ∀ b ∈ d.boxes.values, ¬ s.Reaches b r) (hports : ∀ w ∈ d.wires, w.toValue.refs = [])
    (hv : v.boxId? = some n) (hn : n ∈ d.boxes.keys) :
    ∃ t t' e e', (Action.substitute r v (.ref r)).perform s = (.ok (), t) ∧
      (Action.substitute r v (.ref (s.copy r).1)).perform (s.copy r).2 = (.ok (), t') ∧
      t.diagram? r = some e ∧ t'.diagram? r = some e' ∧ t.Coincides e t' e' := by
  let f := s.copyRef (s.reachable r)
  have hr := lt_of_diagram? hd
  have hgrow : Grows s (s.copy r).2 := ⟨_, rfl⟩
  have hdu := hgrow.diagram? hd
  have hcopy : (s.copy r).2.diagram? (s.copy r).1 = some (d.rename f) :=
    diagram?_eq_some.mpr (copy_getElem? hr .refl (diagram?_eq_some.mp hd)).2
  have hwires := wires_rename_eq_self f hports
  have hdir' : (d.rename f).Directed := by
    rw [Diagram.Directed, hwires]
    exact hdir
  obtain ⟨t, k, held, hrun, hsplice, ht, hboxes, hf, hl, hentered⟩ := Action.inline_eq hd hd hcd hcd hdir hn
  obtain ⟨t', k', held', hrun', hsplice', ht', hboxes', hf', hl', hentered'⟩ :=
    Action.inline_eq hdu hcopy hcd (hcd.rename f) hdir' hn
  have heq : held.length = held'.length := by
    rw [hl, hl', Diagram.rename, List.length_map]
  obtain ⟨box, hbox⟩ := Table.exists_get? hn
  refine ⟨t, t', k.without n, k'.without n, (Action.perform_substitute hd hd hv hbox (Or.inl rfl)).trans hrun,
    (Action.perform_substitute hdu hcopy hv hbox (Or.inl rfl)).trans hrun', ht, ht', ?_, ?_, ?_⟩
  · have hsame : k' = k.refilled (((d.withBoxes held').boxes)) := by
      have hrun : (d.withBoxes held').splice n (inserted d d) d.wires = (k', none) := by
        rw [← hsplice', hwires, inserted_rename]
      rw [d.withBoxes_eq_refilled heq, splice_refilled, hsplice] at hrun
      exact (Prod.ext_iff.mp hrun).1.symm
    rw [hsame]
    exact k.without_refilled _ n
  · rw [hboxes, hboxes']
    simp only [Table.keys, List.map_append, List.map_fst_zip, List.length_range', heq, le_refl]
  · rw [hboxes, hboxes']
    simp only [Table.values, List.map_append, List.map_snd_zip, List.length_range', heq, le_refl]
    have hold : ∀ b ∈ (d.boxes.remove n).values, t.IsImage b t' b := by
      intro b hb
      have hb : b ∈ d.boxes.values := (List.filter_sublist.map Prod.snd).subset hb
      have hgrown : Frame r s (s.copy r).2 := .of_append rfl
      have hkept := hgrown.trans hf'
      exact ((hf.isImage (hself b hb)).symm (hs.rooted_of_box hd hb)).trans (hkept.isImage (hself b hb))
    have hnew := forall₂_of_common (images_of_entered hs hd hself hf hentered) (images_of_copy hs hd hf' hentered')
    refine List.rel_append (List.forall₂_same.mpr hold) (hnew.imp fun b b' hcommon => ?_)
    obtain ⟨a, ha, hab, hab'⟩ := hcommon
    exact (hab.symm (hs.rooted_of_box hd ha)).trans hab'

/-- A diagram with a nested one, a wire that leads around a box and one that passes by, in the place of a box
that has that wire. -/
theorem substitute_itself_looped :
    let d := (((((new [] []).withBoxes [.named "f", .ref 1]).link 0 2 (.ofPorts 0 0 2 0)).link 2 2
      (.ofPorts 2 0 2 1)).link 2 3 (.ofPorts 2 0 3 0)).link 0 1 (.ofPorts 0 1 1 1)
    let s : Store := ⟨[.diagram d, .diagram ((new [] []).withBoxes [.named "g"])], []⟩
    ∃ t t' e e', (Action.substitute 0 (.ofNat 2) (.ref 0)).perform s = (.ok (), t) ∧
      (Action.substitute 0 (.ofNat 2) (.ref (s.copy 0).1)).perform (s.copy 0).2 = (.ok (), t') ∧
      t.diagram? 0 = some e ∧ t'.diagram? 0 = some e' ∧ t.Coincides e t' e' := by
  intro d s
  have hc : d.Consistent := by
    refine (((((consistent_new [] []).withBoxes _).link ?_ ?_ ?_).link ?_ ?_ ?_).link ?_ ?_ ?_).link ?_ ?_ ?_ <;>
      decide
  have hdir : d.Directed := by
    unfold Diagram.Directed
    decide
  have hself : ∀ b ∈ d.boxes.values, ¬ s.Reaches b 0 := by
    have hnested : ¬ s.Reaches (.ref 1) 0 := not_reaches (by decide) (by decide) (by decide)
    have hplain : ¬ s.Reaches (.named "f") 0 := by
      rintro ⟨r, hr, -⟩
      exact absurd hr List.not_mem_nil
    intro b hb
    have hb : b = .named "f" ∨ b = .ref 1 := by simpa [d, withBoxes, new, addBox, link, Table.values] using hb
    exact hb.elim (fun h => h ▸ hplain) fun h => h ▸ hnested
  exact substitute_itself (closed_of_forall (by decide)) rfl hc hdir hself (by decide) (Value.boxId?_ofNat 2)
    (by decide)

/-- A wire at ports that are given by an expression. The wire of the diagram itself meets it, that of the copy
is at ports of another expression and is lost. -/
theorem itself_differs :
    let port : Value := .ref 1
    let d := ((new [] []).withBoxes [.named "f"]).link 0 2 ⟨.output (.ofNat 0) port, .input (.ofNat 2) port⟩
    let s : Store := ⟨[.diagram d, .expression ⟨none, none, none, "x"⟩], []⟩
    s.Closed ∧ d.Consistent ∧ d.Directed ∧ (∀ b ∈ d.boxes.values, ¬ s.Reaches b 0) ∧ ∃ t t' e e',
      (Action.substitute 0 (.ofNat 2) (.ref 0)).perform s = (.ok (), t) ∧
      (Action.substitute 0 (.ofNat 2) (.ref (s.copy 0).1)).perform (s.copy 0).2 = (.ok (), t') ∧
      t.diagram? 0 = some e ∧ t'.diagram? 0 = some e' ∧ e.wires.length = 1 ∧ e'.wires.length = 0 := by
  intro port d s
  have hok : ((Action.substitute 0 (.ofNat 2) (.ref 0)).perform s).1 = .ok () := by decide +kernel
  have hok' : ((Action.substitute 0 (.ofNat 2) (.ref (s.copy 0).1)).perform (s.copy 0).2).1 = .ok () := by
    decide +kernel
  have hone : (((Action.substitute 0 (.ofNat 2) (.ref 0)).perform s).2.diagram? 0).map (·.wires.length) = some 1 := by
    decide +kernel
  have hnone : (((Action.substitute 0 (.ofNat 2) (.ref (s.copy 0).1)).perform (s.copy 0).2).2.diagram? 0).map
      (·.wires.length) = some 0 := by
    decide +kernel
  obtain ⟨e, he, hw⟩ := Option.map_eq_some_iff.mp hone
  obtain ⟨e', he', hw'⟩ := Option.map_eq_some_iff.mp hnone
  refine ⟨closed_of_forall (by decide), ?_, ?_, ?_, _, _, e, e', Prod.fst_eq_iff.mp hok, Prod.fst_eq_iff.mp hok', he,
    he', hw, hw'⟩
  · refine ((consistent_new [] []).withBoxes _).link ?_ ?_ ?_ <;> decide
  · unfold Diagram.Directed
    decide
  · rintro b hb ⟨r, hr, -⟩
    obtain rfl : b = .named "f" := by simpa [d, withBoxes, new, addBox, link, Table.values] using hb
    exact absurd hr List.not_mem_nil

end StringDiagram
