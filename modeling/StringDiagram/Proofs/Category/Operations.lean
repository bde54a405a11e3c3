import StringDiagram.Proofs.Category.Joined
import StringDiagram.Proofs.Store.Texts

/-! # The operations of the category

Composition and product of diagrams succeed if the names of both can be written. The blueprint of what
comes out is that of the operation on blueprints, and its boxes match those of the two diagrams:
`compose_spec` and `otimes_spec`. -/
namespace StringDiagram
open Diagram

/-- What the operations of the category take an operand for: a box with the types on its two sides. -/
structure Store.Operand (s : Store) (v b : Value) (ins outs : List Value) : Prop where
  box : s.boxOrAtomic v = .ok b
  dom : s.dom b = .ok ins
  codom : s.codom b = .ok outs

theorem Store.operand_of_diagram {s : Store} {r : Ref} {d : Diagram} (h : s.diagram? r = some d) :
    s.Operand (.ref r) (.ref r) d.inputs d.outputs := by
  have hr := diagram?_eq_some.mp h
  have hbox : s.boxOrAtomic (.ref r) = .ok (.ref r) := by
    simp [Store.boxOrAtomic, Store.isBox, hr, bind, Except.bind, pure, Except.pure]
  refine ⟨hbox, ?_, ?_⟩
  · rw [Store.dom, hbox]
    simp [Store.ports, hr, Store.collect, Store.elements, bind, Except.bind]
  · rw [Store.codom, hbox]
    simp [Store.ports, hr, Store.collect, Store.elements, bind, Except.bind]

/-- A diagram that the operations of the category can work with. It has no wire against the direction of its
boundary, its name can be written, and nothing is missing that its boxes lead to. -/
structure Store.Morphism (s : Store) (r : Ref) (d : Diagram) : Prop where
  found : s.diagram? r = some d
  consistent : d.Consistent
  directed : d.Directed
  named : ∃ name, s.diagramName d = .ok name
  rooted : ∀ b ∈ d.boxes.values, s.Rooted b

/-- In a store in which nothing is missing. -/
theorem Store.Closed.morphism {s : Store} {r : Ref} {d : Diagram} (hs : s.Closed)
    (hd : s.diagram? r = some d) (hc : d.Consistent) (hdir : d.Directed)
    (hn : ∃ name, s.diagramName d = .ok name) : s.Morphism r d :=
  ⟨hd, hc, hdir, hn, fun _ hb => hs.rooted_of_box hd hb⟩

namespace Store.Morphism
variable {s t : Store} {r : Ref} {d : Diagram}

theorem writable (h : s.Morphism r d) : s.Writable d.inputs ∧ s.Writable d.outputs := named_iff.mp h.named

theorem grows (h : s.Morphism r d) (hg : Grows s t) : t.Morphism r d where
  found := hg.diagram? h.found
  consistent := h.consistent
  directed := h.directed
  named := named_iff.mpr (h.writable.imp (·.grows hg) (·.grows hg))
  rooted := fun b hb => (h.rooted b hb).grows hg

theorem boxName (h : s.Morphism r d) : ∃ name, s.boxName (.ref r) = .ok name := by
  obtain ⟨name, hname⟩ := h.named
  refine ⟨.text name, ?_⟩
  simp [Store.boxName, diagram?_eq_some.mp h.found, hname]

end Store.Morphism

namespace Action
open Store
variable {s s₀ : Store} {host p q : Ref} {d f g : Diagram} {P : Plan}

/-- A box that is a diagram is replaced by what it holds. -/
theorem substitute_held {v inner : Ref} {e : Diagram} (hd : s.diagram? host = some d)
    (hbox : d.boxes.get? v = some (.ref inner)) (he : s.diagram? inner = some e) (hcd : d.Consistent)
    (hce : e.Consistent) (hdir : e.Directed) :
    ∃ s' d', (substitute host (.ofNat v) .null).perform s = (.ok (), s') ∧ Inlined s s' host v d e d' := by
  obtain ⟨s', d', hrun, h⟩ := inline_spec hd he hcd hce hdir (Table.mem_keys_of_get? hbox)
  exact ⟨s', d', (perform_substitute hd he (Value.boxId?_ofNat v) hbox (Or.inr ⟨rfl, rfl⟩)).trans hrun, h⟩

/-- What came into a scaffold is held there, the boxes of the first diagram before those of the second. -/
theorem held_filled {t : Store} {d₁ d₂ : Diagram} {a b : Value} (hd : s₀.diagram? host = some d)
    (hs : Scaffold a b P d) (h₁ : Inlined s₀ s host 2 d f d₁) (h₂ : Inlined s t host 3 d₁ g d₂) :
    ∃ held held', d₂.boxes.values = held ++ held' ∧
      List.Forall₂ (fun b b' => s₀.Apart host b → s₀.Held b t b') f.boxes.values held ∧
      List.Forall₂ (fun b b' => s₀.Apart host b → s₀.Held b t b') g.boxes.values held' := by
  obtain ⟨held, hb₁, hl₁, hheld₁, -⟩ := h₁.boxes
  obtain ⟨held', hb₂, hl₂, hheld₂, -⟩ := h₂.boxes
  have hboxes : d₁.boxes.remove 3 = (List.range' 4 f.boxes.length).zip held := by
    rw [hb₁, hs.boxes, hs.next, Table.remove_append, Table.remove_eq_self (t := List.zip _ _)]
    · rfl
    · rw [Table.keys, List.map_fst_zip (by simp [hl₁]), List.mem_range'_1]
      omega
  refine ⟨held, held', ?_, ?_, hheld₂ s₀ d hd h₁.frame⟩
  · rw [hb₂, hboxes, Table.values, List.map_append, List.map_snd_zip (by simp [hl₁]),
      List.map_snd_zip (by simp [hl₂])]
  · exact (hheld₁ s₀ d hd (.refl host s₀)).imp fun b b' h ha => (h ha).after h₂.frame (lt_of_diagram? hd)

/-- Both boxes of a scaffold that is new are replaced. -/
theorem fill_spec (hf : s.Morphism p f) (hg : s.Morphism q g) (hgrow : Grows s s₀)
    (hnew : s.objects.length ≤ host) (hd : s₀.diagram? host = some d) (hs : Scaffold (.ref p) (.ref q) P d)
    (hl : Plan.Loopless 2 P) (hl' : Plan.Loopless 3 (Plan.graft 2 P (f.plan.move (· + 4)))) :
    ∃ t d₂, (do substitute host (.ofNat 2) .null; substitute host (.ofNat 3) .null).perform s₀ = (.ok (), t) ∧
      Grows s t ∧ t.diagram? host = some d₂ ∧ Filled P d f g d₂ ∧
      List.Forall₂ (fun b b' => s.Matched b t b' ∧ t.Rooted b') (f.boxes.values ++ g.boxes.values)
        d₂.boxes.values := by
  have hbox : d.boxes.get? 2 = some (.ref p) := by rw [hs.boxes]; rfl
  obtain ⟨s₁, d₁, hrun₁, h₁⟩ := substitute_held hd hbox (hgrow.diagram? hf.found) hs.consistent
    hf.consistent hf.directed
  have hbox' : d₁.boxes.get? 3 = some (.ref q) := by
    rw [h₁.get?_old hs.mem_keys.2 (by decide), hs.boxes]
    rfl
  have hgrow₁ : Grows s s₁ := .of_frame h₁.frame hgrow hnew
  obtain ⟨t, d₂, hrun₂, h₂⟩ := substitute_held h₁.found hbox' (hgrow₁.diagram? hg.found) h₁.consistent
    hg.consistent hg.directed
  have hgrow₂ : Grows s t := .of_frame h₂.frame hgrow₁ hnew
  refine ⟨t, d₂, ?_, hgrow₂, h₂.found,
    hs.filled h₁ h₂ hf.consistent hg.consistent hf.directed hg.directed hl hl', ?_⟩
  · rw [perform_bind, hrun₁]
    exact hrun₂
  · obtain ⟨held, held', hvalues, hf', hg'⟩ := held_filled hd hs h₁ h₂
    have hapart : ∀ b, s.Rooted b → s₀.Apart host b := by
      rintro b hb - - - - hreach
      have hlt := hb host ((hb.reaches_iff hgrow).mp hreach)
      exact absurd hlt (Nat.not_lt.mpr hnew)
    rw [hvalues]
    refine (List.Forall₂.imp ?_) ((List.forall₂_and_left _ _).mpr
      ⟨fun b hb => (List.mem_append.mp hb).elim (hf.rooted b) (hg.rooted b), List.rel_append hf' hg'⟩)
    exact fun b b' ⟨hb, h⟩ => (h (hapart b hb)).matched hb hgrow hgrow₂

end Action

/-- The diagram at `r`, made from what was in store `s`, is what the blueprint says. -/
structure Store.Realizes (s : Store) (X : Blueprint) (t : Store) (r : Ref) (d : Diagram) : Prop where
  grows : Grows s t
  morphism : t.Morphism r d
  like : Blueprint.Like (s.Matched · t ·) id X d.blueprint

namespace Store
variable {s t u : Store} {p q r : Ref} {d f g : Diagram} {X Y : Blueprint}

def withNew (s : Store) (d : Diagram) : Store := { s with objects := s.objects ++ [.diagram d] }

@[simp] theorem diagram?_withNew (s : Store) (d : Diagram) :
    (s.withNew d).diagram? s.objects.length = some d := by
  simp [diagram?_eq_some, withNew]

theorem grows_withNew (s : Store) (d : Diagram) : Grows s (s.withNew d) := ⟨_, rfl⟩

@[simp] theorem set_withNew (s : Store) (d d' : Diagram) :
    { s.withNew d with objects := (s.withNew d).objects.set s.objects.length (.diagram d') } =
      s.withNew d' := by
  simp [withNew]

namespace Realizes

/-- What was made stays as it is. -/
theorem lasts (h : s.Realizes X t r d) (hg : Grows t u) : s.Realizes X u r d where
  grows := h.grows.trans hg
  morphism := h.morphism.grows hg
  like := h.like.imp fun _ _ b hb hm => hm.trans (.of_grows hg (h.morphism.rooted b hb))

/-- What was made from what is there later. -/
theorem of_grows (h : t.Realizes X u r d) (hg : Grows s t) (hX : ∀ b ∈ X.parts, s.Rooted b) :
    s.Realizes X u r d where
  grows := hg.trans h.grows
  morphism := h.morphism
  like := h.like.imp fun a ha _ _ hm => (Matched.of_grows hg (hX a ha)).trans hm

/-- What was made of likenesses. -/
theorem of_like (hg : Grows s t) (h : Blueprint.Like (s.Matched · t ·) id X Y) (h' : t.Realizes Y u r d) :
    s.Realizes X u r d where
  grows := hg.trans h'.grows
  morphism := h'.morphism
  like := h.trans h'.like fun _ _ _ _ => .trans

theorem given (h : s.Morphism r d) : s.Realizes d.blueprint s r d where
  grows := .refl s
  morphism := h
  like := .of_eq (fun b hb => .of_grows (.refl s) (h.rooted b hb)) rfl

end Realizes

end Store

namespace Action
open Store
variable {s : Store} {p q : Ref} {d f g : Diagram}

@[simp] theorem perform_allocate_diagram (s : Store) (d : Diagram) :
    (allocate (.diagram d)).perform s = (.ok s.objects.length, s.withNew d) := rfl

@[simp] theorem perform_insertBox_withNew (s : Store) (d : Diagram) (b : Value) :
    (insertBox s.objects.length b).perform (s.withNew d) = (.ok d.next, s.withNew (d.addBox b)) := by
  rw [perform_insertBox (diagram?_withNew s d), set_withNew]

@[simp] theorem perform_diagram_withNew (s : Store) (d : Diagram) :
    (diagram s.objects.length).perform (s.withNew d) = (.ok d, s.withNew d) :=
  perform_diagram (diagram?_withNew s d)

@[simp] theorem perform_replace_withNew (s : Store) (d d' : Diagram) :
    (replace s.objects.length d').perform (s.withNew d) = (.ok (), s.withNew d') := by
  rw [perform_replace, set_withNew]

def enter (host : Ref) (p q : Value) (message : Value → Value → Note) : Action Ref := do
  let name ← ask (·.boxName p)
  let name' ← ask (·.boxName q)
  note (message name name')
  substitute host (.ofNat 2) .null
  substitute host (.ofNat 3) .null
  return host

theorem perform_compose {v w b c : Value} {ins mid mid' outs : List Value} (hv : s.Operand v b ins mid)
    (hw : s.Operand w c mid' outs) : (compose v w).perform s =
      (enter s.objects.length b c .composing).perform (s.withNew (inSequence ins outs b c mid.length)) := by
  simp only [compose, enter, perform_bind, perform_get, perform_ofExcept, hv.box, hw.box, hv.dom, hw.codom,
    hv.codom, perform_allocate_diagram, perform_insertBox_withNew, perform_diagram_withNew,
    perform_replace_withNew]
  rfl

theorem perform_otimesBoxes {v w b c : Value} {ins ins' outs outs' : List Value} (hv : s.Operand v b ins outs)
    (hw : s.Operand w c ins' outs') : (otimesBoxes v w).perform s =
      (enter s.objects.length b c .tensoring).perform (s.withNew (sideBySide ins ins' outs outs' b c)) := by
  simp only [otimesBoxes, enter, perform_bind, perform_get, perform_ofExcept, hv.box, hw.box, hv.dom, hw.dom,
    hv.codom, hw.codom, perform_allocate_diagram, perform_insertBox_withNew, perform_diagram_withNew,
    perform_replace_withNew]
  rfl

/-- Once the names are written, the substitutions are all that is left to do. -/
theorem perform_enter {t : Store} {host : Ref} {b c name name' : Value} {message : Value → Value → Note}
    (hname : s.boxName b = .ok name) (hname' : s.boxName c = .ok name')
    (hrun : (do substitute host (.ofNat 2) .null; substitute host (.ofNat 3) .null).perform
      { s with notes := s.notes ++ [message name name'] } = (.ok (), t)) :
    (enter host b c message).perform s = (.ok host, t) := by
  rw [enter, perform_bind, perform_ask, hname]
  dsimp only
  rw [perform_bind, perform_ask, hname']
  dsimp only
  rw [perform_bind, perform_note]
  dsimp only
  rw [← bind_assoc, perform_bind, hrun]
  rfl

/-- The boxes of both diagrams come into the scaffold, if their names can be written. -/
theorem enter_filled {P : Plan} (message : Value → Value → Note) (hf : s.Morphism p f)
    (hg : s.Morphism q g) (hs : Scaffold (.ref p) (.ref q) P d) (hl : Plan.Loopless 2 P)
    (hl' : Plan.Loopless 3 (Plan.graft 2 P (f.plan.move (· + 4)))) :
    ∃ t d', (enter s.objects.length (.ref p) (.ref q) message).perform (s.withNew d) =
        (.ok s.objects.length, t) ∧ Grows s t ∧ t.diagram? s.objects.length = some d' ∧ Filled P d f g d' ∧
      List.Forall₂ (fun b b' => s.Matched b t b' ∧ t.Rooted b') (f.boxes.values ++ g.boxes.values)
        d'.boxes.values := by
  obtain ⟨name, hname⟩ := (hf.grows (grows_withNew s d)).boxName
  obtain ⟨name', hname'⟩ := (hg.grows (grows_withNew s d)).boxName
  let s₀ : Store := { s.withNew d with notes := (s.withNew d).notes ++ [message name name'] }
  have hgrow₀ : Grows s s₀ := grows_withNew s d
  have hd₀ : s₀.diagram? s.objects.length = some d := diagram?_withNew s d
  obtain ⟨t, d', hrun, h⟩ := fill_spec hf hg hgrow₀ (Nat.le_refl _) hd₀ hs hl hl'
  exact ⟨t, d', perform_enter hname hname' hrun, h⟩

theorem enter_spec {P : Plan} {X : Blueprint} (message : Value → Value → Note) (hf : s.Morphism p f)
    (hg : s.Morphism q g) (hs : Scaffold (.ref p) (.ref q) P d) (hl : Plan.Loopless 2 P)
    (hl' : Plan.Loopless 3 (Plan.graft 2 P (f.plan.move (· + 4)))) (hi : d.inputs = X.inputs)
    (ho : d.outputs = X.outputs) (hw : s.Writable X.inputs ∧ s.Writable X.outputs)
    (hparts : X.parts = f.boxes.values ++ g.boxes.values) (hplan : ∀ d', Filled P d f g d' → d'.plan = X.plan) :
    ∃ t d', (enter s.objects.length (.ref p) (.ref q) message).perform (s.withNew d) =
        (.ok s.objects.length, t) ∧ d'.Outward ∧ s.Realizes X t s.objects.length d' := by
  obtain ⟨t, d', hrun, hgrow, hfound, hfill, hmatch⟩ := enter_filled message hf hg hs hl hl'
  have hrows : d'.inputs = X.inputs ∧ d'.outputs = X.outputs :=
    ⟨hfill.inputs.trans hi, hfill.outputs.trans ho⟩
  have hlength : X.parts.length = d'.boxes.values.length := hparts ▸ hmatch.length_eq
  refine ⟨t, d', hrun, hfill.outward, hgrow, ⟨hfound, hfill.consistent, hfill.directed, ?_, fun b hb => ?_⟩,
    ⟨?_, ?_, ?_, fun i b hb => ?_, ?_⟩⟩
  · rw [named_iff, hrows.1, hrows.2]
    exact hw.imp (·.grows hgrow) (·.grows hgrow)
  · exact ((List.forall₂_and_left _ _).mp (hmatch.flip.imp fun _ _ h => And.comm.mp h)).1 b hb
  · exact hrows.1 ▸ Value.same_refl _
  · exact hrows.2 ▸ Value.same_refl _
  · rw [hlength]
    exact Set.bijOn_id _
  · obtain ⟨hi, rfl⟩ := List.getElem?_eq_some_iff.mp (hparts ▸ hb)
    exact ⟨_, List.getElem?_eq_getElem (hmatch.length_eq ▸ hi), (hmatch.get hi (hmatch.length_eq ▸ hi)).1⟩
  · rw [Plan.move_id]
    exact hplan d' hfill

theorem compose_spec (hf : s.Morphism p f) (hg : s.Morphism q g) :
    ∃ t d, (compose (.ref p) (.ref q)).perform s = (.ok s.objects.length, t) ∧ d.Outward ∧
      s.Realizes (f.blueprint.compose g.blueprint) t s.objects.length d := by
  obtain ⟨hs, hi, ho⟩ := scaffold_inSequence f.inputs g.outputs (.ref p) (.ref q) f.outputs.length
  rw [perform_compose (operand_of_diagram hf.found) (operand_of_diagram hg.found)]
  exact enter_spec .composing hf hg hs (Plan.loopless_chain (by decide) _ _ _)
    (Plan.loopless_graft_chain (by decide) (Plan.away_move (fun i => by omega) _) _ _ _) hi ho
    ⟨hf.writable.1, hg.writable.2⟩ rfl fun d' h =>
      h.compose_plan hf.consistent hg.consistent hf.directed hg.directed

theorem otimesBoxes_spec (hf : s.Morphism p f) (hg : s.Morphism q g) :
    ∃ t d, (otimesBoxes (.ref p) (.ref q)).perform s = (.ok s.objects.length, t) ∧ d.Outward ∧
      s.Realizes (f.blueprint.otimes g.blueprint) t s.objects.length d := by
  obtain ⟨hs, hi, ho⟩ := scaffold_sideBySide f.inputs g.inputs f.outputs g.outputs (.ref p) (.ref q)
  rw [perform_otimesBoxes (operand_of_diagram hf.found) (operand_of_diagram hg.found)]
  exact enter_spec .tensoring hf hg hs (Plan.loopless_pair _ _ _ _ _ _)
    (Plan.loopless_graft_pair (by decide) (Plan.away_move (fun i => by omega) _) _ _ _ _) hi ho
    ⟨hf.writable.1.append hg.writable.1, hf.writable.2.append hg.writable.2⟩ rfl fun d' h =>
      h.otimes_plan hf.consistent hg.consistent hf.directed hg.directed

/-- A diagram of wires alone is put into the store. -/
theorem realizes_bare {φ : Nat → Nat} {as bs : List Value} (h : Bare (Plan.wiring φ as.length) d)
    (hi : d.inputs = as) (ho : d.outputs = bs) (has : s.Writable as) (hbs : s.Writable bs) :
    s.Realizes (.ports as bs φ) (s.withNew d) s.objects.length d := by
  subst hi ho
  have hgrow := grows_withNew s d
  refine ⟨hgrow, ⟨diagram?_withNew s d, h.consistent, h.directed,
    named_iff.mpr ⟨has.grows hgrow, hbs.grows hgrow⟩, fun b hb => ?_⟩, .of_eq (fun b hb => ?_) h.blueprint_eq.symm⟩
  · rw [h.boxes] at hb
    cases hb
  · cases hb

theorem identity_spec {as : List Value} (has : s.Writable as) :
    ∃ t d, (identity (.row as)).perform s = (.ok s.objects.length, t) ∧ d.Outward ∧
      s.Realizes (.identity as) t s.objects.length d := by
  obtain ⟨h, hi, ho⟩ := bare_straight as
  refine ⟨_, straight as, ?_, h.outward, realizes_bare h hi ho has has⟩
  simp only [identity, perform_bind, perform_ask]
  rfl

theorem braid_spec {as bs : List Value} (has : s.Writable as) (hbs : s.Writable bs) :
    ∃ t d, (braid (.row as) (.row bs)).perform s = (.ok s.objects.length, t) ∧ d.Outward ∧
      s.Realizes (.braid as bs) t s.objects.length d := by
  obtain ⟨h, hi, ho⟩ := bare_crossed as bs
  rw [← List.length_append] at h
  refine ⟨_, crossed as bs, ?_, h.outward, realizes_bare h hi ho (has.append hbs) (hbs.append has)⟩
  simp only [braid, perform_bind, perform_ask]
  rfl

end Action

end StringDiagram
