import Mathlib.Order.SuccPred.IntervalSucc
import StringDiagram.Proofs.Store.Carried
import StringDiagram.Proofs.Substitution.Retained

/-! # Copies of nested diagrams

The diagrams among the boxes that a substitution inserts are copied, each with all that it leads to, and each
copy has a part of the store of its own: `substitute_copies`. Two copies of one diagram share nothing. That the
host changes while the boxes come in does not show in the copies, because none of the boxes leads to it. -/
namespace StringDiagram
open Diagram Store

namespace Store
variable {s t : Store} {host r : Ref} {f : Ref → Ref}

/-- All that `r` leads to has an image of its own among the new objects, which refers to the images of what it
refers to, and from the image of `r` nothing else can be reached. So a copied diagram has its rows,
identifiers, boxes and wires in their order, and what was shared or went in circles does so in the copy. -/
structure Replicated (s : Store) (r : Ref) (t : Store) (f : Ref → Ref) : Prop where
  places : Set.BijOn f {q | s.Leads r q} {x | t.Leads (f r) x}
  objects : ∀ q, s.Leads r q → ∃ o, s.objects[q]? = some o ∧ t.objects[f q]? = some (o.rename f)
  new : ∀ q, s.Leads r q → s.objects.length ≤ f q

/-- What does not lead to the host leads to nothing past it. -/
theorem Leads.past (hn : ¬ s.Leads r host) {q : Ref} (hq : s.Leads r q) : s.Past host [r] q := by
  induction hq with
  | refl => exact .of_mem List.mem_cons_self
  | tail hp hpq ih => exact ih.tail (fun he => hn (he ▸ hp)) hpq

/-- Apart from the host what was carried was copied. -/
theorem Carried.carries (h : s.Carried host f [r] t) (hn : ¬ s.Leads r host) : Carries f s (.ref r) t where
  inj p q hp hq := h.inj p q (Leads.past hn (reaches_ref.mp hp)) (Leads.past hn (reaches_ref.mp hq))
  image q o hq := by
    have hq := reaches_ref.mp hq
    exact h.same q o (hq.past hn) fun he => hn (he ▸ hq)

theorem Carries.replicated (h : Carries f s (.ref r) t) (hr : s.Rooted (.ref r))
    (hnew : ∀ q, s.Leads r q → s.objects.length ≤ f q) : s.Replicated r t f where
  places := by
    refine ⟨fun q hq => ?_, fun p hp q hq => ?_, fun x hx => ?_⟩
    · exact reaches_ref.mp (h.reaches (reaches_ref.mpr hq))
    · exact h.inj p q (reaches_ref.mpr hp) (reaches_ref.mpr hq)
    · obtain ⟨q, hq, hqx⟩ := h.exists_reaches hr (reaches_ref.mpr hx)
      exact ⟨q, reaches_ref.mp hq, hqx⟩
  objects q hq := by
    have hq := reaches_ref.mpr hq
    obtain ⟨o, ho⟩ := hr.getElem? hq
    exact ⟨o, ho, h.image q o hq ho⟩
  new := hnew

theorem Closed.rooted_ref (hs : s.Closed) {d : Diagram} (hd : s.diagram? r = some d) : s.Rooted (.ref r) := by
  have hlt : ∀ q ∈ Value.refs (.ref r), q < s.objects.length := by
    intro q hq
    cases List.mem_singleton.mp hq
    exact lt_of_diagram? hd
  exact fun q hq => hs.lt_of_reaches hlt hq

/-- Copied one after the other, each box has a part of the store of its own. -/
theorem Brought.replicated {bs held : List Value} (h : s.Brought host bs t held) (hs : s.Closed)
    {d : Diagram} (hd : s.diagram? host = some d) (hapart : ∀ b ∈ bs, s.Apart host b)
    (hbs : ∀ b ∈ bs, ∀ q ∈ b.refs, q < s.objects.length) :
    ∃ (f : Nat → Ref → Ref) (lo : Nat → Nat), Monotone lo ∧
      (∀ (i : Nat) b, bs[i]? = some b → s.asDiagram? b = none → held[i]? = some b) ∧
      ∀ (i : Nat) r k, bs[i]? = some (.ref r) → s.diagram? r = some k →
        held[i]? = some (.ref (f i r)) ∧ s.Replicated r t (f i) ∧
          {x | t.Leads (f i r) x} ⊆ Set.Ico (lo i) (lo (i + 1)) := by
  obtain ⟨f, lo, hlo, hmono, hfix, hmap⟩ := h.exists_maps (lt_of_diagram? hd)
  refine ⟨f, lo, hmono, fun i b hi hb => hfix i b hi ?_, fun i r k hi hr => ?_⟩
  · rintro r rfl
    have hr : s.diagram? r = none := by simpa [asDiagram?] using hb
    refine ⟨fun he => ?_, hr, ?_⟩
    · rw [he, hd] at hr
      cases hr
    · have hlt := hbs _ (List.mem_of_getElem? hi) r List.mem_cons_self
      exact ⟨_, List.getElem?_eq_getElem hlt⟩
  · have hroot := hs.rooted_ref hr
    have hn : ¬ s.Leads r host := fun hl =>
      hapart _ (List.mem_of_getElem? hi) r k rfl hr (reaches_ref.mpr hl)
    have hne : r ≠ host := fun he => hn (he ▸ .refl)
    obtain ⟨hheld, hcarried⟩ := hmap i r k hi hne hr
    have hself : s.Carried host id [r] s := .self fun q hq => by
      obtain ⟨p, hp, hpq⟩ := hq.leads
      cases List.mem_singleton.mp hp
      exact hroot q (reaches_ref.mpr hpq)
    obtain ⟨hcopied, hpart⟩ := hcarried s id r hself rfl
    have hin : ∀ q, s.Leads r q → f i q ∈ Set.Ico (lo i) (lo (i + 1)) := fun q hq => hpart q (hq.past hn)
    have hrep : s.Replicated r t (f i) := (hcopied.carries hn).replicated hroot fun q hq => by
      have hle : lo 0 ≤ lo i := hmono (Nat.zero_le i)
      exact (hlo ▸ hle).trans (hin q hq).1
    refine ⟨hheld, hrep, fun x hx => ?_⟩
    obtain ⟨q, hq, rfl⟩ := hrep.places.surjOn hx
    exact hin q hq

end Store

/-- A substitution that succeeds found its box. -/
theorem Action.inline_of_substitute {s s' : Store} {host inner : Ref} {d e : Diagram} {v sub : Value}
    (hd : s.diagram? host = some d) (he : s.diagram? inner = some e)
    (hsub : sub = .ref inner ∨ sub = .null ∧ d.box v = .ok (.ref inner))
    (hrun : (substitute host v sub).perform s = (.ok (), s')) :
    ∃ n, v.boxId? = some n ∧ n ∈ d.boxes.keys ∧ (inline host n inner).perform s = (.ok (), s') := by
  have hfound : ∃ n, v.boxId? = some n ∧ n ∈ d.boxes.keys := by
    by_contra hmissing
    push Not at hmissing
    rw [perform_substitute_missing hd sub hmissing] at hrun
    cases hrun
  obtain ⟨n, hv, hn⟩ := hfound
  obtain ⟨box, hbox⟩ := Table.exists_get? hn
  have hsub : sub = .ref inner ∨ sub = .null ∧ box = .ref inner := by
    simp only [Diagram.box, Table.resolve_eq_ok.mpr ⟨hv, hbox⟩] at hsub
    exact hsub.imp_right fun h => ⟨h.1, Except.ok.inj h.2⟩
  exact ⟨n, hv, hn, (perform_substitute hd he hv hbox hsub).symm.trans hrun⟩

/-- Substitution copies the diagrams among the boxes that it inserts, and inserts all other boxes as they are.
What one copy leads to is disjoint from what another leads to, even if both are copies of one diagram. All
objects but the host are as they were. The inserted diagram may be the host itself. -/
theorem substitute_copies {s s' : Store} {host inner : Ref} {d e : Diagram} {v sub : Value} (hs : s.Closed)
    (hd : s.diagram? host = some d) (he : s.diagram? inner = some e) (hcd : d.Consistent)
    (hapart : ∀ b ∈ e.boxes.values, s.Apart host b)
    (hsub : sub = .ref inner ∨ sub = .null ∧ d.box v = .ok (.ref inner))
    (hrun : (Action.substitute host v sub).perform s = (.ok (), s')) :
    ∃ (d' : Diagram) (f : Nat → Ref → Ref), s'.diagram? host = some d' ∧
      (∀ (i : Nat) b, e.boxes.values[i]? = some b → s.asDiagram? b = none →
        d'.boxes.get? (d.next + i) = some b) ∧
      (∀ (i : Nat) r k, e.boxes.values[i]? = some (.ref r) → s.diagram? r = some k →
        d'.boxes.get? (d.next + i) = some (.ref (f i r)) ∧ s.Replicated r s' (f i)) ∧
      (∀ (i j : Nat) p q k l, i ≠ j → e.boxes.values[i]? = some (.ref p) → s.diagram? p = some k →
        e.boxes.values[j]? = some (.ref q) → s.diagram? q = some l →
        ∀ x, s'.Leads (f i p) x → ¬ s'.Leads (f j q) x) ∧
      ∀ q o, q ≠ host → s.objects[q]? = some o → s'.objects[q]? = some o := by
  obtain ⟨n, -, hn, hrun⟩ := Action.inline_of_substitute hd he hsub hrun
  obtain ⟨d', held, h⟩ := Action.inline_retains hd he hcd hn hrun
  obtain ⟨f, lo, hmono, hfix, hmap⟩ := h.brought.replicated hs hd hapart fun b hb => hs.lt_of_box he hb
  have hget : ∀ {i : Nat} {b : Value}, held[i]? = some b → d'.boxes.get? (d.next + i) = some b :=
    fun hi => Inlined.get?_held (e := e) hcd (h.length_held ▸ h.retains.boxes) h.length_held hi
  refine ⟨d', f, h.found, fun i b hi hb => hget (hfix i b hi hb), fun i r k hi hr => ?_,
    fun i j p q k l hij hi hp hj hq x hx hx' => ?_, h.frame.same⟩
  · obtain ⟨hheld, hrep, -⟩ := hmap i r k hi hr
    exact ⟨hget hheld, hrep⟩
  · obtain ⟨-, -, hpart⟩ := hmap i p k hi hp
    obtain ⟨-, -, hpart'⟩ := hmap j q l hj hq
    exact Set.disjoint_left.mp (hmono.pairwise_disjoint_on_Ico_succ hij) (hpart hx) (hpart' hx')

/-- Two diagrams that hold each other, the first twice in what comes into a third. -/
theorem substitute_copies_entwined :
    let f : Value := .atomic (.hom (.text "f") [] [])
    let holding := (new [] []).withBoxes
    let s : Store := ⟨[.diagram (holding [f]), .diagram (holding [.ref 2, f, .ref 2]), .diagram (holding [.ref 3]),
      .diagram (holding [.ref 2, .ref 3])], []⟩
    ∃ s' d' p q, (Action.substitute 0 (.ofNat 2) (.ref 1)).perform s = (.ok (), s') ∧
      s'.diagram? 0 = some d' ∧ d'.boxes.get? 3 = some (.ref p) ∧ d'.boxes.get? 4 = some f ∧
      d'.boxes.get? 5 = some (.ref q) ∧ (∃ g, s.Replicated 2 s' g ∧ g 2 = p) ∧ (∃ g, s.Replicated 2 s' g ∧ g 2 = q) ∧
      (∀ x, s'.Leads p x → ¬ s'.Leads q x) ∧ s'.objects[2]? = s.objects[2]? := by
  intro f holding s
  have hs : s.Closed := closed_of_forall (by decide)
  have hreach : ¬ s.Reaches (.ref 2) 0 := not_reaches (by decide) (by decide) (by decide)
  have hapart : ∀ b ∈ (holding [.ref 2, f, .ref 2]).boxes.values, s.Apart 0 b := by
    rintro b hb r k rfl -
    have hr : r = 2 := by simpa [holding, Diagram.withBoxes, new, addBox, Table.values, f] using hb
    exact hr ▸ hreach
  have hd : s.diagram? 0 = some (holding [f]) := rfl
  have he : s.diagram? 1 = some (holding [.ref 2, f, .ref 2]) := rfl
  have hcd : (holding [f]).Consistent := (consistent_new [] []).withBoxes [f]
  have hok : ((Action.substitute 0 (.ofNat 2) (.ref 1)).perform s).1 = .ok () := by decide +kernel
  have hrun := Prod.fst_eq_iff.mp hok
  obtain ⟨d', g, hd', hsame, hcopy, hdisjoint, hframe⟩ := substitute_copies hs hd he hcd hapart (Or.inl rfl) hrun
  obtain ⟨hp, hrep⟩ := hcopy 0 2 _ rfl rfl
  obtain ⟨hq, hrep'⟩ := hcopy 2 2 _ rfl rfl
  have hf := hsame 1 f rfl rfl
  have hpq := hdisjoint 0 2 2 2 _ _ (by decide) rfl rfl rfl rfl
  have h2 := hframe 2 _ (by decide) rfl
  exact ⟨_, d', g 0 2, g 2 2, hrun, hd', hp, hf, hq, ⟨g 0, hrep, rfl⟩, ⟨g 2, hrep', rfl⟩, hpq, h2⟩

end StringDiagram
