import Mathlib.Order.Monotone.Basic
import StringDiagram.Proofs.Store.Matched
import StringDiagram.Proofs.Substitution.Inlined

/-! # Copies of copies

Boxes are copied while their host changes, and what they refer to may lead back to it. `Carried` says that
all they lead to has an image, as far as the host, which is an image of the host as it was at that time. This
lasts while the host changes and while what was copied is copied again: `Brought.exists_maps`. -/
namespace StringDiagram

theorem Object.rename_id (o : Object) : o.rename id = o := rename_of_fixed fun _ _ => rfl

namespace Store

/-- What can be reached from the references without going on from the object at `host`. -/
def Past (s : Store) (host : Ref) (rs : List Ref) (q : Ref) : Prop :=
  ∃ r ∈ rs, Relation.ReflTransGen (fun p q => p ≠ host ∧ q ∈ s.refsAt p) r q

section Past
variable {s : Store} {host p q r : Ref} {rs rs' : List Ref}

theorem Past.of_mem (h : r ∈ rs) : s.Past host rs r := ⟨r, h, .refl⟩

theorem Past.tail (h : s.Past host rs p) (hp : p ≠ host) (hq : q ∈ s.refsAt p) : s.Past host rs q := by
  obtain ⟨r, hr, hrp⟩ := h
  exact ⟨r, hr, hrp.tail ⟨hp, hq⟩⟩

theorem Past.trans (h : s.Past host rs' q) (hrs : ∀ r ∈ rs', s.Past host rs r) : s.Past host rs q := by
  obtain ⟨r', hr', hq⟩ := h
  obtain ⟨r, hr, hrr⟩ := hrs r' hr'
  exact ⟨r, hr, hrr.trans hq⟩

theorem Past.leads (h : s.Past host rs q) : ∃ r ∈ rs, s.Leads r q := by
  obtain ⟨r, hr, hq⟩ := h
  exact ⟨r, hr, hq.lift id fun _ _ => And.right⟩

end Past

/-- Everything that can be reached from the references, as far as the host, has its own image under `f`, which
refers to the images of what it refers to. -/
structure Carried (s : Store) (host : Ref) (f : Ref → Ref) (rs : List Ref) (t : Store) : Prop where
  inj : ∀ p q, s.Past host rs p → s.Past host rs q → f p = f q → p = q
  lt : ∀ q, s.Past host rs q → f q < t.objects.length
  ne : ∀ q, s.Past host rs q → q ≠ host → f q ≠ host
  same : ∀ q o, s.Past host rs q → q ≠ host → s.objects[q]? = some o → t.objects[f q]? = some (o.rename f)

namespace Carried
variable {s t t' : Store} {host r : Ref} {f : Ref → Ref} {rs rs' : List Ref}

/-- What is there is its own image. -/
theorem self (h : ∀ q, s.Past host rs q → q < s.objects.length) : s.Carried host id rs s where
  inj _ _ _ _ := id
  lt := h
  ne _ _ := id
  same q o _ _ ho := by rw [o.rename_id]; exact ho

theorem frame (h : s.Carried host f rs t) (hf : Frame host t t') : s.Carried host f rs t' where
  inj := h.inj
  lt q hq := Nat.lt_of_lt_of_le (h.lt q hq) hf.length_le
  ne := h.ne
  same q o hq hne ho := hf.same _ _ (h.ne q hq hne) (h.same q o hq hne ho)

theorem mono (h : s.Carried host f rs t) (hrs : ∀ r ∈ rs', s.Past host rs r) : s.Carried host f rs' t where
  inj p q hp hq := h.inj p q (hp.trans hrs) (hq.trans hrs)
  lt q hq := h.lt q (hq.trans hrs)
  ne q hq := h.ne q (hq.trans hrs)
  same q o hq := h.same q o (hq.trans hrs)

theorem leads (h : s.Carried host f [r] t) {q : Ref} (hq : s.Past host [r] q) : t.Leads (f r) (f q) := by
  obtain ⟨r', hr', hq⟩ := hq
  obtain rfl := List.mem_singleton.mp hr'
  induction hq with
  | refl => exact .refl
  | tail hp hpq ih =>
    obtain ⟨o, ho, hmem⟩ := mem_refsAt.mp hpq.2
    have hget := h.same _ o ⟨_, hr', hp⟩ hpq.1 ho
    refine ih.tail (mem_refsAt.mpr ⟨_, hget, ?_⟩)
    rw [Object.refs_rename]
    exact List.mem_map_of_mem hmem

theorem diagram? (h : s.Carried host f [r] t) (hne : r ≠ host) {e : Diagram} (he : s.diagram? r = some e) :
    t.diagram? (f r) = some (e.rename f) :=
  diagram?_eq_some.mpr (h.same r _ (.of_mem List.mem_cons_self) hne (diagram?_eq_some.mp he))

/-- An image can be copied, and the copies are new. -/
theorem copy (h : s.Carried host f [r] t) (hhost : host < t.objects.length) :
    s.Carried host (t.copyRef (t.reachable (f r)) ∘ f) [r] (t.copy (f r)).2 ∧
      ∀ q, s.Past host [r] q → t.objects.length ≤ t.copyRef (t.reachable (f r)) (f q) := by
  have hr := h.lt r (.of_mem List.mem_cons_self)
  have hget : ∀ {q o}, s.Past host [r] q → t.objects[f q]? = some o →
      t.objects.length ≤ t.copyRef (t.reachable (f r)) (f q) ∧
        (t.copy (f r)).2.objects[t.copyRef (t.reachable (f r)) (f q)]? =
          some (o.rename (t.copyRef (t.reachable (f r)))) := fun hq ho => copy_getElem? hr (h.leads hq) ho
  have hnew : ∀ {q}, s.Past host [r] q → ∃ o, t.objects[f q]? = some o := fun hq =>
    ⟨_, List.getElem?_eq_getElem (h.lt _ hq)⟩
  refine ⟨⟨fun p q hp hq he => ?_, fun q hq => ?_, fun q hq _ => ?_, fun q o hq hne ho => ?_⟩, fun q hq => ?_⟩
  · exact h.inj p q hp hq (copyRef_inj hr (h.leads hp) (h.leads hq) (h.lt p hp) (h.lt q hq) he)
  · obtain ⟨o, ho⟩ := hnew hq
    exact (List.getElem?_eq_some_iff.mp (hget hq ho).2).1
  · obtain ⟨o, ho⟩ := hnew hq
    exact Nat.ne_of_gt (Nat.lt_of_lt_of_le hhost (hget hq ho).1)
  · rw [Function.comp_apply, (hget hq (h.same q o hq hne ho)).2, Object.rename_rename]
  · obtain ⟨o, ho⟩ := hnew hq
    exact (hget hq ho).1

end Carried

/-- The value is no diagram, and no reference to something that may change or is missing. -/
def Fixed (s : Store) (host : Ref) (b : Value) : Prop :=
  ∀ r, b = .ref r → r ≠ host ∧ s.diagram? r = none ∧ ∃ o, s.objects[r]? = some o

section Brought
variable {s s₀ t : Store} {host : Ref} {b b' : Value} {bs held : List Value}

theorem Fixed.frame (h : s.Fixed host b) (hf : Frame host s t) : t.Fixed host b := by
  intro r hr
  obtain ⟨hne, hd, o, ho⟩ := h r hr
  have ho' := hf.same r o hne ho
  exact ⟨hne, (diagram?_congr (ho'.trans ho.symm)).trans hd, o, ho'⟩

theorem Fixed.asDiagram? (h : s.Fixed host b) : s.asDiagram? b = none := by
  cases b with
  | ref r => simp [Store.asDiagram?, (h r rfl).2.1]
  | _ => rfl

theorem Fixed.copyBox (h : s.Fixed host b) : (Action.copyBox b).perform s = (.ok b, s) := by
  simp [Action.copyBox, Action.perform_bind, h.asDiagram?]

theorem perform_copyBox_ref {r : Ref} {e : Diagram} (he : s.diagram? r = some e) :
    (Action.copyBox (.ref r)).perform s = (.ok (.ref (s.copy r).1), (s.copy r).2) := by
  have hr : s.asDiagram? (.ref r) = some (r, e) := by simp [Store.asDiagram?, he]
  simp only [Action.copyBox, Action.perform_bind, Action.perform_get, hr]
  rfl

theorem frame_copyBox (h : (Action.copyBox b).perform s = (.ok b', t)) : Frame host s t := by
  obtain ⟨b₁, os, hrun, -⟩ := Action.copyBox_spec s b
  rw [h] at hrun
  exact .of_append (congrArg Store.objects (Prod.mk.inj hrun).2)

theorem Brought.frame (h : s.Brought host bs t held) : Frame host s t := by
  induction h with
  | nil h => exact h
  | cons h hf _ ih => exact (frame_copyBox h).trans (hf.trans ih)

/-- What is brought into the host stays as it is or is copied, each box into a part of the store of its own. -/
theorem Brought.exists_maps (h : s.Brought host bs t held) (hhost : host < s.objects.length) :
    ∃ (g : Nat → Ref → Ref) (lo : Nat → Nat), lo 0 = s.objects.length ∧ Monotone lo ∧
      (∀ (i : Nat) b, bs[i]? = some b → s.Fixed host b → held[i]? = some b) ∧
      ∀ (i : Nat) r e, bs[i]? = some (.ref r) → r ≠ host → s.diagram? r = some e → held[i]? = some (.ref (g i r)) ∧
        ∀ (s₀ : Store) (f : Ref → Ref) r₀, s₀.Carried host f [r₀] s → f r₀ = r → s₀.Carried host (g i ∘ f) [r₀] t ∧
          ∀ q, s₀.Past host [r₀] q → lo i ≤ g i (f q) ∧ g i (f q) < lo (i + 1) := by
  induction h with
  | nil => exact ⟨fun _ => id, fun _ => _, rfl, fun _ _ _ => Nat.le_refl _, by simp, by simp⟩
  | @cons s s₁ s₂ t b b' bs held hcopy hf hrest ih =>
    have hf₁ : Frame host s s₁ := frame_copyBox hcopy
    obtain ⟨g, lo, hlo, hmono, hfix, hmap⟩ :=
      ih (Nat.lt_of_lt_of_le hhost (hf₁.trans hf).length_le)
    have hle : s.objects.length ≤ lo 0 := hlo ▸ (hf₁.trans hf).length_le
    let g' : Nat → Ref → Ref := fun i => Nat.casesOn i (s.copyRef (s.reachable (b.refs.headD 0))) g
    let lo' : Nat → Nat := fun i => Nat.casesOn i s.objects.length lo
    refine ⟨g', lo', rfl, monotone_nat_of_le_succ fun i => ?_, fun i b₁ hi hb => ?_, fun i r e hi hne he => ?_⟩
    · cases i with
      | zero => exact hle
      | succ i => exact hmono (Nat.le_succ i)
    · cases i with
      | zero =>
        obtain rfl := Option.some.inj hi
        rw [hb.copyBox] at hcopy
        exact congrArg some (Except.ok.inj (Prod.mk.inj hcopy).1).symm
      | succ i => exact hfix i b₁ hi (hb.frame (hf₁.trans hf))
    · cases i with
      | zero =>
        obtain rfl := Option.some.inj hi
        rw [perform_copyBox_ref he] at hcopy
        obtain ⟨hb', rfl⟩ := Prod.mk.inj hcopy
        refine ⟨congrArg some (Except.ok.inj hb').symm, fun s₀ f r₀ hc hr => ?_⟩
        subst hr
        obtain ⟨hcarried, hge⟩ := hc.copy hhost
        refine ⟨hcarried.frame (hf.trans hrest.frame), fun q hq => ⟨hge q hq, ?_⟩⟩
        exact Nat.lt_of_lt_of_le (hcarried.lt q hq) (Nat.le_trans hf.length_le (Nat.le_of_eq hlo.symm))
      | succ i =>
        obtain ⟨hget, hcarried⟩ := hmap i r e hi hne ((hf₁.trans hf).diagram? hne he)
        exact ⟨hget, fun s₀ f r₀ hc hr => hcarried s₀ f r₀ (hc.frame (hf₁.trans hf)) hr⟩

end Brought

end Store

/-- A substitution keeps the boxes that it brings into the host, or copies them, each into a part of the store
of its own. -/
theorem Inlined.exists_maps {s t : Store} {host : Ref} {v : Nat} {d e d' : Diagram}
    (h : Inlined s t host v d e d') (hd : s.diagram? host = some d) (hcd : d.Consistent) :
    ∃ (g : Nat → Ref → Ref) (lo : Nat → Nat), lo 0 = s.objects.length ∧ Monotone lo ∧
      (∀ (i : Nat) b, e.boxes.values[i]? = some b → s.Fixed host b → d'.boxes.get? (d.next + i) = some b) ∧
      ∀ (i : Nat) r k, e.boxes.values[i]? = some (.ref r) → r ≠ host → s.diagram? r = some k →
        d'.boxes.get? (d.next + i) = some (.ref (g i r)) ∧
        ∀ (s₀ : Store) (f : Ref → Ref) r₀, s₀.Carried host f [r₀] s → f r₀ = r → s₀.Carried host (g i ∘ f) [r₀] t ∧
          ∀ q, s₀.Past host [r₀] q → lo i ≤ g i (f q) ∧ g i (f q) < lo (i + 1) := by
  obtain ⟨held, hb, hl, -, hbrought⟩ := h.boxes
  obtain ⟨g, lo, hlo, hmono, hfix, hmap⟩ := hbrought.exists_maps (Store.lt_of_diagram? hd)
  refine ⟨g, lo, hlo, hmono, fun i b hi hf => get?_held hcd hb hl (hfix i b hi hf), fun i r k hi hne hk => ?_⟩
  obtain ⟨hget, hcarried⟩ := hmap i r k hi hne hk
  exact ⟨get?_held hcd hb hl hget, hcarried⟩

end StringDiagram
