import Mathlib.Data.Set.Function
import StringDiagram.Proofs.Store.Held

/-! # Boxes that match

Two values match if neither is a diagram and they are the same, or if both are and all objects that the
one leads to have images among those that the other leads to. Matching is an equivalence between the
values of stores, it lasts while the stores grow, and what is held matches what it was made from. -/
namespace StringDiagram

namespace Value
variable {f g : Ref → Ref}

mutual

theorem rename_congr : ∀ v : Value, (∀ r ∈ v.refs, f r = g r) → v.rename f = v.rename g
  | .list vs, h | .tuple vs, h | .product vs, h | .row vs, h => by
    simp only [rename, renameAll_congr vs h]
  | .connector b k p, h => by
    simp only [refs, List.mem_append] at h
    simp only [rename, rename_congr b fun r hr => h r (Or.inl (Or.inl hr)),
      rename_congr k fun r hr => h r (Or.inl (Or.inr hr)), rename_congr p fun r hr => h r (Or.inr hr)]
  | .wire s t, h => by
    simp only [refs, List.mem_append] at h
    simp only [rename, rename_congr s fun r hr => h r (Or.inl hr),
      rename_congr t fun r hr => h r (Or.inr hr)]
  | .hom n ds cs, h => by
    simp only [refs, List.mem_append] at h
    simp only [rename, rename_congr n fun r hr => h r (Or.inl (Or.inl hr)),
      renameAll_congr ds fun r hr => h r (Or.inl (Or.inr hr)),
      renameAll_congr cs fun r hr => h r (Or.inr hr)]
  | .atomic e, h => by simp only [rename, rename_congr e h]
  | .operation o _, h => by simp only [rename, rename_congr o h]
  | .ref r, h => by simp only [rename, h r List.mem_cons_self]
  | .null, _ | .truth _, _ | .int _, _ | .text _, _ | .object _, _ | .side _, _ | .palette _, _ => rfl

theorem renameAll_congr : ∀ vs : List Value, (∀ r ∈ refsAll vs, f r = g r) → renameAll f vs = renameAll g vs
  | [], _ => rfl
  | v :: vs, h => by
    simp only [refsAll, List.mem_append] at h
    simp only [renameAll, rename_congr v fun r hr => h r (Or.inl hr),
      renameAll_congr vs fun r hr => h r (Or.inr hr)]

end

mutual

theorem rename_id : ∀ v : Value, v.rename id = v
  | .list vs | .tuple vs | .product vs | .row vs => by simp only [rename, renameAll_id vs]
  | .connector b k p => by simp only [rename, rename_id b, rename_id k, rename_id p]
  | .wire s t => by simp only [rename, rename_id s, rename_id t]
  | .hom n ds cs => by simp only [rename, rename_id n, renameAll_id ds, renameAll_id cs]
  | .atomic e => by simp only [rename, rename_id e]
  | .operation o _ => by simp only [rename, rename_id o]
  | .ref _ | .null | .truth _ | .int _ | .text _ | .object _ | .side _ | .palette _ => rfl

theorem renameAll_id : ∀ vs : List Value, renameAll id vs = vs
  | [] => rfl
  | v :: vs => by simp only [renameAll, rename_id v, renameAll_id vs]

end

theorem rename_of_fixed (v : Value) (h : ∀ r ∈ v.refs, f r = r) : v.rename f = v :=
  (rename_congr v h).trans (rename_id v)

theorem renameAll_of_fixed (vs : List Value) (h : ∀ r ∈ refsAll vs, f r = r) : renameAll f vs = vs :=
  (renameAll_congr vs h).trans (renameAll_id vs)

end Value

theorem Diagram.rename_of_fixed {f : Ref → Ref} {d : Diagram} (h : ∀ r ∈ d.refs, f r = r) :
    d.rename f = d := by
  simp only [Diagram.refs, List.mem_append] at h
  have hboxes : d.boxes.map (fun e => (e.1, e.2.rename f)) = d.boxes := by
    refine (List.map_congr_left fun e he => ?_).trans (List.map_id _)
    have hfix : e.2.rename f = e.2 := by
      refine Value.rename_of_fixed _ fun r hr => h r (Or.inl (Or.inr ?_))
      rw [Value.refsAll_eq]
      exact List.mem_flatMap.mpr ⟨e.2, List.mem_map_of_mem he, hr⟩
    rw [hfix]
    rfl
  have hwire : ∀ w ∈ d.wires, w.rename f = w := by
    intro w hw
    have hv : (w.rename f).toValue = w.toValue :=
      Value.rename_of_fixed w.toValue fun r hr => h r (Or.inr (List.mem_flatMap.mpr ⟨w, hw, hr⟩))
    obtain ⟨⟨b, k, p⟩, ⟨b', k', p'⟩⟩ := w
    simpa [Wire.toValue, Connector.toValue, Wire.rename, Connector.rename] using hv
  have hedges : d.edges.map (fun e => (e.1, e.2.map (Wire.rename f))) = d.edges := by
    refine (List.map_congr_left fun e he => ?_).trans (List.map_id _)
    have hfix : e.2.map (Wire.rename f) = e.2 :=
      (List.map_congr_left fun w hw => hwire w (List.mem_flatten.mpr ⟨e.2, List.mem_map_of_mem he, hw⟩)).trans
        (List.map_id _)
    rw [hfix]
    rfl
  rw [Diagram.rename, hboxes, hedges, Value.renameAll_of_fixed _ fun r hr => h r (Or.inl (Or.inl (Or.inl hr))),
    Value.renameAll_of_fixed _ fun r hr => h r (Or.inl (Or.inl (Or.inr hr)))]

theorem Object.rename_of_fixed {f : Ref → Ref} {o : Object} (h : ∀ r ∈ o.refs, f r = r) :
    o.rename f = o := by
  have hopt : ∀ vs : Option (List Value), (∀ r ∈ Value.refsAll (vs.getD []), f r = r) →
      vs.map (Value.renameAll f) = vs := by
    intro vs hvs
    cases vs with
    | none => rfl
    | some vs => exact congrArg some (Value.renameAll_of_fixed vs hvs)
  cases o with
  | diagram d => exact congrArg _ (Diagram.rename_of_fixed h)
  | expression e =>
    simp only [Object.refs, List.mem_append] at h
    simp only [Object.rename, hopt _ fun r hr => h r (Or.inl hr), hopt _ fun r hr => h r (Or.inr hr)]
  | block b =>
    simp only [Object.refs, List.mem_append] at h
    simp only [Object.rename, Value.rename_of_fixed _ fun r hr => h r (Or.inl hr),
      Value.rename_of_fixed _ fun r hr => h r (Or.inr hr)]
  | shape t =>
    simp only [Object.refs, List.mem_append] at h
    simp only [Object.rename, hopt _ fun r hr => h r (Or.inl hr), hopt _ fun r hr => h r (Or.inr hr)]

namespace Store
variable {s t u : Store} {b b' b'' : Value}

def Grows (s t : Store) : Prop := s.objects <+: t.objects

def Rooted (s : Store) (b : Value) : Prop := ∀ q, s.Reaches b q → q < s.objects.length

/-- In a store in which nothing is missing. -/
theorem Closed.rooted_of_box (hs : s.Closed) {r : Ref} {d : Diagram} (hd : s.diagram? r = some d)
    (hb : b ∈ d.boxes.values) : s.Rooted b := fun _ hq => hs.lt_of_reaches (hs.lt_of_box hd hb) hq

structure Carries (f : Ref → Ref) (s : Store) (b : Value) (t : Store) : Prop where
  inj : ∀ p q, s.Reaches b p → s.Reaches b q → f p = f q → p = q
  image : ∀ q o, s.Reaches b q → s.objects[q]? = some o → t.objects[f q]? = some (o.rename f)

def IsImage (s : Store) (b : Value) (t : Store) (b' : Value) : Prop :=
  ∃ f, b.rename f = b' ∧ Carries f s b t

/-- Two values are the same, but that diagrams may be copies. -/
def Matched (s : Store) (b : Value) (t : Store) (b' : Value) : Prop :=
  (s.asDiagram? b = none ∧ t.asDiagram? b' = none ∧ b.same b' = true) ∨
    ((s.asDiagram? b).isSome = true ∧ s.IsImage b t b')

namespace Grows

theorem refl (s : Store) : Grows s s := List.prefix_rfl

theorem trans (h : Grows s t) (h' : Grows t u) : Grows s u := List.IsPrefix.trans h h'

theorem length_le (h : Grows s t) : s.objects.length ≤ t.objects.length := List.IsPrefix.length_le h

theorem getElem? (h : Grows s t) {q : Ref} (hq : q < s.objects.length) : t.objects[q]? = s.objects[q]? := by
  obtain ⟨os, hos⟩ := h
  rw [← hos, List.getElem?_append_left hq]

theorem get (h : Grows s t) {q : Ref} {o : Object} (ho : s.objects[q]? = some o) :
    t.objects[q]? = some o := by
  rw [h.getElem? (List.getElem?_eq_some_iff.mp ho).1, ho]

theorem diagram? (h : Grows s t) {r : Ref} {d : Diagram} (hd : s.diagram? r = some d) :
    t.diagram? r = some d := diagram?_eq_some.mpr (h.get (diagram?_eq_some.mp hd))

/-- A change to an object that was not there. -/
theorem of_frame {host : Ref} (h : Frame host t u) (hs : Grows s t) (hh : s.objects.length ≤ host) :
    Grows s u := by
  refine List.prefix_iff_getElem?.mpr fun i hi => ?_
  have ht : t.objects[i]? = some s.objects[i] := by rw [hs.getElem? hi, List.getElem?_eq_getElem hi]
  exact h.same i _ (Nat.ne_of_lt (Nat.lt_of_lt_of_le hi hh)) ht

end Grows

namespace Rooted

theorem ref_lt {r : Ref} (h : s.Rooted (.ref r)) : r < s.objects.length := h r (reaches_ref.mpr .refl)

theorem lt_of_ref (h : s.Rooted b) {r : Ref} (hr : r ∈ b.refs) : r < s.objects.length := h r ⟨r, hr, .refl⟩

theorem reaches_iff (h : s.Rooted b) (hg : Grows s t) {q : Ref} : t.Reaches b q ↔ s.Reaches b q := by
  constructor
  · rintro ⟨r, hr, hq⟩
    induction hq with
    | refl => exact ⟨r, hr, .refl⟩
    | tail _ hpq ih =>
      refine ih.tail ?_
      obtain ⟨o, ho, hmem⟩ := mem_refsAt.mp hpq
      exact mem_refsAt.mpr ⟨o, hg.getElem? (h _ ih) ▸ ho, hmem⟩
  · exact fun hq => hq.mono fun _ _ _ ho => hg.get ho

theorem grows (h : s.Rooted b) (hg : Grows s t) : t.Rooted b := fun q hq =>
  Nat.lt_of_lt_of_le (h q ((h.reaches_iff hg).mp hq)) hg.length_le

theorem asDiagram? (h : s.Rooted b) (hg : Grows s t) : t.asDiagram? b = s.asDiagram? b := by
  cases b with
  | ref r => rw [Store.asDiagram?, Store.asDiagram?, diagram?_congr (hg.getElem? h.ref_lt)]
  | _ => rfl

theorem getElem? (h : s.Rooted b) {q : Ref} (hq : s.Reaches b q) : ∃ o, s.objects[q]? = some o :=
  ⟨_, List.getElem?_eq_getElem (h q hq)⟩

end Rooted

namespace Carries
variable {f : Ref → Ref}

theorem reaches (h : Carries f s b t) {q : Ref} (hq : s.Reaches b q) :
    t.Reaches (b.rename f) (f q) := by
  obtain ⟨r, hr, hq⟩ := hq
  induction hq with
  | refl => exact ⟨f r, by rw [Value.refs_rename]; exact List.mem_map_of_mem hr, .refl⟩
  | tail hp hpq ih =>
    obtain ⟨o, ho, hmem⟩ := mem_refsAt.mp hpq
    refine ih.tail (mem_refsAt.mpr ⟨o.rename f, h.image _ o ⟨r, hr, hp⟩ ho, ?_⟩)
    rw [Object.refs_rename]
    exact List.mem_map_of_mem hmem

/-- What the image leads to are the images. -/
theorem exists_reaches (h : Carries f s b t) (hb : s.Rooted b) {x : Ref}
    (hx : t.Reaches (b.rename f) x) : ∃ q, s.Reaches b q ∧ f q = x := by
  obtain ⟨r', hr', hx⟩ := hx
  rw [Value.refs_rename] at hr'
  obtain ⟨r, hr, rfl⟩ := List.mem_map.mp hr'
  induction hx with
  | refl => exact ⟨r, ⟨r, hr, .refl⟩, rfl⟩
  | tail _ hpx ih =>
    obtain ⟨p, hp, rfl⟩ := ih
    obtain ⟨o, ho⟩ := hb.getElem? hp
    obtain ⟨o', ho', hmem⟩ := mem_refsAt.mp hpx
    rw [h.image p o hp ho, Option.some.injEq] at ho'
    rw [← ho', Object.refs_rename] at hmem
    obtain ⟨q, hq, hqx⟩ := List.mem_map.mp hmem
    exact ⟨q, hp.tail (mem_refsAt.mpr ⟨o, ho, hq⟩), hqx⟩

end Carries

namespace IsImage

theorem rooted (h : s.IsImage b t b') (hb : s.Rooted b) : t.Rooted b' := by
  obtain ⟨f, rfl, hf⟩ := h
  intro x hx
  obtain ⟨q, hq, rfl⟩ := hf.exists_reaches hb hx
  obtain ⟨o, ho⟩ := hb.getElem? hq
  exact (List.getElem?_eq_some_iff.mp (hf.image q o hq ho)).1

theorem of_grows (hg : Grows s t) (b : Value) : s.IsImage b t b := by
  refine ⟨id, Value.rename_of_fixed b fun _ _ => rfl, fun _ _ _ _ h => h, fun q o _ ho => ?_⟩
  rw [Object.rename_of_fixed (f := id) fun _ _ => rfl]
  exact hg.get ho

theorem trans (h : s.IsImage b t b') (h' : t.IsImage b' u b'') : s.IsImage b u b'' := by
  obtain ⟨f, rfl, hf⟩ := h
  obtain ⟨g, rfl, hg⟩ := h'
  refine ⟨g ∘ f, (Value.rename_rename f g b).symm, fun p q hp hq he => ?_, fun q o hq ho => ?_⟩
  · exact hf.inj p q hp hq (hg.inj _ _ (hf.reaches hp) (hf.reaches hq) he)
  · rw [← Object.rename_rename]
    exact hg.image _ _ (hf.reaches hq) (hf.image q o hq ho)

/-- The objects are the images of their images. -/
theorem symm (h : s.IsImage b t b') (hb : s.Rooted b) : t.IsImage b' s b := by
  obtain ⟨f, rfl, hf⟩ := h
  let g := Function.invFunOn f {q | s.Reaches b q}
  have hg : ∀ q, s.Reaches b q → g (f q) = q := by
    intro q hq
    have hex : ∃ p ∈ {q | s.Reaches b q}, f p = f q := ⟨q, hq, rfl⟩
    exact hf.inj _ _ (Function.invFunOn_mem hex) hq (Function.invFunOn_eq hex)
  refine ⟨g, ?_, fun x y hx hy he => ?_, fun x o hx ho => ?_⟩
  · rw [Value.rename_rename]
    exact Value.rename_of_fixed b fun r hr => hg r ⟨r, hr, .refl⟩
  · obtain ⟨p, hp, rfl⟩ := hf.exists_reaches hb hx
    obtain ⟨q, hq, rfl⟩ := hf.exists_reaches hb hy
    rw [hg p hp, hg q hq] at he
    rw [he]
  · obtain ⟨q, hq, rfl⟩ := hf.exists_reaches hb hx
    obtain ⟨o', ho'⟩ := hb.getElem? hq
    rw [hf.image q o' hq ho', Option.some.injEq] at ho
    have hfix : o'.rename (g ∘ f) = o' :=
      Object.rename_of_fixed fun r hr => hg r (hq.tail (mem_refsAt.mpr ⟨o', ho', hr⟩))
    rw [← ho, Object.rename_rename, hfix, hg q hq, ho']

end IsImage

/-- The image of a diagram is a diagram. -/
theorem IsImage.isSome_asDiagram? (h : s.IsImage b t b') (hb : (s.asDiagram? b).isSome = true) :
    (t.asDiagram? b').isSome = true := by
  obtain ⟨f, rfl, hf⟩ := h
  cases b with
  | ref r =>
    obtain ⟨⟨r', d⟩, hd⟩ := Option.isSome_iff_exists.mp hb
    obtain ⟨e, he, -⟩ := Option.map_eq_some_iff.mp hd
    have himage := hf.image r _ (reaches_ref.mpr .refl) (diagram?_eq_some.mp he)
    have hd' : t.diagram? (f r) = some (e.rename f) := diagram?_eq_some.mpr himage
    simp [Value.rename, asDiagram?, hd']
  | _ => simp [asDiagram?] at hb

namespace Matched

theorem of_grows (hg : Grows s t) (hb : s.Rooted b) : s.Matched b t b := by
  cases h : s.asDiagram? b with
  | none => exact Or.inl ⟨h, (hb.asDiagram? hg).trans h, Value.same_refl b⟩
  | some found => exact Or.inr ⟨by rw [h]; rfl, .of_grows hg b⟩

theorem symm (h : s.Matched b t b') (hb : s.Rooted b) : t.Matched b' s b := by
  rcases h with ⟨hn, hn', hs⟩ | ⟨hd, hi⟩
  · exact Or.inl ⟨hn', hn, Value.same_symm hs⟩
  · exact Or.inr ⟨hi.isSome_asDiagram? hd, hi.symm hb⟩

theorem trans (h : s.Matched b t b') (h' : t.Matched b' u b'') : s.Matched b u b'' := by
  rcases h with ⟨hn, hn', hs⟩ | ⟨hd, hi⟩ <;> rcases h' with ⟨hm, hm', hs'⟩ | ⟨hd', hi'⟩
  · exact Or.inl ⟨hn, hm', Value.same_trans hs hs'⟩
  · simp [hn'] at hd'
  · have hsome := hi.isSome_asDiagram? hd
    simp [hm] at hsome
  · exact Or.inr ⟨hd, hi.trans hi'⟩

end Matched

theorem Held.matched {s₀ : Store} (h : s₀.Held b t b') (hb : s.Rooted b) (hg : Grows s s₀) (hg' : Grows s t) :
    s.Matched b t b' ∧ t.Rooted b' := by
  have hb₀ := hb.grows hg
  cases hd : s.asDiagram? b with
  | none =>
    have hd₀ := (hb.asDiagram? hg).trans hd
    have hsame : b' = b := h.eq_of_not_diagram hd₀ fun _ => hb₀.lt_of_ref
    subst hsame
    exact ⟨.of_grows hg' hb, hb.grows hg'⟩
  | some found =>
    have himage : s₀.IsImage b t b' := by
      cases b with
      | ref r =>
        rcases h.ref_cases with ⟨_, -, f, hf, hinj, hobj⟩ | ⟨o, -, hn, -⟩ | hn
        · exact ⟨f, hf, fun p q hp hq => hinj p q hp hq (hb₀ p hp) (hb₀ q hq),
            fun q o hq ho => (hobj q o hq ho).2⟩
        · have hd₀ := (hb.asDiagram? hg).trans hd
          simp [asDiagram?, hn] at hd₀
        · rw [List.getElem?_eq_getElem hb₀.ref_lt] at hn
          cases hn
      | _ => simp [asDiagram?] at hd
    exact ⟨Or.inr ⟨by rw [hd]; rfl, (IsImage.of_grows hg b).trans himage⟩, himage.rooted hb₀⟩

end Store

end StringDiagram
