import Mathlib.Data.Set.Card
import Mathlib.Data.Set.Finite.Lattice
import StringDiagram.Proofs.Flattening.Layers
import StringDiagram.Proofs.Store.Carried
import StringDiagram.Proofs.Store.Locality

/-! # The unfolding of a diagram

A diagram that is a box in several places counts there as often. Where boxes lead in no circle there are
finitely many paths through them, `finite_paths`, and each leads to a nested diagram or to another box. -/
namespace StringDiagram.Store
open Diagram

def boxAt (s : Store) (b : Value) : Path → Option Value
  | [] => some b
  | u :: p => (s.boxAt b p).bind fun c => (s.asDiagram? c).bind fun e => e.2.boxes.get? u

def IsLayer (s : Store) (host : Ref) (p : Path) (r : Ref) (e : Diagram) : Prop :=
  s.boxAt (.ref host) p = some (.ref r) ∧ s.diagram? r = some e

def nested (s : Store) (host : Ref) : Set Path := {p | p ≠ [] ∧ ∃ r e, s.IsLayer host p r e}

def leaves (s : Store) (host : Ref) : Set Path :=
  {p | ∃ b, s.boxAt (.ref host) p = some b ∧ s.asDiagram? b = none}

def layerAt (s : Store) (host : Ref) (p : Path) : Diagram :=
  (((s.boxAt (.ref host) p).bind s.asDiagram?).map Prod.snd).getD (.new [] [])

def rootsAt (s : Store) (host : Ref) : Path → List Ref
  | [] => (s.layerAt host []).refs
  | u :: p => ((s.boxAt (.ref host) (u :: p)).map Value.refs).getD []

def Encloses (s : Store) (p q : Ref) : Prop :=
  ∃ d e, s.diagram? p = some d ∧ .ref q ∈ d.boxes.values ∧ s.diagram? q = some e

/-- The diagrams that are nested in the one at `host` can all be substituted, and none is nested in itself. -/
structure Nest (s : Store) (host : Ref) (d : Diagram) : Prop where
  found : s.diagram? host = some d
  founded : Acc (fun q p => s.Encloses p q) host
  rooted : s.Rooted (.ref host)
  consistent : ∀ q e, s.Nests host q → s.diagram? q = some e → e.Consistent
  directed : ∀ q e, s.Nests host q → q ≠ host → s.diagram? q = some e → e.Directed

section Paths
variable {s : Store} {b c : Value} {u : Nat} {p : Path} {r host : Ref} {e : Diagram}

theorem asDiagram?_ref (he : s.diagram? r = some e) : s.asDiagram? (.ref r) = some (r, e) :=
  asDiagram?_eq_some.mpr ⟨rfl, he⟩

theorem boxAt_cons (hp : s.boxAt b p = some (.ref r)) (he : s.diagram? r = some e) :
    s.boxAt b (u :: p) = e.boxes.get? u := by
  rw [boxAt, hp, Option.bind_some, asDiagram?_ref he, Option.bind_some]

theorem boxAt_cons_eq_some : s.boxAt b (u :: p) = some c ↔
    ∃ r e, s.boxAt b p = some (.ref r) ∧ s.diagram? r = some e ∧ e.boxes.get? u = some c := by
  constructor
  · intro h
    obtain ⟨b', hb, hstep⟩ := Option.bind_eq_some_iff.mp h
    obtain ⟨⟨r, e⟩, hr, hu⟩ := Option.bind_eq_some_iff.mp hstep
    obtain ⟨rfl, he⟩ := asDiagram?_eq_some.mp hr
    exact ⟨r, e, hb, he, hu⟩
  · rintro ⟨r, e, hb, he, h⟩
    rw [boxAt_cons hb he, h]

/-- A path leads further from a box that is a diagram only. -/
theorem eq_nil_of_boxAt (hb : s.asDiagram? b = none) (h : s.boxAt b p = some c) : p = [] := by
  induction p generalizing c with
  | nil => rfl
  | cons u p ih =>
    obtain ⟨r, e, hp, he, -⟩ := boxAt_cons_eq_some.mp h
    obtain rfl := ih hp
    rw [Option.some.inj hp, asDiagram?_ref he] at hb
    cases hb

/-- The first step of a path, which comes last. -/
theorem boxAt_concat (he : s.diagram? r = some e) (p : Path) (u : Nat) :
    s.boxAt (.ref r) (p ++ [u]) = (e.boxes.get? u).bind fun b => s.boxAt b p := by
  induction p with
  | nil =>
    rw [List.nil_append, boxAt_cons rfl he]
    cases e.boxes.get? u <;> rfl
  | cons n p ih =>
    rw [List.cons_append, boxAt, ih]
    cases e.boxes.get? u <;> rfl

theorem finite_paths_of_none (hb : s.asDiagram? b = none) : {p | ∃ c, s.boxAt b p = some c}.Finite := by
  refine (Set.finite_singleton []).subset fun p hp => ?_
  obtain ⟨c, hc⟩ := hp
  exact eq_nil_of_boxAt hb hc

theorem finite_paths (h : Acc (fun q p => s.Encloses p q) r) :
    {p | ∃ c, s.boxAt (.ref r) p = some c}.Finite := by
  induction h with
  | intro r _ ih =>
    cases he : s.diagram? r with
    | none => exact finite_paths_of_none (by simp [asDiagram?, he])
    | some e =>
      have hbox : ∀ u ∈ e.boxes.keys, {p | ∃ c, s.boxAt (.ref r) (p ++ [u]) = some c}.Finite := by
        intro u hu
        obtain ⟨b, hb⟩ := Table.exists_get? hu
        simp only [boxAt_concat he, hb, Option.bind_some]
        cases hd : s.asDiagram? b with
        | none => exact finite_paths_of_none hd
        | some qe =>
          obtain ⟨q, e'⟩ := qe
          obtain ⟨rfl, hq⟩ := asDiagram?_eq_some.mp hd
          exact ih q ⟨e, e', he, Table.mem_values_of_get? hb, hq⟩
      have hfin := (Set.Finite.biUnion (e.boxes.keys.toFinset.finite_toSet) fun u hu =>
        (hbox u (List.mem_toFinset.mp hu)).image fun p => p ++ [u])
      refine (hfin.insert []).subset fun p hp => ?_
      obtain ⟨c, hc⟩ := hp
      rcases List.eq_nil_or_concat p with rfl | ⟨q, u, rfl⟩
      · exact Set.mem_insert _ _
      · rw [List.concat_eq_append] at hc ⊢
        obtain ⟨b, hb, -⟩ := Option.bind_eq_some_iff.mp ((boxAt_concat he q u).symm.trans hc)
        have hu : u ∈ e.boxes.keys.toFinset := List.mem_toFinset.mpr (Table.mem_keys_of_get? hb)
        exact Set.mem_insert_of_mem _ (Set.mem_biUnion (x := u) hu ⟨q, ⟨c, hc⟩, rfl⟩)

namespace IsLayer

theorem box_eq (h : s.IsLayer host p r e) (u : Nat) : s.boxAt (.ref host) (u :: p) = e.boxes.get? u :=
  boxAt_cons h.1 h.2

theorem layerAt_eq (h : s.IsLayer host p r e) : s.layerAt host p = e := by
  rw [layerAt, h.1, Option.bind_some, asDiagram?_ref h.2]
  rfl

theorem nests (h : s.IsLayer host p r e) : s.Nests host r := by
  induction p generalizing r e with
  | nil =>
    obtain rfl := Value.ref.inj (Option.some.inj h.1)
    exact .self
  | cons u p ih =>
    obtain ⟨q, d, hq, hd, hu⟩ := boxAt_cons_eq_some.mp h.1
    exact .box (ih ⟨hq, hd⟩) hd (Table.mem_values_of_get? hu) h.2

theorem transGen (h : s.IsLayer host p r e) (hp : p ≠ []) :
    Relation.TransGen (fun q p => s.Encloses p q) r host := by
  induction p generalizing r e with
  | nil => exact absurd rfl hp
  | cons u p ih =>
    obtain ⟨q, d, hq, hd, hu⟩ := boxAt_cons_eq_some.mp h.1
    have hstep : s.Encloses q r := ⟨d, e, hd, Table.mem_values_of_get? hu, h.2⟩
    cases p with
    | nil =>
      obtain rfl := Value.ref.inj (Option.some.inj hq)
      exact .single hstep
    | cons n p => exact .head hstep (ih ⟨hq, hd⟩ (List.cons_ne_nil n p))

end IsLayer

end Paths

/-- What is nested in itself is not well-founded. -/
theorem not_transGen_of_acc {α : Type} {R : α → α → Prop} {a : α} (h : Acc R a) : ¬ Relation.TransGen R a a := by
  have h' := h.transGen
  clear h
  induction h' with
  | intro a _ ih => exact fun ha => ih a ha ha

namespace Nest
variable {s : Store} {host q r : Ref} {d e : Diagram} {b : Value} {u : Nat} {p : Path}

theorem isLayer_nil (h : s.Nest host d) : s.IsLayer host [] host d := ⟨rfl, h.found⟩

theorem layerAt_nil (h : s.Nest host d) : s.layerAt host [] = d := h.isLayer_nil.layerAt_eq

theorem ne_host (h : s.Nest host d) (hl : s.IsLayer host p r e) (hp : p ≠ []) : r ≠ host := by
  rintro rfl
  exact not_transGen_of_acc h.founded (hl.transGen hp)

theorem exists_layer (h : s.Nest host d) (hp : p = [] ∨ p ∈ s.nested host) : ∃ r e, s.IsLayer host p r e := by
  rcases hp with rfl | ⟨-, r, e, hl⟩
  · exact ⟨host, d, h.isLayer_nil⟩
  · exact ⟨r, e, hl⟩

theorem consistent_at (h : s.Nest host d) (hp : p = [] ∨ p ∈ s.nested host) : (s.layerAt host p).Consistent := by
  obtain ⟨r, e, hl⟩ := h.exists_layer hp
  rw [hl.layerAt_eq]
  exact h.consistent r e hl.nests hl.2

theorem directed_at (h : s.Nest host d) (hp : p ∈ s.nested host) : (s.layerAt host p).Directed := by
  obtain ⟨hne, r, e, hl⟩ := hp
  rw [hl.layerAt_eq]
  exact h.directed r e hl.nests (h.ne_host hl hne) hl.2

/-- A diagram is nested in one that is nested, or in the outermost. -/
theorem parent (hp : u :: p ∈ s.nested host) :
    (p = [] ∨ p ∈ s.nested host) ∧ u ∈ (s.layerAt host p).boxes.keys := by
  obtain ⟨-, r, e, hb, -⟩ := hp
  obtain ⟨q, k, hq, hk, hu⟩ := boxAt_cons_eq_some.mp hb
  have hl : s.IsLayer host p q k := ⟨hq, hk⟩
  refine ⟨?_, hl.layerAt_eq ▸ Table.mem_keys_of_get? hu⟩
  cases p with
  | nil => exact Or.inl rfl
  | cons n p => exact Or.inr ⟨List.cons_ne_nil n p, q, k, hl⟩

theorem exists_box (h : s.Nest host d) (hp : p = [] ∨ p ∈ s.nested host)
    (hu : u ∈ (s.layerAt host p).boxes.keys) : ∃ b, s.boxAt (.ref host) (u :: p) = some b ∧
      (s.layerAt host p).boxes.get? u = some b := by
  obtain ⟨r, e, hl⟩ := h.exists_layer hp
  obtain ⟨b, hb⟩ := Table.exists_get? hu
  refine ⟨b, ?_, hb⟩
  rw [hl.layerAt_eq] at hb
  rw [hl.box_eq, hb]

theorem rootsAt_eq (hb : s.boxAt (.ref host) (u :: p) = some b) : s.rootsAt host (u :: p) = b.refs := by
  rw [rootsAt, hb]
  rfl

/-- What a diagram refers to can be reached from it, also past the outermost diagram. -/
theorem past_of_refs (h : s.Nest host d) (hl : s.IsLayer host p r e) (hq : q ∈ e.refs) :
    s.Past host (s.rootsAt host p) q := by
  cases p with
  | nil =>
    obtain rfl : e = s.layerAt host [] := hl.layerAt_eq.symm
    exact .of_mem hq
  | cons u p =>
    have hr : s.Past host (s.rootsAt host (u :: p)) r := by
      rw [rootsAt_eq hl.1]
      exact .of_mem List.mem_cons_self
    exact hr.tail (h.ne_host hl (List.cons_ne_nil u p)) (mem_refsAt.mpr ⟨_, diagram?_eq_some.mp hl.2, hq⟩)

theorem past_of_box (h : s.Nest host d) (hl : s.IsLayer host p r e) (hb : e.boxes.get? u = some b)
    (hq : q ∈ b.refs) : s.Past host (s.rootsAt host p) q :=
  h.past_of_refs hl (mem_refs_of_box (Table.mem_values_of_get? hb) hq)

theorem past_of_connector (h : s.Nest host d) (hl : s.IsLayer host p r e) {c : Connector}
    (hc : ∃ w ∈ e.wires, w.source = c ∨ w.target = c) (hq : q ∈ c.toValue.refs) :
    s.Past host (s.rootsAt host p) q := by
  obtain ⟨w, hw, hc⟩ := hc
  refine h.past_of_refs hl (List.mem_append_right _ (List.mem_flatMap.mpr ⟨w, hw, List.mem_append.mpr ?_⟩))
  rcases hc with rfl | rfl
  · exact Or.inl hq
  · exact Or.inr hq

theorem lt_of_past (h : s.Nest host d) (hp : ∃ b, s.boxAt (.ref host) p = some b)
    (hq : s.Past host (s.rootsAt host p) q) : q < s.objects.length := by
  induction p generalizing q with
  | nil =>
    obtain ⟨r, hr, hrq⟩ := hq.leads
    rw [rootsAt, h.layerAt_nil] at hr
    refine h.rooted q (reaches_ref.mpr (.head ?_ hrq))
    exact mem_refsAt.mpr ⟨_, diagram?_eq_some.mp h.found, hr⟩
  | cons u p ih =>
    obtain ⟨b, hb⟩ := hp
    obtain ⟨r, e, hr, he, hu⟩ := boxAt_cons_eq_some.mp hb
    rw [rootsAt_eq hb] at hq
    exact ih ⟨_, hr⟩ (hq.trans fun q hq => h.past_of_box ⟨hr, he⟩ hu hq)

theorem finite_nested (h : s.Nest host d) : (s.nested host).Finite :=
  (finite_paths h.founded).subset fun _ ⟨_, r, _, hl⟩ => ⟨.ref r, hl.1⟩

/-- Each path leads to a nested diagram or to another box. -/
theorem nested_or_leaf (hb : s.boxAt (.ref host) (u :: p) = some b) :
    u :: p ∈ s.nested host ∨ u :: p ∈ s.leaves host := by
  cases hd : s.asDiagram? b with
  | none => exact Or.inr ⟨b, hb, hd⟩
  | some re =>
    obtain ⟨r, e⟩ := re
    obtain ⟨rfl, he⟩ := asDiagram?_eq_some.mp hd
    exact Or.inl ⟨List.cons_ne_nil u p, r, e, hb, he⟩

theorem not_leaf_of_nested (hp : p ∈ s.nested host) : p ∉ s.leaves host := by
  rintro ⟨b, hb, hd⟩
  obtain ⟨-, r, e, hr, he⟩ := hp
  obtain rfl := Option.some.inj (hb.symm.trans hr)
  rw [asDiagram?_ref he] at hd
  cases hd

end Nest

/-- In a store in which diagrams hold only later ones, nothing is nested in itself. -/
theorem nest_of_later {s : Store} {host : Ref} {d : Diagram} (hs : s.Closed) (hd : s.diagram? host = some d)
    (hlater : ∀ p e q, s.diagram? p = some e → .ref q ∈ e.boxes.values → p < q)
    (hall : ∀ p e, s.diagram? p = some e → e.Consistent ∧ e.Directed) : s.Nest host d where
  found := hd
  founded := by
    have hwf : WellFounded fun q p => s.Encloses p q := by
      refine Subrelation.wf (fun {q p} hpq => ?_) (measure fun r => s.objects.length - r).wf
      obtain ⟨d, e, hp, hq, he⟩ := hpq
      have hlt := hlater p d q hp hq
      exact Nat.sub_lt_sub_left (hlt.trans (lt_of_diagram? he)) hlt
    exact hwf.apply host
  rooted q hq := by
    refine hs.lt_of_reaches (fun r hr => ?_) hq
    obtain rfl := List.mem_singleton.mp hr
    exact lt_of_diagram? hd
  consistent q e _ he := (hall q e he).1
  directed q e _ _ he := (hall q e he).2

end StringDiagram.Store
