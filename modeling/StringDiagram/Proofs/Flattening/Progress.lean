import StringDiagram.Proofs.Flattening.Opening
import StringDiagram.Proofs.Flattening.Unfolding

/-! # How far a diagram is flattened

When some boxes of a diagram were substituted, the layers that were opened are a part of its unfolding.
`Progress` says what the diagram is then: its boxes are those on the border of that part, and its wires are
what the part shows. Every further substitution opens one more layer, `Progress.step`. -/
namespace StringDiagram
open Diagram Network

def Store.HoldsDiagram (s : Store) (host : Ref) (n : Nat) : Prop :=
  ∃ d b re, s.diagram? host = some d ∧ d.boxes.get? n = some b ∧ s.asDiagram? b = some re

instance (s : Store) (host : Ref) (n : Nat) : Decidable (s.HoldsDiagram host n) :=
  decidable_of_iff ((((s.diagram? host).bind fun d => d.boxes.get? n).bind s.asDiagram?).isSome = true) (by
    simp only [Store.HoldsDiagram, Option.isSome_iff_exists, Option.bind_eq_some_iff]
    constructor
    · rintro ⟨re, b, ⟨d, hd, hb⟩, hre⟩
      exact ⟨d, b, re, hd, hb, hre⟩
    · rintro ⟨d, b, re, hd, hb, hre⟩
      exact ⟨re, b, ⟨d, hd, hb⟩, hre⟩)

/-- A part of the unfolding, from the outermost diagram on. -/
structure Store.Subtree (s : Store) (host : Ref) (L : Finset Path) : Prop where
  root : [] ∈ L
  nested : ∀ p ∈ L, p = [] ∨ p ∈ s.nested host
  parent : ∀ {u p}, u :: p ∈ L → p ∈ L

def Store.known (s : Store) (host : Ref) (L : Finset Path) : Set Path :=
  {x | (x ∈ L ∨ x ∈ border (s.layerAt host) L) ∧ (x = [] ∨ x ∈ s.nested host)}

/-- The diagram `d` in store `t` is what the diagram of store `s` became when the layers `L` were opened. The
boxes on the border have the numbers `ν`, and what is in them was copied by `φ`. -/
structure Progress (s : Store) (host : Ref) (L : Finset Path) (t : Store) (d : Diagram) (ν : Path → Nat)
    (φ : Path → Ref → Ref) : Prop where
  found : t.diagram? host = some d
  consistent : d.Consistent
  inputs : d.inputs = (s.layerAt host []).inputs
  outputs : d.outputs = (s.layerAt host []).outputs
  tree : s.Subtree host L
  number : Set.BijOn ν (border (s.layerAt host) L) {n | n ∈ d.boxes.keys}
  held : ∀ x ∈ border (s.layerAt host) L, ∀ b, s.boxAt (.ref host) x = some b →
    d.boxes.get? (ν x) = some (b.rename (φ x))
  carried : ∀ x, x ∈ L ∨ x ∈ border (s.layerAt host) L → s.Carried host (φ x) (s.rootsAt host x) t
  shallow : ∀ x : Path, x.length ≤ 1 → φ x = id
  leaf : ∀ u p, u :: p ∈ border (s.layerAt host) L → u :: p ∈ s.leaves host → φ (u :: p) = φ p
  apart : ∀ x ∈ s.known host L, ∀ y ∈ s.known host L, x ≠ y → 2 ≤ x.length ∨ 2 ≤ y.length → ∀ q q',
    s.Past host (s.rootsAt host x) q → s.Past host (s.rootsAt host y) q' → φ x q ≠ φ y q'
  shows : Shows (s.layerAt host) L ν φ d

def numbersIn (ν : Path → Nat) (x : Path) (d e : Diagram) (y : Path) : Nat :=
  if y.tail = x then d.next + e.boxes.keys.idxOf (y.headD 0) else ν y

open Classical in
noncomputable def copiesIn (s : Store) (host : Ref) (φ : Path → Ref → Ref) (x : Path) (e : Diagram)
    (g : Nat → Ref → Ref) (y : Path) : Ref → Ref :=
  if y.tail = x then if y ∈ s.nested host then g (e.boxes.keys.idxOf (y.headD 0)) ∘ φ x else φ x else φ y

section Border
variable {D : Path → Diagram} {L : Finset Path} {u : Nat} {p x y : Path}

theorem Opened.mem_border_insert (ho : Opened D L) (hx : x ∉ L) : y ∈ border D (insert x L) ↔
    y ∈ border D L ∧ y ≠ x ∨ ∃ n ∈ (D x).boxes.keys, y = n :: x := by
  constructor
  · rintro ⟨hy, n, q, rfl, hq, hn⟩
    rw [Finset.mem_insert, not_or] at hy
    rcases Finset.mem_insert.mp hq with rfl | hq
    · exact Or.inr ⟨n, hn, rfl⟩
    · exact Or.inl ⟨⟨hy.2, n, q, rfl, hq, hn⟩, hy.1⟩
  · rintro (⟨⟨hy, n, q, rfl, hq, hn⟩, hne⟩ | ⟨n, hn, rfl⟩)
    · exact ⟨fun h => (Finset.mem_insert.mp h).elim hne hy, n, q, rfl, Finset.mem_insert_of_mem hq, hn⟩
    · refine ⟨fun h => ?_, n, x, rfl, Finset.mem_insert_self x L, hn⟩
      rcases Finset.mem_insert.mp h with h | h
      · exact absurd h (List.cons_ne_self n x)
      · exact hx (ho.parent h).1

/-- Nothing that is known yet is in a layer that is not open. -/
theorem tail_ne_of_mem (ho : Opened D L) (hx : u :: p ∉ L) (hy : y ∈ L ∨ y ∈ border D L) : y.tail ≠ u :: p := by
  intro he
  rcases hy with hy | ⟨-, n, q, rfl, hq, -⟩
  · cases y with
    | nil => cases he
    | cons n q => exact hx (he ▸ (ho.parent hy).1)
  · exact hx (he ▸ hq)

end Border

section Numbers
variable {s : Store} {host : Ref} {ν : Path → Nat} {φ : Path → Ref → Ref} {g : Nat → Ref → Ref} {x y : Path}
  {n i : Nat} {d e : Diagram}

theorem numbersIn_of_ne (h : y.tail ≠ x) : numbersIn ν x d e y = ν y := if_neg h

theorem numbersIn_cons (hk : e.boxes.keys.Nodup) (hi : e.boxes.keys[i]? = some n) :
    numbersIn ν x d e (n :: x) = d.next + i := by
  rw [numbersIn, List.tail_cons, if_pos rfl, List.headD_cons, idxOf_of_getElem? hk hi]

theorem copiesIn_of_ne (h : y.tail ≠ x) : copiesIn s host φ x e g y = φ y := if_neg h

theorem copiesIn_of_nested (hk : e.boxes.keys.Nodup) (hi : e.boxes.keys[i]? = some n)
    (hn : n :: x ∈ s.nested host) : copiesIn s host φ x e g (n :: x) = g i ∘ φ x := by
  rw [copiesIn, List.tail_cons, if_pos rfl, if_pos hn, List.headD_cons, idxOf_of_getElem? hk hi]

theorem copiesIn_of_leaf (hl : n :: x ∈ s.leaves host) : copiesIn s host φ x e g (n :: x) = φ x := by
  rw [copiesIn, List.tail_cons, if_pos rfl, if_neg fun hn => Store.Nest.not_leaf_of_nested hn hl]

end Numbers

namespace Store
variable {s t : Store} {host r : Ref} {d e : Diagram} {b : Value} {f : Ref → Ref} {L : Finset Path} {u : Nat}
  {p x y : Path}

theorem Nest.opened (h : s.Nest host d) (ht : s.Subtree host L) : Opened (s.layerAt host) L where
  root := ht.root
  parent hp := by
    refine ⟨ht.parent hp, ?_⟩
    rcases ht.nested _ hp with hnil | hn
    · cases hnil
    · exact (Nest.parent hn).2
  consistent p hp := h.consistent_at (ht.nested p hp)
  directed p hp hne := h.directed_at ((ht.nested p hp).resolve_left hne)

theorem Subtree.insert (ht : s.Subtree host L) (hx : u :: p ∈ border (s.layerAt host) L)
    (hn : u :: p ∈ s.nested host) : s.Subtree host (insert (u :: p) L) where
  root := Finset.mem_insert_of_mem ht.root
  nested q hq := (Finset.mem_insert.mp hq).elim (fun he => Or.inr (he ▸ hn)) (ht.nested q)
  parent {n q} hq := by
    rcases Finset.mem_insert.mp hq with he | hq
    · obtain ⟨rfl, rfl⟩ := List.cons.inj he
      exact Finset.mem_insert_of_mem (mem_border_cons.mp hx).2.1
    · exact Finset.mem_insert_of_mem (ht.parent hq)

theorem Nest.exists_box_of_border (h : s.Nest host d) (ht : s.Subtree host L)
    (hx : x ∈ border (s.layerAt host) L) : ∃ b, s.boxAt (.ref host) x = some b := by
  obtain ⟨-, u, p, rfl, hp, hu⟩ := hx
  obtain ⟨b, hb, -⟩ := h.exists_box (ht.nested p hp) hu
  exact ⟨b, hb⟩

/-- The image of something that is no diagram is none. -/
theorem Carried.fixed (h : s.Carried host f b.refs t) (hd : s.diagram? host = some d)
    (hb : s.asDiagram? b = none) (hlt : ∀ r ∈ b.refs, r < s.objects.length) : t.Fixed host (b.rename f) := by
  intro r hr
  cases b with
  | ref q =>
    obtain rfl := Value.ref.inj hr
    have hq : s.diagram? q = none := by simpa [Store.asDiagram?] using hb
    have hne : q ≠ host := by
      rintro rfl
      rw [hd] at hq
      cases hq
    have hpast : s.Past host [q] q := .of_mem List.mem_cons_self
    obtain ⟨o, ho⟩ : ∃ o, s.objects[q]? = some o :=
      ⟨_, List.getElem?_eq_getElem (hlt q List.mem_cons_self)⟩
    have ho' := h.same q o hpast hne ho
    refine ⟨h.ne q hpast hne, ?_, _, ho'⟩
    cases o with
    | diagram e => rw [diagram?_eq_some.mpr ho] at hq; cases hq
    | _ => simp [Store.diagram?, ho', Object.rename]
  | _ => cases hr

/-- A box that is no diagram is still none in the store in which it was carried. -/
theorem Nest.fixed_leaf (h : s.Nest host d) (hb : s.boxAt (.ref host) (u :: p) = some b)
    (hl : u :: p ∈ s.leaves host) (hc : s.Carried host f (s.rootsAt host (u :: p)) t) :
    t.Fixed host (b.rename f) := by
  obtain ⟨c, hc', hnone⟩ := hl
  obtain rfl := Option.some.inj (hb.symm.trans hc')
  have hroots : s.rootsAt host (u :: p) = b.refs := rootsAt_eq hb
  refine (hroots ▸ hc).fixed h.found hnone fun r hr => h.lt_of_past ⟨b, hb⟩ (.of_mem ?_)
  rw [hroots]
  exact hr

end Store

namespace Progress
variable {s t : Store} {host : Ref} {d₀ d : Diagram} {L : Finset Path} {ν : Path → Nat} {φ : Path → Ref → Ref}
  {u : Nat} {p x : Path}

/-- A box of the diagram is still a diagram if and only if it is one in the unfolding. -/
theorem holdsDiagram_iff (hp : Progress s host L t d ν φ) (h : s.Nest host d₀)
    (hx : x ∈ border (s.layerAt host) L) : t.HoldsDiagram host (ν x) ↔ x ∈ s.nested host := by
  obtain ⟨b, hb⟩ := h.exists_box_of_border hp.tree hx
  have hheld := hp.held x hx b hb
  have hcarried := hp.carried x (Or.inr hx)
  obtain ⟨-, u, p, rfl, -⟩ := hx
  constructor
  · rintro ⟨d', b', re, hd', hb', hre⟩
    obtain rfl := Option.some.inj (hp.found.symm.trans hd')
    obtain rfl := Option.some.inj (hheld.symm.trans hb')
    refine (Store.Nest.nested_or_leaf hb).resolve_right fun hl => ?_
    rw [(h.fixed_leaf hb hl hcarried).asDiagram?] at hre
    cases hre
  · intro hn
    obtain ⟨hne, r, e, hl⟩ := hn
    obtain rfl := Option.some.inj (hb.symm.trans hl.1)
    rw [Store.Nest.rootsAt_eq hb] at hcarried
    exact ⟨d, _, _, hp.found, hheld, Store.asDiagram?_ref (hcarried.diagram? (h.ne_host hl hne) hl.2)⟩

end Progress

/-- Box `u` of the open layer `p` holds the diagram `e`, which was substituted for it. -/
structure Advances (s : Store) (host : Ref) (L : Finset Path) (t : Store) (d : Diagram) (ν : Path → Nat)
    (φ : Path → Ref → Ref) (u : Nat) (p : Path) (r : Ref) (e : Diagram) (t' : Store) (d' : Diagram)
    (g : Nat → Ref → Ref) (lo : Nat → Nat) : Prop where
  progress : Progress s host L t d ν φ
  bordering : u :: p ∈ border (s.layerAt host) L
  layer : s.IsLayer host (u :: p) r e
  inlined : Inlined t t' host (ν (u :: p)) d (e.rename (φ (u :: p))) d'
  first : lo 0 = t.objects.length
  mono : Monotone lo
  leaf : ∀ (i : Nat) n b, e.boxes.keys[i]? = some n → e.boxes.get? n = some b → n :: u :: p ∈ s.leaves host →
    d'.boxes.get? (d.next + i) = some (b.rename (φ (u :: p)))
  copied : ∀ (i : Nat) n q k, e.boxes.keys[i]? = some n → s.IsLayer host (n :: u :: p) q k →
    d'.boxes.get? (d.next + i) = some (.ref (g i (φ (u :: p) q))) ∧
      s.Carried host (g i ∘ φ (u :: p)) [q] t' ∧
      ∀ q', s.Past host [q] q' → lo i ≤ g i (φ (u :: p) q') ∧ g i (φ (u :: p) q') < lo (i + 1)

theorem Progress.exists_advances {s t : Store} {host : Ref} {d₀ d : Diagram} {L : Finset Path} {ν : Path → Nat}
    {φ : Path → Ref → Ref} {u : Nat} {p : Path} (hp : Progress s host L t d ν φ) (h : s.Nest host d₀)
    (hx : u :: p ∈ border (s.layerAt host) L) (hn : u :: p ∈ s.nested host) : ∃ r e t' d' g lo,
      (Action.substitute host (.ofNat (ν (u :: p))) .null).perform t = (.ok (), t') ∧
        Advances s host L t d ν φ u p r e t' d' g lo := by
  obtain ⟨hne, r, e, hl⟩ := hn
  have hhost := h.ne_host hl hne
  have hroots : s.rootsAt host (u :: p) = [r] := Store.Nest.rootsAt_eq hl.1
  have hcarried := hp.carried _ (Or.inr hx)
  have hce := h.consistent r e hl.nests hl.2
  have hdir : (e.rename (φ (u :: p))).Directed := by
    intro w hw
    rw [wires_rename] at hw
    obtain ⟨x, hx, rfl⟩ := List.mem_map.mp hw
    simp only [Wire.rename, Connector.isOn_rename]
    exact h.directed r e hl.nests hhost hl.2 x hx
  have hbox : d.boxes.get? (ν (u :: p)) = some (.ref (φ (u :: p) r)) := hp.held _ hx _ hl.1
  have he : t.diagram? (φ (u :: p) r) = some (e.rename (φ (u :: p))) :=
    (hroots ▸ hcarried).diagram? hhost hl.2
  obtain ⟨t', d', hrun, hin⟩ :=
    Action.inline_spec hp.found he hp.consistent (hce.rename _) hdir (hp.number.mapsTo hx)
  obtain ⟨g, lo, hlo, hmono, hfix, hmap⟩ := hin.exists_maps hp.found hp.consistent
  -- what comes in are the images of the boxes of `e`, of which only diagrams are copied again
  have hvalue : ∀ {i : Nat} {n b}, e.boxes.keys[i]? = some n → e.boxes.get? n = some b →
      (e.rename (φ (u :: p))).boxes.values[i]? = some (b.rename (φ (u :: p))) := by
    intro i n b hi hb
    rw [values_rename, List.getElem?_map, Table.value_of_getElem? (Table.getElem?_of_key hce.boxes_nodup hi hb)]
    rfl
  have hchild : ∀ {n b}, s.boxAt (.ref host) (n :: u :: p) = some b →
      s.Carried host (φ (u :: p)) (s.rootsAt host (n :: u :: p)) t := by
    intro n b hb
    rw [Store.Nest.rootsAt_eq hb]
    exact hcarried.mono fun q hq => h.past_of_box hl ((hl.box_eq n).symm.trans hb) hq
  refine ⟨r, e, t', d', g, lo, ?_, hp, hx, hl, hin, hlo, hmono, fun i n b hi hb hleaf => ?_,
    fun i n q k hi hk => ?_⟩
  · exact (Action.perform_substitute hp.found he (Value.boxId?_ofNat _) hbox (Or.inr ⟨rfl, rfl⟩)).trans hrun
  · have hat := (hl.box_eq n).trans hb
    exact hfix i _ (hvalue hi hb) (h.fixed_leaf hat hleaf (hchild hat))
  · have hq := hchild hk.1
    rw [Store.Nest.rootsAt_eq hk.1] at hq
    have hqh := h.ne_host hk (List.cons_ne_nil n _)
    obtain ⟨hget, hmaps⟩ := hmap i _ _ (hvalue hi ((hl.box_eq n).symm.trans hk.1))
      (hq.ne q (.of_mem List.mem_cons_self) hqh) (hq.diagram? hqh hk.2)
    exact ⟨hget, hmaps s _ q hq rfl⟩

namespace Advances
variable {s t t' : Store} {host r : Ref} {d₀ d d' e : Diagram} {L : Finset Path} {ν : Path → Nat}
  {φ : Path → Ref → Ref} {u : Nat} {p y : Path} {g : Nat → Ref → Ref} {lo : Nat → Nat}
  (h : Advances s host L t d ν φ u p r e t' d' g lo) (hn : s.Nest host d₀)

include h

theorem mem_nested : u :: p ∈ s.nested host := ⟨List.cons_ne_nil u p, r, e, h.layer⟩

theorem fresh : u :: p ∉ L := h.bordering.1

theorem tree : s.Subtree host (insert (u :: p) L) := h.progress.tree.insert h.bordering h.mem_nested

include hn

theorem keys_nodup : e.boxes.keys.Nodup := (hn.consistent r e h.layer.nests h.layer.2).boxes_nodup

theorem mem_border : y ∈ border (s.layerAt host) (insert (u :: p) L) ↔
    y ∈ border (s.layerAt host) L ∧ y ≠ u :: p ∨
      ∃ (i : Nat) (n : Nat), e.boxes.keys[i]? = some n ∧ y = n :: u :: p := by
  rw [(hn.opened h.progress.tree).mem_border_insert h.fresh, h.layer.layerAt_eq]
  refine or_congr_right ⟨fun ⟨n, hn, hy⟩ => ?_, fun ⟨i, n, hi, hy⟩ => ⟨n, List.mem_of_getElem? hi, hy⟩⟩
  obtain ⟨i, hi⟩ := List.mem_iff_getElem?.mp hn
  exact ⟨i, n, hi, hy⟩

/-- What is there then was there before, or is a box of the new layer. -/
theorem cases_reached (hy : y ∈ insert (u :: p) L ∨ y ∈ border (s.layerAt host) (insert (u :: p) L)) :
    (y ∈ L ∨ y ∈ border (s.layerAt host) L) ∧ y.tail ≠ u :: p ∨
      ∃ (i : Nat) (n : Nat) (b : Value), e.boxes.keys[i]? = some n ∧ y = n :: u :: p ∧
        s.boxAt (.ref host) (n :: u :: p) = some b ∧ e.boxes.get? n = some b := by
  have hold : ∀ {y}, y ∈ L ∨ y ∈ border (s.layerAt host) L → y.tail ≠ u :: p :=
    tail_ne_of_mem (hn.opened h.progress.tree) h.fresh
  rcases hy with hy | hy
  · have hy : y ∈ L ∨ y ∈ border (s.layerAt host) L := by
      rcases Finset.mem_insert.mp hy with rfl | hy
      · exact Or.inr h.bordering
      · exact Or.inl hy
    exact Or.inl ⟨hy, hold hy⟩
  · rcases (h.mem_border hn).mp hy with ⟨hy, -⟩ | ⟨i, n, hi, rfl⟩
    · exact Or.inl ⟨Or.inr hy, hold (Or.inr hy)⟩
    · obtain ⟨b, hb⟩ := Table.exists_get? (List.mem_of_getElem? hi)
      exact Or.inr ⟨i, n, b, hi, rfl, (h.layer.box_eq n).trans hb, hb⟩

theorem number : Set.BijOn (numbersIn ν (u :: p) d e)
    (border (s.layerAt host) (insert (u :: p) L)) {n | n ∈ d'.boxes.keys} := by
  have ho := hn.opened h.progress.tree
  have hold : ∀ {y}, y ∈ border (s.layerAt host) L → numbersIn ν (u :: p) d e y = ν y := fun hy =>
    numbersIn_of_ne (tail_ne_of_mem ho h.fresh (Or.inr hy))
  have hnew : ∀ {i n : Nat}, e.boxes.keys[i]? = some n → numbersIn ν (u :: p) d e (n :: u :: p) = d.next + i :=
    numbersIn_cons (h.keys_nodup hn)
  have hbelow : ∀ {y}, y ∈ border (s.layerAt host) L → ν y < d.next := fun hy =>
    h.progress.consistent.below_next _ (Consistent.box_live (h.progress.number.mapsTo hy))
  have hlen : (e.rename (φ (u :: p))).boxes.length = e.boxes.length := List.length_map _
  refine ⟨fun y hy => ?_, fun y hy z hz he => ?_, fun n hn' => ?_⟩
  · rcases (h.mem_border hn).mp hy with ⟨hy, hne⟩ | ⟨i, n, hi, rfl⟩
    · refine h.inlined.mem_keys.mpr (Or.inl ?_)
      rw [hold hy]
      exact ⟨h.progress.number.mapsTo hy, fun he => hne (h.progress.number.injOn hy h.bordering he)⟩
    · refine h.inlined.mem_keys.mpr (Or.inr ?_)
      rw [hnew hi, hlen]
      exact ⟨Nat.le_add_right _ _, Nat.add_lt_add_left (Table.lt_of_key hi) _⟩
  · rcases (h.mem_border hn).mp hy with ⟨hy, -⟩ | ⟨i, n, hi, rfl⟩ <;>
      rcases (h.mem_border hn).mp hz with ⟨hz, -⟩ | ⟨j, m, hj, rfl⟩
    · rw [hold hy, hold hz] at he
      exact h.progress.number.injOn hy hz he
    · rw [hold hy, hnew hj] at he
      exact absurd (hbelow hy) (by omega)
    · rw [hnew hi, hold hz] at he
      exact absurd (hbelow hz) (by omega)
    · rw [hnew hi, hnew hj] at he
      obtain rfl : i = j := by omega
      rw [Option.some.inj (hi.symm.trans hj)]
  · rcases h.inlined.mem_keys.mp hn' with ⟨hkey, hne⟩ | ⟨hle, hlt⟩
    · obtain ⟨y, hy, rfl⟩ := h.progress.number.surjOn hkey
      exact ⟨y, (h.mem_border hn).mpr (Or.inl ⟨hy, fun he => hne (he ▸ rfl)⟩), hold hy⟩
    · obtain ⟨i, rfl⟩ := Nat.exists_eq_add_of_le hle
      have hi : i < e.boxes.keys.length := by rw [Table.length_keys]; omega
      have hget := List.getElem?_eq_getElem hi
      exact ⟨_, (h.mem_border hn).mpr (Or.inr ⟨i, _, hget, rfl⟩), hnew hget⟩

theorem copiesIn_nested {i n : Nat} {q : Ref} {k : Diagram} (hi : e.boxes.keys[i]? = some n)
    (hk : s.IsLayer host (n :: u :: p) q k) :
    copiesIn s host φ (u :: p) e g (n :: u :: p) = g i ∘ φ (u :: p) :=
  copiesIn_of_nested (h.keys_nodup hn) hi ⟨List.cons_ne_nil _ _, q, k, hk⟩

theorem carried (hy : y ∈ insert (u :: p) L ∨ y ∈ border (s.layerAt host) (insert (u :: p) L)) :
    s.Carried host (copiesIn s host φ (u :: p) e g y) (s.rootsAt host y) t' := by
  rcases h.cases_reached hn hy with ⟨hy, hne⟩ | ⟨i, n, b, hi, rfl, hat, hb⟩
  · rw [copiesIn_of_ne hne]
    exact (h.progress.carried y hy).frame h.inlined.frame
  · rcases Store.Nest.nested_or_leaf hat with ⟨-, q, k, hk⟩ | hl
    · rw [h.copiesIn_nested hn hi hk, Store.Nest.rootsAt_eq hk.1]
      exact (h.copied i n q k hi hk).2.1
    · rw [copiesIn_of_leaf hl, Store.Nest.rootsAt_eq hat]
      exact ((h.progress.carried _ (Or.inr h.bordering)).mono fun q hq => hn.past_of_box h.layer hb hq).frame
        h.inlined.frame

theorem held (hy : y ∈ border (s.layerAt host) (insert (u :: p) L)) {b : Value}
    (hb : s.boxAt (.ref host) y = some b) : d'.boxes.get? (numbersIn ν (u :: p) d e y) =
      some (b.rename (copiesIn s host φ (u :: p) e g y)) := by
  rcases (h.mem_border hn).mp hy with ⟨hy, hne⟩ | ⟨i, n, hi, rfl⟩
  · have htail := tail_ne_of_mem (hn.opened h.progress.tree) h.fresh (Or.inr hy)
    rw [numbersIn_of_ne htail, copiesIn_of_ne htail, ← h.progress.held y hy b hb]
    exact h.inlined.get?_old (h.progress.number.mapsTo hy) fun he => hne (h.progress.number.injOn hy h.bordering he)
  · rw [numbersIn_cons (h.keys_nodup hn) hi]
    rcases Store.Nest.nested_or_leaf hb with ⟨-, q, k, hk⟩ | hl
    · rw [h.copiesIn_nested hn hi hk, Option.some.inj (hb.symm.trans hk.1)]
      exact (h.copied i n q k hi hk).1
    · rw [copiesIn_of_leaf hl]
      exact h.leaf i n b hi ((h.layer.box_eq n).symm.trans hb) hl

theorem leaf_eq {n : Nat} {q : Path} (hb : n :: q ∈ border (s.layerAt host) (insert (u :: p) L))
    (hl : n :: q ∈ s.leaves host) :
    copiesIn s host φ (u :: p) e g (n :: q) = copiesIn s host φ (u :: p) e g q := by
  have ho := hn.opened h.progress.tree
  rcases (h.mem_border hn).mp hb with ⟨hb, -⟩ | ⟨i, m, hi, he⟩
  · have hq : q ∈ L := (mem_border_cons.mp hb).2.1
    rw [copiesIn_of_ne (tail_ne_of_mem ho h.fresh (Or.inr hb)),
      copiesIn_of_ne (tail_ne_of_mem ho h.fresh (Or.inl hq)), h.progress.leaf n q hb hl]
  · obtain ⟨rfl, rfl⟩ := List.cons.inj he
    rw [copiesIn_of_leaf hl, copiesIn_of_ne (y := u :: p) (List.cons_ne_self u p).symm]

/-- Copies that were made before are older than those of the new layer. -/
theorem cases_known (hy : y ∈ s.known host (insert (u :: p) L)) :
    (y ∈ s.known host L ∧ ∀ q, s.Past host (s.rootsAt host y) q →
      copiesIn s host φ (u :: p) e g y q = φ y q ∧ φ y q < lo 0) ∨
    ∃ i n : Nat, e.boxes.keys[i]? = some n ∧ y = n :: u :: p ∧ ∀ q, s.Past host (s.rootsAt host y) q →
      lo i ≤ copiesIn s host φ (u :: p) e g y q ∧ copiesIn s host φ (u :: p) e g y q < lo (i + 1) := by
  obtain ⟨hy, hnest⟩ := hy
  rcases h.cases_reached hn hy with ⟨hy, hne⟩ | ⟨i, n, b, hi, rfl, hat, -⟩
  · refine Or.inl ⟨⟨hy, hnest⟩, fun q hq => ⟨by rw [copiesIn_of_ne hne], ?_⟩⟩
    rw [h.first]
    exact (h.progress.carried y hy).lt q hq
  · obtain ⟨-, q, k, hk⟩ := hnest.resolve_left (List.cons_ne_nil _ _)
    refine Or.inr ⟨i, n, hi, rfl, fun q' hq' => ?_⟩
    rw [h.copiesIn_nested hn hi hk]
    rw [Store.Nest.rootsAt_eq hk.1] at hq'
    exact (h.copied i n q k hi hk).2.2 q' hq'

theorem apart {z : Path} (hy : y ∈ s.known host (insert (u :: p) L)) (hz : z ∈ s.known host (insert (u :: p) L))
    (hne : y ≠ z) (hlen : 2 ≤ y.length ∨ 2 ≤ z.length) {q q' : Ref} (hq : s.Past host (s.rootsAt host y) q)
    (hq' : s.Past host (s.rootsAt host z) q') :
    copiesIn s host φ (u :: p) e g y q ≠ copiesIn s host φ (u :: p) e g z q' := by
  -- the copies made before lie below `lo 0`, and those of the box at place `i` between `lo i` and `lo (i + 1)`
  rcases h.cases_known hn hy with ⟨hy, hold⟩ | ⟨i, n, hi, rfl, hnew⟩ <;>
    rcases h.cases_known hn hz with ⟨hz, hold'⟩ | ⟨j, m, hj, rfl, hnew'⟩
  · rw [(hold q hq).1, (hold' q' hq').1]
    exact h.progress.apart y hy z hz hne hlen q q' hq hq'
  · rw [(hold q hq).1]
    exact Nat.ne_of_lt (((hold q hq).2.trans_le (h.mono (Nat.zero_le j))).trans_le (hnew' q' hq').1)
  · rw [(hold' q' hq').1]
    exact Nat.ne_of_gt (((hold' q' hq').2.trans_le (h.mono (Nat.zero_le i))).trans_le (hnew q hq).1)
  · rcases Nat.lt_trichotomy i j with hij | rfl | hij
    · exact Nat.ne_of_lt (((hnew q hq).2.trans_le (h.mono hij)).trans_le (hnew' q' hq').1)
    · rw [Option.some.inj (hi.symm.trans hj)] at hne
      exact absurd rfl hne
    · exact Nat.ne_of_gt (((hnew' q' hq').2.trans_le (h.mono hij)).trans_le (hnew q hq).1)

/-- A port of the box is the same as one inside unless the box was copied since. -/
theorem port_iff {c c' : Connector} (hc : ∃ w ∈ (s.layerAt host p).wires, w.source = c ∨ w.target = c)
    (hc' : ∃ w ∈ (s.layerAt host (u :: p)).wires, w.source = c' ∨ w.target = c') :
    (c.port.rename (φ p)).same (c'.port.rename (φ (u :: p))) = true ↔
      c.port.same c'.port = true ∧ (p = [] ∨ c'.port.refs = []) := by
  have hp : p ∈ L := (mem_border_cons.mp h.bordering).2.1
  rcases eq_or_ne p [] with rfl | hne
  · rw [h.progress.shallow [] (by simp), h.progress.shallow [u] (by simp), Value.rename_id, Value.rename_id]
    simp
  · have hnest := h.progress.tree.nested p hp
    obtain ⟨q, k, hk⟩ := hn.exists_layer hnest
    have hlen : 2 ≤ (u :: p).length := by
      rw [List.length_cons]
      exact Nat.succ_le_succ (List.length_pos_iff.mpr hne)
    have hpast : ∀ i ∈ c.port.refs, s.Past host (s.rootsAt host p) i := fun i hi =>
      hn.past_of_connector hk (hk.layerAt_eq ▸ hc) (List.mem_append_right _ hi)
    have hpast' : ∀ j ∈ c'.port.refs, s.Past host (s.rootsAt host (u :: p)) j := fun j hj =>
      hn.past_of_connector h.layer (h.layer.layerAt_eq ▸ hc') (List.mem_append_right _ hj)
    have hknown : p ∈ s.known host L := ⟨Or.inl hp, hnest⟩
    have hknown' : u :: p ∈ s.known host L := ⟨Or.inr h.bordering, Or.inr h.mem_nested⟩
    rw [Value.same_rename fun i hi j hj => h.progress.apart p hknown (u :: p) hknown' (List.cons_ne_self u p).symm
      (Or.inr hlen) i j (hpast i hi) (hpast' j hj)]
    simp [hne]

theorem opens : Opens (s.layerAt host) L ν φ u p d (numbersIn ν (u :: p) d e)
    (copiesIn s host φ (u :: p) e g) where
  opened := hn.opened h.progress.tree
  further := hn.opened h.tree
  fresh := h.fresh
  consistent := h.progress.consistent
  number := h.progress.number
  port _ _ hc hc' := h.port_iff hn hc hc'
  old _ hx := numbersIn_of_ne hx
  new i n hi := numbersIn_cons (h.keys_nodup hn) (h.layer.layerAt_eq ▸ hi)
  copies x hx := by
    refine copiesIn_of_ne ?_
    rcases Finset.mem_insert.mp hx with rfl | hx
    · exact (List.cons_ne_self u p).symm
    · exact tail_ne_of_mem (hn.opened h.progress.tree) h.fresh (Or.inl hx)

/-- Opening one more layer. -/
theorem next : Progress s host (insert (u :: p) L) t' d' (numbersIn ν (u :: p) d e)
    (copiesIn s host φ (u :: p) e g) where
  found := h.inlined.found
  consistent := h.inlined.consistent
  inputs := h.inlined.inputs.trans h.progress.inputs
  outputs := h.inlined.outputs.trans h.progress.outputs
  tree := h.tree
  number := h.number hn
  held _ hy _ hb := h.held hn hy hb
  carried _ hy := h.carried hn hy
  shallow x hx := by
    rw [copiesIn_of_ne, h.progress.shallow x hx]
    intro he
    have hlen := congrArg List.length he
    rw [List.length_tail, List.length_cons] at hlen
    omega
  leaf _ _ hb hl := h.leaf_eq hn hb hl
  apart _ hy _ hz hne hlen _ _ hq hq' := h.apart hn hy hz hne hlen hq hq'
  shows := h.progress.shows.open (h.opens hn) (by rw [h.inlined.wires, h.layer.layerAt_eq])

end Advances

section Root
variable {D : Path → Diagram}

theorem mem_border_root {x : Path} : x ∈ border D {[]} ↔ ∃ n ∈ (D []).boxes.keys, x = [n] := by
  constructor
  · rintro ⟨-, n, p, rfl, hp, hn⟩
    obtain rfl := Finset.mem_singleton.mp hp
    exact ⟨n, hn, rfl⟩
  · rintro ⟨n, hn, rfl⟩
    exact ⟨by simp, n, [], rfl, Finset.mem_singleton_self _, hn⟩

/-- At the outermost layer all connectors are there, as they are. -/
theorem kept_root {d : Diagram} {c : Connector} (hc : d.Has c) :
    kept {[]} ([], c) = true ∧ named (fun x => x.headD 0) (fun _ => id) ([], c) = c := by
  obtain ⟨n, -, hn⟩ := hc
  constructor
  · simp only [kept, hn]
    split
    · rfl
    · simp
  · have hid : c.rename id = c := by simp [Connector.rename, Value.rename_id]
    rw [named, hid]
    refine Connector.renumber_eq_self hn ?_
    simp [numberAt]

/-- A diagram of which no box is open shows itself. -/
theorem shows_root (hd : (D []).Consistent) : Shows D {[]} (fun x => x.headD 0) (fun _ => id) (D []) := by
  have hmeets : ∀ {a b : Site}, a.1 = [] → b.1 = [] → joins a b = false := by
    intro a b ha hb
    simp [joins, enters, exits, ha, hb]
  have harrows : arrowsOf D {[]} = layerArrows D [] := Finset.sum_singleton _ _
  have hroot : ∀ {a}, a ∈ arrowsOf D {[]} → a.1.1 = [] ∧ a.2.1 = [] := by
    intro a ha
    rw [harrows] at ha
    obtain ⟨w, -, rfl⟩ := mem_layerArrows.mp ha
    exact ⟨rfl, rfl⟩
  have hself : Covers joins (arrowsOf D {[]}) (arrowsOf D {[]}) :=
    covers_self fun a ha b hb => hmeets (hroot ha).2 (hroot hb).1
  have hall : (D []).wires = remaining {[]} (fun x => x.headD 0) (fun _ => id) (arrowsOf D {[]}) := by
    have hends : ∀ w ∈ (D []).wires, _ := fun w hw => hd.has_ends hw
    rw [remaining, outcome, harrows, Multiset.filter_eq_self.mpr, layerArrows, Multiset.map_coe, List.map_map]
    · refine congrArg _ ((List.map_id _).symm.trans (List.map_congr_left fun w hw => ?_))
      rw [Function.comp_apply, (kept_root (hends w hw).1).2, (kept_root (hends w hw).2).2]
      rfl
    · intro a ha
      obtain ⟨w, hw, rfl⟩ := mem_layerArrows.mp ha
      rw [(kept_root (hends w hw).1).1, (kept_root (hends w hw).2).1]
      rfl
  refine ⟨fun U hU w => ?_, fun _ U hU hS => ?_⟩
  · rw [← Multiset.mem_coe, hall, remaining, remaining, mem_outcome, mem_outcome]
    simp only [hself.mem_iff hU]
  · have hzero : seq joins (arrowsOf D {[]}) U = 0 := seq_eq_zero fun a ha b hb =>
      hmeets (hroot ha).2 (hroot ((hself.mem_iff hU b).mpr hb)).1
    rw [hall, hS.eq, hzero, add_zero]

end Root

namespace Progress
variable {s t : Store} {host : Ref} {d₀ d : Diagram} {L : Finset Path} {ν : Path → Nat} {φ : Path → Ref → Ref}

/-- Every substitution of a diagram for its box succeeds and opens one more layer. -/
theorem step (hp : Progress s host L t d ν φ) (h : s.Nest host d₀) {n : Nat} (hn : t.HoldsDiagram host n) :
    ∃ x t' d' ν' φ', (Action.substitute host (.ofNat n) .null).perform t = (.ok (), t') ∧ x ∉ L ∧
      Progress s host (insert x L) t' d' ν' φ' := by
  have hkey : n ∈ d.boxes.keys := by
    obtain ⟨d', b, -, hd', hb, -⟩ := hn
    obtain rfl := Option.some.inj (hp.found.symm.trans hd')
    exact Table.mem_keys_of_get? hb
  obtain ⟨x, hx, rfl⟩ := hp.number.surjOn hkey
  have hn := (hp.holdsDiagram_iff h hx).mp hn
  have hfresh := hx.1
  obtain ⟨u, p, rfl⟩ : ∃ u p, x = u :: p := List.exists_cons_of_ne_nil hn.1
  obtain ⟨r, e, t', d', g, lo, hrun, hadv⟩ := hp.exists_advances h hx hn
  exact ⟨u :: p, t', d', _, _, hrun, hfresh, hadv.next h⟩

/-- Before the first substitution the outermost layer is open. -/
theorem start (h : s.Nest host d₀) : Progress s host {[]} s d₀ (fun x => x.headD 0) fun _ => id := by
  have hborder : ∀ {x}, x ∈ border (s.layerAt host) {[]} ↔ ∃ n ∈ d₀.boxes.keys, x = [n] := by
    intro x
    rw [mem_border_root, h.layerAt_nil]
  have hd : d₀.Consistent := h.consistent host d₀ .self h.found
  have hshort : ∀ {x}, x ∈ s.known host {[]} → x.length ≤ 1 := by
    rintro x ⟨hx | hx, -⟩
    · simp [Finset.mem_singleton.mp hx]
    · obtain ⟨n, -, rfl⟩ := hborder.mp hx
      simp
  refine ⟨h.found, hd, by rw [h.layerAt_nil], by rw [h.layerAt_nil], ⟨by simp, by simp, by simp⟩, ?_, ?_, ?_,
    fun _ _ => rfl, fun _ _ _ _ => rfl, ?_, ?_⟩
  · refine ⟨fun x hx => ?_, fun x hx y hy he => ?_, fun n hn => ⟨[n], hborder.mpr ⟨n, hn, rfl⟩, rfl⟩⟩
    · obtain ⟨n, hn, rfl⟩ := hborder.mp hx
      exact hn
    · obtain ⟨n, -, rfl⟩ := hborder.mp hx
      obtain ⟨m, -, rfl⟩ := hborder.mp hy
      exact congrArg (fun n => [n]) he
  · intro x hx b hb
    obtain ⟨n, -, rfl⟩ := hborder.mp hx
    rw [Value.rename_id, ← hb]
    exact (h.isLayer_nil.box_eq n).symm
  · intro x hx
    refine .self fun q hq => h.lt_of_past ?_ hq
    rcases hx with hx | hx
    · rw [Finset.mem_singleton.mp hx]
      exact ⟨_, rfl⟩
    · obtain ⟨n, hn, rfl⟩ := hborder.mp hx
      obtain ⟨b, hb⟩ := Table.exists_get? hn
      exact ⟨b, (h.isLayer_nil.box_eq n).trans hb⟩
  · intro x hx y hy _ hlen
    have hx' := hshort hx
    have hy' := hshort hy
    omega
  · have hroot : (s.layerAt host []).Consistent := by rwa [h.layerAt_nil]
    have hshows := shows_root hroot
    rwa [h.layerAt_nil] at hshows

end Progress

end StringDiagram
