import StringDiagram.Proofs.Flattening.Ranks

/-! # One more layer

When a box is opened, the network gets the layer inside. The walks that go through its boundary are the
second stage, and what remains of all walks is what a substitution makes of the wires that remained before:
`Shows.open`. -/
namespace StringDiagram
open Diagram Network

def joinsAt (q : Path) (a b : Site) : Bool := decide (b.1 = q) && enters a b || decide (a.1 = q) && exits a b

def joinsOff (q : Path) (a b : Site) : Bool := joins a b && !joinsAt q a b

def halved (ν : Path → Nat) (φ : Path → Ref → Ref) (q : Path) (a : Site) : Node :=
  if a.1 = q then (1, a.2.rename (φ q)) else (0, named ν φ a)

def shown (L : Finset Path) (q : Path) (a : Site) : Bool := decide (a.1 = q) || kept L a

structure Opens (D : Path → Diagram) (L : Finset Path) (ν : Path → Nat) (φ : Path → Ref → Ref) (u : Nat)
    (p : Path) (d : Diagram) (ν' : Path → Nat) (φ' : Path → Ref → Ref) : Prop where
  opened : Opened D L
  further : Opened D (insert (u :: p) L)
  fresh : u :: p ∉ L
  consistent : d.Consistent
  number : Set.BijOn ν (border D L) {n | n ∈ d.boxes.keys}
  port : ∀ c c', (∃ w ∈ (D p).wires, w.source = c ∨ w.target = c) →
    (∃ w ∈ (D (u :: p)).wires, w.source = c' ∨ w.target = c') →
    ((c.port.rename (φ p)).same (c'.port.rename (φ (u :: p))) = true ↔
      c.port.same c'.port = true ∧ (p = [] ∨ c'.port.refs = []))
  old : ∀ x : Path, x.tail ≠ u :: p → ν' x = ν x
  new : ∀ i n, (D (u :: p)).boxes.keys[i]? = some n → ν' (n :: u :: p) = d.next + i
  copies : ∀ x ∈ insert (u :: p) L, φ' x = φ x

section Joins
variable {q : Path} {a b : Site}

theorem joins_eq (q : Path) : joins = fun a b => joinsOff q a b || joinsAt q a b := by
  funext a b
  rw [joinsOff]
  cases hat : joinsAt q a b with
  | false => simp
  | true =>
    have hjoins : joins a b = true := by
      simp only [joinsAt, Bool.or_eq_true, Bool.and_eq_true] at hat
      rw [joins, Bool.or_eq_true]
      exact hat.imp And.right And.right
    simp [hjoins]

theorem joinsOff_of_ne (ha : a.1 ≠ q) (hb : b.1 ≠ q) : joinsOff q a b = joins a b := by
  simp [joinsOff, joinsAt, ha, hb]

/-- Through the layer `q` arrows meet only at its own boundary, unless a box of it is open. -/
theorem joinsOff_eq_false (h : a.1 = q ∧ (∀ n, b.1 ≠ n :: q) ∨ b.1 = q ∧ ∀ n, a.1 ≠ n :: q) :
    joinsOff q a b = false := by
  rw [Bool.eq_false_iff]
  intro hoff
  rw [joinsOff, Bool.and_eq_true, Bool.not_eq_true'] at hoff
  obtain ⟨hjoins, hat⟩ := hoff
  rw [joinsAt, Bool.or_eq_false_iff] at hat
  rcases Bool.or_eq_true_iff.mp hjoins with hm | hm
  · obtain ⟨n, hn, -⟩ := enters_iff.mp hm
    rcases h with ⟨rfl, hb⟩ | ⟨rfl, -⟩
    · exact hb n hn
    · simp [hm] at hat
  · obtain ⟨n, hn, -⟩ := exits_iff.mp hm
    rcases h with ⟨rfl, -⟩ | ⟨rfl, ha⟩
    · simp [hm] at hat
    · exact ha n hn

end Joins

namespace Opens
variable {D : Path → Diagram} {L : Finset Path} {ν ν' : Path → Nat} {φ φ' : Path → Ref → Ref} {u : Nat}
  {p : Path} {d : Diagram} {a : Site} {b n : Nat} {U : Multiset (Site × Site)}

theorem parent (h : Opens D L ν φ u p d ν' φ') : p ∈ L ∧ u ∈ (D p).boxes.keys := by
  obtain ⟨hp, hu⟩ := h.further.parent (Finset.mem_insert_self _ _)
  exact ⟨Finset.mem_of_mem_insert_of_ne hp (List.ne_cons_self).symm.symm, hu⟩

theorem two_le (h : Opens D L ν φ u p d ν' φ') : 2 ≤ u := (h.opened.consistent p h.parent.1).two_le h.parent.2

theorem mem_border (h : Opens D L ν φ u p d ν' φ') : u :: p ∈ border D L :=
  mem_border_cons.mpr ⟨h.fresh, h.parent⟩

theorem key (h : Opens D L ν φ u p d ν' φ') : ν (u :: p) ∈ d.boxes.keys := h.number.mapsTo h.mem_border

theorem not_below (h : Opens D L ν φ u p d ν' φ') {x : Path} (hx : x ∈ insert (u :: p) L) (n : Nat) :
    x ≠ n :: u :: p := by
  rintro rfl
  rcases Finset.mem_insert.mp hx with hx | hx
  · exact absurd hx (List.cons_ne_self n _)
  · exact h.fresh (h.opened.parent hx).1

/-- A connector of a box that is not open yet is still there. -/
theorem kept_of_box (h : Opens D L ν φ u p d ν' φ') (hp : a.1 = p) (hon : a.2.isOn u = true) : kept L a = true := by
  have h2 := h.two_le
  have hle : ¬ u ≤ outputId := by rw [outputId]; omega
  simp [kept, Connector.isOn_iff.mp hon, hle, hp, h.fresh]

theorem mem_border_of_kept (ha : Opened.At D L b a) (hk : kept L a = true) (hn : a.2.box.boxId? = some n)
    (hle : ¬ n ≤ outputId) : n :: a.1 ∈ border D L := by
  obtain ⟨hp, -, ⟨m, hm, hbox⟩, -⟩ := ha
  obtain rfl := Option.some.inj (hn.symm.trans hbox)
  simp only [kept, hn, hle, if_false, decide_eq_true_eq] at hk
  refine mem_border_cons.mpr ⟨hk, hp, ?_⟩
  rcases mem_live.mp hm with rfl | rfl | hm
  · exact absurd (by decide) hle
  · exact absurd (by decide) hle
  · exact hm

/-- A box that is there has the number of the box that is opened only if it is that box. -/
theorem numberAt_eq_iff (h : Opens D L ν φ u p d ν' φ') (ha : Opened.At D L b a) (hk : kept L a = true)
    (hn : a.2.box.boxId? = some n) : numberAt ν a.1 n = ν (u :: p) ↔ n = u ∧ a.1 = p := by
  have h2 := h.consistent.two_le h.key
  have h2u := h.two_le
  rw [numberAt]
  split
  · next hle =>
    rw [outputId] at hle
    constructor
    · intro he
      omega
    · rintro ⟨rfl, -⟩
      omega
  · next hle =>
    rw [h.number.injOn.eq_iff (mem_border_of_kept ha hk hn hle) h.mem_border, List.cons.injEq]

theorem isOn_named (h : Opens D L ν φ u p d ν' φ') (ha : Opened.At D L b a) (hk : kept L a = true) :
    (named ν φ a).isOn (ν (u :: p)) = true ↔ a.2.isOn u = true ∧ a.1 = p := by
  obtain ⟨n, -, hn⟩ := ha.2.2.1
  have hn' : (a.2.rename (φ a.1)).box.boxId? = some n := (Value.boxId?_rename _ _).trans hn
  rw [Connector.isOn_iff, Connector.isOn_iff, named, Connector.boxId?_renumber hn', hn, Option.some.injEq,
    Option.some.injEq, h.numberAt_eq_iff ha hk hn]

/-- What starts or ends at a port of the box that is opened. -/
theorem same_named (h : Opens D L ν φ u p d ν' φ') (ha : Opened.At D L b a) (hk : kept L a = true) {s : Side}
    {c : Connector} (hc : ∃ w ∈ (D (u :: p)).wires, w.source = c ∨ w.target = c) :
    (named ν φ a).same ⟨.ofNat (ν (u :: p)), .side s, c.port.rename (φ (u :: p))⟩ = true ↔
      a.1 = p ∧ a.2.same ⟨.ofNat u, .side s, c.port⟩ = true ∧ (p = [] ∨ c.port.refs = []) := by
  have hkind : (a.2.rename (φ a.1)).kind.same (.side s) = a.2.kind.same (.side s) :=
    Value.same_rename_left rfl
  rw [Connector.same_iff_isOn, Connector.same_iff_isOn, h.isOn_named ha hk, named, Connector.kind_renumber,
    Connector.port_renumber, hkind]
  obtain ⟨q, x⟩ := a
  constructor
  · rintro ⟨⟨hon, rfl⟩, hside, hport⟩
    obtain ⟨hsame, hplain⟩ := (h.port x c ha.2.1 hc).mp hport
    exact ⟨rfl, ⟨hon, hside, hsame⟩, hplain⟩
  · rintro ⟨rfl, ⟨hon, hside, hsame⟩, hplain⟩
    exact ⟨⟨hon, rfl⟩, hside, (h.port x c ha.2.1 hc).mpr ⟨hsame, hplain⟩⟩

/-- Arrows meet at the input boundary of the new layer as at the box it is substituted for. -/
theorem meets_enters (h : Opens D L ν φ u p d ν' φ') (ha : Opened.At D L b a) (hk : kept L a = true) {c : Connector}
    (hc : ∃ w ∈ (D (u :: p)).wires, w.source = c ∨ w.target = c) :
    meets (ν (u :: p)) 0 1 (0, named ν φ a) (1, c.rename (φ (u :: p))) = enters a (u :: p, c) := by
  have hsame := h.same_named (s := .input) ha hk hc
  have hport : (c.rename (φ (u :: p))).port = c.port.rename (φ (u :: p)) := rfl
  rw [Bool.eq_iff_iff, enters_iff]
  simp only [meets, Connector.isOn_rename, hport, Connector.input, Bool.or_eq_true, Bool.and_eq_true, hsame]
  constructor
  · rintro (⟨⟨-, hon⟩, rfl, hs, hr⟩ | ⟨⟨⟨hne, -⟩, -⟩, -⟩)
    · exact ⟨u, rfl, hon, hs, hr⟩
    · cases hne
  · rintro ⟨n, hn, hon, hs, hr⟩
    obtain ⟨rfl, rfl⟩ := List.cons.inj hn
    exact Or.inl ⟨⟨⟨rfl, rfl⟩, hon⟩, rfl, hs, hr⟩

theorem meets_exits (h : Opens D L ν φ u p d ν' φ') (ha : Opened.At D L b a) (hk : kept L a = true) {c : Connector}
    (hc : ∃ w ∈ (D (u :: p)).wires, w.source = c ∨ w.target = c) :
    meets (ν (u :: p)) 0 1 (1, c.rename (φ (u :: p))) (0, named ν φ a) = exits (u :: p, c) a := by
  have hsame := h.same_named (s := .output) ha hk hc
  have hport : (c.rename (φ (u :: p))).port = c.port.rename (φ (u :: p)) := rfl
  rw [Bool.eq_iff_iff, exits_iff]
  simp only [meets, Connector.isOn_rename, hport, Connector.output, Bool.or_eq_true, Bool.and_eq_true, hsame]
  constructor
  · rintro (⟨⟨⟨hne, -⟩, -⟩, -⟩ | ⟨⟨-, hon⟩, rfl, hs, hr⟩)
    · cases hne
    · exact ⟨u, rfl, hon, hs, hr⟩
  · rintro ⟨n, hn, hon, hs, hr⟩
    obtain ⟨rfl, rfl⟩ := List.cons.inj hn
    exact Or.inr ⟨⟨⟨rfl, rfl⟩, hon⟩, rfl, hs, hr⟩

/-- Where a connector of the new network is found after its layer was put into `d`, and whether it is. -/
theorem spot_halved (h : Opens D L ν φ u p d ν' φ') (ha : Opened.At D (insert (u :: p) L) b a)
    (hb : b ≤ outputId) :
    (shown L (u :: p) a && (((halved ν φ (u :: p) a).1 == 0 || !(halved ν φ (u :: p) a).2.isOn b) &&
      !(spot (inserted d ((D (u :: p)).rename (φ (u :: p)))) (halved ν φ (u :: p) a)).isOn (ν (u :: p)))) =
        kept (insert (u :: p) L) a ∧
      (kept (insert (u :: p) L) a = true →
        spot (inserted d ((D (u :: p)).rename (φ (u :: p)))) (halved ν φ (u :: p) a) = named ν' φ' a) := by
  obtain ⟨q, c⟩ := a
  have hcopy : φ' q = φ q := h.copies q ha.1
  by_cases hq : q = u :: p
  · subst hq
    have hce := h.further.consistent _ (Finset.mem_insert_self _ _)
    rcases ha.2.2.2 (List.cons_ne_nil u p) with hon | ⟨i, n, hi, hn⟩
    · simp [halved, shown, Connector.isOn_rename, hon, kept, Connector.isOn_iff.mp hon, hb]
    · have h2 := hce.two_le (List.mem_of_getElem? hi)
      have hle : ¬ n ≤ outputId := by rw [outputId]; omega
      have hnb : c.isOn b = false := by
        rw [Connector.isOn, hn]
        simp only [Option.some.injEq, decide_eq_false_iff_not]
        omega
      have hplace : (inserted d ((D (u :: p)).rename (φ (u :: p)))).place (c.rename (φ (u :: p))) =
          (c.rename (φ (u :: p))).withBox (.ofNat (d.next + i)) := by
        refine OnBox.place_eq (hce.rename _) ⟨n, ?_, (Value.boxId?_rename _ _).trans hn⟩ d
        rw [keys_rename]
        exact hi
      have hkept : kept (insert (u :: p) L) (u :: p, c) = true := by
        have hnot : n :: u :: p ∉ L := fun hx => h.not_below (Finset.mem_insert_of_mem hx) n rfl
        simp [kept, hn, hle, hnot]
      have hlt := h.consistent.below_next _ (Consistent.box_live h.key)
      have hother : d.next + i ≠ ν (u :: p) := by omega
      have hspot : spot (inserted d ((D (u :: p)).rename (φ (u :: p)))) (halved ν φ (u :: p) (u :: p, c)) =
          (c.rename (φ (u :: p))).withBox (.ofNat (d.next + i)) := by
        simp [spot, halved, hplace]
      rw [hspot, hkept]
      refine ⟨by simp [shown, halved, Connector.isOn_rename, hnb, hother], fun _ => ?_⟩
      rw [named, hcopy, Connector.renumber_eq_withBox ((Value.boxId?_rename _ _).trans hn) h2, numberAt,
        if_neg hle, h.new i n hi]
  · have hat : Opened.At D L b (q, c) := ⟨Finset.mem_of_mem_insert_of_ne ha.1 hq, ha.2⟩
    obtain ⟨n, -, hn⟩ := ha.2.2.1
    have hnumber : numberAt ν' q = numberAt ν q := by
      funext m
      rw [numberAt, numberAt, h.old (m :: q) hq]
    have hspot : spot (inserted d ((D (u :: p)).rename (φ (u :: p)))) (halved ν φ (u :: p) (q, c)) =
        named ν φ (q, c) := by simp [spot, halved, hq]
    have hinsert : kept (insert (u :: p) L) (q, c) = true ↔
        kept L (q, c) = true ∧ ¬ (c.isOn u = true ∧ q = p) := by
      have h2 := h.two_le
      rw [Connector.isOn_iff]
      simp only [kept, hn, Option.some.injEq]
      split
      · next hle =>
        rw [outputId] at hle
        exact ⟨fun hk => ⟨hk, by omega⟩, And.left⟩
      · rw [decide_eq_true_eq, decide_eq_true_eq, Finset.mem_insert, not_or, List.cons.injEq, and_comm]
    rw [hspot, named, named, hcopy, hnumber]
    refine ⟨?_, fun _ => rfl⟩
    simp only [shown, halved, hq, if_false, decide_false, Bool.false_or, beq_self_eq_true, Bool.true_or,
      Bool.true_and]
    rw [Bool.eq_iff_iff, Bool.and_eq_true, Bool.not_eq_true', ← Bool.not_eq_true, hinsert]
    exact and_congr_right fun hk => not_congr (h.isOn_named hat hk)

section First
variable (h : Opens D L ν φ u p d ν' φ') (hU : Covers joins (arrowsOf D L) U)

include h hU

theorem paths_of_covers {a : Site × Site} (ha : a ∈ U) : a.1.1 ≠ u :: p ∧ a.2.1 ≠ u :: p := by
  obtain ⟨hs, ht⟩ := h.opened.ends_of_covers hU ha
  exact ⟨fun he => h.fresh (he ▸ hs.1), fun he => h.fresh (he ▸ ht.1)⟩

/-- The walks without the new layer, and its arrows, before the second stage. -/
theorem covers_off : Covers (joinsOff (u :: p)) (arrowsOf D (insert (u :: p) L))
    (U + layerArrows D (u :: p)) := by
  have hends : ∀ {a}, a ∈ arrowsOf D L → a.1.1 ≠ u :: p ∧ a.2.1 ≠ u :: p := fun ha =>
    ⟨fun he => h.fresh (he ▸ (h.opened.ends ha).1.1), fun he => h.fresh (he ▸ (h.opened.ends ha).2.1)⟩
  rw [arrowsOf_insert h.fresh]
  refine (hU.of_meets fun a ha b hb => joinsOff_of_ne (hends ha).2 (hends hb).1).add fun a ha b hb => ?_
  obtain ⟨w, -, rfl⟩ := mem_layerArrows.mp ha
  rw [← arrowsOf_insert h.fresh] at hb
  obtain ⟨hs, ht⟩ := h.further.ends hb
  exact ⟨joinsOff_eq_false (Or.inl ⟨rfl, h.not_below hs.1⟩), joinsOff_eq_false (Or.inr ⟨rfl, h.not_below ht.1⟩)⟩

theorem solves_off (hS : Solves joins (arrowsOf D L) U) : Solves (joinsOff (u :: p))
    (arrowsOf D (insert (u :: p) L)) (U + layerArrows D (u :: p)) := by
  have hends : ∀ {a}, a ∈ arrowsOf D L → a.2.1 ≠ u :: p := fun ha he =>
    h.fresh (he ▸ (h.opened.ends ha).2.1)
  have hwalks := h.covers_off hU
  rw [arrowsOf_insert h.fresh]
  refine (hS.of_meets fun a ha b hb => joinsOff_of_ne (hends ha) (h.paths_of_covers hU hb).1).add
    (fun a ha b hb => ?_) fun a ha b hb => ?_
  · obtain ⟨w, -, rfl⟩ := mem_layerArrows.mp hb
    exact joinsOff_eq_false (Or.inr ⟨rfl, h.not_below (Finset.mem_insert_of_mem (h.opened.ends ha).2.1)⟩)
  · obtain ⟨w, -, rfl⟩ := mem_layerArrows.mp ha
    exact joinsOff_eq_false (Or.inl ⟨rfl, h.not_below (h.further.ends_of_covers hwalks hb).1.1⟩)

/-- The new layer is met as the diagram that is substituted for its box is. -/
theorem keeps : Keeps (joinsAt (u :: p)) (meets (ν (u :: p)) 0 1) (shown L (u :: p)) (shown L (u :: p))
    (halved ν φ (u :: p)) (U + layerArrows D (u :: p)) := by
  have hwalks := h.covers_off hU
  refine ⟨fun y x hm => ?_, fun a ha b hb hy hx => ?_⟩
  · simp only [shown, Bool.or_eq_true, decide_eq_true_eq]
    rw [joinsAt, Bool.or_eq_true, Bool.and_eq_true, Bool.and_eq_true, decide_eq_true_eq,
      decide_eq_true_eq] at hm
    rcases hm with ⟨hx, hm⟩ | ⟨hy, hm⟩
    · obtain ⟨n, hn, -, hs, -⟩ := enters_iff.mp hm
      obtain ⟨rfl, hp⟩ := List.cons.inj (hx.symm.trans hn)
      exact ⟨Or.inr (h.kept_of_box hp.symm ((Connector.isOn_eq_of_same hs u).trans (by simp))), Or.inl hx⟩
    · obtain ⟨n, hn, -, hs, -⟩ := exits_iff.mp hm
      obtain ⟨rfl, hp⟩ := List.cons.inj (hy.symm.trans hn)
      exact ⟨Or.inl hy, Or.inr (h.kept_of_box hp.symm ((Connector.isOn_eq_of_same hs u).trans (by simp)))⟩
  · have hya := (h.further.ends_of_covers hwalks ha).2
    have hxb := (h.further.ends_of_covers hwalks hb).1
    generalize a.2 = y at hy hya ⊢
    generalize b.1 = x at hx hxb ⊢
    obtain ⟨r, c⟩ := y
    obtain ⟨q, c'⟩ := x
    by_cases hr : r = u :: p <;> by_cases hq : q = u :: p
    · simp [meets, halved, joinsAt, hr, hq, enters, exits]
    · have hkept : kept L (q, c') = true := by simpa [shown, hq] using hx
      subst hr
      have hm := h.meets_exits ⟨Finset.mem_of_mem_insert_of_ne hxb.1 hq, hxb.2⟩ hkept hya.2.1
      simpa [halved, joinsAt, hq] using hm
    · have hkept : kept L (r, c) = true := by simpa [shown, hr] using hy
      subst hq
      have hm := h.meets_enters ⟨Finset.mem_of_mem_insert_of_ne hya.1 hr, hya.2⟩ hkept hxb.2.1
      simpa [halved, joinsAt, hr] using hm
    · simp [meets, halved, joinsAt, hr, hq]

/-- What is left of the walks, and the new layer, are the two diagrams of the substitution. -/
theorem stage_eq : stage (shown L (u :: p)) (shown L (u :: p)) (halved ν φ (u :: p))
      (U + layerArrows D (u :: p)) =
    (remaining L ν φ U).map (arrow 0) + ((D (u :: p)).rename (φ (u :: p))).wires.map (arrow 1) := by
  rw [stage_add]
  congr 1
  · rw [stage, remaining, outcome, Multiset.map_map]
    have hfilter : U.filter (fun a => (shown L (u :: p) a.1 && shown L (u :: p) a.2) = true) =
        U.filter fun a => (kept L a.1 && kept L a.2) = true := by
      refine Multiset.filter_congr fun a ha => ?_
      obtain ⟨hs, ht⟩ := h.paths_of_covers hU ha
      simp [shown, hs, ht]
    rw [hfilter]
    refine Multiset.map_congr rfl fun a ha => ?_
    obtain ⟨hs, ht⟩ := h.paths_of_covers hU (Multiset.mem_of_mem_filter ha)
    simp [Prod.map, halved, hs, ht, arrow]
  · have hall : ∀ a ∈ layerArrows D (u :: p),
        (shown L (u :: p) a.1 && shown L (u :: p) a.2) = true := by
      intro a ha
      obtain ⟨w, -, rfl⟩ := mem_layerArrows.mp ha
      simp [shown]
    rw [stage, Multiset.filter_eq_self.mpr hall, layerArrows, Multiset.map_coe, List.map_map, wires_rename,
      List.map_map]
    refine congrArg _ (List.map_congr_left fun w _ => ?_)
    simp [halved, arrow, Wire.rename]

end First

/-- What the substitution leaves of the walks through all layers. -/
theorem outcome_stage_eq (h : Opens D L ν φ u p d ν' φ') {m : Site → Site → Bool}
    (hU : Covers m (arrowsOf D (insert (u :: p) L)) U) {ids : IdMap}
    (hids : ids = inserted d ((D (u :: p)).rename (φ (u :: p)))) :
    outcome (fun a => opens a && !(spot ids a).isOn (ν (u :: p)))
        (fun a => closes a && !(spot ids a).isOn (ν (u :: p))) (spot ids)
        (stage (shown L (u :: p)) (shown L (u :: p)) (halved ν φ (u :: p)) U) =
      remaining (insert (u :: p) L) ν' φ' U := by
  subst hids
  have hstart := fun a (ha : a ∈ U) => h.spot_halved (h.further.ends_of_covers hU ha).1 (by decide)
  have hfinish := fun a (ha : a ∈ U) => h.spot_halved (h.further.ends_of_covers hU ha).2 (Nat.le_refl _)
  rw [outcome_stage, remaining]
  calc _ = (outcome (kept (insert (u :: p) L)) (kept (insert (u :: p) L)) (named ν' φ') U).map
        fun w => ⟨id w.source, id w.target⟩ :=
      outcome_congr (fun a ha => (hstart a ha).1.symm) (fun a ha => (hfinish a ha).1.symm)
        (fun a ha hk => (hstart a ha).2 hk) fun a ha hk => (hfinish a ha).2 hk
    _ = _ := Multiset.map_id _

end Opens

/-- Opening a box of what the layers show shows one more layer. -/
theorem Shows.open {D : Path → Diagram} {L : Finset Path} {ν ν' : Path → Nat} {φ φ' : Path → Ref → Ref}
    {u : Nat} {p : Path} {d d' : Diagram} (hs : Shows D L ν φ d) (h : Opens D L ν φ u p d ν' φ')
    (hw : (d'.wires : Multiset Wire) = d.spliced ((D (u :: p)).rename (φ (u :: p))) (ν (u :: p))) :
    Shows D (insert (u :: p) L) ν' φ' d' := by
  have hwalks := covers_walks d ((D (u :: p)).rename (φ (u :: p))) (ν (u :: p))
  refine ⟨fun U hU w => ?_, fun hacyc U hU hS => ?_⟩
  · obtain ⟨U₀, hU₀⟩ := exists_covers joins (arrowsOf D L)
    have hV := hwalks.congr (F := stage (shown L (u :: p)) (shown L (u :: p)) (halved ν φ (u :: p))
      (U₀ + layerArrows D (u :: p))) fun a => by
        rw [h.stage_eq hU₀, network, Multiset.mem_add, Multiset.mem_add, ← Multiset.map_coe,
          Multiset.mem_map, Multiset.mem_map]
        simp only [Multiset.mem_coe, hs.mem U₀ hU₀]
    rw [joins_eq (u :: p)] at hU
    have hmem := (h.covers_off hU₀).stage (h.keeps hU₀) hU hV
    rw [← Multiset.mem_coe, hw, spliced_eq_outcome, ← h.outcome_stage_eq hU rfl]
    simp only [mem_outcome, hmem]
  · have hacyc₀ : ∀ x ∈ L, (D x).Acyclic := fun x hx => hacyc x (Finset.mem_insert_of_mem hx)
    obtain ⟨start₀, finish₀, bound₀, hr₀, hback⟩ := h.opened.exists_ranked hacyc₀
    obtain ⟨U₀, hU₀, hS₀⟩ := exists_solution hr₀
    have hwires := hs.eq hacyc₀ U₀ hU₀ hS₀
    have hstage := h.stage_eq hU₀
    rw [← hwires, Multiset.map_coe, ← network] at hstage
    have hlinks : ¬ d.Links (ν (u :: p)) (ν (u :: p)) := by
      rintro ⟨w, hmem, hsrc, htgt⟩
      obtain ⟨a, b, hab, ha, hb, hsa, hsb⟩ := mem_outcome.mp ((hs.mem U₀ hU₀ w).mp hmem)
      obtain ⟨hat, hbt⟩ := h.opened.ends_of_covers hU₀ hab
      obtain ⟨hau, hap⟩ := (h.isOn_named hat ha).mp (hsa ▸ hsrc)
      obtain ⟨hbu, hbp⟩ := (h.isOn_named hbt hb).mp (hsb ▸ htgt)
      have hle := hr₀.walk ((hU₀ a b).mp hab)
      have hlt := hback p u b.2 a.2 h.two_le hbu hau
      rw [show (p, b.2) = b from Prod.ext hbp.symm rfl, show (p, a.2) = a from Prod.ext hap.symm rfl] at hlt
      exact Nat.not_le_of_lt hlt hle
    obtain ⟨start, finish, bound, hr, -⟩ := h.further.exists_ranked hacyc
    rw [joins_eq (u :: p)] at hU hS hr
    have hr' := ranked_of_not_links hlinks ((D (u :: p)).rename (φ (u :: p)))
    have hV := solves_walks hr'
    rw [← hstage] at hV hr'
    have heq := (h.solves_off hU₀ hS₀).stage (h.covers_off hU₀) (h.keeps hU₀) (fun b a hm => by
      simp [joinsOff, hm.2] at hm) hr hS hr' hV
    rw [hw, spliced_eq_outcome, ← h.outcome_stage_eq hU rfl, ← heq]

end StringDiagram
