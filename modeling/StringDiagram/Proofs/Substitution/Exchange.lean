import StringDiagram.Proofs.Substitution.Renumbered

/-! # The wires of independent substitutions

A wire between two boxes of a host is a wire of the host in one stage and belongs to the boundary of an
inserted diagram in the other, but whichever box goes first it is one arrow of the same network. -/
namespace StringDiagram
open Diagram Network

namespace Diagram
variable {d e k : Diagram} {i n : Nat}

/-- The number of a box if the boxes of `k` come into `d` before those of `e`, by the number that it has if
they come after them. -/
def exchange (d e k : Diagram) (n : Nat) : Nat :=
  if n < d.next then n
  else if n < d.next + e.boxes.length then n + k.boxes.length
  else n - e.boxes.length

theorem exchange_old (h : n < d.next) : exchange d e k n = n := if_pos h

theorem exchange_inner (h : i < e.boxes.length) :
    exchange d e k (d.next + i) = d.next + k.boxes.length + i := by
  unfold exchange
  rw [if_neg (by omega), if_pos (by omega)]
  omega

theorem exchange_rest (d e k : Diagram) (i : Nat) :
    exchange d e k (d.next + e.boxes.length + i) = d.next + i := by
  unfold exchange
  rw [if_neg (by omega), if_neg (by omega)]
  omega

theorem exchange_exchange (h : n < d.next + e.boxes.length + k.boxes.length) :
    exchange d k e (exchange d e k n) = n := by
  unfold exchange
  split_ifs <;> omega

theorem exchange_lt (h : n < d.next + e.boxes.length + k.boxes.length) :
    exchange d e k n < d.next + e.boxes.length + k.boxes.length ∧
      (n < d.next ∨ d.next ≤ exchange d e k n) := by
  unfold exchange
  split_ifs <;> omega

end Diagram

namespace Order
variable {o : Order} {d e k d₁ : Diagram} {x y : Nat}

/-- A box of the host keeps its ports in the first substitution, and no other box gets them. -/
theorem found_host (ho : o.Proper) (he : e.Consistent) (hy : y < d.next) {boundary : Nat} {a : Node}
    {c : Connector} (hl : o.Layered d e k boundary a)
    (hk : o.keeps (inserted d e) x boundary a = true) (hc : c.isOn y = true) (hne : a.1 ≠ o.rest) :
    (o.found (inserted d e) a).same c = (a.1 == o.host && a.2.same c) := by
  cases hl with
  | host _ => simp [found]
  | rest _ => exact absurd rfl hne
  | @inner c' hin =>
    have hih := ho.host_inner.symm
    have hir := ho.rest_inner.symm
    rcases hin with hb | ⟨i, hi⟩
    · simp [keeps, hb, beq_false_of_ne hih, beq_false_of_ne hir] at hk
    · have hport : ((inserted d e).place c').same c = false := by
        rw [hi.place_eq he, Bool.eq_false_iff]
        intro hsame
        have h := Connector.isOn_eq_of_same hsame y
        rw [hc, Connector.isOn_withBox, decide_eq_true_iff] at h
        omega
      simp [found, hih, beq_false_of_ne hih, hport]

section Host
variable (ho : o.Proper) (hd : d.Consistent) (he : e.Consistent) (hk : k.Consistent) (hde : e.Directed)
  (hdk : k.Directed) (hw : (d₁.wires : Multiset Wire) = d.spliced e x) (hy : y < d.next)

include ho hd he hk hde hdk hw hy

/-- The second substitution is at a box of the host that the first one leaves. -/
theorem follows_host (hs : o.side = 1) (hxy : x ≠ y) :
    o.Follows d e k d₁ d₁ k x y (meets y o.host o.rest) := by
  refine ⟨ho, hw, ?_, ⟨fun b a hm => ?_, fun a ha b hb hqa hpb => ?_⟩⟩
  · rw [hs]
    rfl
  · have hrest : ∀ {boundary : Nat} {a : Node}, a.1 = o.rest →
        o.keeps (inserted d e) x boundary a = true := fun ha => by simp [keeps, ha]
    have hhost : ∀ {boundary : Nat} {a : Node}, a.1 = o.host → a.2.isOn y = true →
        o.keeps (inserted d e) x boundary a = true := fun ha hon => by
      simp [keeps, found, ha, Connector.isOn_eq_false hon hxy.symm]
    rcases isOn_of_meets hm with ⟨hb, ha, -, hon⟩ | ⟨hb, ha, -, hon⟩
    · exact ⟨hhost hb hon, hrest ha⟩
    · exact ⟨hrest hb, hhost ha hon⟩
  · have hcov := covers_walked ho d e k x
    have hla := (layered_of_covers hd he hk hde hdk hcov ha).2
    have hlb := (layered_of_covers hd he hk hde hdk hcov hb).1
    exact meets_into hs ho.rest_host.symm (fun hne p => found_host ho he hy hla hqa (by simp) hne)
      fun hne p => found_host ho he hy hlb hpb (by simp) hne

/-- The first substitution makes no wire from `y` to `y` if walks descend there. -/
theorem not_links_host {meets' : Node → Node → Bool} {start finish : Node → Nat} {bound : Nat}
    (hr : Ranked (fun b a => meets x o.host o.inner b a || meets' b a) (o.arrows d e k) start finish bound)
    (hlt : ∀ c c' : Connector, c.isOn y = true → c'.isOn y = true →
      finish (o.host, c') < start (o.host, c)) : ¬ d₁.Links y y := by
  refine not_links ho hw hr ?_
  intro a ha hra hrb hka hkb hya hyb
  have hcov := covers_walked ho d e k x
  obtain ⟨hla, hlb⟩ := layered_of_covers hd he hk hde hdk hcov ha
  have hon : ∀ {boundary : Nat} {a : Node}, o.Layered d e k boundary a →
      o.keeps (inserted d e) x boundary a = true → a.1 ≠ o.rest →
      (o.found (inserted d e) a).isOn y = true → a = (o.host, a.2) ∧ a.2.isOn y = true := by
    intro boundary a hl hka hra hya
    have h := found_host ho he hy hl hka hya hra
    rw [show (o.found (inserted d e) a).same (o.found (inserted d e) a) = true by
      simp [Connector.same], eq_comm, Bool.and_eq_true, beq_iff_eq] at h
    exact ⟨Prod.ext h.1 rfl, (Connector.isOn_eq_of_same h.2 y).trans hya⟩
  obtain ⟨hstart, hya⟩ := hon hla hka hra hya
  obtain ⟨hfinish, hyb⟩ := hon hlb hkb hrb hyb
  rw [hstart, hfinish]
  exact hlt a.1.2 a.2.2 hya hyb

end Host

/-- Walks ascend from what feeds box `x`, through `x` to what it feeds, `y` among it, and through `y`. -/
def start (o : Order) (x y : Nat) (a : Node) : Nat :=
  if a.1 = o.host then if a.2.isOn x then 2 else if a.2.isOn y then 4 else 0
  else if a.1 = o.inner then 1 else 3

def finish (o : Order) (x y : Nat) (a : Node) : Nat :=
  if a.1 = o.host then if a.2.isOn x then 0 else if a.2.isOn y then 2 else 4
  else if a.1 = o.inner then 1 else 3

theorem ranked_apart (ho : o.Proper) (hxy : x ≠ y) (hx : ¬ d.Links x x) (hy : ¬ d.Links y y)
    (hyx : ¬ d.Links y x) (e k : Diagram) :
    Ranked (fun b a => meets x o.host o.inner b a || meets y o.host o.rest b a) (o.arrows d e k)
      (o.start x y) (o.finish x y) 4 := by
  have hih := ho.host_inner.symm
  have hri := ho.rest_inner
  have hrh := ho.rest_host
  refine ⟨fun a ha => ?_, fun a _ => ?_, fun a _ b _ hm => ?_⟩
  · rcases mem_arrows.mp ha with ⟨w, hw, rfl⟩ | ⟨w, -, rfl⟩ | ⟨w, -, rfl⟩
    · have hl : ∀ {v v'}, ¬ d.Links v v' → w.source.isOn v = true → w.target.isOn v' = false := by
        intro v v' hl hs
        rw [Bool.eq_false_iff]
        exact fun ht => hl ⟨w, hw, hs, ht⟩
      cases hsx : w.source.isOn x with
      | true =>
        have ht := hl hx hsx
        cases hty : w.target.isOn y <;> simp [start, finish, arrow, hsx, ht, hty]
      | false =>
        cases hsy : w.source.isOn y with
        | true => simp [start, finish, arrow, hsx, hsy, hl hyx hsy, hl hy hsy]
        | false => simp [start, arrow, hsx, hsy]
    · simp [start, finish, arrow, hih]
    · simp [start, finish, arrow, hri, hrh]
  · unfold finish
    split_ifs <;> omega
  · rcases Bool.or_eq_true_iff.mp hm with hm | hm
    · rcases isOn_of_meets hm with ⟨ha, hb, -, hon⟩ | ⟨ha, hb, -, hon⟩ <;>
        simp [start, finish, ha, hb, hih, hon]
    · rcases isOn_of_meets hm with ⟨ha, hb, -, hon⟩ | ⟨ha, hb, -, hon⟩ <;>
        simp [start, finish, ha, hb, hri, hrh, hon, Connector.isOn_eq_false hon hxy.symm]

def backward : Order := ⟨0, 2, 1, 1⟩

theorem proper_backward : backward.Proper := ⟨by decide, by decide, by decide⟩

theorem arrows_backward (d e k : Diagram) : backward.arrows d k e = forward.arrows d e k :=
  add_right_comm _ _ _

section Exchange
variable {d₁' : Diagram} {v w b : Nat}

/-- A node is there after both orders or after neither, and `exchange` gives its number. -/
theorem exchange_node (hd : d.Consistent) (he : e.Consistent) (hk : k.Consistent) (hv : v < d.next)
    (hw : w < d.next) (hn : d₁.next = d.next + e.boxes.length)
    (hn' : d₁'.next = d.next + k.boxes.length) {a : Node} (h : forward.Layered d e k b a) :
    forward.stays (inserted d e) (inserted d₁ k) v w b a =
        backward.stays (inserted d k) (inserted d₁' e) w v b a ∧
      (forward.stays (inserted d e) (inserted d₁ k) v w b a = true →
        backward.name (inserted d k) (inserted d₁' e) a =
          (forward.name (inserted d e) (inserted d₁ k) a).renumber (exchange d e k)) := by
  have hnew : ∀ {c : Connector} {u n : Nat}, u < d.next → d.next ≤ n →
      (c.withBox (.ofNat n)).isOn u = false := by
    intro c u n hu hn
    rw [Connector.isOn_withBox, decide_eq_false_iff_not]
    omega
  cases h with
  | @host c h =>
    have hs : backward.stays (inserted d k) (inserted d₁' e) w v b (forward.host, c) =
        (!c.isOn w && !c.isOn v) := stays_host proper_backward rfl
    have hc : backward.name (inserted d k) (inserted d₁' e) (forward.host, c) = c :=
      name_host proper_backward rfl
    obtain ⟨n, hbox, hlt⟩ := h.lt_next hd
    rw [stays_host proper_forward rfl, name_host proper_forward rfl, hs, hc,
      Connector.renumber_eq_self hbox (exchange_old hlt), Bool.and_comm]
    exact ⟨rfl, fun _ => rfl⟩
  | @inner c h =>
    have hs : backward.stays (inserted d k) (inserted d₁' e) w v b (forward.inner, c) =
        (!c.isOn b && !((inserted d₁' e).place c).isOn v) := stays_rest rfl
    have hc : backward.name (inserted d k) (inserted d₁' e) (forward.inner, c) =
        (inserted d₁' e).place c := name_rest rfl
    rw [stays_inner proper_forward rfl, name_inner proper_forward rfl, hs, hc]
    rcases h with hb | ⟨i, hi⟩
    · simp [hb]
    · rw [hi.place_eq he, hi.place_eq he, hnew hv (Nat.le_add_right _ _), hnew hw (Nat.le_add_right _ _),
        hnew hv (by omega), Connector.renumber_withBox, exchange_inner hi.lt, hn']
      exact ⟨by simp, fun _ => rfl⟩
  | @rest c h =>
    have hs : backward.stays (inserted d k) (inserted d₁' e) w v b (forward.rest, c) =
        (!c.isOn b && !((inserted d k).place c).isOn w && !((inserted d k).place c).isOn v) :=
      stays_inner proper_backward rfl
    have hc : backward.name (inserted d k) (inserted d₁' e) (forward.rest, c) = (inserted d k).place c :=
      name_inner proper_backward rfl
    rw [stays_rest rfl, name_rest rfl, hs, hc]
    rcases h with hb | ⟨i, hi⟩
    · simp [hb]
    · rw [hi.place_eq hk, hi.place_eq hk, hnew hv (Nat.le_add_right _ _), hnew hw (Nat.le_add_right _ _),
        hnew hw (by omega), Connector.renumber_withBox, hn, exchange_rest]
      exact ⟨by simp, fun _ => rfl⟩

theorem agrees_exchange (hd : d.Consistent) (he : e.Consistent) (hk : k.Consistent) (hde : e.Directed)
    (hdk : k.Directed) (hv : v < d.next) (hw : w < d.next) (hn : d₁.next = d.next + e.boxes.length)
    (hn' : d₁'.next = d.next + k.boxes.length) (m : Node → Node → Bool) :
    forward.Agrees backward (exchange d e k) (forward.arrows d e k) m (inserted d e) (inserted d₁ k)
      (inserted d k) (inserted d₁' e) v w w v := by
  apply agrees_of_layered hd he hk hde hdk
  intro b _ a ha
  exact exchange_node hd he hk hv hw hn hn' ha

end Exchange

/-- Both orders walk the same network. -/
theorem meets_backward (v w : Nat) :
    (fun b a => meets w backward.host backward.inner b a || meets v backward.host backward.rest b a) =
      fun b a => meets v forward.host forward.inner b a || meets w forward.host forward.rest b a :=
  funext fun _ => funext fun _ => Bool.or_comm _ _

section Twice
variable {d₁' : Diagram} {v w : Nat}
  (hd : d.Consistent) (he : e.Consistent) (hk : k.Consistent) (hde : e.Directed) (hdk : k.Directed)
  (hv : v < d.next) (hw : w < d.next) (hvw : v ≠ w) (hn : d₁.next = d.next + e.boxes.length)
  (hn' : d₁'.next = d.next + k.boxes.length) (hw₁ : (d₁.wires : Multiset Wire) = d.spliced e v)
  (hw₁' : (d₁'.wires : Multiset Wire) = d.spliced k w)

include hd he hk hde hdk hv hw hvw hn hn' hw₁ hw₁'

theorem mem_exchange (x : Wire) :
    x ∈ d₁'.spliced e v ↔ ∃ z ∈ d₁.spliced k w, z.renumber (exchange d e k) = x :=
  (follows_host proper_forward hd he hk hde hdk hw₁ hw rfl hvw).mem_agree
    (follows_host proper_backward hd hk he hdk hde hw₁' hv rfl hvw.symm) (arrows_backward d e k)
    (meets_backward v w) (agrees_exchange hd he hk hde hdk hv hw hn hn' _) x

theorem spliced_exchange (hvv : ¬ d.Links v v) (hww : ¬ d.Links w w)
    (hloop : ¬ (d.Links v w ∧ d.Links w v)) :
    d₁'.spliced e v = (d₁.spliced k w).map (Wire.renumber (exchange d e k)) := by
  have hA := follows_host proper_forward hd he hk hde hdk hw₁ hw rfl hvw
  have hB := follows_host proper_backward hd hk he hdk hde hw₁' hv rfl hvw.symm
  have hranked : ∃ start finish : Node → Nat, Ranked (fun b a => meets v forward.host forward.inner b a ||
      meets w forward.host forward.rest b a) (forward.arrows d e k) start finish 4 ∧
      ∀ z, z = v ∨ z = w → ∀ c c' : Connector, c.isOn z = true → c'.isOn z = true →
        finish (0, c') < start (0, c) := by
    have hdescend : ∀ {o : Order} {x y z}, o.host = 0 → x ≠ y → z = x ∨ z = y →
        ∀ c c' : Connector, c.isOn z = true → c'.isOn z = true →
          o.finish x y (0, c') < o.start x y (0, c) := by
      rintro o x y z ho hxy (rfl | rfl) c c' hc hc'
      · simp [start, finish, ho, hc, hc']
      · simp [start, finish, ho, hc, hc', Connector.isOn_eq_false hc hxy.symm,
          Connector.isOn_eq_false hc' hxy.symm]
    by_cases hwv : d.Links w v
    · have hr := ranked_apart proper_backward hvw.symm hww hvv (fun h => hloop ⟨h, hwv⟩) k e
      rw [meets_backward, arrows_backward] at hr
      exact ⟨_, _, hr, fun z hz => hdescend rfl hvw.symm hz.symm⟩
    · exact ⟨_, _, ranked_apart proper_forward hvw hvv hww hwv e k, fun z hz => hdescend rfl hvw hz⟩
  obtain ⟨start, finish, hr, hdescend⟩ := hranked
  have hr' : Ranked (fun b a => meets w backward.host backward.inner b a ||
      meets v backward.host backward.rest b a) (backward.arrows d k e) start finish 4 := by
    rwa [meets_backward, arrows_backward]
  exact hA.spliced_agree hB (arrows_backward d e k) (meets_backward v w)
    (agrees_exchange hd he hk hde hdk hv hw hn hn' _) (meets_disjoint (by decide) (by decide))
    (meets_disjoint (by decide) (by decide)) hr hvv
    (not_links_host proper_forward hd he hk hde hdk hw₁ hw hr (hdescend w (Or.inr rfl))) hww
    (not_links_host proper_backward hd hk he hdk hde hw₁' hv hr' (hdescend v (Or.inl rfl)))

end Twice

end Order

end StringDiagram
