import StringDiagram.Proofs.Substitution.Renumbered

/-! # The wires of nested substitutions

A diagram may be put in the place of a box before or after the diagram around it is put into a host. In the
one order its wires are spliced into the inner diagram, in the other into the host, but both walk the same
network: `Order.mem_nested`. -/
namespace StringDiagram
open Diagram Network

theorem Connector.withBox_withBox (c : Connector) (b b' : Value) :
    (c.withBox b).withBox b' = c.withBox b' := rfl

theorem Connector.same_withBox (c x : Connector) (b b' : Value) : (c.withBox b).same (x.withBox b') =
    (b.same b' && (c.kind.same x.kind && c.port.same x.port)) := by
  rw [Bool.eq_iff_iff, Connector.same_iff]
  simp [Connector.withBox]

namespace Diagram
variable {d e k : Diagram} {i j n u : Nat} {c : Connector}

def makeRoom (u n : Nat) : Nat := if n < u then n else n + 1

theorem makeRoom_of_lt (h : n < u) : makeRoom u n = n := if_pos h

theorem makeRoom_of_le (h : u ≤ n) : makeRoom u n = n + 1 := if_neg (Nat.not_lt.mpr h)

theorem makeRoom_ne (u n : Nat) : makeRoom u n ≠ u := by
  unfold makeRoom
  split <;> omega

theorem OnBox.isOn_iff (he : e.Consistent) (hu : e.boxes.keys[j]? = some u) (h : e.OnBox i c) :
    c.isOn u = true ↔ i = j := by
  obtain ⟨n, hn, hc⟩ := h
  rw [Connector.isOn_iff, hc, Option.some.injEq]
  constructor
  · rintro rfl
    obtain ⟨hi, hget⟩ := List.getElem?_eq_some_iff.mp hn
    obtain ⟨hj, hget'⟩ := List.getElem?_eq_some_iff.mp hu
    exact (he.boxes_nodup.getElem_inj_iff).mp (hget.trans hget'.symm)
  · rintro rfl
    exact Option.some.inj (hn.symm.trans hu)

theorem OnBox.of_isOn (hu : e.boxes.keys[i]? = some u) (h : c.isOn u = true) : e.OnBox i c :=
  ⟨u, hu, Connector.isOn_iff.mp h⟩

theorem length_eraseIdx_keys (hi : i < e.boxes.length) :
    (e.boxes.keys.eraseIdx i).length = e.boxes.length - 1 := by
  rw [List.length_eraseIdx_of_lt (by rwa [Table.length_keys]), Table.length_keys]

section Taken
variable {m : Diagram} (hi : i < e.boxes.length)
  (hkeys : m.boxes.keys = e.boxes.keys.eraseIdx i ++ List.range' e.next k.boxes.length)

include hi hkeys

theorem length_taken : m.boxes.length = e.boxes.length - 1 + k.boxes.length := by
  have h := congrArg List.length hkeys
  rwa [List.length_append, length_eraseIdx_keys hi, List.length_range', Table.length_keys] at h

/-- The boxes that stay close the gap that box `i` leaves. -/
theorem exists_key_old {n : Nat} (hn : e.boxes.keys[j]? = some n) (hji : j ≠ i) (d : Diagram) :
    ∃ j', m.boxes.keys[j']? = some n ∧ makeRoom (d.next + i) (d.next + j') = d.next + j := by
  have hlt := Table.lt_of_key hn
  have hlen := length_eraseIdx_keys hi
  rcases Nat.lt_or_gt_of_ne hji with hji | hji
  · refine ⟨j, ?_, makeRoom_of_lt (by omega)⟩
    rw [hkeys, List.getElem?_append_left (by omega), List.getElem?_eraseIdx_of_lt hji, hn]
  · refine ⟨j - 1, ?_, ?_⟩
    · rw [hkeys, List.getElem?_append_left (by omega), List.getElem?_eraseIdx_of_ge (by omega),
        Nat.sub_add_cancel (by omega), hn]
    · rw [makeRoom_of_le (by omega)]
      omega

/-- The boxes that came in follow them. -/
theorem exists_key_new (hj : j < k.boxes.length) (d : Diagram) :
    ∃ j', m.boxes.keys[j']? = some (e.next + j) ∧
      makeRoom (d.next + i) (d.next + j') = d.next + e.boxes.length + j := by
  have hlen := length_eraseIdx_keys hi
  refine ⟨e.boxes.length - 1 + j, ?_, ?_⟩
  · rw [hkeys, List.getElem?_append_right (by omega), hlen, Nat.add_sub_cancel_left,
      List.getElem?_range' hj, Nat.one_mul]
  · rw [makeRoom_of_le (by omega)]
    omega

end Taken

end Diagram

namespace Order

def inward : Order := ⟨1, 2, 0, 0⟩

theorem proper_inward : inward.Proper := ⟨by decide, by decide, by decide⟩

variable {d e k d₁ m : Diagram} {u v i b : Nat} {c : Connector}

theorem arrows_inward (d e k : Diagram) : inward.arrows e k d = forward.arrows d e k := by
  unfold arrows
  rw [add_comm, ← add_assoc]
  rfl

theorem meets_inward (u v : Nat) :
    (fun b a => meets u inward.host inward.inner b a || meets v 0 1 b a) =
      fun b a => meets v forward.host forward.inner b a || meets u 1 2 b a :=
  funext fun _ => funext fun _ => Bool.or_comm _ _

section Host
variable {ids ids' : IdMap} {x y : Nat}

theorem name_outer : inward.name ids ids' (0, c) = c := by simp [name, into, spot, inward]

theorem name_middle : inward.name ids ids' (1, c) = ids'.place c := by
  simp [name, into, found, spot, inward]

theorem name_innermost : inward.name ids ids' (2, c) = ids'.place (ids.place c) := by
  simp [name, into, found, spot, inward]

theorem stays_outer : inward.stays ids ids' x y b (0, c) = !c.isOn y := by
  rw [stays, name_outer]
  simp [keeps, into, inward]

theorem stays_middle : inward.stays ids ids' x y b (1, c) =
    (!c.isOn x && !c.isOn b && !(ids'.place c).isOn y) := by
  rw [stays, name_middle]
  simp [keeps, into, found, inward]

theorem stays_innermost : inward.stays ids ids' x y b (2, c) =
    (!c.isOn b && !(ids.place c).isOn x && !(ids.place c).isOn b &&
      !(ids'.place (ids.place c)).isOn y) := by
  rw [stays, name_innermost]
  simp [keeps, into, found, inward]

end Host

section Nested
variable (hd : d.Consistent) (he : e.Consistent) (hk : k.Consistent) (hde : e.Directed) (hdk : k.Directed)
  (hu : e.boxes.keys[i]? = some u)

include he in
theorem box_ne_boundary (hu : e.boxes.keys[i]? = some u) (hb : b ≤ outputId) : u ≠ b := by
  have h2 := he.two_le (List.mem_of_getElem? hu)
  unfold outputId at hb
  omega

include he hk in
/-- The first substitution leaves the nodes as they are but those of the third diagram, which it moves away
from the boundary. -/
theorem into_inward {a : Node} (hl : forward.Layered d e k b a)
    (hkeep : inward.keeps (inserted e k) u b a = true) : inward.into (inserted e k) a = a ∨
      a.1 = 2 ∧ ∃ c, inward.into (inserted e k) a = (1, c) ∧ c.isOn inputId = false ∧
        c.isOn outputId = false := by
  cases hl with
  | @host c h => exact Or.inl (by simp [into, inward, forward])
  | @inner c h => exact Or.inl (by simp [into, found, inward, forward])
  | @rest c h =>
    rcases h with hon | ⟨j, hj⟩
    · simp [keeps, inward, forward, hon] at hkeep
    · refine Or.inr ⟨rfl, (inserted e k).place c, by simp [into, found, inward, forward], ?_⟩
      have h2 := he.two_le_next
      have hne : ∀ n, n ≤ 1 → e.next + j ≠ n := fun n hn => by omega
      rw [hj.place_eq hk, Connector.isOn_withBox, Connector.isOn_withBox]
      exact ⟨decide_eq_false (hne _ (by decide)), decide_eq_false (hne _ (by decide))⟩

include hd he hk hde hdk hu

theorem follows_inward (hm : (m.wires : Multiset Wire) = e.spliced k u) :
    inward.Follows e k d m d m u v (meets v 0 1) := by
  refine ⟨proper_inward, hm, add_comm _ _, ⟨fun b a hma => ?_, fun a ha b hb hqa hpb => ?_⟩⟩
  · have houter : ∀ {boundary : Nat} {a : Node}, a.1 = 0 →
        inward.keeps (inserted e k) u boundary a = true := fun ha => by simp [keeps, inward, ha]
    have hmiddle : ∀ {boundary : Nat} {a : Node}, boundary ≤ outputId → a.1 = 1 →
        a.2.isOn boundary = true → inward.keeps (inserted e k) u boundary a = true := by
      intro boundary a hle ha hon
      have hoff : a.2.isOn u = false := Connector.isOn_eq_false hon (box_ne_boundary he hu hle).symm
      simp [keeps, found, inward, ha, hoff]
    rcases isOn_of_meets hma with ⟨hb, ha, hon, -⟩ | ⟨hb, ha, hon, -⟩
    · exact ⟨houter hb, hmiddle (by decide) ha hon⟩
    · exact ⟨hmiddle (by decide) hb hon, houter ha⟩
  · have hcov := covers_walked proper_inward e k d u
    rw [arrows_inward] at hcov
    have hla := (layered_of_covers hd he hk hde hdk hcov ha).2
    have hlb := (layered_of_covers hd he hk hde hdk hcov hb).1
    rcases into_inward he hk hla hqa with hia | ⟨ha2, c, hia, -, hc⟩
    · rcases into_inward he hk hlb hpb with hib | ⟨hb2, c', hib, hc', -⟩
      · rw [hia, hib]
      · rw [hia, hib]
        simp [meets, hb2, hc']
    · rw [hia]
      simp [meets, ha2, hc]

omit hk hde hdk in
/-- A box of the inner diagram gets its number in the host. -/
theorem found_inner {boundary : Nat} {a : Node} (hl : forward.Layered d e k boundary a)
    (hkeep : forward.keeps (inserted d e) v boundary a = true) (hne : a.1 ≠ 2) (x : Connector) :
    (forward.found (inserted d e) a).same (x.withBox (.ofNat (d.next + i))) =
      (a.1 == 1 && a.2.same (x.withBox (.ofNat u))) := by
  cases hl with
  | @host c h =>
    obtain ⟨n, hn, hlt⟩ := h.lt_next hd
    have hoff : c.same (x.withBox (.ofNat (d.next + i))) = false := by
      rw [Bool.eq_false_iff]
      intro hs
      have h := Connector.isOn_eq_of_same hs n
      rw [Connector.isOn_iff.mpr hn, Connector.isOn_withBox, eq_comm, decide_eq_true_iff] at h
      omega
    simp [found, forward, hoff]
  | @inner c h =>
    rcases h with hon | ⟨j, hj⟩
    · simp [keeps, forward, hon] at hkeep
    · have hbox : (Value.ofNat (d.next + j)).same (.ofNat (d.next + i)) = c.box.same (.ofNat u) := by
        have hon := hj.isOn_iff he hu
        rw [Connector.isOn_iff, Value.boxId?_eq_some] at hon
        rw [Bool.eq_iff_iff, hon, ← Value.boxId?_eq_some, Value.boxId?_ofNat, Option.some.injEq]
        omega
      have hleft : ((inserted d e).place c).same (x.withBox (.ofNat (d.next + i))) =
          (c.box.same (.ofNat u) && (c.kind.same x.kind && c.port.same x.port)) := by
        rw [hj.place_eq he, Connector.same_withBox, hbox]
      have hright : c.same (x.withBox (.ofNat u)) = _ := Connector.same_withBox c x c.box (.ofNat u)
      simp [found, forward, hleft, hright]
  | rest _ => exact absurd rfl hne

omit hk hde hdk in
theorem isOn_of_found {boundary : Nat} {a : Node} (hl : forward.Layered d e k boundary a)
    (hkeep : forward.keeps (inserted d e) v boundary a = true) (hne : a.1 ≠ 2)
    (h : (forward.found (inserted d e) a).isOn (d.next + i) = true) : a.1 = 1 ∧ a.2.isOn u = true := by
  have hsame : (forward.found (inserted d e) a).same
      ((forward.found (inserted d e) a).withBox (.ofNat (d.next + i))) = true := by
    rw [Connector.isOn_iff, Value.boxId?_eq_some] at h
    exact Connector.same_iff.mpr ⟨h, Value.same_iff.mpr rfl, Value.same_iff.mpr rfl⟩
  rw [found_inner hd he hu hl hkeep hne, Bool.and_eq_true, beq_iff_eq] at hsame
  refine ⟨hsame.1, (Connector.isOn_eq_of_same hsame.2 u).trans ?_⟩
  simp

theorem follows_inner (hw : (d₁.wires : Multiset Wire) = d.spliced e v) (hv : v < d.next) :
    forward.Follows d e k d₁ d₁ k v (d.next + i) (meets u 1 2) := by
  refine ⟨proper_forward, hw, rfl, ⟨fun b a hm => ?_, fun a ha b hb hqa hpb => ?_⟩⟩
  · have hrest : ∀ {boundary : Nat} {a : Node}, a.1 = 2 →
        forward.keeps (inserted d e) v boundary a = true := fun ha => by simp [keeps, forward, ha]
    have hinner : ∀ {boundary : Nat} {a : Node}, boundary ≤ outputId → a.1 = 1 →
        a.2.isOn u = true → forward.keeps (inserted d e) v boundary a = true := by
      intro boundary a hle ha hon
      have hoff : a.2.isOn boundary = false := Connector.isOn_eq_false hon (box_ne_boundary he hu hle)
      have hplace : ((inserted d e).place a.2).isOn v = false := by
        rw [(OnBox.of_isOn hu hon).place_eq he, Connector.isOn_withBox, decide_eq_false_iff_not]
        omega
      simp [keeps, found, forward, ha, hoff, hplace]
    rcases isOn_of_meets hm with ⟨hb, ha, -, hon⟩ | ⟨hb, ha, -, hon⟩
    · exact ⟨hinner (by decide) hb hon, hrest ha⟩
    · exact ⟨hrest hb, hinner (by decide) ha hon⟩
  · have hcov := covers_walked proper_forward d e k v
    have hla := (layered_of_covers hd he hk hde hdk hcov ha).2
    have hlb := (layered_of_covers hd he hk hde hdk hcov hb).1
    exact meets_into rfl (by decide) (fun hne p => found_inner hd he hu hla hqa hne (.input .null p))
      fun hne p => found_inner hd he hu hlb hpb hne (.output .null p)

section Both
variable (hv : v < d.next) (hcm : m.Consistent)
  (hkeys : m.boxes.keys = e.boxes.keys.eraseIdx i ++ List.range' e.next k.boxes.length)
  (hn : d₁.next = d.next + e.boxes.length)

include hv hcm hkeys hn

omit hde hdk in
/-- A node is there after both orders or after neither, and has one number more if its box comes after the
one that makes room. -/
theorem nested_node (hb : b ≤ outputId) {a : Node} (h : forward.Layered d e k b a) :
    inward.stays (inserted e k) (inserted d m) u v b a =
        forward.stays (inserted d e) (inserted d₁ k) v (d.next + i) b a ∧
      (inward.stays (inserted e k) (inserted d m) u v b a = true →
        forward.name (inserted d e) (inserted d₁ k) a =
          (inward.name (inserted e k) (inserted d m) a).renumber (makeRoom (d.next + i))) := by
  have hi := Table.lt_of_key hu
  have hoff : ∀ {c : Connector} {n x : Nat}, n ≠ x → (c.withBox (.ofNat n)).isOn x = false := fun h => by
    rw [Connector.isOn_withBox, decide_eq_false h]
  have h2 := he.two_le_next
  have hle : b ≤ 1 := hb
  cases h with
  | @host c h =>
    have hs : inward.stays (inserted e k) (inserted d m) u v b (forward.host, c) = !c.isOn v := stays_outer
    have hc : inward.name (inserted e k) (inserted d m) (forward.host, c) = c := name_outer
    obtain ⟨n, hbox, hlt⟩ := h.lt_next hd
    have hne : c.isOn (d.next + i) = false :=
      Connector.isOn_eq_false (Connector.isOn_iff.mpr hbox) (by omega)
    rw [stays_host proper_forward rfl, name_host proper_forward rfl, hs, hc, hne,
      Connector.renumber_eq_self hbox (makeRoom_of_lt (by omega))]
    exact ⟨by simp, fun _ => rfl⟩
  | @inner c h =>
    have hs : inward.stays (inserted e k) (inserted d m) u v b (forward.inner, c) =
        (!c.isOn u && !c.isOn b && !((inserted d m).place c).isOn v) := stays_middle
    have hc : inward.name (inserted e k) (inserted d m) (forward.inner, c) =
        (inserted d m).place c := name_middle
    rw [stays_inner proper_forward rfl, name_inner proper_forward rfl, hs, hc]
    rcases h with hon | ⟨j, hj⟩
    · simp [hon]
    · by_cases hji : j = i
      · have hon := (hj.isOn_iff he hu).mpr hji
        rw [hj.place_eq he, hji, hon, Connector.isOn_withBox]
        simp
      · have hon : c.isOn u = false := Bool.eq_false_iff.mpr fun h => hji ((hj.isOn_iff he hu).mp h)
        obtain ⟨n, hget, hbox⟩ := hj
        obtain ⟨j', hj', hroom⟩ := exists_key_old hi hkeys hget hji d
        rw [OnBox.place_eq he ⟨n, hget, hbox⟩, OnBox.place_eq hcm ⟨n, hj', hbox⟩, hon, hoff (by omega),
          hoff (by omega), hoff (by omega), Connector.renumber_withBox, hroom]
        exact ⟨by simp, fun _ => rfl⟩
  | @rest c h =>
    have hs : inward.stays (inserted e k) (inserted d m) u v b (forward.rest, c) =
        (!c.isOn b && !((inserted e k).place c).isOn u && !((inserted e k).place c).isOn b &&
          !((inserted d m).place ((inserted e k).place c)).isOn v) := stays_innermost
    have hc : inward.name (inserted e k) (inserted d m) (forward.rest, c) =
        (inserted d m).place ((inserted e k).place c) := name_innermost
    rw [stays_rest rfl, name_rest rfl, hs, hc]
    rcases h with hon | ⟨j, hj⟩
    · simp [hon]
    · obtain ⟨j', hj', hroom⟩ := exists_key_new hi hkeys hj.lt d
      have hlt := he.below_next u (Consistent.box_live (List.mem_of_getElem? hu))
      rw [hj.place_eq hk, hj.place_eq hk, OnBox.place_eq hcm ⟨_, hj', Value.boxId?_ofNat _⟩,
        hoff (by omega), hoff (by omega), hoff (by omega), hoff (by omega), hn,
        Connector.withBox_withBox, Connector.renumber_withBox, hroom]
      exact ⟨by simp, fun _ => rfl⟩

theorem agrees_nested (meets : Node → Node → Bool) :
    inward.Agrees forward (makeRoom (d.next + i)) (inward.arrows e k d) meets (inserted e k)
      (inserted d m) (inserted d e) (inserted d₁ k) u v v (d.next + i) := by
  rw [arrows_inward]
  apply agrees_of_layered hd he hk hde hdk
  intro b hb a ha
  exact nested_node hd he hk hu hv hcm hkeys hn hb ha

variable (hm : (m.wires : Multiset Wire) = e.spliced k u)
  (hw : (d₁.wires : Multiset Wire) = d.spliced e v)

include hm hw

/-- Both orders give the same wires. -/
theorem mem_nested (x : Wire) : x ∈ d₁.spliced k (d.next + i) ↔
    ∃ z ∈ d.spliced m v, z.renumber (makeRoom (d.next + i)) = x :=
  (follows_inward hd he hk hde hdk hu hm).mem_agree (follows_inner hd he hk hde hdk hu hw hv)
    (arrows_inward d e k).symm (meets_inward u v).symm
    (agrees_nested hd he hk hde hdk hu hv hcm hkeys hn _) x

omit he hk hde hdk hu hv hcm hkeys hn hm hw hd in
/-- Walks ascend from what feeds box `v` through the inner diagram, and there from what feeds box `u` through
the innermost one, unless a box feeds itself. -/
theorem ranked_nested (he : e.Consistent) (hu : e.boxes.keys[i]? = some u) (hvv : ¬ d.Links v v)
    (huu : ¬ e.Links u u) (k : Diagram) :
    Ranked (fun b a => meets v forward.host forward.inner b a || meets u 1 2 b a) (forward.arrows d e k)
      (fun a => if a.1 = 0 then if a.2.isOn v then 4 else 0
        else if a.1 = 1 then if a.2.isOn u then 3 else 1 else 2)
      (fun a => if a.1 = 0 then if a.2.isOn v then 0 else 4
        else if a.1 = 1 then if a.2.isOn u then 1 else 3 else 2) 4 := by
  refine ⟨fun a ha => ?_, fun a _ => ?_, fun a _ b _ hm => ?_⟩
  · rcases mem_arrows.mp ha with ⟨w, hw, rfl⟩ | ⟨w, hw, rfl⟩ | ⟨w, -, rfl⟩
    · have hl : ¬ (w.source.isOn v = true ∧ w.target.isOn v = true) := fun hl => hvv ⟨w, hw, hl⟩
      cases hs : w.source.isOn v <;> cases ht : w.target.isOn v <;> simp_all [arrow, forward]
    · have hl : ¬ (w.source.isOn u = true ∧ w.target.isOn u = true) := fun hl => huu ⟨w, hw, hl⟩
      cases hs : w.source.isOn u <;> cases ht : w.target.isOn u <;> simp_all [arrow, forward]
    · simp [arrow, forward]
  · split_ifs <;> omega
  · have hboundary : ∀ {c : Connector} {b : Nat}, b ≤ outputId → c.isOn b = true → c.isOn u = false :=
      fun hb h => Connector.isOn_eq_false h (box_ne_boundary he hu hb).symm
    rcases Bool.or_eq_true_iff.mp hm with hm | hm
    · rcases isOn_of_meets hm with ⟨ha, hb, hin, hon⟩ | ⟨ha, hb, hout, hon⟩
      · simp [forward, ha, hb, hon, hboundary (by decide) hin]
      · simp [forward, ha, hb, hon, hboundary (by decide) hout]
    · rcases isOn_of_meets hm with ⟨ha, hb, -, hon⟩ | ⟨ha, hb, -, hon⟩ <;> simp [ha, hb, hon]

/-- As often, if neither of the two boxes feeds itself. -/
theorem spliced_nested (hvv : ¬ d.Links v v) (huu : ¬ e.Links u u) : d₁.spliced k (d.next + i) =
    (d.spliced m v).map (Wire.renumber (makeRoom (d.next + i))) := by
  have hr := ranked_nested he hu hvv huu k
  have hr' := hr
  rw [← meets_inward, ← arrows_inward] at hr'
  have hlinks : ¬ d₁.Links (d.next + i) (d.next + i) := by
    refine not_links proper_forward hw hr ?_
    intro a ha hra hrb hka hkb hya hyb
    have hcov := covers_walked proper_forward d e k v
    obtain ⟨hla, hlb⟩ := layered_of_covers hd he hk hde hdk hcov ha
    obtain ⟨ha1, hau⟩ := isOn_of_found hd he hu hla hka hra hya
    obtain ⟨hb1, hbu⟩ := isOn_of_found hd he hu hlb hkb hrb hyb
    simp [ha1, hau, hb1, hbu]
  exact (follows_inward hd he hk hde hdk hu hm).spliced_agree (follows_inner hd he hk hde hdk hu hw hv)
    (arrows_inward d e k).symm (meets_inward u v).symm
    (agrees_nested hd he hk hde hdk hu hv hcm hkeys hn _) (meets_disjoint (by decide) (by decide))
    (meets_disjoint (by decide) (by decide)) hr' huu hvv hvv hlinks

end Both

end Nested

end Order

end StringDiagram
