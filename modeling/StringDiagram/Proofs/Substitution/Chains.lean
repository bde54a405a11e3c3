import StringDiagram.Proofs.Network.Chains
import StringDiagram.Proofs.Substitution.Inlined

/-! # The wires after a substitution

A wire of the host after a substitution is a chain of wires that were there before, of the host and of
the inserted diagram in turn, and as often as there are such chains. Wires from the box to itself make
long chains, but only those that run in circles have no number: `substitute_wires`. That the two diagrams
are consistent is no condition on what was made by calls: `Store.consistent_run`. -/
namespace StringDiagram
open Diagram Network

abbrev Link (d e : Diagram) := Fin d.wires.length ⊕ Fin e.wires.length

namespace Link
variable {d e : Diagram}

/-- A wire of the host that ends at an input port of `v` is continued by the wires of the inserted
diagram that start at this port of its boundary, and one of these that ends at a port of the output
boundary by the wires of the host that start at this output port of `v`. -/
def Joins (v : Nat) : Link d e → Link d e → Prop
  | .inl i, .inr j => e.wires[j].source.isOn inputId = true ∧
    d.wires[i].target.same (.input (.ofNat v) e.wires[j].source.port) = true
  | .inr j, .inl i => e.wires[j].target.isOn outputId = true ∧
    d.wires[i].source.same (.output (.ofNat v) e.wires[j].target.port) = true
  | _, _ => False

instance (v : Nat) : DecidableRel (Joins (d := d) (e := e) v)
  | .inl _, .inr _ | .inr _, .inl _ => inferInstanceAs (Decidable (_ ∧ _))
  | .inl _, .inl _ | .inr _, .inr _ => inferInstanceAs (Decidable False)

/-- The connector at which the link starts. The boundary of the inserted diagram is not there. -/
def StartsAt (l : Link d e) (x : Connector) : Prop :=
  match l with
  | .inl i => d.wires[i].source = x
  | .inr j => (inserted d e).move e.wires[j].source = .ok x

def EndsAt (l : Link d e) (y : Connector) : Prop :=
  match l with
  | .inl i => d.wires[i].target = y
  | .inr j => (inserted d e).move e.wires[j].target = .ok y

def toArrow : Link d e → Node × Node
  | .inl i => arrow 0 d.wires[i]
  | .inr j => arrow 1 e.wires[j]

end Link

structure Threads (d e : Diagram) (v : Nat) (x y : Connector) (c : List (Link d e)) : Prop where
  joined : c.IsChain (Link.Joins v)
  first : ∃ l, c.head? = some l ∧ l.StartsAt x
  last : ∃ l, c.getLast? = some l ∧ l.EndsAt y

/-- Inner wires, from the input boundary to the output boundary, that a wire of the host from `v` back
to `v` joins. -/
def Feeds (d e : Diagram) (v : Nat) (j k : Fin e.wires.length) : Prop :=
  ∃ i : Fin d.wires.length, Link.Joins v (.inr j : Link d e) (.inl i) ∧ Link.Joins v (.inl i) (.inr k)

instance (d e : Diagram) (v : Nat) : DecidableRel (Feeds d e v) := fun _ _ =>
  inferInstanceAs (Decidable (∃ _ : Fin d.wires.length, _ ∧ _))

section Links
variable {d e : Diagram} {v : Nat}

theorem linked_iff {l m : Link d e} : Linked (meets v 0 1) Link.toArrow l m ↔ l.Joins v m := by
  cases l <;> cases m <;> simp [Linked, Link.toArrow, arrow, meets, Link.Joins]

theorem arrows_toArrow : arrows (Link.toArrow (d := d) (e := e)) = d.network e := by
  have hrow : ∀ (ws : List Wire) (i : Nat),
      (Finset.univ.val.map fun j : Fin ws.length => arrow i ws[j]) = ws.map (arrow i) := by
    intro ws i
    rw [Fin.univ_val_map, Multiset.coe_eq_coe]
    refine List.Perm.of_eq (List.ext_getElem (by simp) fun j _ _ => ?_)
    simp
  rw [network, ← hrow, ← hrow, arrows, ← Finset.univ_disjSum_univ, Finset.val_disjSum, Multiset.disjSum,
    Multiset.map_add, Multiset.map_map, Multiset.map_map]
  rfl

/-- A cycle of links runs through inner wires from boundary to boundary. -/
theorem feeds_of_joins {j : Fin e.wires.length} {l : Link d e}
    (h : Relation.TransGen (Link.Joins v) (.inr j) l) :
    match l with
    | .inl i => ∃ k, Relation.ReflTransGen (Feeds d e v) j k ∧ Link.Joins v (.inr k : Link d e) (.inl i)
    | .inr k => Relation.TransGen (Feeds d e v) j k := by
  induction h with
  | @single m hm =>
    cases m with
    | inl i => exact ⟨j, .refl, hm⟩
    | inr k => exact hm.elim
  | @tail l m _ hm ih =>
    cases l with
    | inl i =>
      obtain ⟨k, hjk, hk⟩ := ih
      cases m with
      | inl i' => exact hm.elim
      | inr k' => exact Relation.TransGen.tail' hjk ⟨i, hk, hm⟩
    | inr k =>
      cases m with
      | inl i => exact ⟨k, ih.to_reflTransGen, hm⟩
      | inr k' => exact hm.elim

theorem joins_acyclic (h : ∀ j, ¬ Relation.TransGen (Feeds d e v) j j) (l : Link d e) :
    ¬ Relation.TransGen (Link.Joins v) l l := by
  intro hl
  cases l with
  | inr j => exact h j (feeds_of_joins hl)
  | inl i =>
    obtain ⟨m, hm, hlast⟩ := Relation.TransGen.tail'_iff.mp hl
    cases m with
    | inl i' => exact hlast.elim
    | inr j => exact h j (feeds_of_joins (Relation.TransGen.head' hlast hm))

def stands (ids : IdMap) (x y : Connector) (a : Node × Node) : Bool :=
  opens a.1 && closes a.2 && decide (spot ids a.1 = x) && decide (spot ids a.2 = y)

theorem move_inserted (hce : e.Consistent) {c x : Connector} (h : (inserted d e).move c = .ok x) :
    c.isOn inputId = false ∧ c.isOn outputId = false ∧ (inserted d e).place c = x := by
  obtain ⟨⟨u, n⟩, hr, hx⟩ := bind_eq_ok.mp h
  obtain ⟨hu, hn⟩ := Table.resolve_eq_ok.mp hr
  have hmem : u ∈ e.boxes.keys := (List.of_mem_zip (Table.mem_of_get? hn)).1
  have h0 := hce.ne_input hmem
  have h1 := hce.ne_output hmem
  refine ⟨by simp [Connector.isOn, hu, h0], by simp [Connector.isOn, hu, h1], ?_⟩
  rw [IdMap.place, hu, Option.bind_some, hn]
  exact Except.ok.inj hx

section Ends
variable (hcd : d.Consistent) (hce : e.Consistent) (hdir : e.Directed) (hv : v ∈ d.boxes.keys)

include hcd hce hdir hv

theorem startsAt_iff {l : Link d e} {x : Connector} : l.StartsAt x ↔
    opens l.toArrow.1 = true ∧ spot (inserted d e) l.toArrow.1 = x := by
  cases l with
  | inl i => simp [Link.StartsAt, Link.toArrow, arrow, opens, spot]
  | inr j =>
    have hw : e.wires[j] ∈ e.wires := List.getElem_mem j.isLt
    have hout := (hdir _ hw).1
    simp only [Link.StartsAt, Link.toArrow, arrow, opens, spot]
    constructor
    · intro h
      obtain ⟨h0, -, hx⟩ := move_inserted hce h
      refine ⟨?_, hx⟩
      rw [h0]
      rfl
    · rintro ⟨h0, hx⟩
      have h0 : e.wires[j].source.isOn inputId = false := by simpa using h0
      have hp : Placed (d.withBoxes e.boxes.values) v (inserted d e) e.wires[j].source :=
        placed_inserted hcd hce hv (by simp [Table.values]) (hce.has_ends hw).1 h0 hout
      rw [hp.move_eq]
      exact congrArg _ hx

theorem endsAt_iff {l : Link d e} {y : Connector} : l.EndsAt y ↔
    closes l.toArrow.2 = true ∧ spot (inserted d e) l.toArrow.2 = y := by
  cases l with
  | inl i => simp [Link.EndsAt, Link.toArrow, arrow, closes, spot]
  | inr j =>
    have hw : e.wires[j] ∈ e.wires := List.getElem_mem j.isLt
    have hin := (hdir _ hw).2
    simp only [Link.EndsAt, Link.toArrow, arrow, closes, spot]
    constructor
    · intro h
      obtain ⟨-, h1, hy⟩ := move_inserted hce h
      refine ⟨?_, hy⟩
      rw [h1]
      rfl
    · rintro ⟨h1, hy⟩
      have h1 : e.wires[j].target.isOn outputId = false := by simpa using h1
      have hp : Placed (d.withBoxes e.boxes.values) v (inserted d e) e.wires[j].target :=
        placed_inserted hcd hce hv (by simp [Table.values]) (hce.has_ends hw).2 hin h1
      rw [hp.move_eq]
      exact congrArg _ hy

theorem threads_iff {x y : Connector} {c : List (Link d e)} : Threads d e v x y c ↔
    ∃ a b, Chain (meets v 0 1) Link.toArrow a b c ∧ stands (inserted d e) x y (a, b) = true := by
  have hjoin : c.IsChain (Link.Joins v) ↔ c.IsChain (Linked (meets v 0 1) Link.toArrow) := by
    rw [show Linked (meets v 0 1) Link.toArrow = Link.Joins (d := d) (e := e) v from
      funext fun l => funext fun m => propext linked_iff]
  simp only [stands, Bool.and_eq_true, decide_eq_true_eq]
  constructor
  · rintro ⟨hc, ⟨l, hl, hx⟩, ⟨m, hm, hy⟩⟩
    obtain ⟨ho, hx⟩ := (startsAt_iff hcd hce hdir hv).mp hx
    obtain ⟨hc', hy⟩ := (endsAt_iff hcd hce hdir hv).mp hy
    exact ⟨_, _, ⟨hjoin.mp hc, ⟨l, hl, rfl⟩, ⟨m, hm, rfl⟩⟩, ⟨⟨ho, hc'⟩, hx⟩, hy⟩
  · rintro ⟨_, _, ⟨hc, ⟨l, hl, rfl⟩, ⟨m, hm, rfl⟩⟩, ⟨⟨ho, hc'⟩, hx⟩, hy⟩
    exact ⟨hjoin.mpr hc, ⟨l, hl, (startsAt_iff hcd hce hdir hv).mpr ⟨ho, hx⟩⟩,
      ⟨m, hm, (endsAt_iff hcd hce hdir hv).mpr ⟨hc', hy⟩⟩⟩

theorem mem_spliced {x y : Connector} : ⟨x, y⟩ ∈ d.spliced e v ↔
    x.isOn v = false ∧ y.isOn v = false ∧ ∃ c, Threads d e v x y c := by
  have hwalk : (⟨x, y⟩ ∈ view (inserted d e) (d.walks e v)) ↔ ∃ c, Threads d e v x y c := by
    simp only [threads_iff hcd hce hdir hv]
    rw [view, Multiset.mem_map]
    constructor
    · rintro ⟨⟨a, b⟩, hab, heq⟩
      obtain ⟨hab, hopen⟩ := Multiset.mem_filter.mp hab
      rw [covers_walks d e v, ← arrows_toArrow, walk_iff_chain] at hab
      obtain ⟨c, hc⟩ := hab
      cases heq
      exact ⟨c, a, b, hc, by simpa [stands] using hopen⟩
    · rintro ⟨c, a, b, hc, hs⟩
      simp only [stands, Bool.and_eq_true, decide_eq_true_eq] at hs
      refine ⟨(a, b), Multiset.mem_filter.mpr ⟨?_, by simp [hs.1.1]⟩, by rw [hs.1.2, hs.2]⟩
      rw [covers_walks d e v, ← arrows_toArrow, walk_iff_chain]
      exact ⟨c, hc⟩
  rw [spliced, Multiset.mem_filter, hwalk]
  simp only [Bool.and_eq_true, Bool.not_eq_true']
  tauto

theorem count_spliced (hf : ∀ j, ¬ Relation.TransGen (Feeds d e v) j j) {x y : Connector}
    (hx : x.isOn v = false) (hy : y.isOn v = false) :
    {c | Threads d e v x y c}.Finite ∧
      (d.spliced e v).count ⟨x, y⟩ = {c | Threads d e v x y c}.ncard := by
  have hacyclic : ∀ l, ¬ Relation.TransGen (Linked (meets v 0 1) (Link.toArrow (d := d) (e := e))) l l := by
    rw [show Linked (meets v 0 1) Link.toArrow = Link.Joins (d := d) (e := e) v from
      funext fun l => funext fun m => propext linked_iff]
    exact joins_acyclic hf
  obtain ⟨start, finish, bound, hr⟩ := exists_ranked hacyclic
  have hsolve := solves_walks (arrows_toArrow ▸ hr)
  rw [← arrows_toArrow] at hsolve
  have hset : {c | Threads d e v x y c} = {c | ∃ a b, Chain (meets v 0 1) Link.toArrow a b c ∧
      stands (inserted d e) x y (a, b) = true} := by
    ext c
    exact threads_iff hcd hce hdir hv
  obtain ⟨hfin, hcount⟩ := hsolve.countP_eq hacyclic (stands (inserted d e) x y)
  rw [hset]
  refine ⟨hfin, ?_⟩
  rw [spliced, Multiset.count_filter_of_pos (by simp [hx, hy]), ← hcount, view, Multiset.count_map,
    Multiset.filter_filter, Multiset.countP_eq_card_filter]
  congr 1
  apply Multiset.filter_congr
  intro a _
  simp only [stands, Bool.and_eq_true, decide_eq_true_eq, Wire.mk.injEq]
  constructor
  · rintro ⟨⟨rfl, rfl⟩, h⟩
    exact ⟨⟨h, rfl⟩, rfl⟩
  · rintro ⟨⟨h, rfl⟩, rfl⟩
    exact ⟨⟨rfl, rfl⟩, h⟩

end Ends

end Links

/-- A diagram that no wire leaves by its output boundary or enters by its input boundary can be put in
the place of any box of another diagram. Then there is a wire from `x` to `y` just if a chain of links
runs from `x` to `y`, neither of them on the box that went; and where no inner wires feed each other in
a circle there are as many wires as chains. -/
theorem substitute_wires {s : Store} {host inner : Ref} {d e : Diagram} {v : Nat}
    (hd : s.diagram? host = some d) (he : s.diagram? inner = some e) (hne : inner ≠ host)
    (hcd : d.Consistent) (hce : e.Consistent) (hv : v ∈ d.boxes.keys) (hdir : e.Directed) :
    ∃ s' d', (Action.substitute host (.ofNat v) (.ref inner)).perform s = (.ok (), s') ∧
      s'.diagram? host = some d' ∧ s'.notes = s.notes ++ [.substituting v (inserted d e)] ∧
      d'.boxes.keys =
        d.boxes.keys.filter (fun u => !decide (u = v)) ++ List.range' d.next e.boxes.length ∧
      (∀ x y, ⟨x, y⟩ ∈ d'.wires ↔
        x.isOn v = false ∧ y.isOn v = false ∧ ∃ c, Threads d e v x y c) ∧
      ((∀ j, ¬ Relation.TransGen (Feeds d e v) j j) →
        ∀ x y, x.isOn v = false → y.isOn v = false → {c | Threads d e v x y c}.Finite ∧
          d'.wires.count ⟨x, y⟩ = {c | Threads d e v x y c}.ncard) := by
  obtain ⟨s', d', hrun, h⟩ := Action.substitute_spec hd he hne hcd hce hdir hv
  refine ⟨s', d', hrun, h.found, h.notes, h.keys, ?_, ?_⟩
  · intro x y
    rw [← Multiset.mem_coe, h.wires]
    exact mem_spliced hcd hce hdir hv
  · intro hf x y hx hy
    rw [← Multiset.coe_count, h.wires]
    exact count_spliced hcd hce hdir hv hf hx hy

def Diagram.looped : Diagram :=
  ((((new [] []).addBox (.atomic (.hom (.text "f") [] []))).link 0 2 (.ofPorts 0 0 2 1)).link 2 2
    (.ofPorts 2 1 2 0)).link 2 1 (.ofPorts 2 0 1 0)

def Diagram.parallel : Diagram :=
  ((new [] []).link 0 1 (.ofPorts 0 0 1 0)).link 0 1 (.ofPorts 0 1 1 1)

theorem Diagram.consistent_looped : looped.Consistent := by
  have h := (consistent_new [] []).addBox (.atomic (.hom (.text "f") [] []))
  refine ((h.link ?_ ?_ ?_).link ?_ ?_ ?_).link ?_ ?_ ?_ <;> decide

theorem Diagram.consistent_parallel : parallel.Consistent := by
  refine ((consistent_new [] []).link ?_ ?_ ?_).link ?_ ?_ ?_ <;> decide

/-- The wire that goes round the loop once. -/
theorem substitute_wires_looped :
    let s : Store := ⟨[.diagram looped, .diagram parallel], []⟩
    ∃ s' d', (Action.substitute 0 (.ofNat 2) (.ref 1)).perform s = (.ok (), s') ∧
      s'.diagram? 0 = some d' ∧
      (Wire.ofPorts 0 0 1 0 ∈ d'.wires ↔ ∃ c, Threads looped parallel 2 (Wire.ofPorts 0 0 1 0).source
        (Wire.ofPorts 0 0 1 0).target c) ∧
      d'.wires.count (.ofPorts 0 0 1 0) = {c | Threads looped parallel 2
        (Wire.ofPorts 0 0 1 0).source (Wire.ofPorts 0 0 1 0).target c}.ncard := by
  intro s
  have hdir : parallel.Directed := by
    unfold Diagram.Directed
    decide
  have hd : s.diagram? 0 = some looped := rfl
  have he : s.diagram? 1 = some parallel := rfl
  have hv : 2 ∈ looped.boxes.keys := by decide
  obtain ⟨s', d', hrun, hd', -, -, hmem, hcount⟩ := substitute_wires hd he (by decide)
    consistent_looped consistent_parallel hv hdir
  have hfeeds : ∀ j k, Feeds looped parallel 2 j k → k < j := by decide
  have hacyclic : ∀ j, ¬ Relation.TransGen (Feeds looped parallel 2) j j := by
    intro j hj
    have hlt : ∀ {k l}, Relation.TransGen (Feeds looped parallel 2) k l → l < k := by
      intro k l h
      induction h with
      | single h => exact hfeeds _ _ h
      | tail _ h ih => exact lt_trans (hfeeds _ _ h) ih
    exact lt_irrefl _ (hlt hj)
  refine ⟨s', d', hrun, hd', ?_, (hcount hacyclic _ _ rfl rfl).2⟩
  rw [show Wire.ofPorts 0 0 1 0 = ⟨(Wire.ofPorts 0 0 1 0).source, (Wire.ofPorts 0 0 1 0).target⟩ from rfl,
    hmem]
  exact ⟨fun h => h.2.2, fun h => ⟨rfl, rfl, h⟩⟩

end StringDiagram
