import Mathlib.Data.List.Forall2
import Mathlib.Data.List.Induction
import StringDiagram.Proofs.Store.Readings
import StringDiagram.Proofs.Store.Runs

/-! # Histories

A history is a list of edits of one diagram, some of which may be refused. A listing that is edited alike
gives the same answers, and it knows the order of the edges: each has its place since it last got its first
wire. An edge that loses a wire and keeps another keeps its place, and one that comes again comes last. -/
namespace StringDiagram

inductive Edit where
  | addBox (box : Value)
  | removeBox (box : Value)
  | addWire (wire : Value)
  | removeWire (wire : Value)
  | removeWires (src tgt : Value)
deriving DecidableEq, Inhabited

def Edit.on (r : Ref) : Edit → Action Value
  | .addBox box => do
    let n ← Action.addBox r box
    return .ofNat n
  | .removeBox box => Action.removeBox r box
  | .addWire wire => do
    Action.addWire r wire
    return .null
  | .removeWire wire => do
    Action.removeWire r wire
    return .null
  | .removeWires src tgt => do
    Action.removeWires r src tgt
    return .null

def Diagram.edit (s : Store) (d : Diagram) : Edit → Except Fault (Value × Diagram)
  | .addBox v => do
    let box ← s.asBox v
    return (.ofNat d.next, d.addBox box)
  | .removeBox v => d.removeBox v
  | .addWire v => do
    let d ← s.withWire d v
    return (.null, d)
  | .removeWire v => do
    let d ← s.withoutWire d v
    return (.null, d)
  | .removeWires src tgt => do
    let d ← d.removeWires src tgt
    return (.null, d)

def Listing.edit (s : Store) (l : Listing) : Edit → Except Fault (Value × Listing)
  | .addBox v => do
    let box ← s.asBox v
    return (.ofNat l.next, l.addBox box)
  | .removeBox v => l.removeBox v
  | .addWire v => do
    let w ← s.wireOf v
    let l ← l.addWire w
    return (.null, l)
  | .removeWire v => do
    let w ← s.wireOf v
    let l ← l.removeWire w
    return (.null, l)
  | .removeWires src tgt => do
    let l ← l.removeWires src tgt
    return (.null, l)

section Edits
variable {s : Store} {r : Ref} {d : Diagram}

/-- An edit that is refused leaves the store as it was, and any other changes this one diagram. -/
theorem perform_edit (hr : s.diagram? r = some d) (c : Edit) : (c.on r).perform s =
    match d.edit s c with
    | .ok (a, d') => (.ok a, s.withDiagram r d')
    | .error e => (.error e, s) := by
  cases c with
  | addBox v =>
    simp only [Edit.on, Diagram.edit, Action.addBox, Action.perform_bind, Action.perform_ask]
    cases s.asBox v with
    | error e => rfl
    | ok box =>
      simp only [Action.perform_insertBox hr]
      rfl
  | removeBox v =>
    simp only [Edit.on, Diagram.edit, Action.removeBox, Action.perform_bind, Action.perform_diagram hr,
      Action.perform_ofExcept]
    cases d.removeBox v <;> rfl
  | addWire v =>
    simp only [Edit.on, Diagram.edit, Action.addWire, Action.perform_bind, Action.perform_diagram hr,
      Action.perform_ask]
    cases s.withWire d v <;> rfl
  | removeWire v =>
    simp only [Edit.on, Diagram.edit, Action.removeWire, Action.perform_bind, Action.perform_diagram hr,
      Action.perform_ask]
    cases s.withoutWire d v <;> rfl
  | removeWires src tgt =>
    simp only [Edit.on, Diagram.edit, Action.removeWires, Action.perform_bind, Action.perform_diagram hr,
      Action.perform_ofExcept]
    cases d.removeWires src tgt <;> rfl

/-- What is no connector may be on something, but not on a box. -/
theorem boxOf_unnamed {v box : Value} (hv : v.connector? = none) (h : s.boxOf v = .ok box) :
    box.hashable = true ∧ box.boxId? = none := by
  cases v with
  | connector b k p => cases hv
  | palette p =>
    cases h
    exact ⟨rfl, rfl⟩
  | ref q =>
    simp only [Store.boxOf] at h
    split at h
    · cases h
      exact ⟨rfl, rfl⟩
    · cases h
  | _ => cases h

theorem boxOf_connector {v : Value} {c : Connector} (hv : v.connector? = some c) : s.boxOf v = .ok c.box := by
  cases v with
  | connector b k p =>
    cases hv
    rfl
  | _ => cases hv

theorem resolve_unnamed {α : Type} (t : Table Nat α) {v : Value} (h : v.hashable = true ∧ v.boxId? = none) :
    t.resolve v = .error (.missingKey v) := by
  rw [Table.resolve, if_pos h.1, h.2]

/-- A wire is read before it is added. One with an end on no box fails as a wire between boxes would. -/
theorem withWire_eq (s : Store) (d : Diagram) (v : Value) : s.withWire d v = s.wireOf v >>= d.addWire := by
  cases v with
  | wire a b =>
    simp only [Store.withWire, Store.wireOf, Store.endOf]
    cases ha : a.connector? <;> cases hb : b.connector?
    case some.some c c' =>
      rw [boxOf_connector ha, boxOf_connector hb]
      rfl
    case some.none c =>
      rw [boxOf_connector ha]
      cases ht : s.boxOf b with
      | error e => rfl
      | ok t =>
        change (d.succ.resolve c.box >>= fun _ => .error (.missingKey t)) = d.addWire ⟨c, ⟨t, .null, .null⟩⟩
        rw [Diagram.addWire, resolve_unnamed d.pred (boxOf_unnamed hb ht)]
        rfl
    all_goals
      cases hs : s.boxOf a with
      | error e => rfl
      | ok box =>
        cases ht : s.boxOf b with
        | error e => rfl
        | ok t =>
          change (d.succ.resolve box >>= fun _ => .error (.missingKey t)) = d.addWire ⟨⟨box, .null, .null⟩, _⟩
          rw [Diagram.addWire, resolve_unnamed d.succ (boxOf_unnamed ha hs)]
          rfl
  | _ => rfl

/-- A wire with an end that is on no box is not there to be removed. -/
theorem removeWire_unnamed {w : Wire} {v : Value}
    (h : w.source.box.boxId? = none ∨ w.target.box.boxId? = none) :
    Agree Eq (do
      let _ ← Diagram.edge? w.source.box w.target.box
      .error (.wireNotFound v)) (d.removeWire w) := by
  rw [Diagram.removeWire]
  rcases Listing.edge?_cases w.source.box w.target.box with ⟨he, -⟩ | ⟨-, ⟨e, -, hs, ht⟩ | ⟨he, -⟩⟩
  · rw [he]
    rfl
  · simp [hs, ht] at h
  · rw [he]
    rfl

theorem withoutWire_agree (s : Store) (d : Diagram) (v : Value) :
    Agree Eq (s.withoutWire d v) (s.wireOf v >>= d.removeWire) := by
  cases v with
  | wire a b =>
    simp only [Store.withoutWire, Store.wireOf, Store.endOf]
    cases ha : a.connector? <;> cases hb : b.connector?
    case some.some c c' =>
      rw [boxOf_connector ha, boxOf_connector hb]
      exact .refl
    all_goals
      rcases hs : s.boxOf a with e | box
      · rfl
      rcases ht : s.boxOf b with e | t
      · rfl
    · exact removeWire_unnamed (w := ⟨⟨box, .null, .null⟩, ⟨t, .null, .null⟩⟩) (.inl (boxOf_unnamed ha hs).2)
    · next c =>
      obtain rfl : c.box = t := Except.ok.inj ((boxOf_connector hb).symm.trans ht)
      exact removeWire_unnamed (w := ⟨⟨box, .null, .null⟩, c⟩) (.inl (boxOf_unnamed ha hs).2)
    · next c =>
      obtain rfl : c.box = box := Except.ok.inj ((boxOf_connector ha).symm.trans hs)
      exact removeWire_unnamed (w := ⟨c, ⟨t, .null, .null⟩⟩) (.inr (boxOf_unnamed hb ht).2)
  | _ => exact .refl

end Edits

/-- The rows stay. Edges may go, which does not change the order of the others, or one comes and is the last. -/
structure Diagram.Reworked (d d' : Diagram) : Prop where
  inputs : d'.inputs = d.inputs
  outputs : d'.outputs = d.outputs
  edges : d'.edges.keys.Sublist d.edges.keys ∨ ∃ e ∉ d.edges.keys, d'.edges.keys = d.edges.keys ++ [e]

namespace Diagram.Reworked
variable {s : Store} {d d' : Diagram}

theorem addWire {w : Wire} (h : d.addWire w = .ok d') : Reworked d d' := by
  obtain ⟨i, j, -, -, -, -, rfl⟩ := addWire_eq_ok.mp h
  refine ⟨rfl, rfl, ?_⟩
  rw [keys_link]
  split
  · exact .inl (.refl _)
  · next he => exact .inr ⟨_, he, rfl⟩

theorem removeEdge (d : Diagram) (e : Nat × Nat) : Reworked d (d.removeEdge e) := by
  refine ⟨rfl, rfl, .inl ?_⟩
  rw [keys_removeEdge]
  exact List.filter_sublist

theorem removeWire {w : Wire} (h : d.removeWire w = .ok d') : Reworked d d' := by
  obtain ⟨e, he, rfl | ⟨ws, -, -, rfl⟩⟩ := removeWire_cases h
  · exact removeEdge d e
  · exact ⟨rfl, rfl, .inl (by rw [withEdge, Table.keys_put_of_mem he])⟩

theorem removeBox {v box : Value} (h : d.removeBox v = .ok (box, d')) : Reworked d d' := by
  obtain ⟨n, -, -, rfl⟩ := removeBox_cases h
  exact ⟨rfl, rfl, .inl (List.filter_sublist.map _)⟩

theorem edit {c : Edit} {a : Value} (h : d.edit s c = .ok (a, d')) : Reworked d d' := by
  cases c with
  | addBox v =>
    obtain ⟨box, -, h'⟩ := bind_eq_ok.mp h
    cases h'
    exact ⟨rfl, rfl, .inl (.refl _)⟩
  | removeBox v => exact removeBox h
  | addWire v =>
    obtain ⟨e, he, h'⟩ := bind_eq_ok.mp h
    cases h'
    rw [withWire_eq] at he
    obtain ⟨w, -, hw⟩ := bind_eq_ok.mp he
    exact addWire hw
  | removeWire v =>
    obtain ⟨e, he, h'⟩ := bind_eq_ok.mp h
    cases h'
    obtain ⟨w, -, hw⟩ := bind_eq_ok.mp ((withoutWire_agree s d v).eq_ok he)
    exact removeWire hw
  | removeWires src tgt =>
    obtain ⟨e, he, h'⟩ := bind_eq_ok.mp h
    cases h'
    obtain ⟨e, rfl⟩ := removeWires_cases he
    exact removeEdge d e

end Diagram.Reworked

section Refinement
variable {s : Store} {r : Ref} {d₀ d : Diagram} {l : Listing}

/-- An edit of both gives the same answer, and the diagram still keeps to the listing. -/
theorem Listing.Kept.edit (hr : s.diagram? r = some d₀) (hi : d.inputs = d₀.inputs) (ho : d.outputs = d₀.outputs)
    (h : l.Kept d) (c : Edit) :
    Agree (fun x y => x.1 = y.1 ∧ Kept y.2 x.2) (d.edit (s.withDiagram r d) c) (l.edit s c) := by
  cases c with
  | addBox v =>
    refine (Store.asBox_agree hr hi ho v).bind fun box _ hbox => ?_
    rw [← hbox]
    exact ⟨congrArg Value.ofNat h.next, h.addBox box⟩
  | removeBox v => exact h.removeBox v
  | addWire v =>
    have hwire : Agree (fun d l => Kept l d) ((s.withDiagram r d).withWire d v) (s.wireOf v >>= l.addWire) := by
      rw [withWire_eq]
      exact (Store.wireOf_agree hr hi ho v).bind fun w _ hw => hw ▸ h.addWire w
    simp only [Listing.edit, ← bind_assoc]
    exact hwire.bind fun d' l' h' => ⟨rfl, h'⟩
  | removeWire v =>
    have hwire : Agree (fun d l => Kept l d) ((s.withDiagram r d).withoutWire d v) (s.wireOf v >>= l.removeWire) :=
      (withoutWire_agree _ d v).trans
        ((Store.wireOf_agree hr hi ho v).bind fun w _ hw => hw ▸ h.removeWire w)
    simp only [Listing.edit, ← bind_assoc]
    exact hwire.bind fun d' l' h' => ⟨rfl, h'⟩
  | removeWires src tgt => exact (h.removeWires src tgt).bind fun d' l' h' => ⟨rfl, h'⟩

end Refinement

def Store.history (s : Store) (r : Ref) (cs : List Edit) : List (Except Fault Value) × Store :=
  cs.foldl (fun h c =>
    let after := (c.on r).perform h.2
    (h.1 ++ [after.1], after.2)) ([], s)

/-- The answers to the edits of a history, and the listing after it. Arguments are read as they are in the store
at the start. -/
def Listing.history (s : Store) (cs : List Edit) : List (Except Fault Value) × Listing :=
  cs.foldl (fun h c => match h.2.edit s c with
    | .ok (a, l) => (h.1 ++ [.ok a], l)
    | .error e => (h.1 ++ [.error e], h.2)) ([], .new)

namespace Listing

/-- After the first `k` edits the edge had no wire, and it has had one ever since. -/
structure Opened (s : Store) (cs : List Edit) (e : Nat × Nat) (k : Nat) : Prop where
  lt : k < cs.length
  before : (history s (cs.take k)).2.on e = []
  since : ∀ j, k < j → j ≤ cs.length → (history s (cs.take j)).2.on e ≠ []

/-- The edges with wires, in the order in which they last got their first one. -/
structure Chronicle (s : Store) (cs : List Edit) (es : List (Nat × Nat)) : Prop where
  mem : ∀ e, e ∈ es ↔ (history s cs).2.on e ≠ []
  ordered : ∃ step : Nat × Nat → Nat, (∀ e ∈ es, Opened s cs e (step e)) ∧
    es.Pairwise fun e e' => step e < step e'

section Chronicles
variable {s : Store} {cs : List Edit} {c : Edit} {e : Nat × Nat} {es es' : List (Nat × Nat)}

/-- What was opened stays so while the edge has a wire. -/
theorem Opened.append {k : Nat} (h : Opened s cs e k) (hc : (history s (cs ++ [c])).2.on e ≠ []) :
    Opened s (cs ++ [c]) e k where
  lt := by
    have hlt := h.lt
    simp
    omega
  before := by
    rw [List.take_append_of_le_length (Nat.le_of_lt h.lt)]
    exact h.before
  since := by
    intro j hkj hj
    rcases Nat.lt_or_ge cs.length j with hlt | hle
    · rw [List.take_of_length_le (by simp; omega)]
      exact hc
    · rw [List.take_append_of_le_length hle]
      exact h.since j hkj hle

/-- An edge that had no wire before the last edit was opened by it. -/
theorem Opened.last (h : (history s cs).2.on e = []) (hc : (history s (cs ++ [c])).2.on e ≠ []) :
    Opened s (cs ++ [c]) e cs.length where
  lt := by simp
  before := by
    rw [List.take_append_of_le_length (Nat.le_refl _), List.take_length]
    exact h
  since := by
    intro j hlt hj
    rw [List.take_of_length_le (by simp; omega)]
    exact hc

theorem Chronicle.append (h : Chronicle s cs es) (hes : es'.Sublist es ∨ ∃ e ∉ es, es' = es ++ [e])
    (hmem : ∀ e, e ∈ es' ↔ (history s (cs ++ [c])).2.on e ≠ []) : Chronicle s (cs ++ [c]) es' := by
  obtain ⟨step, hopened, hordered⟩ := h.ordered
  rcases hes with hsub | ⟨e, he, rfl⟩
  · exact ⟨hmem, step, fun e he => (hopened e (hsub.mem he)).append ((hmem e).mp he), hordered.sublist hsub⟩
  · have hold : ∀ x ∈ es, Function.update step e cs.length x = step x := by
      rintro x hx
      refine Function.update_of_ne ?_ _ _
      rintro rfl
      exact he hx
    refine ⟨hmem, Function.update step e cs.length, fun x hx => ?_, ?_⟩
    · rcases List.mem_append.mp hx with hxes | hxe
      · rw [hold x hxes]
        exact (hopened x hxes).append ((hmem x).mp hx)
      · obtain rfl := List.mem_singleton.mp hxe
        rw [Function.update_self]
        exact .last (by simpa using mt (h.mem x).mpr he) ((hmem x).mp hx)
    · refine List.pairwise_append.mpr ⟨?_, List.pairwise_singleton .., fun x hx y hy => ?_⟩
      · exact hordered.imp_of_mem fun {x y} hx hy hxy => by rwa [hold x hx, hold y hy]
      · rw [hold x hx, List.mem_singleton.mp hy, Function.update_self]
        exact (hopened x hx).lt

end Chronicles
end Listing

namespace Store
variable {s : Store} {r : Ref} {d₀ : Diagram}

/-- The diagram after a history keeps to the listing after it, and its edges are in the order of the history. -/
structure Tells (s : Store) (r : Ref) (d₀ : Diagram) (cs : List Edit) (d : Diagram) : Prop where
  store : (s.history r cs).2 = s.withDiagram r d
  inputs : d.inputs = d₀.inputs
  outputs : d.outputs = d₀.outputs
  kept : (Listing.history s cs).2.Kept d
  answers : List.Forall₂ (Agree Eq) (s.history r cs).1 (Listing.history s cs).1
  chronicle : Listing.Chronicle s cs d.edges.keys

theorem tells_nil (hr : s.diagram? r = some d₀) (h : Listing.new.Kept d₀) : s.Tells r d₀ [] d₀ where
  store := by
    obtain ⟨hlt, hget⟩ := List.getElem?_eq_some_iff.mp (diagram?_eq_some.mp hr)
    rw [withDiagram, ← hget, List.set_getElem_self hlt]
    rfl
  inputs := rfl
  outputs := rfl
  kept := h
  answers := .nil
  chronicle := by
    have hnil : d₀.edges.keys = [] :=
      List.eq_nil_iff_forall_not_mem.mpr fun e he => h.mem_edges.mp he rfl
    exact ⟨fun e => h.mem_edges, fun _ => 0, fun e he => absurd rfl (h.mem_edges.mp he), hnil ▸ .nil⟩

theorem history_append (s : Store) (r : Ref) (cs : List Edit) (c : Edit) : s.history r (cs ++ [c]) =
    ((s.history r cs).1 ++ [((c.on r).perform (s.history r cs).2).1], ((c.on r).perform (s.history r cs).2).2) := by
  rw [history, List.foldl_concat]
  rfl

/-- One edit more. What both have in common before it, they have in common after it. -/
theorem Tells.append (hr : s.diagram? r = some d₀) {cs : List Edit} {d : Diagram} (h : s.Tells r d₀ cs d)
    (c : Edit) : ∃ d', s.Tells r d₀ (cs ++ [c]) d' := by
  have hagree := h.kept.edit hr h.inputs h.outputs c
  have hperform := perform_edit (diagram?_withDiagram hr d) c
  have hlisting : Listing.history s (cs ++ [c]) = match (Listing.history s cs).2.edit s c with
      | .ok (a, l) => ((Listing.history s cs).1 ++ [.ok a], l)
      | .error e => ((Listing.history s cs).1 ++ [.error e], (Listing.history s cs).2) := by
    rw [Listing.history, List.foldl_concat]
    rfl
  have hhistory := history_append s r cs c
  rw [h.store] at hhistory
  -- Either both are refused and nothing changes, or both go through; the other two cases do not agree.
  rcases hd : d.edit (s.withDiagram r d) c with e | ⟨a, d'⟩ <;>
    rcases hl : (Listing.history s cs).2.edit s c with e' | ⟨a', l'⟩ <;>
      rw [hd] at hagree hperform <;> rw [hl] at hagree hlisting <;> rw [hperform] at hhistory
  · refine ⟨d, ?_, h.inputs, h.outputs, ?_, ?_, ?_⟩
    · rw [hhistory]
    · rw [hlisting]
      exact h.kept
    · rw [hhistory, hlisting]
      exact List.rel_append h.answers (.cons hagree .nil)
    · refine h.chronicle.append (.inl (.refl _)) fun e => ?_
      rw [hlisting]
      exact h.kept.mem_edges
  · exact hagree.elim
  · exact hagree.elim
  · have hreworked := Diagram.Reworked.edit hd
    refine ⟨d', ?_, hreworked.inputs.trans h.inputs, hreworked.outputs.trans h.outputs, ?_, ?_, ?_⟩
    · rw [hhistory]
      exact withDiagram_withDiagram s r d d'
    · rw [hlisting]
      exact hagree.2
    · rw [hhistory, hlisting]
      exact List.rel_append h.answers (.cons hagree.1 .nil)
    · refine h.chronicle.append hreworked.edges fun e => ?_
      rw [hlisting]
      exact hagree.2.mem_edges

theorem exists_tells (hr : s.diagram? r = some d₀) (h : Listing.new.Kept d₀) (cs : List Edit) :
    ∃ d, s.Tells r d₀ cs d := by
  induction cs using List.reverseRecOn with
  | nil => exact ⟨d₀, tells_nil hr h⟩
  | append_singleton cs c ih =>
    obtain ⟨d, hd⟩ := ih
    exact hd.append hr c

end Store

namespace Listing

def live (l : Listing) : List Nat := Diagram.inputId :: Diagram.outputId :: l.boxes.map Prod.fst

def targets (es : List (Nat × Nat)) (v : Nat) : List Value :=
  (es.filter fun e => decide (e.1 = v)).map fun e => .ofNat e.2

def sources (es : List (Nat × Nat)) (v : Nat) : List Value :=
  (es.filter fun e => decide (e.2 = v)).map fun e => .ofNat e.1

/-- What the diagram answers, from the listing and the order of its edges. Neighbours may be named in any way. -/
structure Describes (l : Listing) (es : List (Nat × Nat)) (d : Diagram) : Prop where
  boxes : d.boxes = l.boxes
  between : ∀ src tgt, src ≠ .null → tgt ≠ .null → (src.hashable && tgt.hashable) = true →
    d.wiresBetween src tgt = .ok (l.wires.filter (between src tgt))
  count : d.wires.length = l.wires.length
  wires : d.wires = es.flatMap l.on
  graph : d.graph.map (fun e => (e.1, e.2.map Value.norm)) = l.live.map fun v => (v, targets es v)
  out : ∀ v n, v.boxId? = some n → n ∈ l.live →
    ∃ vs, d.outNeighbors v = .ok vs ∧ vs.map Value.norm = targets es n
  into : ∀ v n, v.boxId? = some n → n ∈ l.live →
    ∃ vs, d.inNeighbors v = .ok vs ∧ vs.map Value.norm = sources es n

theorem Kept.describes {l : Listing} {d : Diagram} (h : l.Kept d) : l.Describes d.edges.keys d := by
  have hlive : d.live = l.live := by
    rw [Diagram.live, h.boxes]
    rfl
  have htargets : ∀ v, (d.targets v).map .ofNat = targets d.edges.keys v := fun v => List.map_map
  have hsources : ∀ v, (d.sources v).map .ofNat = sources d.edges.keys v := fun v => List.map_map
  refine ⟨h.boxes, fun src tgt => h.wiresBetween_eq, h.wires_perm.length_eq, h.wires_eq, ?_,
    fun v n hv hn => ?_, fun v n hv hn => ?_⟩
  · rw [h.graph_eq, hlive]
    exact List.map_congr_left fun v _ => by rw [htargets]
  · rw [← htargets]
    exact h.outNeighbors_eq hv (hlive ▸ hn)
  · rw [← hsources]
    exact h.inNeighbors_eq hv (hlive ▸ hn)

end Listing

namespace Store

/-- A new diagram and an empty listing go through any history alike. Each edit gives the same answer on both
or is refused by both for the same kind of reason; then the boxes are the same, and so are the wires from one
box to another, in the same order. All wires come edge by edge, and so do the neighbours of each box, the edges
in the order in which each last got its first wire. -/
theorem history_tells {s₀ s : Store} {inputs outputs : Value} {r : Ref}
    (hnew : (Action.newDiagram inputs outputs).perform s₀ = (.ok r, s)) (cs : List Edit) :
    List.Forall₂ (Agree Eq) (s.history r cs).1 (Listing.history s cs).1 ∧
    ∃ d es, (s.history r cs).2.diagram? r = some d ∧ Listing.Chronicle s cs es ∧
      (Listing.history s cs).2.Describes es d := by
  obtain ⟨ins, outs, hr⟩ := diagram?_of_newDiagram hnew
  obtain ⟨d, hd⟩ := exists_tells hr (Listing.kept_new ins outs) cs
  refine ⟨hd.answers, d, d.edges.keys, ?_, hd.chronicle, hd.kept.describes⟩
  rw [hd.store]
  exact diagram?_withDiagram hr d

/-- An edge that loses its first wire keeps its place, and one that is emptied and comes back is the last. A
refusal changes nothing. -/
theorem history_tells_reopened :
    let wire := fun a i b j : Nat => Value.list [.list [.ofNat a, .ofNat i], .list [.ofNat b, .ofNat j]]
    let early : List Edit := [.addBox (.hom (.text "f") [] []), .addWire (wire 0 0 2 0), .addWire (wire 0 0 2 1),
      .addWire (wire 2 0 1 0), .removeWire (wire 0 0 2 0)]
    let late : List Edit := early ++ [.removeWire (wire 0 0 2 1), .addWire (wire 0 0 2 0), .removeBox (.int 1)]
    let s : Store := ⟨[.diagram (.new [] [])], []⟩
    (Action.newDiagram (.list []) (.list [])).perform .empty = (.ok 0, s) ∧
      (∃ d es, (s.history 0 early).2.diagram? 0 = some d ∧ (Listing.history s early).2.Describes es d ∧
        d.wires = [.ofPorts 0 0 2 1, .ofPorts 2 0 1 0]) ∧
      ∃ d es, (s.history 0 late).2.diagram? 0 = some d ∧ Listing.Chronicle s late es ∧
        (Listing.history s late).2.Describes es d ∧ d.wires = [.ofPorts 2 0 1 0, .ofPorts 0 0 2 0] := by
  intro wire early late s
  have hnew : (Action.newDiagram (.list []) (.list [])).perform .empty = (.ok 0, s) := rfl
  obtain ⟨-, d, es, hd, -, hdescribes⟩ := history_tells hnew early
  obtain ⟨-, d', es', hd', hchronicle, hdescribes'⟩ := history_tells hnew late
  have hwires : ((s.history 0 early).2.diagram? 0).map Diagram.wires =
      some [.ofPorts 0 0 2 1, .ofPorts 2 0 1 0] := by decide +kernel
  have hwires' : ((s.history 0 late).2.diagram? 0).map Diagram.wires =
      some [.ofPorts 2 0 1 0, .ofPorts 0 0 2 0] := by decide +kernel
  rw [hd] at hwires
  rw [hd'] at hwires'
  exact ⟨hnew, ⟨d, es, hd, hdescribes, Option.some.inj hwires⟩,
    d', es', hd', hchronicle, hdescribes', Option.some.inj hwires'⟩

end Store
end StringDiagram
