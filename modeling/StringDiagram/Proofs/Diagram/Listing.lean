import StringDiagram.Proofs.Diagram.Wires

/-! # A diagram as a list of wires

The tables of a diagram hold no more than a list of its boxes and one list of all its wires. A listing is
just that, and its changes walk through these lists: a wire is added at the end, the first that is the same
is taken out, and a box goes with all wires at it. A diagram keeps to a listing if it has the same boxes and,
on each edge, the wires of the listing that run there in the same order. Whatever is done to both, they give
the same answers, and the diagram keeps to the listing. -/
namespace StringDiagram
open Diagram

namespace Fault

inductive Kind where
  | boundaryRemoval
  | wireNotFound
  | portOutOfRange
  | incompatibleWire
  | key
  | value
  | type
  | attribute
  | index
  | side
  | endless
deriving DecidableEq

def kind : Fault → Kind
  | .boundaryRemoval _ => .boundaryRemoval
  | .wireNotFound _ => .wireNotFound
  | .portOutOfRange _ _ => .portOutOfRange
  | .incompatibleWire _ _ _ => .incompatibleWire
  | .missingKey _ => .key
  | .halfEdge | .badValue | .notInList _ => .value
  | .notABox _ | .notAConnector _ | .wrongType => .type
  | .missingAttribute => .attribute
  | .indexOutOfRange => .index
  | .unsupportedSide _ => .side
  | .endlessText => .endless

end Fault

/-- Both succeed, with answers in the relation, or both are refused for the same kind of reason. -/
def Agree {α β : Type} (R : α → β → Prop) : Except Fault α → Except Fault β → Prop
  | .ok a, .ok b => R a b
  | .error e, .error e' => e.kind = e'.kind
  | _, _ => False

namespace Agree
variable {α β γ δ : Type} {R : α → β → Prop} {Q : γ → δ → Prop} {x : Except Fault α} {y : Except Fault β}
  {f : α → Except Fault γ} {g : β → Except Fault δ}

theorem bind (h : Agree R x y) (hf : ∀ a b, R a b → Agree Q (f a) (g b)) : Agree Q (x >>= f) (y >>= g) := by
  cases x <;> cases y
  · exact h
  · exact h.elim
  · exact h.elim
  · exact hf _ _ h

theorem imp {Q : α → β → Prop} (h : Agree R x y) (hR : ∀ a b, R a b → Q a b) : Agree Q x y := by
  cases x <;> cases y
  · exact h
  · exact h.elim
  · exact h.elim
  · exact hR _ _ h

theorem refl {x : Except Fault α} : Agree Eq x x := by cases x <;> rfl

theorem eq_ok {x y : Except Fault α} (h : Agree Eq x y) {a : α} (hx : x = .ok a) : y = .ok a := by
  subst hx
  cases y with
  | error e => exact h.elim
  | ok b => exact congrArg Except.ok (Eq.symm h)

theorem trans {x y : Except Fault α} {z : Except Fault β} (h : Agree Eq x y) (h' : Agree R y z) :
    Agree R x z := by
  cases x <;> cases y <;> cases z
  all_goals first | exact h.elim | exact h'.elim | skip
  · exact Eq.trans h h'
  · exact Eq.symm h ▸ h'

end Agree

structure Listing where
  boxes : List (Nat × Value)
  next : Nat
  wires : List Wire
deriving DecidableEq

namespace Listing

def new : Listing := ⟨[], 2, []⟩

def between (src tgt : Value) (w : Wire) : Bool := w.source.box.same src && w.target.box.same tgt

def on (l : Listing) (e : Nat × Nat) : List Wire := l.wires.filter (between (.ofNat e.1) (.ofNat e.2))

def known (l : Listing) (v : Value) : Except Fault Unit :=
  if v.hashable then
    if isBoundary v || l.boxes.any (fun e => v.same (.ofNat e.1)) then .ok () else .error (.missingKey v)
  else .error .wrongType

def addBox (l : Listing) (box : Value) : Listing :=
  { l with boxes := l.boxes ++ [(l.next, box)], next := l.next + 1 }

def removeBox (l : Listing) (v : Value) : Except Fault (Value × Listing) :=
  if isBoundary v then .error (.boundaryRemoval v)
  else if v.hashable then
    match l.boxes.find? fun e => v.same (.ofNat e.1) with
    | some e => .ok (e.2, { l with
        boxes := l.boxes.filter fun e => !v.same (.ofNat e.1)
        wires := l.wires.filter fun w => !w.source.box.same v && !w.target.box.same v })
    | none => .error (.missingKey v)
  else .error .wrongType

def addWire (l : Listing) (w : Wire) : Except Fault Listing := do
  l.known w.source.box
  l.known w.target.box
  return { l with wires := l.wires ++ [w] }

def removeWire (l : Listing) (w : Wire) : Except Fault Listing :=
  if w.source.box.hashable && w.target.box.hashable then
    if l.wires.any (·.same w) then .ok { l with wires := l.wires.eraseP (·.same w) }
    else .error (.wireNotFound w.toValue)
  else .error .wrongType

def removeWires (l : Listing) (src tgt : Value) : Except Fault Listing :=
  if src.hashable && tgt.hashable then
    if l.wires.any (between src tgt) then .ok { l with wires := l.wires.filter fun w => !between src tgt w }
    else .error (.missingKey (.tuple [src, tgt]))
  else .error .wrongType

end Listing

def Spells (table : Table Nat (Table Nat Value)) : Prop :=
  ∀ e ∈ table, ∀ n ∈ e.2, n.2.boxId? = some n.1

namespace Spells
variable {table : Table Nat (Table Nat Value)}

theorem append (h : Spells table) (v : Nat) : Spells (table ++ [(v, [])]) := by
  intro e he
  rcases List.mem_append.mp he with he | he
  · exact h e he
  · rw [List.mem_singleton.mp he]
    exact fun n hn => absurd hn List.not_mem_nil

theorem adjust (h : Spells table) (s : Nat) {f : Table Nat Value → Table Nat Value}
    (hf : ∀ ns : Table Nat Value, (∀ n ∈ ns, n.2.boxId? = some n.1) → ∀ n ∈ f ns, n.2.boxId? = some n.1) :
    Spells (table.adjust s f) := by
  intro e he
  obtain ⟨e', he', rfl⟩ := List.mem_map.mp he
  split
  · exact hf _ (h e' he')
  · exact h e' he'

theorem remove (h : Spells table) (s x : Nat) : Spells (table.adjust s (·.remove x)) :=
  h.adjust s fun _ hns n hn => hns n (Table.mem_remove.mp hn).1

theorem putNew (h : Spells table) (s : Nat) {x : Nat} {y : Value} (hy : y.boxId? = some x) :
    Spells (table.adjust s (·.putNew x y)) := by
  refine h.adjust s fun ns hns n hn => ?_
  rw [Table.putNew] at hn
  split at hn
  · exact hns n hn
  · rcases List.mem_append.mp hn with hn | hn
    · exact hns n hn
    · rw [List.mem_singleton.mp hn]
      exact hy

theorem unlink (h : Spells table) (us : List Nat) (v : Nat) :
    Spells (us.foldl (fun t u => t.adjust u (·.remove v)) (table.remove v)) := by
  have hr : Spells (table.remove v) := fun e he => h e (Table.mem_remove.mp he).1
  generalize table.remove v = table' at hr
  induction us generalizing table' with
  | nil => exact hr
  | cons u us ih => exact ih _ (hr.remove u v)

end Spells

namespace Listing

/-- The diagram has the boxes of the listing, and on each edge its wires. The listing has no wire that is on
no edge, so that the edges have them all. -/
structure Kept (l : Listing) (d : Diagram) : Prop where
  consistent : d.Consistent
  boxes : d.boxes = l.boxes
  next : d.next = l.next
  wiresOn : ∀ e, d.wiresOn e = l.on e
  named : ∀ w ∈ l.wires, ∃ e, w ∈ l.on e
  out : Spells d.succ
  into : Spells d.pred

theorem kept_new (inputs outputs : List Value) : new.Kept (.new inputs outputs) where
  consistent := consistent_new inputs outputs
  boxes := rfl
  next := rfl
  wiresOn _ := rfl
  named := by simp [new]
  out := by simp [Spells, Diagram.new]
  into := by simp [Spells, Diagram.new]

theorem between_eq (e : Nat × Nat) (w : Wire) :
    between (.ofNat e.1) (.ofNat e.2) w = (w.source.isOn e.1 && w.target.isOn e.2) := by
  rw [between, Value.same_ofNat, Value.same_ofNat]
  rfl

theorem between_iff {e : Nat × Nat} {w : Wire} : between (.ofNat e.1) (.ofNat e.2) w = true ↔
    w.source.box.boxId? = some e.1 ∧ w.target.box.boxId? = some e.2 := by
  rw [between_eq, Bool.and_eq_true, Connector.isOn_iff, Connector.isOn_iff]

theorem mem_on {l : Listing} {e : Nat × Nat} {w : Wire} :
    w ∈ l.on e ↔ w ∈ l.wires ∧ w.source.box.boxId? = some e.1 ∧ w.target.box.boxId? = some e.2 := by
  rw [on, List.mem_filter, between_iff]

namespace Kept
variable {l : Listing} {d : Diagram}

theorem mem_edges (h : l.Kept d) {e : Nat × Nat} : e ∈ d.edges.keys ↔ l.on e ≠ [] := by
  rw [← h.wiresOn e, Diagram.wiresOn]
  constructor
  · intro he
    obtain ⟨ws, hws⟩ := Table.exists_get? he
    rw [hws]
    exact h.consistent.edge_nonempty e ws hws
  · intro hne
    by_contra he
    rw [Table.get?_eq_none.mpr he] at hne
    exact hne rfl

theorem named_live (h : l.Kept d) (v : Value) :
    (isBoundary v || l.boxes.any fun e => v.same (.ofNat e.1)) = true ↔ ∃ n ∈ d.live, v.boxId? = some n := by
  simp only [isBoundary, isInput, isOutput, Value.same_ofNat, Bool.or_eq_true, decide_eq_true_iff, List.any_eq_true, live,
    Table.keys, h.boxes, List.mem_cons, List.mem_map]
  constructor
  · rintro ((h0 | h1) | ⟨e, he, hv⟩)
    exacts [⟨_, .inl rfl, h0⟩, ⟨_, .inr (.inl rfl), h1⟩, ⟨_, .inr (.inr ⟨e, he, rfl⟩), hv⟩]
  · rintro ⟨n, rfl | rfl | ⟨e, he, rfl⟩, hv⟩
    exacts [.inl (.inl hv), .inl (.inr hv), .inr ⟨e, he, hv⟩]

/-- The tables of neighbours know the boundary and the boxes of the listing. -/
theorem known_eq (h : l.Kept d) {α : Type} {table : Table Nat α} (ht : table.keys = d.live) (v : Value) :
    l.known v = (table.resolve v >>= fun _ => .ok ()) := by
  rw [known, Table.resolve]
  split
  · by_cases hlive : (isBoundary v || l.boxes.any fun e => v.same (.ofNat e.1)) = true
    · obtain ⟨n, hn, hv⟩ := h.named_live v |>.mp hlive
      obtain ⟨a, ha⟩ := Table.exists_get? (ht ▸ hn)
      rw [if_pos hlive, hv]
      simp only [ha]
      rfl
    · rw [if_neg hlive]
      cases hv : v.boxId? with
      | none => rfl
      | some n =>
        have hnone : table.get? n = none :=
          Table.get?_eq_none.mpr fun hn => hlive ((h.named_live v).mpr ⟨n, ht ▸ hn, hv⟩)
        simp only [hnone]
        rfl
  · rfl

end Kept

theorem Kept.addBox {l : Listing} {d : Diagram} (h : l.Kept d) (box : Value) :
    (l.addBox box).Kept (d.addBox box) where
  consistent := h.consistent.addBox box
  boxes := by simp [Listing.addBox, Diagram.addBox, h.boxes, h.next]
  next := by simp [Listing.addBox, Diagram.addBox, h.next]
  wiresOn := h.wiresOn
  named := h.named
  out := h.out.append _
  into := h.into.append _

section Changes
variable {l : Listing} {d : Diagram}

theorem Kept.link (h : l.Kept d) {s t : Nat} {w : Wire} (hs : s ∈ d.live) (ht : t ∈ d.live)
    (hw : w.source.box.boxId? = some s ∧ w.target.box.boxId? = some t) :
    Kept { l with wires := l.wires ++ [w] } (d.link s t w) where
  consistent := h.consistent.link hs ht hw
  boxes := h.boxes
  next := h.next
  wiresOn e := by
    have hon : [w].filter (between (.ofNat e.1) (.ofNat e.2)) = if (s, t) = e then [w] else [] := by
      rw [List.filter_singleton, between_eq]
      simp [Connector.isOn, hw.1, hw.2, Prod.ext_iff]
    rw [wiresOn_link, h.wiresOn, on, on, List.filter_append, hon]
    split <;> simp
  named := by
    intro x hx
    rcases List.mem_append.mp hx with hx | hx
    · obtain ⟨e, he⟩ := h.named x hx
      exact ⟨e, mem_on.mpr ⟨List.mem_append_left _ hx, (mem_on.mp he).2⟩⟩
    · rw [List.mem_singleton.mp hx]
      exact ⟨(s, t), mem_on.mpr ⟨by simp, hw⟩⟩
  out := h.out.putNew _ hw.2
  into := h.into.putNew _ hw.1

theorem Kept.addWire (h : l.Kept d) (w : Wire) : Agree (fun d l => Kept l d) (d.addWire w) (l.addWire w) := by
  rw [Diagram.addWire, Listing.addWire, h.known_eq h.consistent.succ_keys, h.known_eq h.consistent.pred_keys]
  cases hs : d.succ.resolve w.source.box with
  | error e => rfl
  | ok out =>
    cases ht : d.pred.resolve w.target.box with
    | error e => rfl
    | ok into =>
      have hs := Table.resolve_eq_ok.mp hs
      have ht := Table.resolve_eq_ok.mp ht
      exact h.link (h.consistent.succ_keys ▸ Table.mem_keys_of_get? hs.2)
        (h.consistent.pred_keys ▸ Table.mem_keys_of_get? ht.2) ⟨hs.1, ht.1⟩

/-- Fewer wires, and those that are left where they were. -/
theorem Kept.named_of_mem (h : l.Kept d) {ws : List Wire} (hsub : ∀ w ∈ ws, w ∈ l.wires) :
    ∀ w ∈ ws, ∃ e, w ∈ on { l with wires := ws } e := by
  intro w hw
  obtain ⟨e, he⟩ := h.named w (hsub w hw)
  exact ⟨e, mem_on.mpr ⟨hw, (mem_on.mp he).2⟩⟩

theorem between_ne {e e' : Nat × Nat} {w : Wire} (h : between (.ofNat e.1) (.ofNat e.2) w = true)
    (h' : between (.ofNat e'.1) (.ofNat e'.2) w = true) : e = e' := by
  have h := between_iff.mp h
  have h' := between_iff.mp h'
  exact Prod.ext (Option.some.inj (h.1.symm.trans h'.1)) (Option.some.inj (h.2.symm.trans h'.2))

theorem Kept.removeEdge (h : l.Kept d) (e : Nat × Nat) :
    Kept { l with wires := l.wires.filter fun w => !between (.ofNat e.1) (.ofNat e.2) w } (d.removeEdge e) where
  consistent := h.consistent.removeEdge e
  boxes := h.boxes
  next := h.next
  wiresOn e' := by
    rw [wiresOn_removeEdge, h.wiresOn, on, on, List.filter_filter]
    split
    · next he =>
      rw [he]
      exact (List.filter_eq_nil_iff.mpr fun w _ => by simp).symm
    · next hne =>
      refine List.filter_congr fun w _ => ?_
      by_cases hw : between (.ofNat e'.1) (.ofNat e'.2) w = true
      · have hn : between (.ofNat e.1) (.ofNat e.2) w = false := by
          by_contra hb
          exact hne (between_ne (by simpa using hb) hw)
        rw [hw, hn]
        rfl
      · simp [hw]
  named := h.named_of_mem fun _ hw => (List.mem_filter.mp hw).1
  out := h.out.remove _ _
  into := h.into.remove _ _

theorem between_of_same {w x : Wire} (h : x.same w = true) (e : Nat × Nat) :
    between (.ofNat e.1) (.ofNat e.2) x = between (.ofNat e.1) (.ofNat e.2) w := by
  have hn : x.norm = w.norm := by simpa [Wire.same] using h
  rw [between_eq, between_eq, (Wire.isOn_eq_of_norm hn e.1).1, (Wire.isOn_eq_of_norm hn e.2).2]

theorem filter_eraseP_of_ne {α : Type} {p q : α → Bool} (hpq : ∀ a, p a = true → q a = false) (as : List α) :
    (as.eraseP p).filter q = as.filter q := by
  induction as with
  | nil => rfl
  | cons a as ih =>
    rw [List.eraseP_cons]
    cases hp : p a with
    | true => rw [cond_true, List.filter_cons, hpq a hp, if_neg (by simp)]
    | false => rw [cond_false, List.filter_cons, List.filter_cons, ih]

theorem same_between {e : Nat × Nat} {w : Wire} (hw : between (.ofNat e.1) (.ofNat e.2) w = true) (x : Wire) :
    (x.same w && between (.ofNat e.1) (.ofNat e.2) x) = x.same w := by
  by_cases hx : x.same w = true
  · rw [hx, between_of_same hx, hw]
    rfl
  · simp [hx]

/-- The first of the wires that are the same as `w`, all of which run along one edge, is taken out of both. -/
theorem on_eraseP {e : Nat × Nat} {w : Wire} (hw : between (.ofNat e.1) (.ofNat e.2) w = true) (e' : Nat × Nat) :
    on { l with wires := l.wires.eraseP (·.same w) } e' =
      if e = e' then (l.on e).eraseP (·.same w) else l.on e' := by
  split
  · next he => rw [← he, on, on, List.eraseP_filter, funext (same_between hw)]
  · next hne =>
    refine filter_eraseP_of_ne (fun x hx => ?_) l.wires
    rw [between_of_same hx]
    by_contra hb
    exact hne (between_ne hw (by simpa using hb))

theorem Kept.any_same (h : l.Kept d) {e : Nat × Nat} {w : Wire}
    (hw : between (.ofNat e.1) (.ofNat e.2) w = true) :
    (d.wiresOn e).any (·.same w) = l.wires.any (·.same w) := by
  rw [h.wiresOn, on, List.any_filter]
  refine congrArg (l.wires.any ·) (funext fun x => ?_)
  rw [Bool.and_comm, same_between hw]

theorem edge?_cases (src tgt : Value) :
    edge? src tgt = .error .wrongType ∧ (src.hashable && tgt.hashable) = false ∨
    (src.hashable && tgt.hashable) = true ∧
      ((∃ e, edge? src tgt = .ok (some e) ∧ src.boxId? = some e.1 ∧ tgt.boxId? = some e.2) ∨
        edge? src tgt = .ok none ∧ ¬∃ e : Nat × Nat, src.boxId? = some e.1 ∧ tgt.boxId? = some e.2) := by
  rw [edge?]
  split
  · next hh =>
    refine .inr ⟨hh, ?_⟩
    cases hs : src.boxId? with
    | none => exact .inr ⟨rfl, by simp⟩
    | some s =>
      cases ht : tgt.boxId? with
      | none => exact .inr ⟨rfl, by simp⟩
      | some t => exact .inl ⟨(s, t), rfl, rfl, rfl⟩
  · next hh => exact .inl ⟨rfl, by simpa using hh⟩

/-- The wires on the edge are the erased ones, whether the edge goes with its last wire or not. -/
theorem Kept.eraseWire (h : l.Kept d) {e : Nat × Nat} {w : Wire} {d' : Diagram} (hc : d'.Consistent)
    (hw : between (.ofNat e.1) (.ofNat e.2) w = true) (hb : d'.boxes = d.boxes) (hn : d'.next = d.next)
    (hon : ∀ e', d'.wiresOn e' = if e = e' then (d.wiresOn e).eraseP (·.same w) else d.wiresOn e')
    (hout : Spells d'.succ) (hinto : Spells d'.pred) :
    Kept { l with wires := l.wires.eraseP (·.same w) } d' where
  consistent := hc
  boxes := hb.trans h.boxes
  next := hn.trans h.next
  wiresOn e' := by rw [hon, on_eraseP hw, h.wiresOn, h.wiresOn]
  named := h.named_of_mem fun _ => List.mem_of_mem_eraseP
  out := hout
  into := hinto

theorem Kept.removeWire (h : l.Kept d) (w : Wire) :
    Agree (fun d l => Kept l d) (d.removeWire w) (l.removeWire w) := by
  rw [Diagram.removeWire, Listing.removeWire]
  rcases edge?_cases w.source.box w.target.box with ⟨he, hh⟩ | ⟨hh, ⟨e, he, hw⟩ | ⟨he, hw⟩⟩
  · rw [he, hh]
    rfl
  · have hw := between_iff.mpr hw
    rw [he, hh, if_pos rfl, ← h.any_same hw]
    change Agree _ (if (d.wiresOn e).any (·.same w) = true then _ else _) _
    split
    · next hany =>
      split
      · next hnil =>
        refine h.eraseWire (h.consistent.removeEdge e) hw rfl rfl (fun e' => ?_) (h.out.remove _ _)
          (h.into.remove _ _)
        rw [wiresOn_removeEdge, hnil]
      · next hrest =>
        have hmem : e ∈ d.edges.keys := by
          rw [h.mem_edges, ← h.wiresOn]
          exact fun hnil => by simp [hnil] at hany
        exact h.eraseWire (h.consistent.withEdge hmem hrest fun _ => List.mem_of_mem_eraseP) hw rfl rfl
          (wiresOn_withEdge d e · _) h.out h.into
    · rfl
  · have hany : l.wires.any (·.same w) = false := by
      rw [List.any_eq_false]
      intro x hx hsame
      obtain ⟨e, hxe⟩ := h.named x hx
      exact hw ⟨e, between_iff.mp (between_of_same hsame e ▸ (List.mem_filter.mp hxe).2)⟩
    rw [he, hh, hany]
    rfl

theorem between_of_boxId? {src tgt : Value} {e : Nat × Nat} (hs : src.boxId? = some e.1)
    (ht : tgt.boxId? = some e.2) : between src tgt = between (.ofNat e.1) (.ofNat e.2) := by
  funext w
  rw [between, between, Value.same_of_boxId? _ hs, Value.same_of_boxId? _ ht]

/-- No wire runs between what names no box. -/
theorem Kept.between_unnamed (h : l.Kept d) {src tgt : Value}
    (hn : ¬∃ e : Nat × Nat, src.boxId? = some e.1 ∧ tgt.boxId? = some e.2) :
    ∀ w ∈ l.wires, between src tgt w = false := by
  intro w hw
  by_contra hb
  have hb : w.source.box.same src = true ∧ w.target.box.same tgt = true := by
    simpa [between] using hb
  obtain ⟨e, he⟩ := h.named w hw
  have he := (mem_on.mp he).2
  exact hn ⟨e, Value.boxId?_eq_of_same hb.1 ▸ he.1, Value.boxId?_eq_of_same hb.2 ▸ he.2⟩

theorem Kept.removeWires (h : l.Kept d) (src tgt : Value) :
    Agree (fun d l => Kept l d) (d.removeWires src tgt) (l.removeWires src tgt) := by
  rw [Diagram.removeWires, Listing.removeWires]
  rcases edge?_cases src tgt with ⟨he, hh⟩ | ⟨hh, ⟨e, he, hs, ht⟩ | ⟨he, hn⟩⟩
  · rw [he, hh]
    rfl
  · have hany : (d.edges.get? e).isSome = l.wires.any (between src tgt) := by
      rw [Bool.eq_iff_iff, Table.get?_isSome, h.mem_edges, between_of_boxId? hs ht, on, List.any_eq_true, ne_eq,
        List.filter_eq_nil_iff]
      push Not
      rfl
    rw [he, hh, if_pos rfl, ← hany]
    change Agree _ (if (d.edges.get? e).isSome = true then _ else _) _
    split
    · rw [between_of_boxId? hs ht]
      exact h.removeEdge e
    · rfl
  · have hany : l.wires.any (between src tgt) = false :=
      List.any_eq_false.mpr fun w hw => by simp [h.between_unnamed hn w hw]
    rw [he, hh, hany]
    rfl

theorem Kept.without (h : l.Kept d) {n : Nat} (hn : n ∈ d.boxes.keys) :
    Kept { l with
      boxes := l.boxes.filter fun e => !decide (e.1 = n)
      wires := l.wires.filter fun w => !w.source.isOn n && !w.target.isOn n } (d.without n) where
  consistent := h.consistent.without hn
  boxes := congrArg (List.filter _) h.boxes
  next := h.next
  wiresOn e := by
    have hon : ∀ w : Wire, (between (.ofNat e.1) (.ofNat e.2) w && (!w.source.isOn n && !w.target.isOn n)) =
        (between (.ofNat e.1) (.ofNat e.2) w && !decide (e.1 = n) && !decide (e.2 = n)) := by
      intro w
      rw [between_eq]
      by_cases hs : w.source.box.boxId? = some e.1 <;> by_cases ht : w.target.box.boxId? = some e.2 <;>
        simp [Connector.isOn, hs, ht]
    rw [on, List.filter_filter]
    by_cases he : e.1 ≠ n ∧ e.2 ≠ n
    · rw [Diagram.wiresOn, get?_edges_without he.1 he.2, ← Diagram.wiresOn, h.wiresOn, on]
      refine List.filter_congr fun w _ => ?_
      rw [hon]
      simp [he.1, he.2]
    · have hout : e ∉ (d.without n).edges.keys := fun hmem => he (mem_edges_without.mp hmem).2
      rw [Diagram.wiresOn, Table.get?_eq_none.mpr hout]
      refine (List.filter_eq_nil_iff.mpr fun w _ => ?_).symm
      rw [hon]
      grind
  named := h.named_of_mem fun _ hw => (List.mem_filter.mp hw).1
  out := h.out.unlink _ _
  into := h.into.unlink _ _

theorem find?_named (t : Table Nat Value) {v : Value} {n : Nat} (hv : v.boxId? = some n) :
    t.find? (fun e => v.same (.ofNat e.1)) = (t.get? n).map (n, ·) := by
  induction t with
  | nil => rfl
  | cons e t ih =>
    rw [List.find?_cons, Table.get?_cons, Value.same_ofNat, hv]
    by_cases he : e.1 = n
    · subst he
      simp
    · simpa [he, Ne.symm he] using ih

theorem find?_unnamed (t : Table Nat Value) {v : Value} (hv : v.boxId? = none) :
    t.find? (fun e => v.same (.ofNat e.1)) = none := by
  refine List.find?_eq_none.mpr fun e _ => ?_
  simp [Value.same_ofNat, hv]

theorem Kept.removeBox (h : l.Kept d) (v : Value) :
    Agree (fun x y => x.1 = y.1 ∧ Kept y.2 x.2) (d.removeBox v) (l.removeBox v) := by
  by_cases hb : isBoundary v = true
  · rw [Diagram.removeBox, Listing.removeBox, if_pos hb, if_pos hb]
    rfl
  by_cases hh : v.hashable = true
  · rw [Listing.removeBox, if_neg hb, if_pos hh]
    cases hv : v.boxId? with
    | none =>
      rw [Diagram.removeBox, if_neg hb, Table.resolve, if_pos hh, hv, find?_unnamed _ hv]
      rfl
    | some n =>
      rw [find?_named _ hv, ← h.boxes]
      cases hg : d.boxes.get? n with
      | none =>
        rw [Diagram.removeBox, if_neg hb, Table.resolve, if_pos hh, hv]
        simp only [hg]
        rfl
      | some box =>
        have hon : ∀ c : Connector, c.box.same v = c.isOn n := by
          intro c
          rw [Value.same_of_boxId? _ hv, Value.same_ofNat]
          rfl
        have hid : ∀ e : Nat × Value, v.same (.ofNat e.1) = decide (e.1 = n) := by
          intro e
          rw [Value.same_ofNat, hv]
          simp [eq_comm]
        rw [h.consistent.removeBox_eq_ok.mpr ⟨n, hv, hg, rfl⟩]
        simp only [Option.map_some, hon, hid]
        rw [h.boxes]
        exact ⟨rfl, h.without (Table.mem_keys_of_get? hg)⟩
  · rw [Diagram.removeBox, Listing.removeBox, if_neg hb, if_neg hb, if_neg hh, Table.resolve, if_neg hh]
    rfl

/-- The wires from one box to another are those of the listing, in its order. -/
theorem Kept.wiresBetween_eq (h : l.Kept d) {src tgt : Value} (hs : src ≠ .null) (ht : tgt ≠ .null)
    (hh : (src.hashable && tgt.hashable) = true) :
    d.wiresBetween src tgt = .ok (l.wires.filter (between src tgt)) := by
  unfold wiresBetween
  split
  · exact absurd rfl hs
  · exact absurd rfl hs
  · exact absurd rfl ht
  · rcases edge?_cases src tgt with ⟨-, hn⟩ | ⟨-, ⟨e, he, hse, hte⟩ | ⟨he, hn⟩⟩
    · rw [hn] at hh
      cases hh
    · rw [he, between_of_boxId? hse hte]
      exact congrArg Except.ok (h.wiresOn e)
    · rw [he, List.filter_eq_nil_iff.mpr fun w hw => by simp [h.between_unnamed hn w hw]]
      rfl

theorem Kept.wires_eq (h : l.Kept d) : d.wires = d.edges.keys.flatMap l.on := by
  rw [wires_eq_flatMap h.consistent]
  exact List.flatMap_congr fun e _ => h.wiresOn e

/-- A list is put together again from its parts, if no element is in two of them. -/
theorem flatMap_filter_perm {κ α : Type} {q : κ → α → Bool} {ks : List κ} (hks : ks.Nodup)
    (hq : ∀ k k' a, q k a = true → q k' a = true → k = k') (as : List α) :
    (ks.flatMap fun k => as.filter (q k)).Perm (as.filter fun a => ks.any (q · a)) := by
  induction ks with
  | nil => simp
  | cons k ks ih =>
    obtain ⟨hk, hks⟩ := List.nodup_cons.mp hks
    have hapart : ∀ a, (!q k a && (q k a || ks.any (q · a))) = ks.any (q · a) := by
      intro a
      cases hka : q k a with
      | false => rfl
      | true =>
        refine (List.any_eq_false.mpr fun k' hk' hka' => ?_).symm
        exact hk (hq k k' a hka hka' ▸ hk')
    have hfirst : ∀ a, (q k a && (q k a || ks.any (q · a))) = q k a := fun a => by cases q k a <;> rfl
    have hparts := List.filter_append_perm (q k) (as.filter fun a => q k a || ks.any (q · a))
    rw [List.filter_filter, List.filter_filter] at hparts
    simp only [hapart, hfirst] at hparts
    rw [List.flatMap_cons]
    exact (List.Perm.append_left _ (ih hks)).trans hparts

theorem Kept.wires_perm (h : l.Kept d) : d.wires.Perm l.wires := by
  rw [h.wires_eq]
  refine (flatMap_filter_perm (q := fun e => between (.ofNat e.1) (.ofNat e.2)) h.consistent.edges_nodup
    (fun e e' w => between_ne) l.wires).trans ?_
  rw [List.filter_eq_self.mpr fun w hw => ?_]
  obtain ⟨e, he⟩ := h.named w hw
  exact List.any_eq_true.mpr ⟨e, h.mem_edges.mpr (List.ne_nil_of_mem he), (List.mem_filter.mp he).2⟩

theorem Spells.values_map_norm {ns : Table Nat Value} (h : ∀ n ∈ ns, n.2.boxId? = some n.1) :
    ns.values.map Value.norm = ns.keys.map .ofNat := by
  rw [Table.values, Table.keys, List.map_map, List.map_map]
  exact List.map_congr_left fun n hn => Value.norm_of_boxId? (h n hn)

theorem Kept.outNeighbors_eq (h : l.Kept d) {v : Value} {s : Nat} (hv : v.boxId? = some s) (hs : s ∈ d.live) :
    ∃ vs, d.outNeighbors v = .ok vs ∧ vs.map Value.norm = (d.targets s).map .ofNat := by
  obtain ⟨out, hout, hk⟩ := h.consistent.exists_out hs
  refine ⟨out.values, ?_, ?_⟩
  · rw [outNeighbors, Table.resolve_eq_ok.mpr ⟨hv, hout⟩]
    rfl
  · rw [Spells.values_map_norm (h.out _ (Table.mem_of_get? hout)), hk]

theorem Kept.inNeighbors_eq (h : l.Kept d) {v : Value} {t : Nat} (hv : v.boxId? = some t) (ht : t ∈ d.live) :
    ∃ vs, d.inNeighbors v = .ok vs ∧ vs.map Value.norm = (d.sources t).map .ofNat := by
  obtain ⟨into, hinto, hk⟩ := h.consistent.exists_into ht
  refine ⟨into.values, ?_, ?_⟩
  · rw [inNeighbors, Table.resolve_eq_ok.mpr ⟨hv, hinto⟩]
    rfl
  · rw [Spells.values_map_norm (h.into _ (Table.mem_of_get? hinto)), hk]

theorem Kept.graph_eq (h : l.Kept d) :
    d.graph.map (fun e => (e.1, e.2.map Value.norm)) = d.live.map fun s => (s, (d.targets s).map .ofNat) := by
  rw [← h.consistent.succ_keys, graph, Table.keys, List.map_map, List.map_map]
  refine List.map_congr_left fun e he => ?_
  have hget := Table.get?_of_mem (h.consistent.succ_keys ▸ h.consistent.live_nodup) he
  simp only [Function.comp_apply]
  rw [Spells.values_map_norm (h.out e he), h.consistent.out _ _ hget]

end Changes

end Listing
end StringDiagram
