import Mathlib.Algebra.BigOperators.Group.Finset.Basic
import StringDiagram.Proofs.Diagram.Renamed
import StringDiagram.Proofs.Substitution.Renumbered

/-! # Layers

A diagram with diagrams among its boxes is a tree of diagrams, its layers. The wires of those that were
opened make one network, in which walks pass from layer to layer through the boundaries. What is left of
them is what starts and ends outside of the opened boxes. -/
namespace StringDiagram
open Diagram Network

/-- The boxes by which a nested diagram is found, the innermost first. -/
abbrev Path := List Nat

abbrev Site := Path × Connector

/-- A wire that ends at a box is continued from that port of the input boundary inside. A box is copied with
the layer around it, and once more when it is opened, so that ports with a reference no longer agree then. -/
def enters (a b : Site) : Bool :=
  match b.1 with
  | [] => false
  | u :: p => decide (a.1 = p) && b.2.isOn inputId && a.2.same (.input (.ofNat u) b.2.port) &&
    (p.isEmpty || b.2.port.refs.isEmpty)

def exits (a b : Site) : Bool :=
  match a.1 with
  | [] => false
  | u :: p => decide (b.1 = p) && a.2.isOn outputId && b.2.same (.output (.ofNat u) a.2.port) &&
    (p.isEmpty || a.2.port.refs.isEmpty)

def joins (a b : Site) : Bool := enters a b || exits a b

def layerArrows (D : Path → Diagram) (p : Path) : Multiset (Site × Site) :=
  (D p).wires.map fun w => ((p, w.source), (p, w.target))

def arrowsOf (D : Path → Diagram) (L : Finset Path) : Multiset (Site × Site) := ∑ p ∈ L, layerArrows D p

/-- Whether a connector is still there when the layers `L` are open: it is on a box that is not, or on the
boundary of the outermost layer. -/
def kept (L : Finset Path) (a : Site) : Bool :=
  match a.2.box.boxId? with
  | none => false
  | some n => if n ≤ outputId then a.1.isEmpty else decide (n :: a.1 ∉ L)

def numberAt (ν : Path → Nat) (p : Path) (n : Nat) : Nat := if n ≤ outputId then n else ν (n :: p)

def named (ν : Path → Nat) (φ : Path → Ref → Ref) (a : Site) : Connector :=
  (a.2.rename (φ a.1)).renumber (numberAt ν a.1)

structure Opened (D : Path → Diagram) (L : Finset Path) : Prop where
  root : [] ∈ L
  parent : ∀ {u p}, u :: p ∈ L → p ∈ L ∧ u ∈ (D p).boxes.keys
  consistent : ∀ p ∈ L, (D p).Consistent
  directed : ∀ p ∈ L, p ≠ [] → (D p).Directed

def border (D : Path → Diagram) (L : Finset Path) : Set Path :=
  {x | x ∉ L ∧ ∃ u p, x = u :: p ∧ p ∈ L ∧ u ∈ (D p).boxes.keys}

def remaining (L : Finset Path) (ν : Path → Nat) (φ : Path → Ref → Ref) (U : Multiset (Site × Site)) :
    Multiset Wire := outcome (kept L) (kept L) (named ν φ) U

def Diagram.Precedes (d : Diagram) (m n : Nat) : Prop := ∃ out, d.succ.get? m = some out ∧ n ∈ Table.keys out

def Diagram.Acyclic (d : Diagram) : Prop := ∀ n, ¬ Relation.TransGen d.Precedes n n

structure Shows (D : Path → Diagram) (L : Finset Path) (ν : Path → Nat) (φ : Path → Ref → Ref)
    (d : Diagram) : Prop where
  mem : ∀ U, Covers joins (arrowsOf D L) U → ∀ w, w ∈ d.wires ↔ w ∈ remaining L ν φ U
  eq : (∀ p ∈ L, (D p).Acyclic) → ∀ U, Covers joins (arrowsOf D L) U → Solves joins (arrowsOf D L) U →
    (d.wires : Multiset Wire) = remaining L ν φ U

theorem Diagram.acyclic_of_rank {d : Diagram} (τ : Nat → Nat)
    (h : ∀ e ∈ d.succ, ∀ n ∈ Table.keys e.2, τ e.1 < τ n) : d.Acyclic := by
  have hstep : ∀ {m n}, d.Precedes m n → τ m < τ n := fun ⟨out, hout, hn⟩ => h _ (Table.mem_of_get? hout) _ hn
  have hlt : ∀ {m n}, Relation.TransGen d.Precedes m n → τ m < τ n := by
    intro m n hmn
    induction hmn with
    | single hn => exact hstep hn
    | tail _ hn ih => exact ih.trans (hstep hn)
  exact fun n hn => Nat.lt_irrefl _ (hlt hn)

section Connectors
variable {c : Connector} {σ : Nat → Nat} {n : Nat}

theorem Connector.boxId?_renumber (h : c.box.boxId? = some n) : (c.renumber σ).box.boxId? = some (σ n) := by
  unfold renumber
  rw [h]
  dsimp only
  split
  · next hn => rw [hn, h]
  · exact Value.boxId?_ofNat (σ n)

theorem Connector.renumber_eq_withBox (h : c.box.boxId? = some n) (hn : 2 ≤ n) :
    c.renumber σ = c.withBox (.ofNat (σ n)) := by
  unfold renumber
  rw [h]
  dsimp only
  split
  · next heq => rw [heq, withBox, ← Value.eq_ofNat_of_boxId? h hn]
  · rfl

theorem Connector.kind_renumber (σ : Nat → Nat) (c : Connector) : (c.renumber σ).kind = c.kind := by
  unfold renumber
  split
  · split <;> rfl
  · rfl

theorem Connector.same_iff_isOn {k x : Value} : c.same ⟨.ofNat n, k, x⟩ = true ↔
    c.isOn n = true ∧ c.kind.same k = true ∧ c.port.same x = true := by
  rw [same_iff, isOn_iff, Value.boxId?_eq_some]

end Connectors

theorem mem_border_cons {D : Path → Diagram} {L : Finset Path} {u : Nat} {p : Path} :
    u :: p ∈ border D L ↔ u :: p ∉ L ∧ p ∈ L ∧ u ∈ (D p).boxes.keys := by
  refine and_congr_right fun _ => ⟨?_, fun h => ⟨u, p, rfl, h⟩⟩
  rintro ⟨n, q, he, h⟩
  obtain ⟨rfl, rfl⟩ := List.cons.inj he
  exact h

section Arrows
variable {D : Path → Diagram} {L : Finset Path} {a : Site × Site} {q : Path}

theorem mem_layerArrows : a ∈ layerArrows D q ↔ ∃ w ∈ (D q).wires, ((q, w.source), (q, w.target)) = a :=
  Multiset.mem_coe.trans List.mem_map

theorem mem_arrowsOf : a ∈ arrowsOf D L ↔
    ∃ p ∈ L, ∃ w ∈ (D p).wires, ((p, w.source), (p, w.target)) = a := by
  simp only [arrowsOf, Multiset.mem_sum, mem_layerArrows]

theorem arrowsOf_insert (hq : q ∉ L) : arrowsOf D (insert q L) = arrowsOf D L + layerArrows D q := by
  rw [arrowsOf, Finset.sum_insert hq, add_comm, ← arrowsOf]

def Opened.At (D : Path → Diagram) (L : Finset Path) (b : Nat) (a : Site) : Prop :=
  a.1 ∈ L ∧ (∃ w ∈ (D a.1).wires, w.source = a.2 ∨ w.target = a.2) ∧ (D a.1).Has a.2 ∧
    (a.1 ≠ [] → (D a.1).Inside b a.2)

theorem Opened.ends (ho : Opened D L) (ha : a ∈ arrowsOf D L) :
    Opened.At D L inputId a.1 ∧ Opened.At D L outputId a.2 := by
  obtain ⟨p, hp, w, hw, rfl⟩ := mem_arrowsOf.mp ha
  have hends := (ho.consistent p hp).has_ends hw
  have hin : p ≠ [] → _ := fun hne => inside_ends (ho.consistent p hp) (ho.directed p hp hne) hw
  exact ⟨⟨hp, ⟨w, hw, Or.inl rfl⟩, hends.1, fun h => (hin h).1⟩,
    ⟨hp, ⟨w, hw, Or.inr rfl⟩, hends.2, fun h => (hin h).2⟩⟩

theorem Opened.ends_of_covers (ho : Opened D L) {m : Site → Site → Bool} {U : Multiset (Site × Site)}
    (hU : Covers m (arrowsOf D L) U) (ha : a ∈ U) :
    Opened.At D L inputId a.1 ∧ Opened.At D L outputId a.2 := by
  have hw := (hU a.1 a.2).mp ha
  obtain ⟨y, hy⟩ := hw.first
  obtain ⟨x, hx⟩ := hw.last
  exact ⟨(ho.ends hy).1, (ho.ends hx).2⟩

end Arrows

end StringDiagram
