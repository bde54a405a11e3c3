import StringDiagram.Palette

/-! # Values

Diagrams are built from values that callers choose freely. A port may have any value as its type, a
connector may name its box and its port by any value, and only the operations that need more of a
value ask for it. Diagrams and the other objects with an identity are named by reference. -/
namespace StringDiagram

inductive Side where
  | input
  | output
deriving DecidableEq, Repr, Inhabited

abbrev Ref := Nat

inductive Value where
  | null
  | truth (b : Bool)
  | int (n : Int)
  | text (s : String)
  | list (elems : List Value)
  | tuple (elems : List Value)
  /-- A generating object, identified by its name. -/
  | object (name : String)
  /-- The monoidal product of its factors. -/
  | product (factors : List Value)
  /-- A row of port types. -/
  | row (types : List Value)
  | side (s : Side)
  | connector (box kind port : Value)
  | wire (source target : Value)
  /-- A generating morphism. -/
  | hom (name : Value) (dom codom : List Value)
  /-- A box without internal structure, around a morphism expression. -/
  | atomic (expr : Value)
  | palette (p : Palette)
  | ref (r : Ref)
  /-- An operation of `owner`, taken as a value of its own. -/
  | operation (owner : Value) (label : String)
deriving Inhabited

namespace Value

def ofNat (n : Nat) : Value := .int n

def number? : Value → Option Int
  | .int n => some n
  | .truth b => some b.toNat
  | _ => none

def boxId? (v : Value) : Option Nat := do
  let n ← v.number?
  if 0 ≤ n then some n.toNat else none

@[simp] theorem number?_int (n : Int) : (int n).number? = some n := rfl
@[simp] theorem number?_truth (b : Bool) : (truth b).number? = some (b.toNat : Int) := rfl
@[simp] theorem boxId?_ofNat (n : Nat) : (ofNat n).boxId? = some n := by simp [boxId?, ofNat]

mutual

def refs : Value → List Ref
  | .list vs | .tuple vs | .product vs | .row vs => refsAll vs
  | .connector b k p => refs b ++ refs k ++ refs p
  | .wire s t => refs s ++ refs t
  | .hom n ds cs => refs n ++ refsAll ds ++ refsAll cs
  | .atomic e => refs e
  | .ref r => [r]
  | .operation o _ => refs o
  | .null | .truth _ | .int _ | .text _ | .object _ | .side _ | .palette _ => []

def refsAll : List Value → List Ref
  | [] => []
  | v :: vs => refs v ++ refsAll vs

end

mutual

def rename (f : Ref → Ref) : Value → Value
  | .list vs => .list (renameAll f vs)
  | .tuple vs => .tuple (renameAll f vs)
  | .product vs => .product (renameAll f vs)
  | .row vs => .row (renameAll f vs)
  | .connector b k p => .connector (rename f b) (rename f k) (rename f p)
  | .wire s t => .wire (rename f s) (rename f t)
  | .hom n ds cs => .hom (rename f n) (renameAll f ds) (renameAll f cs)
  | .atomic e => .atomic (rename f e)
  | .ref r => .ref (f r)
  | .operation o l => .operation (rename f o) l
  | .null => .null
  | .truth b => .truth b
  | .int n => .int n
  | .text s => .text s
  | .object n => .object n
  | .side s => .side s
  | .palette p => .palette p

def renameAll (f : Ref → Ref) : List Value → List Value
  | [] => []
  | v :: vs => rename f v :: renameAll f vs

end

theorem refsAll_eq (vs : List Value) : refsAll vs = vs.flatMap refs := by
  induction vs with
  | nil => simp [refsAll]
  | cons v vs ih => simp [refsAll, ih]

theorem renameAll_eq (f : Ref → Ref) (vs : List Value) : renameAll f vs = vs.map (rename f) := by
  induction vs with
  | nil => simp [renameAll]
  | cons v vs ih => simp [renameAll, ih]

mutual

theorem rename_rename (f g : Ref → Ref) : ∀ v : Value, (v.rename f).rename g = v.rename (g ∘ f)
  | .list vs | .tuple vs | .product vs | .row vs => by simp only [rename, renameAll_renameAll f g vs]
  | .connector b k p => by
    simp only [rename, rename_rename f g b, rename_rename f g k, rename_rename f g p]
  | .wire s t => by simp only [rename, rename_rename f g s, rename_rename f g t]
  | .hom n ds cs => by
    simp only [rename, rename_rename f g n, renameAll_renameAll f g ds, renameAll_renameAll f g cs]
  | .atomic e => by simp only [rename, rename_rename f g e]
  | .operation o l => by simp only [rename, rename_rename f g o]
  | .ref _ | .null | .truth _ | .int _ | .text _ | .object _ | .side _ | .palette _ => rfl

theorem renameAll_renameAll (f g : Ref → Ref) :
    ∀ vs : List Value, renameAll g (renameAll f vs) = renameAll (g ∘ f) vs
  | [] => rfl
  | v :: vs => by simp only [renameAll, rename_rename f g v, renameAll_renameAll f g vs]

end

mutual

theorem refs_rename (f : Ref → Ref) : ∀ v : Value, (v.rename f).refs = v.refs.map f
  | .list vs | .tuple vs | .product vs | .row vs => by simp only [rename, refs, refsAll_renameAll f vs]
  | .connector b k p => by
    simp only [rename, refs, refs_rename f b, refs_rename f k, refs_rename f p, List.map_append]
  | .wire s t => by simp only [rename, refs, refs_rename f s, refs_rename f t, List.map_append]
  | .hom n ds cs => by
    simp only [rename, refs, refs_rename f n, refsAll_renameAll f ds, refsAll_renameAll f cs,
      List.map_append]
  | .atomic e => by simp only [rename, refs, refs_rename f e]
  | .operation o l => by simp only [rename, refs, refs_rename f o]
  | .ref _ | .null | .truth _ | .int _ | .text _ | .object _ | .side _ | .palette _ => rfl

theorem refsAll_renameAll (f : Ref → Ref) :
    ∀ vs : List Value, refsAll (renameAll f vs) = (refsAll vs).map f
  | [] => rfl
  | v :: vs => by
    simp only [renameAll, refsAll, refs_rename f v, refsAll_renameAll f vs, List.map_append]

end

mutual

theorem rename_eq_self (f : Ref → Ref) : ∀ v : Value, v.refs = [] → v.rename f = v
  | .list vs, h | .tuple vs, h | .product vs, h | .row vs, h => by
    simp only [rename, renameAll_eq_self f vs h]
  | .connector b k p, h => by
    simp only [refs, List.append_eq_nil_iff] at h
    simp only [rename, rename_eq_self f b h.1.1, rename_eq_self f k h.1.2, rename_eq_self f p h.2]
  | .wire s t, h => by
    simp only [refs, List.append_eq_nil_iff] at h
    simp only [rename, rename_eq_self f s h.1, rename_eq_self f t h.2]
  | .hom n ds cs, h => by
    simp only [refs, List.append_eq_nil_iff] at h
    simp only [rename, rename_eq_self f n h.1.1, renameAll_eq_self f ds h.1.2,
      renameAll_eq_self f cs h.2]
  | .atomic e, h => by simp only [rename, rename_eq_self f e h]
  | .operation o _, h => by simp only [rename, rename_eq_self f o h]
  | .ref _, h => by simp [refs] at h
  | .null, _ | .truth _, _ | .int _, _ | .text _, _ | .object _, _ | .side _, _ | .palette _, _ => rfl

theorem renameAll_eq_self (f : Ref → Ref) : ∀ vs : List Value, refsAll vs = [] → renameAll f vs = vs
  | [], _ => rfl
  | v :: vs, h => by
    simp only [refsAll, List.append_eq_nil_iff] at h
    simp only [renameAll, rename_eq_self f v h.1, renameAll_eq_self f vs h.2]

end

end Value
end StringDiagram
