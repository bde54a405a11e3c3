import Mathlib.Data.List.Basic
import StringDiagram.Category

/-! # Object expressions

An expression is made of generating objects by the operator and by products of any number of factors. A
product takes apart only the factors that it is given, and that is enough, since these hold no products any
more. So an expression stands for the row of its leaves, however it is bracketed: `build_spec`,
`products_denote_rows`. -/
namespace StringDiagram

inductive ObjectExpr where
  | object (name : String)
  | beside (a b : ObjectExpr)
  | product (factors : List ObjectExpr)

namespace ObjectExpr

mutual

def leaves : ObjectExpr → List String
  | .object n => [n]
  | .beside a b => leaves a ++ leaves b
  | .product es => leavesAll es

def leavesAll : List ObjectExpr → List String
  | [] => []
  | e :: es => leaves e ++ leavesAll es

end

mutual

def parts : ObjectExpr → List ObjectExpr
  | .object n => [.object n]
  | .beside a b => .beside a b :: (parts a ++ parts b)
  | .product es => .product es :: partsAll es

def partsAll : List ObjectExpr → List ObjectExpr
  | [] => []
  | e :: es => parts e ++ partsAll es

end

mutual

def build : ObjectExpr → Action Value
  | .object n => return .object n
  | .beside a b => do
    let x ← build a
    let y ← build b
    Action.product x y
  | .product es => return Value.productOf (← buildAll es)

def buildAll : List ObjectExpr → Action (List Value)
  | [] => return []
  | e :: es => do
    let v ← build e
    let vs ← buildAll es
    return v :: vs

end

def row (e : ObjectExpr) : List Value := e.leaves.map .object

def isProduct : ObjectExpr → Bool
  | .object _ => false
  | .beside _ _ | .product _ => true

def value : ObjectExpr → Value
  | .object n => .object n
  | e => .product e.row

variable {a b e : ObjectExpr} {es : List ObjectExpr}

theorem value_of_isProduct (h : e.isProduct = true) : e.value = .product e.row := by
  cases e with
  | object n => cases h
  | beside a b => rfl
  | product es => rfl

theorem leavesAll_eq (es : List ObjectExpr) : leavesAll es = es.flatMap leaves := by
  induction es with
  | nil => rfl
  | cons e es ih => rw [leavesAll, ih, List.flatMap_cons]

/-- One level of flattening is enough: the values of the factors have no products in them. -/
theorem productOf_values (es : List ObjectExpr) :
    Value.productOf (es.map value) = .product ((es.flatMap leaves).map .object) := by
  rw [Value.productOf, List.flatMap_map, List.map_flatMap]
  congr 1
  refine List.flatMap_congr fun e _ => ?_
  cases e with
  | object n => rfl
  | beside a b => rfl
  | product es => rfl

theorem product_values (a b : ObjectExpr) (s : Store) :
    (Action.product a.value b.value).perform s = (.ok (beside a b).value, s) := by
  have hflat := productOf_values [a, b]
  have hvalue : (beside a b).value = Value.productOf [a.value, b.value] := by
    simpa [value, row, leaves] using hflat.symm
  rw [hvalue]
  cases a <;> rfl

mutual

/-- Evaluation never fails, and changes nothing. -/
theorem build_spec (s : Store) : ∀ e : ObjectExpr, e.build.perform s = (.ok e.value, s)
  | .object n => rfl
  | .beside a b => by
    rw [build, Action.perform_bind, build_spec s a]
    dsimp only
    rw [Action.perform_bind, build_spec s b]
    exact product_values a b s
  | .product es => by
    rw [build, Action.perform_bind, buildAll_spec s es]
    dsimp only
    rw [Action.perform_pure, productOf_values, value, row, leaves, leavesAll_eq]
    exact nofun

theorem buildAll_spec (s : Store) : ∀ es : List ObjectExpr, (buildAll es).perform s = (.ok (es.map value), s)
  | [] => rfl
  | e :: es => by
    rw [buildAll, Action.perform_bind, build_spec s e]
    dsimp only
    rw [Action.perform_bind, buildAll_spec s es]
    rfl

end

theorem collect_value (s : Store) (e : ObjectExpr) : s.collect e.value = .ok e.row := by
  cases e <;> rfl

/-- A product has only generating objects for its factors. -/
theorem object_of_factor {fs : List Value} {f : Value} (h : e.value = .product fs) (hf : f ∈ fs) :
    ∃ n, f = .object n := by
  cases e with
  | object n => cases h
  | beside _ _ | product _ =>
    cases h
    obtain ⟨n, -, rfl⟩ := List.mem_map.mp hf
    exact ⟨n, rfl⟩

theorem shownAll_objects (o : ObjectTexts) (form : Form) (names : List String) :
    Value.shownAll o form (names.map .object) = .ok names := by
  induction names with
  | nil => rfl
  | cons n names ih =>
    rw [List.map_cons, Value.shownAll, ih, Value.shown]
    rfl

def productText : List String → String
  | [] => "I"
  | names => String.intercalate " @ " names

theorem text_product (s : Store) (form : Form) (names : List String) :
    s.text form (.product (names.map .object)) = .ok (productText names) := by
  rw [Store.text, Value.shown, shownAll_objects]
  cases names <;> rfl

theorem hashable_row (e : ObjectExpr) : (Value.product e.row).hashable = true := by
  rw [Value.hashable, Value.hashableAll_eq, List.all_eq_true]
  intro v hv
  obtain ⟨n, -, rfl⟩ := List.mem_map.mp hv
  rfl

/-- Equal values that can be in a set are one element of it. -/
theorem distinct_pair (s : Store) {v w : Value} (h : v.same w = true) (hv : v.hashable = true)
    (hw : w.hashable = true) : s.distinct (.tuple [v, w]) = .ok 1 := by
  have hall : [v, w].all Value.hashable = true := by simp [hv, hw]
  change (if [v, w].all Value.hashable then _ else _) = Except.ok 1
  rw [if_pos hall]
  simp [h]
  rfl

def pair {α : Type} (a b : ObjectExpr) (f : Value → Value → Action α) : Action α := do
  let x ← a.build
  let y ← b.build
  f x y

theorem perform_pair {α : Type} (a b : ObjectExpr) (f : Value → Value → Action α) (s : Store) :
    (a.pair b f).perform s = (f a.value b.value).perform s := by
  rw [pair, Action.perform_bind, build_spec s a]
  dsimp only
  rw [Action.perform_bind, build_spec s b]

end ObjectExpr

namespace Action

def rowOf (v : Value) : Action Value := return .row (← ask (·.collect v))

def homOf (name dom codom : Value) : Action Value := do
  let dom ← ask (·.collect dom)
  let codom ← ask (·.collect codom)
  return .hom name dom codom

theorem perform_newDiagram {s : Store} {v w : Value} {as bs : List Value} (h : s.collect v = .ok as)
    (h' : s.collect w = .ok bs) : (newDiagram v w).perform s =
      (.ok s.objects.length, { s with objects := s.objects ++ [.diagram (.new as bs)] }) := by
  rw [newDiagram, perform_bind, perform_ask, h]
  dsimp only
  rw [perform_bind, perform_ask, h']
  rfl

theorem perform_homOf {s : Store} {v w : Value} {as bs : List Value} (name : Value)
    (h : s.collect v = .ok as) (h' : s.collect w = .ok bs) :
    (homOf name v w).perform s = (.ok (.hom name as bs), s) := by
  rw [homOf, perform_bind, perform_ask, h]
  dsimp only
  rw [perform_bind, perform_ask, h']
  rfl

theorem perform_rowOf {s : Store} {v : Value} {as : List Value} (h : s.collect v = .ok as) :
    (rowOf v).perform s = (.ok (.row as), s) := by
  rw [rowOf, perform_bind, perform_ask, h]
  rfl

end Action

open ObjectExpr StringDiagram.Action

/-- An object expression stands for the row of its leaves: its factors hold no products, its bracketing is
not seen, and rows, morphisms and diagrams that are made of it have the leaves for their types. -/
theorem products_denote_rows (s : Store) :
    (∀ e : ObjectExpr, ∃ v, e.build.perform s = (.ok v, s) ∧ s.collect v = .ok e.row ∧
      ∀ p ∈ e.parts, ∃ w, p.build.perform s = (.ok w, s) ∧
        ∀ fs, w = .product fs → ∀ f ∈ fs, ∃ n, f = .object n) ∧
    (∀ a b : ObjectExpr, a.isProduct = true → b.isProduct = true → a.leaves = b.leaves →
      ∃ v w, a.build.perform s = (.ok v, s) ∧ b.build.perform s = (.ok w, s) ∧ v.same w = true ∧
        s.distinct (.tuple [v, w]) = .ok 1 ∧
        ∀ form, s.text form v = .ok (productText a.leaves) ∧ s.text form w = .ok (productText a.leaves)) ∧
    (∀ a b : ObjectExpr,
      (a.pair b fun x y => do rowOf (← Action.product x y)).perform s = (.ok (.row (a.row ++ b.row)), s) ∧
      (a.pair b fun x y => do Action.product (← rowOf x) (← rowOf y)).perform s = (.ok (.row (a.row ++ b.row)), s) ∧
      (a.pair b fun x y => do otimes (← rowOf x) (← rowOf y)).perform s = (.ok (.row (a.row ++ b.row)), s)) ∧
    (do rowOf (← (ObjectExpr.product []).build)).perform s = (.ok .unit, s) ∧
    ∀ a a' b b' : ObjectExpr, a.leaves = a'.leaves → b.leaves = b'.leaves → ∀ name, ∃ h r t,
      (a.pair b (homOf name)).perform s = (.ok h, s) ∧ (a'.pair b' (homOf name)).perform s = (.ok h, s) ∧
      s.exprPorts .input h = .ok a.row ∧ s.exprPorts .output h = .ok b.row ∧
      (a.pair b newDiagram).perform s = (.ok r, t) ∧ (a'.pair b' newDiagram).perform s = (.ok r, t) ∧
      t.ports .input (.ref r) = .ok (.list a.row) ∧ t.ports .output (.ref r) = .ok (.list b.row) := by
  have hrow : ∀ e : ObjectExpr, (rowOf e.value).perform s = (.ok (.row e.row), s) := fun e =>
    perform_rowOf (collect_value s e)
  have hrow_eq : ∀ {a b : ObjectExpr}, a.leaves = b.leaves → a.row = b.row := fun h => by rw [row, row, h]
  refine ⟨fun e => ⟨e.value, build_spec s e, collect_value s e, fun p _ => ⟨p.value, build_spec s p, ?_⟩⟩,
    fun a b ha hb hab => ?_, fun a b => ⟨?_, ?_, ?_⟩, ?_, fun a a' b b' ha hb name => ?_⟩
  · exact fun fs hfs f hf => object_of_factor hfs hf
  · have hva := value_of_isProduct ha
    have hvb : b.value = .product a.row := (value_of_isProduct hb).trans (by rw [hrow_eq hab])
    refine ⟨_, _, build_spec s a, build_spec s b, ?_, ?_, fun form => ?_⟩
    · rw [hva, hvb, Value.same_refl]
    · rw [hva, hvb]
      exact distinct_pair s (Value.same_refl _) (hashable_row a) (hashable_row a)
    · rw [hva, hvb]
      exact ⟨text_product s form a.leaves, text_product s form a.leaves⟩
  · rw [perform_pair, perform_bind, product_values]
    exact (hrow (.beside a b)).trans (by simp [row, leaves])
  · rw [perform_pair, perform_bind, hrow a]
    dsimp only
    rw [perform_bind, hrow b]
    rfl
  · rw [perform_pair, perform_bind, hrow a]
    dsimp only
    rw [perform_bind, hrow b]
    rfl
  · rfl
  · have ha' : s.collect a'.value = .ok a.row := (collect_value s a').trans (by rw [hrow_eq ha])
    have hb' : s.collect b'.value = .ok b.row := (collect_value s b').trans (by rw [hrow_eq hb])
    refine ⟨.hom name a.row b.row, s.objects.length,
      { s with objects := s.objects ++ [.diagram (.new a.row b.row)] }, ?_, ?_, rfl, rfl, ?_, ?_, ?_, ?_⟩
    · rw [perform_pair, perform_homOf name (collect_value s a) (collect_value s b)]
    · rw [perform_pair, perform_homOf name ha' hb']
    · rw [perform_pair, perform_newDiagram (collect_value s a) (collect_value s b)]
    · rw [perform_pair, perform_newDiagram ha' hb']
    · simp [Store.ports, Diagram.new]
    · simp [Store.ports, Diagram.new]

theorem products_denote_rows_bracketed :
    let a := ObjectExpr.beside (.beside (.object "A") (.object "B")) (.product [])
    let b := ObjectExpr.product [.object "A", .product [.product [], .object "B"]]
    (∃ v w, a.build.perform .empty = (.ok v, .empty) ∧ b.build.perform .empty = (.ok w, .empty) ∧
      v.same w = true ∧ Store.empty.distinct (.tuple [v, w]) = .ok 1) ∧
    ∃ h, (a.pair b (homOf (.text "f"))).perform .empty = (.ok h, .empty) ∧
      (b.pair a (homOf (.text "f"))).perform .empty = (.ok h, .empty) := by
  intro a b
  have hleaves : a.leaves = b.leaves := rfl
  obtain ⟨-, hequal, -, -, hbuilt⟩ := products_denote_rows .empty
  obtain ⟨v, w, hv, hw, hsame, hone, -⟩ := hequal a b rfl rfl hleaves
  obtain ⟨h, -, -, hh, hh', -⟩ := hbuilt a b b a hleaves hleaves.symm (.text "f")
  exact ⟨⟨v, w, hv, hw, hsame, hone⟩, h, hh, hh'⟩

end StringDiagram
