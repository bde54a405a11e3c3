import StringDiagram.Value

/-! # Equality of values

Two values are the same when they are equal once every truth value is read as the number 0 or 1;
`same_iff` says so. Objects with an identity are the same only as themselves. A value that holds a
list anywhere cannot stand for a box, and `hashable` tells those apart. -/
namespace StringDiagram.Value

mutual

def beq : Value → Value → Bool
  | .null, w => match w with | .null => true | _ => false
  | .truth b, w => match w with | .truth c => b == c | _ => false
  | .int n, w => match w with | .int m => n == m | _ => false
  | .text s, w => match w with | .text t => s == t | _ => false
  | .list vs, w => match w with | .list ws => beqAll vs ws | _ => false
  | .tuple vs, w => match w with | .tuple ws => beqAll vs ws | _ => false
  | .object n, w => match w with | .object m => n == m | _ => false
  | .product vs, w => match w with | .product ws => beqAll vs ws | _ => false
  | .row vs, w => match w with | .row ws => beqAll vs ws | _ => false
  | .side s, w => match w with | .side t => s == t | _ => false
  | .connector b k p, w => match w with
    | .connector b' k' p' => beq b b' && beq k k' && beq p p'
    | _ => false
  | .wire s t, w => match w with | .wire s' t' => beq s s' && beq t t' | _ => false
  | .hom n ds cs, w => match w with
    | .hom n' ds' cs' => beq n n' && beqAll ds ds' && beqAll cs cs'
    | _ => false
  | .atomic e, w => match w with | .atomic e' => beq e e' | _ => false
  | .palette p, w => match w with | .palette q => p == q | _ => false
  | .ref r, w => match w with | .ref q => r == q | _ => false
  | .operation o l, w => match w with | .operation o' l' => beq o o' && l == l' | _ => false

def beqAll : List Value → List Value → Bool
  | [], ws => match ws with | [] => true | _ => false
  | v :: vs, ws => match ws with | w :: ws => beq v w && beqAll vs ws | [] => false

end

mutual

theorem beq_iff : ∀ v w : Value, beq v w = true ↔ v = w
  | .null, w => by cases w <;> simp [beq]
  | .truth _, w => by cases w <;> simp [beq]
  | .int _, w => by cases w <;> simp [beq]
  | .text _, w => by cases w <;> simp [beq]
  | .list vs, w => by cases w <;> simp [beq, beqAll_iff vs]
  | .tuple vs, w => by cases w <;> simp [beq, beqAll_iff vs]
  | .object _, w => by cases w <;> simp [beq]
  | .product vs, w => by cases w <;> simp [beq, beqAll_iff vs]
  | .row vs, w => by cases w <;> simp [beq, beqAll_iff vs]
  | .side _, w => by cases w <;> simp [beq]
  | .connector b k p, w => by
    cases w <;> simp [beq, beq_iff b, beq_iff k, beq_iff p, and_assoc]
  | .wire s t, w => by cases w <;> simp [beq, beq_iff s, beq_iff t]
  | .hom n ds cs, w => by
    cases w <;> simp [beq, beq_iff n, beqAll_iff ds, beqAll_iff cs, and_assoc]
  | .atomic e, w => by cases w <;> simp [beq, beq_iff e]
  | .palette _, w => by cases w <;> simp [beq]
  | .ref _, w => by cases w <;> simp [beq]
  | .operation o _, w => by cases w <;> simp [beq, beq_iff o]

theorem beqAll_iff : ∀ vs ws : List Value, beqAll vs ws = true ↔ vs = ws
  | [], ws => by cases ws <;> simp [beqAll]
  | v :: vs, ws => by cases ws <;> simp [beqAll, beq_iff v, beqAll_iff vs]

end

instance : DecidableEq Value := fun v w => decidable_of_iff _ (beq_iff v w)

mutual

/-- The value with every truth value in it read as a number. -/
def norm : Value → Value
  | .truth b => .int b.toNat
  | .list vs => .list (normAll vs)
  | .tuple vs => .tuple (normAll vs)
  | .product vs => .product (normAll vs)
  | .row vs => .row (normAll vs)
  | .connector b k p => .connector (norm b) (norm k) (norm p)
  | .wire s t => .wire (norm s) (norm t)
  | .hom n ds cs => .hom (norm n) (normAll ds) (normAll cs)
  | .atomic e => .atomic (norm e)
  | .operation o l => .operation (norm o) l
  | .null => .null
  | .int n => .int n
  | .text s => .text s
  | .object n => .object n
  | .side s => .side s
  | .palette p => .palette p
  | .ref r => .ref r

def normAll : List Value → List Value
  | [] => []
  | v :: vs => norm v :: normAll vs

end

def same (v w : Value) : Bool := v.norm == w.norm

mutual

def hashable : Value → Bool
  | .list _ => false
  | .tuple vs | .product vs | .row vs => hashableAll vs
  | .connector b k p => hashable b && hashable k && hashable p
  | .wire s t => hashable s && hashable t
  | .hom n ds cs => hashable n && hashableAll ds && hashableAll cs
  | .atomic e => hashable e
  | .null | .truth _ | .int _ | .text _ | .object _ | .side _ | .palette _ | .ref _
  | .operation _ _ => true

def hashableAll : List Value → Bool
  | [] => true
  | v :: vs => hashable v && hashableAll vs

end

theorem normAll_eq (vs : List Value) : normAll vs = vs.map norm := by
  induction vs with
  | nil => simp [normAll]
  | cons v vs ih => simp [normAll, ih]

theorem hashableAll_eq (vs : List Value) : hashableAll vs = vs.all hashable := by
  induction vs with
  | nil => simp [hashableAll]
  | cons v vs ih => simp [hashableAll, ih]

mutual

theorem norm_norm : ∀ v : Value, v.norm.norm = v.norm
  | .list vs | .tuple vs | .product vs | .row vs => by simp only [norm, normAll_normAll vs]
  | .connector b k p => by simp only [norm, norm_norm b, norm_norm k, norm_norm p]
  | .wire s t => by simp only [norm, norm_norm s, norm_norm t]
  | .hom n ds cs => by simp only [norm, norm_norm n, normAll_normAll ds, normAll_normAll cs]
  | .atomic e => by simp only [norm, norm_norm e]
  | .operation o l => by simp only [norm, norm_norm o]
  | .null | .truth _ | .int _ | .text _ | .object _ | .side _ | .palette _ | .ref _ => rfl

theorem normAll_normAll : ∀ vs : List Value, normAll (normAll vs) = normAll vs
  | [] => rfl
  | v :: vs => by simp only [normAll, norm_norm v, normAll_normAll vs]

end

theorem same_iff {v w : Value} : v.same w = true ↔ v.norm = w.norm := by simp [same]

@[simp] theorem same_refl (v : Value) : v.same v = true := by simp [same]

theorem same_symm {v w : Value} (h : v.same w = true) : w.same v = true :=
  same_iff.2 (same_iff.1 h).symm

theorem same_trans {u v w : Value} (h : u.same v = true) (h' : v.same w = true) :
    u.same w = true :=
  same_iff.2 ((same_iff.1 h).trans (same_iff.1 h'))

/-- A value that is the same as the number of a box stands for that box. -/
theorem boxId?_eq_some {v : Value} {n : Nat} : v.boxId? = some n ↔ v.same (.ofNat n) = true := by
  rw [same_iff]
  cases v with
  | int m =>
    simp only [boxId?, number?_int, ofNat, norm, int.injEq, Option.bind_eq_bind, Option.bind_some]
    split <;> simp <;> omega
  | truth b => cases b <;> simp [boxId?, ofNat, norm] <;> omega
  | _ => simp [boxId?, number?, norm, ofNat]

theorem same_ofNat (v : Value) (n : Nat) : v.same (.ofNat n) = decide (v.boxId? = some n) := by
  rw [Bool.eq_iff_iff, decide_eq_true_iff, boxId?_eq_some]

theorem boxId?_eq_of_same {v w : Value} (h : v.same w = true) : v.boxId? = w.boxId? := by
  rw [Option.ext_iff]
  intro n
  rw [boxId?_eq_some, boxId?_eq_some]
  exact ⟨fun hv => same_trans (same_symm h) hv, fun hw => same_trans h hw⟩

theorem boxId?_norm (v : Value) : v.norm.boxId? = v.boxId? := boxId?_eq_of_same (same_iff.mpr (norm_norm v))

theorem norm_of_boxId? {v : Value} {n : Nat} (h : v.boxId? = some n) : v.norm = .ofNat n :=
  same_iff.mp (boxId?_eq_some.mp h)

/-- A box is the same under all its names. -/
theorem same_of_boxId? (u : Value) {v : Value} {n : Nat} (h : v.boxId? = some n) :
    u.same v = u.same (.ofNat n) := by
  rw [same, same, norm_of_boxId? h]
  rfl

theorem hashable_of_boxId? {v : Value} {n : Nat} (h : v.boxId? = some n) : v.hashable = true := by
  cases v <;> simp_all [boxId?, number?, hashable]

/-- Only the boundary has a second spelling. -/
theorem eq_ofNat_of_boxId? {v : Value} {n : Nat} (h : v.boxId? = some n) (hn : 2 ≤ n) :
    v = .ofNat n := by
  have hs := same_iff.mp (boxId?_eq_some.mp h)
  cases v with
  | int m => simpa [norm, ofNat] using hs
  | truth b => cases b <;> simp [norm, ofNat] at hs <;> omega
  | _ => simp [boxId?, number?] at h

end StringDiagram.Value
