import StringDiagram.Value.Equality

/-! # Identity of values

Two values may be equal and yet be two things. Of some values there is one thing only, and objects
have an identity by their reference. For all others the origin decides: what is written down is a new
thing, what is made is the thing that was made, and what is taken out of another thing is known by
its value alone. -/
namespace StringDiagram

inductive Origin where
  | written
  | made (number : Nat)
  | taken
deriving DecidableEq, Repr

def Origin.agrees : Origin → Origin → Bool
  | .written, _ | _, .written => false
  | .made m, .made n => m == n
  | .taken, _ | _, .taken => true

namespace Value

/-- Whether all equal things are one thing: small numbers, texts of at most one character below 256,
and what has no parts. -/
def isUnique : Value → Bool
  | .null | .truth _ | .side _ | .palette _ | .ref _ | .tuple [] => true
  | .int n => -5 ≤ n && n ≤ 256
  | .text s => s.length ≤ 1 && s.toList.all (·.toNat < 256)
  | _ => false

def identical (v w : Value) (origin origin' : Origin) : Bool :=
  v == w && (v.isUnique || origin.agrees origin')

theorem identical_ref_iff {q r : Ref} {origin origin' : Origin} :
    identical (.ref q) (.ref r) origin origin' = true ↔ q = r := by
  simp [identical, isUnique]

theorem eq_of_identical {v w : Value} {origin origin' : Origin}
    (h : identical v w origin origin' = true) : v = w := by
  simp only [identical, Bool.and_eq_true, beq_iff_eq] at h
  exact h.1

end Value
end StringDiagram
