/-! # Searching in text

`find?` gives the place where a part of a text first occurs and `count` how often it occurs. Counted
occurrences do not overlap, and the empty part occurs before, between and after all characters. -/
namespace StringDiagram.Text.Search

def find? (part : List Char) : List Char → Option Nat
  | [] => if part.isEmpty then some 0 else none
  | c :: cs => if part.isPrefixOf (c :: cs) then some 0 else (find? part cs).map (· + 1)

def occurrences (part : List Char) : Nat → List Char → Nat
  | _, [] => 0
  | 0, c :: cs =>
    if part.isPrefixOf (c :: cs) then occurrences part (part.length - 1) cs + 1
    else occurrences part 0 cs
  | skip + 1, _ :: cs => occurrences part skip cs

def count (part s : List Char) : Nat :=
  if part.isEmpty then s.length + 1 else occurrences part 0 s

/-- What is found at a place begins with the part. -/
theorem isPrefixOf_drop_of_find? {part s : List Char} {i : Nat} (h : find? part s = some i) :
    part.isPrefixOf (s.drop i) = true := by
  induction s generalizing i with
  | nil =>
    simp only [find?] at h
    split at h
    · cases h
      simp_all
    · cases h
  | cons c cs ih =>
    simp only [find?] at h
    split at h
    · rename_i hp
      cases h
      exact hp
    · obtain ⟨j, hj, rfl⟩ := Option.map_eq_some_iff.1 h
      exact ih hj

end StringDiagram.Text.Search
