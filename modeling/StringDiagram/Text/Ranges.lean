/-! # Ranges of characters

A set of characters as closed ranges of code points. -/
namespace StringDiagram.Text

abbrev Ranges := List (Nat × Nat)

def Ranges.contains (rs : Ranges) (c : Char) : Bool := rs.any fun r => r.1 ≤ c.toNat && c.toNat ≤ r.2

end StringDiagram.Text
