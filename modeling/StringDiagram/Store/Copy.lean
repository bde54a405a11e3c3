import StringDiagram.Store

/-! # Copies

A deep copy of an object gives a fresh reference to everything that can be reached from it, in the
order of the old references, so that it has the same sharing and the same cycles. -/
namespace StringDiagram.Store

def refsAt (s : Store) (r : Ref) : List Ref :=
  match s.objects[r]? with
  | some o => o.refs
  | none => []

def grow (s : Store) (seen : List Ref) : List Ref :=
  let targets := seen.flatMap s.refsAt
  (List.range s.objects.length).filter fun r => seen.contains r || targets.contains r

def closure (s : Store) : Nat → List Ref → List Ref
  | 0, seen => seen
  | n + 1, seen =>
    let next := s.grow seen
    if next.length = seen.length then seen else closure s n next

def reachable (s : Store) (r : Ref) : List Ref := s.closure s.objects.length [r]

def copyRef (s : Store) (rs : List Ref) (r : Ref) : Ref :=
  match rs.idxOf? r with
  | some i => s.objects.length + i
  | none => r

def copies (s : Store) (rs : List Ref) : List Object :=
  rs.filterMap fun r => s.objects[r]?.map (Object.rename (s.copyRef rs))

def copy (s : Store) (r : Ref) : Ref × Store :=
  let rs := s.reachable r
  (s.copyRef rs r, { s with objects := s.objects ++ s.copies rs })

end StringDiagram.Store
