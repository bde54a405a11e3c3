import StringDiagram.Store
import StringDiagram.Value.Shown

/-! # The text of stored values

A diagram is written by the rows of its ports and the numbers of its boxes and wires. Its rows may
refer to older objects, so the depth of a text is bounded by the number of objects. -/
namespace StringDiagram

namespace Diagram

def nameWith (o : ObjectTexts) (d : Diagram) : Except Fault String := do
  let dom ← Value.shown o .plain (.row d.inputs)
  let codom ← Value.shown o .plain (.row d.outputs)
  return dom ++ " -> " ++ codom

def shownWith (o : ObjectTexts) (d : Diagram) : Except Fault String := do
  let name ← d.nameWith o
  return "WiringDiagram(" ++ name ++ ", boxes=" ++ toString d.boxes.length ++ ", wires="
    ++ toString d.wires.length ++ ")"

end Diagram

namespace Store

def objectTexts (s : Store) : Nat → ObjectTexts
  | 0 => ⟨fun _ _ => .error .endlessText, fun _ => .error .endlessText⟩
  | depth + 1 =>
    let text := fun (form : Form) (r : Ref) => match s.objects[r]? with
      | some (.diagram d) => d.shownWith (objectTexts s depth)
      | some (.expression e) => .ok (match form with
        | .plain => e.text
        | .quoted => "Expr(" ++ e.text ++ ")")
      | some (.block b) => .ok (match form with
        | .plain => b.text
        | .quoted => "Plain(" ++ b.text ++ ")")
      | some (.shape _) => .ok "Duck"
      | none => .error .missingAttribute
    let nameOperation := fun (owner : String) (r : Ref) => do
      let shown ← text .quoted r
      return "<bound method " ++ owner ++ ".name of " ++ shown ++ ">"
    { text := text
      name := fun r => match s.objects[r]? with
        | some (.diagram _) => nameOperation "WiringDiagram" r
        | some (.expression e) => match e.name with
          | some n => .ok n
          | none => .error .missingAttribute
        | some (.block _) => nameOperation "Box" r
        | some (.shape t) => match t.name with
          | some (some _) => nameOperation "Duck" r
          | some none => .ok "None"
          | none => .error .missingAttribute
        | none => .error .missingAttribute }

def texts (s : Store) : ObjectTexts := s.objectTexts (s.objects.length + 1)

def text (s : Store) (form : Form) (v : Value) : Except Fault String := v.shown s.texts form

def diagramName (s : Store) (d : Diagram) : Except Fault String := d.nameWith s.texts

end Store
end StringDiagram
