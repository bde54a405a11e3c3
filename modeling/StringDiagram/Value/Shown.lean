import StringDiagram.Text.Quoted
import StringDiagram.Fault

/-! # The text of a value

A value is written plainly where it stands alone and quoted where it stands inside another. Only text,
rows, sides, generators and the objects of the store tell the two apart. What the store knows about a
reference is a parameter here. -/
namespace StringDiagram

inductive Form where
  | plain
  | quoted
deriving DecidableEq

structure ObjectTexts where
  text : Form → Ref → Except Fault String
  name : Ref → Except Fault String

def Side.label : Side → String
  | .input => "INPUT"
  | .output => "OUTPUT"

def Side.index : Side → Nat
  | .input => 0
  | .output => 1

def Palette.shown (p : Palette) : String :=
  let field := fun (label colour : String) => label ++ "=" ++ Text.Quoted.quote colour
  "Palette(" ++ String.intercalate ", " [field "background" p.background, field "box" p.box,
    field "nested_box" p.nestedBox, field "boundary" p.boundary, field "wire" p.wire,
    field "dark" p.dark, field "port_border" p.portBorder] ++ ")"

namespace Value

def commaSeparated (texts : List String) : String := String.intercalate ", " texts

mutual

def shown (o : ObjectTexts) : Form → Value → Except Fault String
  | _, .null => .ok "None"
  | _, .truth b => .ok (if b then "True" else "False")
  | _, .int n => .ok (toString n)
  | .plain, .text s => .ok s
  | .quoted, .text s => .ok (Text.Quoted.quote s)
  | _, .list vs => do
    let texts ← shownAll o .quoted vs
    return "[" ++ commaSeparated texts ++ "]"
  | _, .tuple vs => do
    match ← shownAll o .quoted vs with
    | [only] => return "(" ++ only ++ ",)"
    | texts => return "(" ++ commaSeparated texts ++ ")"
  | _, .object n => .ok n
  | _, .product vs => do
    match ← shownAll o .plain vs with
    | [] => return "I"
    | texts => return String.intercalate " @ " texts
  | .plain, .row vs => do
    let texts ← shownAll o .plain vs
    return "[" ++ commaSeparated texts ++ "]"
  | .quoted, .row vs => do
    let texts ← shownAll o .quoted vs
    return "WireTypes([" ++ commaSeparated texts ++ "])"
  | .plain, .side s => .ok ("ConnectorKind." ++ s.label)
  | .quoted, .side s => .ok ("<ConnectorKind." ++ s.label ++ ": " ++ toString s.index ++ ">")
  | _, .connector b k p => do
    let box ← shown o .plain b
    let kind ← shownName o k
    let port ← shown o .plain p
    return "Connector(" ++ box ++ ", " ++ kind ++ ", " ++ port ++ ")"
  | _, .wire s t => do
    let source ← shown o .plain s
    let target ← shown o .plain t
    return "Wire(" ++ source ++ " => " ++ target ++ ")"
  | form, .hom n ds cs => do
    let name ← shown o .plain n
    let dom ← shownAll o .plain ds
    let codom ← shownAll o .plain cs
    let text := name ++ ": " ++ commaSeparated dom ++ " -> " ++ commaSeparated codom
    match form with
    | .plain => return text
    | .quoted => return "Hom(" ++ text ++ ")"
  | _, .atomic e => do
    let expr ← shown o .quoted e
    return "AtomicBox(expr=" ++ expr ++ ")"
  | _, .palette p => .ok p.shown
  | form, .ref r => o.text form r
  | _, .operation v label => do
    let owner ← shown o .quoted v
    return "<bound method " ++ label ++ " of " ++ owner ++ ">"

def shownAll (o : ObjectTexts) : Form → List Value → Except Fault (List String)
  | _, [] => .ok []
  | form, v :: vs => do
    let text ← shown o form v
    let texts ← shownAll o form vs
    return text :: texts

def shownName (o : ObjectTexts) : Value → Except Fault String
  | .object n => .ok n
  | .side s => .ok s.label
  | .hom n _ _ => shown o .plain n
  | .atomic e => do
    let expr ← shown o .quoted e
    return "<bound method AtomicBox.name of AtomicBox(expr=" ++ expr ++ ")>"
  | .ref r => o.name r
  | .null | .truth _ | .int _ | .text _ | .list _ | .tuple _ | .product _ | .row _
  | .connector _ _ _ | .wire _ _ | .palette _ | .operation _ _ => .error .missingAttribute

end

end Value
end StringDiagram
