/-! # Text in markup

The five characters that mean something in markup are written as entities, and all others stand for
themselves. -/
namespace StringDiagram.Text.Markup

def entity : Char → List Char
  | '&' => "&amp;".toList
  | '<' => "&lt;".toList
  | '>' => "&gt;".toList
  | '"' => "&quot;".toList
  | '\'' => "&#x27;".toList
  | c => [c]

def encode (s : List Char) : List Char := s.flatMap entity

def escape (s : String) : String := String.ofList (encode s.toList)

end StringDiagram.Text.Markup
