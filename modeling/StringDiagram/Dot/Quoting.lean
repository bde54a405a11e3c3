/-! # Quoting in DOT

A text is written as it is when it is markup between angle brackets, or an identifier or numeral that
is no keyword. Any other text goes between quotation marks, and a mark inside it gets a backslash
unless one already escapes it. One newline at the end does not keep a text from being written as it
is. -/
namespace StringDiagram.Dot

def isMarkup : List Char → Bool
  | '<' :: cs => cs.getLast? == some '>' ||
    (cs.getLast? == some '\n' && cs.dropLast.getLast? == some '>')
  | _ => false

def isNameStart (c : Char) : Bool := c.isAlpha || c == '_'

def isName : List Char → Bool
  | [] => false
  | c :: cs => isNameStart c && cs.all fun c => isNameStart c || c.isDigit

def isUnsigned : List Char → Bool
  | '.' :: cs => !cs.isEmpty && cs.all Char.isDigit
  | cs => !(cs.takeWhile Char.isDigit).isEmpty && match cs.dropWhile Char.isDigit with
    | [] => true
    | '.' :: ds => ds.all Char.isDigit
    | _ => false

def isNumeral : List Char → Bool
  | '-' :: cs => isUnsigned cs
  | cs => isUnsigned cs

def keywords : List (List Char) :=
  ["node".toList, "edge".toList, "graph".toList, "digraph".toList, "subgraph".toList,
    "strict".toList]

def isIdentifier (s : List Char) : Bool :=
  let body := if s.getLast? == some '\n' then s.dropLast else s
  (isName body || isNumeral body) && !keywords.contains (s.map Char.toLower)

/-- Escapes the marks that no backslash escapes. The flag tells whether the backslashes right before
are odd in number. -/
def escapeMarks : Bool → List Char → List Char
  | _, [] => []
  | odd, '\\' :: cs => '\\' :: escapeMarks (!odd) cs
  | odd, '"' :: cs => (if odd then ['"'] else ['\\', '"']) ++ escapeMarks false cs
  | _, c :: cs => c :: escapeMarks false cs

def quote (s : List Char) : List Char :=
  if isMarkup s || isIdentifier s then s else '"' :: escapeMarks false s ++ ['"']

def splitColon (s : List Char) : List Char × List Char :=
  (s.takeWhile (· != ':'), (s.dropWhile (· != ':')).tail)

def edgeEnd (s : List Char) : List Char :=
  let (node, rest) := splitColon s
  if rest.isEmpty then quote node
  else
    let (port, compass) := splitColon rest
    quote node ++ ':' :: quote port ++ if compass.isEmpty then [] else ':' :: compass

end StringDiagram.Dot
