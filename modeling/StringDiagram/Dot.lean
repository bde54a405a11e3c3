import StringDiagram.Dot.Quoting

/-! # DOT documents

A document is a list of statements, one to a line. -/
namespace StringDiagram.Dot

abbrev Attributes := List (String × String)

inductive Statement where
  | graph (attributes : Attributes)
  | node (name : String) (attributes : Attributes)
  | edge (source target : String) (attributes : Attributes)
deriving DecidableEq

structure Document where
  name : String
  statements : List Statement
deriving DecidableEq

def quoteText (s : String) : String := String.ofList (quote s.toList)

def edgeEndText (s : String) : String := String.ofList (edgeEnd s.toList)

def Attributes.text (attributes : Attributes) : String :=
  String.intercalate " " (attributes.map fun a => quoteText a.1 ++ "=" ++ quoteText a.2)

def Statement.text : Statement → String
  | .graph attributes => "\t" ++ attributes.text ++ "\n"
  | .node name attributes => "\t" ++ quoteText name ++ " [" ++ attributes.text ++ "]\n"
  | .edge source target attributes =>
    "\t" ++ edgeEndText source ++ " -> " ++ edgeEndText target ++ " [" ++ attributes.text ++ "]\n"

def Document.text (d : Document) : String :=
  "digraph " ++ quoteText d.name ++ " \x7b\n" ++ String.join (d.statements.map Statement.text)
    ++ "\x7d\n"

end StringDiagram.Dot
