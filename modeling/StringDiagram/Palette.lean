/-! # Palettes

The seven colours of a drawing, and the palettes that are known by name. -/
namespace StringDiagram

structure Palette where
  background : String
  box : String
  nestedBox : String
  boundary : String
  wire : String
  dark : String
  portBorder : String
deriving DecidableEq, Repr, Inhabited

namespace Palette

def standard : Palette where
  background := "white"
  box := "#ACCBF9"
  nestedBox := "#77CEEF"
  boundary := "#F4A261"
  wire := "#1CADE4"
  dark := "black"
  portBorder := "#1CADE4"

def notebook : Palette where
  background := "white"
  box := "#7952B3"
  nestedBox := "#7c55b4"
  boundary := "#00CFC1"
  wire := "#FFC107"
  dark := "#343A40"
  portBorder := "#ffd966"

def zx : Palette where
  background := "white"
  box := "#629DD1"
  nestedBox := "#a1eea1"
  boundary := "#FF8243"
  wire := "#297FD5"
  dark := "#112D4E"
  portBorder := "#E8A5A5"

def named : List (String × Palette) :=
  [("default", standard), ("nb", notebook), ("zx", zx)]

end Palette
end StringDiagram
