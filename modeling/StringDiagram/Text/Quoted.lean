import StringDiagram.Text.Unprintable

/-! # Quoted text

Text between quotation marks, as it is shown inside larger values. The marks are single unless the
text holds a single mark and no double one; a character without a printed form is written by its
code in two, four or eight digits. -/
namespace StringDiagram.Text.Quoted
open Unprintable

def hexDigit (n : Nat) : Char :=
  if n < 10 then Char.ofNat (48 + n) else Char.ofNat (87 + n)

def hex : Nat → Nat → List Char
  | 0, _ => []
  | width + 1, n => hex width (n / 16) ++ [hexDigit (n % 16)]

def code (n : Nat) : List Char :=
  if n < 0x100 then '\\' :: 'x' :: hex 2 n
  else if n < 0x10000 then '\\' :: 'u' :: hex 4 n
  else '\\' :: 'U' :: hex 8 n

def escape (mark c : Char) : List Char :=
  if c = mark ∨ c = '\\' then ['\\', c]
  else if c = '\n' then ['\\', 'n']
  else if c = '\r' then ['\\', 'r']
  else if c = '\t' then ['\\', 't']
  else if isPrintable c then [c]
  else code c.toNat

def mark (s : List Char) : Char :=
  if s.contains '\'' && !s.contains '"' then '"' else '\''

def encode (s : List Char) : List Char :=
  mark s :: s.flatMap (escape (mark s)) ++ [mark s]

def quote (s : String) : String := String.ofList (encode s.toList)

end StringDiagram.Text.Quoted
