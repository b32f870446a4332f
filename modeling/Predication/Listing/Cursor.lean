import Predication.Listing.Blank

/-!
A cursor stands in a line of a listing and reads words off it. Blanks in front of a word are passed
over, and positions count bytes from the start of the line.
-/

set_option autoImplicit false
set_option relaxedAutoImplicit false

namespace Predication

/-- A place in a line: the number of bytes before it and the bytes after it. -/
structure Cursor where
  pos : Nat
  rest : List UInt8
  deriving Repr, DecidableEq

namespace Cursor

def isNameStart (c : UInt8) : Bool :=
  ('a'.toUInt8 ≤ c && c ≤ 'z'.toUInt8) || ('A'.toUInt8 ≤ c && c ≤ 'Z'.toUInt8) ||
    c == '_'.toUInt8 || c == '.'.toUInt8

def isDigit (c : UInt8) : Bool := '0'.toUInt8 ≤ c && c ≤ '9'.toUInt8

def isNameChar (c : UInt8) : Bool := isNameStart c || isDigit c

def asciiText (bytes : List UInt8) : String :=
  String.ofList (bytes.map (fun b => Char.ofNat b.toNat))

def asciiBytes (text : String) : List UInt8 := text.toList.map Char.toUInt8

def start (line : List UInt8) : Cursor := ⟨0, line⟩

def advance (c : Cursor) (n : Nat) : Cursor := ⟨c.pos + n, c.rest.drop n⟩

def skip (c : Cursor) : Cursor := c.advance (c.rest.takeWhile BlankSet.spaceTab.contains).length

def atEnd (c : Cursor) : Bool :=
  match c.skip.rest with
  | [] => true
  | a :: b :: _ => a == '/'.toUInt8 && b == '/'.toUInt8
  | [_] => false

def sees (c : Cursor) (ch : Char) : Bool := c.skip.rest.head? == some ch.toUInt8

def eat? (c : Cursor) (ch : Char) : Option Cursor :=
  if c.sees ch then some (c.skip.advance 1) else none

def keyword? (c : Cursor) (w : String) : Option Cursor :=
  let c := c.skip
  let word := asciiBytes w
  let after := c.rest.drop word.length
  if c.rest.take word.length == word && !after.head?.any isNameChar then
    some (c.advance word.length)
  else
    none

def name? (c : Cursor) : Option (String × Cursor) :=
  let c := c.skip
  let word := c.rest.takeWhile isNameChar
  if c.rest.head?.any isNameStart then
    some (asciiText word, c.advance word.length)
  else
    none

/-- Reads a register: a percent sign and a name, which may start with a digit. -/
def register? (c : Cursor) : Option (String × Cursor) :=
  if c.sees '%' then
    let c := c.skip.advance 1
    let word := c.rest.takeWhile isNameChar
    if word.isEmpty then none else some (asciiText word, c.advance word.length)
  else
    none

def digitsValue (digits : List UInt8) : Nat :=
  digits.foldl (fun n d => 10 * n + (d.toNat - '0'.toNat)) 0

/-- Reads a decimal number with an optional sign, and gives its text as well. -/
def number? (c : Cursor) : Option (Int × String × Cursor) :=
  let c := c.skip
  let negative := c.rest.head? == some '-'.toUInt8
  let sign := if negative then 1 else 0
  let digits := (c.rest.drop sign).takeWhile isDigit
  if digits.isEmpty then
    none
  else
    let value : Int := digitsValue digits
    let width := sign + digits.length
    some (if negative then -value else value, asciiText (c.rest.take width), c.advance width)

/-- Reads a label definition: a name and a colon. -/
def label? (c : Cursor) : Option (String × Cursor) := do
  let (name, c) ← c.name?
  return (name, ← c.eat? ':')

end Cursor

end Predication
