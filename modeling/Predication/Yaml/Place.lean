/-!
Places in a YAML text. A place knows its line and its column, both counted from zero, and the number
of characters before it.
-/

set_option autoImplicit false
set_option relaxedAutoImplicit false

namespace Predication.Yaml

def isBlank (c : Char) : Bool := c == ' ' || c == '\t'

def isBreak (c : Char) : Bool :=
  c == '\n' || c == '\r' || c == '\u0085' || c == '\u2028' || c == '\u2029'

def endsLine (cs : List Char) : Bool := cs.head?.all isBreak

def endsWord (cs : List Char) : Bool := cs.head?.all fun c => isBlank c || isBreak c

def isNameChar (c : Char) : Bool := c.isAlphanum || c == '_' || c == '-'

def hexDigit? (c : Char) : Option Nat :=
  if c.isDigit then some (c.toNat - '0'.toNat)
  else if 'a' ≤ c && c ≤ 'f' then some (c.toNat - 'a'.toNat + 10)
  else if 'A' ≤ c && c ≤ 'F' then some (c.toNat - 'A'.toNat + 10)
  else none

/-- The value of digits in a base. -/
def digitsValue? (base : Nat) (digits : List Char) : Option Nat :=
  if digits.isEmpty then
    none
  else
    digits.foldlM
      (fun n c => do
        let d ← hexDigit? c
        if d < base then some (base * n + d) else none)
      0

/-- A place in a text, with the text that follows it. -/
structure Place where
  rest : List Char
  /-- The length of the whole text. -/
  total : Nat
  index : Nat := 0
  line : Nat := 0
  column : Nat := 0
  /-- Nothing but blanks stands between the last line break and this place. -/
  fresh : Bool := false
  deriving Repr, DecidableEq

namespace Place

def ofText (text : List Char) : Place := { rest := text, total := text.length }

def left (p : Place) : Nat := p.total - p.index

def sees (p : Place) (c : Char) : Bool := p.rest.head? == some c

def skip (p : Place) (n : Nat) : Place :=
  { p with rest := p.rest.drop n, index := p.index + n, column := p.column + n, fresh := false }

def skipBlank (p : Place) (n : Nat) : Place := { p.skip n with fresh := p.fresh }

def skipBlanks (p : Place) : Place := p.skipBlank (p.rest.takeWhile isBlank).length

def skipLine (p : Place) : Place := p.skip (p.rest.takeWhile fun c => !isBreak c).length

def nextLine (p : Place) (n : Nat) : Place :=
  { p with
    rest := p.rest.drop n, index := p.index + n, line := p.line + 1, column := 0, fresh := true }

/-- Reads a line break. All breaks but the two separators are the same. -/
def readBreak? (p : Place) : Option (Char × Place) :=
  match p.rest with
  | '\r' :: '\n' :: _ => some ('\n', p.nextLine 2)
  | c :: _ =>
    if c == '\u2028' || c == '\u2029' then some (c, p.nextLine 1)
    else if isBreak c then some ('\n', p.nextLine 1)
    else none
  | [] => none

def skipBreak (p : Place) : Place :=
  match p.readBreak? with
  | some (_, q) => q
  | none => p

def atMarker (p : Place) (mark : Char) : Bool :=
  p.column == 0 && p.rest.take 3 == [mark, mark, mark] && endsWord (p.rest.drop 3)

def atBoundary (p : Place) : Bool := p.atMarker '-' || p.atMarker '.'

end Place

end Predication.Yaml
