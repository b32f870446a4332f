import Predication.Yaml.Scalar

/-!
The tokens of a YAML text, and those of them that are names: anchors, tags and directives.
-/

set_option autoImplicit false
set_option relaxedAutoImplicit false

namespace Predication.Yaml

/-- What a YAML text is made of. Blocks have no brackets of their own; their starts and ends are
read off the indentation. -/
inductive Token where
  | streamStart
  | streamEnd
  | version (major minor : Nat)
  | tagHandle (handle uri : String)
  | documentStart
  | documentEnd
  | blockSequence
  | blockMapping
  | blockEnd
  | openSequence
  | closeSequence
  | openMapping
  | closeMapping
  | item
  | comma
  | key
  | value
  | reference (name : String)
  | anchor (name : String)
  | tag (handle suffix : String)
  | scalar (text : String) (plain : Bool)
  deriving Repr, DecidableEq

def anchorName? (p : Place) : Option (String × Place) :=
  let p := p.skip 1
  let name := p.rest.takeWhile isNameChar
  let p := p.skip name.length
  if name.isEmpty then none
  else if endsWord p.rest || (p.rest.head?.any fun c => "?:,]\x7d%@\x60".toList.contains c) then
    some (String.ofList name, p)
  else none

/-- The length of the address at the start of a text. A percent sign comes with two digits. -/
def addressLength? : (fuel : Nat) → List Char → Option Nat
  | 0, _ => none
  | fuel + 1, cs =>
    match cs with
    | '%' :: a :: b :: rest => do
      let _ ← hexDigit? a
      let _ ← hexDigit? b
      some ((← addressLength? fuel rest) + 3)
    | '%' :: _ => none
    | c :: rest =>
      if isNameChar c || ";/?:@&=+$.,!~*\x27()[]".toList.contains c then do
        some ((← addressLength? fuel rest) + 1)
      else
        some 0
    | [] => some 0

def address? (p : Place) : Option (List Char × Place) := do
  let n ← addressLength? (p.left + 1) p.rest
  some (p.rest.take n, p.skip n)

/-- Reads a handle: an exclamation mark, a name and, if it is there, another mark. -/
def handle? (p : Place) : Option (List Char × Place) :=
  match p.rest with
  | '!' :: rest =>
    let name := rest.takeWhile isNameChar
    let closed := (rest.drop name.length).head? == some '!'
    let handle := '!' :: name ++ (if closed then ['!'] else [])
    some (handle, p.skip handle.length)
  | _ => none

def isClosed (handle : List Char) : Bool :=
  handle.length > 1 && handle.getLast? == some '!'

/-- Reads a tag: an address in angle brackets, or a handle and what follows it. The single mark has
no handle. -/
def tag? (p : Place) : Option (Token × Place) := do
  let (t, p) ←
    if (p.rest.drop 1).head? == some '<' then do
      let (uri, p) ← address? (p.skip 2)
      if uri.isEmpty || !p.sees '>' then none
      else some (Token.tag "" (String.ofList uri), p.skip 1)
    else do
      let (handle, p) ← handle? p
      let (rest, p) ← address? p
      if isClosed handle then
        if rest.isEmpty then none
        else some (Token.tag (String.ofList handle) (String.ofList rest), p)
      else
        let suffix := handle.drop 1 ++ rest
        if suffix.isEmpty then some (Token.tag "" "!", p)
        else some (Token.tag "!" (String.ofList suffix), p)
  if endsWord p.rest then some (t, p) else none

/-- Reads a part of a version: one digit or two. -/
def versionNumber? (p : Place) : Option (Nat × Place) := do
  let digits := p.rest.takeWhile Char.isDigit
  let n ← digitsValue? 10 digits
  if digits.length ≤ 2 then some (n, p.skip digits.length) else none

def version? (p : Place) : Option (Token × Place) := do
  let (major, p) ← versionNumber? p
  if p.sees '.' then
    let (minor, p) ← versionNumber? (p.skip 1)
    some (.version major minor, p)
  else
    none

def tagHandle? (p : Place) : Option (Token × Place) := do
  let (handle, p) ← handle? p
  if (isClosed handle || handle.length == 1) && p.rest.head?.any isBlank then
    let (uri, p) ← address? p.skipBlanks
    if uri.isEmpty || !endsWord p.rest then none
    else some (.tagHandle (String.ofList handle) (String.ofList uri), p)
  else
    none

/-- Reads a directive and the end of its line. -/
def directive? (p : Place) : Option (Token × Place) := do
  let p := p.skip 1
  let name := p.rest.takeWhile isNameChar
  let p := p.skip name.length
  if !endsWord p.rest then
    none
  else
    let (t, p) ←
      if name == "YAML".toList then version? p.skipBlanks
      else if name == "TAG".toList then tagHandle? p.skipBlanks
      else none
    let p := p.skipBlanks
    let p := if p.sees '#' then p.skipLine else p
    if endsLine p.rest then some (t, p.skipBreak) else none

end Predication.Yaml
