import Predication.Yaml.Document

/-!
YAML texts as bytes. A text is in UTF-8, or in UTF-16 where it starts with the mark for that. It is
taken in blocks, and a block that is taken must not hold anything but the characters of a text.
-/

set_option autoImplicit false
set_option relaxedAutoImplicit false

namespace Predication.Yaml

def isTextChar (c : Char) : Bool :=
  let n := c.toNat
  n == 9 || n == 10 || n == 13 || (0x20 ≤ n && n ≤ 0x7e) || n == 0x85 ||
    (0xa0 ≤ n && n ≤ 0xfffd) || 0x10000 ≤ n

abbrev CharReader := List UInt8 → Option (Char × Nat)

/-- The character of a number of bytes in UTF-8: the digits of the first byte, and those of the
bytes that follow it. A character that could be written shorter is no character. -/
def charOfBytes? (first least : Nat) (more : List UInt8) : Option Char :=
  let n := more.foldl (fun n b => 64 * n + (b.toNat - 0x80)) first
  if more.all (fun b => 0x80 ≤ b && b < 0xc0) && decide (least ≤ n) then charOf? n else none

/-- The character at the start of bytes in UTF-8. -/
def utf8Char? : CharReader
  | [] => none
  | a :: rest =>
    let long (length first least : Nat) : Option (Char × Nat) :=
      let more := rest.take (length - 1)
      if more.length = length - 1 then
        (charOfBytes? first least more).map fun c => (c, length)
      else
        none
    if a < 0x80 then some (Char.ofNat a.toNat, 1)
    else if a < 0xc0 then none
    else if a < 0xe0 then long 2 (a.toNat - 0xc0) 0x80
    else if a < 0xf0 then long 3 (a.toNat - 0xe0) 0x800
    else if a < 0xf8 then long 4 (a.toNat - 0xf0) 0x10000
    else none

/-- The character at the start of bytes in UTF-16, in which two bytes make a unit. -/
def utf16Char? (unit : UInt8 → UInt8 → Nat) : CharReader
  | a :: b :: rest =>
    let high := unit a b
    if 0xd800 ≤ high ∧ high < 0xdc00 then
      match rest with
      | c :: d :: _ =>
        let low := unit c d
        if 0xdc00 ≤ low ∧ low < 0xe000 then
          (charOf? (0x10000 + 1024 * (high - 0xd800) + (low - 0xdc00))).map fun c => (c, 4)
        else
          none
      | _ => none
    else
      (charOf? high).map fun c => (c, 2)
  | _ => none

def encodingOf : List UInt8 → CharReader × List UInt8
  | 0xff :: 0xfe :: rest => (utf16Char? fun a b => a.toNat + 256 * b.toNat, rest)
  | 0xfe :: 0xff :: rest => (utf16Char? fun a b => 256 * a.toNat + b.toNat, rest)
  | 0xef :: 0xbb :: 0xbf :: rest => (utf8Char?, rest)
  | rest => (utf8Char?, rest)

def blockSize : Nat := 512

/-- What was made of bytes: the characters of whole blocks and those of the last one, both in
reverse, and the bytes that the last one has room for. -/
structure Blocks where
  whole : List Char := []
  last : List Char := []
  room : Nat := blockSize

def Blocks.reserve (b : Blocks) (n : Nat) : Blocks :=
  if n ≤ b.room then b else { whole := b.last ++ b.whole }

/-- The characters of a text, and whether they are all of it: a block that holds anything else is
left out with all that follows it. -/
def decode (char? : CharReader) : (fuel : Nat) → Blocks → List UInt8 → List Char × Bool
  | 0, b, _ => (b.whole.reverse, false)
  | _ + 1, b, [] => ((b.last ++ b.whole).reverse, true)
  | fuel + 1, b, bytes =>
    match char? bytes with
    | none => ((b.reserve 1).whole.reverse, false)
    | some (c, n) =>
      let b := b.reserve n
      if isTextChar c then
        decode char? fuel { b with last := c :: b.last, room := b.room - n } (bytes.drop n)
      else
        (b.whole.reverse, false)

/-- Reads the first document, if there is one. The end of a text that is not complete must be out of
sight. -/
def read? (bytes : List UInt8) : Option (Option Node) := do
  let (char?, rest) := encodingOf bytes
  let b : Blocks := { room := blockSize - (bytes.length - rest.length) }
  let (text, complete) := decode char? (rest.length + 1) b rest
  let (x, seen) ← document? text
  if complete || decide (seen + 2 ≤ text.length) then some x else none

end Predication.Yaml
