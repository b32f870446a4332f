import Predication.Yaml.Place

/-!
Scalars in a YAML text: plain ones, quoted ones and blocks of lines. A scalar may go over several
lines; how its lines are put together depends on how it is written. Texts grow at the front, and so
they are kept in reverse until they are complete.
-/

set_option autoImplicit false
set_option relaxedAutoImplicit false

namespace Predication.Yaml

/-- What stands between two words: blanks on one line, or line breaks with the blanks around them.
Both are kept in reverse. -/
structure Gap where
  blanks : List Char := []
  broken : Bool := false
  first : Option Char := none
  more : List Char := []
  deriving Repr, DecidableEq

namespace Gap

/-- One more line break. The blanks before the first one do not count. -/
def addBreak (g : Gap) (b : Char) : Gap :=
  if g.broken then { g with more := b :: g.more } else { broken := true, first := some b }

/-- The text of a gap, in reverse: a single line break stands for a space, and of several the first
is dropped. -/
def text (g : Gap) : List Char :=
  if g.broken then
    match g.first with
    | some '\n' => if g.more.isEmpty then [' '] else g.more
    | some b => g.more ++ [b]
    | none => g.more
  else
    g.blanks

/-- Reads on over blanks and line breaks. A line may not have a tab before the column `margin`. -/
def read (margin : Nat) : (fuel : Nat) → Gap → Place → Option (Gap × Place)
  | 0, g, p => some (g, p)
  | fuel + 1, g, p =>
    match p.readBreak? with
    | some (b, next) => read margin fuel (g.addBreak b) next
    | none =>
      match p.rest with
      | [] => some (g, p)
      | c :: _ =>
        if !isBlank c then some (g, p)
        else if !g.broken then
          read margin fuel { g with blanks := c :: g.blanks } (p.skipBlank 1)
        else if c == '\t' && p.column < margin then none
        else read margin fuel g (p.skipBlank 1)

end Gap

/-- Counts on to the end of a word of a plain scalar. A colon that ends a word ends the scalar, and
so do the marks of bracketed values inside brackets. -/
def wordLength (inFlow : Bool) : (count : Nat) → List Char → Nat
  | count, [] => count
  | count, c :: rest =>
    if isBlank c || isBreak c then count
    else if c == ':' && endsWord rest then count
    else if inFlow && ",?[]\x7b\x7d".toList.contains c then count
    else wordLength inFlow (count + 1) rest

/-- Reads a plain scalar from its next word on. It ends before a comment, before the end of a
document and, outside of brackets, before a line that starts left of the margin. The gap at its end
is given back too. -/
def plainFrom (inFlow : Bool) (margin : Nat) :
    (fuel : Nat) → List Char → Gap → Place → Option (List Char × Gap × Place)
  | 0, _, _, _ => none
  | fuel + 1, text, gap, p =>
    let n := wordLength inFlow 0 p.rest
    if p.atBoundary || p.sees '#' || n == 0 then
      some (text, gap, p)
    else do
      let text := (p.rest.take n).reverse ++ (gap.text ++ text)
      let (gap, p) ← Gap.read margin (p.left + 1) {} (p.skip n)
      if !inFlow && p.column < margin then some (text, gap, p)
      else plainFrom inFlow margin fuel text gap p

/-- Reads a plain scalar. Tells whether the line was ended with it. -/
def plainScalar? (inFlow : Bool) (margin : Nat) (p : Place) : Option (String × Bool × Place) := do
  let (text, gap, p) ← plainFrom inFlow margin (p.left + 1) [] {} p
  some (String.ofList text.reverse, gap.broken, p)

/-- The character that a letter after a backslash stands for. -/
def escaped? : Char → Option Char
  | '0' => some '\x00'
  | 'a' => some '\x07'
  | 'b' => some '\x08'
  | 't' => some '\t'
  | '\t' => some '\t'
  | 'n' => some '\n'
  | 'v' => some '\x0b'
  | 'f' => some '\x0c'
  | 'r' => some '\r'
  | 'e' => some '\x1b'
  | ' ' => some ' '
  | '"' => some '"'
  | '\x27' => some '\x27'
  | '\\' => some '\\'
  | 'N' => some '\u0085'
  | '_' => some '\u00a0'
  | 'L' => some '\u2028'
  | 'P' => some '\u2029'
  | _ => none

def escapeWidth? : Char → Option Nat
  | 'x' => some 2
  | 'u' => some 4
  | 'U' => some 8
  | _ => none

def charOf? (n : Nat) : Option Char := if n.isValidChar then some (Char.ofNat n) else none

/-- The character that stands after a backslash, and the number of characters that say so. -/
def escape? : List Char → Option (Char × Nat)
  | [] => none
  | e :: rest =>
    match escapeWidth? e with
    | none => (escaped? e).map fun c => (c, 1)
    | some width => do
      let digits := rest.take width
      let n ← if digits.length = width then digitsValue? 16 digits else none
      some (← charOf? n, width + 1)

/-- Reads on to the end of a word of a quoted scalar. Tells whether it ended in a line break that
does not count. -/
def quotedWord (quote : Char) :
    (fuel : Nat) → List Char → Place → Option (List Char × Bool × Place)
  | 0, _, _ => none
  | fuel + 1, text, p =>
    match p.rest with
    | [] => some (text, false, p)
    | c :: rest =>
      if isBlank c || isBreak c then
        some (text, false, p)
      else if c == quote then
        if quote == '\x27' && rest.head? == some quote then
          quotedWord quote fuel (quote :: text) (p.skip 2)
        else
          some (text, false, p)
      else if quote == '"' && c == '\\' then
        if rest.head?.any isBreak then
          some (text, true, (p.skip 1).skipBreak)
        else do
          let (c, n) ← escape? rest
          quotedWord quote fuel (c :: text) (p.skip (n + 1))
      else
        quotedWord quote fuel (c :: text) (p.skip 1)

/-- Reads the rest of a quoted scalar. -/
def quotedFrom (quote : Char) : (fuel : Nat) → List Char → Place → Option (List Char × Place)
  | 0, _, _ => none
  | fuel + 1, text, p =>
    if p.atBoundary || p.rest.isEmpty then
      none
    else do
      let (text, continued, p) ← quotedWord quote (p.left + 1) text p
      if p.sees quote then
        some (text, p.skip 1)
      else
        let (gap, p) ← Gap.read 0 (p.left + 1) { broken := continued } p
        quotedFrom quote fuel (gap.text ++ text) p

def quotedScalar? (quote : Char) (p : Place) : Option (String × Place) := do
  let (text, p) ← quotedFrom quote (p.left + 1) [] (p.skip 1)
  some (String.ofList text.reverse, p)

/-- What becomes of the line breaks at the end of a block. -/
inductive Tail where
  /-- One is kept. -/
  | clip
  | strip
  | keep
  deriving Repr, DecidableEq

def tail? : Char → Option Tail
  | '+' => some .keep
  | '-' => some .strip
  | _ => none

/-- The indentation at the head of a block. It is never zero. -/
def blockIndent? (p : Place) : Option (Nat × Place) :=
  match p.rest with
  | c :: _ =>
    if c == '0' then none
    else if c.isDigit then some (c.toNat - '0'.toNat, p.skip 1)
    else some (0, p)
  | [] => some (0, p)

def blockTail (p : Place) : Option Tail × Place :=
  match p.rest.head?.bind tail? with
  | some t => (some t, p.skip 1)
  | none => (none, p)

/-- The head of a block: its end and its indentation, in either order. Zero stands for an
indentation that is not given. -/
def blockHead? (p : Place) : Option (Tail × Nat × Place) :=
  match blockTail p with
  | (some t, p) => do
    let (n, p) ← blockIndent? p
    some (t, n, p)
  | (none, p) => do
    let (n, p) ← blockIndent? p
    if n = 0 then
      some (.clip, 0, p)
    else
      let (t, p) := blockTail p
      some (t.getD .clip, n, p)

/-- Passes over empty lines of a block and the indentation of the line after them. Gives the line
breaks and the deepest indentation. Without a margin all spaces are indentation. -/
def emptyLines (margin : Nat) :
    (fuel : Nat) → List Char → (deepest : Nat) → Place → Option (List Char × Nat × Place)
  | 0, _, _, _ => none
  | fuel + 1, breaks, deepest, p =>
    let spaces := (p.rest.takeWhile (· == ' ')).length
    let p := p.skipBlank (if margin = 0 then spaces else min spaces (margin - p.column))
    let deepest := max deepest p.column
    if (margin = 0 || p.column < margin) && p.sees '\t' then
      none
    else
      match p.readBreak? with
      | some (b, p) => emptyLines margin fuel (b :: breaks) deepest p
      | none => some (breaks, deepest, p)

/-- The lines of a block so far: the text, the break after its last line, the empty lines after
that, and whether the last line started with a blank. -/
structure Lines where
  text : List Char := []
  ended : Option Char := none
  empty : List Char := []
  blank : Bool := false
  deriving Repr, DecidableEq

def Lines.whole (ls : Lines) : List Char := ls.empty ++ (ls.ended.toList ++ ls.text)

/-- The text with the line breaks after it, when a line follows. In a folded block a single break
between lines that do not start with a blank stands for a space. -/
def Lines.joined (ls : Lines) (literal blank : Bool) : List Char :=
  if !literal && !ls.blank && !blank && ls.ended == some '\n' then
    if ls.empty.isEmpty then ' ' :: ls.text else ls.empty ++ ls.text
  else
    ls.whole

/-- Reads the lines of a block. -/
def blockLines (literal : Bool) (margin : Nat) :
    (fuel : Nat) → Lines → Place → Option (Lines × Place)
  | 0, _, _ => none
  | fuel + 1, ls, p =>
    if p.column == margin && !p.rest.isEmpty then do
      let blank := p.rest.head?.any isBlank
      let line := p.rest.takeWhile fun c => !isBreak c
      let q := p.skip line.length
      let (empty, _, next) ← emptyLines margin (q.left + 1) [] 0 q.skipBreak
      let text := line.reverse ++ ls.joined literal blank
      blockLines literal margin fuel
        { text, ended := q.readBreak?.map Prod.fst, empty, blank } next
    else
      some (ls, p)

def Lines.result (ls : Lines) : Tail → List Char
  | .strip => ls.text
  | .clip => ls.ended.toList ++ ls.text
  | .keep => ls.whole

/-- Reads a block of lines that are deeper than `indent`. -/
def blockScalar? (literal : Bool) (indent : Int) (p : Place) : Option (String × Place) := do
  let (tail, given, p) ← blockHead? (p.skip 1)
  let p := p.skipBlanks
  let p := if p.sees '#' then p.skipLine else p
  if !endsLine p.rest then
    none
  else
    let p := p.skipBreak
    let margin := if given = 0 then 0 else indent.toNat + given
    let (empty, deepest, p) ← emptyLines margin (p.left + 1) [] 0 p
    let margin := if margin = 0 then max (max deepest (indent + 1).toNat) 1 else margin
    let (ls, p) ← blockLines literal margin (p.left + 1) { empty } p
    some (String.ofList (ls.result tail).reverse, p)

end Predication.Yaml
