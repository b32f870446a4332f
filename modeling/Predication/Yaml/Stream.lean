import Predication.Yaml.Token

/-!
The stream of tokens of a YAML text. Tokens are read ahead of their use, since only a colon tells
that the token before it was a key: the marks for the key, and for the block that starts with it,
then go into the queue in front of that token.
-/

set_option autoImplicit false
set_option relaxedAutoImplicit false

namespace Predication.Yaml

/-- A token that may turn out to be a key. -/
structure KeyMark where
  /-- A colon would make it one. -/
  possible : Bool := false
  /-- It is not given out before this is known. -/
  awaited : Bool := false
  /-- It must be one, since it stands where the keys of its block stand. -/
  required : Bool := false
  /-- The number of the token. -/
  token : Nat := 0
  index : Nat := 0
  line : Nat := 0
  column : Nat := 0
  deriving Repr, DecidableEq

def KeyMark.cleared (k : KeyMark) : KeyMark := { k with possible := false, awaited := false }

def keyLimit : Nat := 1024

def KeyMark.isLate (k : KeyMark) (p : Place) : Bool :=
  decide (k.line < p.line) || decide (k.index + keyLimit < p.index)

/-- Parts the marks at those for tokens before the one with a given number. Marks of inner brackets
come first, and are for later tokens. -/
def marksSince (number : Nat) (marks : List KeyMark) : List KeyMark × List KeyMark :=
  marks.span (number ≤ ·.token)

def depthLimit : Nat := 10000

/-- A stream of tokens: those that were read and not taken yet, and the state of reading. -/
structure Stream where
  place : Place
  started : Bool := false
  /-- The column of the innermost block, and those of the blocks around it. -/
  indent : Int := -1
  outer : List Int := []
  /-- A key may start at the next token. -/
  keyAllowed : Bool := true
  /-- What may be a key inside the innermost brackets, and around them. -/
  mark : KeyMark := {}
  around : List KeyMark := []
  queue : List Token := []
  /-- The number of tokens that were taken. -/
  taken : Nat := 0
  deriving Repr, DecidableEq

namespace Stream

variable (s : Stream)

def inFlow : Bool := !s.around.isEmpty

def number : Nat := s.taken + s.queue.length

def push (t : Token) : Stream := { s with queue := s.queue ++ [t] }

/-- Adds a token in front of the one with a given number; if that was taken, at the end. -/
def insertBefore (number : Nat) (t : Token) : Stream :=
  if number < s.taken then
    s.push t
  else
    let n := number - s.taken
    { s with queue := s.queue.take n ++ t :: s.queue.drop n }

def pushMark (n : Nat) (t : Token) : Stream := { s.push t with place := s.place.skip n }

def dropMark : Option Stream :=
  if s.mark.possible && s.mark.required then none
  else some { s with mark := if s.mark.possible then s.mark.cleared else s.mark }

/-- Notes that the next token may be a key. -/
def saveMark : Option Stream :=
  if s.keyAllowed then do
    let t ← s.dropMark
    let p := s.place
    some { t with
      mark := {
        possible := true
        awaited := true
        required := !s.inFlow && decide (s.indent = (p.column : Int))
        token := s.number
        index := p.index
        line := p.line
        column := p.column } }
  else
    some s

/-- Opens a block at a column, unless one is open there. Its mark goes in front of the token with
the given number, or else to the end. -/
def openBlock (column : Nat) (number : Option Nat) (t : Token) : Option Stream :=
  if s.inFlow || decide ((column : Int) ≤ s.indent) then
    some s
  else if depthLimit ≤ s.outer.length then
    none
  else
    let s := { s with indent := column, outer := s.indent :: s.outer }
    some (match number with
      | some n => s.insertBefore n t
      | none => s.push t)

def closeBlocks (column : Int) : (indent : Int) → (outer : List Int) → (ends : List Token) →
    Int × List Int × List Token
  | indent, [], ends => (indent, [], ends)
  | indent, i :: outer, ends =>
    if column < indent then closeBlocks column i outer (.blockEnd :: ends)
    else (indent, i :: outer, ends)

/-- Closes the blocks that end at a column. Brackets keep blocks open. -/
def closeTo (column : Int) : Stream :=
  if s.inFlow then
    s
  else
    let (indent, outer, ends) := closeBlocks column s.indent s.outer []
    { s with indent, outer, queue := s.queue ++ ends }

/-- The comment lines at a place, one after the other. Between them may stand blanks and line
breaks, but not too many. -/
def skipComments : (fuel : Nat) → Place → Place
  | 0, p => p
  | fuel + 1, p =>
    let p := p.skipLine
    let gap := p.rest.takeWhile fun c => isBlank c || c == '\n' || c == '\r'
    if gap.length < 512 && (p.rest.drop gap.length).head? == some '#' then
      match Gap.read 0 (gap.length + 1) {} p with
      | some (_, p) => skipComments fuel p
      | none => p
    else
      p

/-- Goes on to the next token. A line break allows a key outside of brackets, and where a key is
allowed no tab may stand in front of it. -/
def toToken : (fuel : Nat) → Stream → Stream
  | 0, s => s
  | fuel + 1, s =>
    let p := s.place
    let p := if p.column == 0 && p.sees '\ufeff' then p.skip 1 else p
    let tabs := s.inFlow || !s.keyAllowed
    let p := p.skipBlank (p.rest.takeWhile fun c => c == ' ' || (tabs && c == '\t')).length
    let p := if p.sees '#' then skipComments (p.left + 1) p else p
    match p.readBreak? with
    | some (_, p) => toToken fuel { s with place := p, keyAllowed := s.keyAllowed || !s.inFlow }
    | none => { s with place := p }

def skipLineComment : Stream :=
  let p := s.place.skipBlanks
  if !s.place.fresh && decide (p.index < s.place.index + 512) && p.sees '#' then
    { s with place := p.skipLine }
  else
    s

/-- The text is over: all blocks end. -/
def fetchEnd : Option Stream := do
  let p := s.place
  let p := if p.column = 0 then p else { p with column := 0, line := p.line + 1 }
  let s ← { s with place := p }.closeTo (-1) |>.dropMark
  some { s.push .streamEnd with keyAllowed := false }

def fetchBoundary (read : Place → Option (Token × Place)) : Option Stream := do
  let s ← (s.closeTo (-1)).dropMark
  let (t, p) ← read s.place
  some { s.push t with keyAllowed := false, place := p }

def fetchOpen (t : Token) : Option Stream := do
  let s ← s.saveMark
  if depthLimit ≤ s.around.length then
    none
  else
    let inner := { s with mark := { token := s.number }, around := s.mark :: s.around }
    some { inner.pushMark 1 t with keyAllowed := true }

/-- Leaves the innermost brackets. An outer mark with the number of the inner one is no longer
awaited. -/
def leave : Stream :=
  let settle (k : KeyMark) : KeyMark :=
    if k.token = s.mark.token then { k with awaited := false } else k
  match s.around with
  | [] => s
  | k :: rest =>
    let (recent, older) := marksSince s.mark.token rest
    { s with mark := settle k, around := recent.map settle ++ older }

def fetchClose (t : Token) : Option Stream := do
  let s ← s.dropMark
  some { s.leave.pushMark 1 t with keyAllowed := false }

def fetchComma : Option Stream := do
  let s ← s.dropMark
  some { s.pushMark 1 .comma with keyAllowed := true }

def fetchItem : Option Stream := do
  if !s.inFlow && !s.keyAllowed then
    none
  else
    let s ← s.openBlock s.place.column none .blockSequence
    let s ← s.dropMark
    some { s.pushMark 1 .item with keyAllowed := true }

def fetchKey : Option Stream := do
  if !s.inFlow && !s.keyAllowed then
    none
  else
    let s ← s.openBlock s.place.column none .blockMapping
    let s ← s.dropMark
    some { s.pushMark 1 .key with keyAllowed := !s.inFlow }

/-- The colon in front of a value. It makes a key of what may be one. -/
def fetchValue : Option Stream := do
  let k := s.mark
  let isLate := k.possible && k.isLate s.place
  if isLate && k.required then
    none
  else if k.possible && !isLate then
    let s := s.insertBefore k.token .key
    let s ← s.openBlock k.column (some k.token) .blockMapping
    some { s.pushMark 1 .value with keyAllowed := false, mark := k.cleared }
  else
    let s := if isLate then { s with mark := k.cleared } else s
    if !s.inFlow && !s.keyAllowed then
      none
    else
      let s ← s.openBlock s.place.column none .blockMapping
      some { s.pushMark 1 .value with keyAllowed := !s.inFlow }

def fetchName (read : Place → Option (Token × Place)) : Option Stream := do
  let s ← s.saveMark
  let (t, p) ← read s.place
  some { s.push t with keyAllowed := false, place := p }

/-- A plain scalar. If it took the end of its line, a key may follow. -/
def fetchPlain : Option Stream := do
  let s ← s.saveMark
  let (text, ended, p) ← plainScalar? s.inFlow (s.indent + 1).toNat s.place
  some { s.push (.scalar text true) with keyAllowed := ended, place := p }

def fetchBlock (literal : Bool) : Option Stream := do
  let s ← s.dropMark
  let (text, p) ← blockScalar? literal s.indent s.place
  some { s.push (.scalar text false) with keyAllowed := true, place := p }

def quoted? (quote : Char) (p : Place) : Option (Token × Place) :=
  (quotedScalar? quote p).map fun (text, p) => (.scalar text false, p)

/-- Reads the token that starts with `c`. Marks that may also start a plain scalar are told by the
text after them. -/
def fetchAt (c : Char) (rest : List Char) : Option Stream :=
  let named (make : String → Token) (p : Place) : Option (Token × Place) :=
    (anchorName? p).map fun (name, p) => (make name, p)
  match c with
  | '[' => s.fetchOpen .openSequence
  | '{' => s.fetchOpen .openMapping
  | ']' => s.fetchClose .closeSequence
  | '}' => s.fetchClose .closeMapping
  | ',' => s.fetchComma
  | '-' =>
    if endsWord rest then s.fetchItem else s.fetchPlain
  | '?' =>
    if s.inFlow || endsWord rest then s.fetchKey else s.fetchPlain
  | ':' =>
    if s.inFlow || endsWord rest then s.fetchValue else s.fetchPlain
  | '*' => s.fetchName (named .reference)
  | '&' => s.fetchName (named .anchor)
  | '!' => s.fetchName tag?
  | '|' => if s.inFlow then none else s.fetchBlock true
  | '>' => if s.inFlow then none else s.fetchBlock false
  | '\x27' => s.fetchName (quoted? c)
  | '"' => s.fetchName (quoted? c)
  | c =>
    if isBlank c || isBreak c || "#%@\x60".toList.contains c then none else s.fetchPlain

/-- Reads the next token. -/
def fetch : Option Stream :=
  if !s.started then
    some { s.push .streamStart with started := true }
  else
    let s := toToken (s.place.left + 1) s
    let s := s.closeTo s.place.column
    let p := s.place
    let boundary (t : Token) : Option Stream := s.fetchBoundary fun p => some (t, p.skip 3)
    match p.rest with
    | [] => s.fetchEnd
    | c :: rest =>
      if p.column == 0 && c == '%' then s.fetchBoundary directive?
      else if p.atMarker '-' then boundary .documentStart
      else if p.atMarker '.' then boundary .documentEnd
      else do
        let s ← s.fetchAt c rest
        some (if s.queue.getLast? == some .item then s else s.skipLineComment)

/-- Settles whether the token at the head of the queue may be a key, if that is not known yet. Tells
whether it is still open. -/
def settleHead : Option (Bool × Stream) := do
  let isHead (k : KeyMark) : Bool := k.awaited && decide (k.token = s.taken)
  let settle (k : KeyMark) : Option KeyMark :=
    if isHead k && k.isLate s.place then
      if k.required then none else some k.cleared
    else
      some k
  let mark ← settle s.mark
  let (recent, older) := marksSince s.taken s.around
  let recent ← recent.mapM settle
  some ((mark :: recent).any isHead, { s with mark, around := recent ++ older })

/-- Reads ahead until two tokens follow the head of the queue and it is known whether that is a
key. -/
def ahead : (fuel : Nat) → Stream → Option Stream
  | 0, _ => none
  | fuel + 1, s =>
    if s.queue.length > 2 then do
      let (isOpen, s) ← s.settleHead
      if isOpen then ahead fuel (← s.fetch) else some s
    else do
      ahead fuel (← s.fetch)

def peek : Option (Token × Stream) := do
  let s ← ahead (s.place.left + 5) s
  match s.queue with
  | t :: _ => some (t, s)
  | [] => none

def skip : Stream := { s with queue := s.queue.drop 1, taken := s.taken + 1 }

end Stream

end Predication.Yaml
