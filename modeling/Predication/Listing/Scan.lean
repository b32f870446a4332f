import Predication.Instruction
import Predication.Listing.Complaint
import Predication.Listing.Cursor

/-!
Instructions as a line of a listing spells them, with names in place of numbers, and their reader.
Every loop of the reader uses up a character in each round, so the number of characters left bounds
it.
-/

set_option autoImplicit false
set_option relaxedAutoImplicit false

namespace Predication.Listing

/-- A predicate register by name, read plainly or negated. -/
structure NamedTerm where
  reg : String
  negated : Bool := false
  deriving Repr, DecidableEq

/-- An operand by name. -/
inductive NamedOperand where
  | reg (name : String)
  | imm (v : Int)
  | block (name : String)
  deriving Repr, DecidableEq

/-- An instruction by name. -/
structure NamedInst where
  guard : List NamedTerm := []
  defs : List String := []
  op : Op
  cond : List NamedTerm := []
  uses : List NamedOperand := []
  implicits : List String := []
  deriving Repr, DecidableEq

abbrev Scan := StateT Cursor (Except Complaint)

namespace Scan

variable {α : Type}

def fail (cause : Cause) : Scan α := throw { cause := cause }

/-- Reads a part of a phrase; a complaint about the part names the phrase. -/
def within (phrase : Phrase) (part : Scan α) : Scan α := fun c =>
  match part c with
  | .ok r => .ok r
  | .error e => .error { e with phrases := phrase :: e.phrases }

def accept (ch : Char) : Scan Bool := fun c =>
  match c.eat? ch with
  | some c => .ok (true, c)
  | none => .ok (false, c)

def expect (ch : Char) : Scan Unit := fun c =>
  match c.eat? ch with
  | some c => .ok ((), c)
  | none => .error { cause := .characterExpected ch c.skip.pos }

def keyword (w : String) : Scan Bool := fun c =>
  match c.keyword? w with
  | some c => .ok (true, c)
  | none => .ok (false, c)

def register : Scan String := fun c =>
  match c.register? with
  | some r => .ok r
  | none => .error { cause := .registerExpected c.skip.pos }

def label : Scan String := fun c =>
  match c.name? with
  | some r => .ok r
  | none => .error { cause := .labelExpected c.skip.pos }

def fits (v : Int) : Bool := decide (-0x8000000000000000 ≤ v ∧ v < 0x8000000000000000)

/-- Reads an operand: a register, a number or a label. -/
def operand : Scan NamedOperand := fun c =>
  if c.sees '%' then
    (NamedOperand.reg <$> register) c
  else
    match c.number? with
    | some (v, digits, rest) =>
      if fits v then .ok (.imm v, rest) else .error { cause := .numberTooLarge digits }
    | none =>
      match c.name? with
      | some (name, rest) => .ok (.block name, rest)
      | none => .error { cause := .operandExpected c.skip.pos }

def term : Scan NamedTerm := do
  let negated ← accept '!'
  return { reg := ← register, negated := negated }

/-- Reads terms up to the closing parenthesis, with commas between them. -/
def termsFrom : (fuel : Nat) → (first : Bool) → Scan (List NamedTerm)
  | 0, _ => return []
  | fuel + 1, first => do
    if ← accept ')' then
      return []
    else
      unless first do expect ','
      let t ← term
      return t :: (← termsFrom fuel false)

def remaining : Scan Nat := do return (← get).rest.length

def termList : Scan (List NamedTerm) := do
  let terms ← termsFrom ((← remaining) + 1) true
  if terms.isEmpty then fail .emptyCondition else return terms

/-- Reads a condition: a single term or a conjunction in parentheses. -/
def condition : Scan (List NamedTerm) := do
  if ← accept '(' then termList else return [← term]

def atEnd : Scan Bool := do return (← get).atEnd

/-- The operands are over: the line ends, or the word `implicit` comes next. -/
def atTail : Scan Bool := do
  let c ← get
  return c.atEnd || (c.keyword? "implicit").isSome

/-- Reads the operands from number `index` on, with commas between them. -/
def operandsFrom : (fuel : Nat) → (index : Nat) → Scan (List NamedOperand)
  | 0, _ => return []
  | fuel + 1, index => do
    if ← atTail then
      return []
    else
      if index ≠ 0 then expect ','
      let x ← within (.operand index) operand
      return x :: (← operandsFrom fuel (index + 1))

/-- Reads the inputs of a phi from number `index` on, with commas between them. -/
def inputsFrom : (fuel : Nat) → (index : Nat) → Scan (List NamedOperand)
  | 0, _ => return []
  | fuel + 1, index => do
    if ← atTail then
      return []
    else
      if index ≠ 0 then expect ','
      expect '['
      let v ← within (.input index) operand
      expect ','
      let source ← within (.input index) label
      expect ']'
      return v :: .block source :: (← inputsFrom fuel (index + 1))

/-- Reads registers up to the closing parenthesis. A comma after a register may be left out. -/
def registersFrom : (fuel : Nat) → Scan (List String)
  | 0 => return []
  | fuel + 1 => do
    if ← accept ')' then
      return []
    else
      let r ← register
      let _ ← accept ','
      return r :: (← registersFrom fuel)

def definedFrom : (fuel : Nat) → Scan (List String)
  | 0 => return []
  | fuel + 1 => do
    let r ← within .definition register
    if ← accept ',' then return r :: (← definedFrom fuel) else return [r]

def liveInFrom : (fuel : Nat) → Scan (List String)
  | 0 => return []
  | fuel + 1 => do
    if ← atEnd then
      return []
    else
      let r ← within .liveIn register
      return r :: (← liveInFrom fuel)

def liveIn : Scan (List String) := do
  liveInFrom ((← remaining) + 1)

/-- Reads what follows the name of an operation: a condition, if it takes one, and operands. -/
def arguments : Op → Scan (List NamedTerm × List NamedOperand)
  | .phi => do return ([], ← inputsFrom ((← remaining) + 1) 0)
  | .sel => do
    let c ← condition
    expect ','
    let x ← operand
    expect ','
    let y ← operand
    return (c, [x, y])
  | .brc => do
    let c ← condition
    expect ','
    return (c, [.block (← label)])
  | .br => do return ([], [.block (← label)])
  | _ => do return ([], ← operandsFrom ((← remaining) + 1) 0)

def guard : Scan (List NamedTerm) := do
  if ← accept '(' then within .guard termList else return []

def definitions : Scan (List String) := do
  if (← get).sees '%' then
    let defs ← definedFrom ((← remaining) + 1)
    expect '='
    return defs
  else
    return []

def implicits : Scan (List String) := do
  if ← keyword "implicit" then
    within .implicits do
      expect '('
      registersFrom ((← remaining) + 1)
  else
    return []

def operation : Scan Op := fun c =>
  match c.name? with
  | some (name, c) => .ok (.ofMnemonic name, c)
  | none => .error { cause := .opExpected }

def instruction : Scan NamedInst := do
  let guard ← guard
  let defs ← definitions
  let op ← operation
  let (cond, uses) ← within (.operation op.mnemonic) (arguments op)
  return { guard, defs, op, cond, uses, implicits := ← implicits }

def lineEnd : Scan Unit := do
  let c ← get
  if c.atEnd then return () else fail (.leftover c.skip.pos)

end Scan

end Predication.Listing
