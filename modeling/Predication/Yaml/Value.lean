import Predication.Yaml.Place

/-!
What a scalar stands for. A plain scalar may be nothing, a truth value or a number, and a quoted one
is always a text; a tag asks for one of these.
-/

set_option autoImplicit false
set_option relaxedAutoImplicit false

namespace Predication.Yaml

/-- What a scalar stands for. -/
inductive Value where
  | null
  | flag (b : Bool)
  | int (v : Int)
  | float (x : Float)
  | text
  deriving Repr

/-- A number without a sign. A mark after a leading zero gives the base, and a leading zero alone
stands for octal. -/
def magnitude? : List Char → Option Nat
  | '0' :: 'x' :: rest | '0' :: 'X' :: rest => digitsValue? 16 rest
  | '0' :: 'b' :: rest | '0' :: 'B' :: rest => digitsValue? 2 rest
  | '0' :: 'o' :: rest | '0' :: 'O' :: rest => digitsValue? 8 rest
  | ['0'] => some 0
  | '0' :: rest => digitsValue? 8 rest
  | digits => digitsValue? 10 digits

def splitSign : List Char → Bool × List Char
  | '-' :: rest => (true, rest)
  | '+' :: rest => (false, rest)
  | rest => (false, rest)

def signed? (negative : Bool) (n : Nat) : Option Int :=
  let v : Int := if negative then -n else n
  if -0x8000000000000000 ≤ v ∧ v < 0x8000000000000000 then some v else none

/-- A whole number of 64 binary digits. One without a sign may use all of them for its value, and in
binary and octal numbers the sign may also stand after the mark for the base. -/
def int? (cs : List Char) : Option Int :=
  let (negative, digits) := splitSign cs
  match magnitude? digits with
  | some n =>
    if digits = cs ∧ n < 0x10000000000000000 then some n else signed? negative n
  | none =>
    let late (base : Nat) (rest : List Char) : Option Int :=
      let (negative, digits) := splitSign rest
      (digitsValue? base digits).bind (signed? negative)
    match cs with
    | '0' :: 'b' :: rest => late 2 rest
    | '0' :: 'o' :: rest => late 8 rest
    | _ => none

def scientific? (mantissa : Nat) (exponent : Int) : Option Float :=
  let magnitude := (Nat.toDigits 10 mantissa).length + exponent
  if mantissa = 0 ∨ magnitude < -330 then some 0
  else if magnitude > 310 then none
  else
    let x := Float.ofScientific mantissa (decide (exponent < 0)) exponent.natAbs
    if x.isFinite then some x else none

/-- The exponent of a decimal number. -/
def exponent? : List Char → Option Int
  | [] => some 0
  | e :: rest =>
    if e = 'e' ∨ e = 'E' then do
      let (negative, digits) := splitSign rest
      let n ← digitsValue? 10 digits
      some (if negative then -n else n)
    else
      none

/-- A decimal number with an optional fraction and an optional exponent. -/
def decimal? (cs : List Char) : Option Float := do
  let (negative, cs) := splitSign cs
  let whole := cs.takeWhile Char.isDigit
  let rest := cs.dropWhile Char.isDigit
  let (fraction, rest) := match rest with
    | '.' :: rest => (rest.takeWhile Char.isDigit, rest.dropWhile Char.isDigit)
    | rest => ([], rest)
  let mantissa ← digitsValue? 10 (whole ++ fraction)
  let x ← scientific? mantissa ((← exponent? rest) - fraction.length)
  return if negative then -x else x

def partsDigits : (afterDigit : Bool) → List Char → Bool
  | _, [] => true
  | afterDigit, c :: rest =>
    if c = '_' then afterDigit && rest.head?.any Char.isDigit && partsDigits false rest
    else partsDigits c.isDigit rest

/-- The value of a plain scalar that looks like a number. Underscores in it do not count; where it
starts with a point they may only part digits. -/
def number? (text : String) : Option Value :=
  let cs := text.toList
  let plain := cs.filter (· ≠ '_')
  match cs with
  | '.' :: _ => if partsDigits false cs then (decimal? plain).map .float else none
  | c :: _ =>
    if c.isDigit || c == '+' || c == '-' then
      match int? plain with
      | some v => some (.int v)
      | none => (decimal? plain).map .float
    else
      none
  | [] => none

def plainValue (text : String) : Value :=
  if text ∈ ["", "~", "null", "Null", "NULL"] then .null
  else if text ∈ ["true", "True", "TRUE"] then .flag true
  else if text ∈ ["false", "False", "FALSE"] then .flag false
  else if text ∈ [".nan", ".NaN", ".NAN"] then .float (0 / 0)
  else if text ∈ [".inf", ".Inf", ".INF", "+.inf", "+.Inf", "+.INF"] then .float (1 / 0)
  else if text ∈ ["-.inf", "-.Inf", "-.INF"] then .float (-1 / 0)
  else (number? text).getD .text

def textTag : String := "!!str"

/-- What a scalar with a tag stands for. A tag for another type must fit the text, except that a
whole number may be asked for as a fraction; any other tag makes a text of it. -/
def taggedValue? (tag text : String) : Option Value :=
  match tag, plainValue text with
  | "!!null", .null => some .null
  | "!!bool", .flag b => some (.flag b)
  | "!!int", .int v => some (.int v)
  | "!!float", .float x => some (.float x)
  | "!!float", .int v => if v < 0x8000000000000000 then some (.float (Float.ofInt v)) else none
  | tag, _ => if tag ∈ ["!!null", "!!bool", "!!int", "!!float"] then none else some .text

def scalarValue? (text : String) : (tag : Option String) → Option Value
  | none => some (plainValue text)
  | some tag => taggedValue? tag text

end Predication.Yaml
