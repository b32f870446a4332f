import Predication.Text.Quoted

/-!
Flags of the command line: what they are called, what they are for and which value they have. The
value of a flag that asks for help is never set.
-/

set_option autoImplicit false
set_option relaxedAutoImplicit false

namespace Predication.CommandLine

/-- The value of a flag. -/
inductive Setting where
  | int (n : Int)
  | truth (b : Bool)
  | text (s : String)
  deriving Repr, DecidableEq

/-- How a value is shown; an empty text is not shown. -/
def Setting.shown? : Setting → Option String
  | int n => some (toString n)
  | truth b => some (if b then "true" else "false")
  | text s => if s = "" then none else some s

/-- A flag. Without a value it asks for help. -/
structure Flag where
  names : List String
  /-- A hint that is shown after the names. -/
  hint : String := ""
  about : String
  value : Option Setting := none
  deriving Repr, DecidableEq

/-- Why the value of a flag is refused. -/
inductive FlagError where
  | unknown
  | missingValue
  | notTruth
  | notInt (text : String)
  | intTooLarge (text : String)
  deriving Repr, DecidableEq

def FlagError.message : FlagError → String
  | unknown => "no such flag"
  | missingValue => "flag value is required"
  | notTruth => "not a bool value"
  | notInt text => "strconv.ParseInt: parsing " ++ Text.quoted text ++ ": invalid syntax"
  | intTooLarge text => "strconv.ParseInt: parsing " ++ Text.quoted text ++ ": value out of range"

/-- The number that digits stand for after the digits for `n`. A number is refused as too large
where its digits so far need more than 64 binary digits, before the rest is looked at. -/
def readDigits (text : String) : Nat → List Char → Except FlagError Nat
  | n, [] => .ok n
  | n, c :: rest =>
    if c.isDigit then
      let n := 10 * n + (c.toNat - '0'.toNat)
      if n < 0x10000000000000000 then readDigits text n rest else .error (.intTooLarge text)
    else
      .error (.notInt text)

/-- A decimal number with an optional sign, of 64 binary digits. -/
def readInt (text : String) : Except FlagError Int := do
  let (negative, digits) := match text.toList with
    | '-' :: rest => (true, rest)
    | '+' :: rest => (false, rest)
    | rest => (false, rest)
  if digits.isEmpty then
    throw (.notInt text)
  let n ← readDigits text 0 digits
  let v : Int := if negative then -n else n
  if -0x8000000000000000 ≤ v ∧ v < 0x8000000000000000 then return v else throw (.intTooLarge text)

/-- A truth value; nothing stands for true. -/
def readTruth (text : String) : Except FlagError Bool :=
  let word := text.toLower
  if word ∈ ["", "true", "t", "yes", "y", "1"] then .ok true
  else if word ∈ ["false", "f", "no", "n", "0"] then .ok false
  else .error .notTruth

def Setting.read (text : String) : Setting → Except FlagError Setting
  | .int _ => .int <$> readInt text
  | .truth _ => .truth <$> readTruth text
  | .text _ => .ok (.text text)

namespace Flag

def hasName (f : Flag) (name : String) : Bool := f.names.contains name

def padded (width : Nat) (s : String) : String :=
  s ++ String.ofList (List.replicate (width - s.length) ' ')

/-- A line of help: a name and what it stands for. -/
def helpLine (name about : String) : String := "    " ++ padded 20 name ++ " - " ++ about ++ "\n"

def help (f : Flag) : String :=
  let value := match f.value.bind Setting.shown? with
    | some s => " (default " ++ s ++ ")"
    | none => ""
  helpLine (",".intercalate f.names ++ f.hint) (f.about ++ value)

end Flag

/-- The name of a flag in an argument, without dashes, and the value that follows it. -/
def splitFlag (arg : String) : String × Option String :=
  let body := match arg.toList with
    | '-' :: '-' :: rest => rest
    | '-' :: rest => rest
    | rest => rest
  let isName (c : Char) : Bool := c != '=' && c != ' '
  (String.ofList (body.takeWhile isName),
    match body.dropWhile isName with
    | _ :: value => some (String.ofList value)
    | [] => none)

def isFlag (arg : String) : Bool := arg.startsWith "-" && arg != "-" && arg != "--"

end Predication.CommandLine
