/-!
Errors of the listing reader: a cause, the phrases around it, and the place where it was found.
-/

set_option autoImplicit false
set_option relaxedAutoImplicit false

namespace Predication.Listing

/-- What the reader ran into. Positions count bytes from the start of the line. -/
inductive Cause where
  | nameExpected
  | redeclared (name : String)
  | headerExpected
  | labelRedefined (label : String)
  | outsideBlock
  | leftover (pos : Nat)
  | characterExpected (c : Char) (pos : Nat)
  | opExpected
  | operandExpected (pos : Nat)
  | labelExpected (pos : Nat)
  | registerExpected (pos : Nat)
  | emptyCondition
  | numberTooLarge (digits : String)
  | undefinedLabel (procedure label : String) (line : Nat)
  deriving Repr, DecidableEq

/-- The text of a cause. -/
def Cause.message : Cause → String
  | nameExpected => "func name expected"
  | redeclared name => "func " ++ name ++ " redeclared"
  | headerExpected => "func expected"
  | labelRedefined label => "label " ++ label ++ " redefined"
  | outsideBlock => "instruction outside of block"
  | leftover pos => "unexpected text at " ++ toString pos
  | characterExpected c pos => "'" ++ c.toString ++ "' expected at " ++ toString pos
  | opExpected => "op expected"
  | operandExpected pos => "operand expected at " ++ toString pos
  | labelExpected pos => "label expected at " ++ toString pos
  | registerExpected pos => "register expected at " ++ toString pos
  | emptyCondition => "empty condition"
  | numberTooLarge digits =>
    "integer: strconv.ParseInt: parsing \"" ++ digits ++ "\": value out of range"
  | undefinedLabel procedure label line =>
    "func " ++ procedure ++ ": label " ++ label ++ " used at line " ++ toString line ++
      " is not defined"

/-- A phrase that was being read. -/
inductive Phrase where
  | guard
  | definition
  | operation (name : String)
  | operand (index : Nat)
  | input (index : Nat)
  | implicits
  | liveIn
  deriving Repr, DecidableEq

def Phrase.text : Phrase → String
  | guard => "predicate"
  | definition => "def"
  | operation name => name
  | operand index => "operand " ++ toString index
  | input index => "input " ++ toString index
  | implicits => "implicit"
  | liveIn => "livein"

/-- A cause within phrases, the outermost first. -/
structure Complaint where
  phrases : List Phrase := []
  cause : Cause
  deriving Repr, DecidableEq

def Complaint.message (c : Complaint) : String :=
  c.phrases.foldr (fun p text => p.text ++ ": " ++ text) c.cause.message

/-- A complaint with the file and the line it is about. What is found at the end of a file has no
line, and a file without a name is not mentioned. -/
structure Error where
  file : String := ""
  line : Option Nat := none
  complaint : Complaint
  deriving Repr, DecidableEq

def Error.message (e : Error) : String :=
  (if e.file = "" then "" else e.file ++ ": ") ++
    (match e.line with
    | some line => "line " ++ toString line ++ ": "
    | none => "") ++
    e.complaint.message

end Predication.Listing
