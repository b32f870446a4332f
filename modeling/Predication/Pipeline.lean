import Predication.Conversion.Pass
import Predication.Listing.Reader

/-!
From text to text: a listing is read, checked, converted, checked again and written.
-/

set_option autoImplicit false
set_option relaxedAutoImplicit false

namespace Predication.Pipeline

/-- What is reported on the way. -/
inductive Event where
  /-- A procedure was read. -/
  | procedure (name : String) (blocks insts : Nat)
  /-- All procedures were read. -/
  | program (procedures : Nat)
  | conversion (e : Conversion.Event)
  /-- All procedures were converted. -/
  | converted (changed : Bool) (stats : Stats)

/-- Why a text could not be converted. -/
inductive Error where
  | reading (e : Listing.Error)
  | invalidInput (procedure : String) (d : Defect)
  | conversion (procedure : String) (e : Failure)
  | invalidResult (procedure : String) (d : Defect)
  | writing (e : Listing.WriteError)
  deriving Repr, DecidableEq

def Error.message : Error → String
  | reading e => "parse text: " ++ e.message
  | invalidInput procedure d => "verify input: func " ++ procedure ++ ": " ++ d.message
  | conversion procedure e => "if-conversion: func " ++ procedure ++ ": " ++ e.message
  | invalidResult procedure d => "verify result: func " ++ procedure ++ ": " ++ d.message
  | writing e => "format: " ++ e.message

abbrev Work := ExceptT Error (Traced Event)

def report (e : Event) : Work Unit := ExceptT.lift (Traced.report e)

def ofExcept {α : Type} (x : Except Fault α) : Work α := ExceptT.lift (Traced.ofExcept x)

def check (wrong : String → Defect → Error) : Program → Work Unit
  | [] => return ()
  | f :: rest => do
    match ← ofExcept f.verify with
    | .ok _ => check wrong rest
    | .error d => throw (wrong f.name d)

def readReporting (source : Listing.Source) : Work Program := do
  let (program, error?) := Listing.readAll [source]
  program.forM fun f => report (.procedure f.name f.layout.length f.insts.size)
  match error? with
  | some e => throw (.reading e)
  | none =>
    report (.program program.length)
    return program

/-- Converts all procedures of a listing and writes them again. The listings on the way are reported
if they are wanted. -/
def convert (config : Config) (target : Target) (listings : Bool) (source : Listing.Source) :
    Work String := do
  let program ← readReporting source
  check .invalidInput program
  let pass : Pass := { config, target, listings }
  let out ← ExceptT.lift (Traced.embed Event.conversion (pass.run program))
  match out.failure with
  | some (name, e) => throw (.conversion name e)
  | none =>
    report (.converted out.changed out.pass.stats)
    check .invalidResult out.program
    match ← ofExcept (Listing.write "" (.program out.program)) with
    | .ok text => return text
    | .error e => throw (.writing e)

/-- Why a text could not be read and written again. -/
inductive ReformatError where
  | reading (name : String) (e : Listing.Error)
  | writing (e : Listing.WriteError)
  deriving Repr, DecidableEq

def ReformatError.message : ReformatError → String
  | reading name e => "parse " ++ name ++ ": " ++ e.message
  | writing e => e.message

def reformat (source : Listing.Source) : Except Fault (Except ReformatError String) := do
  match Listing.read [{ source with name := "" }] with
  | .error e => return .error (.reading source.name e)
  | .ok program =>
    match ← Listing.write "" (.program program) with
    | .ok text => return .ok text
    | .error e => return .error (.writing e)

end Predication.Pipeline
