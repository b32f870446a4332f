import Predication.Conversion.Kind
import Predication.Procedure.Verify

/-!
The ways in which a conversion can fail: a breach of what the conversion relies on, found half way
through, or a procedure that does not pass its check afterwards.
-/

set_option autoImplicit false
set_option relaxedAutoImplicit false

namespace Predication

/-- What a conversion relied on in vain. -/
inductive Reason where
  | malformedCopy
  | notGuarded (op : Op) (cond : Condition)
  | joinWithoutCondition (source dest : String)
  | stillEntered (preds : Nat)
  | emptyPhi
  | severalValues
  | phiDefs (count : Nat)
  | irreversible (cond : Condition)
  deriving Repr, DecidableEq

/-- The text of a reason. -/
def Reason.message : Reason → String
  | malformedCopy => "malformed copy"
  | notGuarded op cond => "unable to predicate " ++ op.mnemonic ++ " on " ++ cond.text
  | joinWithoutCondition source dest =>
    "phi joins " ++ source ++ " and " ++ dest ++ " without a condition"
  | stillEntered preds => "merged block has " ++ toString preds ++ " more predecessors"
  | emptyPhi => "phi without inputs"
  | severalValues => "phi of a merged block has several values"
  | phiDefs count => "phi with " ++ toString count ++ " defs"
  | irreversible cond => "condition " ++ cond.text ++ " is not reversible"

/-- A breach, with the procedure and, where they matter, the block and the instruction. The
procedure is left half converted. -/
structure Breach where
  procedure : String
  block : Option String := none
  inst : Option (InstId × Op) := none
  reason : Reason
  deriving Repr, DecidableEq

namespace Breach

def instText (b : Breach) : Option String :=
  b.inst.map fun (id, op) => "#" ++ toString id ++ " " ++ op.mnemonic

/-- The text of a breach. -/
def message (b : Breach) : String :=
  "ifcvt: func " ++ b.procedure ++
    (match b.block with
    | some name => ": block " ++ name
    | none => "") ++
    (match b.instText with
    | some text => ": inst " ++ text
    | none => "") ++
    ": " ++ b.reason.message

end Breach

/-- Why the conversion of a procedure failed. -/
inductive Failure where
  | broken (b : Breach)
  | invalidAfter (kind : Kind) (block : String) (d : Defect)
  | invalid (d : Defect)
  deriving Repr, DecidableEq

def Failure.message : Failure → String
  | broken b => b.message
  | invalidAfter kind block d => "after " ++ kind.name ++ " at " ++ block ++ ": " ++ d.message
  | invalid d => "verify: " ++ d.message

/-- What ends a conversion early. -/
inductive Stop where
  | fault (e : Fault)
  | failure (e : Failure)
  /-- A search went on past its bound. -/
  | unsettled
  deriving Repr, DecidableEq

end Predication
