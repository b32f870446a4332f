/-!
Faults: requests on a procedure that cannot be carried out at all, because an id or a position in
them names nothing or because a stated condition of the request does not hold.
-/

set_option autoImplicit false
set_option relaxedAutoImplicit false

namespace Predication

/-- Why a request could not be carried out. -/
inductive Fault where
  /-- An id or a position names nothing. -/
  | outOfRange
  /-- A block was to be removed while other blocks still lead to it. -/
  | stillEntered (block : String) (preds : List Int)
  /-- A byte is too high to belong to a set of blanks. -/
  | byteTooHigh
  /-- A search went on past the bound that consistent edges give it. -/
  | unsettled
  deriving Repr, DecidableEq

def Fault.message? : Fault → Option String
  | .stillEntered block preds =>
    some ("remove block " ++ block ++ " with predecessors [" ++
      " ".intercalate (preds.map toString) ++ "]")
  | .byteTooHigh => some "too high char code"
  | .outOfRange | .unsettled => none

end Predication
