/-!
Conditions: conjunctions of predicate registers, each read plainly or negated. The empty
conjunction always holds.
-/

set_option autoImplicit false
set_option relaxedAutoImplicit false

namespace Predication

abbrev Reg := Int

/-- A predicate register, read plainly or negated. -/
structure Term where
  reg : Reg
  negated : Bool := false
  deriving Repr, DecidableEq, Inhabited

def Term.not (t : Term) : Term := { t with negated := !t.negated }

def Term.rename (old new : Reg) (t : Term) : Term :=
  if t.reg = old then { t with reg := new } else t

def Term.text (t : Term) : String :=
  (if t.negated then "!" else "") ++ "r" ++ toString t.reg

abbrev Condition := List Term

namespace Condition

/-- The complement of a single term; a longer conjunction has no conjunctive complement. -/
def reverse? : Condition → Option Condition
  | [t] => some [t.not]
  | _ => none

def conj (c x : Condition) : Condition :=
  x.foldl (fun r t => if t ∈ r then r else r ++ [t]) c

def subsumes (a b : Condition) : Bool :=
  a.all (fun t => decide (t ∈ b))

def text (c : Condition) : String :=
  "(" ++ ", ".intercalate (c.map Term.text) ++ ")"

end Condition

end Predication
