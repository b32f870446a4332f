import Predication.Conversion.Kind
import Predication.Instruction

/-!
Candidates: conversions that could be made, and the order in which they are tried.
-/

set_option autoImplicit false
set_option relaxedAutoImplicit false

namespace Predication

/-- A conversion at a block. For a diamond `shared` and `sharedTail` count the instructions that
both arms start and end with; for the others `shared` counts the instructions to be copied. -/
structure Candidate where
  block : BlockId
  kind : Kind
  /-- An arm is guarded already. -/
  guarded : Bool := false
  shared : Int := 0
  sharedTail : Int := 0
  deriving Repr, DecidableEq, Inhabited

namespace Candidate

/-- The cost of a candidate: diamonds save what the arms share, the others add what is copied. -/
def cost (c : Candidate) : Int :=
  match c.kind with
  | .diamond => -(c.shared + c.sharedTail)
  | _ => c.shared

/-- The candidate `a` is tried before `b`: by cost, then candidates with no guarded arm, then by the
priority of the kind, then by block. -/
def before (priority : Kind → Int) (a b : Candidate) : Bool :=
  if a.cost ≠ b.cost then decide (a.cost < b.cost)
  else if a.guarded ≠ b.guarded then !a.guarded
  else if priority a.kind ≠ priority b.kind then decide (priority a.kind < priority b.kind)
  else decide (a.block < b.block)

end Candidate

end Predication
