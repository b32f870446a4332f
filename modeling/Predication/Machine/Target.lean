import Predication.Procedure.Basic

/-!
What the converter needs to know about a machine: how its branches are taken apart and put together,
which instructions can be guarded, and what code costs.
-/

set_option autoImplicit false
set_option relaxedAutoImplicit false

namespace Predication

abbrev Cycles := Int64

/-- The way a block ends. Control goes to `taken` where `cond` holds and to `other` elsewhere;
without `other` it runs past the end of the block instead, and without `taken` it always does. -/
structure Branch where
  taken : Option BlockId := none
  other : Option BlockId := none
  cond : Condition := []
  deriving Repr, DecidableEq, Inhabited

/-- A machine, as the converter sees it. -/
structure Target where
  /-- The way a block ends, if it can be taken apart. -/
  analyzeBranch : Procedure → BlockId → Except Fault (Option Branch)
  /-- Erases the branches at the end of a block and counts them. -/
  removeBranch : Procedure → BlockId → Except Fault (Procedure × Nat)
  /-- Ends a block in a branch and counts the instructions that takes. -/
  insertBranch : Procedure → BlockId → Branch → Except Fault (Procedure × Nat)
  /-- The complement of a condition, if it is a condition. -/
  reverse? : Condition → Option Condition
  /-- The instruction is guarded. -/
  isGuarded : Inst → Bool
  /-- The instruction can be guarded. -/
  isGuardable : Inst → Bool
  /-- The instruction with its guard narrowed by a condition, if that can be done. -/
  guard? : Inst → Condition → Option Inst
  /-- The instruction must not be copied. -/
  isUnique : Inst → Bool
  /-- The first condition holds whenever the second does. -/
  subsumes : Condition → Condition → Bool
  /-- The instruction sets a predicate register. -/
  setsPredicate : Inst → Bool
  /-- The cycles an instruction takes, and how many more it takes when it is guarded. -/
  latency : Inst → Cycles × Cycles
  /-- It pays to guard code of so many cycles, so many more when guarded, that is run with a given
  probability and confidence. -/
  paysToGuard : Cycles → Cycles → Float → Float → Bool
  /-- It pays to guard two such pieces of code of which one is run. -/
  paysToGuardPair : Cycles → Cycles → Cycles → Cycles → Float → Float → Bool
  /-- It pays to copy so many instructions. -/
  paysToCopy : Int → Float → Float → Bool
  /-- The registers that the instruction sets beside its definitions. -/
  redefines : Procedure → Inst → List Reg

end Predication
