import Predication.Machine.Target

/-!
Summaries of blocks. The converter keeps one for each block: how the block ends, what its code
costs, and what stands in the way of guarding or copying it.
-/

set_option autoImplicit false
set_option relaxedAutoImplicit false

namespace Predication

/-- How far the analysis of a block has come. -/
inductive Visit where
  | unvisited
  | analyzing
  | analyzed
  deriving Repr, DecidableEq, Inhabited

/-- What is known about a block. -/
structure Summary where
  block : BlockId
  visit : Visit := .unvisited
  /-- The block takes no part in further conversions, and its summary is not kept up. -/
  done : Bool := false
  /-- A conversion of the block is queued. -/
  queued : Bool := false
  /-- The end of the block can be taken apart. -/
  analyzable : Bool := false
  /-- Control may run past the end of the block. -/
  fallsThrough : Bool := false
  /-- The code cannot be guarded. -/
  unguardable : Bool := false
  /-- The code must not be copied. -/
  unique : Bool := false
  /-- The code sets predicate registers. -/
  clobbers : Bool := false
  /-- The number of instructions that are not guarded, conditional branches apart. -/
  size : Int := 0
  /-- The cycles that these take beyond one each. -/
  extra : Cycles := 0
  /-- The cycles that these take more when they are guarded. -/
  extraGuard : Cycles := 0
  taken : Option BlockId := none
  other : Option BlockId := none
  cond : Condition := []
  /-- The condition that the code is guarded by already. -/
  guard : Condition := []
  deriving Repr, DecidableEq, Inhabited

namespace Summary

def alwaysFallsThrough (s : Summary) : Bool := s.analyzable && s.taken.isNone

def charge (s : Summary) (latency : Cycles × Cycles) : Summary :=
  { s with
    size := s.size + 1
    extra := if latency.1 > 1 then s.extra + (latency.1 - 1) else s.extra
    extraGuard := s.extraGuard + latency.2 }

def otherOf? (succs : List BlockId) (taken : Option BlockId) : Option BlockId :=
  (succs.find? fun s => decide (BlockId.named? s ≠ taken)).bind BlockId.named?

/-- Goes through the code of a block. It stops at the first instruction that cannot be guarded:
guarded code in a block that nobody guarded, code after the setting of a predicate, and so on. -/
def scanCode (t : Target) (f : Procedure) : List InstId → Summary → Except Fault Summary
  | [], s => .ok s
  | id :: rest, s => do
    let i ← f.inst id
    if i.op.isDebug then
      scanCode t f rest s
    else
      let s := if t.isUnique i then { s with unique := true } else s
      let guarded := t.isGuarded i
      let already := !s.guard.isEmpty
      let isCondBranch := s.analyzable && decide (i.op = .brc)
      if !isCondBranch && guarded && !already then
        return { s with unguardable := true }
      else
        let s := if isCondBranch || guarded then s else s.charge (t.latency i)
        if s.clobbers && !guarded then
          if s.analyzable && i.op.isBranch then
            scanCode t f rest s
          else
            return { s with unguardable := true }
        else if t.setsPredicate i && already then
          return { s with unguardable := true }
        else
          let s := if t.setsPredicate i then { s with clobbers := true } else s
          if !t.isGuardable i && decide (i.op ≠ .copy) && decide (i.op ≠ .undef) then
            return { s with unguardable := true }
          else
            scanCode t f rest s

def setBranch (s : Summary) : Option Branch → Summary
  | some br =>
    { s with
      analyzable := true, fallsThrough := br.other.isNone
      taken := br.taken, other := br.other, cond := br.cond }
  | none =>
    { s with analyzable := false, fallsThrough := false, taken := none, other := none, cond := [] }

/-- Brings the summary of a block up to date, unless it is done with. -/
def scan (t : Target) (f : Procedure) (s : Summary) : Except Fault Summary := do
  if s.done then
    return s
  else
    let s := s.setBranch (← t.analyzeBranch f s.block)
    let s ← if !s.cond.isEmpty && s.other.isNone then
        pure { s with other := otherOf? (← f.succs s.block) s.taken }
      else
        pure s
    if !s.cond.isEmpty && s.other.isNone then
      return { s with unguardable := true }
    else
      scanCode t f (← f.code s.block)
        { s with size := 0, extra := 0, extraGuard := 0, clobbers := false }

def isHead (s : Summary) : Bool :=
  !s.done && s.analyzable && !s.cond.isEmpty && decide (s.taken ≠ some s.block) &&
    decide (s.other ≠ some s.block) && s.other.isSome && decide (s.taken ≠ s.other)

end Summary

end Predication
