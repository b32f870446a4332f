import Predication.Cleanup.Merge
import Predication.Cleanup.Tunnel
import Predication.Cleanup.Unreachable

/-!
The cleanup of control flow: rounds of removing unreachable blocks, tunnelling, merging and dropping
jumps to the next block, until a round changes nothing.
-/

set_option autoImplicit false
set_option relaxedAutoImplicit false

namespace Predication.Cleanup

def idleJump? (f : Procedure) (b : BlockId) : Except Fault (Option Nat) := do
  match ← last? f (← f.code b) with
  | some (position, i) =>
    if isJump i then
      return if BlockId.named? (← firstTarget i) = f.next? b then some position else none
    else
      return none
  | none => return none

def dropJumpsOf : List BlockId → Procedure × Bool → Except Fault (Procedure × Bool)
  | [], state => .ok state
  | b :: rest, (f, changed) => do
    match ← idleJump? f b with
    | some position => dropJumpsOf rest (← f.eraseCode b position (position + 1), true)
    | none => dropJumpsOf rest (f, changed)

def dropJumps (f : Procedure) : Except Fault (Procedure × Bool) :=
  dropJumpsOf f.layout (f, false)

def round (f : Procedure) : Traced Event (Procedure × Bool) := do
  let (f, removed) ← removeUnreachable f
  let (f, tunnelled) ← tunnel f
  let (f, merged) ← merge f
  let (f, dropped) ← Traced.ofExcept (dropJumps f)
  return (f, removed || tunnelled || merged || dropped)

def roundsFrom :
    (fuel : Nat) → (number : Nat) → Procedure × Bool → Traced Event (Procedure × Bool)
  | 0, _, _ => throw .unsettled
  | fuel + 1, number, (f, changed) => do
    let (f, again) ← round f
    Traced.report (.round number again)
    if again then roundsFrom fuel (number + 1) (f, true) else return (f, changed)

def codeLength (f : Procedure) (b : BlockId) : Nat :=
  match f.code b with
  | .ok code => code.length
  | .error _ => 0

/-- More rounds than a cleanup takes that comes to an end. A round that changes something makes the code
smaller, where a block counts more than a jump, or shortens the ways through blocks that only jump; only
where jumps without an edge lead in a circle may it do neither. -/
def roundBound (f : Procedure) : Nat :=
  let blocks := f.layout.length
  (f.layout.foldr (fun b n => codeLength f b + 2 + n) 0 + 1) * (blocks * blocks * blocks + 1)

def run (f : Procedure) : Traced Event (Procedure × Bool) := roundsFrom (roundBound f) 0 (f, false)

end Predication.Cleanup
