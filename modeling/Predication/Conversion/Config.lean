import Predication.Conversion.Kind

/-!
The settings of the converter, and its tally of what it did.
-/

set_option autoImplicit false
set_option relaxedAutoImplicit false

namespace Predication

/-- The settings of the converter. -/
structure Config where
  /-- The number of conversions it may make in all; without one it may go on. -/
  limit : Option Nat := none
  /-- The number of the first procedure it may change. -/
  first : Option Int := none
  /-- The number of the last procedure it may change. -/
  last : Option Int := none
  /-- The kinds it must not use. -/
  disabled : KindSet := {}
  /-- Clean up control flow after a procedure was changed. -/
  cleanAfter : Bool := true
  /-- Clean up control flow before a procedure is analyzed. -/
  cleanBefore : Bool := true
  /-- Check the procedure after each conversion. -/
  verify : Bool := false
  /-- Of two conversions that are equally good, the one with the lower number is made first. -/
  priority : Kind → Int := fun
    | .diamond => 1
    | .triangle .taken false => 2
    | .triangle .other false => 3
    | .triangle .taken true => 4
    | .triangle .other true => 5
    | .simple .taken => 6
    | .simple .other => 7

namespace Config

/-- A limit given as a number; a negative number is no limit. -/
def limitOf : Int → Option Nat
  | .ofNat n => some n
  | .negSucc _ => none

/-- A bound given as a number; `-1` is no bound. -/
def boundOf (n : Int) : Option Int := if n = -1 then none else some n

def covers (c : Config) (number : Nat) : Bool :=
  (c.first.all fun n => decide (n ≤ (number : Int))) &&
    (c.last.all fun n => decide ((number : Int) ≤ n))

end Config

/-- What the converter did so far. -/
structure Stats where
  /-- The conversions it made, the last one first. -/
  made : List Kind := []
  /-- The number of blocks it guarded in place. -/
  guardedBlocks : Nat := 0
  /-- The number of blocks it copied. -/
  copiedBlocks : Nat := 0
  deriving Repr, DecidableEq

namespace Stats

def total (s : Stats) : Nat := s.made.length

def count (s : Stats) (k : Kind) : Nat := s.made.count k

def isUnder (s : Stats) (limit : Option Nat) : Bool := limit.all fun n => decide (s.total < n)

end Stats

end Predication
