import Predication.Fault

/-!
Sets of bytes that a reader passes over. Only bytes below 64 can be members.
-/

set_option autoImplicit false
set_option relaxedAutoImplicit false

namespace Predication

/-- A set of bytes below 64, one binary digit for each. -/
structure BlankSet where
  mask : UInt64
  deriving Repr, DecidableEq, Inhabited

namespace BlankSet

def ofBytes (bytes : List UInt8) : Except Fault BlankSet :=
  bytes.foldlM
    (fun s c =>
      if c < 64 then .ok { mask := s.mask ||| ((1 : UInt64) <<< c.toUInt64) }
      else .error .byteTooHigh)
    { mask := 0 }

def space : BlankSet := { mask := 0x100000000 }

def spaceTab : BlankSet := { mask := 0x100000200 }

def spaceAll : BlankSet := { mask := 0x100002600 }

def contains (s : BlankSet) (c : UInt8) : Bool :=
  decide (c < 64) && s.mask.toNat.testBit c.toNat

/-- The first position from `start` on that holds no member. A start past the end is its own
answer. -/
def skip (s : BlankSet) (text : List UInt8) : (start : Int) → Except Fault Nat
  | .ofNat start => .ok (start + ((text.drop start).takeWhile s.contains).length)
  | .negSucc _ => .error .outOfRange

end BlankSet

end Predication
