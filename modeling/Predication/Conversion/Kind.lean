import Predication.Fault

/-!
The kinds of conversions. A simple conversion guards an arm of a branch that leaves for good, a
triangle guards an arm that comes back to the other one, and a diamond guards both arms of a branch
that meet again.
-/

set_option autoImplicit false
set_option relaxedAutoImplicit false

namespace Predication

/-- The two ways out of a conditional branch. -/
inductive Arm where
  /-- The way that is taken where the condition holds. -/
  | taken
  /-- The way that is taken elsewhere. -/
  | other
  deriving Repr, DecidableEq, Inhabited

/-- A kind of conversion. A reversed triangle has an arm that comes back where its own condition
does not hold. -/
inductive Kind where
  | simple (arm : Arm)
  | triangle (arm : Arm) (reversed : Bool)
  | diamond
  deriving Repr, DecidableEq, Inhabited

namespace Kind

def all : List Kind :=
  [simple .taken, simple .other, triangle .taken false, triangle .taken true, triangle .other false,
    triangle .other true, diamond]

def code : Kind → Nat
  | simple .taken => 1
  | simple .other => 2
  | triangle .taken false => 3
  | triangle .taken true => 4
  | triangle .other false => 5
  | triangle .other true => 6
  | diamond => 7

def name : Kind → String
  | simple .taken => "simple"
  | simple .other => "simple-false"
  | triangle .taken false => "triangle"
  | triangle .taken true => "triangle-rev"
  | triangle .other false => "triangle-false"
  | triangle .other true => "triangle-false-rev"
  | diamond => "diamond"

def ofCode? (n : Int) : Option Kind := all.find? (fun k => decide (k.code = n))

/-- The name that goes with a number. Zero is no conversion. -/
def nameOfCode (n : Int) : String :=
  match ofCode? n with
  | some k => k.name
  | none => if n = 0 then "none" else "unknown"

end Kind

/-- A set of numbers of kinds, with room for sixteen of them. -/
structure KindSet where
  mask : UInt16 := 0
  deriving Repr, DecidableEq, Inhabited

namespace KindSet

/-- Adds a number. There is no place for a number above fifteen, and a negative one is a fault. -/
def insertCode (s : KindSet) : Int → Except Fault KindSet
  | .ofNat n => .ok { mask := s.mask ||| UInt16.ofNat (1 <<< n) }
  | .negSucc _ => .error .outOfRange

def insertCodes (s : KindSet) (codes : List Int) : Except Fault KindSet :=
  codes.foldlM insertCode s

def insert (s : KindSet) (k : Kind) : KindSet :=
  { mask := s.mask ||| UInt16.ofNat (1 <<< k.code) }

def containsCode (s : KindSet) (n : Nat) : Bool := s.mask.toNat.testBit n

def contains (s : KindSet) (k : Kind) : Bool := s.containsCode k.code

end KindSet

end Predication
