import Predication.Fault

/-!
Dense sets of small natural numbers, kept as the binary digits of a row of words: `k` is a member
when the digit at `k % 64` of the word at `k / 64` is set. The row has as many words as the members
so far have needed. Members are always visited in ascending order.
-/

set_option autoImplicit false
set_option relaxedAutoImplicit false

namespace Predication

/-- A finite set of natural numbers. -/
structure BitSet where
  words : Array (BitVec 64) := #[]
  deriving Repr, DecidableEq, Inhabited

namespace BitSet

def empty : BitSet := {}

def mark (k : Nat) : BitVec 64 := 1#64 <<< (k % 64)

/-- Membership; no negative number is a member, and no number whose word is not there. -/
def contains (s : BitSet) : Int → Bool
  | .ofNat k =>
    match s.words[k / 64]? with
    | some word => word &&& mark k != 0#64
    | none => false
  | .negSucc _ => false

def grow (words : Array (BitVec 64)) (i : Nat) : Array (BitVec 64) :=
  words ++ Array.replicate (i + 1 - words.size) 0#64

/-- Adds a member. A negative number cannot be one. -/
def insert (s : BitSet) : Int → Except Fault BitSet
  | .ofNat k => .ok { words := (grow s.words (k / 64)).modify (k / 64) (· ||| mark k) }
  | .negSucc _ => .error .outOfRange

def insertNew (s : BitSet) (k : Int) : Except Fault (BitSet × Bool) := do
  if s.contains k then return (s, false) else return (← s.insert k, true)

def reset (_ : BitSet) : BitSet := { words := #[] }

/-- The number of members: of the digits that are set, over all words. -/
def size (s : BitSet) : Nat := s.words.foldl (fun n word => n + word.cpop.toNat) 0

/-- Goes through the digits that are set in a word, the lowest first, and clears each of them before
the next is looked for. `base` is the number that the lowest digit stands for. The step changes a
state and says whether to go on; so does the whole. A word is used up after at most 64 digits. -/
def visitWord {σ : Type} (step : σ → Nat → σ × Bool) (base : Nat) :
    (digits : Nat) → σ → BitVec 64 → σ × Bool
  | 0, state, _ => (state, true)
  | digits + 1, state, word =>
    if word = 0#64 then
      (state, true)
    else
      let lowest := word.ctz.toNat
      match step state (base + lowest) with
      | (state, true) => visitWord step base digits state (word &&& ~~~ mark lowest)
      | (state, false) => (state, false)

def visitWords {σ : Type} (step : σ → Nat → σ × Bool) : (index : Nat) → σ → List (BitVec 64) → σ
  | _, state, [] => state
  | index, state, word :: rest =>
    match visitWord step (index * 64) 64 state word with
    | (state, true) => visitWords step (index + 1) state rest
    | (state, false) => state

def fold {σ : Type} (s : BitSet) (step : σ → Nat → σ × Bool) (init : σ) : σ :=
  visitWords step 0 init s.words.toList

def toList (s : BitSet) : List Nat := (s.fold (fun keys k => (k :: keys, true)) []).reverse

end BitSet

end Predication
