import Predication.Fault

/-!
Arenas: arrays whose entries are named by integer ids. An id below zero or past the end names
nothing, and every use of such an id is a fault. Positions in a list are read the same way.
-/

set_option autoImplicit false
set_option relaxedAutoImplicit false

namespace Predication.Arena

variable {α : Type}

def get (xs : Array α) (i : Int) : Except Fault α :=
  match i with
  | .ofNat n =>
    match xs[n]? with
    | some x => .ok x
    | none => .error .outOfRange
  | .negSucc _ => .error .outOfRange

def update (xs : Array α) (i : Int) (g : α → α) : Except Fault (Array α) :=
  match i with
  | .ofNat n => if n < xs.size then .ok (xs.modify n g) else .error .outOfRange
  | .negSucc _ => .error .outOfRange

def upTo (xs : List α) (i : Int) : Except Fault (List α) :=
  if 0 ≤ i ∧ i ≤ xs.length then .ok (xs.take i.toNat) else .error .outOfRange

def since (xs : List α) (i : Int) : Except Fault (List α) :=
  if 0 ≤ i ∧ i ≤ xs.length then .ok (xs.drop i.toNat) else .error .outOfRange

end Predication.Arena
