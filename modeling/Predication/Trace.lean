import Predication.Fault

/-!
Traced computations: they report events as they go and may end in a fault, and a fault leaves the
events that were reported before it.
-/

set_option autoImplicit false
set_option relaxedAutoImplicit false

namespace Predication

abbrev Traced (ε : Type) := ExceptT Fault (StateM (Array ε))

namespace Traced

variable {ε δ α : Type}

def report (e : ε) : Traced ε Unit := modify (·.push e)

def ofExcept : Except Fault α → Traced ε α
  | .ok x => pure x
  | .error e => throw e

def events (x : Traced ε α) : Except Fault α × Array ε := x.run #[]

def embed (g : ε → δ) (x : Traced ε α) : Traced δ α := fun log =>
  let (result, inner) := x.events
  (result, log ++ inner.map g)

end Traced

end Predication
