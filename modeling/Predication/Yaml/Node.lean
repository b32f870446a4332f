import Predication.Yaml.Value

/-!
YAML documents as trees of scalars, sequences and mappings.
-/

set_option autoImplicit false
set_option relaxedAutoImplicit false

namespace Predication.Yaml

/-- A part of a document. A scalar without a tag is plain, and a value that is left out is an empty
plain scalar. A reference stands for the part that has its name; that is unknown where the reference
is inside that part. -/
inductive Node where
  | scalar (text : String) (tag : Option String)
  | sequence (items : List Node)
  | mapping (entries : List (Node × Node))
  | reference (name : String) (part : Option Node)
  deriving Repr, Inhabited

namespace Node

def empty : Node := .scalar "" none

def part? : Node → Option Node
  | reference _ part => part
  | x => some x

def keyText : Node → Nat × String
  | scalar text _ => (0, text)
  | sequence _ => (1, "")
  | mapping _ => (2, "")
  | reference name _ => (3, name)

def isMerge : Node → Bool
  | scalar "<<" tag => tag.all (· == "!!merge")
  | _ => false

end Node

end Predication.Yaml
