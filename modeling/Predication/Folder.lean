/-!
Files by name. A folder holds files in memory and looks a name up as a path: component by
component, from the folder itself or, for a name that starts with a slash, from the root of the
system. Around the folder only what every system has is known.
-/

set_option autoImplicit false
set_option relaxedAutoImplicit false

namespace Predication

/-- Why a file could not be read. -/
inductive FileError where
  | missing
  | directory
  | notDirectory
  | nameTooLong
  | invalidName
  | other (text : String)
  deriving Repr, DecidableEq

/-- The text of an error. A directory can be opened but not read. -/
def FileError.message (name : String) : FileError → String
  | missing => "open " ++ name ++ ": no such file or directory"
  | directory => "read " ++ name ++ ": is a directory"
  | notDirectory => "open " ++ name ++ ": not a directory"
  | nameTooLong => "open " ++ name ++ ": file name too long"
  | invalidName => "open " ++ name ++ ": invalid argument"
  | other text => "open " ++ name ++ ": " ++ text

abbrev Content := Except FileError (List UInt8)

/-- Files with their names, the newest first. -/
structure Folder where
  files : List (String × List UInt8) := []
  deriving Repr, DecidableEq

namespace Folder

/-- Adds a file; it hides an older one of the same name. -/
def add (d : Folder) (name : String) (bytes : List UInt8) : Folder :=
  { files := (name, bytes) :: d.files }

def components (name : String) : List String := name.splitOn "/"

def steps (name : String) : List String :=
  (components name).filter fun s => decide (s ≠ "") && decide (s ≠ ".")

/-- Where a path has got to. -/
inductive Place where
  /-- A directory of the folder. -/
  | within (path : List String)
  /-- A directory around the folder. -/
  | around
  /-- A directory of the system. -/
  | system (path : List String)
  | file (bytes : List UInt8)
  deriving Repr, DecidableEq

def systemDirectories : List String :=
  ["bin", "boot", "dev", "etc", "home", "lib", "mnt", "opt", "proc", "root", "run", "sbin", "srv",
    "sys", "tmp", "usr", "var"]

def below (d : Folder) (path : List String) : Except FileError Place :=
  match d.files.find? fun f => decide (steps f.1 = path) with
  | some f => .ok (.file f.2)
  | none =>
    if d.files.any fun f => path.isPrefixOf (steps f.1) then .ok (.within path)
    else .error .missing

def belowRoot (path : List String) : Except FileError Place :=
  if path = ["dev", "null"] then .ok (.file [])
  else if path = [] ∨ (path.length = 1 ∧ ∀ s ∈ path, s ∈ systemDirectories) then .ok (.system path)
  else .error .missing

def componentLimit : Nat := 255

def nameLimit : Nat := 4095

/-- Goes on by one component. -/
def step (d : Folder) (s : String) : Place → Except FileError Place
  | .file _ => .error .notDirectory
  | p =>
    if s = "" ∨ s = "." then .ok p
    else if s = ".." then
      match p with
      | .within [] => .ok .around
      | .within path => .ok (.within path.dropLast)
      | .system path => .ok (.system path.dropLast)
      | p => .ok p
    else if componentLimit < s.utf8ByteSize then .error .nameTooLong
    else
      match p with
      | .within path => d.below (path ++ [s])
      | .system path => belowRoot (path ++ [s])
      | _ => .error .missing

def find (d : Folder) (name : String) : Except FileError Place :=
  if name = "" then .error .missing
  else if name.contains '\x00' then .error .invalidName
  else if nameLimit < name.utf8ByteSize then .error .nameTooLong
  else
    let start := if name.startsWith "/" then Place.system [] else Place.within []
    (components name).foldlM (fun p s => d.step s p) start

def read (d : Folder) (name : String) : Content := do
  match ← d.find name with
  | .file bytes => return bytes
  | _ => throw .directory

end Folder

end Predication
