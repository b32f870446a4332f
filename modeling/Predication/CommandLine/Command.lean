import Predication.CommandLine.Flag
import Predication.Conversion.Config

/-!
The commands, their flags and the help for them. What a command does is an action; without an action
the tool shows help.
-/

set_option autoImplicit false
set_option relaxedAutoImplicit false

namespace Predication.CommandLine

/-- What can be done with files. -/
inductive Action where
  | reformat
  | convert
  deriving Repr, DecidableEq

/-- A command as help shows it. -/
structure Command where
  name : String
  about : String
  takesFiles : Bool
  actions : List Action
  deriving Repr, DecidableEq

/-- Flags with their values: those of a command and those of the command around it. -/
structure Flags where
  own : List Flag
  outer : List Flag
  deriving Repr, DecidableEq

def tool : Command where
  name := "ifcvt"
  about := "ifcvt turns branches of a predicated datapath into predicated code"
  takesFiles := false
  actions := [.reformat, .convert]

def toolFlags : List Flag :=
  [{ names := ["verbosity", "v"], about := "logger verbosity topics", value := some (.text "") },
    { names := ["help", "h"], hint := "=[hidden]", about := "print command help end exit" }]

namespace Action

def command : Action → Command
  | reformat =>
    { name := "parse", about := "parse and reformat control flow graph text", takesFiles := true
      actions := [] }
  | convert =>
    { name := "convert", about := "if-convert control flow graph text", takesFiles := true
      actions := [] }

def disableFlag (k : Kind) : Flag where
  names := ["disable-" ++ k.name]
  about := "disable " ++ k.name ++ " conversion"
  value := some (.truth false)

/-- The flags of an action. -/
def flags : Action → List Flag
  | reformat => []
  | convert =>
    [{ names := ["limit"], about := "max conversions, -1 is unlimited", value := some (.int (-1)) },
      { names := ["fn-start"], about := "first function index to convert"
        value := some (.int (-1)) },
      { names := ["fn-stop"], about := "last function index to convert"
        value := some (.int (-1)) },
      { names := ["branch-fold"], about := "clean up control flow after conversion"
        value := some (.truth true) },
      { names := ["fold-before"], about := "clean up control flow before conversion"
        value := some (.truth true) },
      { names := ["verify"], about := "verify functions after every conversion"
        value := some (.truth false) },
      { names := ["target"], about := "datapath description yaml file", value := some (.text "") }]
      ++ Kind.all.map disableFlag

def ofName? (actions : List Action) (name : String) : Option Action :=
  actions.find? fun a => a.command.name == name

end Action

namespace Flags

/-- The flag with a given name; a command's own flags come first. -/
def find? (fs : Flags) (name : String) : Option Flag :=
  (fs.own.find? (·.hasName name)).or (fs.outer.find? (·.hasName name))

def setIn (name : String) (s : Setting) : List Flag → List Flag
  | [] => []
  | f :: rest =>
    if f.hasName name then { f with value := some s } :: rest else f :: setIn name s rest

def set (fs : Flags) (name : String) (s : Setting) : Flags :=
  if fs.own.any (·.hasName name) then { fs with own := setIn name s fs.own }
  else { fs with outer := setIn name s fs.outer }

def int (fs : Flags) (name : String) : Int :=
  match (fs.find? name).bind (·.value) with
  | some (.int n) => n
  | _ => 0

def truth (fs : Flags) (name : String) : Bool :=
  match (fs.find? name).bind (·.value) with
  | some (.truth b) => b
  | _ => false

def text (fs : Flags) (name : String) : String :=
  match (fs.find? name).bind (·.value) with
  | some (.text s) => s
  | _ => ""

def config (fs : Flags) : Config where
  limit := Config.limitOf (fs.int "limit")
  first := Config.boundOf (fs.int "fn-start")
  last := Config.boundOf (fs.int "fn-stop")
  cleanAfter := fs.truth "branch-fold"
  cleanBefore := fs.truth "fold-before"
  verify := fs.truth "verify"
  disabled := (Kind.all.filter fun k => fs.truth ("disable-" ++ k.name)).foldl KindSet.insert {}

end Flags

/-- A part of the help: a title and lines. -/
def helpSection (title : String) (lines : List String) : String :=
  if lines.isEmpty then "" else "\n" ++ title ++ "\n" ++ String.join lines

def Command.help (c : Command) (fs : Flags) : String :=
  c.name ++ (if c.takesFiles then " [flags_and_args]" else " [flags]") ++ " - " ++ c.about ++ "\n"
    ++ helpSection "Subcommands"
      (c.actions.map fun a => Flag.helpLine a.command.name a.command.about)
    ++ helpSection "Flags" (fs.own.map Flag.help)
    ++ helpSection ("Flags of parent command " ++ tool.name) (fs.outer.map Flag.help)

end Predication.CommandLine
