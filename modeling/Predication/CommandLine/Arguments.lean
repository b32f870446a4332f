import Predication.CommandLine.Command

/-!
The reader of arguments. Arguments are read from left to right: flags, the name of an action, and
files for it.
-/

set_option autoImplicit false
set_option relaxedAutoImplicit false

namespace Predication.CommandLine

/-- Why arguments are refused. -/
inductive UsageError where
  | flag (arg : String) (e : FlagError)
  | unexpected (arg : String)
  deriving Repr, DecidableEq

def UsageError.message : UsageError → String
  | flag arg e => "parse flag: " ++ arg ++ ": " ++ e.message
  | unexpected arg => "no args expected, got " ++ arg

/-- How the arguments of a command end. -/
inductive Ending where
  | help
  | files (names : List String)
  | action (a : Action) (rest : List String)
  deriving Repr, DecidableEq

/-- What a flag calls for: help, or a new value that may take the next argument. -/
inductive FlagUse where
  | help
  | set (name : String) (s : Setting)
  | setNext (name : String) (old : Setting)
  deriving Repr, DecidableEq

/-- The use of a flag. A flag that is not a truth value takes its value from the next argument if it
has none. -/
def Flags.use (fs : Flags) (arg : String) : Except FlagError FlagUse :=
  let (name, value?) := splitFlag arg
  match fs.find? name with
  | none => .error .unknown
  | some f =>
    match f.value, value? with
    | none, _ => .ok .help
    | some old, some text => FlagUse.set name <$> old.read text
    | some (.truth _), none => .ok (.set name (.truth true))
    | some old, none => .ok (.setNext name old)

def Ending.addFile (name : String) : Ending → Ending
  | files names => files (name :: names)
  | e => e

/-- Reads the arguments of a command. -/
def readArguments (c : Command) : Flags → List String → Except UsageError (Flags × Ending)
  | fs, [] => .ok (fs, .files [])
  | fs, arg :: rest =>
    if isFlag arg then
      match fs.use arg with
      | .error e => .error (.flag arg e)
      | .ok .help => .ok (fs, .help)
      | .ok (.set name s) => readArguments c (fs.set name s) rest
      | .ok (.setNext name old) =>
        match rest with
        | [] => .error (.flag arg .missingValue)
        | text :: rest =>
          match old.read text with
          | .error e => .error (.flag arg e)
          | .ok s => readArguments c (fs.set name s) rest
    else
      match Action.ofName? c.actions arg with
      | some a => .ok (fs, .action a rest)
      | none =>
        if c.takesFiles then
          if arg = "--" then .ok (fs, .files rest)
          else do
            let (fs, ending) ← readArguments c fs rest
            return (fs, ending.addFile arg)
        else
          .error (.unexpected arg)

/-- What the tool is asked to do. -/
inductive Request where
  | help (text : String)
  | reformat (files : List String)
  /-- Convert files, for a machine that a file describes if one is named. -/
  | convert (config : Config) (description : Option String) (files : List String)

def Action.request (fs : Flags) (files : List String) : Action → Request
  | reformat => .reformat files
  | convert =>
    let description := fs.text "target"
    .convert fs.config (if description = "" then none else some description) files

/-- Reads what the tool is asked to do. An error names the action whose arguments were refused. -/
def readRequest (args : List String) : Except (Option Action × UsageError) Request :=
  match readArguments tool { own := toolFlags, outer := [] } args with
  | .error e => .error (none, e)
  | .ok (fs, .action a rest) =>
    match readArguments a.command { own := a.flags, outer := fs.own } rest with
    | .error e => .error (some a, e)
    | .ok (fs, .files names) => .ok (a.request fs names)
    | .ok (fs, _) => .ok (.help (a.command.help fs))
  | .ok (fs, _) => .ok (.help (tool.help fs))

end Predication.CommandLine
