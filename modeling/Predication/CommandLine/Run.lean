import Predication.CommandLine.Arguments
import Predication.Folder
import Predication.Machine.Description
import Predication.Pipeline

/-!
The tool. It reads files through an action it is given, so that it does not matter where they come
from, and gives back all that it has to print.
-/

set_option autoImplicit false
set_option relaxedAutoImplicit false

namespace Predication.CommandLine

/-- Why a description could not be used. -/
inductive DescriptionFailure where
  | unread (name : String) (e : FileError)
  | invalid (name : String) (e : DescriptionError)
  deriving Repr, DecidableEq

def DescriptionFailure.message : DescriptionFailure → String
  | unread name e => "read file: " ++ e.message name
  | invalid name e => name ++ ": " ++ e.message

/-- Why the tool gave up. -/
inductive Error where
  | usage (a : Option Action) (e : UsageError)
  | unreadListing (name : String) (e : FileError)
  | reformat (name : String) (e : Pipeline.ReformatError)
  | description (e : DescriptionFailure)
  | unreadInput (name : String) (e : FileError)
  | convert (name : String) (e : Pipeline.Error)
  deriving Repr, DecidableEq

def Action.failed (a : Action) (text : String) : String := a.command.name ++ ": " ++ text

/-- The text of an error. -/
def Error.message : Error → String
  | usage none e => e.message
  | usage (some a) e => a.failed e.message
  | unreadListing name e => Action.reformat.failed ("read " ++ name ++ ": " ++ e.message name)
  | reformat name e => Action.reformat.failed ("parse " ++ name ++ ": " ++ e.message)
  | description e => Action.convert.failed ("load target: " ++ e.message)
  | unreadInput name e =>
    Action.convert.failed ("convert " ++ name ++ ": read file: " ++ e.message name)
  | convert name e => Action.convert.failed ("convert " ++ name ++ ": " ++ e.message)

/-- How the tool ends. -/
inductive Ended where
  | well
  | error (e : Error)
  | fault (e : Fault)
  deriving Repr, DecidableEq

def Ended.code : Ended → Nat
  | well => 0
  | error _ => 1
  | fault _ => 2

/-- What the tool printed, and how it ended. -/
structure Report where
  output : String := ""
  ended : Ended := .well
  deriving Repr, DecidableEq

/-- Works on files one after the other, until one fails. -/
def eachFile {m : Type → Type} [Monad m] (read : String → m Content)
    (work : String → Content → Except Ended String) : List String → m Report
  | [] => return {}
  | name :: rest => do
    match work name (← read name) with
    | .error e => return { ended := e }
    | .ok text =>
      let r ← eachFile read work rest
      return { r with output := text ++ r.output }

def reformatFile (name : String) : Content → Except Ended String
  | .error e => .error (.error (.unreadListing name e))
  | .ok bytes =>
    match Pipeline.reformat { name, bytes } with
    | .error e => .error (.fault e)
    | .ok (.error e) => .error (.error (.reformat name e))
    | .ok (.ok text) => .ok text

def convertFile (config : Config) (target : Target) (name : String) : Content → Except Ended String
  | .error e => .error (.error (.unreadInput name e))
  | .ok bytes =>
    match (Traced.events (Pipeline.convert config target false { name, bytes }).run).1 with
    | .error e => .error (.fault e)
    | .ok (.error e) => .error (.error (.convert name e))
    | .ok (.ok text) => .ok text

def readDatapath (name : String) : Content → Except DescriptionFailure Datapath
  | .error e => .error (.unread name e)
  | .ok bytes =>
    match Datapath.ofYaml bytes with
    | .error e => .error (.invalid name e)
    | .ok d => .ok d

def Request.run {m : Type → Type} [Monad m] (read : String → m Content) : Request → m Report
  | help text => return { output := text }
  | reformat files => eachFile read reformatFile files
  | convert config none files => eachFile read (convertFile config Datapath.standard.target) files
  | convert config (some name) files => do
    match readDatapath name (← read name) with
    | .error e => return { ended := .error (.description e) }
    | .ok d => eachFile read (convertFile config d.target) files

def run {m : Type → Type} [Monad m] (read : String → m Content) (args : List String) : m Report :=
  match readRequest args with
  | .error (a, e) => return { ended := .error (.usage a e) }
  | .ok r => r.run read

end Predication.CommandLine
