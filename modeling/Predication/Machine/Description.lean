import Predication.Machine.Datapath
import Predication.Yaml.Encoding

/-!
Descriptions of machines. A description is a YAML mapping that changes the standard machine: costs
by name, and profiles of operations, each of which takes the place of the whole profile the
operation had.
-/

set_option autoImplicit false
set_option relaxedAutoImplicit false

namespace Predication

/-- Why a description could not be read. -/
inductive DescriptionError where
  /-- It is no document, or a value has the wrong type. -/
  | malformed
  | negativeCost (op : String)
  deriving Repr, DecidableEq

def DescriptionError.message : DescriptionError → String
  | malformed => "decode yaml"
  | negativeCost op => "op " ++ op ++ ": negative cost"

namespace Datapath

open Yaml (Node Value)

abbrev Reading := Except DescriptionError

def scalarOf (x : Node) : Reading (String × Value) :=
  match x.part? with
  | some (.scalar text tag) =>
    match Yaml.scalarValue? text tag with
    | some v => .ok (text, v)
    | none => .error .malformed
  | _ => .error .malformed

/-- A text; any scalar can be one. -/
def textOf? (x : Node) : Reading (Option String) := do
  match ← scalarOf x with
  | (_, .null) => return none
  | (text, _) => return some text

/-- Truth values have more names here than elsewhere. -/
def flagOf? (x : Node) : Reading (Option Bool) := do
  match ← scalarOf x with
  | (_, .null) => return none
  | (_, .flag b) => return some b
  | (text, .text) =>
    if text ∈ ["y", "Y", "yes", "on"] then return some true
    else if text ∈ ["n", "N", "no", "off"] then return some false
    else throw .malformed
  | _ => throw .malformed

def wholePart? (x : Float) : Option Int :=
  let bound : Float := 9223372036854775808
  if x < bound then
    if -bound < x then some x.toInt64.toInt else some (-0x8000000000000000)
  else if x == bound then some (-0x8000000000000000)
  else none

/-- A whole number; a fraction is cut off. -/
def intOf? (x : Node) : Reading (Option Int) := do
  match ← scalarOf x with
  | (_, .null) => return none
  | (_, .int v) => if v < 0x8000000000000000 then return some v else throw .malformed
  | (_, .float x) =>
    match wholePart? x with
    | some v => return some v
    | none => throw .malformed
  | _ => throw .malformed

def floatOf? (x : Node) : Reading (Option Float) := do
  match ← scalarOf x with
  | (_, .null) => return none
  | (_, .int v) => return some (Float.ofInt v)
  | (_, .float x) => return some x
  | _ => throw .malformed

def nothingOf {α : Type} (x : Node) : Reading (List α) := do
  match ← scalarOf x with
  | (_, .null) => return []
  | _ => throw .malformed

/-- Texts; entries that are left out do not count. -/
def textsOf (x : Node) : Reading (List String) :=
  match x.part? with
  | some (.sequence items) => do return (← items.mapM textOf?).filterMap id
  | some x => nothingOf x
  | none => .error .malformed

def mergeDepth : Nat := 64

def mappingOf? (x : Node) : Option (List (Node × Node)) :=
  match x.part? with
  | some (.mapping entries) => some entries
  | _ => none

def mergedMappings? (x : Node) : Option (List (List (Node × Node))) :=
  match x with
  | .sequence items => items.mapM mappingOf?
  | x => (mappingOf? x).map fun entries => [entries]

/-- The entries of a mapping by key. No key may occur twice. The entries of mappings that are taken
in stand behind its own, and count where their keys are new; `depth` is the number of mappings that
may be taken in by one another. -/
def entriesFrom : (depth : Nat) → List (Node × Node) → Reading (List (String × Node))
  | 0, _ => .error .malformed
  | depth + 1, entries => do
    if ¬ (entries.map fun e => e.1.keyText).Nodup then
      throw .malformed
    let own ← (entries.filter fun e => !e.1.isMerge).filterMapM fun (k, x) => do
      return (← textOf? k).map fun name => (name, x)
    let merged ← (entries.filter fun e => e.1.isMerge).flatMapM fun (_, x) => do
      match mergedMappings? x with
      | some ms => ms.flatMapM (entriesFrom depth)
      | none => throw .malformed
    return own ++ merged.filter fun e => (own.lookup e.1).isNone

def entriesOf (x : Node) : Reading (List (String × Node)) :=
  match x.part? with
  | some (.mapping entries) => entriesFrom mergeDepth entries
  | some x => nothingOf x
  | none => .error .malformed

def valueAt? {α : Type} (entries : List (String × Node)) (key : String)
    (read : Node → Reading (Option α)) : Reading (Option α) :=
  match entries.lookup key with
  | some x => read x
  | none => .ok none

/-- The profile of an operation. What is left out is zero. -/
def profileOf (x : Node) : Reading OpProfile := do
  let entries ← entriesOf x
  let cycles (key : String) : Reading Cycles := do
    return Int64.ofInt ((← valueAt? entries key intOf?).getD 0)
  let flag (key : String) : Reading Bool := do
    return (← valueAt? entries key flagOf?).getD false
  return {
    latency := ← cycles "latency"
    guardCost := ← cycles "pred_cost"
    setsPredicate := ← flag "defines_pred"
    unguardable := ← flag "unpredicable"
    unique := ← flag "not_duplicable"
    state := (← valueAt? entries "state" fun x => do return some (← textsOf x)).getD [] }

/-- Sets the profiles of operations. No cost may be negative. -/
def setOps (d : Datapath) : List (String × OpProfile) → Reading Datapath
  | [] => .ok d
  | (name, p) :: rest =>
    if p.latency < 0 ∨ p.guardCost < 0 then
      .error (.negativeCost name)
    else
      setOps (d.setOp (.ofMnemonic name) p) rest

/-- Changes the standard machine by a description. -/
def ofNode (x : Node) : Reading Datapath := do
  let entries ← entriesOf x
  let name ← valueAt? entries "name" textOf?
  let branchCost ← valueAt? entries "branch_cost" floatOf?
  let mispredictPenalty ← valueAt? entries "mispredict_penalty" floatOf?
  let copyLimit ← valueAt? entries "dup_limit" intOf?
  let ops ← (← (entries.lookup "ops").elim (pure []) entriesOf).mapM fun (op, x) => do
    return (op, ← profileOf x)
  let d := standard
  setOps
    { d with
      name := if name.getD "" = "" then d.name else name.getD ""
      branchCost := branchCost.getD d.branchCost
      mispredictPenalty := mispredictPenalty.getD d.mispredictPenalty
      copyLimit := copyLimit.getD d.copyLimit }
    ops

def ofYaml (bytes : List UInt8) : Reading Datapath :=
  match Yaml.read? bytes with
  | some x => ofNode (x.getD .empty)
  | none => .error .malformed

end Datapath

end Predication
