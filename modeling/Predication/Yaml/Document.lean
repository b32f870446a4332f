import Predication.Yaml.Node
import Predication.Yaml.Stream

/-!
Reading a YAML document. Only the first document of a text is read, and what follows it is looked at
no further than it takes to see that the document is over.
-/

set_option autoImplicit false
set_option relaxedAutoImplicit false

namespace Predication.Yaml

/-- The state of reading a document: the tokens, the handles of tags and the parts with a name, the
last one first. A part that is not complete yet is unknown. -/
structure Draft where
  stream : Stream
  handles : List (String × String) := []
  names : List (String × Option Node) := []

abbrev Read := StateT Draft Option

namespace Read

def peek : Read Token := do
  let d ← get
  let (t, stream) ← (d.stream.peek : Option (Token × Stream))
  set { d with stream }
  return t

def skip : Read Unit := modify fun d => { d with stream := d.stream.skip }

def next : Read Token := do
  skip
  peek

/-- The tag that a handle and a suffix stand for, with the standard tags in their short form. The
single mark is no tag. -/
def tagOf (handle suffix : String) : Read (Option String) := do
  let full ←
    if handle = "" then pure suffix
    else match (← get).handles.lookup handle with
      | some uri => pure (uri ++ suffix)
      | none => failure
  let standard := "tag:yaml.org,2002:"
  if full = "" then failure
  else if full = "!" then return none
  else if full.startsWith standard then
    return some ("!!" ++ String.ofList (full.toList.drop standard.length))
  else return some full

/-- The name and the tag in front of a part. -/
structure Properties where
  name : Option String := none
  tag : Option String := none
  /-- A name or a tag was given. -/
  given : Bool := false

/-- Reads the name and the tag of a part, in either order. -/
def properties : Read Properties := do
  match ← peek with
  | .anchor name =>
    match ← next with
    | .tag handle suffix =>
      skip
      return { name := some name, tag := ← tagOf handle suffix, given := true }
    | _ => return { name := some name, given := true }
  | .tag handle suffix =>
    match ← next with
    | .anchor name =>
      skip
      return { name := some name, tag := ← tagOf handle suffix, given := true }
    | _ => return { tag := ← tagOf handle suffix, given := true }
  | _ => return {}

/-- Names the part that `read` reads. -/
def named (name : Option String) (read : Read Node) : Read Node := do
  match name with
  | none => read
  | some name =>
    let depth := (← get).names.length
    modify fun d => { d with names := (name, none) :: d.names }
    let x ← read
    modify fun d =>
      { d with names := d.names.set (d.names.length - 1 - depth) (name, some x) }
    return x

def lookup (name : String) : Read Node := do
  match (← get).names.lookup name with
  | some part => return .reference name part
  | none => failure

/-- A scalar with its tag. Without one, only a plain scalar may be anything but a text. -/
def scalarOf (text : String) (plain : Bool) (tag : Option String) : Node :=
  .scalar text (if tag.isNone && !plain then some textTag else tag)

mutual

/-- Reads a part. Blocks are allowed outside of brackets, and the items of a sequence may stand as
far left as the keys around it. -/
def node (block flush : Bool) : (fuel : Nat) → Read Node
  | 0 => failure
  | fuel + 1 => do
    match ← peek with
    | .reference name =>
      skip
      lookup name
    | _ =>
      let props ← properties
      let inner (read : Read Node) : Read Node := named props.name read
      match ← peek with
      | .scalar text plain =>
        skip
        inner (return scalarOf text plain props.tag)
      | .openSequence => inner (do skip; return .sequence (← flowItems true fuel))
      | .openMapping => inner (do skip; return .mapping (← flowEntries true fuel))
      | t =>
        if block && t == .blockSequence then inner (do skip; return .sequence (← blockItems fuel))
        else if block && t == .blockMapping then
          inner (do skip; return .mapping (← blockEntries fuel))
        else if flush && t == .item then inner (return .sequence (← flushItems fuel))
        else if props.given then inner (return .scalar "" props.tag)
        else failure

/-- Reads the items of a block. -/
def blockItems : (fuel : Nat) → Read (List Node)
  | 0 => failure
  | fuel + 1 => do
    match ← peek with
    | .blockEnd =>
      skip
      return []
    | .item =>
      let x ← match ← next with
        | .item | .blockEnd => pure Node.empty
        | _ => node true false fuel
      return x :: (← blockItems fuel)
    | _ => failure

/-- Reads items that have no block of their own. -/
def flushItems : (fuel : Nat) → Read (List Node)
  | 0 => failure
  | fuel + 1 => do
    match ← peek with
    | .item =>
      let x ← match ← next with
        | .item | .key | .value | .blockEnd => pure Node.empty
        | _ => node true false fuel
      return x :: (← flushItems fuel)
    | _ => return []

/-- Reads the entries of a block. -/
def blockEntries : (fuel : Nat) → Read (List (Node × Node))
  | 0 => failure
  | fuel + 1 => do
    match ← peek with
    | .blockEnd =>
      skip
      return []
    | .key =>
      let k ← match ← next with
        | .key | .value | .blockEnd => pure Node.empty
        | _ => node true true fuel
      let x ← match ← peek with
        | .value =>
          match ← next with
          | .key | .value | .blockEnd => pure Node.empty
          | _ => node true true fuel
        | _ => pure Node.empty
      return (k, x) :: (← blockEntries fuel)
    | _ => failure

/-- Reads the items between brackets. An item that has a key is a mapping of one entry. -/
def flowItems (first : Bool) : (fuel : Nat) → Read (List Node)
  | 0 => failure
  | fuel + 1 => do
    let t ← match ← peek with
      | .closeSequence => pure .closeSequence
      | t =>
        if first then pure t
        else if t = .comma then next
        else failure
    match t with
    | .closeSequence =>
      skip
      return []
    | .key =>
      let k ← match ← next with
        | .value | .comma | .closeSequence => do skip; pure Node.empty
        | _ => node false false fuel
      let x ← match ← peek with
        | .value =>
          match ← next with
          | .comma | .closeSequence => pure Node.empty
          | _ => node false false fuel
        | _ => pure Node.empty
      return .mapping [(k, x)] :: (← flowItems false fuel)
    | _ =>
      let x ← node false false fuel
      return x :: (← flowItems false fuel)

/-- Reads the entries between brackets. -/
def flowEntries (first : Bool) : (fuel : Nat) → Read (List (Node × Node))
  | 0 => failure
  | fuel + 1 => do
    let t ← match ← peek with
      | .closeMapping => pure .closeMapping
      | t =>
        if first then pure t
        else if t = .comma then next
        else failure
    match t with
    | .closeMapping =>
      skip
      return []
    | .key =>
      let k ← match ← next with
        | .value | .comma | .closeMapping => pure Node.empty
        | _ => node false false fuel
      let x ← match ← peek with
        | .value =>
          match ← next with
          | .comma | .closeMapping => pure Node.empty
          | _ => node false false fuel
        | _ => pure Node.empty
      return (k, x) :: (← flowEntries false fuel)
    | _ =>
      let k ← node false false fuel
      let _ ← peek
      return (k, Node.empty) :: (← flowEntries false fuel)

end

/-- Reads the directives in front of a document. There is one version, which may be given once, and
no handle may be given twice. -/
def directives (versioned : Bool) : (fuel : Nat) → Read Unit
  | 0 => failure
  | fuel + 1 => do
    match ← peek with
    | .version major minor =>
      if versioned || major ≠ 1 || minor ≠ 1 then failure
      skip
      directives true fuel
    | .tagHandle handle uri =>
      if ((← get).handles.lookup handle).isSome then failure
      skip
      modify fun d => { d with handles := (handle, uri) :: d.handles }
      directives versioned fuel
    | _ => return ()

def standardHandles : List (String × String) := [("!", "!"), ("!!", "tag:yaml.org,2002:")]

/-- Adds the standard handles; those that were given come first. -/
def addHandles : Read Unit := modify fun d => { d with handles := d.handles ++ standardHandles }

/-- Reads the first document, if there is one, and looks at what comes after it. -/
def document (fuel : Nat) : Read (Option Node) := do
  let _ ← peek
  match ← next with
  | .streamEnd => return none
  | .version .. | .tagHandle .. | .documentStart =>
    directives false fuel
    addHandles
    match ← peek with
    | .documentStart =>
      let x ← match ← next with
        | .version .. | .tagHandle .. | .documentStart | .documentEnd | .streamEnd =>
          pure Node.empty
        | _ => node true false fuel
      let _ ← peek
      return some x
    | _ => failure
  | _ =>
    addHandles
    let x ← node true false fuel
    let _ ← peek
    return some x

end Read

/-- Reads the first document of a text. Also gives the number of characters that were looked at. -/
def document? (text : List Char) : Option (Option Node × Nat) := do
  let draft : Draft := { stream := { place := .ofText text } }
  let (x, d) ← (Read.document (16 * text.length + 64)).run draft
  some (x, d.stream.place.index)

end Predication.Yaml
