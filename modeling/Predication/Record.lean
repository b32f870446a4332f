import Predication.Pipeline

/-!
Log records: the message and the named values that stand for an event.
-/

set_option autoImplicit false
set_option relaxedAutoImplicit false

namespace Predication

/-- A value in a log record. -/
inductive LogValue where
  | absent
  | flag (b : Bool)
  | number (n : Int)
  | text (s : String)
  | group (fields : List (String × Int))
  deriving Repr, DecidableEq

/-- A log record. -/
structure LogRecord where
  message : String
  fields : List (String × LogValue) := []
  deriving Repr, DecidableEq

/-- Cleanup events as log records. -/
def Cleanup.Event.record : Cleanup.Event → LogRecord
  | removed block => { message := "remove unreachable", fields := [("block", .text block)] }
  | tunnelled source via dest =>
    { message := "tunnel"
      fields := [("from", .text source), ("through", .text via), ("to", .text dest)] }
  | merged block succ =>
    { message := "merge", fields := [("block", .text block), ("succ", .text succ)] }
  | round number changed =>
    { message := "iteration", fields := [("iter", .number number), ("changed", .flag changed)] }

def Summary.logValue (s : Summary) : LogValue :=
  let bit (b : Bool) : Int := if b then 1 else 0
  .group
    [("block", s.block), ("tbb", BlockId.ofOption s.taken), ("fbb", BlockId.ofOption s.other),
      ("done", bit s.done), ("analyzable", bit s.analyzable), ("fallthrough", bit s.fallsThrough),
      ("unpredicable", bit s.unguardable), ("nocopy", bit s.unique), ("clobbers", bit s.clobbers),
      ("size", s.size), ("extra", s.extra.toInt), ("extra_pred", s.extraGuard.toInt)]

namespace Conversion.Event

def listingRecord (message name : String) (text : Except Listing.WriteError String) : LogRecord :=
  { message := message
    fields :=
      match text with
      | .ok text => [("name", .text name), ("text", .text text), ("err", .absent)]
      | .error e => [("name", .text name), ("text", .text ""), ("err", .text e.message)] }

/-- Conversion events as log records. -/
def record : Conversion.Event → LogRecord
  | cleanup e => e.record
  | skipped => { message := "skipped" }
  | listingBefore name text => listingRecord "function before" name text
  | listingAfter name text => listingRecord "function after" name text
  | head block info taken other =>
    { message := "head"
      fields :=
        [("block", .text block), ("info", info.logValue), ("t", taken.logValue),
          ("f", other.logValue)] }
  | queued block queue =>
    { message := "queued", fields := [("block", .text block), ("queue", .number queue)] }
  | candidates count => { message := "candidates", fields := [("n", .number count)] }
  | tried kind block taken other ok =>
    { message := "convert"
      fields :=
        [("kind", .text kind.name), ("block", .text block), ("tbb", .text taken),
          ("fbb", .text other), ("ok", .flag ok)] }
  | diamond top tail shared sharedTail =>
    { message := "diamond"
      fields :=
        [("head", .text top), ("tail", .text tail), ("dups1", .number shared),
          ("dups2", .number sharedTail)] }
  | finished stats =>
    { message := "converted"
      fields :=
        [("total", .number stats.total), ("blocks", .number stats.guardedBlocks),
          ("dups", .number stats.copiedBlocks)] }

end Conversion.Event

/-- Pipeline events as log records. -/
def Pipeline.Event.record : Pipeline.Event → LogRecord
  | procedure name blocks insts =>
    { message := "func"
      fields := [("name", .text name), ("blocks", .number blocks), ("insts", .number insts)] }
  | program procedures => { message := "parsed", fields := [("funcs", .number procedures)] }
  | conversion e => e.record
  | converted changed stats =>
    { message := "if-conversion"
      fields :=
        [("changed", .flag changed), ("converted", .number stats.total),
          ("blocks", .number stats.guardedBlocks), ("dups", .number stats.copiedBlocks)] }

end Predication
