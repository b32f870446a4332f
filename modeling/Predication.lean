import Predication.Arena
import Predication.BitSet
import Predication.Cleanup.Basic
import Predication.Cleanup.Merge
import Predication.Cleanup.Rounds
import Predication.Cleanup.Tunnel
import Predication.Cleanup.Unreachable
import Predication.CommandLine.Arguments
import Predication.CommandLine.Command
import Predication.CommandLine.Flag
import Predication.CommandLine.Run
import Predication.Condition
import Predication.Conversion.Analysis
import Predication.Conversion.Arms
import Predication.Conversion.Candidate
import Predication.Conversion.Config
import Predication.Conversion.Estimate
import Predication.Conversion.Failure
import Predication.Conversion.Guarding
import Predication.Conversion.Joining
import Predication.Conversion.Kind
import Predication.Conversion.Pass
import Predication.Conversion.Phis
import Predication.Conversion.Shape
import Predication.Conversion.State
import Predication.Conversion.Summary
import Predication.Fault
import Predication.Flow.Dominators
import Predication.Flow.Loops
import Predication.Flow.Order
import Predication.Folder
import Predication.Heap
import Predication.Instruction
import Predication.Listing.Blank
import Predication.Listing.Buffer
import Predication.Listing.Complaint
import Predication.Listing.Cursor
import Predication.Listing.Reader
import Predication.Listing.Scan
import Predication.Listing.Writer
import Predication.Machine.Datapath
import Predication.Machine.Description
import Predication.Machine.Target
import Predication.Main
import Predication.Pipeline
import Predication.Procedure.Basic
import Predication.Procedure.Edges
import Predication.Procedure.Edit
import Predication.Procedure.Verify
import Predication.Proofs.ArmsFirst
import Predication.Proofs.CommonEnds
import Predication.Proofs.Conditions
import Predication.Proofs.EdgeEdits
import Predication.Proofs.FreshNames
import Predication.Proofs.GuardedBlocks
import Predication.Proofs.ImmediateDominators
import Predication.Proofs.Independence
import Predication.Proofs.JoinedFiles
import Predication.Proofs.JoinedValues
import Predication.Proofs.Limits
import Predication.Proofs.LoopForests
import Predication.Proofs.MergedArms
import Predication.Proofs.NormalForms
import Predication.Proofs.Preservation
import Predication.Proofs.Queues
import Predication.Proofs.ReadGraphs
import Predication.Proofs.RoundCounts
import Predication.Proofs.RoundTrip
import Predication.Proofs.SetHistories
import Predication.Proofs.Settling
import Predication.Proofs.SharedEnds
import Predication.Proofs.Splices
import Predication.Proofs.SuccessorSets
import Predication.Proofs.Tallies
import Predication.Proofs.Transfers
import Predication.Proofs.Untouched
import Predication.Proofs.Verdicts
import Predication.Record
import Predication.Text.Printable
import Predication.Text.Quoted
import Predication.Trace
import Predication.Yaml.Document
import Predication.Yaml.Encoding
import Predication.Yaml.Node
import Predication.Yaml.Place
import Predication.Yaml.Scalar
import Predication.Yaml.Stream
import Predication.Yaml.Token
import Predication.Yaml.Value
