import BinaryDelta.BigEndian
import BinaryDelta.BlockTable.Basic
import BinaryDelta.BlockTable.Build
import BinaryDelta.BlockTable.Chain
import BinaryDelta.BlockTable.Index
import BinaryDelta.BlockTable.Snapshot
import BinaryDelta.Bytes
import BinaryDelta.Checksum
import BinaryDelta.Codec
import BinaryDelta.CommandLine.Arguments
import BinaryDelta.CommandLine.Files
import BinaryDelta.CommandLine.OpenFile
import BinaryDelta.CommandLine.Report
import BinaryDelta.CommandLine.Run
import BinaryDelta.Decimal.Binary64
import BinaryDelta.Decimal.Fixed
import BinaryDelta.Decimal.Shortest
import BinaryDelta.Engine.Basic
import BinaryDelta.Engine.Match
import BinaryDelta.Engine.Options
import BinaryDelta.Engine.Run
import BinaryDelta.Engine.Window
import BinaryDelta.Error
import BinaryDelta.Instruction
import BinaryDelta.Main
import BinaryDelta.Merge.Basic
import BinaryDelta.Merge.Index
import BinaryDelta.Merge.Resolve
import BinaryDelta.Patch.Apply
import BinaryDelta.Patch.Convert
import BinaryDelta.Patch.Reader
import BinaryDelta.Proofs.Atoms
import BinaryDelta.Proofs.BlockTable.Blocks
import BinaryDelta.Proofs.BlockTable.Built
import BinaryDelta.Proofs.BlockTable.Index
import BinaryDelta.Proofs.BlockTable.Listed
import BinaryDelta.Proofs.BlockTable.Recorded
import BinaryDelta.Proofs.BlockTable.Reloaded
import BinaryDelta.Proofs.BlockTable.Scan
import BinaryDelta.Proofs.BlockTable.Stored
import BinaryDelta.Proofs.Canonical
import BinaryDelta.Proofs.Delivered
import BinaryDelta.Proofs.Engine.Answers
import BinaryDelta.Proofs.Engine.Blind
import BinaryDelta.Proofs.Engine.Causal
import BinaryDelta.Proofs.Engine.Compare
import BinaryDelta.Proofs.Engine.Emitted
import BinaryDelta.Proofs.Engine.Greedy
import BinaryDelta.Proofs.Engine.Plan
import BinaryDelta.Proofs.Engine.Reached
import BinaryDelta.Proofs.Engine.Retained
import BinaryDelta.Proofs.Engine.Rolling
import BinaryDelta.Proofs.Engine.Snapshot
import BinaryDelta.Proofs.Engine.Sound
import BinaryDelta.Proofs.Engine.Unmatched
import BinaryDelta.Proofs.Engine.Window
import BinaryDelta.Proofs.Expansion
import BinaryDelta.Proofs.FarCopies
import BinaryDelta.Proofs.Merge.Associative
import BinaryDelta.Proofs.Merge.Chain
import BinaryDelta.Proofs.Merge.Index
import BinaryDelta.Proofs.Merge.Outcome
import BinaryDelta.Proofs.Merge.Overflow
import BinaryDelta.Proofs.Merge.Resolve
import BinaryDelta.Proofs.Merge.Sampling
import BinaryDelta.Proofs.Merge.Slice
import BinaryDelta.Proofs.Patch.Accept
import BinaryDelta.Proofs.Patch.Apply
import BinaryDelta.Proofs.Patch.Convert
import BinaryDelta.Proofs.Patch.Cut
import BinaryDelta.Proofs.Patch.Interleaving
import BinaryDelta.Proofs.Patch.Reading
import BinaryDelta.Proofs.Patch.Shortfall
import BinaryDelta.Proofs.Patch.Spell
import BinaryDelta.Proofs.Replay
import BinaryDelta.Proofs.RoundTrip
import BinaryDelta.Proofs.Segments
import BinaryDelta.Proofs.Sink.Backlog
import BinaryDelta.Proofs.Sink.Coalescing
import BinaryDelta.Proofs.Sink.Collect
import BinaryDelta.Proofs.Sink.Counters
import BinaryDelta.Proofs.Sink.Fallible
import BinaryDelta.Proofs.Sink.Feed
import BinaryDelta.Proofs.Sink.Lockstep
import BinaryDelta.Proofs.Sink.Packing
import BinaryDelta.Proofs.Sink.Writing
import BinaryDelta.Proofs.Source.Holding
import BinaryDelta.Proofs.Source.Seeking
import BinaryDelta.Proofs.Source.Tracking
import BinaryDelta.Proofs.Stream.Delivery
import BinaryDelta.Proofs.Stream.Loading
import BinaryDelta.Proofs.Stream.Taking
import BinaryDelta.Proofs.Stream.Yielding
import BinaryDelta.Proofs.Wire.Header
import BinaryDelta.Proofs.Wire.Parse
import BinaryDelta.Proofs.Wire.Records
import BinaryDelta.Proofs.WireRoundTrip
import BinaryDelta.Proofs.ZeroRuns
import BinaryDelta.Sink.CallLog
import BinaryDelta.Sink.Collector
import BinaryDelta.Sink.Listing
import BinaryDelta.Sink.PatchWriter
import BinaryDelta.Source.Basic
import BinaryDelta.Source.Cursor
import BinaryDelta.Source.Memory
import BinaryDelta.Source.Overlap
import BinaryDelta.Source.Seeking
import BinaryDelta.Stream.Buffered
import BinaryDelta.Stream.Faulty
import BinaryDelta.Stream.Memory
import BinaryDelta.Stream.Output
import BinaryDelta.Stream.Reader
import BinaryDelta.Stream.Seek
import BinaryDelta.Stream.Whole
import BinaryDelta.Wire.Mode
import BinaryDelta.Wire.Offset
import BinaryDelta.Wire.Record
import BinaryDelta.Proofs.Engine.Strides
import BinaryDelta.Proofs.Engine.Lookahead
import BinaryDelta.Proofs.Engine.Extension
import BinaryDelta.Proofs.Engine.Coherent
