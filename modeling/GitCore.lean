import GitCore.Delta.RoundTrip
import GitCore.Lib.Heap
import GitCore.Lib.Overlay
import GitCore.Reftable.MergedSpec
import GitCore.Reftable.Compact
import GitCore.Xdiff.EmitSpec
import GitCore.Lib.Range
import GitCore.Stack.Order
import GitCore.Refs.PackedWriteSpec
import GitCore.Refs.Available
import GitCore.Reach.EarlyStop
import GitCore.Reach.AllReach
import GitCore.Index.Write
import GitCore.Index.AddRun
import GitCore.Refs.SnapshotSort
import GitCore.Xdiff.MergeResult
import GitCore.Trees.Walk
import GitCore.Bloom.Filter
import GitCore.Config.RoundTrip
import GitCore.Graph.Chain
import GitCore.Pack.Chains
import GitCore.Pack.WriteSpec
import GitCore.Pack.Reuse
import GitCore.Pack.Unpack
import GitCore.Index.VerifyPathSpec
import GitCore.Reftable.MergedRun
import GitCore.Sideband.Messages
import GitCore.PackIdx.RoundTrip
import GitCore.Ewah.Sequences
import GitCore.Loose.RoundTrip
import GitCore.Stack.Geometric
import GitCore.Varint.Model
import GitCore.Reftable.RecordCmp
import GitCore.Reftable.Encode
import GitCore.Reftable.BlockSpec
import GitCore.Reftable.WriterSpec
import GitCore.Xdiff.CompactSpec
import GitCore.Xdiff.MergeRefineSpec
import GitCore.Base85.Model
import GitCore.Refs.SanitizeSpec
import GitCore.Refs.ReadRefAt
import GitCore.Notes.Depth
import GitCore.Reach.Tips
import GitCore.Reach.AheadBehind
import GitCore.Reach.BranchBaseSpec
import GitCore.Index.AddRefused
import GitCore.Refs.PackedIteratorSpec
import GitCore.Trees.Interesting
import GitCore.Trees.InterestingSpec
import GitCore.Bisect.Model
import GitCore.DiffPretty.Capture
import GitCore.Lib.Components
import GitCore.Lib.Probing
import GitCore.Lib.SortedMerge
import GitCore.Midx.Chain
import GitCore.Midx.VerifyFile
import GitCore.Objects.Disambiguate
import GitCore.Objects.Pool
import GitCore.Path.Normalize
import GitCore.Path.NormalizeSpec
import GitCore.Path.Relative
import GitCore.Refs.Iterator
import GitCore.Refs.IteratorSpec
import GitCore.Refs.Shorten
import GitCore.Rerere.Conflict
import GitCore.Bisect.Choice
import GitCore.Ewah.Io
import GitCore.Ewah.Xor
import GitCore.Lib.Linked
import GitCore.Negotiator.Skipping
import GitCore.Pack.IndexPack
import GitCore.Repack.Geometry
import GitCore.Todo.Rearrange
import GitCore.Whitespace.Fix
import GitCore.Whitespace.Spec
import GitCore.Graph.HashLookup
import GitCore.Loose.Panics
import GitCore.PackIdx.Revindex
import GitCore.Queue.Prio
import GitCore.Quote.Shell
import GitCore.Delta.Memory
import GitCore.Delta.MemorySafe
import GitCore.Quote.CStyle
import GitCore.Reach.Loaded
import GitCore.Sideband.PktLine
