import Lexindex.Lib.Checked
import Lexindex.Lib.Bytes
import Lexindex.Lib.Word
import Lexindex.Lib.Grouping
import Lexindex.Mphf.Law
import Lexindex.Mphf.Remap
import Lexindex.Mphf.Batch
import Lexindex.Blob
import Lexindex.Mphf.Read
import Lexindex.Mphf.RemapReads
import Lexindex.Mphf.Sound
import Lexindex.Mphf.BatchAgrees
import Lexindex.Mphf.BatchExact
import Lexindex.Mphf.Occupancy
import Lexindex.Mphf.Lanes
import Lexindex.Mphf.SeedSound
import Lexindex.Mphf.LaneWord
import Lexindex.Mphf.LaneSound
import Lexindex.Mphf.Queue
import Lexindex.Mphf.QueueOrder
import Lexindex.Mphf.Run
import Lexindex.Mphf.RunSound
import Lexindex.Mphf.Feed
import Lexindex.Mphf.Chunks
import Lexindex.Mphf.GroupedSound
import Lexindex.Mphf.FeedSound
import Lexindex.Lib.PrefixCode
import Lexindex.Lib.Utf8
import Lexindex.Lib.Widths
import Lexindex.Lib.Ledger
import Lexindex.Overlay.Blob
import Lexindex.Overlay.Arena
import Lexindex.Overlay.Refines
import Lexindex.Overlay.Runs
import Lexindex.Overlay.Exact
import Lexindex.DictIndex.Varint
import Lexindex.CharCode.Code
import Lexindex.CharCode.IndexSound
import Lexindex.CharCode.Alphabet
import Lexindex.CharCode.Tables
import Lexindex.CharCode.Order
import Lexindex.CharCode.OrderKept
import Lexindex.CharCode.Trained
import Lexindex.CharCode.Decode
import Lexindex.CharCode.Table
import Lexindex.CharCode.RoundTrip
import Lexindex.DoubleArray.Index
import Lexindex.DoubleArray.Walk
import Lexindex.DoubleArray.Build
import Lexindex.DoubleArray.Safe
import Lexindex.DoubleArray.Trie
import Lexindex.DoubleArray.TrieSound
import Lexindex.DoubleArray.TrieBuilt
import Lexindex.DoubleArray.Occupancy
import Lexindex.DoubleArray.Place
import Lexindex.DoubleArray.PlaceSound
import Lexindex.DoubleArray.Placed
import Lexindex.DoubleArray.ReadBack
import Lexindex.DoubleArray.Labels
import Lexindex.DoubleArray.Slots
import Lexindex.DoubleArray.Matching
import Lexindex.Overlay.Retired
import Lexindex.Overlay.Compact
import Lexindex.Overlay.CompactSorted
import Lexindex.Overlay.Walk
import Lexindex.Overlay.Reload
import Lexindex.Overlay.Loads
import Lexindex.Lib.Ascending
import Lexindex.Extsort.Store
import Lexindex.StringIndex.Build
import Lexindex.Extsort.RunSound
import Lexindex.Extsort.MergeSound
import Lexindex.Extsort.FileSound
import Lexindex.Extsort.CollapseSound
import Lexindex.Extsort.Exact
import Lexindex.Extsort.Sorts
import Lexindex.PerfectHash.Index
import Lexindex.PerfectHash.Sound
import Lexindex.PerfectHash.Alike
import Lexindex.Overlay.Renumber
import Lexindex.Lib.Publish
import Lexindex.PerfectHash.Publish
import Lexindex.Cli.Dump
import Lexindex.StringIndex.FileBuild
import Lexindex.Lib.Search
import Lexindex.StringIndex.Transducer
import Lexindex.StringIndex.NodeBytes
import Lexindex.StringIndex.NodeSafe
import Lexindex.StringIndex.NodeFormat
import Lexindex.StringIndex.WalkExact
import Lexindex.StringIndex.FirstCharsSound
import Lexindex.StringIndex.FirstCharsExact
import Lexindex.StringIndex.CommonPrefixes
import Lexindex.Fsst.Table
import Lexindex.Fsst.TrainSound
import Lexindex.Fsst.EncodeSound
import Lexindex.Fsst.RoundTrip
import Lexindex.Packed.Alphabet
import Lexindex.Packed.Stream
import Lexindex.Packed.Sound
import Lexindex.Packed.Run
import Lexindex.Packed.Exact
import Lexindex.Packed.Read
import Lexindex.StringIndex.OrderStatistics
import Lexindex.Lib.Cheapest
import Lexindex.Lib.Faults
import Lexindex.Arena.Read
import Lexindex.Arena.Safe
import Lexindex.Lib.Buffer
import Lexindex.Arena.Write
import Lexindex.Arena.WriteSound
import Lexindex.Arena.Layout
import Lexindex.Lib.Regions
import Lexindex.Blob.Hasher
import Lexindex.PerfectHash.Stream
import Lexindex.PerfectHash.StreamFill
import Lexindex.PerfectHash.Answers
import Lexindex.PerfectHash.StreamExact
import Lexindex.PairCode.Code
import Lexindex.PairCode.Widths
import Lexindex.PairCode.Frame
import Lexindex.PairCode.Run
import Lexindex.PairCode.Exact
import Lexindex.PairCode.Price
import Lexindex.StringIndex.Subsequence
import Lexindex.Lib.Smallest
import Lexindex.Plan.Samples
import Lexindex.Plan.SamplesSound
import Lexindex.Cli.Readers
import Lexindex.Phrase.TrieSound
import Lexindex.Mphf.LaneAgrees
import Lexindex.DictIndex.SortSound
import Lexindex.Labels.CountSound
import Lexindex.CompactHash.PairsExact
import Lexindex.Plan.Pareto
import Lexindex.CompactHash.Frame
import Lexindex.Mphf.RunRounds
import Lexindex.KeyHash.State
import Lexindex.Lib.Bits
import Lexindex.Lib.Fields
import Lexindex.Lib.ByteLanes
import Lexindex.KeyHash.Whole
import Lexindex.DictIndex.CompareWord
import Lexindex.Offsets.Exact
import Lexindex.CompactHash.ValueTableExact
import Lexindex.Superstring.Runs
import Lexindex.Mphf.RemapEncode
import Lexindex.DoubleArray.Assembled
import Lexindex.DoubleArray.Answers
import Lexindex.DoubleArray.FloorsBelow
import Lexindex.DoubleArray.PlaceTotal
import Lexindex.DoubleArray.Accepts
import Lexindex.DoubleArray.Exact
import Lexindex.Lib.Workers
import Lexindex.Mphf.Pieces
import Lexindex.Mphf.Schedule
import Lexindex.Mphf.ScheduleSteps
import Lexindex.Mphf.ScheduleKept
