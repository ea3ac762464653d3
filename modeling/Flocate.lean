import Flocate.Lib.Bytes
import Flocate.Lib.BitStream
import Flocate.Lib.Sse2
import Flocate.Lib.WordOrder
import Flocate.Lib.Word64
import Flocate.Lib.NulJoin
import Flocate.Lib.Blocks
import Flocate.Lib.BlockStream
import Flocate.Lib.Sha256
import Flocate.Lib.StreamDecoder
import Flocate.Lib.Fault
import Flocate.Lib.Run
import Flocate.Lib.SortedList
import Flocate.Lib.RobinHood
import Flocate.Lib.Xxh64
import Flocate.Lib.UniqueSort
import Flocate.Lib.Fnmatch
import Flocate.Metadata
import Flocate.MetadataHash
import Flocate.DigestConformance
import Flocate.Sha256Conformance
import Flocate.StreamedDigests
import Flocate.Db
import Flocate.HashTable
import Flocate.HashTableLookup
import Flocate.MetadataCodec
import Flocate.PostingListBuilder
import Flocate.EncodingCorpus
import Flocate.BlockTrigrams
import Flocate.IndexExactness
import Flocate.ParseTrigrams
import Flocate.CandidateSelection
import Flocate.CandidateSoundness
import Flocate.Needle
import Flocate.NeedleTrigrams
import Flocate.GlobTrigrams
import Flocate.CaseTrigrams
import Flocate.CaseSpellings
import Flocate.FileSearch
import Flocate.SearchAgreement
import Flocate.TurbopforEncode
import Flocate.TurbopforDecode
import Flocate.TurbopforSse2
import Flocate.BitPacking
import Flocate.VarbyteCodec
import Flocate.BlockCodec
import Flocate.PostingListCodec
import Flocate.ExistingDB
import Flocate.ExistingDBRecords
import Flocate.Snapshot
import Flocate.SnapshotRecords
import Flocate.DatabaseReaders
import Flocate.DatabaseBuilder
import Flocate.Conf
import Flocate.ConfBlock
import Flocate.DatabaseFile
import Flocate.Publication
import Flocate.DatabaseReuse
import Flocate.RejectedDatabase
import Flocate.DamagedDatabase
import Flocate.SnapshotDiff
import Flocate.HistoryTruncation
import Flocate.DirPath
import Flocate.BindMount
import Flocate.Scan
import Flocate.PrunepathsOrder
import Flocate.HashReuse
import Flocate.HistoryCodec
import Flocate.HistoryRetention
import Flocate.DatabaseSearch
import Flocate.DatabaseList
import Flocate.Lib.Tiling
import Flocate.Output
import Flocate.Serializer
import Flocate.LinearScan
import Flocate.ScanOrder
import Flocate.AccessRXCache
import Flocate.IOUringEngine
import Flocate.EngineRuns
import Flocate.Lib.Utf8
import Flocate.TerminalOutput
import Flocate.Lib.ShellWord
import Flocate.ShellQuoting
import Flocate.ScanRoot
import Flocate.PruneConfig
import Flocate.SnapshotFile
import Flocate.SnapshotReads
import Flocate.MountTable
import Flocate.UpdatedbConf
import Flocate.ConfGrammar
import Flocate.HashSpread
import Flocate.HashTableOverflow
import Flocate.HashTableGrowth
import Flocate.SizeArguments
import Flocate.BlockPartition
import Flocate.Lib.StoreTrace
import Flocate.EncoderStores
import Flocate.EncoderBounds
import Flocate.Lib.Reservoir
import Flocate.DictionaryBuilder
import Flocate.EmptyIntersection
import Flocate.Lib.JsonString
import Flocate.ShowdiffJson
import Flocate.OldRecords
import Flocate.DirectoryWalk
import Flocate.DirectoryTree
import Flocate.DirectoryListing
import Flocate.FullRun
import Flocate.IncrementalRun
import Flocate.DirectoryCalls
import Flocate.FullRunRecords
import Flocate.StoredTimes
import Flocate.HistoryDifference
import Flocate.Lib.StackWalk
import Flocate.LiveDiff
import Flocate.LiveAgreement
import Flocate.Lib.Pieces
import Flocate.DatabaseLayout
import Flocate.SavedDatabase
import Flocate.ShowdiffMain
import Flocate.ShowdiffSaved
import Flocate.ShowdiffLive
import Flocate.SearchFile
import Flocate.CollectedLists
import Flocate.SavedBlocks
import Flocate.SavedIndex
import Flocate.SelectionRuns
import Flocate.SearchedDatabase
