import FileHash.Lib.Prog
import FileHash.Page
import FileHash.PoolEvolve
import FileHash.PageFilters
import FileHash.PoolRefinement
import FileHash.PoolThreads
import FileHash.DataPages
import FileHash.BucketPages
import FileHash.HashHeader
import FileHash.Metadata
import FileHash.MovePages
import FileHash.Cursor
import FileHash.Hash
import FileHash.Lib.Detect
import FileHash.PageIntegrity
import FileHash.HeaderCodec
import FileHash.ForeignPages
import FileHash.PoolHandover
import FileHash.Lib.Chunks
import FileHash.Lib.KeyStore
import FileHash.Ensemble
import FileHash.Merger
import FileHash.PoolReaders
import FileHash.Contents
import FileHash.CursorWalk
import FileHash.Lib.LockOrder
import FileHash.Lib.Script
import FileHash.Lookups
import FileHash.LookupAlone
import FileHash.Readers
import FileHash.KeptPages
import FileHash.InitialLayout
import FileHash.Lib.LinearAddress
import FileHash.TableFrame
import FileHash.LinearHashing
import FileHash.CopiedPieces
import FileHash.EnsembleUpdate
import FileHash.HeldPages
import FileHash.FreePages
import FileHash.DataLayout
import FileHash.StoredValues
import FileHash.AddedValues
import FileHash.ValueRoundTrip
import FileHash.ReplacedValues
import FileHash.ReplacementFrame
import FileHash.KeyPages
import FileHash.AddedPairs
import FileHash.LengthFields
import FileHash.MergeChunks
import FileHash.PoolSignals
import FileHash.CursorMoves
import FileHash.CursorSteps
import FileHash.CursorSafety
import FileHash.ConfigTable
import FileHash.ConfigRecords
import FileHash.PageInvariants
import FileHash.PageEntries
import FileHash.PageSize
import FileHash.UserInfo
import FileHash.BucketLayout
import FileHash.RekeyedData
import FileHash.PageChain
import FileHash.DataPageShape
import FileHash.Lib.LinkedList
import FileHash.SlistSort
import FileHash.FlushOrder
import FileHash.LevelStarts
import FileHash.ChainBuilding
import FileHash.ChainSearch
import FileHash.FreeList
import FileHash.Lib.Guard
import FileHash.Custody
import FileHash.CustodyRoutines
import FileHash.CustodyCalls
import FileHash.CustodyRuns
import FileHash.Closing
import FileHash.Lib.Rings
import FileHash.Lib.Simulation
import FileHash.PointerPool
import FileHash.Lib.Crc
import FileHash.ImageErrors
import FileHash.ReadOnly
import FileHash.DBFunc
import FileHash.Scans
import FileHash.DBCursor
import FileHash.ClassRuns
import FileHash.KeyIterators
import FileHash.StoredPairs
import FileHash.FileDatabase
import FileHash.Reopening
import FileHash.Durability
import FileHash.RoomForPuts
import FileHash.NewTables
