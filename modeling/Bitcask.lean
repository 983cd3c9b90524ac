import Bitcask.Library.Loop
import Bitcask.Library.LittleEndian
import Bitcask.Library.Framing
import Bitcask.Library.Transaction
import Bitcask.Common
import Bitcask.Crc32c
import Bitcask.Library.Guarantee
import Bitcask.LogRecord
import Bitcask.Library.ReflectedCrc
import Bitcask.Checksums
import Bitcask.FileSystem
import Bitcask.DataFile
import Bitcask.Index
import Bitcask.SkipListMemory
import Bitcask.DB
import Bitcask.StoredKeys
import Bitcask.Load
import Bitcask.Merge
import Bitcask.Locality
import Bitcask.Destructors
import Bitcask.Containment
import Bitcask.Replay
import Bitcask.Recovery
import Bitcask.Padding
import Bitcask.TornLog
import Bitcask.Library.Machine
import Bitcask.Library.BatchStore
import Bitcask.Session
import Bitcask.Requests
import Bitcask.Writes
import Bitcask.Opening
import Bitcask.Runs
import Bitcask.ReadYourWrites
import Bitcask.ReadIntegrity
import Bitcask.ActiveFile
import Bitcask.FailedCommits
import Bitcask.SizeLimits
import Bitcask.Endings
import Bitcask.Appending
import Bitcask.CutOff
import Bitcask.ShortWrites
import Bitcask.Batches
import Bitcask.Restart
import Bitcask.Library.Program
import Bitcask.Library.Interleaving
import Bitcask.Library.ShiftedArray
import Bitcask.ArtNodes
import Bitcask.ArtChildren
import Bitcask.ArtTree
import Bitcask.ArtSearch
import Bitcask.ArtUpdates
import Bitcask.ArtMap
import Bitcask.Redis.Metadata
import Bitcask.Redis.DataStructure
import Bitcask.Redis.MapDatabase
import Bitcask.Redis.Lists
import Bitcask.Redis.Interference
import Bitcask.Redis.Expiry
import Bitcask.Redis.Fields
import Bitcask.Redis.Consistency
import Bitcask.Redis.Crashes
import Bitcask.Redis.Clients
import Bitcask.Redis.LostUpdates
import Bitcask.SequenceNumbers
import Bitcask.MMapIO
import Bitcask.DataFiles
import Bitcask.Library.Decimal
import Bitcask.Redis.Resp
import Bitcask.Redis.Server
import Bitcask.Library.Cursor
import Bitcask.OrderedIndex
import Bitcask.SkipListLayout
import Bitcask.Iterators
import Bitcask.Library.BinarySearch
import Bitcask.BPlusTree
import Bitcask.Library.InputStream
import Bitcask.BPlusTreeFile
import Bitcask.SkipListIterator
import Bitcask.Interchange
import Bitcask.DBIterator
import Bitcask.Corruption
import Bitcask.Scans
import Bitcask.Accounting
import Bitcask.Contents
import Bitcask.HintFile
import Bitcask.Backup
import Bitcask.Restoring
import Bitcask.Copies
import Bitcask.MergeRun
import Bitcask.Unrotated
import Bitcask.Merges
import Bitcask.Handles
import Bitcask.Guarding
import Bitcask.FailedMerges
import Bitcask.SkippedRecords
import Bitcask.MergeTrace
import Bitcask.Lives
import Bitcask.MergeCrashes
import Bitcask.Enumeration
import Bitcask.LiveIterators
import Bitcask.Iteration
import Bitcask.Redis.Strings
import Bitcask.Redis.SortedSets
import Bitcask.Redis.Incarnations
import Bitcask.Redis.Arguments
import Bitcask.Redis.Handlers
import Bitcask.Redis.Storage
import Bitcask.Redis.Replies
import Bitcask.Library.Json
import Bitcask.Library.Substring
import Bitcask.Services.Database
import Bitcask.Services.Http
import Bitcask.Services.Bodies
import Bitcask.Services.Queries
import Bitcask.Services.Rpc
import Bitcask.Library.MessageHead
import Bitcask.Services.HttpServer
import Bitcask.Services.RpcServer
import Bitcask.Services.Store
