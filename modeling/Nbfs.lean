import Nbfs.Lib.CString
import Nbfs.Lib.Slots
import Nbfs.Lib.Entries
import Nbfs.Lib.Forest
import Nbfs.Lib.WellFormed
import Nbfs.Lib.LeafRow
import Nbfs.Lib.Reshape
import Nbfs.Lib.Split
import Nbfs.Lib.Merge
import Nbfs.BplusTree.Ops
import Nbfs.BplusTree.Rep
import Nbfs.BplusTree.Find
import Nbfs.BplusTree.Insert
import Nbfs.BplusTree.InsertParent
import Nbfs.BplusTree.Remove
import Nbfs.BplusTree.Coalesce
import Nbfs.BplusTree.Distribute
import Nbfs.BplusTree.Delete
import Nbfs.BplusTree.Directory
import Nbfs.BplusTree.Shape
import Nbfs.BplusTree.Iterate
import Nbfs.Nbfs2.HashTable
import Nbfs.Nbfs2.Bucket
import Nbfs.Nbfs2.BucketCalls
import Nbfs.Nbfs2.InsertDelete
import Nbfs.Cache.Tree
import Nbfs.Cache.TreeMap
import Nbfs.Cache.TreeRuns
import Nbfs.Lib.Conversation
import Nbfs.Nbfs2.Blobstore
import Nbfs.Nbfs2.NormalBlob
import Nbfs.Nbfs2.RoundTrip
import Nbfs.Nbfs2.BlobidText
import Nbfs.Nbfs2.Files
import Nbfs.Fs.Names
import Nbfs.Fs.RefCount
import Nbfs.Fs.HalfBuilt
import Nbfs.Cache.File
import Nbfs.Cache.Pool
import Nbfs.Cache.PoolProtocol
import Nbfs.Async.Write
import Nbfs.Async.LostUpdate
import Nbfs.BplusTree.Initial
import Nbfs.Fs.Load
import Nbfs.Fs.Store
import Nbfs.Fs.Atomic
import Nbfs.Fs.RenameAtomic
import Nbfs.Nbfs2.Mount
import Nbfs.Nbfs2.Callbacks
import Nbfs.Nbfs2.CallsBackOnce
import Nbfs.Cache.FileState
import Nbfs.Cache.SyncQueue
import Nbfs.Cache.FileSpecs
import Nbfs.Lib.Leases
import Nbfs.Cache.BufferHeap
import Nbfs.Cache.CleanBuffers
import Nbfs.Cache.FailedFlush
import Nbfs.Cache.Cursors
import Nbfs.Lib.Leads
import Nbfs.Cache.Truncate
import Nbfs.Cache.Contents
import Nbfs.Cache.Bounds
import Nbfs.Cache.Frames
import Nbfs.Cache.LastBuffer
import Nbfs.Cache.InsertSlots
import Nbfs.Cache.ReadLength
import Nbfs.Cache.EndOfFile
import Nbfs.Async.Vectored
import Nbfs.Async.ByteExact
import Nbfs.BplusTree.Empty
import Nbfs.Nbfs2.Growth
import Nbfs.Nbfs2.TableEntries
import Nbfs.Nbfs2.TableMemory
import Nbfs.Nbfs2.DeleteByName
import Nbfs.Nbfs2.Accounting
import Nbfs.Nbfs2.Codec
import Nbfs.Nbfs2.TransferSize
import Nbfs.Nbfs2.Releases
import Nbfs.Nbfs2.Unloadable
import Nbfs.Fs.TreeOps
import Nbfs.Fs.NameBuffers
import Nbfs.Cache.PoolLife
import Nbfs.Calls.Clients
import Nbfs.Calls.FileLock
import Nbfs.Calls.Semaphore
import Nbfs.Cache.FailedAppend
import Nbfs.Nbfs2.IdText
import Nbfs.Nbfs2.ScanInvariant
import Nbfs.BplusTree.Climb
import Nbfs.BplusTree.IndexSafety
import Nbfs.Fs.AtRest
import Nbfs.Fs.RenameMoves
import Nbfs.Fs.CallEnds
import Nbfs.Fs.LastClose
import Nbfs.Fs.Metadata
import Nbfs.Fs.Mounted
import Nbfs.Fs.Stored
import Nbfs.Fs.StoredRuns
import Nbfs.Fs.Loadable
import Nbfs.Cache.Stranded
import Nbfs.Cache.Durable
import Nbfs.Cache.Acknowledged
import Nbfs.BplusTree.Teardown
import Nbfs.Fs.Reload
import Nbfs.Fs.Remount
import Nbfs.Cache.ReadAhead
import Nbfs.Cache.ReadBytes
import Nbfs.Cache.Crashes
import Nbfs.Calls.Requests
import Nbfs.Cache.Effort
