import Tgfs.Misc.Prog
import Tgfs.Misc.Journal
import Tgfs.Misc.Run
import Tgfs.Misc.PosixBytes
import Tgfs.Misc.Grid
import Tgfs.Misc.Tally
import Tgfs.Misc.Paging
import Tgfs.Misc.Paths
import Tgfs.Misc.Blobs
import Tgfs.Misc.Conn
import Tgfs.Misc.Utf8
import Tgfs.Meta
import Tgfs.MetaProps
import Tgfs.MetaSteps
import Tgfs.MetaConn
import Tgfs.MetaConnProps
import Tgfs.MetaAtomic
import Tgfs.Store.Acts
import Tgfs.Store.Journal
import Tgfs.Store.Methods
import Tgfs.Store.IterChunks
import Tgfs.Store.Proofs.Accounting
import Tgfs.Store.Proofs.Steps
import Tgfs.Store.Proofs.PoolSteps
import Tgfs.Store.Proofs.RowSteps
import Tgfs.Store.Proofs.Safe
import Tgfs.Store.Proofs.PutFile
import Tgfs.Store.Proofs.Threads
import Tgfs.Store.Proofs.Actions
import Tgfs.Store.Proofs.Scan
import Tgfs.Store.Proofs.Stops
import Tgfs.Store.Proofs.Reads
import Tgfs.Store.Proofs.Calm
import Tgfs.Store.Proofs.Roundtrip
import Tgfs.Store.Proofs.Incremental
import Tgfs.Store.Proofs.Undo
import Tgfs.Store.Proofs.Dedup
import Tgfs.Store.Proofs.Deletes
import Tgfs.Store.Proofs.Sequential
import Tgfs.Store.Proofs.IterChunks
import Tgfs.Store.Proofs.Uploads
import Tgfs.Cache.FileState
import Tgfs.Cache.FileOps
import Tgfs.Cache.Requests
import Tgfs.Cache.Writeback
import Tgfs.Cache.Clients
import Tgfs.Cache.ReadCache
import Tgfs.Cache.Readahead
import Tgfs.Cache.RangeReads
import Tgfs.Cache.CacheLives
import Tgfs.Cache.Readers
import Tgfs.Cache.Proofs.View
import Tgfs.Cache.Proofs.Edit
import Tgfs.Cache.Proofs.Flush
import Tgfs.Cache.Proofs.Materialize
import Tgfs.Cache.Proofs.Contents
import Tgfs.Cache.Proofs.Regrid
import Tgfs.Cache.Proofs.Robust
import Tgfs.Cache.Proofs.Frame
import Tgfs.Cache.Proofs.Twin
import Tgfs.Cache.Proofs.Manager
import Tgfs.Cache.Proofs.Reaper
import Tgfs.Cache.Proofs.Emptied
import Tgfs.Cache.Proofs.Handles
import Tgfs.Cache.Proofs.Failures
import Tgfs.Cache.Proofs.Rewrite
import Tgfs.Cache.Proofs.Serves
import Tgfs.Cache.Proofs.Files
import Tgfs.Cache.Proofs.Shutdown
import Tgfs.Cache.Proofs.Holes
import Tgfs.Cache.Proofs.Requests
import Tgfs.Cache.Proofs.Lru
import Tgfs.Cache.Proofs.Singleflight
import Tgfs.Cache.Proofs.Readahead
import Tgfs.Cache.Proofs.Todo
import Tgfs.Cache.Proofs.RangeReads
import Tgfs.Cache.Proofs.Through
import Tgfs.Cache.Proofs.CacheLives
import Tgfs.Fuse.FsCore
import Tgfs.Fuse.Mount
import Tgfs.Fuse.MountNames
import Tgfs.Fuse.Proofs.Names
import Tgfs.Fuse.Proofs.Isolation
import Tgfs.Fuse.Proofs.Runs
import Tgfs.Fuse.Proofs.Handles
import Tgfs.Fuse.Proofs.Times
import Tgfs.Fuse.Proofs.Numbers
import Tgfs.Fuse.Proofs.Existing
import Tgfs.Fuse.Proofs.Files
import Tgfs.Fuse.Proofs.Mounts
import Tgfs.Names.Namespace
import Tgfs.Names.Linked
import Tgfs.Names.Tree
import Tgfs.Names.Index
import Tgfs.Names.Keeps
import Tgfs.Names.Steps
import Tgfs.Names.Invariants
import Tgfs.Names.Runs
import Tgfs.Names.Rename
import Tgfs.Names.Listing
import Tgfs.Names.RoundTrip
import Tgfs.Names.Edits
import Tgfs.Names.Paths
import Tgfs.Transfer.FastTransfer
import Tgfs.Transfer.Proofs.Parts
import Tgfs.Transfer.Proofs.RoundTrip
import Tgfs.Transfer.Telegram
import Tgfs.Transfer.Proofs.Telegram
import Tgfs.Transfer.SenderPool
import Tgfs.Transfer.Proofs.SenderPool
