import Oxbow.Lib.Ring
import Oxbow.Lib.LastWrite
import Oxbow.DevFS.Bio
import Oxbow.DevFS.Coalesce
import Oxbow.DevFS.CoalesceOptimize
import Oxbow.DevFS.CoalesceIssue
import Oxbow.DevFS.Checkpoint
import Oxbow.Daemon.Fsync
import Oxbow.Daemon.FsyncDurable
import Oxbow.DevFS.PersistData
import Oxbow.Daemon.Buffer
import Oxbow.Daemon.JournalFiles
import Oxbow.Daemon.InlineRead
import Oxbow.Daemon.InlineReadPool
import Oxbow.Daemon.InlineReadOnce
import Oxbow.Daemon.InlineReadTwice
import Oxbow.Daemon.StageArea
import Oxbow.Daemon.Layout
import Oxbow.Common.Sjd
import Oxbow.DevFS.StageScan
import Oxbow.Daemon.StageTx
import Oxbow.Daemon.StageImage
import Oxbow.Daemon.StageRoundTrip
import Oxbow.DevFS.Log
import Oxbow.DevFS.Commit
import Oxbow.DevFS.LogSafety
import Oxbow.DevFS.CommitTurn
import Oxbow.DevFS.WriteAhead
import Oxbow.Daemon.JournalMeta
import Oxbow.Daemon.JournalBuild
import Oxbow.Daemon.StageCommit
import Oxbow.Daemon.StageLife
import Oxbow.Daemon.StageApply
import Oxbow.Daemon.PageLock
import Oxbow.Daemon.PageLockOwner
import Oxbow.Daemon.PageGather
import Oxbow.Lib.Memory
import Oxbow.LibFS.ReadWrite
import Oxbow.LibFS.Offset
import Oxbow.LibFS.PathCache
import Oxbow.Daemon.ReadPump
import Oxbow.Daemon.FileWorker
import Oxbow.Daemon.Readahead
import Oxbow.Daemon.Transactions
import Oxbow.DevFS.LogOrder
import Oxbow.Daemon.CommitResponse
import Oxbow.Daemon.FsyncBounce
import Oxbow.Daemon.RunningTrans
import Oxbow.Daemon.RunningTransAlive
import Oxbow.Lib.Fifo
import Oxbow.Common.RingBufferMpmc
import Oxbow.Common.RingBufferMpmcFifo
import Oxbow.Common.RingBufferOccupancy
import Oxbow.Lib.Chain
import Oxbow.Common.OxbSlab
import Oxbow.Lib.BitRun
import Oxbow.Lib.ByteMap
import Oxbow.Lib.RingInterval
import Oxbow.Daemon.SefsBlocks
import Oxbow.Daemon.SefsExtents
import Oxbow.Daemon.SefsLookup
import Oxbow.Daemon.SefsDir
import Oxbow.Daemon.SefsDirMap
import Oxbow.Daemon.SefsCreate
import Oxbow.Daemon.IrdDump
import Oxbow.Daemon.StageReserve
import Oxbow.Daemon.StageAccounts
import Oxbow.Daemon.JournalChunks
import Oxbow.Daemon.JournalRefs
import Oxbow.Daemon.WaitingLists
import Oxbow.Daemon.FsyncLocks
import Oxbow.Lib.Halfword
import Oxbow.Daemon.IrdCodec
import Oxbow.Daemon.DirtyBits
import Oxbow.Daemon.DirtyBitsExact
import Oxbow.Daemon.SyncFileData
import Oxbow.Daemon.StageSlots
import Oxbow.Daemon.StageSlotsRun
import Oxbow.Daemon.SeqPool
import Oxbow.DevFS.Dispatch
import Oxbow.DevFS.DispatchRun
import Oxbow.DevFS.CheckpointTx
import Oxbow.DevFS.CheckpointEffect
import Oxbow.DevFS.CheckpointAgree
import Oxbow.DevFS.JournalStore
import Oxbow.DevFS.StartCheckpoint
