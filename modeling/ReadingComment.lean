import ReadingComment.Ktap.BcBuffer
import ReadingComment.Ktap.BcFrame
import ReadingComment.Ktap.BcRobust
import ReadingComment.Ktap.CallResults
import ReadingComment.Ktap.Divide
import ReadingComment.Ktap.EventDefs
import ReadingComment.Ktap.ForWraps
import ReadingComment.Ktap.Histogram
import ReadingComment.Ktap.JumpLists
import ReadingComment.Ktap.LexString
import ReadingComment.Ktap.Precedence
import ReadingComment.Ktap.StrCompare
import ReadingComment.Ktap.StrConcat
import ReadingComment.Ktap.StrFmtText
import ReadingComment.Ktap.TabDup
import ReadingComment.Ktap.TabStore
import ReadingComment.Ktap.Termination
import ReadingComment.Ktap.UpvalueRuns
import ReadingComment.Ktap.VarStack
import ReadingComment.Miqos.Bandwidth
import ReadingComment.Miqos.ClientSet
import ReadingComment.Miqos.HighPrioRuns
import ReadingComment.Miqos.Pending
import ReadingComment.Overlayfs.CopyUp
import ReadingComment.Overlayfs.ReadDir
import ReadingComment.Overlayfs.Xattr
import ReadingComment.Ovlfs.DirectoryReading
import ReadingComment.Ovlfs.InodeMaps
import ReadingComment.Ovlfs.ListSearch
import ReadingComment.Ovlfs.LockDiscipline
import ReadingComment.Ovlfs.StorageMount
import ReadingComment.Spserver.BufferFind
import ReadingComment.Spserver.CircleQueue
import ReadingComment.Spserver.DotTerm
import ReadingComment.Spserver.ExecutorEnd
import ReadingComment.Spserver.HttpIncremental
import ReadingComment.Spserver.HttpRoundTrip
import ReadingComment.Spserver.IOChannel
import ReadingComment.Spserver.LineDecoder
import ReadingComment.Spserver.PoolEnds
import ReadingComment.Spserver.StaleSids
import ReadingComment.Spserver.Smtp
import ReadingComment.Spserver.StuckInput
import ReadingComment.Spserver.Tunnel
import ReadingComment.Spserver.WakeUps
import ReadingComment.Upload.PostData
import ReadingComment.Weighttp.Completion
import ReadingComment.Weighttp.ForgeRequest
import ReadingComment.Weighttp.Requests
import ReadingComment.Weighttp.Statistics
import ReadingComment.Weighttp.Workers
