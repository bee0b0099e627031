import FileSync.Common.Interleave
import FileSync.Hub.Alone
import FileSync.Model.Engine
import FileSync.Hub.StaleDelete
import FileSync.Client.Calls
import FileSync.Client.LostRecord
import FileSync.Client.PullOverwrite
import FileSync.Model.HubClient
import FileSync.Client.RefusedPush
import FileSync.Model.Desktop
import FileSync.Client.Directory
import FileSync.Client.Reconcile
import FileSync.Client.Interrupted
import FileSync.Client.UserWrites
import FileSync.Client.UserPass
import FileSync.Hub.Calls
import FileSync.Client.Device
import FileSync.Client.BaseRevision
import FileSync.Client.Faults
import FileSync.Client.Repull
import FileSync.Client.InventedContent
import FileSync.Client.PhantomEdits
import FileSync.Hub.Addressing
import FileSync.Hub.Watched
import FileSync.Hub.Resolution
import FileSync.Hub.Resend
import FileSync.Hub.EditWins
import FileSync.Client.Tracking
import FileSync.Client.TrackedDevice
import FileSync.Client.Failover
import FileSync.Client.Convergence
import FileSync.Common.Percent
import FileSync.Model.HubUrls
import FileSync.Client.Routing
import FileSync.Client.Bookkeeping
import FileSync.Hub.Planning
import FileSync.Hub.Settling
import FileSync.Hub.HiddenEdits
import FileSync.Hub.Copies
import FileSync.Client.Repeated
import FileSync.Client.Queued
import FileSync.Model.Scan
import FileSync.Client.RealDeletions
import FileSync.Client.FileMap
import FileSync.Hub.BranchSeeds
import FileSync.Hub.CopyNames
import FileSync.Hub.MergeBase
import FileSync.Client.HubOrder
import FileSync.Hub.Responses
import FileSync.Hub.LeafLines
import FileSync.Hub.HalfWritten
import FileSync.Client.HeldContent
import FileSync.Client.HeldPush
import FileSync.Client.HeldBefore
import FileSync.Hub.Acknowledged
import FileSync.Client.Checkpoints
import FileSync.Client.WakePath
import FileSync.Common.Links
import FileSync.Model.Inotify
import FileSync.Client.DirWatch
import FileSync.Client.StorePaths
import FileSync.Model.Opfs
import FileSync.Client.HandleTree
import FileSync.Client.WebStores
import FileSync.Client.WebPage
import FileSync.Client.Untouched
import FileSync.Hub.Untouched
import FileSync.Client.DiskStores
import FileSync.Common.Fields
import FileSync.Model.Startup
import FileSync.Hub.Gate
import FileSync.Model.Wakeups
import FileSync.Hub.Wakeups
import FileSync.Model.FileResponse
import FileSync.Client.FileResponse
import FileSync.Hub.CutShort
