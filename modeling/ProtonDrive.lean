import ProtonDrive.SlashPaths
import ProtonDrive.KeyedMaps
import ProtonDrive.FallibleSteps
import ProtonDrive.DriveApi
import ProtonDrive.MetaCache
import ProtonDrive.BlockCache
import ProtonDrive.DriveSession
import ProtonDrive.RemoteTree
import ProtonDrive.CacheTransparency
import ProtonDrive.EventPoller
import ProtonDrive.EventFreshness
import ProtonDrive.ChangeNotices
import ProtonDrive.FreshListings
import ProtonDrive.EventReplay
import ProtonDrive.PathMaps
import ProtonDrive.BlockedFiles
import ProtonDrive.FileReads
import ProtonDrive.JsonNodes
import ProtonDrive.RpcClient
import ProtonDrive.RpcConnections
import ProtonDrive.ReadHandles
import ProtonDrive.Shedding
import ProtonDrive.BlockEviction
import ProtonDrive.PollLoop
import ProtonDrive.ChangeMonitors
import ProtonDrive.OnlineReads
import ProtonDrive.DirectoryHandlers
import ProtonDrive.VisibleEntries
import ProtonDrive.SessionViews
import ProtonDrive.SessionRuns
import ProtonDrive.ReadYourWrites
import ProtonDrive.ErrorClasses
import ProtonDrive.BlockStore
import ProtonDrive.BlockIntegrity
import ProtonDrive.Programs
import ProtonDrive.SessionPrograms
import ProtonDrive.PathSpellings
import ProtonDrive.ResponseFlow
import ProtonDrive.StalenessBound
import ProtonDrive.StaleFills
import ProtonDrive.Alternation
import ProtonDrive.AccountWatcher
import ProtonDrive.WatcherConvergence
import ProtonDrive.PartialRuns
import ProtonDrive.LoginSessions
import ProtonDrive.PathInvalidation
import ProtonDrive.OfflineReads
import ProtonDrive.ReadPrograms
import ProtonDrive.BlockAccesses
import ProtonDrive.NilBlockCache
import ProtonDrive.FolderKeyrings
import ProtonDrive.WireFormats
import ProtonDrive.TerminatingRuns
import ProtonDrive.RequestLoop
import ProtonDrive.RunLengthCodes
import ProtonDrive.CaptchaTrajectories
import ProtonDrive.ArraySlices
import ProtonDrive.EventQueue
import ProtonDrive.ListingDiff
import ProtonDrive.MonitorPaths
import ProtonDrive.ConnectionTeardown
import ProtonDrive.Thumbnails
import ProtonDrive.ThumbnailHonesty
import ProtonDrive.SharedPrograms
import ProtonDrive.ConcurrentReads
import ProtonDrive.Base64Texts
import ProtonDrive.SessionOpening
import ProtonDrive.Mounting
import ProtonDrive.CredentialRotation
import ProtonDrive.NotificationDelivery
import ProtonDrive.PercentEscapes
import ProtonDrive.CacheLayout
import ProtonDrive.VolumeListing
import ProtonDrive.FileInfos
import ProtonDrive.LeadingBits
import ProtonDrive.ProofOfWork
import ProtonDrive.SetupWindow
import ProtonDrive.FullRefreshes
import ProtonDrive.SessionLinks
import ProtonDrive.JsonStrings
import ProtonDrive.TrackedMaps
import ProtonDrive.LastWords
import ProtonDrive.PlainHistories
