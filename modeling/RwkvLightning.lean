import RwkvLightning.Library.Association
import RwkvLightning.Library.Binary64
import RwkvLightning.Library.Execution
import RwkvLightning.Library.Slots
import RwkvLightning.Library.StableList
import RwkvLightning.Library.LinkedMap
import RwkvLightning.Library.RecencyList
import RwkvLightning.Inference.RadixTree
import RwkvLightning.Inference.PrefixCache
import RwkvLightning.Inference.PrefixCacheRefinement
import RwkvLightning.Inference.PrefixCachePool
import RwkvLightning.Inference.PrefixCachePoolSafety
import RwkvLightning.Inference.Backend
import RwkvLightning.Inference.Prefill
import RwkvLightning.Server.StateCache
import RwkvLightning.Server.StateCacheView
import RwkvLightning.Server.StateCacheSafety
import RwkvLightning.Server.PrefillAdmission
import RwkvLightning.Server.PrefillAdmissionSafety
import RwkvLightning.Server.ModelRouter
import RwkvLightning.Server.ModelRouterSafety
import RwkvLightning.Library.ReverseAccumulation
import RwkvLightning.Training.Executor
import RwkvLightning.Training.ExecutorExact
import RwkvLightning.Server.UploadedStateStore
import RwkvLightning.Server.SessionIsolation
import RwkvLightning.Server.UploadedStateStoreSafety
import RwkvLightning.Library.Interleaving
import RwkvLightning.Library.GuardedTable
import RwkvLightning.Router.Broadcast
import RwkvLightning.Router.ResourceSync
import RwkvLightning.Router.Placement
import RwkvLightning.Router.Handlers
import RwkvLightning.Router.Acknowledgment
import RwkvLightning.Inference.PromptCache
import RwkvLightning.Inference.PromptCacheExact
import RwkvLightning.Inference.PromptCacheRuns
import RwkvLightning.Router.System
import RwkvLightning.Router.StatePlacementSafety
import RwkvLightning.Router.AdapterDeletion
import RwkvLightning.Router.NotFound
import RwkvLightning.Inference.AdapterCache
import RwkvLightning.Inference.AdapterCacheSafety
import RwkvLightning.Server.RequestRegistry
import RwkvLightning.Server.RequestRegistrySafety
import RwkvLightning.Training.TuningLoop
import RwkvLightning.Training.TuningResume
import RwkvLightning.Library.Command
import RwkvLightning.Inference.PrefixCachePoolEffects
import RwkvLightning.Inference.Text
import RwkvLightning.OnlineRl.Rollout
import RwkvLightning.OnlineRl.Server
import RwkvLightning.OnlineRl.RolloutExact
import RwkvLightning.OnlineRl.PolicyHistory
import RwkvLightning.OnlineRl.GenerationExact
import RwkvLightning.OnlineRl.PublishAtomicity
import RwkvLightning.Io.PthArchive
import RwkvLightning.Io.PthArchiveSafety
import RwkvLightning.Io.PthReadersAgree
import RwkvLightning.Library.Utf8
import RwkvLightning.Inference.TextExact
import RwkvLightning.Inference.DecodeRow
import RwkvLightning.Inference.DecodeRowExact
import RwkvLightning.Inference.DecodeScheduler
import RwkvLightning.Inference.DecodeSchedulerFrame
import RwkvLightning.Inference.DecodeSchedulerTally
import RwkvLightning.Inference.DecodeSchedulerStep
import RwkvLightning.Inference.DecodeSchedulerConservation
import RwkvLightning.Inference.DecodeSchedulerRuns
import RwkvLightning.Inference.DecodeSchedulerStream
import RwkvLightning.Inference.DecodeSchedulerSeats
import RwkvLightning.Inference.DecodeSchedulerRebuild
import RwkvLightning.Inference.DecodeSchedulerTurns
import RwkvLightning.Inference.DecodeSchedulerService
import RwkvLightning.Inference.DecodeSchedulerExact
import RwkvLightning.Inference.PrefillPasses
import RwkvLightning.Library.GreedySplit
import RwkvLightning.Inference.Tokenizer
import RwkvLightning.Inference.TokenizerExact
import RwkvLightning.Inference.VocabFile
import RwkvLightning.Inference.VocabFileExact
import RwkvLightning.Library.LaneCopy
import RwkvLightning.Inference.StateSlice
import RwkvLightning.Inference.DecodeChunks
import RwkvLightning.Server.TokenBudget
import RwkvLightning.Server.TokenBudgetSafety
import RwkvLightning.Server.HandlerExits
import RwkvLightning.Server.HandlerBalance
import RwkvLightning.Library.Strided
import RwkvLightning.Io.PthPickle
import RwkvLightning.Io.PthTensor
import RwkvLightning.Io.PthTensorRead
import RwkvLightning.Io.PthTensorSafety
import RwkvLightning.Io.PthWriter
import RwkvLightning.Io.PthWriterArchive
import RwkvLightning.Io.PthWriterProgram
import RwkvLightning.Io.PthRoundTrip
import RwkvLightning.Server.StatePth
import RwkvLightning.Server.StatePthExact
import RwkvLightning.Server.StatePthSafety
import RwkvLightning.Server.UploadedStateLoads
import RwkvLightning.Server.UploadedStateConflicts
import RwkvLightning.Router.StateIdentity
import RwkvLightning.Router.InFlight
import RwkvLightning.Library.Cursor
import RwkvLightning.Quant.Archive
import RwkvLightning.Quant.ArchiveLayout
import RwkvLightning.Quant.ArchiveSafety
import RwkvLightning.Quant.ArchiveRoundTrip
import RwkvLightning.Library.JsonString
import RwkvLightning.Library.Scanner
import RwkvLightning.Training.Dataset
import RwkvLightning.Training.DatasetStrings
import RwkvLightning.Training.DatasetFormat
import RwkvLightning.Training.DatasetExact
import RwkvLightning.Launcher.JsonDecoder
import RwkvLightning.Launcher.DatasetCheck
import RwkvLightning.Launcher.JsonDecoderExact
import RwkvLightning.Launcher.DatasetCheckSound
import RwkvLightning.Launcher.DatasetCheckComplete
import RwkvLightning.Launcher.DatasetAgreement
import RwkvLightning.Inference.RadixCompression
import RwkvLightning.Inference.PrefixCacheShape
import RwkvLightning.Library.BinaryFormat
import RwkvLightning.Io.HalfConversion
import RwkvLightning.Library.GoStrings
import RwkvLightning.Library.Feed
import RwkvLightning.Launcher.LogStream
import RwkvLightning.Launcher.Devices
import RwkvLightning.Launcher.DeviceExclusion
import RwkvLightning.Library.FileTree
import RwkvLightning.Launcher.FileBrowser
import RwkvLightning.Library.Separated
import RwkvLightning.Launcher.JsonText
import RwkvLightning.Launcher.JsonTextExact
import RwkvLightning.Library.GoUrl
import RwkvLightning.Launcher.BackendRegistry
import RwkvLightning.Launcher.BackendRegistryExact
import RwkvLightning.Launcher.BackendRegistryDurability
import RwkvLightning.Io.PthRoundTrip
