import Sudachi.Kernel.MemoryBlockLedger
import Sudachi.Kernel.DynamicPageManager
import Sudachi.Kernel.MemoryManagerOptimize
import Sudachi.Memory.CheatVmEncoding
import Sudachi.Kernel.ServerSessionProtocol
import Sudachi.Kernel.PageTableHeapCopy
import Sudachi.Kernel.PageTableOperate
import Sudachi.Kernel.PageTableIpcRollback
import Sudachi.Kernel.HandleTableRuns
import Sudachi.Common.FlatAllocator
import Sudachi.Common.RangeMap
import Sudachi.Common.HeapTrackerRuns
import Sudachi.Kernel.AddressArbiterRuns
import Sudachi.Core.CoreTimingRuns
import Sudachi.Core.DeviceMemoryBlocks
import Sudachi.Core.DeviceMemoryMarks
import Sudachi.Kernel.ThreadLocksRuns
import Sudachi.Kernel.ThreadLocksTermination
import Sudachi.Kernel.ConditionVariableRuns
import Sudachi.Service.BufferQueueOrder
import Sudachi.Service.BufferQueueCount
import Sudachi.Service.BufferQueueGap
import Sudachi.FileSys.IpsLayerPatches
import Sudachi.VideoCore.MemoryTrackerProtection
import Sudachi.VideoCore.GpuMemoryQueries
import Sudachi.Shader.ConstantPropagationPass
import Sudachi.Service.NvMapRuns
import Sudachi.VideoCore.SyncpointManagerRuns
import Sudachi.VideoCore.MacroEngineRuns
import Sudachi.FileSys.PathNormalizerResults
import Sudachi.Service.HeapMapperRuns
import Sudachi.Common.ParamPackage
import Sudachi.Common.SlotVectorRuns
import Sudachi.AudioCore.AudioBuffersRuns
import Sudachi.AudioCore.SplitterContextLists
import Sudachi.AudioCore.MixContext
import Sudachi.VideoCore.BitWritersRoundTrip
import Sudachi.Memory.CheatVmDepth
import Sudachi.Kernel.FreeAreaRandom
import Sudachi.Kernel.ReceiveList
import Sudachi.Kernel.ResourceLimit
import Sudachi.Kernel.PageTableGroups
import Sudachi.Memory.TextCheatGrammar
import Sudachi.Shader.LowerInt64
import Sudachi.Service.NvMapPressure
import Sudachi.VideoCore.InvalidationAccumulator
import Sudachi.FileSys.RomFS
import Sudachi.FileSys.CharacterEncoding
import Sudachi.Service.BufferQueueSignal
import Sudachi.Shader.BitFieldFolds
