import Umbra.A32.ConditionFolding
import Umbra.A32.LoadStoreStructures
import Umbra.A32.PortableArtifact
import Umbra.A32.Precompile
import Umbra.A32.PushPop
import Umbra.A32.StaleCode
import Umbra.A64.CallbackConfigPass
import Umbra.Arm64.PendingRequests
import Umbra.Arm64.RangeRegistry
import Umbra.Arm64.ReadWriteFlags
import Umbra.Arm64.ReturnStack
import Umbra.Arm64.SegmentRotation
import Umbra.Arm64.SlabMemory
import Umbra.Backend.A32JitState
import Umbra.Backend.BlockRangeTable
import Umbra.Common.Crypto.Aes
import Umbra.Common.Crypto.Crc32
import Umbra.FP.Convert
import Umbra.FP.StepFused
import Umbra.FP.RSqrtEstimate
import Umbra.FP.RoundInt
import Umbra.FP.ToFixedFlags
import Umbra.Frontend.Decoder
import Umbra.IR.ConstantDivision
import Umbra.IR.DeadCodeElimination
import Umbra.Interface.MonitorModes
import Umbra.X64.PatchTable
import Umbra.X64.RegAllocScan
import Umbra.X64.RunningCode
