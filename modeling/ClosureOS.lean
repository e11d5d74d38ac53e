import ClosureOS.BootHandover
import ClosureOS.HeapSafety
import ClosureOS.SlabAvailability
import ClosureOS.PageTableRefine
import ClosureOS.KernelImage
import ClosureOS.BootEnumerate
import ClosureOS.PoolRoundTrip
import ClosureOS.PoolOwner
import ClosureOS.PoolBounds
import ClosureOS.PoolGather
import ClosureOS.DtorRegistry
import ClosureOS.ConsoleRefine
import ClosureOS.DualOutput
import ClosureOS.DatabaseBounds
import ClosureOS.DirectMap
import ClosureOS.LargeRequests
import ClosureOS.SlabSlicing
import ClosureOS.TagBounds
import ClosureOS.TagFrames
import ClosureOS.GlyphRendering
import ClosureOS.FbGeometry
import ClosureOS.BootTtyInit
import ClosureOS.HeapFootprint
import ClosureOS.SpinLock
import ClosureOS.CircularList
import ClosureOS.ListHead
import ClosureOS.Numerals
import ClosureOS.NumberPrinting
import ClosureOS.HeadLookup
import ClosureOS.PoolSlots
import ClosureOS.HandoverLoop
import ClosureOS.BootMmInit
import ClosureOS.AllocGuard
import ClosureOS.SlabRedo
import ClosureOS.ListIteration
import ClosureOS.GlobalConstructors
