import Lmosem.Lib.Queues
import Lmosem.Lib.Ring
import Lmosem.Lib.Outcome
import Lmosem.Lib.Poll
import Lmosem.Lib.Counter
import Lmosem.Lib.Bits
import Lmosem.Types.List
import Lmosem.Hal.Types
import Lmosem.Hal.Delay
import Lmosem.Hal.Mm
import Lmosem.Hal.Mach
import Lmosem.Lib.Region
import Lmosem.Hal.Shelves
import Lmosem.Hal.ShelvesSteps
import Lmosem.Hal.Calls
import Lmosem.Hal.Refinement
import Lmosem.Hal.Init
import Lmosem.Hal.Tables
import Lmosem.Hal.Partition
import Lmosem.Hal.Boot
import Lmosem.Lib.Run
import Lmosem.Lib.Reorder
import Lmosem.Lib.Spinlock
import Lmosem.Hal.Runs
import Lmosem.Hal.Tiled
import Lmosem.Hal.Atomic
import Lmosem.Hal.Tails
import Lmosem.Hal.Safety
import Lmosem.Hal.FullLists
import Lmosem.Hal.Balance
import Lmosem.Hal.BlkTest
import Lmosem.Hal.KernelImage
import Lmosem.Hal.LateExits
import Lmosem.Hal.FreeOrder
import Lmosem.Hal.Frees
import Lmosem.Lib.Chain
import Lmosem.Kernel.MemPool
import Lmosem.Kernel.Pools
import Lmosem.Kernel.PoolInit
import Lmosem.Kernel.PoolSet
import Lmosem.Kernel.PoolInv
import Lmosem.Kernel.PoolSteps
import Lmosem.Kernel.PoolCalls
import Lmosem.Kernel.PoolRuns
import Lmosem.Kernel.PoolLayout
import Lmosem.Kernel.PageSafety
import Lmosem.Kernel.FailedAlloc
import Lmosem.Kernel.FreePage
import Lmosem.Kernel.Chains
import Lmosem.Kernel.Refusals
import Lmosem.Kernel.Drain
import Lmosem.Kernel.PoolLocks
import Lmosem.Kernel.SharedBlocks
import Lmosem.Kernel.PageTest
import Lmosem.Lib.While
import Lmosem.Lib.LongDivision
import Lmosem.Clib.Div64
import Lmosem.Lib.Numeral
import Lmosem.Clib.Ctype
import Lmosem.Clib.PutDec
import Lmosem.Lib.Memory
import Lmosem.Clib.Out
import Lmosem.Clib.Number
import Lmosem.Clib.Format
import Lmosem.Clib.FormatText
import Lmosem.Clib.Vsnprintf
import Lmosem.Clib.Overruns
import Lmosem.Clib.Scan
import Lmosem.Clib.ScanNumber
import Lmosem.Clib.Readback
import Lmosem.Clib.RoundTrip
import Lmosem.Lib.Arm
import Lmosem.Lib.ArmRun
import Lmosem.Hal.Division
import Lmosem.Hal.DivisionLoops
import Lmosem.Hal.Udivsi3
import Lmosem.Hal.Umodsi3
import Lmosem.Hal.Divsi3
import Lmosem.Hal.Modsi3
import Lmosem.Hal.Divmod
import Lmosem.Lib.CString
import Lmosem.Lib.Critical
import Lmosem.Hal.Uart
import Lmosem.Clib.Strings
import Lmosem.Clib.Copies
import Lmosem.Clib.Printf
