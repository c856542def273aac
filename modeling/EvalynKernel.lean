import EvalynKernel.LocksMutex
import EvalynKernel.LocksTicketlock
import EvalynKernel.DstructLlistLinks
import EvalynKernel.DstructPheapRuns
import EvalynKernel.DstructRbtreeQueries
import EvalynKernel.LibcString
import EvalynKernel.LibcStdlibRequests
import EvalynKernel.MemVmemIdentity
import EvalynKernel.ArchTlb
import EvalynKernel.MemPfndb
import EvalynKernel.ArchPagingSplit
import EvalynKernel.SchedExit
import EvalynKernel.SchedFpu
import EvalynKernel.SchedReclaim
import EvalynKernel.SchedProgress
import EvalynKernel.SyscallsFutexWakes
import EvalynKernel.ArchPagingLookup
import EvalynKernel.SyscallsAnonMem
import EvalynKernel.LoaderDwarfLineLookup
import EvalynKernel.LoaderDwarfCfiTable
import EvalynKernel.ArchTimerNested
import EvalynKernel.AcpiMadt
import EvalynKernel.DstructRbtreeIteration
