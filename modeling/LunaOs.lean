import LunaOs.Lib.Runs
import LunaOs.Lib.StepwiseCall
import LunaOs.Lib.Ring
import LunaOs.Lib.Fips180
import LunaOs.StringOps
import LunaOs.Hash
import LunaOs.Sha256
import LunaOs.LedgerQueue
import LunaOs.LedgerQueueSteps
import LunaOs.LedgerQueueSpsc
import LunaOs.LedgerQueuePreempt
import LunaOs.Ledger
import LunaOs.LedgerVerify
import LunaOs.LedgerRun
import LunaOs.LedgerContents
import LunaOs.LedgerDag
import LunaOs.LedgerDelete
import LunaOs.LedgerRecycle
import LunaOs.Vfs
import LunaOs.Lib.Bitmap
import LunaOs.Pmm
import LunaOs.DirectMap
import LunaOs.Heap
import LunaOs.HeapCalls
import LunaOs.HeapFree
import LunaOs.HeapSize
import LunaOs.Multiboot
import LunaOs.PmmReserved
import LunaOs.PmmRun
import LunaOs.VmmKernelHalf
import LunaOs.VmmKernelImage
import LunaOs.VmmTranslate
import LunaOs.VmmUser
import LunaOs.HeapAccount
import LunaOs.HeapRealloc
import LunaOs.InterruptFrame
import LunaOs.Irq
import LunaOs.Lib.CircularList
import LunaOs.Lib.Handover
import LunaOs.SchedulerContext
import LunaOs.SchedulerFair
import LunaOs.SchedulerHardware
import LunaOs.SchedulerPriority
import LunaOs.AiCore
import LunaOs.Arena
import LunaOs.ArenaRun
import LunaOs.ArenaScopes
import LunaOs.CurrentProcess
import LunaOs.Compositor
import LunaOs.LedgerLayout
import LunaOs.LedgerRetention
import LunaOs.PrintfC
import LunaOs.ProcessTable
import LunaOs.Strtoul
import LunaOs.SurfaceLife
import LunaOs.SurfacePixels
import LunaOs.Syscall
import LunaOs.StringCompare
import LunaOs.ShellAi
import LunaOs.Lexer
import LunaOs.Font
import LunaOs.Memmove
import LunaOs.Lib.Descriptors
import LunaOs.Lib.Updates
import LunaOs.Gdt
import LunaOs.Idt
import LunaOs.Lib.Pic8259
import LunaOs.Pic
import LunaOs.IrqController
import LunaOs.Lib.Uart16550
import LunaOs.Uart
import LunaOs.LedgerTimer
import LunaOs.Lib.Paging32
import LunaOs.Boot
import LunaOs.BootMemory
import LunaOs.FrameOwners
import LunaOs.VmmTables
import LunaOs.Isolation
import LunaOs.ShellSession
import LunaOs.Sleep
import LunaOs.Screen
