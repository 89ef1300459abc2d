import RtHypervisor.Verified.Run
import RtHypervisor.Verified.PrefixArray
import RtHypervisor.Verified.Ledger
import RtHypervisor.Verified.RegFile
import RtHypervisor.Ports.ListRegister
import RtHypervisor.Ports.LrList
import RtHypervisor.Ports.LrListSpec
import RtHypervisor.Ports.LrMoves
import RtHypervisor.Ports.LrInject
import RtHypervisor.Ports.LrListInv
import RtHypervisor.Ports.LrRecord
import RtHypervisor.Ports.LrLedger
import RtHypervisor.Ports.Vcpu
import RtHypervisor.Ports.LrSleep
import RtHypervisor.Ports.SwitchContext
import RtHypervisor.Ports.SwitchIsolation
import RtHypervisor.Ports.ContextRoundTrip
import RtHypervisor.Ports.VgicRoundTrip
import RtHypervisor.Ports.InjectIsolation
import RtHypervisor.Verified.ByteMem
import RtHypervisor.Ports.Platform
import RtHypervisor.Ports.TrapIrq
import RtHypervisor.Ports.Stage2
import RtHypervisor.Ports.Mm
import RtHypervisor.Ports.VmLife
import RtHypervisor.Ports.Hypervisor
import RtHypervisor.Ports.VmLifeSpec
import RtHypervisor.Ports.HypervisorSpec
import RtHypervisor.Ports.VmTable
import RtHypervisor.Ports.VmIndices
import RtHypervisor.Ports.VmShape
import RtHypervisor.Ports.ConsoleInv
import RtHypervisor.Ports.ConsoleOwner
import RtHypervisor.Verified.Tiling
import RtHypervisor.Ports.SerialOpen
import RtHypervisor.Ports.SerialRx
import RtHypervisor.Ports.ShellLine
import RtHypervisor.Ports.SmallMem
import RtHypervisor.Ports.SmallMemBlocks
import RtHypervisor.Ports.SmallMemOps
import RtHypervisor.Ports.SmallMemAlloc
import RtHypervisor.Ports.SmallMemInv
import RtHypervisor.Verified.SkipList
import RtHypervisor.Ports.StrCompare
import RtHypervisor.Ports.Timer
import RtHypervisor.Ports.TimerList
import RtHypervisor.Ports.TimerRun
import RtHypervisor.Verified.WaitQueue
import RtHypervisor.Ports.Ipc
import RtHypervisor.Ports.Semaphore
import RtHypervisor.Ports.EventFlags
import RtHypervisor.Verified.Ring
import RtHypervisor.Ports.Mailbox
import RtHypervisor.Ports.MailboxRun
import RtHypervisor.Ports.Mutex
import RtHypervisor.Ports.MutexInv
import RtHypervisor.Ports.MutexSteps
import RtHypervisor.Ports.Inheritance
import RtHypervisor.Verified.LinkedWords
import RtHypervisor.Ports.MemheapAlloc
import RtHypervisor.Ports.MemheapFree
import RtHypervisor.Ports.MemheapRealloc
import RtHypervisor.Ports.MemheapRun
import RtHypervisor.Ports.MemheapInv
import RtHypervisor.Ports.MemheapFit
import RtHypervisor.Ports.Mempool
import RtHypervisor.Ports.MempoolRun
import RtHypervisor.Ports.MessageQueue
import RtHypervisor.Verified.Holders
import RtHypervisor.Ports.MessageQueueStore
import RtHypervisor.Ports.MessageQueueRun
import RtHypervisor.Ports.RingBuffer
import RtHypervisor.Verified.LinkedRing
import RtHypervisor.Ports.Completion
import RtHypervisor.Ports.WaitQueues
import RtHypervisor.Ports.Pipe
import RtHypervisor.Ports.Workqueue
import RtHypervisor.Ports.WorkqueueSync
import RtHypervisor.Ports.DataQueue
import RtHypervisor.Ports.DataQueueRun
import RtHypervisor.Verified.SList
import RtHypervisor.Ports.RingBlock
import RtHypervisor.Verified.Nearest
import RtHypervisor.Ports.RtcTime
import RtHypervisor.Verified.Gregorian
import RtHypervisor.Ports.Calendar
import RtHypervisor.Ports.TimegmCarry
import RtHypervisor.Ports.PrintNumber
import RtHypervisor.Ports.Vsnprintf
import RtHypervisor.Ports.VsnprintfDefined
import RtHypervisor.Ports.Alarm
import RtHypervisor.Ports.AlarmUpdate
import RtHypervisor.Ports.AlarmRun
import RtHypervisor.Verified.BitField
import RtHypervisor.Ports.Stage2Walk
import RtHypervisor.Ports.Stage2Rows
import RtHypervisor.Ports.Stage2Map
import RtHypervisor.Ports.Stage2Translate
import RtHypervisor.Ports.GuestMemory
import RtHypervisor.Ports.PagePool
import RtHypervisor.Ports.ImageLoad
import RtHypervisor.Ports.Stage2Unmap
import RtHypervisor.Ports.VgicEmulate
import RtHypervisor.Ports.VgicBounds
import RtHypervisor.Ports.VgicRegs
import RtHypervisor.Ports.VgicFields
import RtHypervisor.Ports.IrqOwner
import RtHypervisor.Ports.VdevMmio
import RtHypervisor.Ports.GicAttributes
import RtHypervisor.Ports.Vtimer
import RtHypervisor.Ports.HeapBytesSim
import RtHypervisor.Ports.Stage1Map
import RtHypervisor.Ports.MapErrors
import RtHypervisor.Ports.MapDemand
import RtHypervisor.Ports.HeapRealloc
import RtHypervisor.Ports.SmallMemFit
import RtHypervisor.Ports.SmallMemTags
import RtHypervisor.Ports.HeapBytes
import RtHypervisor.Verified.Simulation
import RtHypervisor.Ports.LrOrder
import RtHypervisor.Ports.LrPriority
import RtHypervisor.Ports.LrDisabled
import RtHypervisor.Ports.TimerControl
import RtHypervisor.Ports.RingBlockQueue
import RtHypervisor.Ports.PipeTransfer
import RtHypervisor.Ports.MallocAlign
import RtHypervisor.Ports.MshSplit
import RtHypervisor.Ports.MemRoutines
import RtHypervisor.Ports.LrHeap
