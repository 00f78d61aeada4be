import OS32.Basic
import OS32.NullList
import OS32.Bytes
import OS32.Run
import OS32.BuddyTable
import OS32.BinaryTable
import OS32.BuddyModel
import OS32.BuddyRepresentation
import OS32.BuddyAllocRefinement
import OS32.BuddyFreeRefinement
import OS32.BuddyFind
import OS32.BuddyStale
import OS32.BuddyInit
import OS32.BuddySession
import OS32.BuddyAllocSize
import OS32.BuddySplitNull
import OS32.BuddyFailure
import OS32.BuddyDigits
import OS32.BuddyPartition
import OS32.MemoryMap
import OS32.FramesRecorded
import OS32.BuddyContiguity
import OS32.BuddyBlend
import OS32.LockModel
import OS32.LockInvariant
import OS32.VmModel
import OS32.Intervals
import OS32.RegionLookup
import OS32.RegionInsert
import OS32.PageList
import OS32.PageAddress
import OS32.PageTableAlgebra
import OS32.BuddyFrame
import OS32.VmSteps
import OS32.PageTableWalks
import OS32.SwapList
import OS32.ClockVictim
import OS32.InterruptFlag
import OS32.IoQueue
import OS32.Console
import OS32.VgaCursor
import OS32.KString
import OS32.Strcpy
import OS32.Numeral
import OS32.Sprintk
import OS32.SprintkTurns
import OS32.SprintkText
import OS32.SprintkBounds
import OS32.SprintkScan
import OS32.SprintkSigned
import OS32.Printk
import OS32.RingList
import OS32.IntrusiveList
import OS32.SchedModel
import OS32.RoundRobin
import OS32.TimeSlices
import OS32.Sleep
import OS32.ThreadBlock
import OS32.SchedLockModel
import OS32.EarlyBoot
import OS32.SchedLockInvariant
import OS32.IoqWait
import OS32.Ia32
import OS32.SwitchTo
import OS32.RefCount
import OS32.PageFault
import OS32.WriteLog
import OS32.SwapData
import OS32.SwapSlots
import OS32.DirectMap
import OS32.Keyboard
import OS32.Ia32Interrupt
import OS32.Interrupt
import OS32.SlabModel
import OS32.SlabSteps
import OS32.SlabPages
import OS32.SlabTally
import OS32.SlabLeak
import OS32.SlabObjects
import OS32.SlabLayout
import OS32.SlabLists
import OS32.SlabUnlink
import OS32.SlabRuns
import OS32.SlabRefusal
import OS32.SlabClasses
import OS32.RegionStack
import OS32.SlabStock
import OS32.SlabContract
import OS32.SlabAccounts
import OS32.SlabExhaustion
import OS32.SlabPlan
import OS32.SlabCapacity
import OS32.PrintkScreen
import OS32.Elf
import OS32.StackTrace
import OS32.BootPaging
import OS32.KeyboardInput
import OS32.Rotation
import OS32.FairShare
import OS32.IrqDelivery
import OS32.LockProgress
import OS32.Tlb
import OS32.PagedMemory
import OS32.Preemption
