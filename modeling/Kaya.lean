import Kaya.Types
import Kaya.Lib.Chain
import Kaya.Lib.CircularQueue
import Kaya.Lib.Control
import Kaya.Phase1.Pcb
import Kaya.Phase1.Asl
import Kaya.Phase2.Exceptions
import Kaya.Phase2.Initial
import Kaya.Phase1.Proofs.Asl
import Kaya.Phase1.Proofs.Alloc
import Kaya.Phase2.Abstract
import Kaya.Lib.Count
import Kaya.Lib.Run
import Kaya.Phase2.Proofs.Invariant
import Kaya.Phase2.Proofs.Shape
import Kaya.Phase2.Proofs.Refine
import Kaya.Lib.TailsFirst
import Kaya.Phase2.Proofs.Kill
import Kaya.Phase2.Proofs.Services
import Kaya.Phase2.Proofs.Interrupts
import Kaya.Phase2.Proofs.Sound
import Kaya.Phase2.Proofs.Boot
import Kaya.Phase2.Proofs.Reach
import Kaya.Phase2.Proofs.Plain
import Kaya.Phase2.Places
import Kaya.Phase2.Proofs.Frame
import Kaya.Phase2.Idle
import Kaya.Phase2.Context
import Kaya.Lib.Semaphore
import Kaya.Phase2.Semaphores
import Kaya.Phase1.Proofs.Harmless
import Kaya.Phase2.Transparency
import Kaya.Phase2.CpuTime
import Kaya.Phase1.Removal
import Kaya.Phase1.ChildLists
import Kaya.Lib.QueueMap
import Kaya.Phase1.SemaphoreMap
import Kaya.Phase2.Termination
import Kaya.Lib.Fifo
import Kaya.Phase2.RoundRobin
import Kaya.Lib.Program
import Kaya.Phase3.InitProc
import Kaya.Phase3.VmIOsupport
import Kaya.Phase3.System
import Kaya.Phase3.Proofs.Live
import Kaya.Phase3.Proofs.DiskRules
import Kaya.Phase3.Proofs.Moves
import Kaya.Phase3.Proofs.Mutex
import Kaya.Phase3.DiskExclusion
import Kaya.Phase3.Proofs.LockRules
import Kaya.Phase3.Proofs.LockInv
import Kaya.Phase3.Ends
import Kaya.Phase3.Proofs.TableRules
import Kaya.Phase3.Proofs.Tables
import Kaya.Phase3.PageFaults
import Kaya.Phase1.Capacity
import Kaya.Phase2.Waiters
import Kaya.Phase1.Ownership
import Kaya.Phase1.ProcQueues
import Kaya.Phase2.Clock
import Kaya.Phase2.Privileged
import Kaya.Phase3.Terminal
import Kaya.Phase2.Proofs.Files
import Kaya.Phase2.Terminals
import Kaya.Phase2.TrapAreas
import Kaya.Phase2.ClockTick
import Kaya.Phase2.WaitIO
import Kaya.Phase2.DeviceWait
import Kaya.Phase2.DeviceEntries
import Kaya.Phase2.Victims
import Kaya.Lib.Paging
import Kaya.Phase3.Paging
import Kaya.Lib.WaitsFor
import Kaya.Phase3.Devices
import Kaya.Phase3.Progress
import Kaya.Lib.Critical
import Kaya.Phase3.Isolation
import Kaya.Phase3.Proofs.SerialRules
import Kaya.Phase3.Serial
import Kaya.Lib.Kernel
import Kaya.Phase2.Proofs.Models
import Kaya.Phase2.Refinement
import Kaya.Phase3.Proofs.TapeInv
import Kaya.Phase3.Loading
import Kaya.Phase3.Proofs.Statuses
import Kaya.Phase3.Refinement
