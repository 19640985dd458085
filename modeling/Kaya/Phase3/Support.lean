import Kaya.Lib.Program
import Kaya.Types

/-!
# The support level

Constants, tables and actions of the processes of phase 3.  Their functions are programs over
the actions of `Act`: system calls, accesses to the tables they share, to device registers and
to registers of the processor.
-/

namespace Kaya.Phase3

/-! ## `const.h` and `tconst.h` -/

def VMON : Word := 0x02000000

def TLBINVSW : Word := 2
def TLBINVLW : Word := 3

def TAPEINT : Word := 4
def TRANSMCHAR : Word := 2
def CHARTRANSMD : Word := 5

def EOT : Word := 0
def EOF : Word := 1

def SEEKCYL : Word := 2
def READBLK : Word := 3
def WRITEBLK : Word := 4

def MAXPAGES : Nat := 32
def MAXUPROC : Nat := 2
def POOLSIZE : Nat := MAXUPROC * 2
def KUSEGPTESIZE : Word := 32
def TRAPTYPES : Word := 3

def KSEGOSEND : Word := 0x20000000 + 64 * PAGESIZE
def UPROCSTACK : Word := KSEGOSEND - (BitVec.ofNat 32 MAXUPROC * 3 - 1) * PAGESIZE
def DISKDMABUFFER : Word := UPROCSTACK - 8 * PAGESIZE
def TAPEDMABUFFER : Word := DISKDMABUFFER - 8 * PAGESIZE

def KUSEG3NO : Word := 0x11

def WRITETERMINAL : Word := 10
def TERMINATE : Word := 18

/-! ## Tables -/

/-- `pteEntry_t` -/
structure Pte where
  entryHi : Word
  entryLo : Word

/-- `pteEntry_t *`: the page table of `uProcs[u]`, at index `j`. -/
inductive PtePtr where
  | null
  | entry (u j : Word)
  deriving DecidableEq

/-- `swapPool_t` -/
structure SwapEntry where
  spAsid : Word
  spSegNo : Word
  spPageNo : Word
  spPteEntry : PtePtr

/-- The global variables of phase 3 that are not semaphores. -/
structure Tables where
  frameNo : Word
  swapPool : Word → SwapEntry
  /-- `uProcs[u].u_pte.pteTable[j]` -/
  uPte : Word → Word → Pte
  /-- `kUseg3.pteTable[j]` -/
  kUseg3 : Word → Pte

namespace Tables

def entryLo (t : Tables) : PtePtr → Word
  | .null => 0
  | .entry u j => (t.uPte u j).entryLo

/-- `ptr->pte_entryLo = v` -/
def setEntryLo (t : Tables) : PtePtr → Word → Tables
  | .null, _ => t
  | .entry u j, v =>
      let e := { (t.uPte u j) with entryLo := v }
      { t with uPte := Function.update t.uPte u (Function.update (t.uPte u) j e) }

/-- `swapPool[fNo] = e` -/
def setSwap (t : Tables) (fNo : Word) (e : SwapEntry) : Tables :=
  { t with swapPool := Function.update t.swapPool fNo e }

end Tables

/-- The semaphores of phase 3. -/
inductive Sem where
  | swapPoolSem
  | masterSem
  | devSemArray (index : Word)
  deriving DecidableEq

/-! ## Processes -/

inductive Trap where
  | tlb
  | pgm
  | sys
  deriving DecidableEq

/-- The functions whose addresses go into new areas. -/
inductive Entry where
  | pager
  | userProgTrapHandler
  | userSyscallHandler
  deriving DecidableEq

/-- What `uProcInit` writes to a new area. -/
structure NewArea where
  sAsid : Word
  sSp : Word
  sStatus : Word
  sPc : Entry

/-- What a process does that other processes, the nucleus or a device can see. -/
inductive Act where
  | passeren (s : Sem)
  | verhogen (s : Sem)
  | waitio (lineNo devNo read : Word)
  | createprocess (sAsid sStatus : Word)
  | spectrapvec (type : Trap) (new : NewArea)
  | getSTATUS
  | setSTATUS (status : Word)
  | getENTRYHI
  | TLBCLR
  | setCommand (reg v : Word)
  | setData0 (reg v : Word)
  | setData1 (reg v : Word)
  | getData1 (reg : Word)
  /-- An access to the tables. -/
  | tables (f : Tables → Word × Tables)
  /-- A load from virtual memory. -/
  | load (virtAddr : Word)

/-- How control leaves a function of phase 3 for good. -/
inductive Leave where
  /-- `LDST` of the old area of a trap, which holds `st`. -/
  | ldst (trap : Trap) (st : State)
  /-- `LDST` of the state in which the user's program starts. -/
  | user (sAsid sSp sStatus sPc : Word)
  /-- `SYSCALL(TERMINATE, 0, 0, 0)`. -/
  | terminate
  /-- `SYSCALL(TERMINATEPROCESS, 0, 0, 0)`. -/
  | terminateprocess
  /-- Back to the head of the loop of `tapeToDisk(asid)`. -/
  | again (asid i : Word)

abbrev SupM := Lib.Program Act Word Leave

abbrev Prog := SupM Unit

open Lib.Program

/-- `SYSCALL(PASSEREN, s, 0, 0)` -/
def passeren (s : Sem) : SupM Unit := issue (.passeren s)

/-- `SYSCALL(VERHOGEN, s, 0, 0)` -/
def verhogen (s : Sem) : SupM Unit := issue (.verhogen s)

/-- `SYSCALL(WAITIO, lineNo, devNo, read)` -/
def waitForIO (lineNo devNo read : Word) : SupM Word := perform (.waitio lineNo devNo read)

def look (f : Tables → Word) : SupM Word := perform (.tables fun t => (f t, t))

def write (f : Tables → Tables) : SupM Unit := issue (.tables fun t => (0, f t))

/-- The number of a process, from `ENTRYHI`.  Outside the pager the code shifts an `int`, which
extends the sign of numbers from 32 on; `test` creates 1 and 2. -/
def asidOf (entryHi : Word) : Word := (entryHi <<< 20) >>> 26

end Kaya.Phase3
