import Kaya.Phase1.Asl

/-!
# The state of the nucleus

The globals of `initial.c` and `scheduler.c`, the machine registers the nucleus
reads and writes, and the memory outside its own variables.  `NucleusOf Λ` is
generic in how the process lists are kept: `Nucleus` keeps them as pointers,
the abstract nucleus as lists.

Integers that processes can address (semaphores and the entries of
`semDevArray`) and the state areas they name live in `mem`, a map from
addresses to words.
-/

namespace Kaya

/-- The addresses of `pcbArr`'s and `semdArr`'s entries. -/
abbrev Pcb := Fin MAXPROC
abbrev Semd := Fin (MAXPROC + 2)

instance Pcb.lawfulBEq : LawfulBEq Pcb := inferInstance

/-- What the linker and the machine fix. -/
structure Layout where
  semDevArray : Word
  test : Word
  sysCallHandler : Word
  progTrapHandler : Word
  tlbTrapHandler : Word
  ioTrapHandler : Word
  rambase : Word
  ramsize : Word
  aligned : semDevArray.toNat % 4 = 0
  positive : 0 < semDevArray.toNat
  /-- No device's index, the ones past the end of the array included, leads around the top
  of the address space. -/
  fits : semDevArray.toNat + 4 * (DEVICECNT + 8) < 2 ^ 32

/-- `&(semDevArray[index])`. -/
def Layout.semDev (K : Layout) (index : Word) : Word :=
  K.semDevArray + 4 * index

/-- `device_t`.  A terminal's receiver uses `dStatus` and `dCommand`, its
transmitter `dData0` and `dData1`. -/
structure Device where
  dStatus : Word
  dCommand : Word
  dData0 : Word
  dData1 : Word

/-- What an observer of the CPU sees: calls of `scheduler`, the births and deaths of
processes, the moments at which a process joins `readyQue`, is dispatched and leaves the
CPU, and from when to when an interrupt was handled that returned to the process or ended
its quantum. -/
inductive Obs where
  | scheduler (currentProc : Option Pcb)
  | schedulerReturned
  | create (p : Option Pcb)
  | exit (p : Option Pcb)
  | join (p : Option Pcb)
  | dispatch (p : Option Pcb) (time : Int)
  | leave (p : Option Pcb) (time : Int)
  | handled (p : Option Pcb) (timeStart timeEnd : Int)
  | expired (p : Option Pcb) (timeStart timeEnd : Int)
  deriving DecidableEq

/-- The pointers behind the process lists. -/
structure Ptrs extends Links Pcb Semd where
  readyQue : Option Pcb

structure NucleusOf (Λ : Type) where
  lk : Λ
  pcb : Payload Pcb
  procCnt : Int
  sftBlkCnt : Int
  currentProc : Option Pcb
  startTOD : Int
  ioProcTime : Int
  waiting : Bool
  mem : Word → Word
  /-- The old areas: `SYSCALLOLD`, `PROGTRAPOLD`, `TLBMGMTOLD`, `INTEROLD`. -/
  sysOld : State
  pgmOld : State
  tlbOld : State
  intOld : State
  /-- The new areas, which `main` fills. -/
  sysNew : State
  pgmNew : State
  tlbNew : State
  intNew : State
  /-- The CPU's status register, its local timer and the interval timer. -/
  status : Word
  timer : Int
  intervalTmr : Int
  /-- `interrupt_dev` and the device registers, by address. -/
  interruptDev : Int → Word
  devReg : Word → Device
  /-- The readings of the clock, and how many of them were taken. -/
  tod : Nat → Int
  reads : Nat
  trace : List Obs

abbrev Nucleus := NucleusOf Ptrs

/-- Code of phase 2. -/
abbrev NucM := EStateM Stop Nucleus

def phase1 {α : Type} (x : Phase1M Pcb Semd α) : NucM α :=
  Lib.zoom (fun s => ⟨s.lk.toLinks, s.pcb⟩)
    (fun s t => { s with lk.toLinks := t.lk, pcb := t.pcb }) x

/-! ## Library calls and macros -/

def LDST {α : Type} (st : State) : NucM α := throw (.ldst st)
def HALT {α : Type} : NucM α := throw .halt
def PANIC {α : Type} : NucM α := throw .panic
def WAIT {α : Type} : NucM α := throw .wait

def getSTATUS : NucM Word := return (← get).status

def setSTATUS (v : Word) : NucM Unit := modify fun s => { s with status := v }

def setTIMER (v : Int) : NucM Unit := modify fun s => { s with timer := v }

def LDIT (v : Int) : NucM Unit := modify fun s => { s with intervalTmr := v }

def STCK : NucM Int :=
  modifyGet fun s => (s.tod s.reads, { s with reads := s.reads + 1 })

def emit (o : Obs) : NucM Unit :=
  modify fun s => { s with trace := o :: s.trace }

/-! ## Memory -/

def loadInt (a : Word) : NucM Word := return (← get).mem a

def storeInt (a v : Word) : NucM Unit :=
  modify fun s => { s with mem := Function.update s.mem a v }

/-- The words of a `state_t`, in order. -/
def State.word (st : State) (i : Nat) : Word :=
  if i = 0 then st.sAsid
  else if i = 1 then st.sCause
  else if i = 2 then st.sStatus
  else if i = 3 then st.sPc
  else if h : i - 4 < 31 then st.sReg ⟨i - 4, h⟩
  else 0

/-- The `state_t` at address `a` of user memory. -/
def stateAt (mem : Word → Word) (a : Word) : State where
  sAsid := mem a
  sCause := mem (a + 4)
  sStatus := mem (a + 8)
  sPc := mem (a + 12)
  sReg := fun i => mem (a + 16 + 4 * BitVec.ofNat 32 i)

/-- Copying `st` into the area at `a`, word by word. -/
def storeState (mem : Word → Word) (a : Word) (st : State) : Word → Word :=
  (List.range 35).foldl
    (fun m i => Function.update m (a + 4 * BitVec.ofNat 32 i) (st.word i)) mem

/-! ## Globals -/

def setCurrentProc (p : Option Pcb) : NucM Unit :=
  modify fun s => { s with currentProc := p }

def setSysOld (st : State) : NucM Unit :=
  modify fun s => { s with sysOld := st }

/-- `insertProcQ(&readyQue, p)`. -/
def insertReady (p : Option Pcb) : NucM Unit := do
  let tp ← phase1 (insertProcQ (← get).lk.readyQue p)
  modify fun s => { s with lk.readyQue := tp }
  emit (.join p)

/-- `removeProcQ(&readyQue)`. -/
def removeReady : NucM (Option Pcb) := do
  let (p, tp) ← phase1 (removeProcQ (← get).lk.readyQue)
  modify fun s => { s with lk.readyQue := tp }
  return p

/-- `outProcQ(&readyQue, p)`. -/
def outReady (p : Option Pcb) : NucM (Option Pcb) := do
  let (q, tp) ← phase1 (outProcQ (← get).lk.readyQue p)
  modify fun s => { s with lk.readyQue := tp }
  return q

def getPS (p : Option Pcb) : NucM State := do
  let p ← deref p
  return (← get).pcb.pS p

def getPTime (p : Option Pcb) : NucM Int := do
  let p ← deref p
  return (← get).pcb.pTime p

end Kaya
