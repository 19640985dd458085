import Kaya.Phase2.Initial

/-!
# The machine around the nucleus

Between two entries into the nucleus a process computes and may write to
memory, or the machine waits.  An exception stores the state of the processor
in an old area and runs a handler of the nucleus until control leaves it.
-/

namespace Kaya

/-- What can happen while the nucleus is not running. -/
inductive Event where
  /-- The running process writes `v` to address `a`. -/
  | store (a v : Word)
  /-- A `SYSCALL` in processor state `st`. -/
  | syscall (st : State)
  | progTrap (st : State)
  | tlbTrap (st : State)
  /-- An interrupt in processor state `st`, with what the device registers show
  at that moment. -/
  | interrupt (st : State) (interruptDev : Int → Word) (devReg : Word → Device)

structure MachineOf (Λ : Type) where
  nuc : NucleusOf Λ
  cpu : Stop

abbrev Machine := MachineOf Ptrs

/-- Run nucleus code until control leaves it.  A handler that returns has
nowhere to return to.  After a fault the run ends here; the machine goes on
with `Machine.nested`. -/
def Machine.enter (x : NucM Unit) (s : Nucleus) : Machine :=
  match x s with
  | .ok _ s => ⟨s, .fault⟩
  | .error e s => ⟨s, e⟩

def Stop.Running (c : Stop) : Prop := ∃ st, c = .ldst st

/-- A running machine takes every event and a waiting one takes interrupts; one
that halted, panicked or lost control takes nothing. -/
def Stop.Takes (c : Stop) : Event → Prop
  | .interrupt _ _ _ => c.Running ∨ c = .wait
  | _ => c.Running

instance : DecidablePred Stop.Running
  | .ldst st => isTrue ⟨st, rfl⟩
  | .halt | .panic | .wait | .fault | .loop => isFalse (by rintro ⟨_, ⟨⟩⟩)

instance (c : Stop) : DecidablePred c.Takes
  | .interrupt _ _ _ => inferInstanceAs (Decidable (c.Running ∨ c = .wait))
  | .store _ _ | .syscall _ | .progTrap _ | .tlbTrap _ =>
      inferInstanceAs (Decidable c.Running)

variable (K : Layout)

/-- The old area an exception fills, and the handler it starts. -/
def Machine.take (m : Machine) : Event → Machine
  | .store a v => ⟨{ m.nuc with mem := Function.update m.nuc.mem a v }, m.cpu⟩
  | .syscall st => .enter (sysCallHandler K) { m.nuc with sysOld := st }
  | .progTrap st => .enter (progTrapHandler K) { m.nuc with pgmOld := st }
  | .tlbTrap st => .enter (tlbTrapHandler K) { m.nuc with tlbOld := st }
  | .interrupt st interruptDev devReg =>
      .enter (ioTrapHandler K)
        { m.nuc with intOld := st, interruptDev := interruptDev, devReg := devReg }

def Machine.step (m : Machine) (e : Event) : Machine :=
  if m.cpu.Takes e then m.take K e else m

/-- What follows a fault of the nucleus: the machine raises a program trap, `st` being the state of
the processor there. -/
def Machine.nested (m : Machine) (st : State) : Machine :=
  .enter (progTrapHandler K) { m.nuc with pgmOld := st }

/-- The machine when `main` has started the first process. -/
def boot (s : Nucleus) : Machine := .enter (main K) s

/-! ## A machine for examples -/

def Layout.sample : Layout where
  semDevArray := 0x20004000
  test := 0x20001000
  sysCallHandler := 0x20001100
  progTrapHandler := 0x20001200
  tlbTrapHandler := 0x20001300
  ioTrapHandler := 0x20001400
  rambase := 0x20000000
  ramsize := 0x00100000
  aligned := by decide
  positive := by decide
  fits := by decide

/-- Memory before `main`: every word is 0, and the clock gains 10 at each reading. -/
def Nucleus.sample : Nucleus where
  lk :=
    { pNext := fun _ => none, pPrev := fun _ => none, pPrnt := fun _ => none
      pChild := fun _ => none, pSib := fun _ => none, pcbFree := none
      sNext := fun _ => none, sSemAdd := fun _ => 0, sProcQ := fun _ => none
      semdActive := none, semdFree := none, readyQue := none }
  pcb :=
    { pS := fun _ => resetState, pSemAdd := fun _ => 0, pTime := fun _ => 0
      pOldSys := fun _ => 0, pOldPgm := fun _ => 0, pOldTlb := fun _ => 0
      pNewSys := fun _ => 0, pNewPgm := fun _ => 0, pNewTlb := fun _ => 0 }
  procCnt := 0
  sftBlkCnt := 0
  currentProc := none
  startTOD := 0
  ioProcTime := 0
  waiting := false
  mem := fun _ => 0
  sysOld := resetState
  pgmOld := resetState
  tlbOld := resetState
  intOld := resetState
  sysNew := resetState
  pgmNew := resetState
  tlbNew := resetState
  intNew := resetState
  status := 0
  timer := 0
  intervalTmr := 0
  interruptDev := fun _ => 0
  devReg := fun _ => ⟨0, 0, 0, 0⟩
  tod := fun n => 10 * n
  reads := 0
  trace := []

/-- Interrupts in state `st`: of the local timer, of the interval timer, and of the first disk
with status `status`. -/
def Event.quantum (st : State) : Event :=
  .interrupt { st with sCause := 0x200 } (fun _ => 0) fun _ => ⟨0, 0, 0, 0⟩

def Event.tick (st : State) : Event :=
  .interrupt { st with sCause := 0x400 } (fun _ => 0) fun _ => ⟨0, 0, 0, 0⟩

def Event.disk (st : State) (status : Word) : Event :=
  .interrupt { st with sCause := 0x800 } (fun _ => 1) fun _ => ⟨status, 0, 0, 0⟩

def State.call (a0 a1 a2 a3 : Word) : State :=
  { resetState with
    sReg := fun i => if i = 3 then a0 else if i = 4 then a1 else if i = 5 then a2
      else if i = 6 then a3 else 0 }

end Kaya
