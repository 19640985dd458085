import Kaya.Lib.Run
import Kaya.Lib.Semaphore
import Kaya.Phase2.Exceptions
import Kaya.Phase3.VmIOsupport

/-!
# Processes of the support level on one processor

The nucleus is seen from above: SYS 3 and SYS 4 are operations on semaphores with a line of
waiters, SYS 8 waits on the semaphore of a device, a trap is passed up to the new area of the
process or kills it.  Any ready process may be the next one to run, and the running one may be
interrupted between any two actions unless it disabled the interrupts.
-/

namespace Kaya.Phase3

open Lib

/-! ## One process -/

/-- What an old area resumes. -/
structure Saved where
  prog : Prog
  status : Word
  entryHi : Word

structure Task where
  prog : Prog
  /-- The status register. -/
  status : Word
  entryHi : Word
  new : Trap → Option NewArea
  old : Trap → Saved

def Task.InUserMode (t : Task) : Prop :=
  match t.prog with
  | .leave (.user _ _ _ _) => True
  | _ => False

instance : DecidablePred Task.InUserMode := fun t => by
  unfold Task.InUserMode
  split
  · exact isTrue trivial
  · exact isFalse id

/-- `LDST` pops the stack of interrupt and mode bits. -/
def popStatus (s : Word) : Word := (s &&& 0xFFFFFFF0) ||| ((s >>> 2) &&& 0xF)

/-- Interrupts are enabled. -/
def Task.Open (t : Task) : Prop := t.status &&& 1 = 1

instance : DecidablePred Task.Open := fun _ => inferInstanceAs (Decidable (_ = _))

/-! ## The machine -/

/-- The words of a page, by offset. -/
abbrev Page := Word → Word

structure Disk where
  /-- Where the heads are. -/
  cyl : Word
  data0 : Word
  /-- The command in progress. -/
  busy : Option Word
  /-- By cylinder, head and sector. -/
  block : Word → Word → Word → Page

/-- The fields of a command. -/
def cylOf (command : Word) : Word := (command >>> 8) &&& 0xFFFF
def headOf (command : Word) : Word := (command >>> 16) &&& 0xFF
def sectorOf (command : Word) : Word := (command >>> 8) &&& 0xFF
def opOf (command : Word) : Word := command &&& 0xFF

inductive Life where
  | unborn
  | ready
  | blocked
  | dead
  deriving DecidableEq

theorem Life.ne_unborn {x : Life} (h : x = .ready) : x ≠ .unborn := by simp [h]

/-- What an entry of the log shows of the system. -/
structure View where
  tables : Tables
  cyl : Word

inductive Obs (ι : Type) where
  /-- A process performed an action and got an answer. -/
  | did (d : Did ι Act Word View)
  | died (p : ι)
  /-- The disk completed a command. -/
  | done (status : Word)
  | loaded (p : ι) (virtAddr v : Word)
  | stored (p : ι) (virtAddr v : Word)

structure Sys (ι : Type) where
  task : ι → Task
  life : ι → Life
  running : Option ι
  sem : Sem → Semaphore ι
  /-- `semDevArray` -/
  dev : Word → Semaphore ι
  tables : Tables
  disk : Disk
  /-- The page table entries in the TLB, by page. -/
  tlb : ι → Word → Option Word
  ram : Word → Page
  trace : List (Obs ι)

/-- The functions of a system of processes. -/
structure Setup (ι : Type) where
  /-- What runs at an entry point, for an `ENTRYHI` and an old area. -/
  enter : ι → Entry → Word → State → Prog
  start : ι → Prog
  again : ι → Word → Word → Prog
  /-- The process that is created with an `ENTRYHI`. -/
  child : Word → ι
  /-- The process whose end is the end of all. -/
  root : ι → Bool

/-- What a user's program does.  A load or a store is of a page of the process. -/
inductive UserAct where
  | load (virtAddr : Word)
  | store (virtAddr v : Word)
  | syscall (st : State)
  | progTrap (st : State)
  | tlbTrap (st : State)

inductive Event (ι : Type) where
  /-- The running process goes on; `r` is what a register holds that nothing defined. -/
  | step (r : Word)
  | user (u : UserAct)
  | dispatch (p : ι)
  | diskInt (status : Word)
  | devInt (index status : Word)
  /-- A tape writes a block to the buffer of process `asid`. -/
  | tapeDma (asid : Word) (block : Page)
  /-- An entry of the TLB is replaced. -/
  | tlbDrop (p : ι) (page : Word)

def Obs.log {ι : Type} : Obs ι → Option (Did ι Act Word View)
  | .did d => some d
  | _ => none

variable {ι : Type} [DecidableEq ι]

namespace Sys

def view (s : Sys ι) : View := ⟨s.tables, s.disk.cyl⟩

def log (s : Sys ι) : List (Did ι Act Word View) := s.trace.filterMap Obs.log

def answer (s : Sys ι) (p : ι) (r : Word) : Sys ι :=
  match (s.task p).prog with
  | .act a k =>
      { s with
        task := Function.update s.task p { s.task p with prog := k r }
        life := Function.update s.life p .ready
        trace := .did ⟨p, a, r, s.view⟩ :: s.trace }
  | _ => s

def setTask (s : Sys ι) (p : ι) (t : Task) : Sys ι :=
  { s with task := Function.update s.task p t }

def block (s : Sys ι) (p : ι) : Sys ι :=
  { s with life := Function.update s.life p .blocked, running := none }

def kill (S : Setup ι) (s : Sys ι) (p : ι) : Sys ι :=
  { s with
    life := if S.root p then fun _ => .dead else Function.update s.life p .dead
    running := none
    trace := .died p :: s.trace }

def wake (s : Sys ι) (ws : List ι) (r : Word) : Sys ι :=
  match ws with
  | [] => s
  | q :: _ => s.answer q r

def P (s : Sys ι) (p : ι) (x : Sem) : Sys ι :=
  let t := { s with sem := Function.update s.sem x ((s.sem x).down p) }
  if 0 < (s.sem x).value then t.answer p 0 else t.block p

def V (s : Sys ι) (p : ι) (x : Sem) : Sys ι :=
  let t := { s with sem := Function.update s.sem x (s.sem x).up }
  (t.answer p 0).wake (s.sem x).waiters 0

/-- `WAITIO`; `r` is what `v0` holds. -/
def waitDev (s : Sys ι) (p : ι) (index r : Word) : Sys ι :=
  let t := { s with dev := Function.update s.dev index ((s.dev index).down p) }
  if 0 < (s.dev index).value then t.answer p r else t.block p

/-- A device interrupt in the nucleus.  When nobody waits, `ioTrapHandler` also writes the status
to `v0` of the process that runs, which has no registers here between two actions: what a process
gets from its calls is as the source has it in runs in which somebody waits. -/
def signal (s : Sys ι) (index status : Word) : Sys ι :=
  let t := { s with dev := Function.update s.dev index (s.dev index).up }
  t.wake (s.dev index).waiters (status &&& STATUSMASK)

/-- Trap `type` in state `st`, after which `rest` is to be done. -/
def passUp (S : Setup ι) (s : Sys ι) (p : ι) (type : Trap) (st : State) (rest : Prog) : Sys ι :=
  let t := s.task p
  match t.new type with
  | none => s.kill S p
  | some area =>
      s.setTask p { t with
        prog := S.enter p area.sPc area.sAsid st
        status := popStatus area.sStatus
        entryHi := area.sAsid
        old := Function.update t.old type ⟨rest, t.status, t.entryHi⟩ }

/-! ## Virtual memory -/

def table (t : Tables) (asid page : Word) : Word → Pte :=
  if page >>> 18 = 3 then t.kUseg3 else t.uPte (asid - 1)

def pte (t : Tables) (asid page : Word) : Option Word :=
  (List.range MAXPAGES).findSome? fun j =>
    let e := table t asid page (BitVec.ofNat 32 j)
    if e.entryHi >>> 12 = page then some e.entryLo else none

def entry (s : Sys ι) (p : ι) (page : Word) : Option Word :=
  match s.tlb p page with
  | some e => some e
  | none => pte s.tables (asidOf (s.task p).entryHi) page

def Valid (e : Word) : Prop := e &&& 0x200 = 0x200

instance : DecidablePred Valid := fun _ => inferInstanceAs (Decidable (_ = _))

/-- The state of a TLB trap with exception code `code` at `virtAddr`. -/
def tlbState (s : Sys ι) (p : ι) (code virtAddr : Word) : State :=
  { resetState with
    sCause := code <<< 2
    sAsid := (virtAddr &&& 0xFFFFF000) ||| ((s.task p).entryHi &&& 0xFFF) }

/-- `p` accesses `virtAddr`: with the physical address of the page it does `hit`, and else the
access traps.  `code` is the exception code of an invalid entry. -/
def access (S : Setup ι) (s : Sys ι) (p : ι) (code virtAddr : Word) (hit : Sys ι → Word → Sys ι) :
    Sys ι :=
  match s.entry p (virtAddr >>> 12) with
  | none => s.passUp S p .tlb (s.tlbState p 14 virtAddr) (s.task p).prog
  | some e =>
      let t := { s with
        tlb := Function.update s.tlb p (Function.update (s.tlb p) (virtAddr >>> 12) (some e)) }
      if Valid e then hit t (e &&& 0xFFFFF000)
      else t.passUp S p .tlb (s.tlbState p code virtAddr) (s.task p).prog

def setRam (s : Sys ι) (frame virtAddr v : Word) : Sys ι :=
  let page := Function.update (s.ram frame) (virtAddr &&& 0xFFF) v
  { s with ram := Function.update s.ram frame page }

/-! ## Steps -/

/-- The state with which SYS 18 is passed up. -/
def terminateState : State :=
  { resetState with sReg := Function.update resetState.sReg 3 TERMINATE }

def disk0Reg : Word := 0x10000050

def perform (S : Setup ι) (s : Sys ι) (p : ι) (r : Word) : Act → Sys ι
  | .passeren x => s.P p x
  | .verhogen x => s.V p x
  | .waitio lineNo devNo read =>
      if lineNo < DISKINT then s.kill S p
      else s.waitDev p (waitioIndex lineNo devNo read) r
  | .createprocess sAsid sStatus =>
      let c := S.child sAsid
      if s.life c = .unborn then
        let t := s.setTask c
          { s.task c with
            prog := S.start c, status := popStatus sStatus, entryHi := sAsid, new := fun _ => none }
        { t with life := Function.update t.life c .ready }.answer p SUCCESS
      else s.answer p FAIL
  | .spectrapvec type new =>
      if (s.task p).new type = none then
        (s.setTask p
          { s.task p with new := Function.update (s.task p).new type (some new) }).answer p 0
      else s.kill S p
  | .getSTATUS => s.answer p (s.task p).status
  | .setSTATUS status => (s.setTask p { s.task p with status := status }).answer p 0
  | .getENTRYHI => s.answer p (s.task p).entryHi
  | .TLBCLR => { s with tlb := fun _ _ => none }.answer p 0
  | .setCommand reg v =>
      (if reg = disk0Reg then { s with disk.busy := some v } else s).answer p 0
  | .setData0 reg v =>
      (if reg = disk0Reg then { s with disk.data0 := v } else s).answer p 0
  | .setData1 _ _ => s.answer p 0
  | .getData1 _ => s.answer p r
  | .tables f => { s with tables := (f s.tables).2 }.answer p (f s.tables).1
  | .load virtAddr =>
      s.access S p 2 virtAddr fun t frame => t.answer p (t.ram frame (virtAddr &&& 0xFFF))

def leave (S : Setup ι) (s : Sys ι) (p : ι) : Leave → Sys ι
  | .ldst trap _ =>
      let saved := (s.task p).old trap
      s.setTask p { s.task p with
        prog := saved.prog, status := saved.status, entryHi := saved.entryHi }
  | .user _ _ _ _ => s
  | .terminate =>
      s.passUp S p .sys terminateState (.done ())
  | .terminateprocess => s.kill S p
  | .again asid i => s.setTask p { s.task p with prog := S.again p asid i }

def go (S : Setup ι) (s : Sys ι) (p : ι) (r : Word) : Sys ι :=
  match (s.task p).prog with
  | .done _ => s
  | .leave l => s.leave S p l
  | .act a _ => s.perform S p r a

def user (S : Setup ι) (s : Sys ι) (p : ι) : UserAct → Sys ι
  | .load virtAddr =>
      s.access S p 2 virtAddr fun t frame =>
        { t with trace := .loaded p virtAddr (t.ram frame (virtAddr &&& 0xFFF)) :: t.trace }
  | .store virtAddr v =>
      s.access S p 3 virtAddr fun t frame =>
        { t.setRam frame virtAddr v with trace := .stored p virtAddr v :: t.trace }
  | .syscall st =>
      -- SYS 1 to SYS 8 in user mode are program traps
      if st.a0 ≤ 8 then s.passUp S p .pgm st (s.task p).prog
      else s.passUp S p .sys st (s.task p).prog
  | .progTrap st => s.passUp S p .pgm st (s.task p).prog
  | .tlbTrap st => s.passUp S p .tlb st (s.task p).prog

/-- The effect of a command that ended well. -/
def transfer (s : Sys ι) (command : Word) : Sys ι :=
  let cyl := s.disk.cyl
  let head := headOf command
  let sector := sectorOf command
  if opOf command = SEEKCYL then
    { s with disk.cyl := cylOf command }
  else if opOf command = READBLK then
    let block := s.disk.block cyl head sector
    { s with ram := Function.update s.ram s.disk.data0 block }
  else if opOf command = WRITEBLK then
    let track := Function.update (s.disk.block cyl head) sector (s.ram s.disk.data0)
    { s with disk.block :=
        Function.update s.disk.block cyl (Function.update (s.disk.block cyl) head track) }
  else s

/-- The interrupt with which disk 0 ends its command. -/
def diskInt (s : Sys ι) (status : Word) : Sys ι :=
  match s.disk.busy with
  | none => s
  | some command =>
      let t := if status &&& STATUSMASK = READY then s.transfer command else s
      { t with disk.busy := none, trace := .done (status &&& STATUSMASK) :: t.trace }.signal 0 status

def step (S : Setup ι) (s : Sys ι) : Event ι → Sys ι
  | .step r =>
      match s.running with
      | none => s
      | some p => s.go S p r
  | .user u =>
      match s.running with
      | none => s
      | some p => s.user S p u
  | .dispatch p => { s with running := some p }
  | .diskInt status => s.diskInt status
  | .devInt index status => s.signal index status
  | .tapeDma asid block =>
      { s with ram := Function.update s.ram (TAPEDMABUFFER + (asid - 1) * PAGESIZE) block }
  | .tlbDrop p page =>
      { s with tlb := Function.update s.tlb p (Function.update (s.tlb p) page none) }

structure Halted (s : Sys ι) : Prop where
  dead : ∀ p, s.life p = .dead
  running : s.running = none

def Open (s : Sys ι) : Prop := ¬ s.Halted ∧ ∀ p, s.running = some p → (s.task p).Open

/-- A TLB trap at a page that the process has is an access to an invalid entry, and such an
access is a load or a store. -/
def UserAct.Possible : UserAct → Prop
  | .tlbTrap st => (st.sCause <<< 25) >>> 27 ≠ TLBINVLW ∧ (st.sCause <<< 25) >>> 27 ≠ TLBINVSW
  | _ => True

instance : DecidablePred UserAct.Possible := fun u => by
  unfold UserAct.Possible
  split
  · exact inferInstanceAs (Decidable (_ ∧ _))
  · exact isTrue trivial

def Can (s : Sys ι) : Event ι → Prop
  | .step _ => ∃ p, s.running = some p ∧ ¬ (s.task p).InUserMode
  | .user u => ∃ p, s.running = some p ∧ (s.task p).InUserMode ∧ UserAct.Possible u
  | .dispatch p => s.life p = .ready ∧ s.Open
  | .diskInt _ => s.disk.busy ≠ none ∧ s.Open
  | .devInt index _ => index ≠ 0 ∧ s.Open
  | .tapeDma _ _ => True
  | .tlbDrop _ _ => True

end Sys

/-! ## Kaya -/

/-- The functions of phase 3, with processes that start with any program. -/
def support (K : Layout) (junk : Word) (start : ι → Prog) (child : Word → ι) (root : ι → Bool) :
    Setup ι where
  enter _ entry entryHi st :=
    match entry with
    | .pager => pager K entryHi st
    | .userProgTrapHandler => userProgTrapHandler
    | .userSyscallHandler => userSyscallHandler junk entryHi st
  start := start
  again _ asid i := uProcInitFrom asid i
  child := child
  root := root

/-- The processes of `test`, each known by its number in `ENTRYHI`; `test` itself has 0. -/
def kaya (K : Layout) (junk : Word) : Setup Word :=
  support K junk (fun _ => uProcInit) asidOf fun p => p = 0

def Sem.first : Sem → Int
  | .swapPoolSem => 1
  | .masterSem => 0
  | .devSemArray _ => 1

theorem Sem.first_nonneg (x : Sem) : 0 ≤ x.first := by
  cases x <;> simp [first]

/-- The global variables have their first values, and nothing has happened. -/
structure Sys.Fresh (s : Sys ι) : Prop where
  life : ∀ p, s.life p = .unborn ∨ s.life p = .ready
  running : s.running = none
  new : ∀ p, (s.task p).new = fun _ => none
  old : ∀ p trap, ((s.task p).old trap).prog = .done ()
  sem : ∀ x, (s.sem x).value = x.first
  dev : ∀ i, (s.dev i).value = 0
  tables : s.tables = Tables.init
  disk : s.disk.busy = none
  tlb : s.tlb = fun _ _ => none
  trace : s.trace = []

/-- Only `test` exists. -/
structure Sys.Booted (s : Sys Word) : Prop extends s.Fresh where
  test : (s.task 0).prog = test
  alone : s.life = Function.update (fun _ => .unborn) 0 .ready

namespace Sys

def boot : Sys Word where
  task _ :=
    { prog := test
      status := INTERON >>> 2
      entryHi := 0
      new := fun _ => none
      old := fun _ => ⟨.done (), 0, 0⟩ }
  life := Function.update (fun _ => .unborn) 0 .ready
  running := none
  sem x := .start x.first x.first_nonneg
  dev _ := .zero
  tables := .init
  disk := ⟨0, 0, none, fun _ _ _ _ => 0⟩
  tlb _ _ := none
  ram _ _ := 0
  trace := []

theorem boot_booted : boot.Booted where
  life p := by
    by_cases hp : p = 0
    · rw [hp]
      exact .inr rfl
    · left
      change Function.update (fun _ => Life.unborn) 0 .ready p = .unborn
      exact Function.update_of_ne hp ..
  running := rfl
  new _ := rfl
  old _ _ := rfl
  sem _ := rfl
  dev _ := rfl
  tables := rfl
  disk := rfl
  tlb := rfl
  trace := rfl
  test := rfl
  alone := rfl

/-- While `test` lives, it can be computed whether an event can happen. -/
def canNow (s : Sys Word) (e : Event Word) : Bool :=
  let open' := s.life 0 ≠ .dead ∧ s.running.all fun p => (s.task p).Open
  match e with
  | .step _ => s.running.any fun p => ¬ (s.task p).InUserMode
  | .user u => s.running.any fun p => (s.task p).InUserMode ∧ UserAct.Possible u
  | .dispatch p => s.life p = .ready ∧ open'
  | .diskInt _ => s.disk.busy.isSome ∧ open'
  | .devInt index _ => index ≠ 0 ∧ open'
  | .tapeDma _ _ | .tlbDrop _ _ => true

theorem can_of_canNow {s : Sys Word} {e : Event Word} (h : s.canNow e = true) : s.Can e := by
  have hopen (h : s.life 0 ≠ .dead) (hall : s.running.all fun p => (s.task p).Open) : s.Open :=
    ⟨fun hh => h (hh.dead 0), fun p hp => by simpa [hp] using hall⟩
  cases e with
  | step r => simpa [canNow, Option.any_eq_true, Can] using h
  | user u => simpa [canNow, Option.any_eq_true, Can] using h
  | dispatch p =>
    simp only [canNow, decide_eq_true_eq] at h
    exact ⟨h.1, hopen h.2.1 h.2.2⟩
  | diskInt status =>
    simp only [canNow, decide_eq_true_eq] at h
    exact ⟨Option.isSome_iff_ne_none.mp h.1, hopen h.2.1 h.2.2⟩
  | devInt index status =>
    simp only [canNow, decide_eq_true_eq] at h
    exact ⟨h.1, hopen h.2.1 h.2.2⟩
  | tapeDma asid block => exact trivial
  | tlbDrop p page => exact trivial

end Sys

end Kaya.Phase3
