import Kaya.Phase2.Machine
import Kaya.Phase1.Proofs.Alloc

/-!
# The nucleus over lists

What the nucleus is for, with its pointers forgotten: processes are free,
running, ready in a line, or blocked in the line of a semaphore, and form a
forest.  The functions here say what each service does to these lists; the code
is shown to do the same to its pointers.
-/

namespace Kaya

/-- SYS 1 to SYS 8 need kernel mode. -/
def State.Privileged (st : State) : Prop :=
  st.sStatus &&& KERNELOFF = KERNELOFF ∧ st.a0 ≤ 8

instance (st : State) : Decidable st.Privileged :=
  inferInstanceAs (Decidable (_ ∧ _))

/-- The state in which a system call returns: behind the `SYSCALL`. -/
def State.advance (st : State) : State := { st with sPc := st.sPc + WORDLEN }

/-- The state of a privileged call as a program trap. -/
def State.reserved (st : State) : State :=
  { st with sCause := (st.sCause &&& CAUSEREGMASK) ||| RESERVEDINSTR }

/-- SYS 5 kills when the trap type is unknown or its areas are set already. -/
def Payload.SpecKills (b : Payload Pcb) (st : State) (p : Pcb) : Prop :=
  ¬ (st.a1 = TLBTRAP ∧ b.pNewTlb p = NULL) ∧ ¬ (st.a1 = PROGTRAP ∧ b.pNewPgm p = NULL) ∧
    ¬ (st.a1 = SYSTRAP ∧ b.pNewSys p = NULL)

/-- The system calls that kill process `p`. -/
def Payload.SwitchKills (b : Payload Pcb) (st : State) (p : Pcb) : Prop :=
  st.a0 = TERMINATEPROCESS ∨ (st.a0 = SPECTRAPVEC ∧ b.SpecKills st p) ∨
    (st.a0 = WAITIO ∧ st.a1 < DISKINT) ∨
    (¬ (CREATEPROCESS ≤ st.a0 ∧ st.a0 ≤ WAITIO) ∧ b.pNewSys p = NULL)

/-- What `initPcbs` leaves in every PCB. -/
def Payload.reset : Payload Pcb where
  pS := fun _ => resetState
  pSemAdd := fun _ => NULL
  pTime := fun _ => 0
  pOldSys := fun _ => NULL
  pOldPgm := fun _ => NULL
  pOldTlb := fun _ => NULL
  pNewSys := fun _ => NULL
  pNewPgm := fun _ => NULL
  pNewTlb := fun _ => NULL

structure Lists where
  free : List Pcb
  ready : List Pcb
  blocked : Word → List Pcb
  kids : Pcb → List Pcb

abbrev Abs := NucleusOf Lists
abbrev AbsMachine := MachineOf Lists

def NucleusOf.withLk {Λ Λ' : Type} (a : NucleusOf Λ) (lk : Λ') : NucleusOf Λ' :=
  { a with lk := lk }

/-- The entries of `semDevArray`, the pseudo-clock's included. -/
def Layout.IsDev (K : Layout) (w : Word) : Prop :=
  K.semDev 0 ≤ w ∧ w ≤ K.semDev (BitVec.ofNat 32 (DEVICECNT - 1))

instance (K : Layout) (w : Word) : Decidable (K.IsDev w) :=
  inferInstanceAs (Decidable (_ ∧ _))

def Layout.clock (K : Layout) : Word := K.semDev (BitVec.ofNat 32 (DEVICECNT - 1))

/-- A semaphore of the processes: an aligned non-zero address outside the data
of the nucleus. -/
def Layout.UserWord (K : Layout) (w : Word) : Prop :=
  w ≠ 0 ∧ w.toNat % 4 = 0 ∧ ¬ K.IsDev w

instance (K : Layout) (w : Word) : Decidable (K.UserWord w) :=
  inferInstanceAs (Decidable (_ ∧ _ ∧ _))

/-! ## Addresses of semaphores -/

section Addresses

variable {K : Layout} {w : Word}

theorem Layout.toNat_semDev {i : Word} (hi : i.toNat < DEVICECNT + 8) :
    (K.semDev i).toNat = K.semDevArray.toNat + 4 * i.toNat := by
  have hfits := K.fits
  have hcnt : DEVICECNT = 49 := rfl
  have h4 : (4 : Word).toNat = 4 := rfl
  rw [semDev, BitVec.toNat_add, BitVec.toNat_mul, h4]
  omega

theorem Layout.isDev_iff : K.IsDev w ↔
    K.semDevArray.toNat ≤ w.toNat ∧
      w.toNat ≤ K.semDevArray.toNat + 4 * (DEVICECNT - 1) := by
  have hfirst : (K.semDev 0).toNat = K.semDevArray.toNat := by
    rw [toNat_semDev (by decide)]
    simp
  have hlast : (K.semDev (BitVec.ofNat 32 (DEVICECNT - 1))).toNat =
      K.semDevArray.toNat + 4 * (DEVICECNT - 1) := by
    rw [toNat_semDev (by decide)]
    rfl
  rw [IsDev, BitVec.le_def, BitVec.le_def, hfirst, hlast]

theorem Layout.isDev_semDev {i : Word} (hi : i.toNat < DEVICECNT) :
    K.IsDev (K.semDev i) := by
  rw [isDev_iff, toNat_semDev (Nat.lt_add_right 8 hi)]
  omega

theorem Layout.isDev_clock : K.IsDev K.clock := isDev_semDev (by decide)

theorem Layout.semDev_inj {i j : Word} (hi : i.toNat < DEVICECNT + 8)
    (hj : j.toNat < DEVICECNT + 8) (h : K.semDev i = K.semDev j) : i = j := by
  have hnat := congrArg BitVec.toNat h
  rw [toNat_semDev hi, toNat_semDev hj] at hnat
  apply BitVec.eq_of_toNat_eq
  omega

theorem Layout.not_isDev_null : ¬ K.IsDev NULL := by
  have hfits := K.fits
  have hcnt : DEVICECNT = 49 := rfl
  have hnull : NULL.toNat = 2 ^ 32 - 1 := rfl
  rw [isDev_iff]
  omega

theorem Layout.semAddr_semDev {i : Word} (hi : i.toNat < DEVICECNT + 8) :
    SemAddr (K.semDev i) := by
  have hpos := K.positive
  have hfits := K.fits
  have hcnt : DEVICECNT = 49 := rfl
  have hnat := K.toNat_semDev hi
  constructor
  · intro hmin
    rw [hmin, show MININT.toNat = 0 from rfl] at hnat
    omega
  · intro hmax
    rw [hmax, show MAXINT.toNat = 2 ^ 32 - 1 from rfl] at hnat
    omega

theorem Layout.semAddr_of_isDev (h : K.IsDev w) : SemAddr w := by
  have hpos := K.positive
  constructor
  · rintro rfl
    have hmin : MININT.toNat = 0 := rfl
    rw [isDev_iff] at h
    omega
  · rintro rfl
    exact not_isDev_null h

theorem Layout.UserWord.semAddr (h : K.UserWord w) : SemAddr w := by
  refine ⟨h.1, ?_⟩
  rintro rfl
  exact absurd h.2.1 (by decide)

end Addresses

/-- The status that device `devNo` of line `lineNo` shows, the `read` flag of
the semaphore it is for, and the register after the acknowledgement. -/
def Device.ack (dev : Device) (lineNo : Int) : Word × Int × Device :=
  if lineNo = 7 then
    if dev.dStatus &&& STATUSMASK = READY then
      (dev.dData0, 0, { dev with dData1 := ACK })
    else (dev.dStatus, 1, { dev with dCommand := ACK })
  else (dev.dStatus, 0, { dev with dCommand := ACK })

/-- The index of the entry of `semDevArray` that an interrupt of line `lineNo` signals, as
the handler computes it. -/
def shownIndex (lineNo : Int) (interruptDev : Int → Word) (devReg : Word → Device) : Int :=
  let devNo := findDevNo (interruptDev (lineNo - 3))
  ioIndex lineNo devNo ((devReg (getDeviceReg lineNo devNo)).ack lineNo).2.1

/-- The byte that an interrupt of line `lineNo` reports. -/
def statusByte (lineNo : Int) (interruptDev : Int → Word) (devReg : Word → Device) : Word :=
  ((devReg (getDeviceReg lineNo (findDevNo (interruptDev (lineNo - 3))))).ack lineNo).1 &&&
    STATUSMASK

/-- The descendants of `p` in the order in which `terminateprocess` reaches them:
children first. -/
def Lists.descendants (l : Lists) (p : Pcb) : List Pcb :=
  (l.kids p).flatMap (Lib.postorder l.kids MAXPROC)

/-- In every queue the victims below `p` stand at the end, in the reverse of the order in
which they are killed. -/
structure Lists.VictimsLast (l : Lists) (p : Pcb) : Prop where
  ready : ((l.descendants p).filter (· ∈ l.ready)).reverse <:+ l.ready
  blocked : ∀ w, ((l.descendants p).filter (· ∈ l.blocked w)).reverse <:+ l.blocked w

namespace Abs

/-- The entry of `pcbArr` that `initPcbs` frees last. -/
def firstPcb : Pcb := Fin.last 19

/-- The nucleus when `main` calls the scheduler: one process is ready. -/
def first (K : Layout) (s : Nucleus) : Abs :=
  { lk := ⟨(List.finRange MAXPROC).reverse.tail, [firstPcb], fun _ => [], fun _ => []⟩
    pcb := { Payload.reset with
      pS := Function.update (fun _ => resetState) firstPcb (firstState K resetState) }
    procCnt := 1, sftBlkCnt := 0, currentProc := none
    startTOD := s.tod s.reads, ioProcTime := 0, waiting := s.waiting
    mem := (List.range DEVICECNT).foldl
      (fun m i => Function.update m (K.semDev (BitVec.ofNat 32 i)) 0) s.mem
    sysOld := s.sysOld, pgmOld := s.pgmOld, tlbOld := s.tlbOld, intOld := s.intOld
    sysNew := newArea K K.sysCallHandler s.sysNew
    pgmNew := newArea K K.progTrapHandler s.pgmNew
    tlbNew := newArea K K.tlbTrapHandler s.tlbNew
    intNew := newArea K K.ioTrapHandler s.intNew
    status := s.status, timer := s.timer, intervalTmr := INTERVAL
    interruptDev := s.interruptDev, devReg := s.devReg
    tod := s.tod, reads := s.reads + 1
    trace := .create (some firstPcb) :: .join (some firstPcb) :: s.trace }

/-! ## Moves between the lists -/

/-- The processor goes to the first ready process, or the machine stops or
waits. -/
def schedule (a : Abs) : AbsMachine :=
  let a : Abs := { a with
    waiting := false, ioProcTime := 0
    trace := .scheduler a.currentProc :: a.trace }
  match a.lk.ready with
  | p :: ps =>
      let now := a.tod a.reads
      ⟨{ a with
        lk.ready := ps, currentProc := some p, timer := QUANTUM, startTOD := now
        reads := a.reads + 1, trace := .dispatch (some p) now :: a.trace },
        .ldst (a.pcb.pS p)⟩
  | [] =>
      if a.procCnt = 0 then ⟨a, .halt⟩
      else if a.sftBlkCnt = 0 then ⟨a, .panic⟩
      else ⟨{ a with
        waiting := true
        status := a.status ||| (INTERON >>> 2) ||| INTERUNMASKED ||| PLOCTIMEON },
        .wait⟩

def setInt (a : Abs) (w v : Word) : Abs :=
  { a with mem := Function.update a.mem w v }

/-- `p`, the first waiter of `w`, becomes ready; `ps` wait on.  `soft` is what
the wait counted for in `sftBlkCnt`. -/
def unblock (a : Abs) (soft : Int) (w : Word) (p : Pcb) (ps : List Pcb) : Abs :=
  { a with
    lk.blocked := Function.update a.lk.blocked w ps
    lk.ready := a.lk.ready ++ [p]
    pcb.pSemAdd := Function.update a.pcb.pSemAdd p NULL
    sftBlkCnt := a.sftBlkCnt - soft
    trace := .join (some p) :: a.trace }

/-- The running process `p` leaves the CPU with state `sysOld` and joins the
line of `w`. -/
def block (a : Abs) (soft : Int) (p : Pcb) (w : Word) : Abs :=
  let now := a.tod a.reads
  { a with
    lk.blocked := Function.update a.lk.blocked w (a.lk.blocked w ++ [p])
    pcb := { a.pcb with
      pS := Function.update a.pcb.pS p a.sysOld
      pSemAdd := Function.update a.pcb.pSemAdd p w
      pTime := Function.update a.pcb.pTime p
        (a.pcb.pTime p + ((now - a.startTOD) - a.ioProcTime)) }
    currentProc := none, reads := a.reads + 1
    sftBlkCnt := a.sftBlkCnt + soft
    trace := .leave (some p) now :: a.trace }

/-- `v` leaves its line and becomes free.  What its semaphore or the count of
waits for devices owes to it is settled. -/
def reap (K : Layout) (a : Abs) (v : Pcb) : Abs :=
  let w := a.pcb.pSemAdd v
  { a with
    lk.free := v :: a.lk.free
    lk.ready := a.lk.ready.filter (· ≠ v)
    lk.blocked := fun w => (a.lk.blocked w).filter (· ≠ v)
    pcb := a.pcb.clear v
    sftBlkCnt := if K.IsDev w then a.sftBlkCnt - 1 else a.sftBlkCnt
    mem := if w ≠ NULL ∧ ¬ K.IsDev w then
      Function.update a.mem w (a.mem w + 1) else a.mem
    procCnt := a.procCnt - 1
    trace := .exit (some v) :: a.trace }

/-- The running process, all of whose descendants are gone, becomes free. -/
def reapCurrent (a : Abs) (p : Pcb) : Abs :=
  { a with
    lk.free := p :: a.lk.free
    lk.kids := fun q => (a.lk.kids q).filter (· ≠ p)
    pcb := a.pcb.clear p
    currentProc := none
    procCnt := a.procCnt - 1
    trace := .exit (some p) :: a.trace }

/-! ## Services -/

def withCurrent (a : Abs) (f : Abs → Pcb → AbsMachine) : AbsMachine :=
  match a.currentProc with
  | some p => f a p
  | none => ⟨a, .fault⟩

/-- The running process and its descendants die, children first. -/
def kill (K : Layout) (a : Abs) (p : Pcb) : Abs :=
  let vs := a.lk.descendants p
  let a := vs.foldl (reap K)
    { a with lk.kids := fun q => if q = p ∨ q ∈ vs then [] else a.lk.kids q }
  a.reapCurrent p

/-- The running process is killed and the next one runs. -/
def die (K : Layout) (a : Abs) (p : Pcb) : AbsMachine := (a.kill K p).schedule

def createprocess (a : Abs) (c : Pcb) : AbsMachine :=
  match a.lk.free with
  | [] =>
      let st := a.sysOld.setV0 FAIL
      ⟨{ a with sysOld := st }, .ldst st⟩
  | p :: fs =>
      let st := a.sysOld.setV0 SUCCESS
      let b := a.pcb.clear p
      ⟨{ a with
        lk := { a.lk with
          free := fs
          ready := a.lk.ready ++ [p]
          kids := Function.update a.lk.kids c (p :: a.lk.kids c) }
        pcb := { b with
          pS := Function.update b.pS p (stateAt a.mem a.sysOld.a1) }
        procCnt := a.procCnt + 1
        trace := .create (some p) :: .join (some p) :: a.trace
        sysOld := st }, .ldst st⟩

def wake (a : Abs) (w : Word) : Abs :=
  match a.lk.blocked w with
  | [] => a
  | p :: ps => a.unblock 0 w p ps

def V (a : Abs) : AbsMachine :=
  let w := a.sysOld.a1
  let a := a.setInt w (a.mem w + 1)
  ⟨if (a.mem w).toInt ≤ 0 then a.wake w else a, .ldst a.sysOld⟩

def P (a : Abs) (p : Pcb) : AbsMachine :=
  let w := a.sysOld.a1
  let a := a.setInt w (a.mem w - 1)
  if (a.mem w).toInt < 0 then (a.block 0 p w).schedule else ⟨a, .ldst a.sysOld⟩

/-- SYS 7 and SYS 8 wait on an entry of `semDevArray`. -/
def waitDev (a : Abs) (p : Pcb) (w : Word) : AbsMachine :=
  let a := a.setInt w (a.mem w - 1)
  if (a.mem w).toInt < 0 then
    (a.block 1 p w).schedule
  else ⟨a, .ldst a.sysOld⟩

def spectrapvec (K : Layout) (a : Abs) (p : Pcb) : AbsMachine :=
  let b := a.pcb
  if a.sysOld.a1 = TLBTRAP ∧ b.pNewTlb p = NULL then
    ⟨{ a with
      pcb.pOldTlb := Function.update b.pOldTlb p a.sysOld.a2
      pcb.pNewTlb := Function.update b.pNewTlb p a.sysOld.a3 }, .ldst a.sysOld⟩
  else if a.sysOld.a1 = PROGTRAP ∧ b.pNewPgm p = NULL then
    ⟨{ a with
      pcb.pOldPgm := Function.update b.pOldPgm p a.sysOld.a2
      pcb.pNewPgm := Function.update b.pNewPgm p a.sysOld.a3 }, .ldst a.sysOld⟩
  else if a.sysOld.a1 = SYSTRAP ∧ b.pNewSys p = NULL then
    ⟨{ a with
      pcb.pOldSys := Function.update b.pOldSys p a.sysOld.a2
      pcb.pNewSys := Function.update b.pNewSys p a.sysOld.a3 }, .ldst a.sysOld⟩
  else a.die K p

/-- The CPU time SYS 6 reports for the running process at time `now`. -/
def cpuTime (a : Abs) (p : Pcb) (now : Int) : Int :=
  a.pcb.pTime p + (now - a.startTOD) - a.ioProcTime

def getcputime (a : Abs) (p : Pcb) : AbsMachine :=
  let st := a.sysOld.setV0 (BitVec.ofInt 32 (a.cpuTime p (a.tod a.reads)))
  ⟨{ a with sysOld := st, reads := a.reads + 1 }, .ldst st⟩

/-- A trap goes to the handler its process named, or kills it. -/
def passUp (K : Layout) (a : Abs) (p : Pcb) (new old : Word) (trap : State) :
    AbsMachine :=
  if new = NULL then a.die K p
  else
    let mem := storeState a.mem old trap
    ⟨{ a with mem := mem }, .ldst (stateAt mem new)⟩

def progTrap (K : Layout) (a : Abs) (p : Pcb) : AbsMachine :=
  a.passUp K p (a.pcb.pNewPgm p) (a.pcb.pOldPgm p) a.pgmOld

def tlbTrap (K : Layout) (a : Abs) (p : Pcb) : AbsMachine :=
  a.passUp K p (a.pcb.pNewTlb p) (a.pcb.pOldTlb p) a.tlbOld

/-- System call `call` of process `p`. -/
def sysSwitch (K : Layout) (a : Abs) (p : Pcb) (call : Word) : AbsMachine :=
  if call = CREATEPROCESS then a.createprocess p
  else if call = TERMINATEPROCESS then a.die K p
  else if call = VERHOGEN then a.V
  else if call = PASSEREN then a.P p
  else if call = SPECTRAPVEC then a.spectrapvec K p
  else if call = GETCPUTIME then a.getcputime p
  else if call = WAITCLOCK then a.waitDev p K.clock
  else if call = WAITIO then
    if a.sysOld.a1 < DISKINT then a.die K p
    else a.waitDev p (K.semDev (waitioIndex a.sysOld.a1 a.sysOld.a2 a.sysOld.a3))
  else a.passUp K p (a.pcb.pNewSys p) (a.pcb.pOldSys p) a.sysOld

def sysCall (K : Layout) (a : Abs) (p : Pcb) : AbsMachine :=
  if a.sysOld.Privileged then
    progTrap K { a with pgmOld := a.sysOld.reserved } p
  else
    sysSwitch K { a with sysOld := a.sysOld.advance } p a.sysOld.a0

/-! ## Interrupts -/

/-- All waiters of the clock become ready, one after the other. -/
def wakeAll (a : Abs) (w : Word) : List Pcb → Abs
  | [] => a
  | p :: ps => (a.unblock 1 w p ps).wakeAll w ps

def preempt (a : Abs) (timeStart timeEnd : Int) : Abs :=
  match a.currentProc with
  | none => a
  | some p =>
      let io := a.ioProcTime + (timeEnd - timeStart)
      { a with
        ioProcTime := io
        lk.ready := a.lk.ready ++ [p]
        pcb := { a.pcb with
          pS := Function.update a.pcb.pS p a.intOld
          pTime := Function.update a.pcb.pTime p
            (a.pcb.pTime p + ((timeEnd - a.startTOD) - io)) }
        currentProc := none
        trace := .join (some p) :: .leave (some p) timeEnd ::
          .expired (some p) timeStart timeEnd :: a.trace }

/-- The clock is read once more. -/
def tick (a : Abs) : Abs := { a with reads := a.reads + 1 }

def endQuantum (a : Abs) (timeStart : Int) : Abs :=
  { a.tick.preempt timeStart (a.tod a.reads) with timer := QUANTUM }

/-- An interrupt of the interval timer. -/
def clockTick (K : Layout) (a : Abs) : Abs :=
  { a.wakeAll K.clock (a.lk.blocked K.clock) with
    mem := Function.update a.mem K.clock 0
    intervalTmr := INTERVAL }

/-- The register of the first device that shows an interrupt on line `lineNo`, and
what the handler takes from it. -/
def reg (a : Abs) (lineNo : Int) : Word :=
  getDeviceReg lineNo (findDevNo (a.interruptDev (lineNo - 3)))

def shown (a : Abs) (lineNo : Int) : Word × Int × Device :=
  (a.devReg (a.reg lineNo)).ack lineNo

def acked (a : Abs) (lineNo : Int) : Abs :=
  { a with devReg := Function.update a.devReg (a.reg lineNo) (a.shown lineNo).2.2 }

def slot (K : Layout) (a : Abs) (lineNo : Int) : Word :=
  K.semDev (BitVec.ofInt 32 (shownIndex lineNo a.interruptDev a.devReg))

/-- The status a process waited for goes to its saved `v0`. -/
def answer (a : Abs) (p : Pcb) (status : Word) : Abs :=
  { a with
    pcb.pS := Function.update a.pcb.pS p
      ((a.pcb.pS p).setV0 (status &&& STATUSMASK)) }

/-- A device signals its semaphore: the first waiter gets the status in its
`v0`, or else the interrupted state does. -/
def signal (a : Abs) (w status : Word) : Abs :=
  let a := a.setInt w (a.mem w + 1)
  if (a.mem w).toInt ≤ 0 then
    match a.lk.blocked w with
    | [] => a
    | p :: ps => (a.unblock 1 w p ps).answer p status
  else { a with intOld := a.intOld.setV0 (status &&& STATUSMASK) }

/-- An interrupt of a device on line `lineNo`. -/
def device (K : Layout) (a : Abs) (lineNo : Int) : Abs :=
  (a.acked lineNo).signal (a.slot K lineNo) (a.shown lineNo).1

/-- The handler reads the clock again and charges its time to `ioProcTime`. -/
def handled (a : Abs) (timeStart : Int) : Abs :=
  let timeEnd := a.tod a.reads
  { a with
    reads := a.reads + 1
    ioProcTime := a.ioProcTime + (timeStart - timeEnd)
    trace := .handled a.currentProc timeStart timeEnd :: a.trace }

/-- How an interrupt that did not end the quantum is left. -/
def leaveHandler (a : Abs) (timeStart : Int) : AbsMachine :=
  if a.waiting then a.schedule else ⟨a.handled timeStart, .ldst a.intOld⟩

def interrupt (K : Layout) (a : Abs) : AbsMachine :=
  let timeStart := a.tod a.reads
  let a := a.tick
  let lineNo := findLineNo a.intOld.sCause
  if lineNo = -1 then ⟨a, .panic⟩
  else if lineNo = PLOCINT then (a.endQuantum timeStart).schedule
  else if lineNo = IVTIMINT then (a.clockTick K).leaveHandler timeStart
  else if findDevNo (a.interruptDev (lineNo - 3)) = -1 then ⟨a, .panic⟩
  else (a.device K lineNo).leaveHandler timeStart

end Abs

/-! ## The branches of the services -/

section Branches

variable {a : Abs} {p : Pcb} {ps : List Pcb} {w status : Word} {K : Layout}

namespace Abs

theorem P_of_neg (h : (a.mem a.sysOld.a1 - 1).toInt < 0) :
    a.P p = ((a.setInt a.sysOld.a1 (a.mem a.sysOld.a1 - 1)).block 0 p a.sysOld.a1).schedule := by
  simp only [P, setInt, Function.update_self, if_pos h]

theorem P_of_not_neg (h : ¬ (a.mem a.sysOld.a1 - 1).toInt < 0) :
    a.P p = ⟨a.setInt a.sysOld.a1 (a.mem a.sysOld.a1 - 1), .ldst a.sysOld⟩ := by
  simp only [P, setInt, Function.update_self, if_neg h]

theorem waitDev_of_neg (h : (a.mem w - 1).toInt < 0) :
    a.waitDev p w = ((a.setInt w (a.mem w - 1)).block 1 p w).schedule := by
  simp only [waitDev, setInt, Function.update_self, if_pos h]

theorem waitDev_of_not_neg (h : ¬ (a.mem w - 1).toInt < 0) :
    a.waitDev p w = ⟨a.setInt w (a.mem w - 1), .ldst a.sysOld⟩ := by
  simp only [waitDev, setInt, Function.update_self, if_neg h]

theorem V_of_le (h : (a.mem a.sysOld.a1 + 1).toInt ≤ 0) :
    a.V = ⟨(a.setInt a.sysOld.a1 (a.mem a.sysOld.a1 + 1)).wake a.sysOld.a1, .ldst a.sysOld⟩ := by
  simp only [V, setInt, Function.update_self, if_pos h]

theorem V_of_not_le (h : ¬ (a.mem a.sysOld.a1 + 1).toInt ≤ 0) :
    a.V = ⟨a.setInt a.sysOld.a1 (a.mem a.sysOld.a1 + 1), .ldst a.sysOld⟩ := by
  simp only [V, setInt, Function.update_self, if_neg h]

theorem wake_nil (h : a.lk.blocked w = []) : a.wake w = a := by
  simp only [wake, h]

theorem wake_cons (h : a.lk.blocked w = p :: ps) : a.wake w = a.unblock 0 w p ps := by
  simp only [wake, h]

theorem signal_nil (h : (a.mem w + 1).toInt ≤ 0) (hq : a.lk.blocked w = []) :
    a.signal w status = a.setInt w (a.mem w + 1) := by
  simp only [signal, setInt, Function.update_self, if_pos h, hq]

theorem signal_cons (h : (a.mem w + 1).toInt ≤ 0) (hq : a.lk.blocked w = p :: ps) :
    a.signal w status = ((a.setInt w (a.mem w + 1)).unblock 1 w p ps).answer p status := by
  simp only [signal, setInt, Function.update_self, if_pos h, hq]

theorem signal_of_pos (h : ¬ (a.mem w + 1).toInt ≤ 0) :
    a.signal w status = { a.setInt w (a.mem w + 1) with
      intOld := a.intOld.setV0 (status &&& STATUSMASK) } := by
  simp only [signal, setInt, Function.update_self, if_neg h]

theorem passUp_null {new old : Word} {trap : State} (h : new = NULL) :
    a.passUp K p new old trap = a.die K p := if_pos h

theorem passUp_of_ne {new old : Word} {trap : State} (h : new ≠ NULL) :
    a.passUp K p new old trap =
      ⟨{ a with mem := storeState a.mem old trap }, .ldst (stateAt (storeState a.mem old trap) new)⟩ :=
  if_neg h

theorem leaveHandler_waiting {t : Int} (h : a.waiting = true) :
    a.leaveHandler t = a.schedule := by
  simp only [leaveHandler, h, if_true]

theorem leaveHandler_awake {t : Int} (h : a.waiting = false) :
    a.leaveHandler t = ⟨a.handled t, .ldst a.intOld⟩ := by
  simp only [leaveHandler, h, Bool.false_eq_true, if_false]

theorem interrupt_ploc (h : findLineNo a.intOld.sCause = PLOCINT) :
    a.interrupt K = (a.tick.endQuantum (a.tod a.reads)).schedule := by
  have hne : PLOCINT ≠ -1 := by decide
  have hline : findLineNo a.tick.intOld.sCause = PLOCINT := h
  rw [interrupt]
  simp only [hline, if_neg hne, if_true]

theorem interrupt_ivtim (h : findLineNo a.intOld.sCause = IVTIMINT) :
    a.interrupt K = (a.tick.clockTick K).leaveHandler (a.tod a.reads) := by
  have hne : IVTIMINT ≠ -1 := by decide
  have hne' : IVTIMINT ≠ PLOCINT := by decide
  have hline : findLineNo a.tick.intOld.sCause = IVTIMINT := h
  rw [interrupt]
  simp only [hline, if_neg hne, if_neg hne', if_true]

theorem interrupt_device {lineNo : Int} (h : findLineNo a.intOld.sCause = lineNo)
    (h3 : 3 ≤ lineNo) (hfound : findDevNo (a.interruptDev (lineNo - 3)) ≠ -1) :
    a.interrupt K = (a.tick.device K lineNo).leaveHandler (a.tod a.reads) := by
  have hne : lineNo ≠ -1 := by omega
  have hne' : lineNo ≠ PLOCINT := by simp only [PLOCINT]; omega
  have hne'' : lineNo ≠ IVTIMINT := by simp only [IVTIMINT]; omega
  have hline : findLineNo a.tick.intOld.sCause = lineNo := h
  have hfound' : findDevNo (a.tick.interruptDev (lineNo - 3)) ≠ -1 := hfound
  rw [interrupt]
  simp only [hline, if_neg hne, if_neg hne', if_neg hne'', if_neg hfound']

end Abs

theorem findLineNo_cases (cause : Word) :
    findLineNo cause = -1 ∨ findLineNo cause = PLOCINT ∨ findLineNo cause = IVTIMINT ∨
      3 ≤ findLineNo cause ∧ findLineNo cause ≤ 7 := by
  unfold findLineNo
  simp only [firstBit, PLOCINT, IVTIMINT]
  split_ifs <;> omega

end Branches

def AbsMachine.take (K : Layout) (m : AbsMachine) : Event → AbsMachine
  | .store w v => ⟨{ m.nuc with mem := Function.update m.nuc.mem w v }, m.cpu⟩
  | .syscall st => Abs.withCurrent { m.nuc with sysOld := st } (Abs.sysCall K)
  | .progTrap st => Abs.withCurrent { m.nuc with pgmOld := st } (Abs.progTrap K)
  | .tlbTrap st => Abs.withCurrent { m.nuc with tlbOld := st } (Abs.tlbTrap K)
  | .interrupt st interruptDev devReg =>
      Abs.interrupt K
        { m.nuc with intOld := st, interruptDev := interruptDev, devReg := devReg }

def AbsMachine.step (K : Layout) (m : AbsMachine) (e : Event) : AbsMachine :=
  if m.cpu.Takes e then m.take K e else m

end Kaya
