import Kaya.Phase2.Proofs.Bystander
import Kaya.Phase2.Semaphores

/-!
# A tick of the interval timer

The interrupt of the interval timer moves all waiters of the pseudo-clock to the ready queue.
They stand there in the order in which they blocked: the call in which a process blocked is its
last one.
-/

namespace Kaya

open Lib

variable {K : Layout} {m : Machine} {l : Lists} {h : List (Machine × Event)} {p q : Pcb}
  {e : Event} {a : Abs} {st : State} {w : Word}

/-! ## The order of the waiters -/

/-- In every queue, who has waited longer stands further ahead. -/
def Ordered (h : List (Machine × Event)) (a : Abs) : Prop :=
  ∀ w, (a.lk.blocked w).Pairwise fun p q => since p h < since q h

theorem step_ordered (hholds : m.Holds K l) (hord : Ordered h (m.abs l)) (hok : m.Admits K e) :
    Ordered ((m, e) :: h) ((m.over l).step K e).nuc := by
  intro w
  have hwaiting : ∀ p ∈ l.blocked w, m.nuc.currentProc ≠ some p := fun _ => hholds.not_runs
  have hold : (l.blocked w).Pairwise fun p q => since p ((m, e) :: h) < since q ((m, e) :: h) :=
    oldest_step hwaiting (hord w)
  rcases step_queues hholds hok with hshrinks | ⟨st, rfl, henters⟩
  · exact hold.sublist (hshrinks w)
  · refine List.Pairwise.sublist (henters.queue w) (List.pairwise_append.mpr ⟨hold, ?_, ?_⟩)
    · cases m.nuc.currentProc <;> simp [Machine.abs, NucleusOf.withLk]
    · -- the caller enters behind processes whose last calls are in `h`
      intro q hq p hp
      have hcur : m.nuc.currentProc = some p := Option.mem_toList.mp hp
      have hnow : since p ((m, .syscall st) :: h) = h.length + 1 := if_pos hcur
      rw [since_of_ne (hwaiting q hq), hnow]
      exact Nat.lt_succ_of_le (since_le q h)

theorem Reaches.ordered (hrun : Reaches K (Machine.Admits K) h m) :
    ∃ l, m.Holds K l ∧ Ordered h (m.abs l) := by
  refine hrun.induction (fun _ _ he => he) (I := fun h am => Ordered h am.nuc) ?_ ?_
  · intro s _ w
    rw [(schedule_world _).blocked]
    exact List.Pairwise.nil
  · exact fun h m l e hholds hord hok => step_ordered hholds hord hok

/-! ## The tick -/

/-- What the loop over the waiters of `w` leaves. -/
theorem wakeAll_eq (ps : List Pcb) (hq : a.lk.blocked w = ps) :
    a.wakeAll w ps = { a with
      lk := { a.lk with
        blocked := Function.update a.lk.blocked w [], ready := a.lk.ready ++ ps }
      pcb.pSemAdd := fun q => if q ∈ ps then NULL else a.pcb.pSemAdd q
      sftBlkCnt := a.sftBlkCnt - ps.length
      trace := (ps.map fun p => Obs.join (some p)).reverse ++ a.trace } := by
  induction ps generalizing a with
  | nil =>
    have hsame : Function.update a.lk.blocked w [] = a.lk.blocked := by
      rw [← hq, Function.update_eq_self]
    simp [Abs.wakeAll, hsame]
  | cons p ps ih =>
    rw [Abs.wakeAll, ih (by simp [Abs.unblock])]
    have hsem : (fun q => if q ∈ ps then NULL else Function.update a.pcb.pSemAdd p NULL q) =
        fun q => if q ∈ p :: ps then NULL else a.pcb.pSemAdd q := by
      funext q
      by_cases hqp : q = p
      · simp [hqp]
      · simp [hqp]
    simp only [Abs.unblock, hsem, Function.update_idem, List.append_assoc, List.singleton_append,
      List.length_cons, List.map_cons, List.reverse_cons]
    congr 1
    push_cast
    omega

/-- What a tick does in `m` after the history `h` when it interrupts a process in state `st`;
`l` and `l'` are the lists before and after it. -/
structure TickLaw (K : Layout) (h : List (Machine × Event)) (m m' : Machine) (st : State)
    (l l' : Lists) : Prop where
  before : Shape m.nuc.lk l
  after : Shape m'.nuc.lk l'
  /-- The waiters stand in the order in which they blocked. -/
  order : (l.blocked K.clock).Pairwise fun p q => since p h < since q h
  blocked : l'.blocked = Function.update l.blocked K.clock []
  free : l'.free = l.free
  kids : l'.kids = l.kids
  sftBlkCnt : m'.nuc.sftBlkCnt = m.nuc.sftBlkCnt - (l.blocked K.clock).length
  semAdd : ∀ p, m'.nuc.pcb.pSemAdd p =
    if p ∈ l.blocked K.clock then NULL else m.nuc.pcb.pSemAdd p
  mem : m'.nuc.mem = Function.update m.nuc.mem K.clock 0
  descriptors : Released m.nuc.lk.toLinks m'.nuc.lk.toLinks K.clock (l.blocked K.clock ≠ [])
  resumes : m.nuc.waiting = false → l'.ready = l.ready ++ l.blocked K.clock ∧
    m'.nuc.currentProc = m.nuc.currentProc ∧ m'.cpu = .ldst st
  /-- The machine waited, and the first process of the ready queue gets the processor. -/
  dispatches : m.nuc.waiting = true → match l.ready ++ l.blocked K.clock with
    | p :: ps => l'.ready = ps ∧ m'.nuc.currentProc = some p ∧
        m'.cpu = .ldst (m.nuc.pcb.pS p)
    | [] => l'.ready = [] ∧ m'.nuc.currentProc = none ∧ m'.cpu = .wait

theorem Placed.procCnt_ne_zero {place : Pcb → Place} (hpl : Placed K a place)
    (hsft : 0 < a.sftBlkCnt) : a.procCnt ≠ 0 := by
  rw [hpl.sftBlkCnt, count_pos] at hsft
  obtain ⟨p, hp⟩ := hsft
  rw [hpl.procCnt]
  intro hzero
  have hdead := count_eq_zero.mp hzero p
  cases hplace : place p with
  | blocked w =>
    rw [hplace] at hdead
    exact hdead trivial
  | free | running | ready =>
    rw [hplace] at hp
    exact hp

theorem schedule_nil (hready : a.lk.ready = []) (hproc : a.procCnt ≠ 0)
    (hsft : a.sftBlkCnt ≠ 0) :
    a.schedule.nuc.lk.ready = [] ∧ a.schedule.nuc.currentProc = a.currentProc ∧
      a.schedule.cpu = .wait := by
  simp only [Abs.schedule, hready, if_neg hproc, if_neg hsft]
  exact ⟨trivial, trivial, trivial⟩

/-- In every run in which `terminateprocess` finds its victims, a tick of the interval timer moves
all waiters of the clock to the end of the ready queue. -/
theorem tick_wakes_waiters (hrun : Reaches K (Machine.Admits K) h m)
    {interruptDev : Int → Word} {devReg : Word → Device}
    (htakes : m.cpu.Takes (.interrupt st interruptDev devReg))
    (hline : findLineNo st.sCause = IVTIMINT) :
    ∃ l l', TickLaw K h m (m.step K (.interrupt st interruptDev devReg)) st l l' := by
  obtain ⟨l, hholds, hord⟩ := hrun.ordered
  let a : Abs := { m.abs l with
    intOld := st, interruptDev := interruptDev, devReg := devReg }
  obtain ⟨place, hpl⟩ := hholds.sound.inv.placed
  have ha : Placed K a place := hpl.congr rfl rfl rfl rfl rfl rfl rfl
  obtain ⟨lk', hhandler, hshape', hrel⟩ := ivtim_run (a := a) ha hline hholds.shape
  have hstep : m.step K (.interrupt st interruptDev devReg) =
      ⟨(a.interrupt K).nuc.withLk lk', (a.interrupt K).cpu⟩ := by
    have htake : m.step K (.interrupt st interruptDev devReg) =
        Machine.enter (ioTrapHandler K) (a.withLk m.nuc.lk) := if_pos htakes
    rw [htake, Machine.enter, hhandler]
  have hint : a.interrupt K = (a.tick.clockTick K).leaveHandler (a.tod a.reads) :=
    Abs.interrupt_ivtim hline
  let b : Abs := a.tick.clockTick K
  have hb : b = { a.tick.wakeAll K.clock (l.blocked K.clock) with
      mem := Function.update m.nuc.mem K.clock 0, intervalTmr := INTERVAL } := rfl
  rw [wakeAll_eq (a := a.tick) (l.blocked K.clock) rfl] at hb
  have hready : b.lk.ready = l.ready ++ l.blocked K.clock := by rw [hb]; rfl
  have hsft : b.sftBlkCnt = m.nuc.sftBlkCnt - (l.blocked K.clock).length := by rw [hb]; rfl
  have hsem : b.pcb.pSemAdd = fun p =>
      if p ∈ l.blocked K.clock then NULL else m.nuc.pcb.pSemAdd p := by rw [hb]; rfl
  have hpS : b.pcb.pS = m.nuc.pcb.pS := by rw [hb]; rfl
  have hcur : b.currentProc = m.nuc.currentProc := by rw [hb]; rfl
  have hwait : b.waiting = m.nuc.waiting := by rw [hb]; rfl
  have hworld : SameWorld b (a.interrupt K).nuc := by
    rw [hint]
    exact leaveHandler_world b _
  refine ⟨l, (a.interrupt K).nuc.lk, ?_⟩
  rw [hstep]
  constructor
  case before => exact hholds.shape
  case after => exact hshape'
  case order => exact hord K.clock
  case blocked => rw [hworld.blocked, hb]; rfl
  case free => rw [hworld.free, hb]; rfl
  case kids => rw [hworld.kids, hb]; rfl
  case sftBlkCnt => exact hworld.sftBlkCnt.trans hsft
  case semAdd =>
    intro p
    show (a.interrupt K).nuc.pcb.pSemAdd p = _
    rw [hworld.pcb, hsem]
  case mem => exact hworld.mem
  case descriptors => exact hrel
  case resumes =>
    intro hawake
    have hleave : a.interrupt K = ⟨b.handled (a.tod a.reads), .ldst b.intOld⟩ :=
      hint.trans (Abs.leaveHandler_awake (hwait.trans hawake))
    have hint' : b.intOld = st := by rw [hb]; rfl
    rw [hleave]
    exact ⟨hready, hcur, congrArg Stop.ldst hint'⟩
  case dispatches =>
    intro hwaits
    have hleave : a.interrupt K = b.schedule :=
      hint.trans (Abs.leaveHandler_waiting (hwait.trans hwaits))
    rw [hleave, ← hready]
    have hidle : m.nuc.currentProc = none ∧ 0 < m.nuc.sftBlkCnt := by
      rcases htakes.alive with ⟨st', hrunning⟩ | hwaiting
      · have hfits := hholds.sound.fits
        have hcpu : (m.over l).cpu = .ldst st' := hrunning
        rw [hcpu] at hfits
        have hawake : m.nuc.waiting = false := hfits.2
        rw [hawake] at hwaits
        exact absurd hwaits (by decide)
      · have hfits := hholds.sound.fits
        have hcpu : (m.over l).cpu = .wait := hwaiting
        rw [hcpu] at hfits
        exact ⟨hfits.1, hfits.2.2.2⟩
    cases hline : b.lk.ready with
    | cons p ps =>
      rw [← hpS]
      exact schedule_cons hline
    | nil =>
      -- there were no waiters, and what the machine waits for is still to come
      have hnone : l.blocked K.clock = [] := (List.append_eq_nil_iff.mp (hready.symm.trans hline)).2
      have hproc : b.procCnt = m.nuc.procCnt := by rw [hb]; rfl
      have hne : m.nuc.procCnt ≠ 0 := hpl.procCnt_ne_zero hidle.2
      rw [hnone, List.length_nil] at hsft
      obtain ⟨h₁, h₂, h₃⟩ := schedule_nil hline (by rw [hproc]; exact hne) (by rw [hsft]; omega)
      exact ⟨h₁, h₂.trans (hcur.trans hidle.1), h₃⟩

def clockWaiters : List Event :=
  [.syscall (.call CREATEPROCESS 0x20008000 0 0), .syscall (.call CREATEPROCESS 0x20008000 0 0),
    .syscall (.call WAITCLOCK 0 0 0), .syscall (.call WAITCLOCK 0 0 0)]

theorem tick_wakes_waiters_two : ∃ l l', TickLaw .sample (sampleRun clockWaiters).1
    (sampleRun clockWaiters).2 ((sampleRun clockWaiters).2.step .sample (.tick resetState))
    { resetState with sCause := 0x400 } l l' := by
  have hplain : AllOk (Machine.step .sample) (Machine.Plain .sample) (boot .sample .sample)
      clockWaiters := by decide +kernel
  exact tick_wakes_waiters (sampleRun_reaches (hplain.mono fun _ _ => Machine.Plain.admits))
    (by decide +kernel) (by decide)

/-- A child that is ready before its grandparent is not found when its parent ends, so it runs on
when its PCB is free.  It waits for the clock, and the next process but one gets its PCB. -/
def reused : List Event :=
  [.syscall (.call CREATEPROCESS 0x20008000 0 0), .quantum resetState,
    .syscall (.call CREATEPROCESS 0x20008000 0 0), .quantum resetState, .quantum resetState,
    .syscall (.call PASSEREN 0x20009000 0 0), .quantum resetState,
    .syscall (.call VERHOGEN 0x20009000 0 0), .quantum resetState,
    .syscall (.call TERMINATEPROCESS 0 0 0), .syscall (.call WAITCLOCK 0 0 0),
    .syscall (.call CREATEPROCESS 0x20008000 0 0), .syscall (.call CREATEPROCESS 0x20008000 0 0)]

def reusedRun : List (Machine × Event) × Machine :=
  replay (Machine.step .sample) ([], boot .sample .sample) reused

/-- The tick runs along the ready queue into a null pointer. -/
theorem tick_faults :
    Reaches .sample (fun m e => m.cpu.Takes e) reusedRun.1 reusedRun.2 ∧
      reusedRun.2.cpu.Takes (.tick resetState) ∧
      (reusedRun.2.step .sample (.tick resetState)).cpu = .fault ∧
      ¬ ∃ l l', TickLaw .sample reusedRun.1 reusedRun.2
        (reusedRun.2.step .sample (.tick resetState)) { resetState with sCause := 0x400 } l l' := by
  have hstart : Reaches .sample (fun m e => m.cpu.Takes e) [] (boot .sample .sample) :=
    .start ⟨.sample, rfl, rfl⟩
  have hfault : (reusedRun.2.step .sample (.tick resetState)).cpu = .fault := by decide +kernel
  refine ⟨hstart.replay reused (by decide +kernel), by decide +kernel, hfault, ?_⟩
  rintro ⟨l, l', hlaw⟩
  have hawake : reusedRun.2.nuc.waiting = false := by decide +kernel
  have hcpu := (hlaw.resumes hawake).2.2
  rw [hfault] at hcpu
  exact absurd hcpu (by decide)

end Kaya
