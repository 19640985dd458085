import Kaya.Phase2.Proofs.Books
import Kaya.Phase2.Proofs.Frame

/-!
# CPU time

`p_time` and SYS 6 against the quanta of a process.  `ioTrapHandler` subtracts the time of an
interrupt that returns to the process from `ioProcTime`, where it adds that of one which ends the
quantum, so such an interrupt is charged twice instead of not at all.
-/

namespace Kaya

open Lib

/-- What SYS 6 would return for `p` if the clock were read as `now`. -/
def cpuTime (s : Nucleus) (p : Pcb) (now : Int) : Int :=
  if s.currentProc = some p then s.pcb.pTime p + (now - s.startTOD) - s.ioProcTime
  else s.pcb.pTime p

/-- The quanta of `p` up to `now`. -/
def quanta (s : Nucleus) (p : Pcb) (now : Int) : Int :=
  (account p s.trace).elapsed +
    if s.currentProc = some p then now - (account p s.trace).since else 0

/-- The time spent in `ioTrapHandler` during the quanta of `p`. -/
def handlerTime (s : Nucleus) (p : Pcb) : Int :=
  (account p s.trace).inside + (account p s.trace).insideNow

/-- The part of it in interrupts that returned to `p`. -/
def returnedTime (s : Nucleus) (p : Pcb) : Int :=
  (account p s.trace).returned + (account p s.trace).returnedNow

/-- The charge is fair. -/
structure Fair (s : Nucleus) (p : Pcb) (now : Int) : Prop where
  charge : cpuTime s p now = quanta s p now - handlerTime s p
  bound : cpuTime s p now ≤ quanta s p now

variable {K : Layout} {s : Nucleus} {m : Machine} {h : List (Machine × Event)} {p : Pcb}

theorem getcputime_cpuTime (hcur : s.currentProc = some p) :
    ∃ t, getcputime s =
      .error (.ldst (s.sysOld.setV0 (BitVec.ofInt 32 (cpuTime s p (s.tod s.reads))))) t := by
  apply Exists.intro
  simp only [getcputime, STCK, getPTime, deref, setSysOld, LDST, bind_run, modifyGet_run, get_run,
    pure_run, modify_run, throw_run, hcur, cpuTime, if_true]
  rfl

/-- Every interrupt that returned is charged, and charged again. -/
theorem Books.cpuTime (hb : Books s) (halive : (account p s.trace).alive = true) (now : Int) :
    cpuTime s p now = quanta s p now - handlerTime s p + 2 * returnedTime s p := by
  have hp := hb.booked p
  have htime := hp.time halive
  unfold Kaya.cpuTime quanta handlerTime returnedTime
  by_cases hcur : s.currentProc = some p
  · obtain ⟨hstart, hio⟩ := hp.running hcur
    rw [if_pos hcur, if_pos hcur]
    omega
  · obtain ⟨hnow, hret⟩ := hp.resting hcur
    rw [if_neg hcur, if_neg hcur]
    omega

theorem Books.fair_iff (hb : Books s) (halive : (account p s.trace).alive = true) (now : Int) :
    Fair s p now ↔ returnedTime s p = 0 := by
  have hcharge := hb.cpuTime halive now
  obtain ⟨⟨hin, hnow⟩, -⟩ := (hb.booked p).nonneg
  have hnonneg : 0 ≤ handlerTime s p := Int.add_nonneg hin hnow
  constructor
  · intro hfair
    have heq := hfair.charge
    omega
  · intro hret
    constructor <;> omega

theorem boot_books (K : Layout) (hs : s.trace = [])
    (hticks : ∀ n, (boot K s).nuc.tod n ≤ (boot K s).nuc.tod (n + 1)) :
    Books (boot K s).nuc := by
  obtain ⟨lk, hboot, -⟩ := boot_represents K s
  rw [hboot] at hticks ⊢
  refine ⟨hticks, ?_, fun hw => absurd hw Bool.false_ne_true⟩
  intro p
  have htrace : ((Abs.first K s).schedule.nuc.withLk lk).trace =
      [.dispatch (some Abs.firstPcb) (s.tod (s.reads + 1)), .scheduler none,
        .create (some Abs.firstPcb), .join (some Abs.firstPcb)] := by
    rw [← hs]
    rfl
  rw [htrace]
  by_cases hp : p = Abs.firstPcb
  · subst hp
    have hacc : account Abs.firstPcb [.dispatch (some Abs.firstPcb) (s.tod (s.reads + 1)),
        .scheduler none, .create (some Abs.firstPcb), .join (some Abs.firstPcb)] =
          ⟨true, 0, 0, 0, s.tod (s.reads + 1), 0, 0⟩ := rfl
    rw [hacc]
    exact ⟨fun _ => rfl, fun _ => ⟨rfl, rfl⟩, fun hne => absurd rfl hne,
      ⟨le_refl _, le_refl _⟩, le_refl _, le_refl _⟩
  · have hne : some Abs.firstPcb ≠ some p := fun he => hp (Option.some.inj he).symm
    rw [account_of_ne (o := .dispatch _ _) hne, account_of_ne (o := .scheduler _) (by simp [Obs.proc]),
      account_of_ne (o := .create _) hne, account_of_ne (o := .join _) (by simp [Obs.proc])]
    exact ⟨fun halive => absurd halive Bool.false_ne_true, fun hcur => absurd hcur hne, fun _ => ⟨rfl, rfl⟩,
      ⟨le_refl _, le_refl _⟩, le_refl _, le_refl _⟩

def Machine.Ticking (K : Layout) (m : Machine) : Prop :=
  m.Booted K ∧ ∀ n, m.nuc.tod n ≤ m.nuc.tod (n + 1)

theorem Machine.Ticking.books (hm : m.Ticking K) : Books m.nuc := by
  obtain ⟨⟨s, hs, hboot⟩, hticks⟩ := hm
  rw [hboot] at hticks ⊢
  exact boot_books K hs hticks

theorem run_books (hrun : Run (Machine.Ticking K) (Machine.step K)
    (fun m e => m.cpu.Takes e) h m) : m.cpu.Lost ∨ Books m.nuc :=
  hrun.invariant (fun _ hm => .inr hm.books) fun m e hm _ => m.step_books e hm

/-- In every run, whatever events arrive, the charge of a process is fair exactly as long as no
time has passed in interrupts that returned to it. -/
theorem cpu_time_fair_iff (hrun : Run (Machine.Ticking K) (Machine.step K)
    (fun m e => m.cpu.Takes e) h m) (hcpu : ¬ m.cpu.Lost)
    (halive : (account p m.nuc.trace).alive = true) (now : Int) :
    Fair m.nuc p now ↔ returnedTime m.nuc p = 0 :=
  ((run_books hrun).resolve_left hcpu).fair_iff halive now

theorem sample_ticking : (boot .sample .sample).Ticking .sample := by
  obtain ⟨lk, hboot, -⟩ := boot_represents .sample .sample
  refine ⟨⟨.sample, rfl, rfl⟩, ?_⟩
  rw [hboot]
  intro n
  show (10 : Int) * n ≤ 10 * ((n + 1 : Nat) : Int)
  omega

/-- The clock ticks in the second quantum of the first process. -/
def tickInQuantum : List Event := [.quantum resetState, .tick resetState]

theorem cpu_time_fair_iff_tick : Fair (sampleRun tickInQuantum).2.nuc Abs.firstPcb 100 ↔
    returnedTime (sampleRun tickInQuantum).2.nuc Abs.firstPcb = 0 := by
  have htakes : AllOk (Machine.step .sample) (fun m e => m.cpu.Takes e) (boot .sample .sample)
      tickInQuantum := by decide +kernel
  have hruns : (sampleRun tickInQuantum).2.cpu.Running := by decide +kernel
  refine cpu_time_fair_iff ((Run.start sample_ticking).replay tickInQuantum htakes) ?_
    (by decide +kernel) 100
  obtain ⟨st, hst⟩ := hruns
  have hst' : (replay (Machine.step .sample) ([], boot .sample .sample) tickInQuantum).2.cpu =
      .ldst st := hst
  rw [hst']
  rintro (hlost | hlost) <;> cases hlost

/-! ## One interrupt of the interval timer -/

/-- The state that `main` leaves, over lists. -/
def sampleStart : Abs := (Abs.first .sample .sample).schedule.nuc

/-- The first process is dispatched at 10; the interval timer interrupts it from 20 to 30. -/
theorem sample_tick : ∃ l, (Machine.step .sample (boot .sample .sample) (.tick resetState)).over l =
    ⟨(((sampleStart.interrupted { resetState with sCause := 0x400 } (fun _ => 0)
        fun _ => ⟨0, 0, 0, 0⟩).clockTick .sample).handled 20),
      .ldst { resetState with sCause := 0x400 }⟩ := by
  obtain ⟨l, hl, hover⟩ := boot_holds .sample .sample
  have hplain : (boot .sample .sample).Plain .sample (.tick resetState) :=
    ⟨.inl ⟨_, boot_cpu _ _⟩, by decide, fun h3 => absurd h3 (by decide)⟩
  obtain ⟨l', -, hover'⟩ := hl.step hplain.admits
  rw [hover] at hover'
  refine ⟨l', hover'.trans ?_⟩
  have htakes : (Abs.first .sample .sample).schedule.cpu.Takes (.tick resetState) :=
    .inl ⟨_, rfl⟩
  let a : Abs := { sampleStart with
    intOld := { resetState with sCause := 0x400 }
    interruptDev := fun _ => 0, devReg := fun _ => ⟨0, 0, 0, 0⟩ }
  have hline : findLineNo a.intOld.sCause = IVTIMINT := by
    show findLineNo 0x400 = IVTIMINT
    decide
  have hawake : (a.tick.clockTick .sample).waiting = false := rfl
  rw [AbsMachine.step, if_pos htakes]
  exact (Abs.interrupt_ivtim hline).trans (Abs.leaveHandler_awake hawake)

/-- The run of this one event, with the process charged 40 for a quantum of 30 at time 40. -/
theorem cpu_time_unfair :
    Run (Machine.Ticking .sample) (Machine.step .sample) (fun m e => m.cpu.Takes e)
        [(boot .sample .sample, .tick resetState)]
        (Machine.step .sample (boot .sample .sample) (.tick resetState)) ∧
      (account Abs.firstPcb
        (Machine.step .sample (boot .sample .sample) (.tick resetState)).nuc.trace).alive = true ∧
      quanta (Machine.step .sample (boot .sample .sample) (.tick resetState)).nuc
        Abs.firstPcb 40 = 30 ∧
      handlerTime (Machine.step .sample (boot .sample .sample) (.tick resetState)).nuc
        Abs.firstPcb = 10 ∧
      cpuTime (Machine.step .sample (boot .sample .sample) (.tick resetState)).nuc
        Abs.firstPcb 40 = 40 := by
  have hrun : Run (Machine.Ticking .sample) (Machine.step .sample) (fun m e => m.cpu.Takes e)
      [(boot .sample .sample, .tick resetState)]
      (Machine.step .sample (boot .sample .sample) (.tick resetState)) :=
    .next (.start sample_ticking) (.inl ⟨_, boot_cpu _ _⟩)
  obtain ⟨l, hover⟩ := sample_tick
  generalize Machine.step .sample (boot .sample .sample) (.tick resetState) = m at hrun hover ⊢
  have htrace : m.nuc.trace = [.handled (some Abs.firstPcb) 20 30,
      .dispatch (some Abs.firstPcb) 10, .scheduler none, .create (some Abs.firstPcb),
      .join (some Abs.firstPcb)] :=
    congrArg (fun am : AbsMachine => am.nuc.trace) hover
  have hcur : m.nuc.currentProc = some Abs.firstPcb :=
    congrArg (fun am : AbsMachine => am.nuc.currentProc) hover
  have htime : m.nuc.pcb.pTime Abs.firstPcb = 0 :=
    congrArg (fun am : AbsMachine => am.nuc.pcb.pTime Abs.firstPcb) hover
  have hstart : m.nuc.startTOD = 10 := congrArg (fun am : AbsMachine => am.nuc.startTOD) hover
  have hio : m.nuc.ioProcTime = -10 := congrArg (fun am : AbsMachine => am.nuc.ioProcTime) hover
  have hacc : account Abs.firstPcb [.handled (some Abs.firstPcb) 20 30,
      .dispatch (some Abs.firstPcb) 10, .scheduler none, .create (some Abs.firstPcb),
      .join (some Abs.firstPcb)] =
        ⟨true, 0, 0, 0, 10, 10, 10⟩ := rfl
  refine ⟨hrun, ?_, ?_, ?_, ?_⟩
  · rw [htrace, hacc]
  · rw [quanta, htrace, hacc, hcur, if_pos rfl]
    rfl
  · rw [handlerTime, htrace, hacc]
    rfl
  · rw [cpuTime, hcur, if_pos rfl, htime, hstart, hio]
    rfl

end Kaya
