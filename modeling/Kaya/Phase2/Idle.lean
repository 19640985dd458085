import Kaya.Phase2.Proofs.Frame
import Kaya.Phase2.Places

/-!
# When no process is ready

`sftBlkCnt` counts the processes in SYS 7 and SYS 8, so the scheduler halts,
panics and waits for the right reasons, and one of the three always applies.
-/

namespace Kaya

open Lib

/-- The number of the last system call of `p`. -/
def lastCall (p : Pcb) : List (Machine × Event) → Option Word
  | [] => none
  | (m, .syscall st) :: h => if m.nuc.currentProc = some p then some st.a0 else lastCall p h
  | _ :: h => lastCall p h

/-- `p` is blocked, and the call in which it left the CPU was SYS 7 or SYS 8. -/
def WaitsForDevice (h : List (Machine × Event)) (m : Machine) (p : Pcb) : Prop :=
  m.nuc.pcb.pSemAdd p ≠ NULL ∧ (lastCall p h = some WAITCLOCK ∨ lastCall p h = some WAITIO)

instance (h : List (Machine × Event)) (m : Machine) : DecidablePred (WaitsForDevice h m) :=
  fun _ => inferInstanceAs (Decidable (_ ∧ _))

structure Idle (K : Layout) (h : List (Machine × Event)) (m : Machine) (l : Lists) : Prop where
  sftBlkCnt : m.nuc.sftBlkCnt = (Finset.univ.filter (WaitsForDevice h m)).card
  /-- The scheduler is called only when no process runs. -/
  scheduler : ∀ p, Obs.scheduler p ∈ m.nuc.trace → p = none
  returned : Obs.schedulerReturned ∉ m.nuc.trace
  halt : m.cpu = .halt → ∀ p, p ∈ l.free
  panic : m.cpu = .panic → ∀ p, p ∉ l.free → ∃ w, p ∈ l.blocked w ∧ ¬ K.IsDev w
  wait : m.cpu = .wait → l.ready = [] ∧ m.nuc.currentProc = none ∧
    ∃ p w, p ∈ l.blocked w ∧ K.IsDev w
  control : m.cpu ≠ .fault ∧ m.cpu ≠ .loop

variable {K : Layout} {m : Machine} {l : Lists} {h : List (Machine × Event)} {p : Pcb} {w : Word}
  {e : Event}

theorem lastCall_of_ne (hcur : m.nuc.currentProc ≠ some p) :
    lastCall p ((m, e) :: h) = lastCall p h := by
  cases e with
  | syscall st => exact if_neg hcur
  | store | progTrap | tlbTrap | interrupt => rfl

theorem lastCall_self {st : State} (hcur : m.nuc.currentProc = some p) :
    lastCall p ((m, .syscall st) :: h) = some st.a0 := if_pos hcur

/-- The invariant: a blocked process waits on a device exactly if it called SYS 7 or SYS 8. -/
def CallsTell (K : Layout) (h : List (Machine × Event)) (l : Lists) : Prop :=
  ∀ p w, p ∈ l.blocked w →
    (K.IsDev w ↔ lastCall p h = some WAITCLOCK ∨ lastCall p h = some WAITIO)

theorem CallsTell.step (h₀ : CallsTell K h l) (hholds : m.Holds K l) (hok : m.Plain K e) :
    CallsTell K ((m, e) :: h) ((m.over l).step K e).nuc.lk := by
  intro p w hmem
  rcases (hholds.plain hok).blocked hmem with hold | ⟨hcur, st, rfl, hcall⟩
  · rw [lastCall_of_ne (hholds.not_runs hold)]
    exact h₀ p w hold
  · have hcur' : m.nuc.currentProc = some p := hcur
    rw [lastCall_self hcur', Option.some.injEq, Option.some.injEq]
    rcases hcall with ⟨h4, hw⟩ | ⟨h78, hdev⟩
    · have hne : ¬ (st.a0 = WAITCLOCK ∨ st.a0 = WAITIO) := by
        rw [h4]
        decide
      exact iff_of_false hw.2.2 hne
    · exact iff_of_true hdev h78

theorem plain_callsTell (hrun : Reaches K (Machine.Plain K) h m) :
    ∃ l, m.Holds K l ∧ CallsTell K h l ∧ (m.abs l).Orderly := by
  refine hrun.induction (fun _ _ he => he.admits)
    (I := fun h am => CallsTell K h am.nuc.lk ∧ Abs.Orderly am.nuc) ?_ ?_
  · intro s hs
    refine ⟨?_, schedule_orderly ?_ rfl⟩
    · intro p w hmem
      rw [(schedule_world _).blocked] at hmem
      simp [Abs.first] at hmem
    · intro o ho
      simp only [Abs.first, hs, List.mem_cons, List.not_mem_nil, or_false] at ho
      rcases ho with rfl | rfl <;> exact trivial
  · rintro h m l e hholds ⟨hcalls, hord⟩ hok
    exact ⟨hcalls.step hholds hok, (hholds.plain hok).orderly hord (hholds.waiting hok.1)⟩

theorem Machine.Holds.idle (hholds : m.Holds K l) (hcalls : CallsTell K h l)
    (hord : (m.abs l).Orderly) : Idle K h m l := by
  obtain ⟨place, hpl⟩ := hholds.sound.inv.placed
  have hfits : m.cpu.Fits (m.abs l) := hholds.sound.fits
  have hsem : ∀ p, m.nuc.pcb.pSemAdd p = (place p).semAdd := hpl.semAdd
  have hspot : ∀ p, At (m.abs l) p (place p) := hpl.spot
  have hsoft : ∀ p, (place p).Soft K ↔ WaitsForDevice h m p := by
    intro p
    rw [WaitsForDevice, hsem]
    cases hp : place p with
    | blocked w =>
        have hmem : p ∈ l.blocked w := ((hspot p).blocked w).mpr hp
        have hne : w ≠ NULL := (hpl.addr p w hp).2
        have htell := hcalls p w hmem
        constructor
        · exact fun hdev => ⟨hne, htell.mp hdev⟩
        · exact fun hw => htell.mpr hw.2
    | free | running | ready => exact iff_of_false id (fun hw => hw.1 rfl)
  constructor
  case sftBlkCnt =>
    have hcnt : m.nuc.sftBlkCnt = count (Place.Soft K) place := hpl.sftBlkCnt
    rw [hcnt, count]
    congr 1
    exact congrArg Finset.card (Finset.filter_congr fun p _ => hsoft p)
  case scheduler => exact fun p hp => hord _ hp
  case returned => exact fun hr => hord _ hr
  case halt =>
    intro hcpu p
    rw [hcpu] at hfits
    have hzero : count Place.Live place = 0 := hpl.procCnt.symm.trans hfits.2
    have hdead := count_eq_zero.mp hzero p
    rw [Place.live_iff, not_not] at hdead
    exact (hspot p).free.mpr hdead
  case panic =>
    intro hcpu p hfree
    rw [hcpu] at hfits
    obtain ⟨hcur, hready, hsft, -⟩ := hfits
    have hnone := count_eq_zero.mp (hpl.sftBlkCnt.symm.trans hsft) p
    cases hp : place p with
    | free => exact absurd ((hspot p).free.mpr hp) hfree
    | running =>
        have hrun := (hspot p).running.mpr hp
        rw [hcur] at hrun
        simp at hrun
    | ready =>
        have hmem := (hspot p).ready.mpr hp
        rw [hready] at hmem
        simp at hmem
    | blocked w =>
        rw [hp] at hnone
        exact ⟨w, ((hspot p).blocked w).mpr hp, hnone⟩
  case wait =>
    intro hcpu
    rw [hcpu] at hfits
    obtain ⟨hcur, -, hready, hsft⟩ := hfits
    refine ⟨hready, hcur, ?_⟩
    have hpos : 0 < count (Place.Soft K) place := hpl.sftBlkCnt ▸ hsft
    obtain ⟨p, hp⟩ := count_pos.mp hpos
    cases hw : place p with
    | blocked w =>
        rw [hw] at hp
        exact ⟨p, w, ((hspot p).blocked w).mpr hw, hp⟩
    | free | running | ready =>
        rw [hw] at hp
        exact hp.elim
  case control =>
    constructor <;> intro hcpu <;> rw [hcpu] at hfits <;> exact hfits

/-- In every run of plain events the scheduler's decisions are right and it never returns. -/
theorem plain_idle (hrun : Reaches K (Machine.Plain K) h m) :
    ∃ l, Shape m.nuc.lk l ∧ Idle K h m l := by
  obtain ⟨l, hholds, hcalls, hord⟩ := plain_callsTell hrun
  exact ⟨l, hholds.shape, hholds.idle hcalls hord⟩

/-- The only process waits for the clock. -/
theorem plain_idle_clock :
    ∃ l, Shape (Machine.step .sample (boot .sample .sample)
        (.syscall (.call WAITCLOCK 0 0 0))).nuc.lk l ∧
      Idle .sample [(boot .sample .sample, .syscall (.call WAITCLOCK 0 0 0))]
        (Machine.step .sample (boot .sample .sample) (.syscall (.call WAITCLOCK 0 0 0))) l := by
  exact plain_idle (.next (.start ⟨.sample, rfl, rfl⟩) waitclock_plain)

end Kaya
