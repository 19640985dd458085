import Kaya.Phase2.Proofs.Frame
import Kaya.Phase2.Places

/-!
# Processes continue where they left off

`savedState p h` follows a history and says with which state `p` left the CPU,
from the events alone.  The saved state of every process that does not run is
that state, and the scheduler loads it.
-/

namespace Kaya

open Lib

/-- The state with which `p` is to go on. -/
def savedState (K : Layout) (p : Pcb) : List (Machine × Event) → State
  | [] => firstState K resetState
  | (m, e) :: h =>
      match e with
      | .syscall st =>
          if m.nuc.currentProc = some p then st.advance
          else if st.a0 = CREATEPROCESS ∧ m.nuc.lk.pcbFree = some p then
            stateAt m.nuc.mem st.a1
          else savedState K p h
      | .interrupt st interruptDev devReg =>
          if m.nuc.currentProc = some p then
            if findLineNo st.sCause = PLOCINT then st else savedState K p h
          -- a device wakes `p`
          else if 3 ≤ findLineNo st.sCause ∧ m.nuc.pcb.pSemAdd p ≠ NULL ∧
              (m.step K e).nuc.pcb.pSemAdd p = NULL then
            (savedState K p h).setV0 (statusByte (findLineNo st.sCause) interruptDev devReg)
          else savedState K p h
      | _ => savedState K p h

/-- The last thing the last event did was to dispatch `p`. -/
def Dispatched (p : Pcb) (h : List (Machine × Event)) (trace : List Obs) : Prop :=
  ∃ t rest, trace = .dispatch (some p) t :: rest ∧
    ∀ m e h₀, h = (m, e) :: h₀ → m.nuc.trace <:+ rest

variable {K : Layout} {m : Machine} {l : Lists} {h : List (Machine × Event)} {p q : Pcb}
  {e : Event} {a : Abs} {σ : Pcb → State} {tr : List Obs}

/-! ## Frames of the services -/

/-- `σ` gives the saved states, and the state loaded by a dispatch after `tr`. -/
structure Resumes (σ : Pcb → State) (tr : List Obs) (am : AbsMachine) : Prop where
  saved : ∀ q, q ∉ am.nuc.lk.free → am.nuc.currentProc ≠ some q → am.nuc.pcb.pS q = σ q
  dispatched : ∀ q t rest, am.nuc.trace = .dispatch (some q) t :: rest → tr <:+ rest →
    am.cpu = .ldst (σ q)

theorem schedule_resumes (hs : ∀ q, q ∉ a.lk.free → a.pcb.pS q = σ q)
    (hsound : Sound K a.schedule) : Resumes σ tr a.schedule := by
  have hw := schedule_world a
  refine ⟨?_, ?_⟩
  · intro q hq _
    rw [hw.free] at hq
    rw [hw.pcb]
    exact hs q hq
  · intro q t rest htrace _
    cases hready : a.lk.ready with
    | nil =>
        exfalso
        unfold Abs.schedule at htrace
        simp only [hready] at htrace
        split_ifs at htrace <;> simp at htrace
    | cons p ps =>
        have hcur : a.schedule.nuc.currentProc = some p := by
          simp only [Abs.schedule, hready]
        have hlive : p ∉ a.lk.free := by
          obtain ⟨place, hpl⟩ := hsound.inv.placed
          rw [← hw.free]
          exact (hpl.out hcur).free
        simp only [Abs.schedule, hready, List.cons.injEq, Obs.dispatch.injEq,
          Option.some.injEq] at htrace ⊢
        obtain ⟨⟨rfl, -⟩, -⟩ := htrace
        rw [hs p hlive]

/-- From `tr` to `tr'` no process was dispatched. -/
def Undispatched (tr tr' : List Obs) : Prop :=
  ∃ os, tr' = os ++ tr ∧ ∀ q t, Obs.dispatch q t ∉ os

theorem Undispatched.refl (tr : List Obs) : Undispatched tr tr := ⟨[], rfl, by simp⟩

theorem Joins.undispatched {tr' : List Obs} (h : Joins tr tr') : Undispatched tr tr' := by
  obtain ⟨js, rfl⟩ := h
  refine ⟨_, rfl, ?_⟩
  intro q t hd
  obtain ⟨p, -, hp⟩ := List.mem_map.mp hd
  cases hp

theorem Undispatched.cons {tr' : List Obs} (h : Undispatched tr tr') {o : Obs}
    (ho : ∀ q t, o ≠ .dispatch q t) : Undispatched tr (o :: tr') := by
  obtain ⟨os, rfl, hos⟩ := h
  refine ⟨o :: os, rfl, ?_⟩
  intro q t hd
  rcases List.mem_cons.mp hd with heq | hd
  · exact ho q t heq.symm
  · exact hos q t hd

theorem returns_resumes {st : State}
    (hs : ∀ q, q ∉ a.lk.free → a.currentProc ≠ some q → a.pcb.pS q = σ q)
    (htrace : Undispatched tr a.trace) : Resumes σ tr ⟨a, .ldst st⟩ := by
  refine ⟨hs, ?_⟩
  intro q t rest hd hsuf
  exfalso
  have hd' : a.trace = .dispatch (some q) t :: rest := hd
  obtain ⟨os, heq, hne⟩ := htrace
  cases os with
  | nil =>
      rw [heq, List.nil_append] at hd'
      have hlen := hsuf.length_le
      rw [hd', List.length_cons] at hlen
      omega
  | cons o os =>
      rw [heq, List.cons_append, List.cons.injEq] at hd'
      exact hne _ _ (by rw [hd'.1]; exact List.mem_cons_self ..)

theorem leaveHandler_resumes {t : Int}
    (hs : ∀ q, q ∉ a.lk.free → a.currentProc ≠ some q → a.pcb.pS q = σ q)
    (hwait : a.waiting = true → a.currentProc = none)
    (hsound : Sound K (a.leaveHandler t)) (htrace : Undispatched tr a.trace) :
    Resumes σ tr (a.leaveHandler t) := by
  cases hw : a.waiting with
  | true =>
      have hcur := hwait hw
      rw [Abs.leaveHandler_waiting hw] at hsound ⊢
      exact schedule_resumes (fun q hq => hs q hq (by simp [hcur])) hsound
  | false =>
      rw [Abs.leaveHandler_awake hw]
      apply returns_resumes (a := a.handled t) hs
      exact htrace.cons (by simp)

/-! ## One step -/

/-- The saved states before an event. -/
def SavedFor (K : Layout) (h : List (Machine × Event)) (a : Abs) : Prop :=
  ∀ q, q ∉ a.lk.free → a.currentProc ≠ some q → a.pcb.pS q = savedState K q h

theorem savedState_call {st : State} (hcur : m.nuc.currentProc ≠ some q)
    (hnew : ¬ (st.a0 = CREATEPROCESS ∧ m.nuc.lk.pcbFree = some q)) :
    savedState K q ((m, .syscall st) :: h) = savedState K q h := by
  simp only [savedState, if_neg hcur, if_neg hnew]

theorem savedState_call_self {st : State} (hcur : m.nuc.currentProc = some q) :
    savedState K q ((m, .syscall st) :: h) = st.advance := by
  simp only [savedState, if_pos hcur]

theorem savedState_interrupt {st : State} {i : Int → Word} {d : Word → Device}
    (hcur : m.nuc.currentProc ≠ some q)
    (hwake : ¬ (3 ≤ findLineNo st.sCause ∧ m.nuc.pcb.pSemAdd q ≠ NULL ∧
      (m.step K (.interrupt st i d)).nuc.pcb.pSemAdd q = NULL)) :
    savedState K q ((m, .interrupt st i d) :: h) = savedState K q h := by
  simp only [savedState, if_neg hcur, if_neg hwake]

theorem block_resumes {st : State} (hs : SavedFor K h (m.abs l))
    (hcur : m.nuc.currentProc = some p) (hne : st.a0 ≠ CREATEPROCESS) {b : Abs}
    (hfree : b.lk.free = l.free) (hpS : b.pcb.pS = Function.update m.nuc.pcb.pS p st.advance)
    (hsound : Sound K b.schedule) :
    Resumes (fun q => savedState K q ((m, .syscall st) :: h)) m.nuc.trace b.schedule := by
  apply schedule_resumes _ hsound
  intro q hq
  rw [hpS]
  by_cases hqp : q = p
  · subst hqp
    rw [Function.update_self, savedState_call_self hcur]
  · have hcurq : m.nuc.currentProc ≠ some q := by
      rw [hcur, ne_eq, Option.some.injEq]
      exact fun heq => hqp heq.symm
    rw [Function.update_of_ne hqp, savedState_call hcurq (fun hc => hne hc.1)]
    exact hs q (by rwa [hfree] at hq) hcurq

theorem call_resumes {st st' : State} (hs : SavedFor K h (m.abs l))
    (hcur : m.nuc.currentProc = some p) (hne : st.a0 ≠ CREATEPROCESS) {b : Abs}
    (hfree : b.lk.free = l.free) (hpS : b.pcb.pS = m.nuc.pcb.pS)
    (hcurb : b.currentProc = some p) (htrace : Undispatched m.nuc.trace b.trace) :
    Resumes (fun q => savedState K q ((m, .syscall st) :: h)) m.nuc.trace ⟨b, .ldst st'⟩ := by
  apply returns_resumes _ htrace
  intro q hq hcurq
  have hcurm : m.nuc.currentProc ≠ some q := by rwa [hcur, ← hcurb]
  rw [hpS, savedState_call hcurm (fun hc => hne hc.1)]
  exact hs q (by rwa [hfree] at hq) hcurm

theorem create_resumes {st : State} (hholds : m.Holds K l) (hs : SavedFor K h (m.abs l))
    (hcur : m.nuc.currentProc = some p) (hcall : st.a0 = CREATEPROCESS) :
    Resumes (fun q => savedState K q ((m, .syscall st) :: h)) m.nuc.trace
      (((m.abs l).called st).createprocess p) := by
  have hhead : m.nuc.lk.pcbFree = l.free.head? := hholds.shape.queues.free.eq_head?
  have hlive : p ∉ l.free := by
    obtain ⟨place, hpl⟩ := hholds.sound.inv.placed
    exact (hpl.out hcur).free
  cases hfree : l.free with
  | nil =>
      have hcreate : ((m.abs l).called st).createprocess p =
          ⟨{ (m.abs l).called st with sysOld := st.advance.setV0 FAIL },
            .ldst (st.advance.setV0 FAIL)⟩ := by
        have hf : ((m.abs l).called st).lk.free = [] := hfree
        simp only [Abs.createprocess, hf]
        rfl
      rw [hcreate]
      refine returns_resumes ?_ (.refl _)
      intro q hq hcurq
      rw [hfree] at hhead
      rw [savedState_call hcurq (by simp [hhead])]
      exact hs q hq hcurq
  | cons c fs =>
      have hf : ((m.abs l).called st).lk.free = c :: fs := hfree
      rw [hfree] at hhead hlive
      simp only [Abs.createprocess, hf]
      refine returns_resumes ?_ (((Undispatched.refl _).cons (by simp)).cons (by simp))
      intro q hq hcurq
      have hcurm : m.nuc.currentProc ≠ some q := hcurq
      by_cases hqc : q = c
      · subst hqc
        have hsaved : savedState K q ((m, .syscall st) :: h) = stateAt m.nuc.mem st.a1 := by
          have hnew : st.a0 = CREATEPROCESS ∧ m.nuc.lk.pcbFree = some q := ⟨hcall, hhead⟩
          simp only [savedState, if_neg hcurm, if_pos hnew]
        rw [hsaved]
        exact Function.update_self ..
      · have hnew : ¬ (st.a0 = CREATEPROCESS ∧ m.nuc.lk.pcbFree = some q) := by
          rintro ⟨-, hq'⟩
          rw [hhead, List.head?_cons, Option.some.injEq] at hq'
          exact hqc hq'.symm
        rw [savedState_call hcurm hnew]
        have hq' : q ∉ l.free := by
          rw [hfree, List.mem_cons, not_or]
          exact ⟨hqc, hq⟩
        have hold := hs q hq' hcurm
        rw [← hold]
        simp only [Payload.clear, Function.update_of_ne hqc]
        rfl

theorem exit_resumes {st : State} (hs : SavedFor K h (m.abs l))
    (hcur : m.nuc.currentProc = some p) (hcall : st.a0 = TERMINATEPROCESS)
    (hsound : Sound K (((m.abs l).called st).reapCurrent p).schedule) :
    Resumes (fun q => savedState K q ((m, .syscall st) :: h)) m.nuc.trace
      (((m.abs l).called st).reapCurrent p).schedule := by
  apply schedule_resumes _ hsound
  intro q hq
  obtain ⟨hqp, hq⟩ : q ≠ p ∧ q ∉ l.free := by
    have hfree : (((m.abs l).called st).reapCurrent p).lk.free = p :: l.free := rfl
    rwa [hfree, List.mem_cons, not_or] at hq
  have hcurq : m.nuc.currentProc ≠ some q := by
    rw [hcur, ne_eq, Option.some.injEq]
    exact fun heq => hqp heq.symm
  have hne : ¬ (st.a0 = CREATEPROCESS ∧ m.nuc.lk.pcbFree = some q) := by
    rw [hcall]
    exact fun hc => absurd hc.1 (by decide)
  rw [savedState_call hcurq hne, ← hs q hq hcurq]
  exact Function.update_of_ne hqp _ _

theorem quantum_resumes {st : State} {i : Int → Word} {d : Word → Device} {t : Int}
    (hs : SavedFor K h (m.abs l)) (hline : findLineNo st.sCause = PLOCINT)
    (hsound : Sound K (((m.abs l).interrupted st i d).endQuantum t).schedule) :
    Resumes (fun q => savedState K q ((m, .interrupt st i d) :: h)) m.nuc.trace
      (((m.abs l).interrupted st i d).endQuantum t).schedule := by
  have hwake : ∀ q, ¬ (3 ≤ findLineNo st.sCause ∧ m.nuc.pcb.pSemAdd q ≠ NULL ∧
      (m.step K (.interrupt st i d)).nuc.pcb.pSemAdd q = NULL) := by
    intro q hw
    rw [hline] at hw
    exact absurd hw.1 (by decide)
  apply schedule_resumes _ hsound
  intro q hq
  cases hcur : m.nuc.currentProc with
  | none =>
      have hcura : ((m.abs l).interrupted st i d).currentProc = none := hcur
      have hcurq : m.nuc.currentProc ≠ some q := by simp [hcur]
      simp only [Abs.endQuantum, Abs.preempt, Abs.tick, hcura] at hq ⊢
      rw [savedState_interrupt hcurq (hwake q)]
      exact hs q hq hcurq
  | some p =>
      have hcura : ((m.abs l).interrupted st i d).currentProc = some p := hcur
      simp only [Abs.endQuantum, Abs.preempt, Abs.tick, hcura] at hq ⊢
      by_cases hqp : q = p
      · subst hqp
        rw [Function.update_self]
        simp only [savedState, if_pos hcur, if_pos hline]
        rfl
      · have hcurq : m.nuc.currentProc ≠ some q := by
          rw [hcur, ne_eq, Option.some.injEq]
          exact fun heq => hqp heq.symm
        rw [Function.update_of_ne hqp, savedState_interrupt hcurq (hwake q)]
        exact hs q hq hcurq

theorem clock_resumes {st : State} {i : Int → Word} {d : Word → Device} {t : Int}
    (hs : SavedFor K h (m.abs l)) (hline : findLineNo st.sCause = IVTIMINT)
    (hwait : m.nuc.waiting = true → m.nuc.currentProc = none)
    (hsound : Sound K ((((m.abs l).interrupted st i d).clockTick K).leaveHandler t)) :
    Resumes (fun q => savedState K q ((m, .interrupt st i d) :: h)) m.nuc.trace
      ((((m.abs l).interrupted st i d).clockTick K).leaveHandler t) := by
  have hq := wakeAll_quiet ((m.abs l).interrupted st i d) K.clock
    (((m.abs l).interrupted st i d).lk.blocked K.clock)
  have hpS : (((m.abs l).interrupted st i d).clockTick K).pcb.pS = m.nuc.pcb.pS :=
    wakeAll_pS _ _ _
  refine leaveHandler_resumes ?_ ?_ hsound (wakeAll_trace _ _ _).undispatched
  · intro q hfree hcur
    have hcurm : m.nuc.currentProc ≠ some q := fun hc => hcur (hq.currentProc.trans hc)
    have hwake : ¬ (3 ≤ findLineNo st.sCause ∧ m.nuc.pcb.pSemAdd q ≠ NULL ∧
        (m.step K (.interrupt st i d)).nuc.pcb.pSemAdd q = NULL) := by
      intro hw
      rw [hline] at hw
      exact absurd hw.1 (by decide)
    have hfreem : q ∉ (m.abs l).lk.free := fun hf => hfree (hq.free.symm ▸ hf)
    rw [hpS, savedState_interrupt hcurm hwake]
    exact hs q hfreem hcurm
  · exact fun hw => hq.currentProc.trans (hwait (hq.waiting.symm.trans hw))

/-- A device writes to the saved state of the process it wakes, and to no other. -/
theorem signal_saved {st : State} {i : Int → Word} {d : Word → Device} {b : Abs} {w : Word}
    (hs : SavedFor K h (m.abs l)) (hline : 3 ≤ findLineNo st.sCause)
    (hblocked : ∀ q ∈ b.lk.blocked w, b.pcb.pSemAdd q ≠ NULL) (hpcb : b.pcb = m.nuc.pcb)
    (hstep : (m.step K (.interrupt st i d)).nuc.pcb =
      (b.signal w ((d (getDeviceReg (findLineNo st.sCause)
        (findDevNo (i (findLineNo st.sCause - 3))))).ack (findLineNo st.sCause)).1).pcb)
    (hfree : q ∉ l.free) (hcur : m.nuc.currentProc ≠ some q) :
    (m.step K (.interrupt st i d)).nuc.pcb.pS q =
      savedState K q ((m, .interrupt st i d) :: h) := by
  have hold : b.pcb.pS q = savedState K q h := by
    rw [hpcb]
    exact hs q hfree hcur
  -- whoever keeps its semaphore was not woken
  have hkeep : (m.step K (.interrupt st i d)).nuc.pcb.pSemAdd q = m.nuc.pcb.pSemAdd q →
      savedState K q ((m, .interrupt st i d) :: h) = savedState K q h := by
    intro hsame
    apply savedState_interrupt hcur
    rintro ⟨-, hne, hnull⟩
    exact hne (hsame.symm.trans hnull)
  by_cases hle : (b.mem w + 1).toInt ≤ 0
  · cases hq : b.lk.blocked w with
    | nil =>
        rw [Abs.signal_nil hle hq] at hstep
        rw [hkeep (by rw [hstep]; exact congrFun (congrArg Payload.pSemAdd hpcb) q), hstep]
        exact hold
    | cons p ps =>
        rw [Abs.signal_cons hle hq] at hstep
        by_cases hqp : q = p
        · subst hqp
          have hne : m.nuc.pcb.pSemAdd q ≠ NULL := by
            rw [← hpcb]
            exact hblocked q (by simp [hq])
          have hnull : (m.step K (.interrupt st i d)).nuc.pcb.pSemAdd q = NULL := by
            rw [hstep]
            exact Function.update_self ..
          have hsaved : savedState K q ((m, .interrupt st i d) :: h) =
              (savedState K q h).setV0 (statusByte (findLineNo st.sCause) i d) := by
            have hw : 3 ≤ findLineNo st.sCause ∧ m.nuc.pcb.pSemAdd q ≠ NULL ∧
                (m.step K (.interrupt st i d)).nuc.pcb.pSemAdd q = NULL := ⟨hline, hne, hnull⟩
            simp only [savedState, if_neg hcur, if_pos hw]
          rw [hsaved, hstep, ← hold]
          exact Function.update_self ..
        · have hsem : (m.step K (.interrupt st i d)).nuc.pcb.pSemAdd q =
              m.nuc.pcb.pSemAdd q := by
            rw [hstep, ← hpcb]
            exact Function.update_of_ne hqp _ _
          rw [hkeep hsem, hstep, ← hold]
          exact Function.update_of_ne hqp _ _
  · rw [Abs.signal_of_pos hle] at hstep
    rw [hkeep (by rw [hstep]; exact congrFun (congrArg Payload.pSemAdd hpcb) q), hstep]
    exact hold

theorem device_resumes {st : State} {i : Int → Word} {d : Word → Device} {t : Int}
    (hholds : m.Holds K l) (hs : SavedFor K h (m.abs l)) (hline : 3 ≤ findLineNo st.sCause)
    (hwait : m.nuc.waiting = true → m.nuc.currentProc = none)
    (hstep : (m.step K (.interrupt st i d)).nuc.pcb =
      ((((m.abs l).interrupted st i d).device K (findLineNo st.sCause)).leaveHandler t).nuc.pcb)
    (hsound : Sound K
      ((((m.abs l).interrupted st i d).device K (findLineNo st.sCause)).leaveHandler t)) :
    Resumes (fun q => savedState K q ((m, .interrupt st i d) :: h)) m.nuc.trace
      ((((m.abs l).interrupted st i d).device K (findLineNo st.sCause)).leaveHandler t) := by
  let b : Abs := ((m.abs l).interrupted st i d).acked (findLineNo st.sCause)
  let w := ((m.abs l).interrupted st i d).slot K (findLineNo st.sCause)
  have hq : Quiet b (((m.abs l).interrupted st i d).device K (findLineNo st.sCause)) :=
    signal_quiet _ _ _
  obtain ⟨place, hpl⟩ := hholds.sound.inv.placed
  have hblocked : ∀ q ∈ b.lk.blocked w, b.pcb.pSemAdd q ≠ NULL := by
    intro q hmem
    have hp : place q = .blocked w := ((hpl.spot q).blocked w).mp hmem
    have hsem : b.pcb.pSemAdd q = (place q).semAdd := hpl.semAdd q
    rw [hsem, hp]
    exact (hpl.addr q w hp).2
  rw [(leaveHandler_world _ _).pcb] at hstep
  refine leaveHandler_resumes ?_ ?_ hsound (signal_trace _ _ _).undispatched
  · intro q hfree hcur
    have hcurm : m.nuc.currentProc ≠ some q := fun hc => hcur (hq.currentProc.trans hc)
    have hfreem : q ∉ l.free := fun hf => hfree (hq.free.symm ▸ hf)
    rw [← hstep]
    exact signal_saved hs hline hblocked rfl hstep hfreem hcurm
  · exact fun hw => hq.currentProc.trans (hwait (hq.waiting.symm.trans hw))

theorem Machine.Holds.resumes (hholds : m.Holds K l) (hs : SavedFor K h (m.abs l))
    (hok : m.Plain K e) :
    Resumes (fun q => savedState K q ((m, e) :: h)) m.nuc.trace ((m.over l).step K e) := by
  obtain ⟨l', hl', hover⟩ := hholds.step hok.admits
  have hsound : Sound K ((m.over l).step K e) := hover ▸ hl'.sound
  have hpcb : (m.step K e).nuc.pcb = ((m.over l).step K e).nuc.pcb :=
    congrArg (fun am : AbsMachine => am.nuc.pcb) hover
  have hplain := hholds.plain hok
  generalize (m.over l).step K e = am at hsound hpcb hplain ⊢
  cases hplain with
  | store hdev hrun =>
      refine ⟨?_, ?_⟩
      · intro q hq hcur
        exact hs q hq hcur
      · intro q t rest htrace hsuf
        have hlen := hsuf.length_le
        have htrace' : m.nuc.trace = .dispatch (some q) t :: rest := htrace
        rw [htrace', List.length_cons] at hlen
        omega
  | create h1 hcur => exact create_resumes hholds hs hcur h1
  | exit h2 hcur hkids => exact exit_resumes hs hcur h2 hsound
  | @V st p h3 hcur hw =>
      have hne : st.a0 ≠ CREATEPROCESS := by rw [h3]; decide
      by_cases hle : ((((m.abs l).called st).mem ((m.abs l).called st).sysOld.a1) + 1).toInt ≤ 0
      · have hq := wake_quiet (((m.abs l).called st).setInt st.a1 (m.nuc.mem st.a1 + 1)) st.a1
        rw [Abs.V_of_le hle]
        exact call_resumes hs hcur hne hq.free (wake_pS _ _) (hq.currentProc.trans hcur)
          (wake_trace _ _).undispatched
      · rw [Abs.V_of_not_le hle]
        exact call_resumes hs hcur hne rfl rfl hcur (.refl _)
  | @P st p h4 hcur hw =>
      have hne : st.a0 ≠ CREATEPROCESS := by rw [h4]; decide
      by_cases hneg : ((((m.abs l).called st).mem ((m.abs l).called st).sysOld.a1) - 1).toInt < 0
      · rw [Abs.P_of_neg hneg] at hsound ⊢
        exact block_resumes hs hcur hne rfl rfl hsound
      · rw [Abs.P_of_not_neg hneg]
        exact call_resumes hs hcur hne rfl rfl hcur (.refl _)
  | @waitDev st p u h78 hcur hdev =>
      have hne : st.a0 ≠ CREATEPROCESS := by
        rcases h78 with h7 | h8
        · rw [h7]; decide
        · rw [h8]; decide
      by_cases hneg : (((m.abs l).called st).mem u - 1).toInt < 0
      · rw [Abs.waitDev_of_neg hneg] at hsound ⊢
        exact block_resumes hs hcur hne rfl rfl hsound
      · rw [Abs.waitDev_of_not_neg hneg]
        exact call_resumes hs hcur hne rfl rfl hcur (.refl _)
  | quantum h1 => exact quantum_resumes hs h1 hsound
  | clock h2 => exact clock_resumes hs h2 (hholds.waiting hok.1) hsound
  | device h3 hdev => exact device_resumes hholds hs h3 (hholds.waiting hok.1) hpcb hsound

/-! ## Runs -/

/-- In every run of plain events a process that does not run has the saved state with which it
left the CPU, and a dispatch loads that state. -/
theorem plain_context (hrun : Reaches K (Machine.Plain K) h m) :
    ∃ l, Shape m.nuc.lk l ∧
      (∀ p, p ∉ l.free → m.nuc.currentProc ≠ some p → m.nuc.pcb.pS p = savedState K p h) ∧
      ∀ p, Dispatched p h m.nuc.trace → m.cpu = .ldst (savedState K p h) := by
  have hinv : ∃ l, m.Holds K l ∧ SavedFor K h (m.abs l) ∧
      ∀ p, Dispatched p h (m.over l).nuc.trace → (m.over l).cpu = .ldst (savedState K p h) := by
    refine hrun.induction (fun _ _ he => he.admits)
      (I := fun h am => SavedFor K h am.nuc ∧
        ∀ p, Dispatched p h am.nuc.trace → am.cpu = .ldst (savedState K p h)) ?_ ?_
    · intro s _
      refine ⟨?_, ?_⟩
      · intro q hfree hcur
        exfalso
        rw [(schedule_world _).free] at hfree
        have hcur' : (Abs.first K s).schedule.nuc.currentProc = some Abs.firstPcb := rfl
        have hall : ∀ p : Pcb, p ∈ (List.finRange MAXPROC).reverse.tail ∨ p = Abs.firstPcb := by
          decide
        rcases hall q with hq | rfl
        · exact hfree hq
        · exact hcur hcur'
      · intro p _
        rfl
    · rintro h m l e hholds ⟨hs, -⟩ hok
      have hres := hholds.resumes hs hok
      refine ⟨hres.saved, ?_⟩
      rintro p ⟨t, rest, htrace, hsuf⟩
      exact hres.dispatched p t rest htrace (hsuf m e h rfl)
  obtain ⟨l, hholds, hs, hd⟩ := hinv
  exact ⟨l, hholds.shape, hs, hd⟩

/-- Each of three processes goes on after the quanta of the others. -/
theorem plain_context_quantum : ∃ l, Shape (sampleRun threeQuanta).2.nuc.lk l ∧
    (∀ p, p ∉ l.free → (sampleRun threeQuanta).2.nuc.currentProc ≠ some p →
      (sampleRun threeQuanta).2.nuc.pcb.pS p = savedState .sample p (sampleRun threeQuanta).1) ∧
    ∀ p, Dispatched p (sampleRun threeQuanta).1 (sampleRun threeQuanta).2.nuc.trace →
      (sampleRun threeQuanta).2.cpu = .ldst (savedState .sample p (sampleRun threeQuanta).1) :=
  plain_context (sampleRun_reaches threeQuanta_plain)

end Kaya
