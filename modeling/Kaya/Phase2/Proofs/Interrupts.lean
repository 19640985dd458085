import Kaya.Phase2.Proofs.Refine

/-!
# Interrupts over the lists
-/

namespace Kaya

open Lib

variable {K : Layout} {a : Abs} {place : Pcb → Place} {p : Pcb} {w : Word}

/-! ## The interval timer -/

/-- The loop wakes all waiters; the descriptor of `w` goes with the last of them. -/
theorem unblockClock_run (hdev : K.IsDev w) (ps : List Pcb) (fuel : Nat)
    (hfuel : ps.length < fuel) (h : Placed K a place) (hq : a.lk.blocked w = ps) {lk : Ptrs}
    (hshape : Shape lk a.lk) :
    ∃ lk', unblockClock w fuel (a.withLk lk) = .ok () ((a.wakeAll w ps).withLk lk') ∧
      Shape lk' (a.wakeAll w ps).lk ∧ Released lk.toLinks lk'.toLinks w (ps ≠ []) := by
  have hw := Layout.semAddr_of_isDev hdev
  induction ps generalizing a place fuel lk with
  | nil =>
      obtain ⟨fuel, rfl⟩ := Nat.exists_eq_succ_of_ne_zero (Nat.ne_of_gt hfuel)
      have hhead := headBlocked_shape (s := a.withLk lk) hshape.queues hw
      rw [hq] at hhead
      obtain ⟨act, free, hasl⟩ := hshape.queues.asl
      have hkeep : Released lk.toLinks lk.toLinks w False := .keep hasl.lined hasl.lined rfl w
      refine ⟨lk, ?_, hshape, by simpa using hkeep⟩
      simp only [unblockClock, bind_run, hhead, List.head?_nil, ne_eq, not_true_eq_false,
        if_false, Abs.wakeAll, pure_run]
  | cons p ps ih =>
      obtain ⟨fuel, rfl⟩ := Nat.exists_eq_succ_of_ne_zero (Nat.ne_of_gt (Nat.zero_lt_of_lt hfuel))
      have hnd := hshape.queues.nodups_blocked w
      rw [hq] at hnd
      have hhead := headBlocked_shape (s := a.withLk lk) hshape.queues hw
      rw [hq] at hhead
      obtain ⟨lk₁, lk₂, hrem, hins, hshape₂, hrel⟩ :=
        unblock_runs h hw hq lk hshape { a.unblock 1 w p ps with trace := a.trace }
      have h' := h.unblock hq hnd (weight_of hdev).symm
      obtain ⟨lk₃, hrest, hshape₃, hrel'⟩ := ih fuel (by simpa using hfuel) h'
        (by simp [Abs.unblock]) hshape₂
      have hboth := hrel.trans hrel' (or_iff_not_imp_left.mpr fun hne => not_not.mp hne |> fun hnil h' => h' hnil)
      refine ⟨lk₃, ?_, hshape₃, by simpa [em] using hboth⟩
      simp only [NucleusOf.withLk, Abs.unblock, Abs.wakeAll] at hrem hins hhead hrest ⊢
      simp only [unblockClock, bind_run, ite_run, modify_run, hhead, hrem, hins, hrest,
        List.head?_cons, ne_eq, reduceCtorEq, not_false_eq_true, if_true]

theorem wakeAll_mem (a : Abs) (w : Word) (ps : List Pcb) : (a.wakeAll w ps).mem = a.mem := by
  induction ps generalizing a with
  | nil => rfl
  | cons p ps ih => exact ih (a.unblock 1 w p ps)

theorem ivtimInterrupt_run (h : Placed K a place) {lk : Ptrs} (hshape : Shape lk a.lk) :
    ∃ lk', ivtimInterrupt K (a.withLk lk) = .ok () ((a.clockTick K).withLk lk') ∧
      Shape lk' (a.clockTick K).lk ∧
      Released lk.toLinks lk'.toLinks K.clock (a.lk.blocked K.clock ≠ []) := by
  have hlen : (a.lk.blocked K.clock).length ≤ MAXPROC := by
    have hle := (hshape.queues.nodups_blocked K.clock).length_le_card
    rwa [Fintype.card_fin] at hle
  obtain ⟨lk', hrun, hshape', hrel⟩ := unblockClock_run Layout.isDev_clock _ (MAXPROC + 1)
    (Nat.lt_succ_of_le hlen) h rfl hshape
  have hmem : (a.wakeAll K.clock (a.lk.blocked K.clock)).mem = a.mem := wakeAll_mem ..
  refine ⟨lk', ?_, hshape', hrel⟩
  have hivtim : ivtimInterrupt K = (do
      unblockClock K.clock (MAXPROC + 1)
      storeInt K.clock 0
      LDIT INTERVAL) := rfl
  rw [hivtim, bind_ok hrun]
  simp only [storeInt, LDIT, bind_run, modify_run, NucleusOf.withLk, hmem, Abs.clockTick]

/-! ## The end of a quantum -/

theorem Placed.tick (h : Placed K a place) : Placed K a.tick place :=
  h.congr rfl rfl rfl rfl rfl rfl rfl

theorem plocInterrupt_refines (h : Placed K a place) (timeStart : Int) :
    Refines (plocInterrupt timeStart) a (a.endQuantum timeStart).schedule := by
  intro lk hshape
  cases hcur : a.currentProc with
  | none =>
      have hend : a.endQuantum timeStart = { a.tick with timer := QUANTUM } := by
        simp only [Abs.endQuantum, Abs.preempt, Abs.tick, hcur]
      have hb : Placed K (a.endQuantum timeStart) place := by
        rw [hend]
        exact h.congr rfl rfl rfl rfl rfl rfl rfl
      obtain ⟨lk', hsch, hshape'⟩ := scheduler_refines hb.apart hb.sftBlkCnt_nonneg lk
        (by rw [hend]; exact hshape)
      refine ⟨lk', ?_, hshape'⟩
      rw [hend] at hsch ⊢
      simp only [NucleusOf.withLk, Abs.tick, hcur] at hsch ⊢
      simp only [plocInterrupt, STCK, setTIMER, bind_run, modifyGet_run, get_run, modify_run,
        ite_run, ne_eq, not_true_eq_false, if_false, hsch]
  | some p =>
      have hb : Placed K (a.endQuantum timeStart) (Function.update place p .ready) :=
        (h.tick.preempt timeStart (a.tod a.reads) hcur).congr
          rfl rfl rfl rfl rfl rfl rfl
      obtain ⟨lk₁, hins, hq₁, ht₁, -⟩ := insertReady_spec
        (s := ({ a.tick.preempt timeStart (a.tod a.reads) with
          currentProc := some p
          trace := .leave (some p) (a.tod a.reads) ::
            .expired (some p) timeStart (a.tod a.reads) :: a.trace } : Abs).withLk lk) hshape.queues h.apart (h.out hcur)
      have hshape₁ : Shape lk₁ (a.endQuantum timeStart).lk := by
        simp only [Abs.endQuantum, Abs.preempt, Abs.tick, hcur]
        exact ⟨hq₁, hshape.trees.congr ht₁⟩
      obtain ⟨lk₂, hsch, hshape₂⟩ := scheduler_refines hb.apart hb.sftBlkCnt_nonneg lk₁ hshape₁
      refine ⟨lk₂, ?_, hshape₂⟩
      simp only [NucleusOf.withLk, Abs.endQuantum, Abs.preempt, Abs.tick, hcur] at hins hsch ⊢
      simp only [plocInterrupt, STCK, setTIMER, emit, setCurrentProc, deref, bind_run,
        modifyGet_run, get_run, modify_run, pure_run, ite_run, ne_eq,
        reduceCtorEq, not_false_eq_true, if_true, setPTime_run, setPS_run, copyState_eq, hins,
        hsch]

/-! ## Devices -/

theorem acknowledge_run (s : Nucleus) (lineNo devNo : Int) :
    acknowledge lineNo devNo s =
      .ok (((s.devReg (getDeviceReg lineNo devNo)).ack lineNo).1,
          ((s.devReg (getDeviceReg lineNo devNo)).ack lineNo).2.1)
        { s with
          devReg :=
            Function.update s.devReg (getDeviceReg lineNo devNo)
              ((s.devReg (getDeviceReg lineNo devNo)).ack lineNo).2.2 } := by
  by_cases h7 : lineNo = 7
  · by_cases hst : (s.devReg (getDeviceReg lineNo devNo)).dStatus &&& STATUSMASK = READY
    · simp only [acknowledge, Device.ack, bind_run, get_run, modify_run, pure_run, ite_run,
        if_pos h7, if_pos hst]
    · simp only [acknowledge, Device.ack, bind_run, get_run, modify_run, pure_run, ite_run,
        if_pos h7, if_neg hst]
  · simp only [acknowledge, Device.ack, bind_run, get_run, modify_run, pure_run, if_neg h7]

def signalDev (semAdd status : Word) : NucM Unit := do
  storeInt semAdd ((← loadInt semAdd) + 1)
  if (← loadInt semAdd).toInt ≤ 0 then
    let blockedProc ← phase1 (removeBlocked semAdd)
    if blockedProc ≠ none then
      modify fun s => { s with sftBlkCnt := s.sftBlkCnt - 1 }
      phase1 (setPS blockedProc
        ((← getPS blockedProc).setV0 (status &&& STATUSMASK)))
      insertReady blockedProc
  else
    modify fun s => { s with intOld := s.intOld.setV0 (status &&& STATUSMASK) }

theorem signalDev_runs (h : Placed K a place) (hw : SemAddr w) (status : Word) :
    Runs (signalDev w status) a (a.signal w status) := by
  intro lk hshape
  let b := a.setInt w (a.mem w + 1)
  have hb : Placed K b place := h.congr rfl rfl rfl rfl rfl rfl rfl
  by_cases hle : (a.mem w + 1).toInt ≤ 0
  · cases hq : a.lk.blocked w with
    | nil =>
        have hrem := removeBlocked_shape_nil (s := b.withLk lk) hshape.queues hw hq
        rw [Abs.signal_nil hle hq]
        refine ⟨lk, ?_, hshape⟩
        simp only [NucleusOf.withLk, Abs.setInt, b] at hrem ⊢
        simp only [signalDev, storeInt, loadInt, bind_run, get_run, modify_run, pure_run, ite_run,
          Function.update_self, if_pos hle, hrem, ne_eq, not_true_eq_false, if_false]
    | cons p ps =>
        obtain ⟨lk₁, lk₂, hrem, hins, hshape₂, -⟩ :=
          unblock_runs hb hw hq lk hshape
            { (b.unblock 1 w p ps).answer p status with trace := b.trace }
        rw [Abs.signal_cons hle hq]
        refine ⟨lk₂, ?_, hshape₂⟩
        simp only [NucleusOf.withLk, Abs.setInt, Abs.unblock, Abs.answer, b] at hrem hins ⊢
        simp only [signalDev, storeInt, loadInt, getPS, deref, bind_run, get_run, modify_run,
          pure_run, ite_run, Function.update_self, if_pos hle, hrem, ne_eq, reduceCtorEq,
          not_false_eq_true, if_true, setPS_run, hins]
  · rw [Abs.signal_of_pos hle]
    refine ⟨lk, ?_, hshape⟩
    simp only [signalDev, storeInt, loadInt, bind_run, get_run, modify_run, pure_run, ite_run,
      NucleusOf.withLk, Abs.setInt, Function.update_self, if_neg hle]

theorem deviceInterrupt_run (lineNo : Int) (s : Nucleus) :
    deviceInterrupt K lineNo s =
      (do
        if findDevNo (s.interruptDev (lineNo - 3)) = -1 then
          PANIC
        let r ← acknowledge lineNo (findDevNo (s.interruptDev (lineNo - 3)))
        signalDev (K.semDev (BitVec.ofInt 32
          (ioIndex lineNo (findDevNo (s.interruptDev (lineNo - 3))) r.2))) r.1) s := rfl

def shownBy (lineNo : Int) (interruptDev : Int → Word) (devReg : Word → Device) :
    Word × Int × Device :=
  (devReg (getDeviceReg lineNo (findDevNo (interruptDev (lineNo - 3))))).ack lineNo

theorem deviceInterrupt_found {lineNo : Int} {s : Nucleus}
    (hfound : findDevNo (s.interruptDev (lineNo - 3)) ≠ -1) :
    deviceInterrupt K lineNo s =
      signalDev (K.semDev (BitVec.ofInt 32 (shownIndex lineNo s.interruptDev s.devReg)))
        (shownBy lineNo s.interruptDev s.devReg).1
        { s with
          devReg :=
            Function.update s.devReg
              (getDeviceReg lineNo (findDevNo (s.interruptDev (lineNo - 3))))
              (shownBy lineNo s.interruptDev s.devReg).2.2 } := by
  rw [deviceInterrupt_run, if_neg hfound]
  exact (bind_ok (acknowledge_run s lineNo (findDevNo (s.interruptDev (lineNo - 3))))).trans rfl

theorem deviceInterrupt_runs (h : Placed K a place) {lineNo : Int}
    (hfound : findDevNo (a.interruptDev (lineNo - 3)) ≠ -1) (hw : SemAddr (a.slot K lineNo)) :
    Runs (deviceInterrupt K lineNo) a (a.device K lineNo) := by
  intro lk hshape
  have hb : Placed K (a.acked lineNo) place := h.congr rfl rfl rfl rfl rfl rfl rfl
  obtain ⟨lk', hsig, hshape'⟩ := signalDev_runs hb hw (a.shown lineNo).1 lk hshape
  have hfound' : findDevNo ((a.withLk lk).interruptDev (lineNo - 3)) ≠ -1 := hfound
  refine ⟨lk', ?_, hshape'⟩
  exact (deviceInterrupt_found hfound').trans hsig

/-! ## `ioTrapHandler` -/

/-- The handler once its `switch` is over. -/
def leaveHandler (timeStart : Int) : NucM Unit := do
  if (← get).waiting then
    scheduler
  let timeEnd ← STCK
  modify fun t : Nucleus => { t with ioProcTime := t.ioProcTime + (timeStart - timeEnd) }
  emit (.handled (← get).currentProc timeStart timeEnd)
  LDST (← get).intOld

theorem ioTrapHandler_run (s : Nucleus) :
    ioTrapHandler K s =
      (do
        ioSwitch K (findLineNo s.intOld.sCause) (s.tod s.reads)
        leaveHandler (s.tod s.reads)) { s with reads := s.reads + 1 } := rfl

theorem leaveHandler_run {b : Abs} (hb : b.waiting = true → ∃ place, Placed K b place)
    (timeStart : Int) {lk : Ptrs} (hshape : Shape lk b.lk) :
    ∃ lk', leaveHandler timeStart (b.withLk lk) =
        .error (b.leaveHandler timeStart).cpu ((b.leaveHandler timeStart).nuc.withLk lk') ∧
      Shape lk' (b.leaveHandler timeStart).nuc.lk ∧ SameSemd lk.toLinks lk'.toLinks := by
  cases hwait : b.waiting with
  | false =>
      rw [Abs.leaveHandler_awake hwait]
      refine ⟨lk, ?_, hshape, ⟨rfl, rfl, rfl, rfl, rfl⟩⟩
      simp [leaveHandler, STCK, emit, LDST, NucleusOf.withLk, Abs.handled, hwait]
  | true =>
      obtain ⟨place, hpl⟩ := hb hwait
      obtain ⟨lk', hsch, hshape', hsemd⟩ :=
        scheduler_run hpl.apart hpl.sftBlkCnt_nonneg hshape
      rw [Abs.leaveHandler_waiting hwait]
      refine ⟨lk', ?_, hshape', hsemd⟩
      have hwait' : (b.withLk lk).waiting = true := hwait
      rw [leaveHandler, bind_ok (get_run _), if_pos hwait']
      exact bind_error hsch

theorem Placed.wakeAll (h : Placed K a place) (hdev : K.IsDev w) {ps : List Pcb}
    (hq : a.lk.blocked w = ps) (hnd : ps.Nodup) : ∃ place', Placed K (a.wakeAll w ps) place' := by
  induction ps generalizing a place with
  | nil => exact ⟨place, h⟩
  | cons p ps ih =>
      apply ih (h.unblock hq hnd (weight_of hdev).symm)
      · simp [Abs.unblock]
      · exact (List.nodup_cons.mp hnd).2

theorem Placed.clockTick (h : Placed K a place) (hnd : (a.lk.blocked K.clock).Nodup) :
    ∃ place', Placed K (a.clockTick K) place' := by
  obtain ⟨place', h'⟩ := h.wakeAll Layout.isDev_clock rfl hnd
  exact ⟨place', h'.congr rfl rfl rfl rfl rfl rfl rfl⟩

theorem Placed.signal (h : Placed K a place) (hdev : K.IsDev w) (hnd : (a.lk.blocked w).Nodup)
    (status : Word) : ∃ place', Placed K (a.signal w status) place' := by
  let b := a.setInt w (a.mem w + 1)
  have hb : Placed K b place := h.congr rfl rfl rfl rfl rfl rfl rfl
  by_cases hle : (a.mem w + 1).toInt ≤ 0
  · cases hq : a.lk.blocked w with
    | nil =>
        rw [Abs.signal_nil hle hq]
        exact ⟨place, hb⟩
    | cons p ps =>
        rw [Abs.signal_cons hle hq]
        rw [hq] at hnd
        exact ⟨_, (hb.unblock hq hnd (weight_of hdev).symm).congr rfl rfl rfl rfl rfl rfl rfl⟩
  · rw [Abs.signal_of_pos hle]
    exact ⟨place, hb.congr rfl rfl rfl rfl rfl rfl rfl⟩

theorem Placed.device (h : Placed K a place) {lineNo : Int} (hdev : K.IsDev (a.slot K lineNo))
    (hnd : (a.lk.blocked (a.slot K lineNo)).Nodup) :
    ∃ place', Placed K (a.device K lineNo) place' := by
  have hb : Placed K (a.acked lineNo) place := h.congr rfl rfl rfl rfl rfl rfl rfl
  exact hb.signal hdev hnd _

/-- An interrupt shows a line and, from line 3 on, a device whose semaphore is in
`semDevArray`. -/
structure Abs.Served (K : Layout) (a : Abs) : Prop where
  line : findLineNo a.intOld.sCause ≠ -1
  dev : 3 ≤ findLineNo a.intOld.sCause →
    findDevNo (a.interruptDev (findLineNo a.intOld.sCause - 3)) ≠ -1 ∧
      K.IsDev (a.slot K (findLineNo a.intOld.sCause))

theorem ioSwitch_device {lineNo : Int} (h3 : 3 ≤ lineNo) (timeStart : Int) :
    ioSwitch K lineNo timeStart = deviceInterrupt K lineNo := by
  unfold ioSwitch
  rw [if_neg (by omega), if_neg (by simp only [PLOCINT]; omega),
    if_neg (by simp only [IVTIMINT]; omega)]

theorem ivtim_run (h : Placed K a place) (h2 : findLineNo a.intOld.sCause = IVTIMINT) {lk : Ptrs}
    (hshape : Shape lk a.lk) :
    ∃ lk', ioTrapHandler K (a.withLk lk) =
        .error (a.interrupt K).cpu ((a.interrupt K).nuc.withLk lk') ∧
      Shape lk' (a.interrupt K).nuc.lk ∧
      Released lk.toLinks lk'.toLinks K.clock (a.lk.blocked K.clock ≠ []) := by
  have hline : findLineNo (a.withLk lk).intOld.sCause = IVTIMINT := h2
  obtain ⟨lk₁, hrun, hshape₁, hrel⟩ := ivtimInterrupt_run h.tick hshape
  obtain ⟨lk₂, hleave, hshape₂, hsemd⟩ := leaveHandler_run
    (fun _ => h.tick.clockTick (hshape.queues.nodups_blocked _)) (a.tod a.reads) hshape₁
  rw [Abs.interrupt_ivtim h2, ioTrapHandler_run, hline]
  exact ⟨lk₂, (bind_ok hrun).trans hleave, hshape₂, hrel.same hsemd⟩

theorem interrupt_refines (h : Placed K a place) (hs : a.Served K) :
    Refines (ioTrapHandler K) a (a.interrupt K) := by
  intro lk hshape
  have hline : findLineNo (a.withLk lk).intOld.sCause = findLineNo a.intOld.sCause := rfl
  rcases findLineNo_cases a.intOld.sCause with h0 | h1 | h2 | ⟨h3, -⟩
  · exact absurd h0 hs.line
  · rw [Abs.interrupt_ploc h1, ioTrapHandler_run, hline, h1]
    obtain ⟨lk', hrun, hshape'⟩ := plocInterrupt_refines h.tick (a.tod a.reads) lk hshape
    exact ⟨lk', bind_error hrun, hshape'⟩
  · obtain ⟨lk', hrun, hshape', -⟩ := ivtim_run h h2 hshape
    exact ⟨lk', hrun, hshape'⟩
  · obtain ⟨hfound, hdev⟩ := hs.dev h3
    obtain ⟨lk₁, hrun, hshape₁⟩ :=
      deviceInterrupt_runs h.tick hfound (Layout.semAddr_of_isDev hdev) lk hshape
    obtain ⟨lk₂, hleave, hshape₂, -⟩ := leaveHandler_run
      (fun _ => h.tick.device hdev (hshape.queues.nodups_blocked _)) (a.tod a.reads) hshape₁
    rw [Abs.interrupt_device rfl h3 hfound, ioTrapHandler_run, hline, ioSwitch_device h3]
    exact ⟨lk₂, (bind_ok hrun).trans hleave, hshape₂⟩

end Kaya
