import Kaya.Phase2.Proofs.Plain

/-!
# What the services leave alone
-/

namespace Kaya

open Lib

variable {K : Layout} {a : Abs} {c : Stop} {e : Event} {am : AbsMachine} {p : Pcb} {v w : Word}

/-- The scheduler and the end of the interrupt handler change neither the semaphore queues,
the PCBs nor memory. -/
structure SameWorld (a b : Abs) : Prop where
  free : b.lk.free = a.lk.free
  blocked : b.lk.blocked = a.lk.blocked
  kids : b.lk.kids = a.lk.kids
  pcb : b.pcb = a.pcb
  mem : b.mem = a.mem
  procCnt : b.procCnt = a.procCnt
  sftBlkCnt : b.sftBlkCnt = a.sftBlkCnt
  tod : b.tod = a.tod

theorem schedule_world (a : Abs) : SameWorld a a.schedule.nuc := by
  cases hready : a.lk.ready with
  | cons p ps =>
      constructor <;> simp only [Abs.schedule, hready]
  | nil =>
      unfold Abs.schedule
      simp only [hready]
      split_ifs <;> exact ⟨rfl, rfl, rfl, rfl, rfl, rfl, rfl, rfl⟩

theorem leaveHandler_world (a : Abs) (t : Int) : SameWorld a (a.leaveHandler t).nuc := by
  cases hwait : a.waiting with
  | true =>
      rw [Abs.leaveHandler_waiting hwait]
      exact schedule_world a
  | false =>
      rw [Abs.leaveHandler_awake hwait]
      exact ⟨rfl, rfl, rfl, rfl, rfl, rfl, rfl, rfl⟩

theorem boot_mem (K : Layout) (s : Nucleus) : (boot K s).nuc.mem = (Abs.first K s).mem := by
  obtain ⟨lk, hboot, -⟩ := boot_represents K s
  rw [hboot]
  exact (schedule_world _).mem

theorem boot_pcb (K : Layout) (s : Nucleus) : (boot K s).nuc.pcb = (Abs.first K s).pcb := by
  obtain ⟨lk, hboot, -⟩ := boot_represents K s
  rw [hboot]
  exact (schedule_world _).pcb

/-! ## Memory and the other queues -/

theorem wake_other {u : Word} (hne : w ≠ u) : (a.wake u).lk.blocked w = a.lk.blocked w := by
  cases hq : a.lk.blocked u with
  | nil => rw [Abs.wake_nil hq]
  | cons p ps =>
      rw [Abs.wake_cons hq]
      exact Function.update_of_ne hne _ _

theorem wake_mem (a : Abs) (u : Word) : (a.wake u).mem = a.mem := by
  unfold Abs.wake
  split <;> rfl

theorem signal_other {u status : Word} (hne : w ≠ u) :
    (a.signal u status).mem w = a.mem w ∧
      (a.signal u status).lk.blocked w = a.lk.blocked w := by
  have hmem : ∀ v, (a.setInt u v).mem w = a.mem w := fun v => Function.update_of_ne hne _ _
  by_cases hle : (a.mem u + 1).toInt ≤ 0
  · cases hq : a.lk.blocked u with
    | nil =>
        rw [Abs.signal_nil hle hq]
        exact ⟨hmem _, rfl⟩
    | cons p ps =>
        rw [Abs.signal_cons hle hq]
        exact ⟨hmem _, Function.update_of_ne hne _ _⟩
  · rw [Abs.signal_of_pos hle]
    exact ⟨hmem _, rfl⟩

theorem createprocess_mem (a : Abs) (p : Pcb) : (a.createprocess p).nuc.mem = a.mem := by
  unfold Abs.createprocess
  split <;> rfl

theorem endQuantum_mem (a : Abs) (t : Int) : (a.endQuantum t).mem = a.mem := by
  unfold Abs.endQuantum Abs.preempt
  split <;> rfl

/-! ## Saved states -/

theorem wake_pS (a : Abs) (w : Word) : (a.wake w).pcb.pS = a.pcb.pS := by
  unfold Abs.wake
  split <;> rfl

theorem wakeAll_pS (a : Abs) (w : Word) (ps : List Pcb) :
    (a.wakeAll w ps).pcb.pS = a.pcb.pS := by
  induction ps generalizing a with
  | nil => rfl
  | cons p ps ih => exact ih (a.unblock 1 w p ps)

/-! ## Semaphore queues -/

theorem unblock_blocked {ps : List Pcb} (soft : Int) (hq : a.lk.blocked w = p :: ps) {q : Pcb}
    (hmem : q ∈ (a.unblock soft w p ps).lk.blocked v) : q ∈ a.lk.blocked v := by
  by_cases hv : v = w
  · subst hv
    have hps : q ∈ ps := by simpa [Abs.unblock] using hmem
    simp [hq, hps]
  · simpa [Abs.unblock, Function.update_of_ne hv] using hmem

theorem wake_blocked {q : Pcb} (hmem : q ∈ (a.wake w).lk.blocked v) : q ∈ a.lk.blocked v := by
  cases hq : a.lk.blocked w with
  | nil => rwa [Abs.wake_nil hq] at hmem
  | cons p ps =>
      rw [Abs.wake_cons hq] at hmem
      exact unblock_blocked 0 hq hmem

theorem signal_blocked {status : Word} {q : Pcb}
    (hmem : q ∈ (a.signal w status).lk.blocked v) : q ∈ a.lk.blocked v := by
  by_cases hle : (a.mem w + 1).toInt ≤ 0
  · cases hq : a.lk.blocked w with
    | nil => rwa [Abs.signal_nil hle hq] at hmem
    | cons p ps =>
        rw [Abs.signal_cons hle hq] at hmem
        exact unblock_blocked (a := a.setInt w _) 1 hq hmem
  · rwa [Abs.signal_of_pos hle] at hmem

theorem wakeAll_blocked {ps : List Pcb} (hq : a.lk.blocked w = ps) :
    (a.wakeAll w ps).lk.blocked = Function.update a.lk.blocked w [] := by
  induction ps generalizing a with
  | nil => rw [Abs.wakeAll, ← hq, Function.update_eq_self]
  | cons p ps ih =>
      rw [Abs.wakeAll, ih (by simp [Abs.unblock])]
      simp [Abs.unblock]

theorem clockTick_blocked {q : Pcb} (hmem : q ∈ (a.clockTick K).lk.blocked v) :
    q ∈ a.lk.blocked v := by
  have hblk : (a.clockTick K).lk.blocked = Function.update a.lk.blocked K.clock [] :=
    wakeAll_blocked rfl
  rw [hblk] at hmem
  by_cases hv : v = K.clock
  · subst hv
    simp at hmem
  · rwa [Function.update_of_ne hv] at hmem

theorem block_blocked {soft : Int} {q : Pcb} (hmem : q ∈ (a.block soft p w).lk.blocked v) :
    q ∈ a.lk.blocked v ∨ q = p ∧ v = w := by
  by_cases hv : v = w
  · subst hv
    simpa [Abs.block] using hmem
  · exact .inl (by simpa [Abs.block, Function.update_of_ne hv] using hmem)

theorem endQuantum_blocked (a : Abs) (t : Int) :
    (a.endQuantum t).lk.blocked = a.lk.blocked := by
  unfold Abs.endQuantum Abs.preempt
  split <;> rfl

theorem createprocess_blocked (a : Abs) (p : Pcb) :
    (a.createprocess p).nuc.lk.blocked = a.lk.blocked := by
  unfold Abs.createprocess
  split <;> rfl

/-- A process enters a queue only by its own call. -/
theorem PlainStep.blocked (h : PlainStep K a c e am) {q : Pcb}
    (hmem : q ∈ am.nuc.lk.blocked w) :
    q ∈ a.lk.blocked w ∨ a.currentProc = some q ∧ ∃ st, e = .syscall st ∧
      (st.a0 = PASSEREN ∧ K.UserWord w ∨
        (st.a0 = WAITCLOCK ∨ st.a0 = WAITIO) ∧ K.IsDev w) := by
  cases h with
  | store => exact .inl hmem
  | create h1 hcur => exact .inl (by rwa [createprocess_blocked] at hmem)
  | exit h2 hcur hkids =>
      rw [(schedule_world _).blocked] at hmem
      exact .inl hmem
  | @V st p h3 hcur hw =>
      left
      by_cases hle : (((a.called st).mem (a.called st).sysOld.a1) + 1).toInt ≤ 0
      · rw [Abs.V_of_le hle] at hmem
        exact wake_blocked (a := (a.called st).setInt _ _) hmem
      · rwa [Abs.V_of_not_le hle] at hmem
  | @P st p h4 hcur hw =>
      by_cases hneg : (((a.called st).mem (a.called st).sysOld.a1) - 1).toInt < 0
      · rw [Abs.P_of_neg hneg, (schedule_world _).blocked] at hmem
        rcases block_blocked hmem with hold | ⟨rfl, rfl⟩
        · exact .inl hold
        · exact .inr ⟨hcur, st, rfl, .inl ⟨h4, hw⟩⟩
      · rw [Abs.P_of_not_neg hneg] at hmem
        exact .inl hmem
  | @waitDev st p u h78 hcur hdev =>
      by_cases hneg : ((a.called st).mem u - 1).toInt < 0
      · rw [Abs.waitDev_of_neg hneg, (schedule_world _).blocked] at hmem
        rcases block_blocked hmem with hold | ⟨rfl, rfl⟩
        · exact .inl hold
        · exact .inr ⟨hcur, st, rfl, .inr ⟨h78, hdev⟩⟩
      · rw [Abs.waitDev_of_not_neg hneg] at hmem
        exact .inl hmem
  | quantum h1 =>
      rw [(schedule_world _).blocked, endQuantum_blocked] at hmem
      exact .inl hmem
  | @clock st i d h2 =>
      rw [(leaveHandler_world _ _).blocked] at hmem
      exact .inl (clockTick_blocked (a := a.interrupted st i d) hmem)
  | @device st i d h3 hdev =>
      rw [(leaveHandler_world _ _).blocked] at hmem
      exact .inl (signal_blocked (a := (a.interrupted st i d).acked _) hmem)

/-! ## Calls of the scheduler -/

/-- The scheduler is called only when no process runs, and it does not return. -/
def Obs.Orderly : Obs → Prop
  | .scheduler currentProc => currentProc = none
  | .schedulerReturned => False
  | _ => True

def Abs.Orderly (a : Abs) : Prop := ∀ o ∈ a.trace, o.Orderly

theorem schedule_orderly (h : a.Orderly) (hcur : a.currentProc = none) :
    Abs.Orderly a.schedule.nuc := by
  have hcall : ∀ o ∈ Obs.scheduler a.currentProc :: a.trace, o.Orderly :=
    List.forall_mem_cons.mpr ⟨hcur, h⟩
  cases hready : a.lk.ready with
  | cons p ps =>
      simp only [Abs.schedule, hready]
      exact List.forall_mem_cons.mpr ⟨trivial, hcall⟩
  | nil =>
      unfold Abs.schedule
      simp only [hready]
      split_ifs <;> exact hcall

theorem leaveHandler_orderly (h : a.Orderly) (hcur : a.waiting = true → a.currentProc = none)
    (t : Int) : Abs.Orderly (a.leaveHandler t).nuc := by
  cases hwait : a.waiting with
  | true =>
      rw [Abs.leaveHandler_waiting hwait]
      exact schedule_orderly h (hcur hwait)
  | false =>
      rw [Abs.leaveHandler_awake hwait]
      exact List.forall_mem_cons.mpr ⟨trivial, h⟩

theorem block_orderly (h : a.Orderly) (soft : Int) (p : Pcb) (w : Word) :
    (a.block soft p w).Orderly :=
  List.forall_mem_cons.mpr ⟨trivial, h⟩

/-- From `tr` to `tr'` processes joined `readyQue` and nothing else was seen. -/
def Joins (tr tr' : List Obs) : Prop :=
  ∃ js : List Pcb, tr' = js.map (fun p => Obs.join (some p)) ++ tr

theorem Joins.refl (tr : List Obs) : Joins tr tr := ⟨[], rfl⟩

theorem Joins.orderly {tr tr' : List Obs} (h : Joins tr tr') (htr : ∀ o ∈ tr, o.Orderly) :
    ∀ o ∈ tr', o.Orderly := by
  obtain ⟨js, rfl⟩ := h
  intro o ho
  rcases List.mem_append.mp ho with ho | ho
  · obtain ⟨p, -, rfl⟩ := List.mem_map.mp ho
    exact trivial
  · exact htr o ho

theorem wakeAll_trace (a : Abs) (w : Word) (ps : List Pcb) :
    Joins a.trace (a.wakeAll w ps).trace := by
  induction ps generalizing a with
  | nil => exact .refl _
  | cons p ps ih =>
      obtain ⟨js, hjs⟩ := ih (a.unblock 1 w p ps)
      refine ⟨js ++ [p], ?_⟩
      rw [Abs.wakeAll, hjs]
      simp [Abs.unblock]

theorem wake_trace (a : Abs) (w : Word) : Joins a.trace (a.wake w).trace := by
  unfold Abs.wake
  split
  · exact .refl _
  · exact ⟨[_], rfl⟩

theorem signal_trace (a : Abs) (w status : Word) :
    Joins a.trace (a.signal w status).trace := by
  unfold Abs.signal
  simp only
  split
  · split
    · exact .refl _
    · exact ⟨[_], rfl⟩
  · exact .refl _

theorem endQuantum_orderly (h : a.Orderly) (t : Int) :
    (a.endQuantum t).Orderly ∧ (a.endQuantum t).currentProc = none := by
  cases hcur : a.currentProc with
  | none =>
      have htrace : (a.endQuantum t).trace = a.trace := by
        simp only [Abs.endQuantum, Abs.preempt, Abs.tick, hcur]
      refine ⟨?_, by simp only [Abs.endQuantum, Abs.preempt, Abs.tick, hcur]⟩
      intro o ho
      rw [htrace] at ho
      exact h o ho
  | some p =>
      have htrace : (a.endQuantum t).trace = .join (some p) ::
          .leave (some p) (a.tod a.reads) ::
            .expired (some p) t (a.tod a.reads) :: a.trace := by
        simp only [Abs.endQuantum, Abs.preempt, Abs.tick, hcur]
      refine ⟨?_, by simp only [Abs.endQuantum, Abs.preempt, Abs.tick, hcur]⟩
      unfold Abs.Orderly
      rw [htrace]
      refine List.forall_mem_cons.mpr ⟨trivial, ?_⟩
      refine List.forall_mem_cons.mpr ⟨trivial, ?_⟩
      exact List.forall_mem_cons.mpr ⟨trivial, h⟩

theorem createprocess_orderly (h : a.Orderly) (p : Pcb) :
    Abs.Orderly (a.createprocess p).nuc := by
  unfold Abs.createprocess
  split
  · exact h
  · exact List.forall_mem_cons.mpr ⟨trivial, List.forall_mem_cons.mpr ⟨trivial, h⟩⟩

theorem PlainStep.orderly (hs : PlainStep K a c e am) (h : a.Orderly)
    (hwait : a.waiting = true → a.currentProc = none) : Abs.Orderly am.nuc := by
  cases hs with
  | store => exact h
  | create h1 hcur => exact createprocess_orderly (a := a.called _) h _
  | @exit st p h2 hcur hkids =>
      have hexit : ((a.called st).reapCurrent p).Orderly := List.forall_mem_cons.mpr ⟨trivial, h⟩
      exact schedule_orderly hexit rfl
  | @V st p h3 hcur hw =>
      by_cases hle : (((a.called st).mem (a.called st).sysOld.a1) + 1).toInt ≤ 0
      · rw [Abs.V_of_le hle]
        exact (wake_trace _ _).orderly h
      · rw [Abs.V_of_not_le hle]
        exact h
  | @P st p h4 hcur hw =>
      by_cases hneg : (((a.called st).mem (a.called st).sysOld.a1) - 1).toInt < 0
      · rw [Abs.P_of_neg hneg]
        exact schedule_orderly (block_orderly (a := (a.called st).setInt _ _) h _ _ _) rfl
      · rw [Abs.P_of_not_neg hneg]
        exact h
  | @waitDev st p u h78 hcur hdev =>
      by_cases hneg : ((a.called st).mem u - 1).toInt < 0
      · rw [Abs.waitDev_of_neg hneg]
        exact schedule_orderly (block_orderly (a := (a.called st).setInt _ _) h _ _ _) rfl
      · rw [Abs.waitDev_of_not_neg hneg]
        exact h
  | @quantum st i d h1 =>
      obtain ⟨hord, hcur⟩ := endQuantum_orderly (a := a.interrupted st i d) h (a.tod a.reads)
      exact schedule_orderly hord hcur
  | @clock st i d h2 =>
      have hq := wakeAll_quiet (a.interrupted st i d) K.clock (a.lk.blocked K.clock)
      apply leaveHandler_orderly
      · exact (wakeAll_trace (a.interrupted st i d) _ _).orderly h
      · intro hw
        exact hq.currentProc.trans (hwait (hq.waiting.symm.trans hw))
  | @device st i d h3 hdev =>
      have hq := signal_quiet ((a.interrupted st i d).acked (findLineNo st.sCause))
        ((a.interrupted st i d).slot K (findLineNo st.sCause))
        ((a.interrupted st i d).shown (findLineNo st.sCause)).1
      apply leaveHandler_orderly
      · exact (signal_trace ((a.interrupted st i d).acked _) _ _).orderly h
      · intro hw
        exact hq.currentProc.trans (hwait (hq.waiting.symm.trans hw))

end Kaya
