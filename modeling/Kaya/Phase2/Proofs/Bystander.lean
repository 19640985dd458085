import Kaya.Phase2.Proofs.Frame

/-!
# What an event leaves to the processes that do not run

Only a process that makes a system call enters the queue of a semaphore.  A process that waits or
is ready keeps its place and its saved state until its semaphore is signalled, the scheduler
chooses it or `terminateprocess` frees it.
-/

namespace Kaya

open Lib

variable {K : Layout} {m : Machine} {l : Lists} {p q : Pcb} {e : Event} {a b c : Abs}
  {am : AbsMachine} {u v w : Word}

/-! ## Who enters the queues of semaphores -/

def Shrinks (a b : Abs) : Prop := ∀ w, (b.lk.blocked w).Sublist (a.lk.blocked w)

def State.waitsOn (K : Layout) (st : State) : Option Word :=
  if st.a0 = PASSEREN then some st.a1
  else if st.a0 = WAITCLOCK then some K.clock
  else if st.a0 = WAITIO ∧ ¬ st.a1 < DISKINT then some (K.semDev (waitioIndex st.a1 st.a2 st.a3))
  else none

/-- At most the running process enters a queue, at its end: that of the semaphore for which its
call waits, and it takes one from it. -/
structure Enters (K : Layout) (a b : Abs) : Prop where
  queue : ∀ w, (b.lk.blocked w).Sublist (a.lk.blocked w ++ a.currentProc.toList)
  takes : ∀ w, (b.lk.blocked w).Sublist (a.lk.blocked w) ∨
    a.sysOld.waitsOn K = some w ∧ b.mem w = a.mem w - 1

namespace Shrinks

theorem same (hb : b.lk.blocked = a.lk.blocked) : Shrinks a b := by
  intro w
  rw [hb]

theorem trans (h : Shrinks a b) (h' : Shrinks b c) : Shrinks a c :=
  fun w => (h' w).trans (h w)

theorem schedule (h : Shrinks a b) : Shrinks a b.schedule.nuc :=
  h.trans (same (schedule_world b).blocked)

theorem leaveHandler (h : Shrinks a b) (t : Int) : Shrinks a (b.leaveHandler t).nuc :=
  h.trans (same (leaveHandler_world b t).blocked)

theorem enters (h : Shrinks a b) : Enters K a b where
  queue w := (h w).trans (List.sublist_append_left ..)
  takes w := .inl (h w)

end Shrinks

theorem unblock_shrinks {ps : List Pcb} (soft : Int) (hq : a.lk.blocked w = p :: ps) :
    Shrinks a (a.unblock soft w p ps) := by
  intro v
  by_cases hv : v = w
  · subst hv
    simp [Abs.unblock, hq]
  · simp [Abs.unblock, Function.update_of_ne hv]

theorem wake_shrinks (a : Abs) (w : Word) : Shrinks a (a.wake w) := by
  cases hq : a.lk.blocked w with
  | nil =>
    rw [Abs.wake_nil hq]
    exact .same rfl
  | cons p ps =>
    rw [Abs.wake_cons hq]
    exact unblock_shrinks 0 hq

theorem signal_shrinks (a : Abs) (w status : Word) : Shrinks a (a.signal w status) := by
  by_cases hle : (a.mem w + 1).toInt ≤ 0
  · cases hq : a.lk.blocked w with
    | nil =>
      rw [Abs.signal_nil hle hq]
      exact .same rfl
    | cons p ps =>
      rw [Abs.signal_cons hle hq]
      exact (unblock_shrinks (a := a.setInt w _) 1 hq).trans (.same rfl)
  · rw [Abs.signal_of_pos hle]
    exact .same rfl

theorem clockTick_queues (a : Abs) :
    (a.clockTick K).lk.blocked = Function.update a.lk.blocked K.clock [] := wakeAll_blocked rfl

theorem clockTick_shrinks (a : Abs) : Shrinks a (a.clockTick K) := by
  intro w
  rw [clockTick_queues]
  by_cases hw : w = K.clock
  · rw [hw, Function.update_self]
    exact List.nil_sublist _
  · rw [Function.update_of_ne hw]

theorem interrupt_shrinks (a : Abs) : Shrinks a (a.interrupt K).nuc := by
  unfold Abs.interrupt
  dsimp only
  split_ifs
  · exact .same rfl
  · exact Shrinks.schedule (.same (endQuantum_blocked a.tick _))
  · exact (clockTick_shrinks a.tick).leaveHandler _
  · exact .same rfl
  · exact (signal_shrinks (a.tick.acked _) _ _).leaveHandler _

theorem die_shrinks (a : Abs) (p : Pcb) : Shrinks a (a.die K p).nuc := by
  apply Shrinks.schedule
  intro w
  rw [Abs.kill_eq]
  show (((a.lk.descendants p).foldl (Abs.reap K) (a.prune p)).lk.blocked w).Sublist _
  rw [foldl_reap_blocked]
  exact List.filter_sublist

theorem passUp_shrinks (a : Abs) (p : Pcb) (new old : Word) (trap : State) :
    Shrinks a (a.passUp K p new old trap).nuc := by
  by_cases hnew : new = NULL
  · rw [Abs.passUp_null hnew]
    exact die_shrinks a p
  · rw [Abs.passUp_of_ne hnew]
    exact .same rfl

theorem V_shrinks (a : Abs) : Shrinks a a.V.nuc := by
  by_cases hle : (a.mem a.sysOld.a1 + 1).toInt ≤ 0
  · rw [Abs.V_of_le hle]
    exact wake_shrinks (a.setInt _ _) _
  · rw [Abs.V_of_not_le hle]
    exact .same rfl

theorem spectrapvec_shrinks (a : Abs) (p : Pcb) : Shrinks a (a.spectrapvec K p).nuc := by
  unfold Abs.spectrapvec
  dsimp only
  split_ifs
  · exact .same rfl
  · exact .same rfl
  · exact .same rfl
  · exact die_shrinks a p

theorem block_enters (hcur : a.currentProc = some p) (hon : a.sysOld.waitsOn K = some w)
    (soft : Int) : Enters K a ((a.setInt w (a.mem w - 1)).block soft p w).schedule.nuc := by
  have hworld := schedule_world ((a.setInt w (a.mem w - 1)).block soft p w)
  constructor
  · intro v
    rw [hworld.blocked, hcur]
    by_cases hv : v = w
    · subst hv
      simp [Abs.block, Abs.setInt]
    · simp [Abs.block, Abs.setInt, Function.update_of_ne hv]
  · intro v
    rw [hworld.blocked, hworld.mem]
    by_cases hv : v = w
    · subst hv
      exact .inr ⟨hon, Function.update_self ..⟩
    · left
      simp [Abs.block, Abs.setInt, Function.update_of_ne hv]

theorem P_enters (hcur : a.currentProc = some p)
    (hon : a.sysOld.waitsOn K = some a.sysOld.a1) : Enters K a (a.P p).nuc := by
  by_cases hneg : (a.mem a.sysOld.a1 - 1).toInt < 0
  · rw [Abs.P_of_neg hneg]
    exact block_enters hcur hon _
  · rw [Abs.P_of_not_neg hneg]
    exact Shrinks.enters (.same rfl)

theorem waitDev_enters (hcur : a.currentProc = some p) (hon : a.sysOld.waitsOn K = some w) :
    Enters K a (a.waitDev p w).nuc := by
  by_cases hneg : (a.mem w - 1).toInt < 0
  · rw [Abs.waitDev_of_neg hneg]
    exact block_enters hcur hon _
  · rw [Abs.waitDev_of_not_neg hneg]
    exact Shrinks.enters (.same rfl)

theorem sysSwitch_enters (hcur : a.currentProc = some p) :
    Enters K a (a.sysSwitch K p a.sysOld.a0).nuc := by
  unfold Abs.sysSwitch
  split_ifs with h1 h2 h3 h4 h5 h6 h7 h8 hline
  · exact Shrinks.enters (.same (createprocess_blocked a p))
  · exact (die_shrinks a p).enters
  · exact (V_shrinks a).enters
  · exact P_enters hcur (if_pos h4)
  · exact (spectrapvec_shrinks a p).enters
  · exact Shrinks.enters (.same rfl)
  · exact waitDev_enters hcur ((if_neg h4).trans (if_pos h7))
  · exact (die_shrinks a p).enters
  · exact waitDev_enters hcur ((if_neg h4).trans ((if_neg h7).trans (if_pos ⟨h8, hline⟩)))
  · exact (passUp_shrinks a p _ _ _).enters

theorem sysCall_enters (hcur : a.currentProc = some p) : Enters K a (a.sysCall K p).nuc := by
  by_cases hp : a.sysOld.Privileged
  · have hrun : a.sysCall K p = Abs.progTrap K { a with pgmOld := a.sysOld.reserved } p :=
      if_pos hp
    rw [hrun]
    exact Shrinks.enters (passUp_shrinks { a with pgmOld := a.sysOld.reserved } p _ _ _)
  · have hrun : a.sysCall K p =
        Abs.sysSwitch K { a with sysOld := a.sysOld.advance } p a.sysOld.a0 := if_neg hp
    rw [hrun]
    have henters := sysSwitch_enters (K := K) (a := { a with sysOld := a.sysOld.advance }) hcur
    exact ⟨henters.queue, henters.takes⟩

/-- Only a process that makes a system call enters a queue. -/
theorem step_queues (hholds : m.Holds K l) (hok : m.Admits K e) :
    Shrinks (m.abs l) ((m.over l).step K e).nuc ∨
      ∃ st, e = .syscall st ∧
        Enters K { m.abs l with sysOld := st } ((m.over l).step K e).nuc := by
  have hstep : (m.over l).step K e = (m.over l).take K e := if_pos hok.takes
  rw [hstep]
  cases e with
  | store v x => exact .inl (.same rfl)
  | syscall st =>
    obtain ⟨p, hcur, -⟩ := hholds.serves hok.takes
    have htake : (m.over l).take K (.syscall st) =
        Abs.sysCall K { m.abs l with sysOld := st } p :=
      Abs.withCurrent_some (a := { m.abs l with sysOld := st }) _ hcur
    rw [htake]
    exact .inr ⟨st, rfl, sysCall_enters (a := { m.abs l with sysOld := st }) hcur⟩
  | progTrap st =>
    obtain ⟨p, hcur, -⟩ := hholds.serves hok.takes
    have htake : (m.over l).take K (.progTrap st) =
        Abs.progTrap K { m.abs l with pgmOld := st } p :=
      Abs.withCurrent_some (a := { m.abs l with pgmOld := st }) _ hcur
    rw [htake]
    exact .inl (passUp_shrinks { m.abs l with pgmOld := st } p _ _ _)
  | tlbTrap st =>
    obtain ⟨p, hcur, -⟩ := hholds.serves hok.takes
    have htake : (m.over l).take K (.tlbTrap st) =
        Abs.tlbTrap K { m.abs l with tlbOld := st } p :=
      Abs.withCurrent_some (a := { m.abs l with tlbOld := st }) _ hcur
    rw [htake]
    exact .inl (passUp_shrinks { m.abs l with tlbOld := st } p _ _ _)
  | interrupt st i d =>
    exact .inl (interrupt_shrinks { m.abs l with intOld := st, interruptDev := i, devReg := d })

/-! ## Who keeps its place -/

theorem schedule_cons {ps : List Pcb} (hready : a.lk.ready = p :: ps) :
    a.schedule.nuc.lk.ready = ps ∧ a.schedule.nuc.currentProc = some p ∧
      a.schedule.cpu = .ldst (a.pcb.pS p) := by
  simp only [Abs.schedule, hready]
  exact ⟨trivial, trivial, trivial⟩

/-- `q` keeps its saved state and stays ready, and it waits on unless its semaphore is `v`, which
lets everyone go, or gets one. -/
structure Undisturbed (v : Word) (q : Pcb) (a b : Abs) : Prop where
  saved : b.pcb.pS q = a.pcb.pS q
  ready : q ∈ a.lk.ready → q ∈ b.lk.ready
  waits : ∀ w, w ≠ v → q ∈ a.lk.blocked w → q ∈ b.lk.blocked w ∨ b.mem w = a.mem w + 1

namespace Undisturbed

theorem same (hsaved : b.pcb.pS q = a.pcb.pS q) (hready : b.lk.ready = a.lk.ready)
    (hblocked : b.lk.blocked = a.lk.blocked) : Undisturbed v q a b where
  saved := hsaved
  ready hq := hready ▸ hq
  waits _ _ hq := .inl (hblocked ▸ hq)

theorem unblock {ps : List Pcb} (soft : Int) (p : Pcb) :
    Undisturbed v q a ((a.setInt u (a.mem u + 1)).unblock soft u p ps) where
  saved := rfl
  ready hq := List.mem_append_left _ hq
  waits w _ hq := by
    by_cases hw : w = u
    · subst hw
      exact .inr (Function.update_self ..)
    · left
      simpa [Abs.unblock, Abs.setInt, Function.update_of_ne hw] using hq

theorem block {x : Word} (soft : Int) (hqp : q ≠ p) :
    Undisturbed v q a ((a.setInt u x).block soft p u) where
  saved := Function.update_of_ne hqp ..
  ready hq := hq
  waits w _ hq := by
    left
    by_cases hw : w = u
    · subst hw
      simp [Abs.block, Abs.setInt, hq]
    · simpa [Abs.block, Abs.setInt, Function.update_of_ne hw] using hq

/-- A signal changes the saved state of the first waiter alone. -/
theorem signal {status : Word} (hq : q ∉ a.lk.blocked u) : Undisturbed v q a (a.signal u status) := by
  by_cases hle : (a.mem u + 1).toInt ≤ 0
  · cases hline : a.lk.blocked u with
    | nil =>
      rw [Abs.signal_nil hle hline]
      exact same rfl rfl rfl
    | cons p ps =>
      have hqp : q ≠ p := fun heq => hq (hline ▸ heq ▸ List.mem_cons_self)
      have hkeeps : Undisturbed v q a ((a.setInt u (a.mem u + 1)).unblock 1 u p ps) := unblock 1 p
      rw [Abs.signal_cons hle hline]
      exact ⟨(Function.update_of_ne hqp ..).trans hkeeps.saved, hkeeps.ready, hkeeps.waits⟩
  · rw [Abs.signal_of_pos hle]
    exact same rfl rfl rfl

theorem wakeAll {ps : List Pcb} (a : Abs) (hq : q ∈ a.lk.ready) :
    q ∈ (a.wakeAll u ps).lk.ready := by
  induction ps generalizing a with
  | nil => exact hq
  | cons p ps ih => exact ih (a.unblock 1 u p ps) (List.mem_append_left _ hq)

theorem clockTick : Undisturbed K.clock q a (a.clockTick K) where
  saved := congrFun (wakeAll_pS a K.clock (a.lk.blocked K.clock)) q
  ready hq := wakeAll a hq
  waits w hw hq := by
    left
    rw [clockTick_queues, Function.update_of_ne hw]
    exact hq

theorem endQuantum (t : Int) (hcur : a.currentProc ≠ some q) : Undisturbed v q a (a.endQuantum t) := by
  unfold Abs.endQuantum Abs.preempt
  cases hp : a.tick.currentProc with
  | none => exact same rfl rfl rfl
  | some p =>
    have hqp : q ≠ p := fun heq => hcur (heq ▸ hp)
    refine ⟨Function.update_of_ne hqp .., fun hq => List.mem_append_left _ hq, ?_⟩
    exact fun w _ hq => .inl hq

theorem createprocess (p : Pcb) (hq : q ∉ a.lk.free) :
    Undisturbed v q a (a.createprocess p).nuc := by
  unfold Abs.createprocess
  split
  · exact same rfl rfl rfl
  · rename_i c fs hfree
    have hqc : q ≠ c := fun heq => hq (hfree ▸ heq ▸ List.mem_cons_self)
    refine ⟨?_, fun hr => List.mem_append_left _ hr, fun w _ hb => .inl hb⟩
    exact (Function.update_of_ne hqc ..).trans (Function.update_of_ne hqc ..)

theorem foldl_reap_pS {vs : List Pcb} (hq : q ∉ vs) (a : Abs) :
    (vs.foldl (Abs.reap K) a).pcb.pS q = a.pcb.pS q := by
  induction vs generalizing a with
  | nil => rfl
  | cons v vs ih =>
    rw [List.mem_cons, not_or] at hq
    exact (ih hq.2 (a.reap K v)).trans (Function.update_of_ne hq.1 ..)

/-- `terminateprocess` frees `q` or leaves it alone. -/
theorem kill (hqp : q ≠ p) (hq : q ∉ (a.kill K p).lk.free) : Undisturbed v q a (a.kill K p) := by
  have hfree : (a.kill K p).lk.free = p :: ((a.lk.descendants p).reverse ++ a.lk.free) := by
    rw [Abs.kill_eq]
    exact congrArg (p :: ·) (foldl_reap_free _ _)
  have hvs : q ∉ a.lk.descendants p := by
    intro hmem
    exact hq (hfree ▸ List.mem_cons_of_mem _ (List.mem_append_left _ (List.mem_reverse.mpr hmem)))
  constructor
  · rw [Abs.kill_eq]
    exact (Function.update_of_ne hqp ..).trans (foldl_reap_pS hvs _)
  · intro hr
    have hready : (a.kill K p).lk.ready = a.lk.ready.filter (· ∉ a.lk.descendants p) :=
      foldl_reap_ready _ _
    rw [hready, List.mem_filter]
    exact ⟨hr, decide_eq_true hvs⟩
  · intro w _ hb
    have hblocked : (a.kill K p).lk.blocked w =
        (a.lk.blocked w).filter (· ∉ a.lk.descendants p) := foldl_reap_blocked _ _ w
    rw [hblocked, List.mem_filter]
    exact .inl ⟨hb, decide_eq_true hvs⟩

end Undisturbed

/-- After an event `q` is where it was, or the scheduler has chosen it from the ready queue. -/
structure Spares (v : Word) (q : Pcb) (a : Abs) (am : AbsMachine) : Prop where
  saved : am.nuc.pcb.pS q = a.pcb.pS q
  ready : q ∈ a.lk.ready → q ∈ am.nuc.lk.ready ∨
    am.nuc.currentProc = some q ∧ am.cpu = .ldst (a.pcb.pS q)
  waits : ∀ w, w ≠ v → q ∈ a.lk.blocked w →
    q ∈ am.nuc.lk.blocked w ∨ am.nuc.mem w = a.mem w + 1

theorem Spares.same (hsaved : am.nuc.pcb.pS q = a.pcb.pS q)
    (hready : am.nuc.lk.ready = a.lk.ready) (hblocked : am.nuc.lk.blocked = a.lk.blocked) :
    Spares v q a am where
  saved := hsaved
  ready hq := .inl (hready ▸ hq)
  waits _ _ hq := .inl (hblocked ▸ hq)

theorem Spares.congr (h : Spares v q b am) (hlk : b.lk = a.lk) (hpcb : b.pcb = a.pcb)
    (hmem : b.mem = a.mem) : Spares v q a am where
  saved := hpcb ▸ h.saved
  ready := hlk ▸ hpcb ▸ h.ready
  waits := hlk ▸ hmem ▸ h.waits

namespace Undisturbed

theorem returns (h : Undisturbed v q a b) (c : Stop) : Spares v q a ⟨b, c⟩ :=
  ⟨h.saved, fun hq => .inl (h.ready hq), h.waits⟩

theorem schedule (h : Undisturbed v q a b) : Spares v q a b.schedule := by
  have hworld := schedule_world b
  constructor
  · rw [hworld.pcb]
    exact h.saved
  · intro hq
    have hb := h.ready hq
    cases hready : b.lk.ready with
    | nil =>
      rw [hready] at hb
      exact absurd hb List.not_mem_nil
    | cons p ps =>
      obtain ⟨hrest, hcur, hcpu⟩ := schedule_cons hready
      rw [hready] at hb
      rcases List.mem_cons.mp hb with rfl | hb
      · exact .inr ⟨hcur, by rw [hcpu, h.saved]⟩
      · exact .inl (hrest ▸ hb)
  · intro w hw hq
    rw [hworld.blocked, hworld.mem]
    exact h.waits w hw hq

theorem leaveHandler (h : Undisturbed v q a b) (t : Int) : Spares v q a (b.leaveHandler t) := by
  cases hwait : b.waiting with
  | true =>
    rw [Abs.leaveHandler_waiting hwait]
    exact h.schedule
  | false =>
    rw [Abs.leaveHandler_awake hwait]
    exact ⟨h.saved, fun hq => .inl (h.ready hq), h.waits⟩

end Undisturbed

theorem die_spares (hqp : q ≠ p) :
    q ∈ (a.die K p).nuc.lk.free ∨ Spares v q a (a.die K p) := by
  by_cases hq : q ∈ (a.kill K p).lk.free
  · left
    rw [Abs.die, (schedule_world _).free]
    exact hq
  · exact .inr (Undisturbed.kill hqp hq).schedule

theorem passUp_spares (hqp : q ≠ p) (new old : Word) (trap : State) :
    q ∈ (a.passUp K p new old trap).nuc.lk.free ∨ Spares v q a (a.passUp K p new old trap) := by
  by_cases hnew : new = NULL
  · rw [Abs.passUp_null hnew]
    exact die_spares hqp
  · rw [Abs.passUp_of_ne hnew]
    exact .inr (.same rfl rfl rfl)

theorem spectrapvec_spares (hqp : q ≠ p) :
    q ∈ (a.spectrapvec K p).nuc.lk.free ∨ Spares v q a (a.spectrapvec K p) := by
  unfold Abs.spectrapvec
  dsimp only
  split_ifs
  case neg => exact die_spares hqp
  all_goals exact .inr (.same rfl rfl rfl)

theorem V_spares : Spares v q a a.V := by
  by_cases hle : (a.mem a.sysOld.a1 + 1).toInt ≤ 0
  · rw [Abs.V_of_le hle]
    apply Undisturbed.returns
    cases hline : a.lk.blocked a.sysOld.a1 with
    | nil =>
      rw [Abs.wake_nil (a := a.setInt _ _) hline]
      exact .same rfl rfl rfl
    | cons p ps =>
      rw [Abs.wake_cons (a := a.setInt _ _) hline]
      exact .unblock 0 p
  · rw [Abs.V_of_not_le hle]
    exact .same rfl rfl rfl

theorem P_spares (hqp : q ≠ p) : Spares v q a (a.P p) := by
  by_cases hneg : (a.mem a.sysOld.a1 - 1).toInt < 0
  · rw [Abs.P_of_neg hneg]
    exact (Undisturbed.block 0 hqp).schedule
  · rw [Abs.P_of_not_neg hneg]
    exact .same rfl rfl rfl

theorem waitDev_spares (hqp : q ≠ p) (w : Word) : Spares v q a (a.waitDev p w) := by
  by_cases hneg : (a.mem w - 1).toInt < 0
  · rw [Abs.waitDev_of_neg hneg]
    exact (Undisturbed.block 1 hqp).schedule
  · rw [Abs.waitDev_of_not_neg hneg]
    exact .same rfl rfl rfl

theorem createprocess_spares (hq : q ∉ a.lk.free) (p : Pcb) :
    Spares v q a (a.createprocess p) := by
  obtain ⟨hsaved, hready, hwaits⟩ := Undisturbed.createprocess (v := v) p hq
  exact ⟨hsaved, fun hr => .inl (hready hr), hwaits⟩

theorem sysSwitch_spares (hq : q ∉ a.lk.free) (hqp : q ≠ p) (call : Word) :
    q ∈ (a.sysSwitch K p call).nuc.lk.free ∨ Spares v q a (a.sysSwitch K p call) := by
  unfold Abs.sysSwitch
  split_ifs
  · exact .inr (createprocess_spares hq p)
  · exact die_spares hqp
  · exact .inr V_spares
  · exact .inr (P_spares hqp)
  · exact spectrapvec_spares hqp
  · exact .inr (.same rfl rfl rfl)
  · exact .inr (waitDev_spares hqp _)
  · exact die_spares hqp
  · exact .inr (waitDev_spares hqp _)
  · exact passUp_spares hqp _ _ _

theorem sysCall_spares (hq : q ∉ a.lk.free) (hqp : q ≠ p) :
    q ∈ (a.sysCall K p).nuc.lk.free ∨ Spares v q a (a.sysCall K p) := by
  by_cases hp : a.sysOld.Privileged
  · have hrun : a.sysCall K p = Abs.progTrap K { a with pgmOld := a.sysOld.reserved } p :=
      if_pos hp
    rw [hrun]
    have hspares := passUp_spares (K := K) (v := v) (a := { a with pgmOld := a.sysOld.reserved }) hqp
      (a.pcb.pNewPgm p) (a.pcb.pOldPgm p) a.sysOld.reserved
    exact hspares.imp_right fun h => h.congr rfl rfl rfl
  · have hrun : a.sysCall K p =
        Abs.sysSwitch K { a with sysOld := a.sysOld.advance } p a.sysOld.a0 := if_neg hp
    rw [hrun]
    have hspares := sysSwitch_spares (K := K) (v := v) (a := { a with sysOld := a.sysOld.advance }) hq hqp
      a.sysOld.a0
    exact hspares.imp_right fun h => h.congr rfl rfl rfl

/-- An interrupt of the interval timer. -/
def Event.IsTick : Event → Prop
  | .interrupt st _ _ => findLineNo st.sCause = IVTIMINT
  | _ => False

/-- The status byte with which the event signals the entry at `w` of `semDevArray`. -/
def Event.shows (K : Layout) (w : Word) : Event → Option Word
  | .interrupt st interruptDev devReg =>
      if 3 ≤ findLineNo st.sCause ∧
          K.semDev (BitVec.ofInt 32 (shownIndex (findLineNo st.sCause) interruptDev devReg)) = w then
        some (statusByte (findLineNo st.sCause) interruptDev devReg)
      else none
  | _ => none

/-- An event kills a process that does not run or leaves it in its place, unless it is a device's
signal to the semaphore for which the process waits; a tick lets the waiters of the clock go. -/
theorem step_spares (hholds : m.Holds K l) (hok : m.Admits K e) (hq : q ∉ l.free)
    (hcur : m.nuc.currentProc ≠ some q) (hsig : ∀ w, q ∈ l.blocked w → e.shows K w = none)
    (htick : e.IsTick → v = K.clock) :
    q ∈ ((m.over l).step K e).nuc.lk.free ∨ Spares v q (m.abs l) ((m.over l).step K e) := by
  have hstep : (m.over l).step K e = (m.over l).take K e := if_pos hok.takes
  have hrunning : ∀ {p}, m.nuc.currentProc = some p → q ≠ p := fun hp heq => hcur (heq ▸ hp)
  rw [hstep]
  cases e with
  | store v x => exact .inr (.same rfl rfl rfl)
  | syscall st =>
    obtain ⟨p, hp, -⟩ := hholds.serves hok.takes
    have htake : (m.over l).take K (.syscall st) =
        Abs.sysCall K { m.abs l with sysOld := st } p :=
      Abs.withCurrent_some (a := { m.abs l with sysOld := st }) _ hp
    rw [htake]
    have hspares := sysCall_spares (K := K) (v := v) (a := { m.abs l with sysOld := st }) hq (hrunning hp)
    exact hspares.imp_right fun h => h.congr rfl rfl rfl
  | progTrap st =>
    obtain ⟨p, hp, -⟩ := hholds.serves hok.takes
    have htake : (m.over l).take K (.progTrap st) =
        Abs.progTrap K { m.abs l with pgmOld := st } p :=
      Abs.withCurrent_some (a := { m.abs l with pgmOld := st }) _ hp
    rw [htake]
    have hspares := passUp_spares (K := K) (v := v) (a := { m.abs l with pgmOld := st }) (hrunning hp)
      (m.nuc.pcb.pNewPgm p) (m.nuc.pcb.pOldPgm p) st
    exact hspares.imp_right fun h => h.congr rfl rfl rfl
  | tlbTrap st =>
    obtain ⟨p, hp, -⟩ := hholds.serves hok.takes
    have htake : (m.over l).take K (.tlbTrap st) =
        Abs.tlbTrap K { m.abs l with tlbOld := st } p :=
      Abs.withCurrent_some (a := { m.abs l with tlbOld := st }) _ hp
    rw [htake]
    have hspares := passUp_spares (K := K) (v := v) (a := { m.abs l with tlbOld := st }) (hrunning hp)
      (m.nuc.pcb.pNewTlb p) (m.nuc.pcb.pOldTlb p) st
    exact hspares.imp_right fun h => h.congr rfl rfl rfl
  | interrupt st i d =>
    right
    let a : Abs := { m.abs l with intOld := st, interruptDev := i, devReg := d }
    suffices h : Spares v q a.tick (a.interrupt K) from h.congr rfl rfl rfl
    rcases findLineNo_cases st.sCause with h0 | h1 | h2 | ⟨h3, -⟩
    · exact absurd h0 hok.sane.line
    · rw [Abs.interrupt_ploc (a := a) h1]
      exact (Undisturbed.endQuantum _ hcur).schedule
    · obtain rfl : v = K.clock := htick h2
      rw [Abs.interrupt_ivtim (a := a) h2]
      exact Undisturbed.clockTick.leaveHandler _
    · obtain ⟨hfound, -⟩ := hok.sane.dev h3
      rw [Abs.interrupt_device (a := a) rfl h3 hfound]
      suffices h : Undisturbed v q (a.tick.acked (findLineNo st.sCause)) _ from
        (h.leaveHandler _).congr rfl rfl rfl
      apply Undisturbed.signal
      intro hb
      have hnone := hsig _ hb
      rw [Event.shows, if_pos ⟨h3, rfl⟩] at hnone
      exact absurd hnone (by simp)

end Kaya
