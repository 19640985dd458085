import Kaya.Lib.Semaphore
import Kaya.Phase2.Proofs.Frame
import Kaya.Phase2.Places

/-!
# Semaphores of the processes

The word of a semaphore and its queue in the ASL behave as a counting semaphore
whose operations are the calls of SYS 3 and SYS 4.
-/

namespace Kaya

open Lib

/-! ## What a history says about a semaphore -/

/-- A call of SYS `num` on the semaphore at `w`. -/
def IsCall (num w : Word) : Machine × Event → Bool
  | (_, .syscall st) => st.a0 = num ∧ st.a1 = w
  | _ => false

def calls (num w : Word) (h : List (Machine × Event)) : Nat := h.countP (IsCall num w)

/-- A P on `w` completes: its caller does not wait on `w`, or a V wakes one that did. -/
def Completes (K : Layout) (w : Word) : Machine × Event → Bool
  | (m, .syscall st) =>
      (st.a0 = PASSEREN ∧ st.a1 = w ∧ ∃ p, m.nuc.currentProc = some p ∧
        (m.step K (.syscall st)).nuc.pcb.pSemAdd p ≠ w) ∨
      (st.a0 = VERHOGEN ∧ st.a1 = w ∧ ∃ p, m.nuc.pcb.pSemAdd p = w ∧
        (m.step K (.syscall st)).nuc.pcb.pSemAdd p ≠ w)
  | _ => false

def completed (K : Layout) (w : Word) (h : List (Machine × Event)) : Nat :=
  h.countP (Completes K w)

/-- When `p` last made a system call; a blocked process has been blocked since then. -/
def since (p : Pcb) : List (Machine × Event) → Nat
  | [] => 0
  | (m, .syscall _) :: h => if m.nuc.currentProc = some p then h.length + 1 else since p h
  | _ :: h => since p h

/-- A plain event that leaves `w` to SYS 3 and SYS 4 and keeps it within 32 bits. -/
structure Machine.OnlyVP (K : Layout) (w : Word) (m : Machine) (e : Event) : Prop where
  plain : m.Plain K e
  store : ∀ v, e ≠ .store w v
  high : ∀ st, e = .syscall st → st.a0 = VERHOGEN → st.a1 = w → (m.nuc.mem w).toInt + 1 < 2 ^ 31
  low : ∀ st, e = .syscall st → st.a0 = PASSEREN → st.a1 = w →
    -2 ^ 31 ≤ (m.nuc.mem w).toInt - 1

/-- What holds of the semaphore at `w`, that started at `n` without waiters, after `h`. -/
structure SemaphoreLaw (K : Layout) (w : Word) (n : Int) (h : List (Machine × Event))
    (m : Machine) (l : Lists) : Prop where
  value : (m.nuc.mem w).toInt = n + calls VERHOGEN w h - calls PASSEREN w h
  waiters : ((l.blocked w).length : Int) = max 0 (-(m.nuc.mem w).toInt)
  completed : (completed K w h : Int) ≤ n + calls VERHOGEN w h
  /-- Who has waited longer stands further ahead. -/
  oldest : (l.blocked w).Pairwise fun p q => since p h < since q h
  /-- A V makes the first waiter ready. -/
  wakes : ∀ p ps st, l.blocked w = p :: ps → m.OnlyVP K w (.syscall st) → st.a0 = VERHOGEN →
    st.a1 = w → ∃ l', Shape (m.step K (.syscall st)).nuc.lk l' ∧ l'.blocked w = ps ∧
      l'.ready = l.ready ++ [p]

/-! ## Words as integers -/

theorem toInt_succ {x : Word} (h : x.toInt + 1 < 2 ^ 31) : (x + 1).toInt = x.toInt + 1 := by
  have h1 : (1 : Word).toInt = 1 := by decide
  have hlo := BitVec.le_toInt x
  rw [BitVec.toInt_add, h1, Int.bmod_eq_of_le (by omega) (by omega)]

theorem toInt_pred {x : Word} (h : -2 ^ 31 ≤ x.toInt - 1) : (x - 1).toInt = x.toInt - 1 := by
  have h1 : (1 : Word).toInt = 1 := by decide
  have hhi := BitVec.toInt_lt (x := x)
  rw [BitVec.toInt_sub, h1, Int.bmod_eq_of_le (by omega) (by omega)]

variable {K : Layout} {m : Machine} {l : Lists} {h : List (Machine × Event)} {p q : Pcb}
  {e : Event} {a : Abs} {am : AbsMachine} {c : Stop} {w : Word} {n : Int}

/-! ## Steps that do not concern the semaphore -/

/-- A semaphore changes only by SYS 3 and SYS 4 on it and by stores to it. -/
theorem PlainStep.elsewhere (hs : PlainStep K a c e am) (hw : K.UserWord w)
    (hstore : ∀ v, e ≠ .store w v)
    (hcall : ∀ st, e = .syscall st → st.a0 = VERHOGEN ∨ st.a0 = PASSEREN → st.a1 ≠ w) :
    am.nuc.mem w = a.mem w ∧ am.nuc.lk.blocked w = a.lk.blocked w := by
  have hdev : ∀ u, K.IsDev u → w ≠ u := by
    rintro u hu rfl
    exact hw.2.2 hu
  cases hs with
  | @store u v hu hrun =>
      refine ⟨Function.update_of_ne ?_ _ _, rfl⟩
      rintro rfl
      exact hstore v rfl
  | create h1 hcur =>
      rw [createprocess_mem, createprocess_blocked]
      exact ⟨rfl, rfl⟩
  | exit h2 hcur hkids =>
      rw [(schedule_world _).mem, (schedule_world _).blocked]
      exact ⟨rfl, rfl⟩
  | @V st p h3 hcur hu =>
      have hne : w ≠ st.a1 := (hcall st rfl (.inl h3)).symm
      by_cases hle : (((a.called st).mem (a.called st).sysOld.a1) + 1).toInt ≤ 0
      · rw [Abs.V_of_le hle]
        refine ⟨?_, wake_other hne⟩
        rw [wake_mem]
        exact Function.update_of_ne hne _ _
      · rw [Abs.V_of_not_le hle]
        exact ⟨Function.update_of_ne hne _ _, rfl⟩
  | @P st p h4 hcur hu =>
      have hne : w ≠ st.a1 := (hcall st rfl (.inr h4)).symm
      by_cases hneg : (((a.called st).mem (a.called st).sysOld.a1) - 1).toInt < 0
      · rw [Abs.P_of_neg hneg, (schedule_world _).mem, (schedule_world _).blocked]
        exact ⟨Function.update_of_ne hne _ _, Function.update_of_ne hne _ _⟩
      · rw [Abs.P_of_not_neg hneg]
        exact ⟨Function.update_of_ne hne _ _, rfl⟩
  | @waitDev st p u h78 hcur hu =>
      have hne := hdev u hu
      by_cases hneg : ((a.called st).mem u - 1).toInt < 0
      · rw [Abs.waitDev_of_neg hneg, (schedule_world _).mem, (schedule_world _).blocked]
        exact ⟨Function.update_of_ne hne _ _, Function.update_of_ne hne _ _⟩
      · rw [Abs.waitDev_of_not_neg hneg]
        exact ⟨Function.update_of_ne hne _ _, rfl⟩
  | quantum h1 =>
      rw [(schedule_world _).mem, (schedule_world _).blocked, endQuantum_mem,
        endQuantum_blocked]
      exact ⟨rfl, rfl⟩
  | @clock st i d h2 =>
      have hne := hdev _ (Layout.isDev_clock (K := K))
      have hblk : ((a.interrupted st i d).clockTick K).lk.blocked =
        Function.update a.lk.blocked K.clock [] := wakeAll_blocked rfl
      rw [(leaveHandler_world _ _).mem, (leaveHandler_world _ _).blocked, hblk]
      exact ⟨Function.update_of_ne hne _ _, Function.update_of_ne hne _ _⟩
  | @device st i d h3 hu =>
      rw [(leaveHandler_world _ _).mem, (leaveHandler_world _ _).blocked]
      exact signal_other (a := (a.interrupted st i d).acked _) (hdev _ hu)

/-! ## SYS 3 and SYS 4 on the semaphore -/

theorem PlainStep.V_inv {st : State} (hs : PlainStep K a c (.syscall st) am)
    (h3 : st.a0 = VERHOGEN) : am = (a.called st).V := by
  cases hs with
  | V => rfl
  | create h1 | exit h1 | P h1 =>
      rw [h1] at h3
      exact absurd h3 (by decide)
  | waitDev h78 =>
      rw [h3] at h78
      exact absurd h78 (by decide)

theorem PlainStep.P_inv {st : State} (hs : PlainStep K a c (.syscall st) am)
    (h4 : st.a0 = PASSEREN) : ∃ p, a.currentProc = some p ∧ am = (a.called st).P p := by
  cases hs with
  | P h hcur => exact ⟨_, hcur, rfl⟩
  | create h1 | exit h1 | V h1 =>
      rw [h1] at h4
      exact absurd h4 (by decide)
  | waitDev h78 =>
      rw [h4] at h78
      exact absurd h78 (by decide)

/-- The semaphore at `w` is the counting semaphore `S`. -/
structure Counts (w : Word) (a : Abs) (S : Semaphore Pcb) : Prop where
  value : (a.mem w).toInt = S.value
  waiters : a.lk.blocked w = S.waiters

theorem Machine.Holds.pSemAdd_iff (hholds : m.Holds K l) (hw : K.UserWord w) :
    m.nuc.pcb.pSemAdd p = w ↔ p ∈ l.blocked w := by
  obtain ⟨place, hpl⟩ := hholds.sound.inv.placed
  have hsem : m.nuc.pcb.pSemAdd p = (place p).semAdd := hpl.semAdd p
  have hblk : p ∈ l.blocked w ↔ place p = .blocked w := (hpl.spot p).blocked w
  have hne : NULL ≠ w := hw.semAddr.2.symm
  rw [hsem, hblk]
  cases place p <;> simp [Place.semAdd, hne]

/-- A V is an `up`: it wakes the first waiter. -/
theorem Counts.V {st : State} {S : Semaphore Pcb} (hc : Counts w (m.abs l) S)
    (hholds : m.Holds K l) (hw : K.UserWord w) (hok : m.OnlyVP K w (.syscall st))
    (h3 : st.a0 = VERHOGEN) (h1 : st.a1 = w) :
    Counts w ((m.over l).step K (.syscall st)).nuc S.up ∧
      ((m.over l).step K (.syscall st)).nuc.lk.ready = l.ready ++ S.waiters.take 1 ∧
      (Completes K w (m, .syscall st) ↔ S.waiters ≠ []) := by
  obtain ⟨l', hl', hover⟩ := hholds.step hok.plain.admits
  have hV : (m.over l).step K (.syscall st) = ((m.abs l).called st).V :=
    (hholds.plain hok.plain).V_inv h3
  have hpcb : (m.step K (.syscall st)).nuc.pcb = (((m.abs l).called st).V).nuc.pcb := by
    rw [← hV]
    exact congrArg (fun am : AbsMachine => am.nuc.pcb) hover
  have hne : VERHOGEN ≠ PASSEREN := by decide
  have hcompl : Completes K w (m, .syscall st) ↔ ∃ p, m.nuc.pcb.pSemAdd p = w ∧
      (((m.abs l).called st).V).nuc.pcb.pSemAdd p ≠ w := by
    simp [Completes, h3, h1, hpcb, hne]
  rw [hV, hcompl]
  have hval : (m.nuc.mem w + 1).toInt = S.value + 1 := by
    rw [toInt_succ (hok.high st rfl h3 h1)]
    exact congrArg (· + 1) hc.value
  have hbal := S.balance
  subst h1
  have hmem : ((m.abs l).called st).mem ((m.abs l).called st).sysOld.a1 = m.nuc.mem st.a1 := rfl
  by_cases hle : (m.nuc.mem st.a1 + 1).toInt ≤ 0
  · cases hq : S.waiters with
    | nil =>
        rw [hq, List.length_nil] at hbal
        omega
    | cons p ps =>
        have hq' : l.blocked st.a1 = p :: ps := hc.waiters.trans hq
        have hstep : ((m.abs l).called st).V = ⟨(((m.abs l).called st).setInt st.a1
            (m.nuc.mem st.a1 + 1)).unblock 0 st.a1 p ps, .ldst st.advance⟩ := by
          rw [Abs.V_of_le (by rwa [hmem])]
          exact congrArg (fun b : Abs => (⟨b, .ldst st.advance⟩ : AbsMachine))
            (Abs.wake_cons (a := ((m.abs l).called st).setInt _ _) hq')
        rw [hstep]
        refine ⟨⟨?_, ?_⟩, rfl, ?_⟩
        · have hmem' : ((((m.abs l).called st).setInt st.a1 (m.nuc.mem st.a1 + 1)).unblock 0
            st.a1 p ps).mem st.a1 = m.nuc.mem st.a1 + 1 := Function.update_self ..
          rw [hmem', hval]
          rfl
        · have htail : S.up.waiters = ps := congrArg List.tail hq
          rw [htail]
          exact Function.update_self ..
        · refine iff_of_true ⟨p, (hholds.pSemAdd_iff hw).mpr (by simp [hq']), ?_⟩ (by simp)
          have hnull : ((((m.abs l).called st).setInt st.a1 (m.nuc.mem st.a1 + 1)).unblock 0
            st.a1 p ps).pcb.pSemAdd p = NULL := Function.update_self ..
          rw [hnull]
          exact hw.semAddr.2.symm
  · have hnil : S.waiters = [] := by
      rw [S.waiters_eq_nil_iff]
      omega
    have hstep : ((m.abs l).called st).V = ⟨((m.abs l).called st).setInt st.a1
        (m.nuc.mem st.a1 + 1), .ldst st.advance⟩ := Abs.V_of_not_le (by rwa [hmem])
    rw [hstep]
    refine ⟨⟨?_, ?_⟩, by simp [hnil]; rfl, ?_⟩
    · have hmem' : (((m.abs l).called st).setInt st.a1 (m.nuc.mem st.a1 + 1)).mem st.a1 =
        m.nuc.mem st.a1 + 1 := Function.update_self ..
      rw [hmem', hval]
      rfl
    · have htail : S.up.waiters = S.waiters.tail := rfl
      rw [htail, hnil]
      exact hc.waiters.trans hnil
    · refine iff_of_false ?_ (fun hne => hne hnil)
      rintro ⟨p, hp, hp'⟩
      exact hp' hp

/-- A P is a `down`: its caller passes or goes to the end of the line. -/
theorem Counts.P {st : State} {S : Semaphore Pcb} (hc : Counts w (m.abs l) S)
    (hholds : m.Holds K l) (hw : K.UserWord w) (hok : m.OnlyVP K w (.syscall st))
    (h4 : st.a0 = PASSEREN) (h1 : st.a1 = w) :
    ∃ p, m.nuc.currentProc = some p ∧
      Counts w ((m.over l).step K (.syscall st)).nuc (S.down p) ∧
      (Completes K w (m, .syscall st) ↔ 0 < S.value) := by
  obtain ⟨l', hl', hover⟩ := hholds.step hok.plain.admits
  obtain ⟨p, hcur, hP⟩ := (hholds.plain hok.plain).P_inv h4
  have hcur' : m.nuc.currentProc = some p := hcur
  have hpcb : (m.step K (.syscall st)).nuc.pcb = (((m.abs l).called st).P p).nuc.pcb := by
    rw [← hP]
    exact congrArg (fun am : AbsMachine => am.nuc.pcb) hover
  have hne : PASSEREN ≠ VERHOGEN := by decide
  have hcompl : Completes K w (m, .syscall st) ↔
      (((m.abs l).called st).P p).nuc.pcb.pSemAdd p ≠ w := by
    simp [Completes, h4, h1, hpcb, hne, hcur']
  refine ⟨p, hcur', ?_⟩
  rw [hP, hcompl]
  have hval : (m.nuc.mem w - 1).toInt = S.value - 1 := by
    rw [toInt_pred (hok.low st rfl h4 h1)]
    exact congrArg (· - 1) hc.value
  subst h1
  have hmem : ((m.abs l).called st).mem ((m.abs l).called st).sysOld.a1 = m.nuc.mem st.a1 := rfl
  have hmem' : (((m.abs l).called st).setInt st.a1 (m.nuc.mem st.a1 - 1)).mem st.a1 =
    m.nuc.mem st.a1 - 1 := Function.update_self ..
  by_cases hneg : (m.nuc.mem st.a1 - 1).toInt < 0
  · have hstep : ((m.abs l).called st).P p = ((((m.abs l).called st).setInt st.a1
        (m.nuc.mem st.a1 - 1)).block 0 p st.a1).schedule := Abs.P_of_neg (by rwa [hmem])
    rw [hstep, (schedule_world _).pcb]
    refine ⟨⟨?_, ?_⟩, ?_⟩
    · rw [(schedule_world _).mem]
      exact (congrArg BitVec.toInt hmem').trans hval
    · have hline : (S.down p).waiters = S.waiters ++ [p] := if_pos (by omega)
      rw [(schedule_world _).blocked, hline, ← hc.waiters]
      exact Function.update_self ..
    · refine iff_of_false ?_ (by omega)
      exact fun hp => hp (Function.update_self ..)
  · have hstep : ((m.abs l).called st).P p = ⟨((m.abs l).called st).setInt st.a1
        (m.nuc.mem st.a1 - 1), .ldst st.advance⟩ := Abs.P_of_not_neg (by rwa [hmem])
    rw [hstep]
    refine ⟨⟨(congrArg BitVec.toInt hmem').trans hval, ?_⟩, ?_⟩
    · have hline : (S.down p).waiters = S.waiters := if_neg (by omega)
      rw [hline]
      exact hc.waiters
    · refine iff_of_true ?_ (by omega)
      have hp : p ∉ l.blocked st.a1 := fun hp => hholds.not_runs hp hcur
      exact fun heq => hp ((hholds.pSemAdd_iff hw).mp heq)

/-! ## Runs -/

/-- The operations on the semaphore at `w`. -/
def semOps (w : Word) : List (Machine × Event) → List (Semaphore.Op Pcb)
  | [] => []
  | (m, .syscall st) :: h =>
      if st.a0 = VERHOGEN ∧ st.a1 = w then .up :: semOps w h
      else if st.a0 = PASSEREN ∧ st.a1 = w then
        m.nuc.currentProc.toList.map .down ++ semOps w h
      else semOps w h
  | _ :: h => semOps w h

theorem since_le (p : Pcb) (h : List (Machine × Event)) : since p h ≤ h.length := by
  induction h with
  | nil => exact le_rfl
  | cons x h ih =>
      obtain ⟨m, e⟩ := x
      cases e with
      | syscall st =>
          rw [since]
          split_ifs
          · exact le_rfl
          · exact ih.trans (Nat.le_succ _)
      | store | progTrap | tlbTrap | interrupt => exact ih.trans (Nat.le_succ _)

theorem since_of_ne (hcur : m.nuc.currentProc ≠ some p) :
    since p ((m, e) :: h) = since p h := by
  cases e with
  | syscall st => exact if_neg hcur
  | store | progTrap | tlbTrap | interrupt => rfl

/-- The run of the code mirrors the run of the counting semaphore `S`. -/
structure Mirrors (K : Layout) (w : Word) (S : Semaphore Pcb) (h : List (Machine × Event))
    (a : Abs) : Prop where
  counts : Counts w a (S.run (semOps w h))
  completed : completed K w h = S.completed (semOps w h)
  ups : (semOps w h).countP Semaphore.Op.isUp = calls VERHOGEN w h
  downs : (semOps w h).countP Semaphore.Op.isDown = calls PASSEREN w h
  oldest : (a.lk.blocked w).Pairwise fun p q => since p h < since q h

/-- Waiters keep their order while others call. -/
theorem oldest_step {ps : List Pcb} (hcur : ∀ p ∈ ps, m.nuc.currentProc ≠ some p)
    (hps : ps.Pairwise fun p q => since p h < since q h) :
    ps.Pairwise fun p q => since p ((m, e) :: h) < since q ((m, e) :: h) := by
  apply hps.imp_of_mem
  intro p q hp hq hlt
  rwa [since_of_ne (hcur p hp), since_of_ne (hcur q hq)]

theorem isCall_iff {num num' : Word} {st : State} (h0 : st.a0 = num) (h1 : st.a1 = w) :
    IsCall num' w (m, .syscall st) ↔ num' = num := by
  simp [IsCall, h0, h1, eq_comm]

theorem Mirrors.V {S : Semaphore Pcb} (hf : Mirrors K w S h (m.abs l)) (hholds : m.Holds K l)
    (hw : K.UserWord w) {st : State} (hok : m.OnlyVP K w (.syscall st)) (h3 : st.a0 = VERHOGEN)
    (h1 : st.a1 = w) :
    Mirrors K w S ((m, .syscall st) :: h) ((m.over l).step K (.syscall st)).nuc := by
  obtain ⟨hc, -, hcompl⟩ := hf.counts.V hholds hw hok h3 h1
  have hops : semOps w ((m, .syscall st) :: h) = .up :: semOps w h := if_pos ⟨h3, h1⟩
  have hne : PASSEREN ≠ VERHOGEN := by decide
  constructor
  case counts =>
    rw [hops]
    exact hc
  case completed =>
    rw [Kaya.completed, List.countP_cons, hops, Semaphore.completed, ← hf.completed,
      Kaya.completed, Nat.add_comm]
    congr 1
    by_cases hnil : (S.run (semOps w h)).waiters = []
    · rw [if_neg (fun hc => hcompl.mp hc hnil)]
      exact (if_pos hnil).symm
    · rw [if_pos (hcompl.mpr hnil)]
      exact (if_neg hnil).symm
  case ups =>
    rw [hops, List.countP_cons_of_pos rfl, hf.ups, calls, calls,
      List.countP_cons_of_pos ((isCall_iff h3 h1).mpr rfl)]
  case downs =>
    rw [hops, List.countP_cons_of_neg (by simp [Semaphore.Op.isDown, Semaphore.Op.isUp]),
      hf.downs, calls, calls, List.countP_cons_of_neg fun hc => hne ((isCall_iff h3 h1).mp hc)]
  case oldest =>
    have hblk : l.blocked w = (S.run (semOps w h)).waiters := hf.counts.waiters
    rw [hc.waiters]
    apply oldest_step
    · intro p hp
      apply hholds.not_runs
      rw [hblk]
      exact List.mem_of_mem_tail hp
    · have hold : (l.blocked w).Pairwise fun p q => since p h < since q h := hf.oldest
      rw [hblk] at hold
      exact hold.sublist (List.tail_sublist _)

theorem Mirrors.P {S : Semaphore Pcb} (hf : Mirrors K w S h (m.abs l)) (hholds : m.Holds K l)
    (hw : K.UserWord w) {st : State} (hok : m.OnlyVP K w (.syscall st)) (h4 : st.a0 = PASSEREN)
    (h1 : st.a1 = w) :
    Mirrors K w S ((m, .syscall st) :: h) ((m.over l).step K (.syscall st)).nuc := by
  obtain ⟨p, hcur, hc, hcompl⟩ := hf.counts.P hholds hw hok h4 h1
  have hne : VERHOGEN ≠ PASSEREN := by decide
  have hops : semOps w ((m, .syscall st) :: h) = .down p :: semOps w h := by
    simp [semOps, h4, h1, hne.symm, hcur]
  constructor
  case counts =>
    rw [hops]
    exact hc
  case completed =>
    rw [Kaya.completed, List.countP_cons, hops, Semaphore.completed, ← hf.completed,
      Kaya.completed, Nat.add_comm]
    congr 1
    by_cases hpos : 0 < (S.run (semOps w h)).value
    · rw [if_pos (hcompl.mpr hpos)]
      exact (if_pos hpos).symm
    · rw [if_neg (fun hc => hpos (hcompl.mp hc))]
      exact (if_neg hpos).symm
  case ups =>
    rw [hops, List.countP_cons_of_neg (by simp [Semaphore.Op.isUp]), hf.ups, calls, calls,
      List.countP_cons_of_neg fun hc => hne ((isCall_iff h4 h1).mp hc)]
  case downs =>
    rw [hops, List.countP_cons_of_pos rfl, hf.downs, calls, calls,
      List.countP_cons_of_pos ((isCall_iff h4 h1).mpr rfl)]
  case oldest =>
    have hblk : l.blocked w = (S.run (semOps w h)).waiters := hf.counts.waiters
    have hkeep : (l.blocked w).Pairwise fun p q =>
      since p ((m, .syscall st) :: h) < since q ((m, .syscall st) :: h) :=
        oldest_step (fun _ => hholds.not_runs) hf.oldest
    rw [hc.waiters, Semaphore.down]
    simp only
    split
    · rw [← hblk, List.pairwise_append]
      refine ⟨hkeep, List.pairwise_singleton _ _, ?_⟩
      intro q hq r hr
      obtain rfl := List.mem_singleton.mp hr
      have hself : since r ((m, .syscall st) :: h) = h.length + 1 := if_pos hcur
      rw [since_of_ne (hholds.not_runs hq), hself]
      exact Nat.lt_succ_of_le (since_le q h)
    · rwa [← hblk]

/-- An event that is not a V or P on the semaphore does nothing to it. -/
theorem Mirrors.elsewhere {S : Semaphore Pcb} (hf : Mirrors K w S h (m.abs l))
    (hholds : m.Holds K l) (hw : K.UserWord w) (hok : m.OnlyVP K w e)
    (hne : ∀ st, e = .syscall st → st.a0 = VERHOGEN ∨ st.a0 = PASSEREN → st.a1 ≠ w) :
    Mirrors K w S ((m, e) :: h) ((m.over l).step K e).nuc := by
  obtain ⟨hmem, hblk⟩ := (hholds.plain hok.plain).elsewhere hw hok.store hne
  have hsame : semOps w ((m, e) :: h) = semOps w h ∧ Completes K w (m, e) = false ∧
      ∀ num, num = VERHOGEN ∨ num = PASSEREN → IsCall num w (m, e) = false := by
    cases e with
    | syscall st =>
      have hV : ¬ (st.a0 = VERHOGEN ∧ st.a1 = w) := fun hc => hne st rfl (.inl hc.1) hc.2
      have hP : ¬ (st.a0 = PASSEREN ∧ st.a1 = w) := fun hc => hne st rfl (.inr hc.1) hc.2
      refine ⟨by rw [semOps, if_neg hV, if_neg hP], ?_, ?_⟩
      · simp only [Completes, decide_eq_false_iff_not, not_or]
        exact ⟨fun hc => hP ⟨hc.1, hc.2.1⟩, fun hc => hV ⟨hc.1, hc.2.1⟩⟩
      · rintro num (rfl | rfl)
        · simpa [IsCall] using hV
        · simpa [IsCall] using hP
    | store | progTrap | tlbTrap | interrupt => exact ⟨rfl, rfl, fun _ _ => rfl⟩
  obtain ⟨hops, hcompl, hcall⟩ := hsame
  constructor
  case counts =>
    rw [hops]
    exact ⟨(congrArg BitVec.toInt hmem).trans hf.counts.value, hblk.trans hf.counts.waiters⟩
  case completed =>
    rw [Kaya.completed, List.countP_cons_of_neg (by simp [hcompl]), hops]
    exact hf.completed
  case ups =>
    rw [calls, List.countP_cons_of_neg (by simp [hcall]), hops]
    exact hf.ups
  case downs =>
    rw [calls, List.countP_cons_of_neg (by simp [hcall]), hops]
    exact hf.downs
  case oldest =>
    rw [hblk]
    exact oldest_step (fun _ => hholds.not_runs) hf.oldest

theorem Mirrors.step {S : Semaphore Pcb} (hf : Mirrors K w S h (m.abs l))
    (hholds : m.Holds K l) (hw : K.UserWord w) (hok : m.OnlyVP K w e) :
    Mirrors K w S ((m, e) :: h) ((m.over l).step K e).nuc := by
  by_cases hcall : ∃ st, e = .syscall st ∧ (st.a0 = VERHOGEN ∨ st.a0 = PASSEREN) ∧ st.a1 = w
  · obtain ⟨st, rfl, h3 | h4, h1⟩ := hcall
    · exact hf.V hholds hw hok h3 h1
    · exact hf.P hholds hw hok h4 h1
  · exact hf.elsewhere hholds hw hok fun st he h34 h1 => hcall ⟨st, he, h34, h1⟩

theorem Mirrors.law {hn : 0 ≤ n} (hf : Mirrors K w (Semaphore.start n hn) h (m.abs l))
    (hholds : m.Holds K l) (hw : K.UserWord w) : SemaphoreLaw K w n h m l := by
  have hvalue : (m.nuc.mem w).toInt = ((Semaphore.start n hn).run (semOps w h)).value :=
    hf.counts.value
  have hwaiters : l.blocked w = ((Semaphore.start n hn).run (semOps w h)).waiters :=
    hf.counts.waiters
  constructor
  case value =>
    rw [hvalue, Semaphore.run_value, hf.ups, hf.downs]
    rfl
  case waiters =>
    rw [hwaiters, hvalue]
    exact Semaphore.balance _
  case completed =>
    rw [hf.completed, ← hf.ups]
    exact Semaphore.completed_le _ rfl _
  case oldest => exact hf.oldest
  case wakes =>
    intro p ps st hq hok h3 h1
    obtain ⟨l', hl', hover⟩ := hholds.step hok.plain.admits
    obtain ⟨hc, hready, -⟩ := hf.counts.V hholds hw hok h3 h1
    have hlk : ((m.over l).step K (.syscall st)).nuc.lk = l' :=
      congrArg (fun am : AbsMachine => am.nuc.lk) hover.symm
    rw [hwaiters] at hq
    rw [hlk, hq] at hready
    refine ⟨l', hl'.shape, ?_, hready⟩
    have hline := hc.waiters
    rw [hlk] at hline
    rw [hline]
    exact congrArg List.tail hq

/-- From any reachable state in which nobody waits on `w`, and over any run of plain events in
which only SYS 3 and SYS 4 change `w`, the semaphore keeps its law. -/
theorem semaphore_law {h₀ : List (Machine × Event)} {m₀ : Machine}
    (hrun₀ : Reaches K (Machine.Plain K) h₀ m₀) (hw : K.UserWord w) (hn : 0 ≤ n)
    (hstart : (m₀.nuc.mem w).toInt = n) (hnone : ∀ p, m₀.nuc.pcb.pSemAdd p ≠ w)
    (hrun : Run (· = m₀) (Machine.step K) (Machine.OnlyVP K w) h m) :
    ∃ l, Shape m.nuc.lk l ∧ SemaphoreLaw K w n h m l := by
  have hinv : ∃ l, m.Holds K l ∧ Mirrors K w (Semaphore.start n hn) h (m.over l).nuc := by
    refine run_induction hrun (fun _ _ he => he.plain.admits)
      (I := fun h am => Mirrors K w (Semaphore.start n hn) h am.nuc) ?_ ?_
    · intro m hm
      subst hm
      obtain ⟨l, hholds⟩ := hrun₀.holds fun _ _ he => he.admits
      have hnil : l.blocked w = [] := by
        rw [List.eq_nil_iff_forall_not_mem]
        exact fun p hp => hnone p ((hholds.pSemAdd_iff hw).mpr hp)
      refine ⟨l, hholds, ⟨hstart, hnil⟩, rfl, rfl, rfl, ?_⟩
      have hpw : (m.over l).nuc.lk.blocked w = [] := hnil
      rw [hpw]
      exact List.Pairwise.nil
    · intro h m l e hholds hf hok
      exact hf.step hholds hw hok
  obtain ⟨l, hholds, hf⟩ := hinv
  exact ⟨l, hholds.shape, hf.law hholds hw⟩

/-- The first process waits on a semaphore that starts at 0. -/
theorem semaphore_law_wait :
    ∃ l, Shape (Machine.step .sample (boot .sample .sample)
        (.syscall (.call PASSEREN 0x20008000 0 0))).nuc.lk l ∧
      SemaphoreLaw .sample 0x20008000 0
        [(boot .sample .sample, .syscall (.call PASSEREN 0x20008000 0 0))]
        (Machine.step .sample (boot .sample .sample)
          (.syscall (.call PASSEREN 0x20008000 0 0))) l := by
  have hdev : ¬ Layout.sample.IsDev 0x20008000 := by decide
  have hmem : (boot .sample .sample).nuc.mem 0x20008000 = 0 := by
    rw [boot_mem, first_mem_of_not_dev _ hdev]
    rfl
  have hnone : ∀ p, (boot .sample .sample).nuc.pcb.pSemAdd p ≠ 0x20008000 := by
    rw [boot_pcb]
    intro p
    show NULL ≠ 0x20008000
    decide
  have hplain : (boot .sample .sample).Plain .sample
      (.syscall (.call PASSEREN 0x20008000 0 0)) := by
    refine ⟨⟨_, boot_cpu _ _⟩, ?_⟩
    constructor
    case user => decide
    case call => exact .inr (.inr (.inr (.inl rfl)))
    case sem => exact fun _ => by decide
    all_goals exact fun h => absurd h (by decide)
  apply semaphore_law (.start ⟨.sample, rfl, rfl⟩) (by decide) le_rfl (by rw [hmem]; rfl) hnone
  refine .next (.start rfl) ⟨hplain, by simp, ?_, ?_⟩
  · rintro st hst h3
    cases hst
    exact absurd h3 (by decide)
  · rintro st hst _ _
    rw [hmem]
    decide

end Kaya
