import Kaya.Phase2.Proofs.Areas
import Kaya.Phase2.Proofs.Files
import Kaya.Phase2.Proofs.Frame

/-!
# Traps go where their process asked

`requested p k h` follows a history and says which areas `p` asked for first, for traps of kind
`k`, since it was created.  The PCB of every process holds these, and a trap is delivered to
them; a process that did not ask is killed.
-/

namespace Kaya

open Lib

def TrapType.code : TrapType → Word
  | .tlb => TLBTRAP
  | .pgm => PROGTRAP
  | .sys => SYSTRAP

/-- The old and the new area of the first SYS 5 of `p` for `k` that named a new area. -/
def requested (p : Pcb) (k : TrapType) : List (Machine × Event) → Option (Word × Word)
  | [] => none
  | (m, .syscall st) :: h =>
      if st.Privileged then requested p k h
      else if m.nuc.currentProc = some p then
        if st.a0 = SPECTRAPVEC ∧ st.a1 = k.code ∧ st.a3 ≠ NULL then
          some ((requested p k h).getD (st.a2, st.a3))
        else requested p k h
      -- a new process in the PCB
      else if st.a0 = CREATEPROCESS ∧ m.nuc.lk.pcbFree = some p then none
      else requested p k h
  | _ :: h => requested p k h

/-- The kind of a trap and the state that the process is in, behind the call if it is one. -/
def Event.trap : Event → Option (TrapType × State)
  | .progTrap st => some (.pgm, st)
  | .tlbTrap st => some (.tlb, st)
  | .syscall st =>
      if st.Privileged then some (.pgm, st.reserved)
      else if CREATEPROCESS ≤ st.a0 ∧ st.a0 ≤ WAITIO then none
      else some (.sys, st.advance)
  | .store _ _ | .interrupt _ _ _ => none

/-- A `state_t` of the processes: the words at `a` are aligned words of RAM outside
`semDevArray`. -/
structure Layout.Area (K : Layout) (a : Word) : Prop where
  aligned : a.toNat % 4 = 0
  base : K.rambase.toNat ≤ a.toNat
  top : a.toNat + 4 * 35 ≤ K.rambase.toNat + K.ramsize.toNat
  outside : ∀ i < 35, ¬ K.IsDev (a + 4 * BitVec.ofNat 32 i)

/-- SYS 1 and SYS 5 get areas of the processes. -/
structure State.SaneAreas (K : Layout) (st : State) : Prop where
  create : st.a0 = CREATEPROCESS → K.Area st.a1
  spectrapvec : st.a0 = SPECTRAPVEC → st.a3 ≠ NULL → K.Area st.a2 ∧ K.Area st.a3

/-- An event that the machine admits, where a call names areas of the processes. -/
structure Machine.AdmitsAreas (K : Layout) (m : Machine) (e : Event) : Prop where
  admits : m.Admits K e
  areas : ∀ st, e = .syscall st → ¬ st.Privileged → st.SaneAreas K

variable {K : Layout} {m : Machine} {l : Lists} {h : List (Machine × Event)} {p q : Pcb}
  {k : TrapType} {e : Event} {a b c : Abs} {st : State} {old new : Word}

/-! ## What leaves the areas alone -/

/-- The processes of `b` are processes of `a` and have the same areas. -/
def Carries (a b : Abs) : Prop :=
  ∀ q, q ∉ b.lk.free → q ∉ a.lk.free ∧ b.pcb.areas q = a.pcb.areas q

namespace Carries

theorem refl (a : Abs) : Carries a a := fun _ hq => ⟨hq, rfl⟩

theorem trans (h : Carries a b) (h' : Carries b c) : Carries a c := by
  intro q hq
  obtain ⟨hb, hareas⟩ := h' q hq
  exact ⟨(h q hb).1, hareas.trans (h q hb).2⟩

theorem same (hfree : b.lk.free = a.lk.free) (hareas : b.pcb.areas = a.pcb.areas) :
    Carries a b := by
  intro q hq
  exact ⟨hfree ▸ hq, congrFun hareas q⟩

theorem of_world (h : SameWorld a b) : Carries a b := same h.free (by rw [h.pcb])

theorem schedule (h : Carries a b) : Carries a b.schedule.nuc :=
  h.trans (of_world (schedule_world b))

theorem leaveHandler (h : Carries a b) (t : Int) : Carries a (b.leaveHandler t).nuc :=
  h.trans (of_world (leaveHandler_world b t))

end Carries

theorem areas_clear (c : Payload Pcb) {v : Pcb} (hq : q ≠ v) :
    (c.clear v).areas q = c.areas q := by
  funext k
  cases k <;> simp only [Payload.areas, Payload.clear, Function.update_of_ne hq]

theorem areas_clear_self (c : Payload Pcb) (v : Pcb) :
    (c.clear v).areas v = fun _ => (NULL, NULL) := by
  funext k
  cases k <;> simp only [Payload.areas, Payload.clear, Function.update_self]

theorem reap_carries (a : Abs) (v : Pcb) : Carries a (a.reap K v) := by
  intro q hq
  obtain ⟨hne, hfree⟩ : q ≠ v ∧ q ∉ a.lk.free := by
    rwa [← not_or, ← List.mem_cons]
  exact ⟨hfree, areas_clear a.pcb hne⟩

theorem foldl_reap_carries (vs : List Pcb) (a : Abs) : Carries a (vs.foldl (Abs.reap K) a) := by
  induction vs generalizing a with
  | nil => exact .refl a
  | cons v vs ih => exact (reap_carries a v).trans (ih _)

theorem kill_carries (a : Abs) (p : Pcb) : Carries a (a.kill K p) := by
  have hfold := foldl_reap_carries (K := K) (a.lk.descendants p) (a.prune p)
  rw [Abs.kill_eq]
  intro q hq
  obtain ⟨hne, hfree⟩ : q ≠ p ∧ q ∉ ((a.lk.descendants p).foldl (Abs.reap K) (a.prune p)).lk.free := by
    rwa [← not_or, ← List.mem_cons]
  obtain ⟨hq', hareas⟩ := hfold q hfree
  exact ⟨hq', (areas_clear _ hne).trans hareas⟩

theorem mem_free_die (a : Abs) (p : Pcb) : p ∈ (a.die K p).nuc.lk.free := by
  rw [Abs.die, (schedule_world _).free, Abs.kill_eq]
  exact List.mem_cons_self

theorem die_carries (a : Abs) (p : Pcb) : Carries a (a.die K p).nuc := (kill_carries a p).schedule

theorem passUp_carries (a : Abs) (p : Pcb) (new old : Word) (trap : State) :
    Carries a (a.passUp K p new old trap).nuc := by
  by_cases hnew : new = NULL
  · rw [Abs.passUp_null hnew]
    exact die_carries a p
  · rw [Abs.passUp_of_ne hnew]
    exact .same rfl rfl

theorem wake_carries (a : Abs) (w : Word) : Carries a (a.wake w) := by
  cases hq : a.lk.blocked w with
  | nil =>
    rw [Abs.wake_nil hq]
    exact .refl a
  | cons p ps =>
    rw [Abs.wake_cons hq]
    exact .same rfl rfl

theorem V_carries (a : Abs) : Carries a a.V.nuc := by
  by_cases hle : (a.mem a.sysOld.a1 + 1).toInt ≤ 0
  · rw [Abs.V_of_le hle]
    exact Carries.trans (.same rfl rfl) (wake_carries _ _)
  · rw [Abs.V_of_not_le hle]
    exact .same rfl rfl

theorem P_carries (a : Abs) (p : Pcb) : Carries a (a.P p).nuc := by
  by_cases hneg : (a.mem a.sysOld.a1 - 1).toInt < 0
  · rw [Abs.P_of_neg hneg]
    exact Carries.schedule (.same rfl rfl)
  · rw [Abs.P_of_not_neg hneg]
    exact .same rfl rfl

theorem waitDev_carries (a : Abs) (p : Pcb) (w : Word) : Carries a (a.waitDev p w).nuc := by
  by_cases hneg : (a.mem w - 1).toInt < 0
  · rw [Abs.waitDev_of_neg hneg]
    exact Carries.schedule (.same rfl rfl)
  · rw [Abs.waitDev_of_not_neg hneg]
    exact .same rfl rfl

theorem wakeAll_carries (a : Abs) (w : Word) (ps : List Pcb) : Carries a (a.wakeAll w ps) := by
  induction ps generalizing a with
  | nil => exact .refl a
  | cons p ps ih => exact Carries.trans (.same rfl rfl) (ih (a.unblock 1 w p ps))

theorem signal_carries (a : Abs) (w status : Word) : Carries a (a.signal w status) := by
  by_cases hle : (a.mem w + 1).toInt ≤ 0
  · cases hq : a.lk.blocked w with
    | nil =>
      rw [Abs.signal_nil hle hq]
      exact .same rfl rfl
    | cons p ps =>
      rw [Abs.signal_cons hle hq]
      exact .same rfl rfl
  · rw [Abs.signal_of_pos hle]
    exact .same rfl rfl

theorem endQuantum_carries (a : Abs) (t : Int) : Carries a (a.endQuantum t) := by
  have hpreempt : ∀ t', Carries a (a.tick.preempt t t') := by
    intro t'
    unfold Abs.preempt
    split <;> exact .same rfl rfl
  exact (hpreempt _).trans (.same rfl rfl)

theorem clockTick_carries (a : Abs) : Carries a (a.clockTick K) := by
  have hwake := wakeAll_carries a K.clock (a.lk.blocked K.clock)
  have htimer : Carries (a.wakeAll K.clock (a.lk.blocked K.clock)) (a.clockTick K) :=
    .same rfl rfl
  exact hwake.trans htimer

theorem device_carries (a : Abs) (lineNo : Int) : Carries a (a.device K lineNo) := by
  have hack : Carries a (a.acked lineNo) := .same rfl rfl
  exact hack.trans (signal_carries _ _ _)

theorem interrupt_carries (a : Abs) : Carries a (a.interrupt K).nuc := by
  have htick : Carries a a.tick := .same rfl rfl
  unfold Abs.interrupt
  dsimp only
  split_ifs
  · exact htick
  · exact (htick.trans (endQuantum_carries _ _)).schedule
  · exact (htick.trans (clockTick_carries _)).leaveHandler _
  · exact htick
  · exact (htick.trans (device_carries _ _)).leaveHandler _

/-! ## Requests -/

/-- What the PCB of a process holds, which asked for `r`. -/
def Tells : Option (Word × Word) → Word × Word → Prop
  | some areas, held => held = areas ∧ areas.2 ≠ NULL
  | none, held => held.2 = NULL

/-- The PCBs of the processes hold what they asked for. -/
def Recorded (h : List (Machine × Event)) (a : Abs) : Prop :=
  ∀ q, q ∉ a.lk.free → ∀ k, Tells (requested q k h) (a.pcb.areas q k)

theorem Recorded.carries (hr : Recorded h a) (hab : Carries a b) {h' : List (Machine × Event)}
    (hreq : ∀ q, q ∉ b.lk.free → ∀ k, requested q k h' = requested q k h) : Recorded h' b := by
  intro q hq k
  obtain ⟨hfree, hareas⟩ := hab q hq
  rw [hreq q hq, hareas]
  exact hr q hfree k

theorem requested_privileged (hp : st.Privileged) :
    requested q k ((m, .syscall st) :: h) = requested q k h := by
  simp only [requested, if_pos hp]

theorem requested_call (h5 : st.a0 ≠ SPECTRAPVEC) (h1 : st.a0 ≠ CREATEPROCESS) :
    requested q k ((m, .syscall st) :: h) = requested q k h := by
  simp only [requested, h5, h1, false_and, if_false, ite_self]

theorem requested_other (hp : ¬ st.Privileged) (hcur : m.nuc.currentProc ≠ some q)
    (hnew : ¬ (st.a0 = CREATEPROCESS ∧ m.nuc.lk.pcbFree = some q)) :
    requested q k ((m, .syscall st) :: h) = requested q k h := by
  simp only [requested, if_neg hp, if_neg hcur, if_neg hnew]

theorem requested_self (hp : ¬ st.Privileged) (hcur : m.nuc.currentProc = some q)
    (hask : st.a0 = SPECTRAPVEC ∧ st.a1 = k.code ∧ st.a3 ≠ NULL) :
    requested q k ((m, .syscall st) :: h) = some ((requested q k h).getD (st.a2, st.a3)) := by
  simp only [requested, if_neg hp, if_pos hcur, if_pos hask]

theorem requested_self_not (hp : ¬ st.Privileged) (hcur : m.nuc.currentProc = some q)
    (hask : ¬ (st.a0 = SPECTRAPVEC ∧ st.a1 = k.code ∧ st.a3 ≠ NULL)) :
    requested q k ((m, .syscall st) :: h) = requested q k h := by
  simp only [requested, if_neg hp, if_pos hcur, if_neg hask]

theorem createprocess_recorded (hholds : m.Holds K l) (hr : Recorded h (m.abs l))
    (hcur : m.nuc.currentProc = some p) (hp : ¬ st.Privileged) (h1 : st.a0 = CREATEPROCESS) :
    Recorded ((m, .syscall st) :: h) (((m.abs l).called st).createprocess p).nuc := by
  have hhead : m.nuc.lk.pcbFree = l.free.head? := hholds.shape.queues.free.eq_head?
  have hnot : ∀ k : TrapType, ¬ (st.a0 = SPECTRAPVEC ∧ st.a1 = k.code ∧ st.a3 ≠ NULL) := by
    rw [h1]
    exact fun _ hask => absurd hask.1 (by decide)
  cases hfree : l.free with
  | nil =>
    have hf : ((m.abs l).called st).lk.free = [] := hfree
    rw [hfree] at hhead
    simp only [Abs.createprocess, hf]
    refine hr.carries (.same rfl rfl) fun q _ k => ?_
    by_cases hq : m.nuc.currentProc = some q
    · exact requested_self_not hp hq (hnot k)
    · exact requested_other hp hq (by simp [hhead])
  | cons c fs =>
    have hf : ((m.abs l).called st).lk.free = c :: fs := hfree
    have hlive : p ∉ l.free := by
      obtain ⟨place, hpl⟩ := hholds.sound.inv.placed
      exact (hpl.out hcur).free
    rw [hfree] at hhead hlive
    simp only [Abs.createprocess, hf]
    intro q hq k
    by_cases hqc : q = c
    · subst hqc
      have hne : m.nuc.currentProc ≠ some q := by
        intro heq
        rw [hcur, Option.some.injEq] at heq
        rw [heq] at hlive
        exact hlive List.mem_cons_self
      have hnone : requested q k ((m, .syscall st) :: h) = none := by
        have hnew : st.a0 = CREATEPROCESS ∧ m.nuc.lk.pcbFree = some q := ⟨h1, hhead⟩
        simp only [requested, if_neg hp, if_neg hne, if_pos hnew]
      rw [hnone]
      exact congrArg Prod.snd (congrFun (areas_clear_self m.nuc.pcb q) k)
    · have hreq : requested q k ((m, .syscall st) :: h) = requested q k h := by
        by_cases hq : m.nuc.currentProc = some q
        · exact requested_self_not hp hq (hnot k)
        · refine requested_other hp hq ?_
          rintro ⟨-, hq'⟩
          rw [hhead, List.head?_cons, Option.some.injEq] at hq'
          exact hqc hq'.symm
      have hq' : q ∉ l.free := by
        rw [hfree, List.mem_cons, not_or]
        exact ⟨hqc, hq⟩
      rw [hreq]
      have hareas : (m.nuc.pcb.clear c).areas q k = m.nuc.pcb.areas q k :=
        congrFun (areas_clear m.nuc.pcb hqc) k
      have hold : Tells (requested q k h) (m.nuc.pcb.areas q k) := hr q hq' k
      rw [← hareas] at hold
      exact hold

theorem spectrapvec_sets (hk : a.sysOld.a1 = k.code) (hnew : (a.pcb.areas p k).2 = NULL) :
    ∃ pcb, a.spectrapvec K p = ⟨{ a with pcb := pcb }, .ldst a.sysOld⟩ ∧
      pcb.areas p k = (a.sysOld.a2, a.sysOld.a3) ∧
      ∀ q j, q ≠ p ∨ j ≠ k → pcb.areas q j = a.pcb.areas q j := by
  have hother : ∀ (f : Pcb → Word) (v : Word) (q : Pcb), q ≠ p → Function.update f p v q = f q :=
    fun f v q hq => Function.update_of_ne hq ..
  cases k with
  | tlb =>
    refine ⟨_, if_pos ⟨hk, hnew⟩, ?_, ?_⟩
    · simp only [Payload.areas, Function.update_self]
    · rintro q j (hq | hj)
      · cases j <;> simp only [Payload.areas, hother _ _ q hq]
      · cases j with
        | tlb => exact absurd rfl hj
        | pgm | sys => rfl
  | pgm =>
    have htlb : ¬ (a.sysOld.a1 = TLBTRAP ∧ a.pcb.pNewTlb p = NULL) := by
      rintro ⟨h0, -⟩
      exact absurd (h0.symm.trans hk) (by decide)
    refine ⟨_, (if_neg htlb).trans (if_pos ⟨hk, hnew⟩), ?_, ?_⟩
    · simp only [Payload.areas, Function.update_self]
    · rintro q j (hq | hj)
      · cases j <;> simp only [Payload.areas, hother _ _ q hq]
      · cases j with
        | pgm => exact absurd rfl hj
        | tlb | sys => rfl
  | sys =>
    have htlb : ¬ (a.sysOld.a1 = TLBTRAP ∧ a.pcb.pNewTlb p = NULL) := by
      rintro ⟨h0, -⟩
      exact absurd (h0.symm.trans hk) (by decide)
    have hpgm : ¬ (a.sysOld.a1 = PROGTRAP ∧ a.pcb.pNewPgm p = NULL) := by
      rintro ⟨h1, -⟩
      exact absurd (h1.symm.trans hk) (by decide)
    refine ⟨_, ((if_neg htlb).trans (if_neg hpgm)).trans (if_pos ⟨hk, hnew⟩), ?_, ?_⟩
    · simp only [Payload.areas, Function.update_self]
    · rintro q j (hq | hj)
      · cases j <;> simp only [Payload.areas, hother _ _ q hq]
      · cases j with
        | sys => exact absurd rfl hj
        | tlb | pgm => rfl

theorem spectrapvec_kills (h : ∀ k : TrapType, a.sysOld.a1 = k.code → (a.pcb.areas p k).2 ≠ NULL) :
    a.spectrapvec K p = a.die K p := by
  have hset : ∀ k : TrapType, ¬ (a.sysOld.a1 = k.code ∧ (a.pcb.areas p k).2 = NULL) :=
    fun k hk => h k hk.1 hk.2
  exact (if_neg (hset .tlb)).trans ((if_neg (hset .pgm)).trans (if_neg (hset .sys)))

theorem spectrapvec_recorded (hr : Recorded h (m.abs l)) (hcur : m.nuc.currentProc = some p)
    (hlive : p ∉ l.free) (hp : ¬ st.Privileged) (h5 : st.a0 = SPECTRAPVEC) :
    Recorded ((m, .syscall st) :: h) (((m.abs l).called st).spectrapvec K p).nuc := by
  have hone : ¬ st.a0 = CREATEPROCESS := by
    rw [h5]
    decide
  have hreq : ∀ q k, q ≠ p → requested q k ((m, .syscall st) :: h) = requested q k h := by
    intro q k hq
    refine requested_other hp (fun heq => hq ?_) fun hc => hone hc.1
    rw [hcur, Option.some.injEq] at heq
    exact heq.symm
  by_cases hset : ∃ k : TrapType, st.a1 = k.code ∧ (m.nuc.pcb.areas p k).2 = NULL
  · obtain ⟨k, hk, hnew⟩ := hset
    obtain ⟨pcb, hrun, hself, hrest⟩ := spectrapvec_sets (K := K) (a := (m.abs l).called st) hk hnew
    rw [hrun]
    intro q hq j
    show Tells _ (pcb.areas q j)
    by_cases hqp : q = p
    · subst hqp
      by_cases hj : j = k
      · subst hj
        rw [hself]
        have hold : Tells (requested q j h) (m.nuc.pcb.areas q j) := hr q hlive j
        have hnone : requested q j h = none := by
          cases hreq : requested q j h with
          | none => rfl
          | some areas =>
            rw [hreq] at hold
            exact absurd (hold.1 ▸ hnew) hold.2
        by_cases h3 : st.a3 = NULL
        · have hnot : ¬ (st.a0 = SPECTRAPVEC ∧ st.a1 = j.code ∧ st.a3 ≠ NULL) := fun hc => hc.2.2 h3
          rw [requested_self_not hp hcur hnot, hnone]
          exact h3
        · rw [requested_self hp hcur ⟨h5, hk, h3⟩, hnone]
          exact ⟨rfl, h3⟩
      · have hnot : ¬ (st.a0 = SPECTRAPVEC ∧ st.a1 = j.code ∧ st.a3 ≠ NULL) := by
          rintro ⟨-, hj', -⟩
          rw [hk] at hj'
          cases j <;> cases k <;> first | exact hj rfl | exact absurd hj' (by decide)
        rw [requested_self_not hp hcur hnot, hrest q j (.inr hj)]
        exact hr q hlive j
    · rw [hreq q j hqp, hrest q j (.inl hqp)]
      exact hr q hq j
  · have hkill : ((m.abs l).called st).spectrapvec K p = ((m.abs l).called st).die K p :=
      spectrapvec_kills fun k hk hnew => hset ⟨k, hk, hnew⟩
    rw [hkill]
    have hcalled : Carries (m.abs l) ((m.abs l).called st) := .same rfl rfl
    refine hr.carries (hcalled.trans (die_carries _ p)) fun q hq k => hreq q k ?_
    rintro rfl
    exact hq (mem_free_die _ q)

theorem sysSwitch_carries (a : Abs) (p : Pcb) {call : Word} (h1 : call ≠ CREATEPROCESS)
    (h5 : call ≠ SPECTRAPVEC) : Carries a (a.sysSwitch K p call).nuc := by
  unfold Abs.sysSwitch
  rw [if_neg h1, if_neg h5]
  split_ifs
  · exact die_carries a p
  · exact V_carries a
  · exact P_carries a p
  · exact .same rfl rfl
  · exact waitDev_carries a p _
  · exact die_carries a p
  · exact waitDev_carries a p _
  · exact passUp_carries a p _ _ _

theorem sysCall_recorded (hholds : m.Holds K l) (hr : Recorded h (m.abs l))
    (hcur : m.nuc.currentProc = some p) :
    Recorded ((m, .syscall st) :: h) (Abs.sysCall K { m.abs l with sysOld := st } p).nuc := by
  have hlive : p ∉ l.free := by
    obtain ⟨place, hpl⟩ := hholds.sound.inv.placed
    exact (hpl.out hcur).free
  by_cases hp : st.Privileged
  · have hrun : Abs.sysCall K { m.abs l with sysOld := st } p =
        Abs.progTrap K { m.abs l with sysOld := st, pgmOld := st.reserved } p := if_pos hp
    rw [hrun]
    have hcarries : Carries (m.abs l)
        (Abs.progTrap K { m.abs l with sysOld := st, pgmOld := st.reserved } p).nuc := by
      have hsame : Carries (m.abs l) { m.abs l with sysOld := st, pgmOld := st.reserved } :=
        .same rfl rfl
      exact hsame.trans (passUp_carries _ p _ _ _)
    exact hr.carries hcarries fun q _ k => requested_privileged hp
  · have hrun : Abs.sysCall K { m.abs l with sysOld := st } p =
        ((m.abs l).called st).sysSwitch K p st.a0 := if_neg hp
    rw [hrun]
    by_cases h1 : st.a0 = CREATEPROCESS
    · rw [h1]
      exact createprocess_recorded hholds hr hcur hp h1
    · by_cases h5 : st.a0 = SPECTRAPVEC
      · rw [h5]
        exact spectrapvec_recorded hr hcur hlive hp h5
      · have hcalled : Carries (m.abs l) ((m.abs l).called st) := .same rfl rfl
        exact hr.carries (hcalled.trans (sysSwitch_carries _ p h1 h5)) fun q _ k =>
          requested_call h5 h1

theorem step_recorded (hholds : m.Holds K l) (hr : Recorded h (m.abs l)) (hok : m.Admits K e) :
    Recorded ((m, e) :: h) ((m.over l).step K e).nuc := by
  have hstep : (m.over l).step K e = (m.over l).take K e := if_pos hok.takes
  rw [hstep]
  cases e with
  | store w v => exact hr.carries (.same rfl rfl) fun q _ k => rfl
  | syscall st =>
    obtain ⟨p, hcur, -⟩ := hholds.serves hok.takes
    have htake : (m.over l).take K (.syscall st) =
        Abs.sysCall K { m.abs l with sysOld := st } p :=
      Abs.withCurrent_some (a := { m.abs l with sysOld := st }) _ hcur
    rw [htake]
    exact sysCall_recorded hholds hr hcur
  | progTrap st =>
    obtain ⟨p, hcur, -⟩ := hholds.serves hok.takes
    have htake : (m.over l).take K (.progTrap st) =
        Abs.progTrap K { m.abs l with pgmOld := st } p :=
      Abs.withCurrent_some (a := { m.abs l with pgmOld := st }) _ hcur
    have hsame : Carries (m.abs l) { m.abs l with pgmOld := st } := .same rfl rfl
    rw [htake]
    exact hr.carries (hsame.trans (passUp_carries _ p _ _ _)) fun q _ k => rfl
  | tlbTrap st =>
    obtain ⟨p, hcur, -⟩ := hholds.serves hok.takes
    have htake : (m.over l).take K (.tlbTrap st) =
        Abs.tlbTrap K { m.abs l with tlbOld := st } p :=
      Abs.withCurrent_some (a := { m.abs l with tlbOld := st }) _ hcur
    have hsame : Carries (m.abs l) { m.abs l with tlbOld := st } := .same rfl rfl
    rw [htake]
    exact hr.carries (hsame.trans (passUp_carries _ p _ _ _)) fun q _ k => rfl
  | interrupt st i d =>
    have hsame : Carries (m.abs l)
        { m.abs l with intOld := st, interruptDev := i, devReg := d } := .same rfl rfl
    exact hr.carries (hsame.trans (interrupt_carries _)) fun q _ k => rfl

/-! ## In every run -/

theorem Reaches.recorded (hrun : Reaches K (Machine.AdmitsAreas K) h m) :
    ∃ l, m.Holds K l ∧ Recorded h (m.abs l) := by
  refine hrun.induction (fun _ _ he => he.admits) (I := fun h am => Recorded h am.nuc) ?_ ?_
  · intro s _ q _ k
    have hpcb : (Abs.first K s).schedule.nuc.pcb = (Abs.first K s).pcb := (schedule_world _).pcb
    rw [hpcb]
    cases k <;> rfl
  · intro h m l e hholds hr hok
    exact step_recorded hholds hr hok.admits

/-- What a process asked for are areas of the processes. -/
theorem requested_areas (hrun : Reaches K (Machine.AdmitsAreas K) h m)
    (hreq : requested p k h = some (old, new)) : K.Area old ∧ K.Area new := by
  induction hrun generalizing old new with
  | start => exact absurd hreq.symm (Option.some_ne_none _)
  | @next h m e _ hok ih =>
    cases e with
    | store | progTrap | tlbTrap | interrupt => exact ih hreq
    | syscall st =>
      by_cases hp : st.Privileged
      · exact ih (requested_privileged hp ▸ hreq)
      by_cases hcur : m.nuc.currentProc = some p
      · by_cases hask : st.a0 = SPECTRAPVEC ∧ st.a1 = k.code ∧ st.a3 ≠ NULL
        · rw [requested_self hp hcur hask, Option.some.injEq] at hreq
          cases hfirst : requested p k h with
          | none =>
            rw [hfirst] at hreq
            obtain ⟨rfl, rfl⟩ := Prod.mk.inj hreq
            exact (hok.areas st rfl hp).spectrapvec hask.1 hask.2.2
          | some areas =>
            rw [hfirst] at hreq
            obtain rfl : areas = (old, new) := hreq
            exact ih hfirst
        · exact ih (requested_self_not hp hcur hask ▸ hreq)
      · by_cases hnew : st.a0 = CREATEPROCESS ∧ m.nuc.lk.pcbFree = some p
        · simp only [requested, if_neg hp, if_neg hcur, if_pos hnew] at hreq
          exact absurd hreq.symm (Option.some_ne_none _)
        · exact ih (requested_other hp hcur hnew ▸ hreq)

/-- The state `st` is copied to `old` and the one at `new` is loaded. -/
structure Delivered (m m' : Machine) (st : State) (old new : Word) : Prop where
  copied : stateAt m'.nuc.mem old = st
  loaded : m'.cpu = .ldst (stateAt m'.nuc.mem new)
  current : m'.nuc.currentProc = m.nuc.currentProc
  frame : ∀ w, ¬ InArea old w → m'.nuc.mem w = m.nuc.mem w

/-- The PCB of `p` is free and does not run. -/
def Ended (p : Pcb) (m : Machine) : Prop :=
  ∃ l, Shape m.nuc.lk l ∧ p ∈ l.free ∧ m.nuc.currentProc ≠ some p

/-- What `e` does with the areas of the processes when `p` runs. -/
structure TrapLaw (K : Layout) (h : List (Machine × Event)) (m : Machine) (e : Event) (p : Pcb) :
    Prop where
  delivers : ∀ k st old new, e.trap = some (k, st) → requested p k h = some (old, new) →
    (K.Area old ∧ K.Area new) ∧ Delivered m (m.step K e) st old new
  kills : ∀ k st, e.trap = some (k, st) → requested p k h = none → Ended p (m.step K e)
  /-- The second request for a kind of trap, and one for no kind at all. -/
  once : ∀ st, e = .syscall st → ¬ st.Privileged → st.a0 = SPECTRAPVEC →
    (∀ k : TrapType, st.a1 = k.code → requested p k h ≠ none) → Ended p (m.step K e)
  fresh : ∀ st q, e = .syscall st → ¬ st.Privileged → st.a0 = CREATEPROCESS →
    m.nuc.lk.pcbFree = some q → ∀ k, requested q k ((m, e) :: h) = none ∧
      (m.step K e).nuc.pcb.areas q k = (NULL, NULL)
  holds : ∃ l, Shape (m.step K e).nuc.lk l ∧ ∀ q, q ∉ l.free → ∀ k,
    Tells (requested q k ((m, e) :: h)) ((m.step K e).nuc.pcb.areas q k)

section Law

theorem take_trap (htakes : m.cpu.Takes e) (hcur : m.nuc.currentProc = some p)
    (he : e.trap = some (k, st)) : ∃ a : Abs,
    (m.over l).take K e =
      a.passUp K p (m.nuc.pcb.areas p k).2 (m.nuc.pcb.areas p k).1 st ∧
    a.mem = m.nuc.mem ∧ a.currentProc = some p := by
  cases e with
  | store | interrupt => cases he
  | progTrap st' =>
    cases he
    exact ⟨{ m.abs l with pgmOld := st },
      Abs.withCurrent_some (a := { m.abs l with pgmOld := st }) _ hcur, rfl, hcur⟩
  | tlbTrap st' =>
    cases he
    exact ⟨{ m.abs l with tlbOld := st },
      Abs.withCurrent_some (a := { m.abs l with tlbOld := st }) _ hcur, rfl, hcur⟩
  | syscall st' =>
    have htake : (m.over l).take K (.syscall st') =
        Abs.sysCall K { m.abs l with sysOld := st' } p :=
      Abs.withCurrent_some (a := { m.abs l with sysOld := st' }) _ hcur
    rw [htake]
    simp only [Event.trap] at he
    split_ifs at he with hp hcall
    · cases he
      exact ⟨{ m.abs l with sysOld := st', pgmOld := st'.reserved }, if_pos hp, rfl, hcur⟩
    · cases he
      have hne : ∀ n : Word, CREATEPROCESS ≤ n → n ≤ WAITIO → st'.a0 ≠ n := by
        rintro n h1 h8 heq
        exact hcall ⟨heq ▸ h1, heq ▸ h8⟩
      refine ⟨(m.abs l).called st', (if_neg hp).trans ?_, rfl, hcur⟩
      show Abs.sysSwitch K ((m.abs l).called st') p st'.a0 = _
      rw [Abs.sysSwitch, if_neg (hne _ (by decide) (by decide)),
        if_neg (hne _ (by decide) (by decide)), if_neg (hne _ (by decide) (by decide)),
        if_neg (hne _ (by decide) (by decide)), if_neg (hne _ (by decide) (by decide)),
        if_neg (hne _ (by decide) (by decide)), if_neg (hne _ (by decide) (by decide)),
        if_neg (hne _ (by decide) (by decide))]
      rfl

theorem Machine.Holds.ended (hholds : m.Holds K l) (hp : p ∈ l.free) : Ended p m := by
  refine ⟨l, hholds.shape, hp, fun hcur => ?_⟩
  obtain ⟨place, hpl⟩ := hholds.sound.inv.placed
  exact (hpl.out hcur).free hp

variable {l' : Lists}

theorem Machine.Holds.live (hholds : m.Holds K l) (hcur : m.nuc.currentProc = some p) :
    p ∉ l.free := by
  obtain ⟨place, hpl⟩ := hholds.sound.inv.placed
  exact (hpl.out hcur).free

/-- The PCB of the running process holds what it asked for. -/
theorem Recorded.tells (hr : Recorded h (m.abs l)) (hholds : m.Holds K l)
    (hcur : m.nuc.currentProc = some p) (k : TrapType) :
    Tells (requested p k h) (m.nuc.pcb.areas p k) := hr p (hholds.live hcur) k

theorem Machine.Holds.dies (hl' : (m.step K e).Holds K l')
    (hdie : (m.step K e).over l' = a.die K p) : Ended p (m.step K e) := by
  apply hl'.ended
  have hlk : l' = (a.die K p).nuc.lk := congrArg (fun am : AbsMachine => am.nuc.lk) hdie
  rw [hlk]
  exact mem_free_die a p

theorem take_call (hcur : m.nuc.currentProc = some p) (huser : ¬ st.Privileged) :
    (m.over l).take K (.syscall st) = ((m.abs l).called st).sysSwitch K p st.a0 :=
  (Abs.withCurrent_some (a := { m.abs l with sysOld := st }) (Abs.sysCall K) hcur).trans
    (if_neg huser)

theorem trap_delivered (htakes : m.cpu.Takes e) (hcur : m.nuc.currentProc = some p)
    (hstep : (m.step K e).over l' = (m.over l).take K e) (he : e.trap = some (k, st))
    (htells : Tells (some (old, new)) (m.nuc.pcb.areas p k)) :
    Delivered m (m.step K e) st old new := by
  obtain ⟨a, htake, hmem, hcura⟩ := take_trap (l := l) (K := K) htakes hcur he
  obtain ⟨hheld, hnew⟩ := htells
  rw [hheld, Abs.passUp_of_ne hnew, hmem] at htake
  have hend := hstep.trans htake
  have hmem' : (m.step K e).nuc.mem = storeState m.nuc.mem old st :=
    congrArg (fun am : AbsMachine => am.nuc.mem) hend
  constructor
  case copied =>
    rw [hmem']
    exact stateAt_storeState ..
  case loaded =>
    rw [hmem']
    exact congrArg (fun am : AbsMachine => am.cpu) hend
  case current =>
    rw [hcur, ← hcura]
    exact congrArg (fun am : AbsMachine => am.nuc.currentProc) hend
  case frame =>
    intro w hw
    rw [hmem']
    exact storeState_of_not_inArea _ hw

/-- SYS 5 for a kind of trap that has its areas, or for no kind, is the end of the caller. -/
theorem request_dies (hcur : m.nuc.currentProc = some p) (huser : ¬ st.Privileged)
    (h5 : st.a0 = SPECTRAPVEC) (hset : ∀ k : TrapType, st.a1 = k.code → (m.nuc.pcb.areas p k).2 ≠ NULL) :
    (m.over l).take K (.syscall st) = ((m.abs l).called st).die K p := by
  rw [take_call hcur huser, h5]
  exact spectrapvec_kills (a := (m.abs l).called st) hset

/-- SYS 1 empties the areas of the PCB that it takes. -/
theorem create_clears {fs : List Pcb} (hcur : m.nuc.currentProc = some p) (huser : ¬ st.Privileged)
    (h1 : st.a0 = CREATEPROCESS) (hfree : l.free = q :: fs) (k : TrapType) :
    ((m.over l).take K (.syscall st)).nuc.pcb.areas q k = (NULL, NULL) := by
  have hlk : ((m.abs l).called st).lk.free = q :: fs := hfree
  have hswitch : ((m.abs l).called st).sysSwitch K p CREATEPROCESS =
      ((m.abs l).called st).createprocess p := rfl
  rw [take_call hcur huser, h1, hswitch]
  simp only [Abs.createprocess, hlk]
  exact congrFun (areas_clear_self m.nuc.pcb q) k

/-- In every run in which `terminateprocess` finds its victims and the areas are the processes',
traps go to the areas that their process asked for first, and a process that did not ask is
killed. -/
theorem traps_follow_requests (hrun : Reaches K (Machine.AdmitsAreas K) h m)
    (hok : m.AdmitsAreas K e) (hcur : m.nuc.currentProc = some p) : TrapLaw K h m e p := by
  obtain ⟨l, hholds, hr⟩ := Reaches.recorded hrun
  obtain ⟨l', hl', hover⟩ := hholds.step hok.admits
  have hstep : (m.step K e).over l' = (m.over l).take K e := hover.trans (if_pos hok.admits.takes)
  have htells := hr.tells hholds hcur
  constructor
  case delivers =>
    intro k st old new he hreq
    refine ⟨requested_areas hrun hreq, ?_⟩
    exact trap_delivered hok.admits.takes hcur hstep he (hreq ▸ htells k)
  case kills =>
    intro k st he hreq
    obtain ⟨a, htake, -, -⟩ := take_trap (l := l) (K := K) hok.admits.takes hcur he
    have hnull : (m.nuc.pcb.areas p k).2 = NULL := by
      have hk := htells k
      rwa [hreq] at hk
    exact hl'.dies (hstep.trans (htake.trans (Abs.passUp_null hnull)))
  case once =>
    rintro st rfl huser h5 hasked
    refine hl'.dies (hstep.trans (request_dies hcur huser h5 fun k hk hnull => ?_))
    have htold := htells k
    cases hreq : requested p k h with
    | none => exact hasked k hk hreq
    | some areas =>
      rw [hreq] at htold
      exact htold.2 (htold.1 ▸ hnull)
  case fresh =>
    rintro st q rfl huser h1 hhead k
    have hfree : l.free.head? = some q := hholds.shape.queues.free.eq_head?.symm.trans hhead
    obtain ⟨fs, hfs⟩ := List.head?_eq_some_iff.mp hfree
    have hne : m.nuc.currentProc ≠ some q := by
      intro heq
      have hlive := hholds.live heq
      rw [hfs] at hlive
      exact hlive List.mem_cons_self
    have hnew : st.a0 = CREATEPROCESS ∧ m.nuc.lk.pcbFree = some q := ⟨h1, hhead⟩
    have hpcb : (m.step K (.syscall st)).nuc.pcb = ((m.over l).take K (.syscall st)).nuc.pcb :=
      congrArg (fun am : AbsMachine => am.nuc.pcb) hstep
    refine ⟨by simp only [requested, if_neg huser, if_neg hne, if_pos hnew], ?_⟩
    rw [hpcb]
    exact create_clears hcur huser h1 hfs k
  case holds =>
    refine ⟨l', hl'.shape, ?_⟩
    have hrec := step_recorded hholds hr hok.admits
    rw [← hover] at hrec
    exact hrec

end Law

/-- A nested program trap goes to the areas of the running process for program traps. -/
theorem nested_passes (hcur : m.nuc.currentProc = some p) (hnew : m.nuc.pcb.pNewPgm p ≠ NULL)
    (st : State) : m.nested K st =
      ⟨{ m.nuc with pgmOld := st, mem := storeState m.nuc.mem (m.nuc.pcb.pOldPgm p) st },
        .ldst (stateAt (storeState m.nuc.mem (m.nuc.pcb.pOldPgm p) st) (m.nuc.pcb.pNewPgm p))⟩ := by
  simp only [Machine.nested, Machine.enter, progTrapHandler, passUpOrDie, pUoDHelper, bind_run,
    get_run, hcur, deref, pure_run, if_neg hnew, copyState_eq, LDST]
  rfl

theorem nested_not_ended (hcur : m.nuc.currentProc = some p) (hnew : m.nuc.pcb.pNewPgm p ≠ NULL)
    (st : State) : (m.nested K st).cpu.Running ∧ ¬ Ended p (m.nested K st) := by
  rw [nested_passes hcur hnew]
  refine ⟨⟨_, rfl⟩, ?_⟩
  rintro ⟨-, -, -, hne⟩
  exact hne hcur

/-! ## Two runs -/

def Event.asks : Event := .syscall (State.call SPECTRAPVEC PROGTRAP 0x20006000 0x20007000)

theorem boot_current : (boot .sample .sample).nuc.currentProc = some Abs.firstPcb := by
  decide +kernel

theorem asks_admitted : (boot .sample .sample).AdmitsAreas .sample .asks := by
  constructor
  case admits =>
    refine ⟨⟨_, boot_cpu _ _⟩, fun _ => ⟨?_, ?_⟩, ?_⟩
    · exact fun h => absurd h (by decide)
    · exact fun h => absurd h (by decide)
    · intro p l hcur hkills
      have hp : p = Abs.firstPcb := Option.some.inj (hcur.symm.trans boot_current)
      have hnull : (boot .sample .sample).nuc.pcb.pNewPgm Abs.firstPcb = NULL := by decide +kernel
      rw [Event.asks, Event.Kills, if_neg (by decide), hp] at hkills
      rcases hkills with h2 | ⟨-, -, hset, -⟩ | ⟨h8, -⟩ | ⟨hrange, -⟩
      · exact absurd h2 (by decide)
      · exact absurd ⟨rfl, hnull⟩ hset
      · exact absurd h8 (by decide)
      · exact absurd (by decide) hrange
  case areas =>
    rintro st he -
    obtain rfl := Event.syscall.inj he
    refine ⟨fun h1 => absurd h1 (by decide), fun _ _ => ⟨?_, ?_⟩⟩
    · exact ⟨by decide, by decide, by decide, by decide⟩
    · exact ⟨by decide, by decide, by decide, by decide⟩

theorem traps_follow_requests_pgm :
    TrapLaw .sample [(boot .sample .sample, .asks)] (Machine.step .sample (boot .sample .sample) .asks)
      (.progTrap resetState) Abs.firstPcb := by
  have hrun : Reaches .sample (Machine.AdmitsAreas .sample) [(boot .sample .sample, .asks)]
      (Machine.step .sample (boot .sample .sample) .asks) :=
    .next (.start ⟨.sample, rfl, rfl⟩) asks_admitted
  have hcur : (Machine.step .sample (boot .sample .sample) .asks).nuc.currentProc =
      some Abs.firstPcb := by decide +kernel
  have hset : (Machine.step .sample (boot .sample .sample) .asks).nuc.pcb.pNewPgm Abs.firstPcb ≠
      NULL := by decide +kernel
  have hruns : (Machine.step .sample (boot .sample .sample) .asks).cpu.Running := by decide +kernel
  refine traps_follow_requests hrun ⟨⟨hruns, trivial, ?_⟩, ?_⟩ hcur
  · intro p l hcur' hkills
    have hp : p = Abs.firstPcb := Option.some.inj (hcur'.symm.trans hcur)
    exact absurd (hp ▸ hkills) hset
  · exact fun st he => Event.noConfusion he

/-- A process with areas for program traps has two children, which wait for one semaphore, the
younger before the older. -/
def outOfOrder : List Event :=
  [.asks, .syscall (State.call CREATEPROCESS 0x20008000 0 0),
    .syscall (State.call CREATEPROCESS 0x20008000 0 0), .quantum resetState, .quantum resetState,
    .syscall (State.call PASSEREN 0x20009000 0 0), .quantum resetState,
    .syscall (State.call PASSEREN 0x20009000 0 0)]

def outOfOrderRun : List (Machine × Event) × Machine :=
  replay (Machine.step .sample) ([], boot .sample .sample) outOfOrder

/-- A system call that is passed up. -/
def Event.ninth : Event := .syscall (State.call 9 0 0 0)

/-- The parent has no areas for system calls, but the call does not kill it: `terminateprocess`
faults, and the program trap that follows goes to the parent's own handler. -/
theorem trap_not_killed :
    Reaches .sample (fun m e => m.cpu.Takes e) outOfOrderRun.1 outOfOrderRun.2 ∧
      outOfOrderRun.2.cpu.Takes .ninth ∧
      outOfOrderRun.2.nuc.currentProc = some Abs.firstPcb ∧
      Event.ninth.trap = some (.sys, (State.call 9 0 0 0).advance) ∧
      requested Abs.firstPcb .sys outOfOrderRun.1 = none ∧
      (outOfOrderRun.2.step .sample .ninth).cpu = .fault ∧
      ¬ Ended Abs.firstPcb (outOfOrderRun.2.step .sample .ninth) ∧
      ∀ st, ((outOfOrderRun.2.step .sample .ninth).nested .sample st).cpu.Running ∧
        ¬ Ended Abs.firstPcb ((outOfOrderRun.2.step .sample .ninth).nested .sample st) := by
  have hstart : Reaches .sample (fun m e => m.cpu.Takes e) [] (boot .sample .sample) :=
    .start ⟨.sample, rfl, rfl⟩
  have hcur : (outOfOrderRun.2.step .sample .ninth).nuc.currentProc = some Abs.firstPcb := by
    decide +kernel
  have hnew : (outOfOrderRun.2.step .sample .ninth).nuc.pcb.pNewPgm Abs.firstPcb ≠ NULL := by
    decide +kernel
  refine ⟨hstart.replay outOfOrder (by decide +kernel), by decide +kernel, by decide +kernel, rfl,
    by decide +kernel, by decide +kernel, ?_, nested_not_ended hcur hnew⟩
  rintro ⟨-, -, -, hne⟩
  exact hne hcur

end Kaya
