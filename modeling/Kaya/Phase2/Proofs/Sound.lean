import Kaya.Phase2.Proofs.Services
import Kaya.Phase2.Proofs.Interrupts

/-!
# Every service keeps the invariant

What the CPU does after a service agrees with the counters and the lists: a
process runs, or the machine waits, halts or panics for the reason the
scheduler has.
-/

namespace Kaya

open Lib

/-- What the nucleus knows when control has left it that way. -/
def Stop.Fits (c : Stop) (a : Abs) : Prop :=
  match c with
  | .ldst _ => (∃ p, a.currentProc = some p) ∧ a.waiting = false
  | .wait => a.currentProc = none ∧ a.waiting = true ∧ a.lk.ready = [] ∧ 0 < a.sftBlkCnt
  | .halt => a.currentProc = none ∧ a.procCnt = 0
  | .panic => a.currentProc = none ∧ a.lk.ready = [] ∧ a.sftBlkCnt = 0 ∧ a.procCnt ≠ 0
  | .fault | .loop => False

structure Sound (K : Layout) (m : AbsMachine) : Prop where
  inv : Inv K m.nuc
  fits : m.cpu.Fits m.nuc

theorem Shape.nodups {lk : Ptrs} {l : Lists} (h : Shape lk l) : Nodups l :=
  ⟨h.queues.nodups_free, h.queues.nodups_ready, h.queues.nodups_blocked⟩

theorem Shape.parents {lk : Ptrs} {l : Lists} (h : Shape lk l) : UniqueParents l.kids :=
  h.trees.forest.uniqueParents

theorem Family.congr {l l' : Lists} (h : Family l) (hfree : l'.free = l.free)
    (hkids : l'.kids = l.kids) : Family l' := by
  constructor
  · rw [hkids]
    exact h.acyclic
  · rw [hkids, hfree]
    exact h.child
  · rw [hkids, hfree]
    exact h.parent

variable {K : Layout} {a : Abs} {place : Pcb → Place} {p : Pcb} {w : Word}

/-! ## The scheduler -/

theorem schedule_sound (h : Placed K a place) (hfam : Family a.lk) (hnd : a.lk.ready.Nodup)
    (hcur : a.currentProc = none) : Sound K a.schedule := by
  cases hready : a.lk.ready with
  | nil =>
      have hpos := h.sftBlkCnt_nonneg
      unfold Abs.schedule
      simp only [hready]
      split_ifs with h0 h1
      · exact ⟨⟨⟨place, h.congr rfl rfl rfl rfl rfl rfl rfl⟩, hfam⟩, hcur, h0⟩
      · exact ⟨⟨⟨place, h.congr rfl rfl rfl rfl rfl rfl rfl⟩, hfam⟩, hcur, hready, h1, h0⟩
      · refine ⟨⟨⟨place, h.congr rfl rfl rfl rfl rfl rfl rfl⟩, hfam⟩, hcur, rfl, hready, ?_⟩
        show 0 < a.sftBlkCnt
        omega
  | cons p ps =>
      rw [hready] at hnd
      refine ⟨⟨⟨_, h.dispatch hcur hready hnd⟩, ?_⟩, ?_⟩
      · apply hfam.congr <;> simp only [Abs.schedule, hready]
      · simp only [Abs.schedule, hready]
        exact ⟨⟨p, rfl⟩, rfl⟩

theorem ldst_sound (h : Placed K a place) (hfam : Family a.lk) (hcur : a.currentProc = some p)
    (hwait : a.waiting = false) (st : State) : Sound K ⟨a, .ldst st⟩ :=
  ⟨⟨⟨place, h⟩, hfam⟩, ⟨p, hcur⟩, hwait⟩

/-! ## Semaphores -/

theorem block_sound (h : Placed K a place) (hfam : Family a.lk) (hnd : a.lk.ready.Nodup)
    (hcur : a.currentProc = some p) (hw : SemAddr w) {soft : Int}
    (hsoft : soft = weight K.IsDev w) : Sound K (a.block soft p w).schedule :=
  schedule_sound (h.block hcur hw hsoft) (hfam.congr rfl rfl) hnd rfl

theorem P_sound (h : Placed K a place) (hfam : Family a.lk) (hnd : a.lk.ready.Nodup)
    (hcur : a.currentProc = some p) (hwait : a.waiting = false) (hw : SemAddr a.sysOld.a1)
    (hdev : ¬ K.IsDev a.sysOld.a1) : Sound K (a.P p) := by
  have hb : Placed K (a.setInt a.sysOld.a1 (a.mem a.sysOld.a1 - 1)) place :=
    h.congr rfl rfl rfl rfl rfl rfl rfl
  by_cases hneg : (a.mem a.sysOld.a1 - 1).toInt < 0
  · rw [Abs.P_of_neg hneg]
    exact block_sound hb hfam hnd hcur hw (weight_of_not hdev).symm
  · rw [Abs.P_of_not_neg hneg]
    exact ldst_sound hb hfam hcur hwait _

theorem waitDev_sound (h : Placed K a place) (hfam : Family a.lk) (hnd : a.lk.ready.Nodup)
    (hcur : a.currentProc = some p) (hwait : a.waiting = false) (hdev : K.IsDev w) :
    Sound K (a.waitDev p w) := by
  have hb : Placed K (a.setInt w (a.mem w - 1)) place := h.congr rfl rfl rfl rfl rfl rfl rfl
  by_cases hneg : (a.mem w - 1).toInt < 0
  · rw [Abs.waitDev_of_neg hneg]
    exact block_sound hb hfam hnd hcur (Layout.semAddr_of_isDev hdev) (weight_of hdev).symm
  · rw [Abs.waitDev_of_not_neg hneg]
    exact ldst_sound hb hfam hcur hwait _

theorem Placed.wake (h : Placed K a place) (hnd : (a.lk.blocked w).Nodup)
    (hdev : ¬ K.IsDev w) : ∃ place', Placed K (a.wake w) place' := by
  cases hq : a.lk.blocked w with
  | nil =>
      rw [Abs.wake_nil hq]
      exact ⟨place, h⟩
  | cons p ps =>
      rw [hq] at hnd
      rw [Abs.wake_cons hq]
      exact ⟨_, h.unblock hq hnd (weight_of_not hdev).symm⟩

/-- Waking touches neither the tree nor the running process. -/
structure Quiet (a b : Abs) : Prop where
  free : b.lk.free = a.lk.free
  kids : b.lk.kids = a.lk.kids
  currentProc : b.currentProc = a.currentProc
  waiting : b.waiting = a.waiting

theorem Quiet.trans {a b c : Abs} (hab : Quiet a b) (hbc : Quiet b c) : Quiet a c :=
  ⟨hbc.free.trans hab.free, hbc.kids.trans hab.kids, hbc.currentProc.trans hab.currentProc,
    hbc.waiting.trans hab.waiting⟩

theorem wake_quiet (a : Abs) (w : Word) : Quiet a (a.wake w) := by
  unfold Abs.wake
  split <;> exact ⟨rfl, rfl, rfl, rfl⟩

theorem wakeAll_quiet (a : Abs) (w : Word) (ps : List Pcb) : Quiet a (a.wakeAll w ps) := by
  induction ps generalizing a with
  | nil => exact ⟨rfl, rfl, rfl, rfl⟩
  | cons p ps ih =>
      have hone : Quiet a (a.unblock 1 w p ps) := ⟨rfl, rfl, rfl, rfl⟩
      exact hone.trans (ih (a.unblock 1 w p ps))

theorem signal_quiet (a : Abs) (w status : Word) : Quiet a (a.signal w status) := by
  unfold Abs.signal
  simp only
  split
  · split <;> exact ⟨rfl, rfl, rfl, rfl⟩
  · exact ⟨rfl, rfl, rfl, rfl⟩

theorem Quiet.family {b : Abs} (h : Quiet a b) (hfam : Family a.lk) : Family b.lk :=
  hfam.congr h.free h.kids

theorem V_sound (h : Placed K a place) (hfam : Family a.lk) (hnd : Nodups a.lk)
    (hcur : a.currentProc = some p) (hwait : a.waiting = false)
    (hdev : ¬ K.IsDev a.sysOld.a1) : Sound K a.V := by
  let b := a.setInt a.sysOld.a1 (a.mem a.sysOld.a1 + 1)
  have hb : Placed K b place := h.congr rfl rfl rfl rfl rfl rfl rfl
  have hq := wake_quiet b a.sysOld.a1
  by_cases hle : (a.mem a.sysOld.a1 + 1).toInt ≤ 0
  · rw [Abs.V_of_le hle]
    obtain ⟨place', h'⟩ := hb.wake (w := a.sysOld.a1) (hnd.blocked _) hdev
    exact ldst_sound h' (hq.family hfam) (hq.currentProc.trans hcur) (hq.waiting.trans hwait) _
  · rw [Abs.V_of_not_le hle]
    exact ldst_sound hb hfam hcur hwait _

/-! ## Birth and death -/

theorem createprocess_sound (h : Placed K a place) (hfam : Family a.lk) (hnd : Nodups a.lk)
    (hcur : a.currentProc = some p) (hwait : a.waiting = false) :
    Sound K (a.createprocess p) := by
  cases hfree : a.lk.free with
  | nil =>
      simp only [Abs.createprocess, hfree]
      exact ⟨⟨⟨place, h.congr rfl rfl rfl rfl rfl rfl rfl⟩, hfam⟩, ⟨p, hcur⟩, hwait⟩
  | cons c fs =>
      have hndf := hnd.free
      rw [hfree] at hndf
      have hcf : c ∈ a.lk.free := by simp [hfree]
      have hpf : p ∉ a.lk.free := (h.out hcur).free
      have hkids : a.lk.kids c = [] := by
        cases hkids : a.lk.kids c with
        | nil => rfl
        | cons d ds => exact absurd hcf (hfam.parent d c (by simp [hkids]))
      have hne : c ≠ p := by
        rintro rfl
        exact hpf hcf
      have hsub : ∀ q, q ≠ c → q ∉ a.lk.free → q ∉ fs := by
        intro q _ hq hmem
        exact hq (by simp [hfree, hmem])
      have hfam' : Family { a.lk with
          free := fs, ready := a.lk.ready ++ [c]
          kids := Function.update a.lk.kids p (c :: a.lk.kids p) } := by
        refine ⟨hfam.acyclic.insert hkids (fun q hq => hfam.child c q hq hcf) hne, ?_, ?_⟩
        · intro x q hx
          by_cases hxc : x = c
          · subst hxc
            exact (List.nodup_cons.mp hndf).1
          · refine hsub x hxc (hfam.child x q ?_)
            by_cases hqp : q = p
            · subst hqp
              simpa [hxc] using hx
            · simpa [Function.update_of_ne hqp] using hx
        · intro x q hx hq
          by_cases hqp : q = p
          · subst hqp
            exact hpf (by simp [hfree, hq])
          · simp only [Function.update_of_ne hqp] at hx
            exact hfam.parent x q hx (by simp [hfree, hq])
      have hpl := h.create (c := p) hfree hndf
      simp only [Abs.createprocess, hfree] at hpl ⊢
      exact ldst_sound hpl hfam' hcur hwait _

theorem die_sound (h : Placed K a place) (hfam : Family a.lk) (hnd : a.lk.ready.Nodup)
    (hu : UniqueParents a.lk.kids) (hcur : a.currentProc = some p) : Sound K (a.die K p) := by
  have hv := victims h hfam hu hcur
  obtain ⟨place', h'⟩ := h.kill hv hcur
  have hready : (a.kill K p).lk.ready = a.lk.ready.filter (· ∉ a.lk.descendants p) :=
    foldl_reap_ready _ _
  apply schedule_sound h' (hfam.kill hu hv)
  · rw [hready]
    exact hnd.filter _
  · rfl

/-! ## System calls and traps -/

/-- What a service may rely on. -/
structure Serves (K : Layout) (a : Abs) (p : Pcb) : Prop where
  placed : ∃ place, Placed K a place
  family : Family a.lk
  nodups : Nodups a.lk
  parents : UniqueParents a.lk.kids
  current : a.currentProc = some p
  awake : a.waiting = false

theorem Serves.congr {b : Abs} (h : Serves K a p) (hlk : b.lk = a.lk)
    (hcur : b.currentProc = a.currentProc) (hsem : b.pcb.pSemAdd = a.pcb.pSemAdd)
    (hcnt : b.procCnt = a.procCnt) (hsft : b.sftBlkCnt = a.sftBlkCnt)
    (hwait : b.waiting = a.waiting) : Serves K b p := by
  obtain ⟨⟨place, hpl⟩, hfam, hnd, hu, hcurrent, hawake⟩ := h
  refine ⟨⟨place, hpl.congr ?_ ?_ ?_ hcur hsem hcnt hsft⟩, ?_, ?_, ?_, hcur.trans hcurrent,
    hwait.trans hawake⟩
  all_goals rw [hlk]
  all_goals assumption

namespace Serves

theorem ldst (h : Serves K a p) (st : State) : Sound K ⟨a, .ldst st⟩ := by
  obtain ⟨place, hpl⟩ := h.placed
  exact ldst_sound hpl h.family h.current h.awake st

theorem returns (h : Serves K a p) {m : AbsMachine} {st : State} (hcpu : m.cpu = .ldst st)
    (hlk : m.nuc.lk = a.lk) (hcur : m.nuc.currentProc = a.currentProc)
    (hsem : m.nuc.pcb.pSemAdd = a.pcb.pSemAdd) (hcnt : m.nuc.procCnt = a.procCnt)
    (hsft : m.nuc.sftBlkCnt = a.sftBlkCnt) (hwait : m.nuc.waiting = a.waiting) : Sound K m := by
  obtain ⟨b, c⟩ := m
  obtain rfl : c = .ldst st := hcpu
  exact (h.congr (b := b) hlk hcur hsem hcnt hsft hwait).ldst st

theorem die (h : Serves K a p) : Sound K (a.die K p) := by
  obtain ⟨place, hpl⟩ := h.placed
  exact die_sound hpl h.family h.nodups.ready h.parents h.current

theorem waitDev (h : Serves K a p) (hdev : K.IsDev w) : Sound K (a.waitDev p w) := by
  obtain ⟨place, hpl⟩ := h.placed
  exact waitDev_sound hpl h.family h.nodups.ready h.current h.awake hdev

theorem passUp (h : Serves K a p) (new old : Word) (trap : State) :
    Sound K (a.passUp K p new old trap) := by
  by_cases hnew : new = NULL
  · rw [Abs.passUp_null hnew]
    exact h.die
  · rw [Abs.passUp_of_ne hnew]
    exact h.returns rfl rfl rfl rfl rfl rfl rfl

theorem spectrapvec (h : Serves K a p) : Sound K (a.spectrapvec K p) := by
  unfold Abs.spectrapvec
  simp only
  split_ifs
  · exact h.returns rfl rfl rfl rfl rfl rfl rfl
  · exact h.returns rfl rfl rfl rfl rfl rfl rfl
  · exact h.returns rfl rfl rfl rfl rfl rfl rfl
  · exact h.die

theorem sysSwitch (h : Serves K a p)
    (hsem : a.sysOld.a0 = VERHOGEN ∨ a.sysOld.a0 = PASSEREN → K.UserWord a.sysOld.a1)
    (hslot : a.sysOld.a0 = WAITIO → ¬ a.sysOld.a1 < DISKINT →
      (waitioIndex a.sysOld.a1 a.sysOld.a2 a.sysOld.a3).toNat < DEVICECNT) :
    Sound K (a.sysSwitch K p a.sysOld.a0) := by
  obtain ⟨place, hpl⟩ := h.placed
  unfold Abs.sysSwitch
  split_ifs with h1 h2 h3 h4 h5 h6 h7 h8 h9
  · exact createprocess_sound hpl h.family h.nodups h.current h.awake
  · exact h.die
  · exact V_sound hpl h.family h.nodups h.current h.awake (hsem (.inl h3)).2.2
  · exact P_sound hpl h.family h.nodups.ready h.current h.awake (hsem (.inr h4)).semAddr
      (hsem (.inr h4)).2.2
  · exact h.spectrapvec
  · exact h.returns rfl rfl rfl rfl rfl rfl rfl
  · exact h.waitDev Layout.isDev_clock
  · exact h.die
  · exact h.waitDev (Layout.isDev_semDev (hslot h8 h9))
  · exact h.passUp _ _ _

theorem sysCall (h : Serves K a p)
    (hsem : a.sysOld.a0 = VERHOGEN ∨ a.sysOld.a0 = PASSEREN → ¬ a.sysOld.Privileged →
      K.UserWord a.sysOld.a1)
    (hslot : a.sysOld.a0 = WAITIO → ¬ a.sysOld.Privileged → ¬ a.sysOld.a1 < DISKINT →
      (waitioIndex a.sysOld.a1 a.sysOld.a2 a.sysOld.a3).toNat < DEVICECNT) :
    Sound K (a.sysCall K p) := by
  by_cases hp : a.sysOld.Privileged
  · rw [Abs.sysCall, if_pos hp]
    exact Serves.passUp (a := { a with pgmOld := a.sysOld.reserved })
      (h.congr rfl rfl rfl rfl rfl rfl) _ _ _
  · rw [Abs.sysCall, if_neg hp]
    exact Serves.sysSwitch (a := { a with sysOld := a.sysOld.advance })
      (h.congr rfl rfl rfl rfl rfl rfl) (fun hc => hsem hc hp) (fun hc => hslot hc hp)

end Serves

/-! ## Interrupts -/

theorem leaveHandler_sound (h : Placed K a place) (hfam : Family a.lk) (hnd : a.lk.ready.Nodup)
    (halive : (∃ p, a.currentProc = some p) ∧ a.waiting = false ∨
      a.currentProc = none ∧ a.waiting = true) (timeStart : Int) :
    Sound K (a.leaveHandler timeStart) := by
  rcases halive with ⟨⟨p, hcur⟩, hwait⟩ | ⟨hcur, hwait⟩
  · rw [Abs.leaveHandler_awake hwait]
    exact ⟨⟨⟨place, h.congr rfl rfl rfl rfl rfl rfl rfl⟩, hfam⟩, ⟨p, hcur⟩, hwait⟩
  · rw [Abs.leaveHandler_waiting hwait]
    exact schedule_sound h hfam hnd hcur

theorem preempt_sound (h : Placed K a place) (hfam : Family a.lk) (hnd : Nodups a.lk)
    (timeStart : Int) : Sound K (a.endQuantum timeStart).schedule := by
  cases hcur : a.currentProc with
  | none =>
      have hpre : a.tick.preempt timeStart (a.tod a.reads) = a.tick := by
        simp only [Abs.preempt, Abs.tick, hcur]
      have hend : a.endQuantum timeStart = { a.tick with timer := QUANTUM } := by
        rw [Abs.endQuantum, hpre]
      rw [hend]
      exact schedule_sound (h.congr rfl rfl rfl rfl rfl rfl rfl) hfam hnd.ready hcur
  | some p =>
      have hout : p ∉ a.lk.ready := (h.out hcur).ready
      have hpl : Placed K (a.endQuantum timeStart) (Function.update place p .ready) :=
        (h.tick.preempt timeStart (a.tod a.reads) hcur).congr rfl rfl rfl rfl rfl rfl rfl
      apply schedule_sound hpl
      · apply hfam.congr <;> simp only [Abs.endQuantum, Abs.preempt, Abs.tick, hcur]
      · simp only [Abs.endQuantum, Abs.preempt, Abs.tick, hcur]
        rw [List.nodup_append]
        refine ⟨hnd.ready, List.nodup_singleton p, ?_⟩
        rintro u hu v hv rfl
        rw [List.mem_singleton] at hv
        exact hout (hv ▸ hu)
      · simp only [Abs.endQuantum, Abs.preempt, Abs.tick, hcur]

theorem interrupt_sound (h : Placed K a place) (hfam : Family a.lk) {lk : Ptrs}
    (hshape : Shape lk a.lk)
    (halive : (∃ p, a.currentProc = some p) ∧ a.waiting = false ∨
      a.currentProc = none ∧ a.waiting = true)
    (hs : a.Served K) : Sound K (a.interrupt K) := by
  have hnd := hshape.nodups
  -- the handler returns to its end in a state `b` with the same running process
  have hleave : ∀ {b : Abs} {lk' : Ptrs}, Shape lk' b.lk → (∃ place', Placed K b place') →
      Quiet a.tick b → Sound K (b.leaveHandler (a.tod a.reads)) := by
    rintro b lk' hshape' ⟨place', h'⟩ hq
    apply leaveHandler_sound h' (hq.family hfam) hshape'.nodups.ready
    rw [hq.currentProc, hq.waiting]
    exact halive
  rcases findLineNo_cases a.intOld.sCause with h0 | h1 | h2 | ⟨h3, -⟩
  · exact absurd h0 hs.line
  · rw [Abs.interrupt_ploc h1]
    exact preempt_sound h.tick hfam hnd _
  · rw [Abs.interrupt_ivtim h2]
    have hq := wakeAll_quiet a.tick K.clock (a.lk.blocked K.clock)
    obtain ⟨lk', -, hshape', -⟩ := ivtimInterrupt_run h.tick hshape
    exact hleave hshape' (h.tick.clockTick (hnd.blocked _))
      ⟨hq.free, hq.kids, hq.currentProc, hq.waiting⟩
  · obtain ⟨hfound, hdev⟩ := hs.dev h3
    rw [Abs.interrupt_device rfl h3 hfound]
    have hq : Quiet a.tick (a.tick.device K (findLineNo a.intOld.sCause)) := by
      have hack : Quiet a.tick (a.tick.acked (findLineNo a.intOld.sCause)) := ⟨rfl, rfl, rfl, rfl⟩
      exact hack.trans (signal_quiet _ _ _)
    obtain ⟨lk', -, hshape'⟩ :=
      deviceInterrupt_runs h.tick hfound (Layout.semAddr_of_isDev hdev) lk hshape
    exact hleave hshape' (h.tick.device hdev (hnd.blocked _)) hq

end Kaya
