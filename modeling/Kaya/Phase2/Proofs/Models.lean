import Kaya.Lib.Kernel
import Kaya.Phase2.DeviceWait
import Kaya.Phase2.RoundRobin
import Kaya.Phase2.Semaphores

/-!
# The services over lists are operations of a kernel

A kernel knows neither memory nor the ready queue: who stands where is read off the lists, and
the value of a semaphore off its word.
-/

namespace Kaya

open Lib

def Place.standing : Place → Standing
  | free => .absent
  | running | ready => .ready
  | blocked _ => .blocked

/-- The lists of `a` and the words in `U` are the kernel `k`. -/
structure Models (K : Layout) (U : Word → Prop) (a : Abs) (k : Kernel Pcb Word) : Prop where
  standing : ∃ place, Placed K a place ∧ k.standing = Place.standing ∘ place
  ready : a.lk.ready.Nodup
  running : k.running = a.currentProc
  waiters : ∀ w, (k.sem w).waiters = a.lk.blocked w
  value : ∀ w, U w → (k.sem w).value = (a.mem w).toInt

/-- From `k` the operations that are asked for, between choices of the scheduler, lead to a kernel
for `a`. -/
def Leads (K : Layout) (U : Word → Prop) (k : Kernel Pcb Word) (asked : List (Kernel.Op Pcb Word))
    (a : Abs) : Prop :=
  ∃ os k', k.Goes os k' ∧ os.filter Kernel.Op.isService = asked ∧ Models K U a k'

variable {K : Layout} {U : Word → Prop} {a b : Abs} {k : Kernel Pcb Word} {p : Pcb} {w : Word}
  {ps : List Pcb} {soft : Int}

/-- Processes that were elsewhere join the ready queue. -/
theorem Placed.nodup_append {place : Pcb → Place} (h : Placed K a place)
    (hnd : a.lk.ready.Nodup) (hps : ps.Nodup) (hout : ∀ p ∈ ps, place p ≠ .ready) :
    (a.lk.ready ++ ps).Nodup :=
  List.nodup_append.mpr ⟨hnd, hps, fun _ hq p hp heq =>
    h.notMem_ready (hout p hp) (heq ▸ hq)⟩

theorem Placed.nodup_concat {place : Pcb → Place} (h : Placed K a place)
    (hnd : a.lk.ready.Nodup) (hout : place p ≠ .ready) : (a.lk.ready ++ [p]).Nodup :=
  h.nodup_append hnd (by simp) (by simpa using hout)

theorem Models.leads (h : Models K U a k) : Leads K U k [] a := ⟨[], k, .refl, rfl, h⟩

theorem Leads.ask {o : Kernel.Op Pcb Word} (h : Leads K U (k.perform o) [] a) (hallow : k.Allows o) :
    Leads K U k ([o].filter Kernel.Op.isService) a := by
  obtain ⟨os, k', hgoes, hnone, hmodels⟩ := h
  refine ⟨os ++ [o], k', (Kernel.Goes.one hallow).trans hgoes, ?_, hmodels⟩
  rw [List.filter_append, hnone, List.nil_append]

namespace Models

/-- Only the lists, the counters and the words of the semaphores matter. -/
theorem congr (h : Models K U a k) (hfree : b.lk.free = a.lk.free)
    (hready : b.lk.ready = a.lk.ready) (hblocked : b.lk.blocked = a.lk.blocked)
    (hcur : b.currentProc = a.currentProc) (hsem : b.pcb.pSemAdd = a.pcb.pSemAdd)
    (hcnt : b.procCnt = a.procCnt) (hsft : b.sftBlkCnt = a.sftBlkCnt)
    (hmem : ∀ w, U w → b.mem w = a.mem w) : Models K U b k := by
  obtain ⟨place, hpl, hst⟩ := h.standing
  refine ⟨⟨place, hpl.congr hfree hready hblocked hcur hsem hcnt hsft, hst⟩, ?_, ?_, ?_, ?_⟩
  · rw [hready]
    exact h.ready
  · rw [hcur]
    exact h.running
  · rw [hblocked]
    exact h.waiters
  · intro w hw
    rw [hmem w hw]
    exact h.value w hw

theorem lines (h : Models K U a k) {s : Semaphore Pcb} (v : Word) :
    ((k.setSem w s).sem v).waiters = Function.update a.lk.blocked w s.waiters v := by
  by_cases hv : v = w
  · rw [hv, Kernel.setSem_self, Function.update_self]
  · rw [Kernel.setSem_of_ne hv, Function.update_of_ne hv]
    exact h.waiters v

theorem values (h : Models K U a k) {s : Semaphore Pcb} {x : Word} (hx : s.value = x.toInt)
    (v : Word) (hv : U v) :
    ((k.setSem w s).sem v).value = (Function.update a.mem w x v).toInt := by
  by_cases hvw : v = w
  · rw [hvw, Kernel.setSem_self, Function.update_self]
    exact hx
  · rw [Kernel.setSem_of_ne hvw, Function.update_of_ne hvw]
    exact h.value v hv

/-! ## Semaphores -/

/-- No more processes wait than there are. -/
theorem low (h : Models K U a k) (hnd : (a.lk.blocked w).Nodup) : -20 ≤ (k.sem w).value := by
  have hbal := (k.sem w).balance
  have hcard := hnd.length_le_card
  rw [Fintype.card_fin, ← h.waiters] at hcard
  have h20 : MAXPROC = 20 := rfl
  omega

theorem pred (h : Models K U a k) (hnd : (a.lk.blocked w).Nodup) (hw : U w) :
    (a.mem w - 1).toInt = (k.sem w).value - 1 := by
  have hlow := h.low hnd
  have hval := h.value w hw
  rw [toInt_pred (by omega), hval]

theorem passes (h : Models K U a k) (hnd : (a.lk.blocked w).Nodup) (hw : U w)
    (hneg : ¬ (a.mem w - 1).toInt < 0) :
    Models K U (a.setInt w (a.mem w - 1)) (k.perform (.down p w)) := by
  obtain ⟨place, hpl, hst⟩ := h.standing
  have hpred := h.pred hnd hw
  have hpos : 0 < (k.sem w).value := by omega
  have hline : ((k.sem w).down p).waiters = a.lk.blocked w := by
    rw [← h.waiters]
    exact if_neg (by omega)
  rw [Kernel.down_passes hpos]
  constructor
  case standing => exact ⟨place, hpl.congr rfl rfl rfl rfl rfl rfl rfl, hst⟩
  case ready => exact h.ready
  case running => exact h.running
  case waiters =>
    intro v
    rw [h.lines, hline, Function.update_eq_self]
    rfl
  case value => exact h.values hpred.symm

theorem waits (h : Models K U a k) (hnd : (a.lk.blocked w).Nodup) (hw : U w)
    (hneg : (a.mem w - 1).toInt < 0) (hcur : a.currentProc = some p) (haddr : SemAddr w)
    (hsoft : soft = weight K.IsDev w) :
    Models K U ((a.setInt w (a.mem w - 1)).block soft p w) (k.perform (.down p w)) := by
  obtain ⟨place, hpl, hst⟩ := h.standing
  have hpred := h.pred hnd hw
  have hpos : ¬ 0 < (k.sem w).value := by omega
  have hset : Placed K (a.setInt w (a.mem w - 1)) place := hpl.congr rfl rfl rfl rfl rfl rfl rfl
  have hline : ((k.sem w).down p).waiters = a.lk.blocked w ++ [p] := by
    rw [← h.waiters]
    exact if_pos (by omega)
  rw [Kernel.down_waits hpos]
  constructor
  case standing =>
    refine ⟨_, hset.block hcur haddr hsoft, ?_⟩
    rw [Function.comp_update, ← hst]
    rfl
  case ready => exact h.ready
  case running => rfl
  case waiters =>
    intro v
    refine (h.lines v).trans ?_
    rw [hline]
    rfl
  case value => exact h.values hpred.symm

theorem succ (h : Models K U a k) (hw : U w) (hhigh : (a.mem w).toInt + 1 < 2 ^ 31) :
    (a.mem w + 1).toInt = (k.sem w).value + 1 := by
  rw [toInt_succ hhigh, h.value w hw]

theorem unawaited (h : Models K U a k) (hw : U w)
    (hhigh : (a.mem w).toInt + 1 < 2 ^ 31) (hpos : ¬ (a.mem w + 1).toInt ≤ 0) :
    Models K U (a.setInt w (a.mem w + 1)) (k.perform (.up w)) := by
  obtain ⟨place, hpl, hst⟩ := h.standing
  have hsucc := h.succ hw hhigh
  have hnil : (k.sem w).waiters = [] := by
    rw [Semaphore.waiters_eq_nil_iff]
    omega
  have hline : (k.sem w).up.waiters = a.lk.blocked w := by
    rw [← h.waiters, hnil]
    exact congrArg List.tail hnil
  rw [Kernel.up_nil hnil]
  constructor
  case standing => exact ⟨place, hpl.congr rfl rfl rfl rfl rfl rfl rfl, hst⟩
  case ready => exact h.ready
  case running => exact h.running
  case waiters =>
    intro v
    rw [h.lines, hline, Function.update_eq_self]
    rfl
  case value => exact h.values hsucc.symm

theorem wakes (h : Models K U a k) (hnd : (a.lk.blocked w).Nodup) (hw : U w)
    (hhigh : (a.mem w).toInt + 1 < 2 ^ 31) (hq : a.lk.blocked w = p :: ps)
    (hsoft : soft = weight K.IsDev w) :
    Models K U ((a.setInt w (a.mem w + 1)).unblock soft w p ps) (k.perform (.up w)) := by
  obtain ⟨place, hpl, hst⟩ := h.standing
  have hset : Placed K (a.setInt w (a.mem w + 1)) place := hpl.congr rfl rfl rfl rfl rfl rfl rfl
  have hcons : (k.sem w).waiters = p :: ps := (h.waiters w).trans hq
  have hline : (k.sem w).up.waiters = ps := congrArg List.tail hcons
  rw [hq] at hnd
  rw [Kernel.up_cons hcons]
  constructor
  case standing =>
    refine ⟨_, hset.unblock hq hnd hsoft, ?_⟩
    rw [Function.comp_update, ← hst]
    rfl
  case ready =>
    have hp : place p = .blocked w := ((hpl.spot p).blocked w).mp (by simp [hq])
    exact hpl.nodup_concat h.ready (by simp [hp])
  case running => exact h.running
  case waiters =>
    intro v
    refine (h.lines v).trans ?_
    rw [hline]
    rfl
  case value => exact h.values (h.succ hw hhigh).symm

/-- Somebody waits for a semaphore whose value is below 0. -/
theorem awaited (h : Models K U a k) (hw : U w)
    (hhigh : (a.mem w).toInt + 1 < 2 ^ 31) (hle : (a.mem w + 1).toInt ≤ 0) :
    a.lk.blocked w ≠ [] := by
  have hsucc := h.succ hw hhigh
  intro hnil
  rw [← h.waiters, Semaphore.waiters_eq_nil_iff] at hnil
  omega

theorem V (h : Models K U a k) (hnd : (a.lk.blocked a.sysOld.a1).Nodup) (hw : U a.sysOld.a1)
    (hdev : ¬ K.IsDev a.sysOld.a1) (hhigh : (a.mem a.sysOld.a1).toInt + 1 < 2 ^ 31) :
    Models K U a.V.nuc (k.perform (.up a.sysOld.a1)) := by
  by_cases hle : (a.mem a.sysOld.a1 + 1).toInt ≤ 0
  · rw [Abs.V_of_le hle]
    cases hq : a.lk.blocked a.sysOld.a1 with
    | nil => exact absurd hq (h.awaited hw hhigh hle)
    | cons p ps =>
        have hwake : (a.setInt a.sysOld.a1 (a.mem a.sysOld.a1 + 1)).wake a.sysOld.a1 =
            (a.setInt a.sysOld.a1 (a.mem a.sysOld.a1 + 1)).unblock 0 a.sysOld.a1 p ps :=
          Abs.wake_cons hq
        rw [hwake]
        exact h.wakes hnd hw hhigh hq (weight_of_not hdev).symm
  · rw [Abs.V_of_not_le hle]
    exact h.unawaited hw hhigh hle

theorem signal (h : Models K U a k) (hnd : (a.lk.blocked w).Nodup) (hw : U w) (hdev : K.IsDev w)
    (hhigh : (a.mem w).toInt + 1 < 2 ^ 31) (status : Word) :
    Models K U (a.signal w status) (k.perform (.up w)) := by
  by_cases hle : (a.mem w + 1).toInt ≤ 0
  · cases hq : a.lk.blocked w with
    | nil => exact absurd hq (h.awaited hw hhigh hle)
    | cons p ps =>
        rw [Abs.signal_cons hle hq]
        exact (h.wakes hnd hw hhigh hq (weight_of hdev).symm).congr rfl rfl rfl rfl rfl
          rfl rfl fun _ _ => rfl
  · rw [Abs.signal_of_pos hle]
    exact (h.unawaited hw hhigh hle).congr rfl rfl rfl rfl rfl rfl rfl fun _ _ => rfl

end Models

/-! ## The clock -/

theorem wakeAll_ready (a : Abs) (w : Word) (ps : List Pcb) :
    (a.wakeAll w ps).lk.ready = a.lk.ready ++ ps := by
  induction ps generalizing a with
  | nil => exact (List.append_nil _).symm
  | cons p ps ih =>
      rw [Abs.wakeAll, ih]
      exact List.append_assoc ..

theorem Placed.wakesAll {place : Pcb → Place} (h : Placed K a place) (hdev : K.IsDev w)
    (hq : a.lk.blocked w = ps) (hnd : ps.Nodup) :
    Placed K (a.wakeAll w ps) fun p => if p ∈ ps then .ready else place p := by
  induction ps generalizing a place with
  | nil => simpa [Abs.wakeAll] using h
  | cons p ps ih =>
      have hrest := ih (h.unblock hq hnd (weight_of hdev).symm) (by simp [Abs.unblock])
        (List.nodup_cons.mp hnd).2
      have hplace : (fun q => if q ∈ ps then Place.ready else Function.update place p .ready q) =
          fun q => if q ∈ p :: ps then Place.ready else place q := by
        funext q
        by_cases hqp : q = p
        · simp [hqp]
        · simp [hqp]
      rwa [hplace] at hrest

namespace Models

theorem clockTick (h : Models K U a k) (hnd : (a.lk.blocked K.clock).Nodup) :
    Models K U (a.clockTick K) (k.perform (.flush K.clock)) := by
  obtain ⟨place, hpl, hst⟩ := h.standing
  have hq := wakeAll_quiet a K.clock (a.lk.blocked K.clock)
  constructor
  case standing =>
    refine ⟨_, (hpl.wakesAll Layout.isDev_clock rfl hnd).congr rfl rfl rfl rfl rfl rfl rfl, ?_⟩
    funext p
    change (if p ∈ (k.sem K.clock).waiters then Standing.ready else k.standing p) = _
    rw [h.waiters, hst]
    by_cases hp : p ∈ a.lk.blocked K.clock <;> simp [hp, Place.standing]
  case ready =>
    have hready : (a.clockTick K).lk.ready = a.lk.ready ++ a.lk.blocked K.clock :=
      wakeAll_ready ..
    rw [hready]
    apply hpl.nodup_append h.ready hnd
    intro p hp
    rw [((hpl.spot p).blocked _).mp hp]
    simp
  case running => exact h.running.trans hq.currentProc.symm
  case waiters =>
    intro v
    have hblk : (a.clockTick K).lk.blocked = Function.update a.lk.blocked K.clock [] :=
      wakeAll_blocked rfl
    rw [hblk]
    exact h.lines v
  case value =>
    intro v hv
    by_cases hvc : v = K.clock
    · subst hvc
      have hmem : (a.clockTick K).mem K.clock = 0 := Function.update_self ..
      rw [hmem]
      exact congrArg Semaphore.value (Kernel.setSem_self _)
    · have hmem : (a.clockTick K).mem v = a.mem v :=
        Function.update_of_ne hvc ..
      rw [hmem]
      exact (congrArg Semaphore.value (Kernel.setSem_of_ne hvc)).trans (h.value v hv)

/-! ## Birth, death and the processor -/

theorem createprocess (h : Models K U a k) {c : Pcb} (hfree : a.lk.free = p :: ps)
    (hnd : a.lk.free.Nodup) : Models K U (a.createprocess c).nuc (k.perform (.create p)) := by
  obtain ⟨place, hpl, hst⟩ := h.standing
  rw [hfree] at hnd
  constructor
  case standing =>
    refine ⟨_, hpl.create hfree hnd, ?_⟩
    rw [Function.comp_update, ← hst]
    rfl
  case ready =>
    have hp : place p = .free := (hpl.spot p).free.mp (by simp [hfree])
    have hready : (a.createprocess c).nuc.lk.ready = a.lk.ready ++ [p] := by
      simp only [Abs.createprocess, hfree]
    rw [hready]
    exact hpl.nodup_concat h.ready (by simp [hp])
  case running =>
    have hcur : (a.createprocess c).nuc.currentProc = a.currentProc := by
      simp only [Abs.createprocess, hfree]
    exact h.running.trans hcur.symm
  case waiters =>
    rw [createprocess_blocked]
    exact h.waiters
  case value =>
    rw [createprocess_mem]
    exact h.value

theorem reapCurrent (h : Models K U a k) (hcur : a.currentProc = some p) :
    Models K U (a.reapCurrent p) (k.perform (.exit p)) := by
  obtain ⟨place, hpl, hst⟩ := h.standing
  constructor
  case standing =>
    refine ⟨_, hpl.reapCurrent hcur, ?_⟩
    rw [Function.comp_update, ← hst]
    rfl
  case ready => exact h.ready
  case running => rfl
  case waiters => exact h.waiters
  case value => exact h.value

theorem endQuantum (h : Models K U a k) (t : Int) :
    Models K U (a.endQuantum t) (k.perform .pause) := by
  obtain ⟨place, hpl, hst⟩ := h.standing
  cases hcur : a.currentProc with
  | none =>
      have hpre : a.tick.preempt t (a.tod a.reads) = a.tick := by
        simp only [Abs.preempt, Abs.tick, hcur]
      have hend : a.endQuantum t = { a.tick with timer := QUANTUM } := by
        rw [Abs.endQuantum, hpre]
      rw [hend]
      exact ⟨⟨place, hpl.congr rfl rfl rfl rfl rfl rfl rfl, hst⟩, h.ready, hcur.symm, h.waiters,
        h.value⟩
  | some p =>
      have hp : place p = .running := (hpl.spot p).running.mp hcur
      constructor
      case standing =>
        refine ⟨Function.update place p .ready, ?_, ?_⟩
        · have hpre := hpl.tick.preempt t (a.tod a.reads) hcur
          exact hpre.congr rfl rfl rfl rfl rfl rfl rfl
        · have hready : Place.standing .ready = (Place.standing ∘ place) p := by
            rw [Function.comp_apply, hp]
            rfl
          rw [Function.comp_update, hready, Function.update_eq_self]
          exact hst
      case ready =>
        simp only [Abs.endQuantum, Abs.preempt, Abs.tick, hcur]
        exact hpl.nodup_concat h.ready (by simp [hp])
      case running => simp only [Abs.endQuantum, Abs.preempt, Abs.tick, hcur, Kernel.perform]
      case waiters =>
        rw [endQuantum_blocked]
        exact h.waiters
      case value =>
        rw [endQuantum_mem]
        exact h.value

theorem schedule (h : Models K U a k) (hcur : a.currentProc = none) :
    Leads K U k [] a.schedule.nuc := by
  obtain ⟨place, hpl, hst⟩ := h.standing
  have hworld := schedule_world a
  cases hready : a.lk.ready with
  | nil =>
      refine (h.congr hworld.free ?_ hworld.blocked ?_ (by rw [hworld.pcb]) hworld.procCnt
        hworld.sftBlkCnt fun w _ => by rw [hworld.mem]).leads
      all_goals
        unfold Abs.schedule
        simp only [hready]
        split_ifs <;> first | exact hready | rfl
  | cons p ps =>
      have hp : place p = .ready := (hpl.spot p).ready.mp (by simp [hready])
      have hstand : k.standing p = .ready := by rw [hst, Function.comp_apply, hp]; rfl
      have hnd := h.ready
      rw [hready] at hnd
      refine Leads.ask (o := .dispatch p) (Models.leads ?_) ⟨h.running.trans hcur, hstand⟩
      constructor
      case standing =>
        refine ⟨_, hpl.dispatch hcur hready hnd, ?_⟩
        have hrun : Place.standing .running = (Place.standing ∘ place) p := by
          rw [Function.comp_apply, hp]
          rfl
        rw [Function.comp_update, hrun, Function.update_eq_self]
        exact hst
      case ready =>
        simp only [Abs.schedule, hready]
        exact hnd.of_cons
      case running => simp only [Abs.schedule, hready, Kernel.perform]
      case waiters =>
        rw [hworld.blocked]
        exact h.waiters
      case value =>
        rw [hworld.mem]
        exact h.value

theorem leaveHandler (h : Models K U a k) (hcur : a.waiting = true → a.currentProc = none)
    (t : Int) : Leads K U k [] (a.leaveHandler t).nuc := by
  cases hwait : a.waiting with
  | true =>
      rw [Abs.leaveHandler_waiting hwait]
      exact h.schedule (hcur hwait)
  | false =>
      rw [Abs.leaveHandler_awake hwait]
      have hhandled : Models K U (a.handled t) k :=
        h.congr rfl rfl rfl rfl rfl rfl rfl fun _ _ => rfl
      exact hhandled.leads

/-- A process that waits gives the processor away. -/
theorem P (h : Models K U a k) (hnd : (a.lk.blocked a.sysOld.a1).Nodup) (hw : U a.sysOld.a1)
    (hcur : a.currentProc = some p) (haddr : SemAddr a.sysOld.a1) (hdev : ¬ K.IsDev a.sysOld.a1) :
    Leads K U k [.down p a.sysOld.a1] (a.P p).nuc := by
  have hallow : k.Allows (.down p a.sysOld.a1) := h.running.trans hcur
  by_cases hneg : (a.mem a.sysOld.a1 - 1).toInt < 0
  · rw [Abs.P_of_neg hneg]
    have hwaits := h.waits hnd hw hneg hcur haddr (weight_of_not hdev).symm
    exact (hwaits.schedule rfl).ask hallow
  · rw [Abs.P_of_not_neg hneg]
    exact (h.passes hnd hw hneg).leads.ask hallow

theorem waitDev (h : Models K U a k) (hnd : (a.lk.blocked w).Nodup) (hw : U w) (hdev : K.IsDev w)
    (hcur : a.currentProc = some p) : Leads K U k [.down p w] (a.waitDev p w).nuc := by
  have hallow : k.Allows (.down p w) := h.running.trans hcur
  by_cases hneg : (a.mem w - 1).toInt < 0
  · rw [Abs.waitDev_of_neg hneg]
    have hwaits := h.waits hnd hw hneg hcur (Layout.semAddr_of_isDev hdev)
      (weight_of hdev).symm
    exact (hwaits.schedule rfl).ask hallow
  · rw [Abs.waitDev_of_not_neg hneg]
    exact (h.passes hnd hw hneg).leads.ask hallow

end Models

end Kaya
