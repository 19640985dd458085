import Kaya.Phase2.Abstract
import Kaya.Lib.Count
import Kaya.Phase1.Proofs.Alloc

/-!
# The invariant of the nucleus

Every process is in one place, and the two counters that the nucleus keeps by
hand count places.  A service moves one process at a time, so each of its steps
is an update of the map of places.
-/

namespace Kaya

open Lib

/-- Where a process can be. -/
inductive Place where
  | free
  | running
  | ready
  | blocked (w : Word)
  deriving DecidableEq

namespace Place

def semAdd : Place → Word
  | blocked w => w
  | _ => NULL

def Soft (K : Layout) : Place → Prop
  | blocked w => K.IsDev w
  | _ => False

instance (K : Layout) : DecidablePred (Soft K)
  | blocked w => inferInstanceAs (Decidable (K.IsDev w))
  | free | running | ready => isFalse id

def Live : Place → Prop
  | free => False
  | _ => True

instance : DecidablePred Live
  | free => isFalse id
  | running | ready | blocked _ => isTrue trivial

end Place

@[simp] theorem weight_soft_blocked (K : Layout) (w : Word) :
    weight (Place.Soft K) (.blocked w) = weight K.IsDev w := rfl

@[simp] theorem weight_soft_of_not_blocked (K : Layout) {x : Place}
    (hx : ∀ w, x ≠ .blocked w) : weight (Place.Soft K) x = 0 := by
  cases x with
  | blocked w => exact absurd rfl (hx w)
  | free | running | ready => rfl

@[simp] theorem weight_live_free : weight Place.Live .free = 0 := rfl

@[simp] theorem weight_live_of_ne {x : Place} (hx : x ≠ .free) :
    weight Place.Live x = 1 := by
  cases x with
  | free => exact absurd rfl hx
  | running | ready | blocked => rfl

/-- `p` is at `x` and nowhere else. -/
structure At (a : Abs) (p : Pcb) (x : Place) : Prop where
  free : p ∈ a.lk.free ↔ x = .free
  running : a.currentProc = some p ↔ x = .running
  ready : p ∈ a.lk.ready ↔ x = .ready
  blocked : ∀ w, p ∈ a.lk.blocked w ↔ x = .blocked w

/-- `place` says where every process is, and the nucleus's own records agree. -/
structure Placed (K : Layout) (a : Abs) (place : Pcb → Place) : Prop where
  spot : ∀ p, At a p (place p)
  semAdd : ∀ p, a.pcb.pSemAdd p = (place p).semAdd
  addr : ∀ p w, place p = .blocked w → SemAddr w
  procCnt : a.procCnt = count Place.Live place
  sftBlkCnt : a.sftBlkCnt = count (Place.Soft K) place

/-- No process is in a list twice. -/
structure Nodups (l : Lists) : Prop where
  free : l.free.Nodup
  ready : l.ready.Nodup
  blocked : ∀ w, (l.blocked w).Nodup

/-- The process tree has no cycles and only live processes. -/
structure Family (l : Lists) : Prop where
  acyclic : Acyclic l.kids
  child : ∀ p q, p ∈ l.kids q → p ∉ l.free
  parent : ∀ p q, p ∈ l.kids q → q ∉ l.free

structure Inv (K : Layout) (a : Abs) : Prop where
  placed : ∃ place, Placed K a place
  family : Family a.lk

namespace Placed

variable {K : Layout} {a b : Abs} {place : Pcb → Place} {p : Pcb} {w : Word}

theorem disjoint (h : Placed K a place) : QueuesDisjoint a.lk.blocked := by
  intro v w p hv hw
  rw [(h.spot p).blocked] at hv hw
  simpa using hv.symm.trans hw

theorem sftBlkCnt_nonneg (h : Placed K a place) : 0 ≤ a.sftBlkCnt := by
  rw [h.sftBlkCnt]
  exact count_nonneg _ _

/-- Only the lists, `p_semAdd`, `currentProc` and the counters matter. -/
theorem congr (h : Placed K a place) (hfree : b.lk.free = a.lk.free)
    (hready : b.lk.ready = a.lk.ready) (hblocked : b.lk.blocked = a.lk.blocked)
    (hcur : b.currentProc = a.currentProc)
    (hsem : b.pcb.pSemAdd = a.pcb.pSemAdd) (hcnt : b.procCnt = a.procCnt)
    (hsft : b.sftBlkCnt = a.sftBlkCnt) : Placed K b place where
  spot p := ⟨by rw [hfree]; exact (h.spot p).free, by rw [hcur]; exact (h.spot p).running,
    by rw [hready]; exact (h.spot p).ready, by rw [hblocked]; exact (h.spot p).blocked⟩
  semAdd := by rw [hsem]; exact h.semAdd
  addr := h.addr
  procCnt := by rw [hcnt]; exact h.procCnt
  sftBlkCnt := by rw [hsft]; exact h.sftBlkCnt

/-- Moving one process: it is somewhere else, and the others stay. -/
theorem move (h : Placed K a place) {y : Place} (hp : At b p y)
    (hq : ∀ q x, q ≠ p → At a q x → At b q x)
    (hsem : b.pcb.pSemAdd = Function.update a.pcb.pSemAdd p y.semAdd)
    (haddr : ∀ w, y = .blocked w → SemAddr w)
    (hcnt : b.procCnt =
      a.procCnt - weight Place.Live (place p) + weight Place.Live y)
    (hsft : b.sftBlkCnt =
      a.sftBlkCnt - weight (Place.Soft K) (place p) + weight (Place.Soft K) y) :
    Placed K b (Function.update place p y) := by
  constructor
  case spot =>
    intro q
    by_cases hqp : q = p
    · subst hqp
      rwa [Function.update_self]
    · rw [Function.update_of_ne hqp]
      exact hq q _ hqp (h.spot q)
  case semAdd =>
    intro q
    rw [hsem]
    by_cases hqp : q = p
    · subst hqp
      rw [Function.update_self, Function.update_self]
    · rw [Function.update_of_ne hqp, Function.update_of_ne hqp]
      exact h.semAdd q
  case addr =>
    intro q w
    by_cases hqp : q = p
    · subst hqp
      rw [Function.update_self]
      exact haddr w
    · rw [Function.update_of_ne hqp]
      exact h.addr q w
  case procCnt => rw [hcnt, h.procCnt, count_update]
  case sftBlkCnt => rw [hsft, h.sftBlkCnt, count_update]

theorem update_semAdd (h : Placed K a place) {x : Place} (hp : place p = x)
    (hx : x.semAdd = NULL) :
    Function.update a.pcb.pSemAdd p NULL = a.pcb.pSemAdd := by
  have hnull : a.pcb.pSemAdd p = NULL := by rw [h.semAdd, hp, hx]
  rw [← hnull, Function.update_eq_self]

/-! ## The moves the nucleus makes -/

theorem unblock (h : Placed K a place) {ps : List Pcb} {soft : Int}
    (hq : a.lk.blocked w = p :: ps) (hnd : (p :: ps).Nodup)
    (hsoft : soft = weight K.IsDev w) :
    Placed K (a.unblock soft w p ps) (Function.update place p .ready) := by
  have hp : place p = .blocked w := ((h.spot p).blocked w).mp (by simp [hq])
  have hat := h.spot p
  rw [hp] at hat
  have hps : p ∉ ps := (List.nodup_cons.mp hnd).1
  apply h.move
  · constructor
    case blocked =>
      intro v
      by_cases hv : v = w
      · simp [Abs.unblock, hv, hps]
      · simp [Abs.unblock, Function.update_of_ne hv, hat.blocked, Ne.symm hv]
    all_goals simp [Abs.unblock, hat.free, hat.running]
  · intro q x hqp hx
    constructor
    case blocked =>
      intro v
      rw [← hx.blocked v]
      by_cases hv : v = w
      · simp [Abs.unblock, hv, hq, hqp]
      · simp [Abs.unblock, Function.update_of_ne hv]
    all_goals simp [Abs.unblock, hqp, hx.free, hx.running, hx.ready]
  · rfl
  · simp
  · simp [Abs.unblock, hp]
  · simp [Abs.unblock, hp, hsoft]

theorem block (h : Placed K a place) {soft : Int} (hcur : a.currentProc = some p)
    (hw : SemAddr w) (hsoft : soft = weight K.IsDev w) :
    Placed K (a.block soft p w) (Function.update place p (.blocked w)) := by
  have hp : place p = .running := (h.spot p).running.mp hcur
  have hat := h.spot p
  rw [hp] at hat
  apply h.move
  · constructor
    case blocked =>
      intro v
      by_cases hv : v = w
      · simp [Abs.block, hv]
      · simp [Abs.block, Function.update_of_ne hv, hat.blocked, Ne.symm hv]
    all_goals simp [Abs.block, hat.free, hat.ready]
  · intro q x hqp hx
    constructor
    case blocked =>
      intro v
      rw [← hx.blocked v]
      by_cases hv : v = w
      · simp [Abs.block, hv, hqp]
      · simp [Abs.block, Function.update_of_ne hv]
    case running =>
      rw [← hx.running, hcur]
      simp [Abs.block, Ne.symm hqp]
    all_goals simp [Abs.block, hx.free, hx.ready]
  · rfl
  · simp +contextual [hw]
  · simp [Abs.block, hp]
  · simp [Abs.block, hp, hsoft]

theorem preempt (h : Placed K a place) (t₀ t₁ : Int)
    (hcur : a.currentProc = some p) :
    Placed K (a.preempt t₀ t₁) (Function.update place p .ready) := by
  have hp : place p = .running := (h.spot p).running.mp hcur
  have hat := h.spot p
  rw [hp] at hat
  apply h.move
  · constructor <;> simp [Abs.preempt, hcur, hat.free, hat.blocked]
  · intro q x hqp hx
    constructor
    case running =>
      rw [← hx.running, hcur]
      simp [Abs.preempt, hcur, Ne.symm hqp]
    all_goals simp [Abs.preempt, hcur, hqp, hx.free, hx.ready, hx.blocked]
  · simp only [Place.semAdd, h.update_semAdd hp rfl]
    simp [Abs.preempt, hcur]
  · simp
  · simp [Abs.preempt, hcur, hp]
  · simp [Abs.preempt, hcur, hp]

theorem dispatch (h : Placed K a place) {ps : List Pcb}
    (hcur : a.currentProc = none) (hready : a.lk.ready = p :: ps)
    (hnd : (p :: ps).Nodup) :
    Placed K a.schedule.nuc (Function.update place p .running) := by
  have hp : place p = .ready := (h.spot p).ready.mp (by simp [hready])
  have hat := h.spot p
  rw [hp] at hat
  have hps : p ∉ ps := (List.nodup_cons.mp hnd).1
  apply h.move
  · constructor <;> simp [Abs.schedule, hready, hps, hat.free, hat.blocked]
  · intro q x hqp hx
    have hrdy := hx.ready
    rw [hready] at hrdy
    constructor
    case running =>
      rw [← hx.running, hcur]
      simp [Abs.schedule, hready, Ne.symm hqp]
    case ready =>
      rw [← hrdy]
      simp [Abs.schedule, hready, hqp]
    all_goals simp [Abs.schedule, hready, hx.free, hx.blocked]
  · simp only [Place.semAdd, h.update_semAdd hp rfl]
    simp [Abs.schedule, hready]
  · simp
  · simp [Abs.schedule, hready, hp]
  · simp [Abs.schedule, hready, hp]

theorem create (h : Placed K a place) {c : Pcb} {fs : List Pcb}
    (hfree : a.lk.free = p :: fs) (hnd : (p :: fs).Nodup) :
    Placed K (a.createprocess c).nuc (Function.update place p .ready) := by
  have hp : place p = .free := (h.spot p).free.mp (by simp [hfree])
  have hat := h.spot p
  rw [hp] at hat
  have hfs : p ∉ fs := (List.nodup_cons.mp hnd).1
  apply h.move
  · constructor <;>
      simp [Abs.createprocess, hfree, hfs, hat.running, hat.blocked]
  · intro q x hqp hx
    have hfr := hx.free
    rw [hfree] at hfr
    constructor
    case free =>
      rw [← hfr]
      simp [Abs.createprocess, hfree, hqp]
    all_goals
      simp [Abs.createprocess, hfree, hqp, hx.running, hx.ready, hx.blocked]
  · simp [Abs.createprocess, hfree, Payload.clear, Place.semAdd]
  · simp
  · simp [Abs.createprocess, hfree, hp]
  · simp [Abs.createprocess, hfree, hp]

theorem reap (h : Placed K a place)
    (hp : place p = .ready ∨ ∃ w, place p = .blocked w) :
    Placed K (a.reap K p) (Function.update place p .free) := by
  have hat := h.spot p
  have hlive : place p ≠ .free := by
    rcases hp with hp | ⟨w, hp⟩ <;> simp [hp]
  have hrun : place p ≠ .running := by
    rcases hp with hp | ⟨w, hp⟩ <;> simp [hp]
  apply h.move
  · constructor <;> simp [Abs.reap, hat.running, hrun]
  · intro q x hqp hx
    constructor <;>
      simp [Abs.reap, hqp, hx.free, hx.running, hx.ready, hx.blocked]
  · rfl
  · simp
  · simp [Abs.reap, weight_live_of_ne hlive]
  · rcases hp with hp | ⟨w, hp⟩
    · have hnull : ¬ K.IsDev (a.pcb.pSemAdd p) := by
        rw [h.semAdd, hp]
        exact K.not_isDev_null
      simp [Abs.reap, hp, hnull]
    · have hw : a.pcb.pSemAdd p = w := by
        rw [h.semAdd, hp]
        rfl
      by_cases hdev : K.IsDev w
      · simp [Abs.reap, hp, hw, hdev, weight_of hdev]
      · simp [Abs.reap, hp, hw, hdev, weight_of_not hdev]

/-- The running process leaves when nothing of it is left below. -/
theorem reapCurrent (h : Placed K a place) (hcur : a.currentProc = some p) :
    Placed K (a.reapCurrent p) (Function.update place p .free) := by
  have hp : place p = .running := (h.spot p).running.mp hcur
  have hat := h.spot p
  rw [hp] at hat
  apply h.move
  · constructor <;> simp [Abs.reapCurrent, hat.ready, hat.blocked]
  · intro q x hqp hx
    constructor
    case running =>
      rw [← hx.running, hcur]
      simp [Abs.reapCurrent, Ne.symm hqp]
    all_goals simp [Abs.reapCurrent, hqp, hx.free, hx.ready, hx.blocked]
  · rfl
  · simp
  · simp [Abs.reapCurrent, hp]
  · simp [Abs.reapCurrent, hp]

end Placed

end Kaya
