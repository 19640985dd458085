import Kaya.Lib.Semaphore
import Mathlib.Data.List.Nodup
import Mathlib.Logic.Function.Basic
import Mathlib.Tactic.SplitIfs

/-!
# Kernels

Processes share a processor and wait in the lines of counting semaphores.  A kernel says who
exists, who runs and who waits where; which of the ready processes runs next is left open.
-/

namespace Kaya.Lib

inductive Standing where
  | absent
  | ready
  | blocked
  deriving DecidableEq

structure Kernel (ι σ : Type) where
  standing : ι → Standing
  running : Option ι
  sem : σ → Semaphore ι

namespace Kernel

inductive Op (ι σ : Type) where
  /-- The running process `p` passes `x`, or joins its line. -/
  | down (p : ι) (x : σ)
  /-- The first waiter of `x`, if any, becomes ready. -/
  | up (x : σ)
  /-- All waiters of `x` become ready, and nothing is left of its value. -/
  | flush (x : σ)
  | create (p : ι)
  | exit (p : ι)
  /-- The running process gives up the processor. -/
  | pause
  | dispatch (p : ι)

variable {ι σ : Type} [DecidableEq ι] [DecidableEq σ]

def setSem (k : Kernel ι σ) (x : σ) (s : Semaphore ι) : Kernel ι σ :=
  { k with sem := Function.update k.sem x s }

def setStanding (k : Kernel ι σ) (p : ι) (v : Standing) : Kernel ι σ :=
  { k with standing := Function.update k.standing p v }

def perform (k : Kernel ι σ) : Op ι σ → Kernel ι σ
  | .down p x =>
      let t := k.setSem x ((k.sem x).down p)
      if 0 < (k.sem x).value then t else { t.setStanding p .blocked with running := none }
  | .up x =>
      let t := k.setSem x (k.sem x).up
      match (k.sem x).waiters with
      | [] => t
      | q :: _ => t.setStanding q .ready
  | .flush x =>
      { k.setSem x .zero with
        standing := fun p => if p ∈ (k.sem x).waiters then .ready else k.standing p }
  | .create p => k.setStanding p .ready
  | .exit p => { k.setStanding p .absent with running := none }
  | .pause => { k with running := none }
  | .dispatch p => { k with running := some p }

def Allows (k : Kernel ι σ) : Op ι σ → Prop
  | .down p _ => k.running = some p
  | .create p => k.standing p = .absent
  | .exit p => k.running = some p
  | .dispatch p => k.running = none ∧ k.standing p = .ready
  | .up _ | .flush _ | .pause => True

/-- The operations, the newest first, lead from one kernel to another. -/
inductive Goes (k : Kernel ι σ) : List (Op ι σ) → Kernel ι σ → Prop
  | refl : Goes k [] k
  | next {os : List (Op ι σ)} {t : Kernel ι σ} {o : Op ι σ} : Goes k os t → t.Allows o →
      Goes k (o :: os) (t.perform o)

def alone (p : ι) (n : σ → Int) : Kernel ι σ where
  standing := Function.update (fun _ => .absent) p .ready
  running := some p
  sem x := .start (max 0 (n x)) (le_max_left _ _)

/-- The operation is asked for, and not a choice of the scheduler. -/
def Op.isService : Op ι σ → Bool
  | .pause | .dispatch _ => false
  | _ => true

/-- Every process that waits does so in one place, and the others in none. -/
structure Sane (k : Kernel ι σ) : Prop where
  running : ∀ p, k.running = some p → k.standing p = .ready
  waits : ∀ p x, p ∈ (k.sem x).waiters → k.standing p = .blocked
  unique : ∀ p x y, p ∈ (k.sem x).waiters → p ∈ (k.sem y).waiters → x = y
  nodup : ∀ x, (k.sem x).waiters.Nodup
  queued : ∀ p, k.standing p = .blocked → ∃ x, p ∈ (k.sem x).waiters

variable {k t u : Kernel ι σ} {os os' : List (Op ι σ)} {o : Op ι σ} {p q : ι} {x y : σ}

theorem Goes.one (h : k.Allows o) : k.Goes [o] (k.perform o) := .next .refl h

theorem Goes.trans (h : k.Goes os t) (h' : t.Goes os' u) : k.Goes (os' ++ os) u := by
  induction h' with
  | refl => exact h
  | next _ hallows ih => exact .next ih hallows

/-! ## Operations on semaphores -/

omit [DecidableEq ι] in
@[simp] theorem setSem_self (s : Semaphore ι) : (k.setSem x s).sem x = s := Function.update_self ..

omit [DecidableEq ι] in
theorem setSem_of_ne {s : Semaphore ι} (hne : y ≠ x) : (k.setSem x s).sem y = k.sem y :=
  Function.update_of_ne hne ..

omit [DecidableEq σ] in
@[simp] theorem setStanding_self (v : Standing) : (k.setStanding p v).standing p = v :=
  Function.update_self ..

omit [DecidableEq σ] in
theorem setStanding_of_ne {v : Standing} (hne : q ≠ p) :
    (k.setStanding p v).standing q = k.standing q := Function.update_of_ne hne ..

theorem down_passes (h : 0 < (k.sem x).value) :
    k.perform (.down p x) = k.setSem x ((k.sem x).down p) := if_pos h

theorem down_waits (h : ¬ 0 < (k.sem x).value) : k.perform (.down p x) =
    { (k.setSem x ((k.sem x).down p)).setStanding p .blocked with running := none } := if_neg h

theorem up_nil (h : (k.sem x).waiters = []) :
    k.perform (.up x) = k.setSem x (k.sem x).up := by
  simp only [perform, h]

theorem up_cons {ps : List ι} (h : (k.sem x).waiters = q :: ps) :
    k.perform (.up x) = (k.setSem x (k.sem x).up).setStanding q .ready := by
  simp only [perform, h]

/-! ## The invariant -/

omit [DecidableEq σ] in
theorem Sane.alone (p : ι) (n : σ → Int) : (alone p n).Sane where
  running q hq := by
    obtain rfl : p = q := Option.some.inj hq
    exact Function.update_self p Standing.ready fun _ => Standing.absent
  waits _ _ hq := absurd hq List.not_mem_nil
  unique _ _ _ hq := absurd hq List.not_mem_nil
  nodup _ := List.nodup_nil
  queued q hq := by
    have hne : Function.update (fun _ => Standing.absent) p .ready q ≠ .blocked := by
      by_cases hqp : q = p <;> simp [hqp]
    exact absurd hq hne

namespace Sane

omit [DecidableEq ι] in
theorem setSem (h : k.Sane) {s : Semaphore ι} (hs : s.waiters = (k.sem x).waiters) :
    (k.setSem x s).Sane := by
  have hline : ∀ y, ((k.setSem x s).sem y).waiters = (k.sem y).waiters := by
    intro y
    by_cases hy : y = x
    · rw [hy, setSem_self, hs]
    · rw [setSem_of_ne hy]
  exact ⟨h.running, fun p y hp => h.waits p y (hline y ▸ hp),
    fun p y z hy hz => h.unique p y z (hline y ▸ hy) (hline z ▸ hz), fun y => hline y ▸ h.nodup y,
    fun p hp => (h.queued p hp).imp fun y hy => (hline y).symm ▸ hy⟩

omit [DecidableEq σ] in
/-- `p`, which waits nowhere, becomes something else that does not wait. -/
theorem setStanding (h : k.Sane) {v : Standing} (hp : k.standing p ≠ .blocked)
    (hv : v ≠ .blocked) {r : Option ι} (hr : ∀ q, r = some q → (k.setStanding p v).standing q = .ready) :
    Sane { k.setStanding p v with running := r } where
  running := hr
  waits q x hq := by
    have hblk := h.waits q x hq
    have hqp : q ≠ p := by
      rintro rfl
      exact hp hblk
    exact (setStanding_of_ne hqp).trans hblk
  unique := h.unique
  nodup := h.nodup
  queued q hq := by
    by_cases hqp : q = p
    · subst hqp
      exact absurd ((setStanding_self v).symm.trans hq) hv
    · exact h.queued q ((setStanding_of_ne hqp).symm.trans hq)

theorem wait (h : k.Sane) (hrun : k.running = some p) {s : Semaphore ι}
    (hs : s.waiters = (k.sem x).waiters ++ [p]) :
    Sane { (k.setSem x s).setStanding p .blocked with running := none } := by
  have hnot : ∀ y, p ∉ (k.sem y).waiters := by
    intro y hy
    have hblk := h.waits p y hy
    rw [h.running p hrun] at hblk
    exact Standing.noConfusion hblk
  have hmem : ∀ q y, q ∈ ((k.setSem x s).sem y).waiters ↔
      q ∈ (k.sem y).waiters ∨ q = p ∧ y = x := by
    intro q y
    by_cases hy : y = x
    · simp [hy, hs]
    · simp [setSem_of_ne hy, hy]
  constructor
  case running => exact fun q hq => absurd hq (by simp)
  case waits =>
    intro q y hq
    by_cases hqp : q = p
    · subst hqp
      exact setStanding_self ..
    · refine (setStanding_of_ne hqp).trans ?_
      rcases (hmem q y).mp hq with hold | ⟨hnew, -⟩
      · exact h.waits q y hold
      · exact absurd hnew hqp
  case unique =>
    intro q y z hy hz
    rcases (hmem q y).mp hy with hy' | ⟨rfl, rfl⟩
    · rcases (hmem q z).mp hz with hz' | ⟨rfl, rfl⟩
      · exact h.unique q y z hy' hz'
      · exact absurd hy' (hnot y)
    · rcases (hmem q z).mp hz with hz' | ⟨-, hz'⟩
      · exact absurd hz' (hnot z)
      · exact hz'.symm
  case nodup =>
    intro y
    change ((k.setSem x s).sem y).waiters.Nodup
    by_cases hy : y = x
    · rw [hy, setSem_self, hs]
      rw [List.nodup_append_comm]
      exact List.nodup_cons.mpr ⟨hnot x, h.nodup x⟩
    · rw [setSem_of_ne hy]
      exact h.nodup y
  case queued =>
    intro q hq
    by_cases hqp : q = p
    · exact ⟨x, (hmem q x).mpr (.inr ⟨hqp, rfl⟩)⟩
    · obtain ⟨y, hy⟩ := h.queued q ((setStanding_of_ne hqp).symm.trans hq)
      exact ⟨y, (hmem q y).mpr (.inl hy)⟩

omit [DecidableEq ι] in
/-- Some waiters of `x` leave its line and become ready. -/
theorem release (h : k.Sane) {s : Semaphore ι} (out : ι → Prop) [DecidablePred out]
    (hs : s.waiters.Sublist (k.sem x).waiters)
    (hout : ∀ q ∈ (k.sem x).waiters, q ∈ s.waiters ↔ ¬ out q)
    (hin : ∀ q, out q → q ∈ (k.sem x).waiters) :
    Sane { k.setSem x s with standing := fun q => if out q then .ready else k.standing q } := by
  have hmem : ∀ q y, q ∈ ((k.setSem x s).sem y).waiters ↔
      q ∈ (k.sem y).waiters ∧ ¬ out q := by
    intro q y
    by_cases hy : y = x
    · subst hy
      rw [setSem_self]
      exact ⟨fun hq => ⟨hs.subset hq, (hout q (hs.subset hq)).mp hq⟩,
        fun hq => (hout q hq.1).mpr hq.2⟩
    · rw [setSem_of_ne hy]
      exact ⟨fun hq => ⟨hq, fun ho => hy (h.unique q y x hq (hin q ho))⟩, And.left⟩
  constructor
  case running =>
    intro q hq
    change (if out q then Standing.ready else k.standing q) = .ready
    rw [h.running q hq, ite_self]
  case waits =>
    intro q y hq
    obtain ⟨hold, hno⟩ := (hmem q y).mp hq
    exact (if_neg hno).trans (h.waits q y hold)
  case unique =>
    exact fun q y z hy hz => h.unique q y z ((hmem q y).mp hy).1 ((hmem q z).mp hz).1
  case nodup =>
    intro y
    change ((k.setSem x s).sem y).waiters.Nodup
    by_cases hy : y = x
    · rw [hy, setSem_self]
      exact (h.nodup x).sublist hs
    · rw [setSem_of_ne hy]
      exact h.nodup y
  case queued =>
    intro q hq
    change (if out q then Standing.ready else k.standing q) = .blocked at hq
    split_ifs at hq with ho
    obtain ⟨y, hy⟩ := h.queued q hq
    exact ⟨y, (hmem q y).mpr ⟨hy, ho⟩⟩

theorem perform (h : k.Sane) (hallow : k.Allows o) : (k.perform o).Sane := by
  cases o with
  | down p x =>
    by_cases hpos : 0 < (k.sem x).value
    · rw [down_passes hpos]
      exact h.setSem (if_neg (by omega))
    · rw [down_waits hpos]
      exact h.wait hallow (if_pos (by omega))
  | up x =>
    cases hline : (k.sem x).waiters with
    | nil =>
      rw [up_nil hline]
      refine h.setSem ?_
      rw [hline]
      exact congrArg List.tail hline
    | cons q ps =>
      have hnd := h.nodup x
      rw [hline, List.nodup_cons] at hnd
      have htail : (k.sem x).up.waiters = ps := congrArg List.tail hline
      have hset : (k.setSem x (k.sem x).up).setStanding q .ready =
          { k.setSem x (k.sem x).up with
            standing := fun p => if p = q then .ready else k.standing p } := by
        refine congrArg (fun f => ({ k.setSem x (k.sem x).up with standing := f } : Kernel ι σ)) ?_
        funext p
        exact Function.update_apply ..
      rw [up_cons hline, hset]
      apply h.release (· = q)
      · rw [htail, hline]
        exact List.sublist_cons_self q ps
      · intro p hp
        rw [hline, List.mem_cons] at hp
        rw [htail]
        refine ⟨?_, hp.resolve_left⟩
        rintro hps rfl
        exact hnd.1 hps
      · rintro p rfl
        rw [hline]
        exact List.mem_cons_self
  | flush x =>
    apply h.release (· ∈ (k.sem x).waiters)
    · exact List.nil_sublist _
    · exact fun p hp => iff_of_false List.not_mem_nil fun hno => hno hp
    · exact fun p hp => hp
  | create p =>
    have habs : k.standing p = .absent := hallow
    have hne : k.standing p ≠ .blocked := by simp [habs]
    refine h.setStanding (v := .ready) (r := k.running) hne (by decide) ?_
    intro q hq
    by_cases hqp : q = p
    · subst hqp
      exact setStanding_self ..
    · exact (setStanding_of_ne hqp).trans (h.running q hq)
  | exit p =>
    have hne : k.standing p ≠ .blocked := by simp [h.running p hallow]
    exact h.setStanding (v := .absent) (r := none) hne (by decide) (by simp)
  | pause => exact ⟨by simp [Kernel.perform], h.waits, h.unique, h.nodup, h.queued⟩
  | dispatch p =>
    refine ⟨?_, h.waits, h.unique, h.nodup, h.queued⟩
    intro q hq
    obtain rfl := Option.some.inj hq
    exact hallow.2

theorem goes (h : k.Sane) (hgoes : k.Goes os t) : t.Sane := by
  induction hgoes with
  | refl => exact h
  | next _ hallow ih => exact ih.perform hallow

end Sane

end Kernel

end Kaya.Lib
