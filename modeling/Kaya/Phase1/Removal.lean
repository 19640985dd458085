import Kaya.Phase1.Proofs.Asl

/-!
# Removing a given process

What the comments of `outProcQ` and `outBlocked` promise for a PCB at any place
of its queue, and on which PCBs the code keeps the promise: both find a PCB only
at the tail.
-/

namespace Kaya

open Lib

variable {π δ : Type} [DecidableEq π] [Fintype π]

/-! ## `outProcQ` -/

/-- `p` leaves the queue `l` and the other PCBs stay as they were; a PCB that is not in
`l` is not matched. -/
def OutProcQRemoves (s : Phase1 π δ) (tp : Option π) (l : List π) (p : π) : Prop :=
  if p ∈ l then
    ∃ tp' next prev,
      outProcQ tp (some p) s = .ok (some p, tp') (s.relink next prev) ∧
      IsQueue next prev tp' (l.erase p) ∧
      (tp ≠ some p → tp' = tp) ∧ (l = [p] → tp' = none) ∧
      next p = none ∧ prev p = none ∧
      AgreeOn (· ∉ l) s.lk.pNext next s.lk.pPrev prev
  else outProcQ tp (some p) s = .ok (none, tp) s

omit [Fintype π] in
theorem erase_concat {m : List π} {z : π} (h : (m ++ [z]).Nodup) :
    (m ++ [z]).erase z = m := by
  have hz : z ∉ m := (nodup_concat.mp h).1
  rw [List.erase_append_right _ hz]
  simp

theorem outProcQ_notMem {s : Phase1 π δ} {tp : Option π} {l : List π} {p : π}
    (h : IsQueue s.lk.pNext s.lk.pPrev tp l) (hp : p ∉ l) :
    outProcQ tp (some p) s = .ok (none, tp) s := by
  cases tp with
  | none => exact outProcQ_empty s (some p)
  | some z =>
      obtain ⟨m, rfl, -, -⟩ := h
      exact outProcQ_ne s (fun heq => hp (by simp [heq]))

/-- `outProcQ` keeps its promise exactly when `p` is the tail of the queue or not in it. -/
theorem outProcQ_removes_iff {s : Phase1 π δ} {tp : Option π} {l : List π} (p : π)
    (h : IsQueue s.lk.pNext s.lk.pPrev tp l) :
    OutProcQRemoves s tp l p ↔ (p ∈ l → tp = some p) := by
  unfold OutProcQRemoves
  by_cases hp : p ∈ l
  · rw [if_pos hp]
    obtain ⟨m, z, rfl, rfl, -⟩ := h.exists_tail (List.ne_nil_of_mem hp)
    constructor
    · rintro ⟨tp', next, prev, hrun, -⟩ -
      by_contra hne
      have hpz : p ≠ z := fun heq => hne (by rw [heq])
      rw [outProcQ_ne s hpz] at hrun
      simp at hrun
    · intro htail
      obtain rfl : z = p := Option.some.inj (htail hp)
      obtain ⟨tp', next, prev, hrun, hq, hn, hv, hagree⟩ := outProcQ_spec h
      refine ⟨tp', next, prev, hrun, ?_, fun hne => absurd rfl hne, ?_, hn, hv, hagree⟩
      · rwa [erase_concat h.nodup]
      · intro hl
        have hm : m = [] := by simpa using hl
        exact hq.eq_nil_iff.mpr hm
  · rw [if_neg hp]
    exact ⟨fun _ hmem => absurd hmem hp, fun _ => outProcQ_notMem h hp⟩

def sampleQueue : Phase1 (Fin 2) (Fin 2) :=
  Phase1.sample.relink (fun p => some (1 - p)) (fun p => some (1 - p))

theorem sampleQueue_isQueue :
    IsQueue sampleQueue.lk.pNext sampleQueue.lk.pPrev (some 1) [0, 1] := by
  refine ⟨[0], rfl, by decide, ?_⟩
  simp [sampleQueue, Phase1.relink]

theorem outProcQ_removes_iff_tail :
    OutProcQRemoves sampleQueue (some 1) [0, 1] 1 ↔
      ((1 : Fin 2) ∈ [0, 1] → some (1 : Fin 2) = some 1) :=
  outProcQ_removes_iff 1 sampleQueue_isQueue

/-- The head of a queue of two is not found. -/
theorem outProcQ_misses_head :
    IsQueue sampleQueue.lk.pNext sampleQueue.lk.pPrev (some 1) [0, 1] ∧
      ¬ OutProcQRemoves sampleQueue (some 1) [0, 1] 0 := by
  refine ⟨sampleQueue_isQueue, ?_⟩
  rw [OutProcQRemoves, if_pos (by simp)]
  rintro ⟨tp', next, prev, hrun, -⟩
  rw [outProcQ_ne sampleQueue (by decide)] at hrun
  simp at hrun

/-! ## `outBlocked` -/

section OutBlocked

variable [DecidableEq δ] [Fintype δ]

/-- `p` leaves the queue of the semaphore it names, whose descriptor is recycled when the
queue becomes empty; a PCB that is not in such a queue is not found. -/
def OutBlockedRemoves (s : Phase1 π δ) (Q : Word → List π) (act free : List δ) (p : π) :
    Prop :=
  if p ∈ Q (s.pcb.pSemAdd p) then
    ∃ lk act' free', outBlocked (some p) s = .ok (some p)
        ⟨lk, { s.pcb with pSemAdd := Function.update s.pcb.pSemAdd p NULL }⟩ ∧
      AslShape lk (Function.update Q (s.pcb.pSemAdd p) ((Q (s.pcb.pSemAdd p)).erase p))
        act' free' ∧
      Recycled s.lk (s.pcb.pSemAdd p) ((Q (s.pcb.pSemAdd p)).erase p) act free act' free' ∧
      lk.pNext p = none ∧ lk.pPrev p = none ∧
      QueueStep (· ∈ Q (s.pcb.pSemAdd p)) s.lk lk
  else outBlocked (some p) s = .ok none s

/-- `outBlocked` keeps its promise exactly when the semaphore `p` names is not active or
`p` is the last of its waiters. -/
theorem outBlocked_removes_iff {s : Phase1 π δ} {Q : Word → List π} {act free : List δ}
    (p : π) (h : AslShape s.lk Q act free) (hdis : QueuesDisjoint Q)
    (hp : s.pcb.pSemAdd p ≠ MININT) :
    OutBlockedRemoves s Q act free p ↔
      (Q (s.pcb.pSemAdd p) ≠ [] → (Q (s.pcb.pSemAdd p)).getLast? = some p) := by
  unfold OutBlockedRemoves
  by_cases hQ : Q (s.pcb.pSemAdd p) = []
  · -- the semaphore is not active, or `p_semAdd` is `NULL`
    have hnot : p ∉ Q (s.pcb.pSemAdd p) := by simp [hQ]
    rw [if_neg hnot]
    exact ⟨fun _ hne => absurd hQ hne, fun _ => outBlocked_inactive ⟨act, free, h⟩ hp hQ⟩
  · obtain ⟨-, hmax, -⟩ := h.keys _ hQ
    have ha : SemAddr (s.pcb.pSemAdd p) := ⟨hp, hmax⟩
    obtain ⟨ps, z, hz⟩ : ∃ ps z, Q (s.pcb.pSemAdd p) = ps ++ [z] :=
      ⟨_, _, (List.dropLast_append_getLast hQ).symm⟩
    have hlast : (Q (s.pcb.pSemAdd p)).getLast? = some z := by simp [hz]
    constructor
    · intro hrem _
      rw [hlast]
      by_contra hne
      have hpz : p ≠ z := fun heq => hne (by rw [heq])
      -- the write through `NULL` stops the program
      obtain ⟨s', hfault⟩ := outBlocked_fault ⟨act, free, h⟩ ha hz hpz rfl
      split_ifs at hrem
      · obtain ⟨lk, act', free', hrun, -⟩ := hrem
        simp [hfault] at hrun
      · simp [hfault] at hrem
    · intro htail
      have hzp : z = p := by
        have := htail hQ
        rw [hlast] at this
        exact Option.some.inj this
      subst hzp
      have hmem : z ∈ Q (s.pcb.pSemAdd z) := by simp [hz]
      have herase : (Q (s.pcb.pSemAdd z)).erase z = ps := by
        have hnd : (ps ++ [z]).Nodup := by
          obtain ⟨hne, hmin, d, hd, hkey⟩ := h.keys _ hQ
          have hq := (h.queue d hd (hkey ▸ hne) (hkey ▸ hmin)).2
          rw [hkey, hz] at hq
          exact hq.nodup
        rw [hz, erase_concat hnd]
      rw [if_pos hmem, herase]
      exact h.outBlocked_tail hdis ha hz rfl

/-- One active semaphore, at address 4, with the waiters `0` and `1`. -/
def sampleAsl : Phase1 (Fin 2) (Fin 3) where
  lk := { sampleQueue.lk with
    sNext := fun d => if d = 0 then some 1 else if d = 1 then some 2 else none
    sSemAdd := fun d => if d = 0 then MININT else if d = 1 then 4 else MAXINT
    sProcQ := fun d => if d = 1 then some 1 else none
    semdActive := some 0
    semdFree := none }
  pcb := { sampleQueue.pcb with pSemAdd := fun _ => 4 }

def sampleWaiters : Word → List (Fin 2) := fun a => if a = 4 then [0, 1] else []

theorem sampleAsl_shape : AslShape sampleAsl.lk sampleWaiters [0, 1, 2] [] := by
  constructor
  case active => simp [sampleAsl]
  case unused => rfl
  case all => decide
  case disj => decide
  case sorted => decide
  case first => exact ⟨0, by simp, rfl⟩
  case last => exact ⟨2, by simp, rfl⟩
  case queue =>
    intro d hd hmin hmax
    match d with
    | 0 => exact absurd rfl hmin
    | 1 => exact ⟨by decide, sampleQueue_isQueue⟩
    | 2 => exact absurd rfl hmax
  case keys =>
    intro a ha
    have ha4 : a = 4 := by
      by_contra hne
      exact ha (if_neg hne)
    subst ha4
    exact ⟨by decide, by decide, 1, by simp, rfl⟩

theorem sampleWaiters_disjoint : QueuesDisjoint sampleWaiters := by
  intro a b p hpa hpb
  have haddr : ∀ c, p ∈ sampleWaiters c → c = 4 := by
    intro c hc
    by_contra hne
    rw [sampleWaiters, if_neg hne] at hc
    cases hc
  rw [haddr a hpa, haddr b hpb]

theorem outBlocked_removes_iff_last :
    OutBlockedRemoves sampleAsl sampleWaiters [0, 1, 2] [] 1 ↔
      (sampleWaiters 4 ≠ [] → (sampleWaiters 4).getLast? = some 1) :=
  outBlocked_removes_iff 1 sampleAsl_shape sampleWaiters_disjoint
    (show (4 : Word) ≠ MININT by decide)

/-- For the first of two waiters `outBlocked` writes through `NULL`. -/
theorem outBlocked_misses_first :
    AslShape sampleAsl.lk sampleWaiters [0, 1, 2] [] ∧ QueuesDisjoint sampleWaiters ∧
      ¬ OutBlockedRemoves sampleAsl sampleWaiters [0, 1, 2] [] 0 := by
  refine ⟨sampleAsl_shape, sampleWaiters_disjoint, ?_⟩
  have hmem : (0 : Fin 2) ∈ sampleWaiters (sampleAsl.pcb.pSemAdd 0) := by decide
  obtain ⟨s', hfault⟩ := outBlocked_fault (a := 4) (p := 0) (z := 1)
    ⟨_, _, sampleAsl_shape⟩ ⟨by decide, by decide⟩ (show _ = [0] ++ [1] from rfl) (by decide) rfl
  rw [OutBlockedRemoves, if_pos hmem]
  rintro ⟨lk, act', free', hrun, -⟩
  rw [hfault] at hrun
  cases hrun

end OutBlocked

end Kaya
