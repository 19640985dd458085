import Kaya.Phase3.Proofs.Live

/-!
# What one step does

A step changes nothing that the processes share, answers an action of the running process, or
is an operation on a semaphore.
-/

namespace Kaya.Phase3

open Lib

variable {ι : Type} [DecidableEq ι]

/-! ## Effects of actions -/

def Act.onTables : Act → Tables → Tables
  | .tables f, t => (f t).2
  | _, t => t

def Act.onDisk : Act → Disk → Disk
  | .setCommand reg v, disk => if reg = Sys.disk0Reg then { disk with busy := some v } else disk
  | .setData0 reg v, disk => if reg = Sys.disk0Reg then { disk with data0 := v } else disk
  | _, disk => disk

def Act.onStatus : Act → Word → Word
  | .setSTATUS status, _ => status
  | _, status => status

def Act.Waits : Act → Prop
  | .passeren _ | .verhogen _ | .waitio _ _ _ => True
  | _ => False

def Obs.Own : Obs ι → Prop
  | .died _ | .loaded _ _ _ | .stored _ _ _ => True
  | _ => False

def Act.Traps : Act → Prop
  | .spectrapvec _ _ | .load _ => True
  | _ => False

namespace Sys

variable {S : Setup ι} {s t : Sys ι}
  {p : ι} {a : Act} {k : Word → Prog} {r : Word}

/-- What the processes share is the same. -/
structure Still (s t : Sys ι) : Prop where
  log : t.log = s.log
  sem : t.sem = s.sem
  dev : t.dev = s.dev
  tables : t.tables = s.tables
  disk : t.disk = s.disk

/-- The running process `p` did something of its own. -/
structure Own (s : Sys ι) (p : ι) (t : Sys ι) : Prop where
  trace : ∃ l, t.trace = l ++ s.trace ∧ ∀ o ∈ l, Obs.Own o
  sem : t.sem = s.sem
  dev : t.dev = s.dev
  tables : t.tables = s.tables
  disk : t.disk = s.disk
  task : ∀ q, q ≠ p → t.task q = s.task q
  running : ∀ q, t.running = some q → s.running = some q

/-- `t` is `s` with the effect of the action `a` of `p`. -/
structure Affects (s : Sys ι) (p : ι) (a : Act) (t : Sys ι) : Prop where
  trace : t.trace = s.trace
  sem : t.sem = s.sem
  dev : t.dev = s.dev
  running : t.running = s.running
  prog : (t.task p).prog = (s.task p).prog
  status : ∀ q, s.life q ≠ .unborn →
    (t.task q).status = if q = p then a.onStatus (s.task p).status else (s.task q).status
  tables : t.tables = a.onTables s.tables
  disk : t.disk = a.onDisk s.disk

omit [DecidableEq ι] in
theorem Still.refl (s : Sys ι) : s.Still s := ⟨rfl, rfl, rfl, rfl, rfl⟩

omit [DecidableEq ι] in
theorem Own.still (h : s.Own p t) : s.Still t := by
  refine ⟨?_, h.sem, h.dev, h.tables, h.disk⟩
  obtain ⟨l, hl, hown⟩ := h.trace
  have hnil : l.filterMap Obs.log = [] := by
    rw [List.filterMap_eq_nil_iff]
    intro o ho
    have hown := hown o ho
    cases o with
    | did d => exact hown.elim
    | _ => rfl
  rw [log, hl, List.filterMap_append, hnil, log, List.nil_append]

theorem kill_own (s : Sys ι) (p : ι) : s.Own p (s.kill S p) :=
  ⟨⟨[.died p], rfl, by simp [Obs.Own]⟩, rfl, rfl, rfl, rfl, fun _ _ => rfl, nofun⟩

theorem setTask_own (s : Sys ι) (p : ι) (tlb : ι → Word → Option Word) (t : Task) :
    s.Own p (({ s with tlb := tlb } : Sys ι).setTask p t) :=
  ⟨⟨[], rfl, by simp⟩, rfl, rfl, rfl, rfl, fun _ hq => Function.update_of_ne hq .., fun _ => id⟩

theorem passUp_own (s : Sys ι) (p : ι) (tlb : ι → Word → Option Word) (trap : Trap) (st : State)
    (rest : Prog) : s.Own p (({ s with tlb := tlb } : Sys ι).passUp S p trap st rest) := by
  unfold passUp
  simp only
  split
  · exact ⟨⟨[.died p], rfl, by simp [Obs.Own]⟩, rfl, rfl, rfl, rfl, fun _ _ => rfl, nofun⟩
  · exact setTask_own ..

theorem leave_own (s : Sys ι) (p : ι) (l : Leave) : s.Own p (s.leave S p l) := by
  cases l with
  | terminate => exact passUp_own s p s.tlb ..
  | terminateprocess => exact kill_own ..
  | ldst | again => exact setTask_own s p s.tlb _
  | user => exact ⟨⟨[], rfl, by simp⟩, rfl, rfl, rfl, rfl, fun _ _ => rfl, fun _ => id⟩

/-- An access traps, or finds its page. -/
theorem access_cases (s : Sys ι) (p : ι) (code virtAddr : Word) (hit : Sys ι → Word → Sys ι) :
    (∃ tlb st, s.access S p code virtAddr hit =
      ({ s with tlb := tlb } : Sys ι).passUp S p .tlb st (s.task p).prog) ∨
    ∃ tlb frame, s.access S p code virtAddr hit = hit { s with tlb := tlb } frame := by
  unfold access
  split
  · exact .inl ⟨s.tlb, _, rfl⟩
  · simp only
    split_ifs
    · exact .inr ⟨_, _, rfl⟩
    · exact .inl ⟨_, _, rfl⟩

theorem user_own (s : Sys ι) (p : ι) (u : UserAct) : s.Own p (s.user S p u) := by
  cases u with
  | load virtAddr | store virtAddr v =>
    simp only [user]
    rcases access_cases (S := S) s p _ virtAddr _ with ⟨tlb, st, heq⟩ | ⟨tlb, frame, heq⟩
    · rw [heq]
      exact passUp_own ..
    · rw [heq]
      exact ⟨⟨[_], rfl, by simp [Obs.Own]⟩, rfl, rfl, rfl, rfl, fun _ _ => rfl, fun _ => id⟩
  | syscall st =>
    simp only [user]
    split_ifs <;> exact passUp_own s p s.tlb ..
  | progTrap st | tlbTrap st => exact passUp_own s p s.tlb ..

theorem Affects.log (h : s.Affects p a t) : t.log = s.log := by rw [Sys.log, h.trace, Sys.log]

/-- An action other than an operation on a semaphore traps or gets an answer. -/
theorem perform_cases (hlife : s.life p = .ready) (ha : ¬ a.Waits) :
    a.Traps ∧ s.Own p (s.perform S p r a) ∨
      ∃ t r', s.Affects p a t ∧ s.perform S p r a = t.answer p r' := by
  have hself : s.Affects p .getSTATUS s := by
    refine ⟨rfl, rfl, rfl, rfl, rfl, fun q _ => ?_, rfl, rfl⟩
    by_cases hqp : q = p
    · rw [if_pos hqp, hqp]
      rfl
    · rw [if_neg hqp]
  have hsame : ∀ b : Act, b.onTables s.tables = s.tables → b.onDisk s.disk = s.disk →
      (∀ st, b.onStatus st = st) → s.Affects p b s := by
    intro b htables hdisk hstatus
    refine ⟨rfl, rfl, rfl, rfl, rfl, fun q hq => ?_, htables.symm, hdisk.symm⟩
    rw [hstatus]
    exact hself.status q hq
  cases a with
  | passeren | verhogen | waitio => exact absurd trivial ha
  | createprocess sAsid sStatus =>
    right
    simp only [perform]
    split_ifs with hborn
    · have hne : ∀ q, s.life q ≠ .unborn → q ≠ S.child sAsid := by
        rintro q hq rfl
        exact hq hborn
      refine ⟨_, _, ?_, rfl⟩
      refine ⟨rfl, rfl, rfl, rfl, ?_, fun q hq => ?_, rfl, rfl⟩
      · simp only [setTask, Function.update_of_ne (hne p (Life.ne_unborn hlife))]
      · simp only [setTask, Function.update_of_ne (hne q hq)]
        exact hself.status q hq
    · exact ⟨s, _, hsame _ rfl rfl fun _ => rfl, rfl⟩
  | spectrapvec trap new =>
    simp only [perform]
    split_ifs with hnew
    · right
      refine ⟨_, _, ?_, rfl⟩
      refine ⟨rfl, rfl, rfl, rfl, ?_, fun q hq => ?_, rfl, rfl⟩
      · simp only [setTask, Function.update_self]
      · by_cases hqp : q = p
        · subst hqp
          simp only [setTask, Function.update_self, if_true]
          rfl
        · simp only [setTask, Function.update_of_ne hqp, if_neg hqp]
    · exact .inl ⟨trivial, kill_own s p⟩
  | setSTATUS status =>
    right
    refine ⟨_, _, ?_, rfl⟩
    refine ⟨rfl, rfl, rfl, rfl, ?_, fun q hq => ?_, rfl, rfl⟩
    · simp only [setTask, Function.update_self]
    · by_cases hqp : q = p
      · subst hqp
        simp only [setTask, Function.update_self, if_true]
        rfl
      · simp only [setTask, Function.update_of_ne hqp, if_neg hqp]
  | getSTATUS | getENTRYHI | setData1 | getData1 =>
    exact .inr ⟨s, _, hsame _ rfl rfl fun _ => rfl, rfl⟩
  | TLBCLR | tables f =>
    refine .inr ⟨_, _, ?_, rfl⟩
    exact ⟨rfl, rfl, rfl, rfl, rfl, hself.status, rfl, rfl⟩
  | setCommand reg v | setData0 reg v =>
    right
    refine ⟨_, _, ?_, rfl⟩
    by_cases hreg : reg = disk0Reg
    · simp only [if_pos hreg]
      exact ⟨rfl, rfl, rfl, rfl, rfl, hself.status, rfl, (if_pos hreg).symm⟩
    · simp only [if_neg hreg]
      exact ⟨rfl, rfl, rfl, rfl, rfl, hself.status, rfl, (if_neg hreg).symm⟩
  | load virtAddr =>
    simp only [perform]
    rcases access_cases (S := S) s p 2 virtAddr _ with ⟨tlb, st, heq⟩ | ⟨tlb, frame, heq⟩
    · rw [heq]
      exact .inl ⟨trivial, passUp_own ..⟩
    · refine .inr ⟨_, _, ?_, heq⟩
      exact ⟨rfl, rfl, rfl, rfl, rfl, hself.status, rfl, rfl⟩

end Sys

end Kaya.Phase3
