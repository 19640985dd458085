import Kaya.Phase3.System

/-!
# What every run keeps

The lines of the semaphores hold processes that wait for them, and every process keeps to its
discipline.
-/

namespace Kaya.Phase3

open Lib

variable {ι γ : Type} [DecidableEq ι]

def Trap.entry : Trap → Entry
  | .tlb => .pager
  | .pgm => .userProgTrapHandler
  | .sys => .userSyscallHandler

namespace Sys

def Alive (s : Sys ι) (p : ι) : Prop := s.life p = .ready ∨ s.life p = .blocked

structure Sane (s : Sys ι) : Prop where
  running : ∀ p, s.running = some p → s.life p = .ready
  sem : ∀ x p, p ∈ (s.sem x).waiters →
    s.life p = .blocked ∧ ∃ k, (s.task p).prog = .act (.passeren x) k
  dev : ∀ i p, p ∈ (s.dev i).waiters → s.life p = .blocked ∧
    ∃ l d r k, (s.task p).prog = .act (.waitio l d r) k ∧ ¬ l < DISKINT ∧ waitioIndex l d r = i
  semNodup : ∀ x, (s.sem x).waiters.Nodup
  devNodup : ∀ i, (s.dev i).waiters.Nodup
  unborn : ∀ p, s.life p = .unborn → ∀ d ∈ s.log, d.p ≠ p

/-- Every process keeps to its discipline, now and when it resumes what a trap interrupted.  It
starts in ghost state `c` and may be interrupted in `u`. -/
structure Keeps (D : ι → Discipline Act Word Leave View γ) (c u : ι → γ) (s : Sys ι) : Prop where
  prog : ∀ p, s.Alive p → Follows (D p) (s.task p).prog (ghost D c p s.log) fun _ _ => True
  allowed : Allowed D c s.log
  old : ∀ p trap, Follows (D p) ((s.task p).old trap).prog (u p) fun _ _ => True
  new : ∀ p trap area, (s.task p).new trap = some area → ∃ g, (D p).may g (.spectrapvec trap area)

structure Live (D : ι → Discipline Act Word Leave View γ) (c u : ι → γ) (s : Sys ι) : Prop where
  sane : s.Sane
  keeps : s.Keeps D c u

end Sys

/-- The functions of the system keep to the discipline.  Traps are taken in the ghost state `u`;
only SYS 18 may come in others. -/
structure Setup.Obeys (S : Setup ι) (D : ι → Discipline Act Word Leave View γ) (c u : ι → γ) :
    Prop where
  start : ∀ p g sAsid sStatus, (D p).may g (.createprocess sAsid sStatus) →
    Follows (D (S.child sAsid)) (S.start (S.child sAsid)) (c (S.child sAsid)) fun _ _ => True
  again : ∀ p g asid i, (D p).leave g (.again asid i) →
    Follows (D p) (S.again p asid i) g fun _ _ => True
  enter : ∀ p g trap new st, (D p).may g (.spectrapvec trap new) →
    Follows (D p) (S.enter p new.sPc new.sAsid st) (u p) fun _ _ => True
  terminate : ∀ p g g' new, (D p).may g (.spectrapvec .sys new) → (D p).leave g' .terminate →
    Follows (D p) (S.enter p new.sPc new.sAsid Sys.terminateState) g' fun _ _ => True
  load : ∀ p g virtAddr, (D p).may g (.load virtAddr) → g = u p
  ldst : ∀ p g trap st, (D p).leave g (.ldst trap st) → g = u p
  user : ∀ p g a1 a2 a3 a4, (D p).leave g (.user a1 a2 a3 a4) → g = u p

namespace Sys

variable {S : Setup ι} {D : ι → Discipline Act Word Leave View γ} {c u : ι → γ} {s t : Sys ι}
  {p q : ι} {a : Act} {k : Word → Prog} {r : Word} {x : Sem} {i : Word}

/-- `p` waits in no line. -/
structure Free (s : Sys ι) (p : ι) : Prop where
  sem : ∀ x, p ∉ (s.sem x).waiters
  dev : ∀ i, p ∉ (s.dev i).waiters

omit [DecidableEq ι] in
theorem Sane.free (h : s.Sane) (hp : s.life p = .ready) : s.Free p where
  sem x hx := by
    have hb := (h.sem x p hx).1
    rw [hp] at hb
    nomatch hb
  dev i hi := by
    have hb := (h.dev i p hi).1
    rw [hp] at hb
    nomatch hb

theorem answer_eq (hprog : (s.task p).prog = .act a k) :
    s.answer p r =
      { s with
        task := Function.update s.task p { s.task p with prog := k r }
        life := Function.update s.life p .ready
        trace := .did ⟨p, a, r, s.view⟩ :: s.trace } := by
  simp only [answer, hprog]

theorem answer_log (hprog : (s.task p).prog = .act a k) :
    (s.answer p r).log = ⟨p, a, r, s.view⟩ :: s.log := by
  rw [answer_eq hprog]
  rfl

omit [DecidableEq ι] in
theorem log_congr (h : t.trace = s.trace) : t.log = s.log := by
  rw [log, log, h]

omit [DecidableEq ι] in
theorem Alive.not_unborn (h : s.Alive p) : s.life p ≠ .unborn := by
  rcases h with h | h <;> rw [h] <;> exact nofun

omit [DecidableEq ι] in
theorem Alive.not_dead (h : s.Alive p) : s.life p ≠ .dead := by
  rcases h with h | h <;> rw [h] <;> exact nofun

/-! ## Traces only grow -/

section Traces

variable {tr : List (Obs ι)}

theorem answer_trace (h : tr <:+ s.trace) : tr <:+ (s.answer p r).trace := by
  unfold answer
  split
  · exact h.trans (List.suffix_cons _ _)
  · exact h

theorem wake_trace {ws : List ι} (h : tr <:+ s.trace) : tr <:+ (s.wake ws r).trace := by
  cases ws with
  | nil => exact h
  | cons q ws => exact answer_trace h

end Traces

theorem wake_log (s : Sys ι) (ws : List ι) (r : Word) :
    ∃ log, (s.wake ws r).log = log ++ s.log := by
  have hwake : s.trace <:+ (s.wake ws r).trace := wake_trace (List.suffix_refl _)
  obtain ⟨tr, htr⟩ := hwake
  exact ⟨tr.filterMap Obs.log, by rw [log, ← htr, List.filterMap_append, log]⟩

namespace Live

/-- Only processes, lines and the trace matter, and lines may get shorter. -/
theorem frame (h : s.Live D c u) (htask : t.task = s.task) (hlife : t.life = s.life)
    (hrun : t.running = s.running)
    (hsem : ∀ x, ((t.sem x).waiters).Sublist (s.sem x).waiters)
    (hdev : ∀ i, ((t.dev i).waiters).Sublist (s.dev i).waiters)
    (hlog : t.log = s.log) : t.Live D c u := by
  obtain ⟨⟨h1, h2, h3, h4, h5, h6⟩, ⟨h7, h8, h9, h10⟩⟩ := h
  refine ⟨⟨?_, ?_, ?_, ?_, ?_, ?_⟩, ⟨?_, ?_, ?_, ?_⟩⟩
  · rwa [hrun, hlife]
  · rw [hlife, htask]
    exact fun x p hp => h2 x p ((hsem x).subset hp)
  · rw [hlife, htask]
    exact fun i p hp => h3 i p ((hdev i).subset hp)
  · exact fun x => (h4 x).sublist (hsem x)
  · exact fun i => (h5 i).sublist (hdev i)
  · rwa [hlife, hlog]
  · unfold Alive at h7 ⊢
    rwa [hlife, htask, hlog]
  · rwa [hlog]
  · rwa [htask]
  · rwa [htask]

/-- A process that waits in no line gets an answer. -/
theorem answer (h : s.Live D c u) (hp : s.Alive p) (hfree : s.Free p)
    (hprog : (s.task p).prog = .act a k) (hadm : Admitted D c (s.answer p r).log) :
    (s.answer p r).Live D c u := by
  have hfollows := h.keeps.prog p hp
  rw [hprog] at hfollows
  have hlog := answer_log (r := r) hprog
  rw [hlog] at hadm
  have hborn : s.life p ≠ .unborn := by
    rcases hp with hp | hp <;> rw [hp] <;> exact nofun
  rw [answer_eq hprog] at hlog ⊢
  constructor
  · constructor
    case running =>
      intro q hq
      by_cases hqp : q = p
      · exact hqp ▸ Function.update_self ..
      · exact (Function.update_of_ne hqp ..).trans (h.sane.running q hq)
    case sem =>
      intro x q hq
      have hqp : q ≠ p := fun heq => hfree.sem x (heq ▸ hq)
      simp only [Function.update_of_ne hqp]
      exact h.sane.sem x q hq
    case dev =>
      intro i q hq
      have hqp : q ≠ p := fun heq => hfree.dev i (heq ▸ hq)
      simp only [Function.update_of_ne hqp]
      exact h.sane.dev i q hq
    case semNodup => exact h.sane.semNodup
    case devNodup => exact h.sane.devNodup
    case unborn =>
      intro q hq
      have hqp : q ≠ p := by
        rintro rfl
        simp at hq
      simp only [Function.update_of_ne hqp] at hq
      rw [hlog]
      exact List.forall_mem_cons.mpr ⟨hqp.symm, h.sane.unborn q hq⟩
  · constructor
    case prog =>
      intro q hq
      rw [hlog]
      by_cases hqp : q = p
      · subst hqp
        rw [ghost_cons_self (p := q) rfl]
        simpa only [Function.update_self] using hfollows.2 r s.view hadm.1
      · rw [ghost_cons_of_ne (Ne.symm hqp)]
        simp only [Alive, Function.update_of_ne hqp] at hq ⊢
        exact h.keeps.prog q hq
    case allowed =>
      rw [hlog]
      exact ⟨hfollows.1, h.keeps.allowed⟩
    case old =>
      intro q trap
      by_cases hqp : q = p
      · subst hqp
        simpa only [Function.update_self] using h.keeps.old q trap
      · simpa only [Function.update_of_ne hqp] using h.keeps.old q trap
    case new =>
      intro q trap area
      by_cases hqp : q = p
      · subst hqp
        simpa only [Function.update_self] using h.keeps.new q trap area
      · simpa only [Function.update_of_ne hqp] using h.keeps.new q trap area

/-- A process that waits in no line is ready somewhere in its code. -/
theorem place (h : s.Live D c u) (hfree : s.Free p) {t : Task}
    (hprog : Follows (D p) t.prog (ghost D c p s.log) fun _ _ => True)
    (hold : ∀ trap, Follows (D p) (t.old trap).prog (u p) fun _ _ => True)
    (hnew : ∀ trap area, t.new trap = some area → ∃ g, (D p).may g (.spectrapvec trap area)) :
    ({ s.setTask p t with life := Function.update s.life p .ready } : Sys ι).Live D c u := by
  constructor
  · constructor
    case running =>
      intro q hq
      by_cases hqp : q = p
      · exact hqp ▸ Function.update_self ..
      · exact (Function.update_of_ne hqp ..).trans (h.sane.running q hq)
    case sem =>
      intro x q hq
      have hqp : q ≠ p := fun heq => hfree.sem x (heq ▸ hq)
      simp only [Sys.setTask, Function.update_of_ne hqp]
      exact h.sane.sem x q hq
    case dev =>
      intro i q hq
      have hqp : q ≠ p := fun heq => hfree.dev i (heq ▸ hq)
      simp only [Sys.setTask, Function.update_of_ne hqp]
      exact h.sane.dev i q hq
    case semNodup => exact h.sane.semNodup
    case devNodup => exact h.sane.devNodup
    case unborn =>
      intro q hq
      have hqp : q ≠ p := by
        rintro rfl
        simp at hq
      simp only [Function.update_of_ne hqp] at hq
      exact h.sane.unborn q hq
  · constructor
    case prog =>
      intro q hq
      by_cases hqp : q = p
      · subst hqp
        simp only [Sys.setTask, Function.update_self]
        exact hprog
      · simp only [Alive, Sys.setTask, Function.update_of_ne hqp] at hq ⊢
        exact h.keeps.prog q hq
    case allowed => exact h.keeps.allowed
    case old =>
      intro q trap
      by_cases hqp : q = p
      · subst hqp
        simpa only [Sys.setTask, Function.update_self] using hold trap
      · simpa only [Sys.setTask, Function.update_of_ne hqp] using h.keeps.old q trap
    case new =>
      intro q trap area
      by_cases hqp : q = p
      · subst hqp
        simpa only [Sys.setTask, Function.update_self] using hnew trap area
      · simpa only [Sys.setTask, Function.update_of_ne hqp] using h.keeps.new q trap area

theorem setTask (h : s.Live D c u) (hp : s.life p = .ready) {t : Task}
    (hprog : Follows (D p) t.prog (ghost D c p s.log) fun _ _ => True)
    (hold : ∀ trap, Follows (D p) (t.old trap).prog (u p) fun _ _ => True)
    (hnew : ∀ trap area, t.new trap = some area → ∃ g, (D p).may g (.spectrapvec trap area)) :
    (s.setTask p t).Live D c u := by
  have hlife : Function.update s.life p .ready = s.life := by
    rw [← hp, Function.update_eq_self]
  have hplace := h.place (h.sane.free hp) hprog hold hnew
  rw [hlife] at hplace
  exact hplace

theorem goOn (h : s.Live D c u) (hp : s.life p = .ready) (hprog : (s.task p).prog = .act a k)
    (hadm : Admitted D c (s.answer p r).log) : (s.answer p r).Live D c u :=
  h.answer (.inl hp) (h.sane.free hp) hprog hadm

/-- The running process joins a line that fits its action. -/
theorem block (h : s.Live D c u) (hp : s.life p = .ready) {sem : Sem → Semaphore ι}
    {dev : Word → Semaphore ι}
    (hsem : ∀ x, (sem x).waiters = (s.sem x).waiters ∨
      (sem x).waiters = (s.sem x).waiters ++ [p] ∧ ∃ k, (s.task p).prog = .act (.passeren x) k)
    (hdev : ∀ i, (dev i).waiters = (s.dev i).waiters ∨
      (dev i).waiters = (s.dev i).waiters ++ [p] ∧
        ∃ l d r k, (s.task p).prog = .act (.waitio l d r) k ∧ ¬ l < DISKINT ∧
          waitioIndex l d r = i) :
    ({ s with sem := sem, dev := dev }.block p).Live D c u := by
  have hfree := h.sane.free hp
  have hlife : ∀ q, q ≠ p → Function.update s.life p .blocked q = s.life q :=
    fun q hqp => Function.update_of_ne hqp ..
  constructor
  · constructor
    case running => exact nofun
    case sem =>
      intro x q hq
      have hq' : q ∈ (sem x).waiters := hq
      rcases hsem x with hx | ⟨hx, hprog⟩
      · rw [hx] at hq'
        obtain ⟨hb, hact⟩ := h.sane.sem x q hq'
        exact ⟨(hlife q fun heq => hfree.sem x (heq ▸ hq')).trans hb, hact⟩
      · rw [hx] at hq'
        rcases List.mem_append.mp hq' with hold | hnew
        · obtain ⟨hb, hact⟩ := h.sane.sem x q hold
          exact ⟨(hlife q fun heq => hfree.sem x (heq ▸ hold)).trans hb, hact⟩
        · obtain rfl := List.mem_singleton.mp hnew
          exact ⟨Function.update_self .., hprog⟩
    case dev =>
      intro i q hq
      have hq' : q ∈ (dev i).waiters := hq
      rcases hdev i with hx | ⟨hx, hprog⟩
      · rw [hx] at hq'
        obtain ⟨hb, hact⟩ := h.sane.dev i q hq'
        exact ⟨(hlife q fun heq => hfree.dev i (heq ▸ hq')).trans hb, hact⟩
      · rw [hx] at hq'
        rcases List.mem_append.mp hq' with hold | hnew
        · obtain ⟨hb, hact⟩ := h.sane.dev i q hold
          exact ⟨(hlife q fun heq => hfree.dev i (heq ▸ hold)).trans hb, hact⟩
        · obtain rfl := List.mem_singleton.mp hnew
          exact ⟨Function.update_self .., hprog⟩
    case semNodup =>
      intro x
      have hnd := h.sane.semNodup x
      rcases hsem x with hx | ⟨hx, -⟩
      · exact hx ▸ hnd
      · have hnd' := List.Nodup.concat (hfree.sem x) hnd
        rw [List.concat_eq_append, ← hx] at hnd'
        exact hnd'
    case devNodup =>
      intro i
      have hnd := h.sane.devNodup i
      rcases hdev i with hx | ⟨hx, -⟩
      · exact hx ▸ hnd
      · have hnd' := List.Nodup.concat (hfree.dev i) hnd
        rw [List.concat_eq_append, ← hx] at hnd'
        exact hnd'
    case unborn =>
      intro q hq
      have hq' : Function.update s.life p .blocked q = .unborn := hq
      have hqp : q ≠ p := by
        rintro rfl
        simp at hq'
      exact h.sane.unborn q ((hlife q hqp).symm.trans hq')
  · refine ⟨?_, h.keeps.allowed, h.keeps.old, h.keeps.new⟩
    intro q hq
    by_cases hqp : q = p
    · subst hqp
      exact h.keeps.prog q (.inl hp)
    · simp only [Alive, Sys.block, hlife q hqp] at hq
      exact h.keeps.prog q hq

theorem P (h : s.Live D c u) (hp : s.life p = .ready)
    (hprog : (s.task p).prog = .act (.passeren x) k) (hadm : Admitted D c (s.P p x).log) :
    (s.P p x).Live D c u := by
  have hfree := h.sane.free hp
  unfold Sys.P at hadm ⊢
  by_cases hpos : 0 < (s.sem x).value
  · have hsem : ∀ y, (Function.update s.sem x ((s.sem x).down p) y).waiters =
        (s.sem y).waiters := by
      intro y
      by_cases hyx : y = x
      · subst hyx
        rw [Function.update_self]
        exact if_neg (by omega)
      · rw [Function.update_of_ne hyx]
    simp only [if_pos hpos] at hadm ⊢
    refine answer (k := k) ?_ (.inl hp) ⟨fun y => ?_, hfree.dev⟩ hprog hadm
    · exact h.frame rfl rfl rfl (fun y => (hsem y).symm ▸ .refl _) (fun _ => .refl _) rfl
    · exact (hsem y).symm ▸ hfree.sem y
  · simp only [if_neg hpos]
    refine h.block hp (fun y => ?_) fun _ => .inl rfl
    by_cases hyx : y = x
    · subst hyx
      rw [Function.update_self]
      exact .inr ⟨if_pos (by omega), k, hprog⟩
    · rw [Function.update_of_ne hyx]
      exact .inl rfl

theorem waitDev (h : s.Live D c u) (hp : s.life p = .ready) {l d n : Word}
    (hprog : (s.task p).prog = .act (.waitio l d n) k) (hl : ¬ l < DISKINT)
    (hadm : Admitted D c (s.waitDev p (waitioIndex l d n) r).log) :
    (s.waitDev p (waitioIndex l d n) r).Live D c u := by
  have hfree := h.sane.free hp
  generalize hi : waitioIndex l d n = i at hadm ⊢
  unfold Sys.waitDev at hadm ⊢
  by_cases hpos : 0 < (s.dev i).value
  · have hdev : ∀ j, (Function.update s.dev i ((s.dev i).down p) j).waiters =
        (s.dev j).waiters := by
      intro j
      by_cases hj : j = i
      · subst hj
        rw [Function.update_self]
        exact if_neg (by omega)
      · rw [Function.update_of_ne hj]
    simp only [if_pos hpos] at hadm ⊢
    refine answer (k := k) ?_ (.inl hp) ⟨hfree.sem, fun j => ?_⟩ hprog hadm
    · exact h.frame rfl rfl rfl (fun _ => .refl _) (fun j => (hdev j).symm ▸ .refl _) rfl
    · exact (hdev j).symm ▸ hfree.dev j
  · simp only [if_neg hpos]
    refine h.block hp (fun _ => .inl rfl) fun j => ?_
    by_cases hj : j = i
    · subst hj
      rw [Function.update_self]
      exact .inr ⟨if_pos (by omega), l, d, n, k, hprog, hl, hi⟩
    · rw [Function.update_of_ne hj]
      exact .inl rfl

/-- The first of `ws`, which waits in no line any more, gets an answer. -/
theorem wake (h : s.Live D c u) {ws : List ι}
    (hws : ∀ q ∈ ws.head?, s.life q = .blocked ∧ s.Free q ∧ ∃ a k, (s.task q).prog = .act a k)
    (hadm : Admitted D c (s.wake ws r).log) : (s.wake ws r).Live D c u := by
  cases ws with
  | nil => exact h
  | cons q ws =>
    obtain ⟨hb, hfree, a, k, hprog⟩ := hws q rfl
    exact h.answer (.inr hb) hfree hprog hadm

/-- A semaphore without its first waiter, who now waits in no line. -/
theorem upSem (h : s.Live D c u) (x : Sem) :
    ({ s with sem := Function.update s.sem x (s.sem x).up } : Sys ι).Live D c u ∧
      ∀ q ∈ (s.sem x).waiters.head?, s.life q = .blocked ∧
        ({ s with sem := Function.update s.sem x (s.sem x).up } : Sys ι).Free q ∧
        ∃ k, (s.task q).prog = .act (.passeren x) k := by
  constructor
  · refine h.frame rfl rfl rfl (fun y => ?_) (fun _ => .refl _) rfl
    by_cases hyx : y = x
    · subst hyx
      simp only [Function.update_self]
      exact List.tail_sublist _
    · simp only [Function.update_of_ne hyx]
      exact .refl _
  · intro q hq
    have hmem := List.mem_of_mem_head? hq
    obtain ⟨hb, k, hprog⟩ := h.sane.sem x q hmem
    refine ⟨hb, ⟨fun y hy => ?_, fun i hi => ?_⟩, k, hprog⟩
    · by_cases hyx : y = x
      · subst hyx
        simp only [Function.update_self] at hy
        have hnd := h.sane.semNodup y
        rw [List.eq_cons_of_mem_head? hq, List.nodup_cons] at hnd
        exact hnd.1 hy
      · simp only [Function.update_of_ne hyx] at hy
        obtain ⟨-, k', hprog'⟩ := h.sane.sem y q hy
        rw [hprog] at hprog'
        injection hprog' with hact
        injection hact with hxy
        exact hyx hxy.symm
    · obtain ⟨-, l, d, u, k', hprog', -⟩ := h.sane.dev i q hi
      rw [hprog] at hprog'
      injection hprog' with hact
      nomatch hact

theorem upDev (h : s.Live D c u) (i : Word) :
    ({ s with dev := Function.update s.dev i (s.dev i).up } : Sys ι).Live D c u ∧
      ∀ q ∈ (s.dev i).waiters.head?, s.life q = .blocked ∧
        ({ s with dev := Function.update s.dev i (s.dev i).up } : Sys ι).Free q ∧
        ∃ l d u k, (s.task q).prog = .act (.waitio l d u) k ∧ waitioIndex l d u = i := by
  constructor
  · refine h.frame rfl rfl rfl (fun _ => .refl _) (fun j => ?_) rfl
    by_cases hj : j = i
    · subst hj
      simp only [Function.update_self]
      exact List.tail_sublist _
    · simp only [Function.update_of_ne hj]
      exact .refl _
  · intro q hq
    have hmem := List.mem_of_mem_head? hq
    obtain ⟨hb, l, d, u, k, hprog, -, hi⟩ := h.sane.dev i q hmem
    refine ⟨hb, ⟨fun y hy => ?_, fun j hj => ?_⟩, l, d, u, k, hprog, hi⟩
    · obtain ⟨-, k', hprog'⟩ := h.sane.sem y q hy
      rw [hprog] at hprog'
      injection hprog' with hact
      nomatch hact
    · by_cases hji : j = i
      · subst hji
        simp only [Function.update_self] at hj
        have hnd := h.sane.devNodup j
        rw [List.eq_cons_of_mem_head? hq, List.nodup_cons] at hnd
        exact hnd.1 hj
      · simp only [Function.update_of_ne hji] at hj
        obtain ⟨-, l', d', u', k', hprog', -, hj'⟩ := h.sane.dev j q hj
        rw [hprog] at hprog'
        injection hprog' with hact
        injection hact with h1 h2 h3
        subst h1 h2 h3
        exact hji (hj'.symm.trans hi)

theorem signal (h : s.Live D c u) {status : Word} (hadm : Admitted D c (s.signal i status).log) :
    (s.signal i status).Live D c u := by
  obtain ⟨hup, hfirst⟩ := h.upDev i
  refine hup.wake (fun q hq => ?_) hadm
  obtain ⟨hb, hfree, l, d, u, k, hprog, -⟩ := hfirst q hq
  exact ⟨hb, hfree, _, k, hprog⟩

end Live

/-- What an answer to another process leaves alone. -/
theorem answer_of_ne (hpq : q ≠ p) :
    (s.answer p r).task q = s.task q ∧ (s.answer p r).life q = s.life q := by
  unfold answer
  split
  · exact ⟨Function.update_of_ne hpq .., Function.update_of_ne hpq ..⟩
  · exact ⟨rfl, rfl⟩

/-- What an answer leaves alone in every process. -/
theorem answer_task (s : Sys ι) (p q : ι) (r : Word) :
    ((s.answer p r).task q).status = (s.task q).status ∧
      ((s.answer p r).task q).new = (s.task q).new := by
  unfold answer
  split
  · by_cases hqp : q = p
    · subst hqp
      simp only [Function.update_self, and_self]
    · simp only [Function.update_of_ne hqp, and_self]
  · exact ⟨rfl, rfl⟩

theorem answer_lines (s : Sys ι) (p : ι) (r : Word) :
    (s.answer p r).sem = s.sem ∧ (s.answer p r).dev = s.dev ∧
      (s.answer p r).running = s.running := by
  unfold answer
  split <;> exact ⟨rfl, rfl, rfl⟩

namespace Live

theorem V (h : s.Live D c u) (hp : s.life p = .ready)
    (hprog : (s.task p).prog = .act a k) (hadm : Admitted D c (s.V p x).log) :
    (s.V p x).Live D c u := by
  obtain ⟨hup, hfirst⟩ := h.upSem x
  have hfree := h.sane.free hp
  unfold Sys.V at hadm ⊢
  simp only at hadm ⊢
  generalize ht : ({ s with sem := Function.update s.sem x (s.sem x).up } : Sys ι) = t
    at hup hfirst hadm ⊢
  have htask : (t.task p).prog = .act a k := by rw [← ht, hprog]
  have hlife : t.life p = .ready := by rw [← ht, hp]
  obtain ⟨hsem, hdev, -⟩ := answer_lines t p 0
  obtain ⟨log, hlog⟩ := wake_log (t.answer p 0) (s.sem x).waiters 0
  have hadm' := hadm
  rw [hlog] at hadm'
  refine (hup.goOn hlife htask hadm'.suffix).wake (fun q hq => ?_) hadm
  obtain ⟨hb, hfreeq, k', hprog'⟩ := hfirst q hq
  have hqp : q ≠ p := fun heq => hfree.sem x (heq ▸ List.mem_of_mem_head? hq)
  obtain ⟨htask', hlife'⟩ := answer_of_ne (s := t) (r := 0) hqp
  rw [htask', hlife']
  rw [← ht] at hfreeq hsem hdev ⊢
  refine ⟨hb, ⟨?_, ?_⟩, _, k', hprog'⟩
  · rw [hsem]
    exact hfreeq.sem
  · rw [hdev]
    exact hfreeq.dev

theorem kill (h : s.Live D c u) (hp : s.life p = .ready) :
    (s.kill S p).Live D c u ∨ (s.kill S p).Halted ∧ (s.kill S p).log = s.log := by
  by_cases hroot : S.root p = true
  · right
    refine ⟨⟨fun q => ?_, rfl⟩, rfl⟩
    simp only [Sys.kill, if_pos hroot]
  · left
    have hfree := h.sane.free hp
    have hlife : (s.kill S p).life = Function.update s.life p .dead := by
      simp only [Sys.kill, if_neg hroot]
    have hother : ∀ q, q ≠ p → (s.kill S p).life q = s.life q := by
      intro q hqp
      rw [hlife, Function.update_of_ne hqp]
    have hdead : (s.kill S p).life p = .dead := by rw [hlife, Function.update_self]
    have hne : ∀ q, (s.kill S p).life q ≠ .dead → q ≠ p := by
      rintro q hq rfl
      exact hq hdead
    constructor
    · constructor
      case running => exact nofun
      case sem =>
        intro x q hq
        obtain ⟨hb, hact⟩ := h.sane.sem x q hq
        exact ⟨(hother q fun heq => hfree.sem x (heq ▸ hq)).trans hb, hact⟩
      case dev =>
        intro i q hq
        obtain ⟨hb, hact⟩ := h.sane.dev i q hq
        exact ⟨(hother q fun heq => hfree.dev i (heq ▸ hq)).trans hb, hact⟩
      case semNodup => exact h.sane.semNodup
      case devNodup => exact h.sane.devNodup
      case unborn =>
        intro q hq
        have hqp := hne q (hq ▸ nofun)
        exact h.sane.unborn q ((hother q hqp).symm.trans hq)
    · refine ⟨?_, h.keeps.allowed, h.keeps.old, h.keeps.new⟩
      intro q hq
      have hqp : q ≠ p := by
        apply hne q
        rcases hq with hq | hq <;> rw [hq] <;> exact nofun
      rw [Alive, hother q hqp] at hq
      exact h.keeps.prog q hq

/-- A trap runs the handler in the ghost state of the process, or kills it. -/
theorem passUp (h : s.Live D c u) (hp : s.life p = .ready) {trap : Trap} {st : State} {rest : Prog}
    (hrest : Follows (D p) rest (u p) fun _ _ => True)
    (henter : ∀ g new, (D p).may g (.spectrapvec trap new) →
      Follows (D p) (S.enter p new.sPc new.sAsid st) (ghost D c p s.log) fun _ _ => True) :
    (s.passUp S p trap st rest).Live D c u ∨
      (s.passUp S p trap st rest).Halted ∧ (s.passUp S p trap st rest).log = s.log := by
  unfold Sys.passUp
  simp only
  cases hnew : (s.task p).new trap with
  | none => exact h.kill hp
  | some area =>
    left
    obtain ⟨g, hmay⟩ := h.keeps.new p trap area hnew
    refine h.setTask hp ?_ (fun trap' => ?_) (h.keeps.new p)
    · exact henter g area hmay
    · by_cases ht : trap' = trap
      · subst ht
        simpa only [Function.update_self] using hrest
      · simpa only [Function.update_of_ne ht] using h.keeps.old p trap'

/-- A trap that interrupts a process where it may be interrupted. -/
theorem passUp_clean (hS : S.Obeys D c u) (h : s.Live D c u) (hp : s.life p = .ready) (trap : Trap)
    (st : State) (hclean : ghost D c p s.log = u p) :
    (s.passUp S p trap st (s.task p).prog).Live D c u ∨
      (s.passUp S p trap st (s.task p).prog).Halted ∧
        (s.passUp S p trap st (s.task p).prog).log = s.log := by
  apply h.passUp hp
  · rw [← hclean]
    exact h.keeps.prog p (.inl hp)
  · rw [hclean]
    exact fun g new hmay => hS.enter p g trap new st hmay

theorem access (hS : S.Obeys D c u) (h : s.Live D c u) (hp : s.life p = .ready)
    (hclean : ghost D c p s.log = u p) (code virtAddr : Word) {hit : Sys ι → Word → Sys ι}
    (hhit : ∀ tlb frame, s.access S p code virtAddr hit = hit { s with tlb := tlb } frame →
      (hit { s with tlb := tlb } frame).Live D c u) :
    (s.access S p code virtAddr hit).Live D c u ∨ (s.access S p code virtAddr hit).Halted ∧ (s.access S p code virtAddr hit).log = s.log := by
  cases hentry : s.entry p (virtAddr >>> 12) with
  | none =>
    have hacc : s.access S p code virtAddr hit =
        s.passUp S p .tlb (s.tlbState p 14 virtAddr) (s.task p).prog := by
      simp only [Sys.access, hentry]
    rw [hacc]
    exact h.passUp_clean hS hp .tlb _ hclean
  | some e =>
    have ht : ({ s with
        tlb := Function.update s.tlb p (Function.update (s.tlb p) (virtAddr >>> 12) (some e)) } :
          Sys ι).Live D c u :=
      h.frame rfl rfl rfl (fun _ => .refl _) (fun _ => .refl _) rfl
    by_cases he : Valid e
    · have hacc : s.access S p code virtAddr hit = hit { s with
          tlb := Function.update s.tlb p (Function.update (s.tlb p) (virtAddr >>> 12) (some e)) }
            (e &&& 0xFFFFF000) := by
        simp only [Sys.access, hentry, if_pos he]
      rw [hacc]
      exact .inl (hhit _ _ hacc)
    · have hacc : s.access S p code virtAddr hit = Sys.passUp S { s with
          tlb := Function.update s.tlb p (Function.update (s.tlb p) (virtAddr >>> 12) (some e)) }
            p .tlb (s.tlbState p code virtAddr) (s.task p).prog := by
        simp only [Sys.access, hentry, if_neg he]
      rw [hacc]
      exact ht.passUp_clean hS hp .tlb _ hclean

theorem perform (hS : S.Obeys D c u) (h : s.Live D c u) (hrun : s.running = some p)
    (hprog : (s.task p).prog = .act a k) (hadm : Admitted D c (s.perform S p r a).log) :
    (s.perform S p r a).Live D c u ∨ (s.perform S p r a).Halted ∧ (s.perform S p r a).log = s.log := by
  have hp : s.life p = .ready := h.sane.running p hrun
  have hprog' := h.keeps.prog p (.inl hp)
  have hfollows := hprog'
  rw [hprog] at hfollows
  have hmay : (D p).may (ghost D c p s.log) a := hfollows.1
  cases a with
  | passeren x => exact .inl (h.P hp hprog hadm)
  | verhogen x => exact .inl (h.V hp hprog hadm)
  | waitio l d u =>
    by_cases hl : l < DISKINT
    · simp only [Sys.perform, if_pos hl]
      exact h.kill hp
    · simp only [Sys.perform, if_neg hl] at hadm ⊢
      exact .inl (h.waitDev hp hprog hl hadm)
  | createprocess sAsid sStatus =>
    left
    by_cases hborn : s.life (S.child sAsid) = .unborn
    · have hpc : p ≠ S.child sAsid := by
        rintro rfl
        rw [hp] at hborn
        nomatch hborn
      have hghost := ghost_eq_of_forall_ne (D := D) (c := c) (h.sane.unborn _ hborn)
      have hfree : s.Free (S.child sAsid) := by
        constructor
        · intro x hx
          rw [(h.sane.sem x _ hx).1] at hborn
          nomatch hborn
        · intro i hi
          rw [(h.sane.dev i _ hi).1] at hborn
          nomatch hborn
      simp only [Sys.perform, if_pos hborn] at hadm ⊢
      refine goOn (a := .createprocess sAsid sStatus) (k := k) (h.place hfree ?_ (h.keeps.old _) nofun) ?_ ?_ hadm
      · rw [hghost]
        exact hS.start p _ sAsid sStatus hmay
      · exact (Function.update_of_ne hpc ..).trans hp
      · simpa only [Sys.setTask, Function.update_of_ne hpc] using hprog
    · simp only [Sys.perform, if_neg hborn] at hadm ⊢
      exact h.goOn hp hprog hadm
  | spectrapvec trap area =>
    by_cases hnew : (s.task p).new trap = none
    · left
      simp only [Sys.perform, if_pos hnew] at hadm ⊢
      refine goOn (a := .spectrapvec trap area) (k := k)
        (h.setTask hp hprog' (h.keeps.old p) ?_) hp ?_ hadm
      · intro trap' area' ha
        by_cases ht : trap' = trap
        · subst ht
          simp only [Function.update_self, Option.some.injEq] at ha
          exact ha ▸ ⟨_, hmay⟩
        · simp only [Function.update_of_ne ht] at ha
          exact h.keeps.new p trap' area' ha
      · simpa only [Sys.setTask, Function.update_self] using hprog
    · simp only [Sys.perform, if_neg hnew]
      exact h.kill hp
  | getSTATUS => exact .inl (h.goOn hp hprog hadm)
  | setSTATUS status =>
    left
    refine goOn (a := .setSTATUS status) (k := k)
      (h.setTask hp hprog' (h.keeps.old p) (h.keeps.new p)) hp ?_ hadm
    simpa only [Sys.setTask, Function.update_self] using hprog
  | getENTRYHI => exact .inl (h.goOn hp hprog hadm)
  | TLBCLR =>
    left
    refine goOn (h.frame rfl rfl rfl ?_ ?_ rfl) hp hprog hadm <;> exact fun _ => .refl _
  | setCommand reg v =>
    left
    simp only [Sys.perform] at hadm ⊢
    split_ifs at hadm ⊢
    · refine goOn (h.frame rfl rfl rfl ?_ ?_ rfl) hp hprog hadm <;> exact fun _ => .refl _
    · exact h.goOn hp hprog hadm
  | setData0 reg v =>
    left
    simp only [Sys.perform] at hadm ⊢
    split_ifs at hadm ⊢
    · refine goOn (h.frame rfl rfl rfl ?_ ?_ rfl) hp hprog hadm <;> exact fun _ => .refl _
    · exact h.goOn hp hprog hadm
  | setData1 reg v => exact .inl (h.goOn hp hprog hadm)
  | getData1 reg => exact .inl (h.goOn hp hprog hadm)
  | tables f =>
    left
    refine goOn (h.frame rfl rfl rfl ?_ ?_ rfl) hp hprog hadm <;> exact fun _ => .refl _
  | load virtAddr =>
    have hperf : s.perform S p r (.load virtAddr) = s.access S p 2 virtAddr fun t frame =>
      t.answer p (t.ram frame (virtAddr &&& 0xFFF)) := rfl
    rw [hperf] at hadm ⊢
    refine h.access hS hp (hS.load p _ virtAddr hmay) _ _ ?_
    intro tlb frame hacc
    rw [hacc] at hadm
    refine goOn (h.frame rfl rfl rfl ?_ ?_ rfl) hp hprog hadm <;> exact fun _ => .refl _

theorem leave (hS : S.Obeys D c u) (h : s.Live D c u) (hp : s.life p = .ready) {l : Leave}
    (hprog : (s.task p).prog = .leave l) :
    (s.leave S p l).Live D c u ∨ (s.leave S p l).Halted ∧ (s.leave S p l).log = s.log := by
  have hfollows := h.keeps.prog p (.inl hp)
  rw [hprog] at hfollows
  have hleave : (D p).leave (ghost D c p s.log) l := hfollows
  cases l with
  | ldst trap st =>
    left
    refine h.setTask hp ?_ (h.keeps.old p) (h.keeps.new p)
    rw [hS.ldst p _ _ _ hleave]
    exact h.keeps.old p trap
  | user sAsid sSp sStatus sPc => exact .inl h
  | terminate =>
    exact h.passUp hp trivial fun g new hmay => hS.terminate p g _ new hmay hleave
  | terminateprocess => exact h.kill hp
  | again asid i =>
    left
    refine h.setTask hp ?_ (h.keeps.old p) (h.keeps.new p)
    exact hS.again p _ asid i hleave

theorem go (hS : S.Obeys D c u) (h : s.Live D c u) (hrun : s.running = some p)
    (hadm : Admitted D c (s.go S p r).log) : 
      (s.go S p r).Live D c u ∨ (s.go S p r).Halted ∧ (s.go S p r).log = s.log := by
  have hp : s.life p = .ready := h.sane.running p hrun
  unfold Sys.go at hadm ⊢
  cases hprog : (s.task p).prog with
  | done a => exact .inl h
  | leave l => exact h.leave hS hp hprog
  | act a k =>
    rw [hprog] at hadm
    exact h.perform hS hrun hprog hadm

theorem user (hS : S.Obeys D c u) (h : s.Live D c u) (hrun : s.running = some p)
    (hmode : (s.task p).InUserMode) (act : UserAct) :
    (s.user S p act).Live D c u ∨ (s.user S p act).Halted ∧ (s.user S p act).log = s.log := by
  have hp : s.life p = .ready := h.sane.running p hrun
  have hclean : ghost D c p s.log = u p := by
    have hfollows := h.keeps.prog p (.inl hp)
    unfold Task.InUserMode at hmode
    split at hmode
    · rename_i hprog
      rw [hprog] at hfollows
      exact hS.user p _ _ _ _ _ hfollows
    · exact hmode.elim
  cases act with
  | load virtAddr =>
    simp only [Sys.user]
    refine h.access hS hp hclean _ _ fun tlb frame _ => ?_
    refine h.frame rfl rfl rfl ?_ ?_ rfl <;> exact fun _ => .refl _
  | store virtAddr v =>
    simp only [Sys.user]
    refine h.access hS hp hclean _ _ fun tlb frame _ => ?_
    refine h.frame rfl rfl rfl ?_ ?_ rfl <;> exact fun _ => .refl _
  | syscall st =>
    simp only [Sys.user]
    split_ifs
    · exact h.passUp_clean hS hp .pgm st hclean
    · exact h.passUp_clean hS hp .sys st hclean
  | progTrap st => exact h.passUp_clean hS hp .pgm st hclean
  | tlbTrap st => exact h.passUp_clean hS hp .tlb st hclean

theorem diskInt (h : s.Live D c u) {status : Word} (hadm : Admitted D c (s.diskInt status).log) :
    (s.diskInt status).Live D c u := by
  unfold Sys.diskInt at hadm ⊢
  cases hbusy : s.disk.busy with
  | none => exact h
  | some command =>
    simp only [hbusy] at hadm
    refine signal ?_ hadm
    split_ifs
    · unfold transfer
      simp only
      split_ifs <;> refine h.frame rfl rfl rfl ?_ ?_ rfl <;> exact fun _ => .refl _
    · refine h.frame rfl rfl rfl ?_ ?_ rfl <;> exact fun _ => .refl _

theorem step (hS : S.Obeys D c u) (h : s.Live D c u) {e : Event ι} (hcan : s.Can e)
    (hadm : Admitted D c (s.step S e).log) : 
      (s.step S e).Live D c u ∨ (s.step S e).Halted ∧ (s.step S e).log = s.log := by
  cases e with
  | step r =>
    obtain ⟨p, hrun, -⟩ := hcan
    simp only [Sys.step, hrun] at hadm ⊢
    exact h.go hS hrun hadm
  | user u =>
    obtain ⟨p, hrun, hmode, -⟩ := hcan
    simp only [Sys.step, hrun]
    exact h.user hS hrun hmode u
  | dispatch p =>
    left
    refine ⟨⟨?_, h.sane.sem, h.sane.dev, h.sane.semNodup, h.sane.devNodup, h.sane.unborn⟩,
      ⟨h.keeps.prog, h.keeps.allowed, h.keeps.old, h.keeps.new⟩⟩
    intro q hq
    exact Option.some.inj hq ▸ hcan.1
  | diskInt status => exact .inl (h.diskInt hadm)
  | devInt index status => exact .inl (h.signal hadm)
  | tapeDma asid block =>
    left
    refine h.frame rfl rfl rfl ?_ ?_ rfl <;> exact fun _ => .refl _
  | tlbDrop p page =>
    left
    refine h.frame rfl rfl rfl ?_ ?_ rfl <;> exact fun _ => .refl _

end Live

section Traces

variable {tr : List (Obs ι)}

theorem kill_trace (h : tr <:+ s.trace) : tr <:+ (s.kill S p).trace :=
  h.trans (List.suffix_cons _ _)

theorem passUp_trace {trap : Trap} {st : State} {rest : Prog} (h : tr <:+ s.trace) :
    tr <:+ (s.passUp S p trap st rest).trace := by
  unfold passUp
  simp only
  split
  · exact kill_trace h
  · exact h

theorem access_trace {code virtAddr : Word} {hit : Sys ι → Word → Sys ι} (h : tr <:+ s.trace)
    (hhit : ∀ tlb frame, tr <:+ (hit { s with tlb := tlb } frame).trace) :
    tr <:+ (s.access S p code virtAddr hit).trace := by
  unfold access
  split
  · exact passUp_trace h
  · simp only
    split_ifs
    · exact hhit _ _
    · exact passUp_trace h

theorem perform_trace (h : tr <:+ s.trace) : tr <:+ (s.perform S p r a).trace := by
  cases a with
  | passeren x =>
    simp only [perform, P]
    split_ifs
    · exact answer_trace h
    · exact h
  | verhogen x => exact wake_trace (answer_trace h)
  | waitio l d u =>
    simp only [perform, waitDev]
    split_ifs
    · exact kill_trace h
    · exact answer_trace h
    · exact h
  | createprocess sAsid sStatus =>
    simp only [perform]
    split_ifs <;> exact answer_trace h
  | spectrapvec trap area =>
    simp only [perform]
    split_ifs
    · exact answer_trace h
    · exact kill_trace h
  | setCommand reg v | setData0 reg v =>
    simp only [perform]
    split_ifs <;> exact answer_trace h
  | getSTATUS | setSTATUS | getENTRYHI | TLBCLR | setData1 | getData1 | tables =>
    exact answer_trace h
  | load virtAddr => exact access_trace h fun _ _ => answer_trace h

theorem step_trace (s : Sys ι) (e : Event ι) : s.trace <:+ (s.step S e).trace := by
  have h : s.trace <:+ s.trace := List.suffix_refl _
  cases e with
  | step r =>
    cases hrun : s.running with
    | none =>
      simp only [step, hrun]
      exact h
    | some p =>
      simp only [step, hrun, go]
      split
      · exact h
      · rename_i l _
        cases l with
        | ldst | user | again => exact h
        | terminate => exact passUp_trace h
        | terminateprocess => exact kill_trace h
      · exact perform_trace h
  | user u =>
    cases hrun : s.running with
    | none =>
      simp only [step, hrun]
      exact h
    | some p =>
      simp only [step, hrun]
      cases u with
      | load | store => exact access_trace h fun _ _ => h.trans (List.suffix_cons _ _)
      | syscall st =>
        simp only [user]
        split_ifs <;> exact passUp_trace h
      | progTrap | tlbTrap => exact passUp_trace h
  | diskInt status =>
    simp only [step, diskInt]
    split
    · exact h
    · refine wake_trace ?_
      simp only [transfer]
      split_ifs <;> exact List.suffix_cons _ _
  | devInt index status => exact wake_trace h
  | dispatch | tapeDma | tlbDrop => exact h

end Traces

theorem step_log (s : Sys ι) (e : Event ι) : ∃ log, (s.step S e).log = log ++ s.log := by
  obtain ⟨tr, htr⟩ := s.step_trace (S := S) e
  exact ⟨tr.filterMap Obs.log, by rw [log, ← htr, List.filterMap_append, log]⟩

/-! ## Runs -/

omit [DecidableEq ι] in
theorem Fresh.log_eq (h : s.Fresh) : s.log = [] := by
  rw [log, h.trace, List.filterMap_nil]

theorem Fresh.live (h : s.Fresh)
    (hstart : ∀ p, s.life p = .ready → Follows (D p) (s.task p).prog (c p) fun _ _ => True) :
    s.Live D c u := by
  have hlog := h.log_eq
  have hsem : ∀ x, (s.sem x).waiters = [] := by
    intro x
    rw [Semaphore.waiters_eq_nil_iff, h.sem x]
    cases x <;> simp [Sem.first]
  have hdev : ∀ i, (s.dev i).waiters = [] := by
    intro i
    rw [Semaphore.waiters_eq_nil_iff, h.dev i]
  constructor
  · constructor
    case running =>
      simp [h.running]
    case sem => simp [hsem]
    case dev => simp [hdev]
    case semNodup => simp [hsem]
    case devNodup => simp [hdev]
    case unborn => simp [hlog]
  · constructor
    case prog =>
      intro p hp
      rw [hlog]
      rcases h.life p with hl | hl
      · exact absurd hl hp.not_unborn
      · exact hstart p hl
    case allowed =>
      rw [hlog]
      exact trivial
    case old =>
      intro p trap
      rw [h.old p trap]
      exact trivial
    case new =>
      intro p trap area ha
      simp [h.new p] at ha

/-- At first only `test` can run. -/
theorem Booted.prog {s : Sys Word} {p : Word} (h : s.Booted) (hp : s.life p = .ready) :
    (s.task p).prog = Phase3.test := by
  have hp0 : p = 0 := by
    by_contra hne
    rw [h.alone, Function.update_of_ne hne] at hp
    nomatch hp
  rw [hp0, h.test]

omit [DecidableEq ι] in
theorem Halted.not_open (h : s.Halted) : ¬ s.Open := fun hopen => hopen.1 h

theorem Halted.step (h : s.Halted) {e : Event ι} (hcan : s.Can e) :
    (s.step S e).Halted ∧ (s.step S e).trace = s.trace ∧ (s.step S e).tables = s.tables := by
  cases e with
  | step r | user u =>
    obtain ⟨p, hrun, -⟩ := hcan
    rw [h.running] at hrun
    nomatch hrun
  | dispatch p =>
    have hdead := hcan.1
    rw [h.dead p] at hdead
    nomatch hdead
  | diskInt | devInt => exact absurd hcan.2 h.not_open
  | tapeDma | tlbDrop => exact ⟨⟨h.dead, h.running⟩, rfl, rfl⟩

/-- A run of the system from a state in `init`. -/
abbrev Reaches (S : Setup ι) (init : Sys ι → Prop) :
    List (Sys ι × Event ι) → Sys ι → Prop :=
  Run init (step S) Can

end Sys

end Kaya.Phase3
