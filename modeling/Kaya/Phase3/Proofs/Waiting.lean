import Kaya.Phase3.Proofs.Mutex

/-!
# Who is blocked

A blocked process is in the line of a semaphore, and a semaphore for mutual exclusion that is not
free has somebody who holds it.
-/

namespace Kaya.Phase3

open Lib

variable {ι γ : Type} [DecidableEq ι]

namespace Sys

variable {S : Setup ι} {D : ι → Discipline Act Word Leave View γ} {c u : ι → γ} {s t : Sys ι}
  {p : ι} {a : Act} {k : Word → Prog} {r : Word} {x : Sem}

/-! ## Lines -/

/-- Every process that is blocked waits in a line. -/
def Queued (s : Sys ι) : Prop :=
  ∀ p, s.life p = .blocked → (∃ x, p ∈ (s.sem x).waiters) ∨ ∃ i, p ∈ (s.dev i).waiters

omit [DecidableEq ι] in
/-- Nobody leaves a line but to go on. -/
theorem Queued.eases (h : s.Queued) (hlife : ∀ p, t.life p = .blocked → s.life p = .blocked)
    (hsem : ∀ p x, t.life p = .blocked → p ∈ (s.sem x).waiters → p ∈ (t.sem x).waiters)
    (hdev : ∀ p i, t.life p = .blocked → p ∈ (s.dev i).waiters → p ∈ (t.dev i).waiters) :
    t.Queued := by
  intro p hp
  rcases h p (hlife p hp) with ⟨x, hx⟩ | ⟨i, hi⟩
  · exact .inl ⟨x, hsem p x hp hx⟩
  · exact .inr ⟨i, hdev p i hp hi⟩

omit [DecidableEq ι] in
theorem Queued.same (h : s.Queued) (hlife : ∀ p, t.life p = .blocked → s.life p = .blocked)
    (hsem : t.sem = s.sem) (hdev : t.dev = s.dev) : t.Queued := by
  refine h.eases hlife (fun p x _ hx => ?_) fun p i _ hi => ?_
  · rw [hsem]
    exact hx
  · rw [hdev]
    exact hi

theorem answer_blocked {q : ι} (h : (s.answer p r).life q = .blocked) : s.life q = .blocked := by
  unfold answer at h
  split at h
  · by_cases hqp : q = p
    · rw [hqp] at h
      exact absurd ((Function.update_self ..).symm.trans h) (by decide)
    · exact (Function.update_of_ne hqp ..).symm.trans h
  · exact h

theorem Queued.answer (h : s.Queued) (p : ι) (r : Word) : (s.answer p r).Queued := by
  obtain ⟨hsem, hdev, -⟩ := answer_lines s p r
  exact h.same (fun _ => answer_blocked) hsem hdev

theorem Queued.kill (h : s.Queued) (p : ι) : (s.kill S p).Queued := by
  refine h.same (fun q hq => ?_) rfl rfl
  change (if S.root p then fun _ => Life.dead else Function.update s.life p .dead) q = .blocked at hq
  split_ifs at hq
  by_cases hqp : q = p
  · rw [hqp, Function.update_self] at hq
    exact absurd hq (by decide)
  · exact (Function.update_of_ne hqp ..).symm.trans hq

theorem Queued.passUp (h : s.Queued) (p : ι) (trap : Trap) (st : State) (rest : Prog) :
    (s.passUp S p trap st rest).Queued := by
  simp only [Sys.passUp]
  split
  · exact h.kill p
  · exact h

theorem Queued.block (h : s.Queued)
    (hsem : ∀ x q, q ∈ (s.sem x).waiters → q ∈ (t.sem x).waiters)
    (hdev : ∀ i q, q ∈ (s.dev i).waiters → q ∈ (t.dev i).waiters) (hlife : t.life = s.life)
    (hp : (∃ x, p ∈ (t.sem x).waiters) ∨ ∃ i, p ∈ (t.dev i).waiters) : (t.block p).Queued := by
  intro q hq
  by_cases hqp : q = p
  · exact hqp ▸ hp
  · have hq' : s.life q = .blocked := by
      rw [← hlife]
      exact (Function.update_of_ne hqp ..).symm.trans hq
    exact (h q hq').imp (fun ⟨x, hx⟩ => ⟨x, hsem x q hx⟩) fun ⟨i, hi⟩ => ⟨i, hdev i q hi⟩

omit [DecidableEq ι] in
theorem mem_down {x : Semaphore ι} {q : ι} (hq : q ∈ x.waiters) (p : ι) : q ∈ (x.down p).waiters := by
  change q ∈ if x.value ≤ 0 then x.waiters ++ [p] else x.waiters
  split_ifs
  · exact List.mem_append_left _ hq
  · exact hq

omit [DecidableEq ι] in
theorem self_mem_down {x : Semaphore ι} (h : ¬ 0 < x.value) (p : ι) : p ∈ (x.down p).waiters := by
  change p ∈ if x.value ≤ 0 then x.waiters ++ [p] else x.waiters
  rw [if_pos (by omega)]
  exact List.mem_append_right _ List.mem_cons_self

omit [DecidableEq ι] in
theorem mem_update_down {α : Type} [DecidableEq α] {f : α → Semaphore ι} {i : α} (p : ι) {j : α}
    {q : ι} (hq : q ∈ (f j).waiters) : q ∈ (Function.update f i ((f i).down p) j).waiters := by
  by_cases hj : j = i
  · rw [hj, Function.update_self]
    exact mem_down (hj ▸ hq) p
  · rw [Function.update_of_ne hj]
    exact hq

theorem Queued.P (h : s.Queued) (p : ι) (x : Sem) : (s.P p x).Queued := by
  simp only [Sys.P]
  split_ifs with hpos
  · refine Queued.answer ?_ p 0
    exact h.eases (fun _ => id) (fun q y _ hq => mem_update_down p hq) fun _ _ _ => id
  · refine h.block (fun y q => mem_update_down p) (fun _ _ => id) rfl (.inl ⟨x, ?_⟩)
    change p ∈ (Function.update s.sem x ((s.sem x).down p) x).waiters
    rw [Function.update_self]
    exact self_mem_down hpos p

theorem Queued.waitDev (h : s.Queued) (p : ι) (i r : Word) : (s.waitDev p i r).Queued := by
  simp only [Sys.waitDev]
  split_ifs with hpos
  · refine Queued.answer ?_ p r
    exact h.eases (fun _ => id) (fun _ _ _ => id) fun q j _ hq => mem_update_down p hq
  · refine h.block (fun _ _ => id) (fun j q => mem_update_down p) rfl (.inr ⟨i, ?_⟩)
    change p ∈ (Function.update s.dev i ((s.dev i).down p) i).waiters
    rw [Function.update_self]
    exact self_mem_down hpos p

omit [DecidableEq ι] in
/-- Who was not the first in the line is still in it. -/
theorem mem_update_up {α : Type} [DecidableEq α] {f : α → Semaphore ι} {i j : α} {q : ι}
    (hq : q ∈ (f j).waiters) (hfirst : j = i → ∀ ws, (f i).waiters ≠ q :: ws) :
    q ∈ (Function.update f i (f i).up j).waiters := by
  by_cases hj : j = i
  · subst hj
    rw [Function.update_self]
    change q ∈ (f j).waiters.tail
    cases hws : (f j).waiters with
    | nil =>
      rw [hws] at hq
      exact absurd hq List.not_mem_nil
    | cons z ws =>
      rw [hws] at hq
      rcases List.mem_cons.mp hq with rfl | hrest
      · exact absurd hws (hfirst rfl ws)
      · exact hrest
  · rw [Function.update_of_ne hj]
    exact hq

theorem wake_first {ws : List ι} {q : ι} (hprog : (t.task q).prog = .act a k) :
    (t.wake (q :: ws) r).life q = .ready := by
  rw [wake, answer_eq hprog]
  exact Function.update_self ..

theorem wake_blocked {ws : List ι} {q : ι} (h : (t.wake ws r).life q = .blocked) :
    t.life q = .blocked := by
  cases ws with
  | nil => exact h
  | cons z ws => exact answer_blocked h

theorem wake_lines (t : Sys ι) (ws : List ι) (r : Word) :
    (t.wake ws r).sem = t.sem ∧ (t.wake ws r).dev = t.dev := by
  cases ws with
  | nil => exact ⟨rfl, rfl⟩
  | cons z ws => exact ⟨(answer_lines t z r).1, (answer_lines t z r).2.1⟩

theorem Queued.V (h : s.Queued) (hs : s.Sane) (hp : s.life p = .ready) (x : Sem) :
    (s.V p x).Queued := by
  simp only [Sys.V]
  generalize ht : ({ s with sem := Function.update s.sem x (s.sem x).up } : Sys ι).answer p 0 = t
  have hsem : t.sem = Function.update s.sem x (s.sem x).up := by
    rw [← ht]
    exact (answer_lines ..).1
  have hdev : t.dev = s.dev := by
    rw [← ht]
    exact (answer_lines ..).2.1
  obtain ⟨hsem', hdev'⟩ := wake_lines t (s.sem x).waiters 0
  refine h.eases (fun q hq => ?_) (fun q y hq hy => ?_) fun q i _ hi => ?_
  · have hq' := wake_blocked hq
    rw [← ht] at hq'
    have hq := answer_blocked hq'
    exact hq
  · rw [hsem', hsem]
    refine mem_update_up hy fun _ ws hws => ?_
    obtain ⟨hb, k, hprog⟩ := hs.sem x q (hws ▸ List.mem_cons_self)
    have hqp : q ≠ p := by
      rintro rfl
      exact absurd (hp.symm.trans hb) (by decide)
    have hprog' : (t.task q).prog = .act (.passeren x) k := by
      rw [← ht, (answer_of_ne hqp).1]
      exact hprog
    rw [hws, wake_first hprog'] at hq
    nomatch hq
  · rw [hdev', hdev]
    exact hi

theorem Queued.signal (h : s.Queued) (hs : s.Sane) (htask : t.task = s.task) (hlife : t.life = s.life)
    (hsem : t.sem = s.sem) (hdev : t.dev = s.dev) (i status : Word) : (t.signal i status).Queued := by
  simp only [Sys.signal, hdev]
  generalize ht' : ({ t with dev := Function.update s.dev i (s.dev i).up } : Sys ι) = t'
  obtain ⟨hsem', hdev'⟩ := wake_lines t' (s.dev i).waiters (status &&& STATUSMASK)
  refine h.eases (fun q hq => ?_) (fun q y _ hy => ?_) fun q j hq hj => ?_
  · have hq' := wake_blocked hq
    rw [← ht'] at hq'
    exact hlife ▸ hq'
  · rw [hsem', ← ht']
    exact hsem ▸ hy
  · rw [hdev', ← ht']
    refine mem_update_up hj fun _ ws hws => ?_
    obtain ⟨-, l, d, u, k, hprog, -⟩ := hs.dev i q (hws ▸ List.mem_cons_self)
    have hprog' : (t'.task q).prog = .act (.waitio l d u) k := by
      rw [← ht', ← hprog]
      exact congrArg Task.prog (congrFun htask q)
    rw [hws, wake_first hprog'] at hq
    nomatch hq

theorem Queued.access (h : s.Queued) (p : ι) (code virtAddr : Word) {hit : Sys ι → Word → Sys ι}
    (hhit : ∀ tlb frame, (hit { s with tlb := tlb } frame).Queued) :
    (s.access S p code virtAddr hit).Queued := by
  rcases access_cases (S := S) s p code virtAddr hit with ⟨tlb, st, heq⟩ | ⟨tlb, frame, heq⟩
  · rw [heq]
    refine Queued.passUp ?_ p _ _ _
    exact h
  · rw [heq]
    exact hhit tlb frame

theorem Queued.perform (h : s.Queued) (hs : s.Sane) (hrun : s.running = some p) :
    (s.perform S p r a).Queued := by
  have hp := hs.running p hrun
  cases a with
  | passeren x => exact h.P p x
  | verhogen x => exact h.V hs hp x
  | waitio l d u =>
    simp only [Sys.perform]
    split_ifs
    · exact h.kill p
    · exact h.waitDev p _ r
  | createprocess sAsid sStatus =>
    simp only [Sys.perform]
    split_ifs with hborn
    · refine Queued.answer ?_ p SUCCESS
      refine h.same (fun q hq => ?_) rfl rfl
      by_cases hqc : q = S.child sAsid
      · rw [hqc] at hq
        exact absurd ((Function.update_self ..).symm.trans hq) (by decide)
      · exact (Function.update_of_ne hqc ..).symm.trans hq
    · exact h.answer p FAIL
  | spectrapvec trap new =>
    simp only [Sys.perform]
    split_ifs
    · refine Queued.answer ?_ p 0
      exact h
    · exact h.kill p
  | getSTATUS | getENTRYHI | setData1 | getData1 => exact h.answer p _
  | setSTATUS | TLBCLR | tables f =>
    refine Queued.answer ?_ p _
    exact h
  | setCommand reg v | setData0 reg v =>
    simp only [Sys.perform]
    split_ifs
    · refine Queued.answer ?_ p 0
      exact h
    · exact h.answer p 0
  | load virtAddr =>
    refine h.access p 2 virtAddr fun tlb frame => Queued.answer ?_ p _
    exact h

theorem Queued.step (h : s.Queued) (hs : s.Sane) {e : Event ι} (hcan : s.Can e) :
    (s.step S e).Queued := by
  cases e with
  | step r =>
    obtain ⟨p, hrun, -⟩ := hcan
    simp only [Sys.step, hrun, Sys.go]
    split
    · exact h
    · rename_i l _
      cases l with
      | terminate => exact h.passUp p _ _ _
      | terminateprocess => exact h.kill p
      | ldst | again | user => exact h
    · exact h.perform hs hrun
  | user act =>
    obtain ⟨p, hrun, -⟩ := hcan
    simp only [Sys.step, hrun]
    cases act with
    | load virtAddr => exact h.access p 2 virtAddr fun _ _ => h
    | store virtAddr v => exact h.access p 3 virtAddr fun _ _ => h
    | syscall st =>
      simp only [Sys.user]
      split_ifs <;> exact h.passUp p _ _ _
    | progTrap st | tlbTrap st => exact h.passUp p _ _ _
  | diskInt status =>
    simp only [Sys.step, Sys.diskInt]
    split
    · exact h
    · obtain ⟨h1, h2, -, h4, h5, -, -⟩ := s.transfer_same ‹Word›
      refine h.signal hs ?_ ?_ ?_ ?_ 0 status
      all_goals split_ifs
      · exact h1
      · rfl
      · exact h2
      · rfl
      · exact h4
      · rfl
      · exact h5
      · rfl
  | devInt index status => exact h.signal hs rfl rfl rfl rfl index status
  | dispatch | tapeDma | tlbDrop => exact h

/-! ## Holders -/

/-- Somebody holds the semaphore when it is not free. -/
def Held (x : Sem) (s : Sys ι) : Prop := (s.sem x).value ≤ 0 → ∃ p, Holds x p s.log

theorem SemStep.held (h : SemStep x s t) (hs : s.Held x) : t.Held x := by
  intro hle
  have hpassed : ∀ {p v} {log : List (Did ι Act Word View)},
      t.log = ⟨p, .passeren x, 0, v⟩ :: log → Holds x p t.log := by
    intro p v log hlog
    rw [hlog, Holds, if_pos rfl]
    exact .inl rfl
  cases h with
  | away hlog haway hsem =>
    rw [hsem] at hle
    obtain ⟨p, hp⟩ := hs hle
    rw [hlog]
    exact ⟨p, (holds_append_away haway).mpr hp⟩
  | @passes p _ _ hlog _ => exact ⟨p, hpassed hlog⟩
  | waits hpos hlog hsem =>
    rw [hlog]
    exact hs (by omega)
  | frees hws hlog hsem =>
    have h0 := (s.sem x).waiters_eq_nil_iff.mp hws
    rw [hsem, value_up] at hle
    omega
  | @hands p q _ _ hq hlog _ => exact ⟨q, hpassed hlog⟩

end Sys

end Kaya.Phase3
