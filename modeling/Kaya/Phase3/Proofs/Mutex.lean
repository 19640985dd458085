import Kaya.Phase3.Proofs.Moves

/-!
# Semaphores that exclude

What a step does to one semaphore and to the log, and that at most one process is between its
P and its V on a semaphore that starts with the value 1.
-/

namespace Kaya.Phase3

open Lib

variable {ι γ : Type} [DecidableEq ι]

def Act.Away (x : Sem) : Act → Prop
  | .passeren y | .verhogen y => y ≠ x
  | _ => True

def Act.held (x : Sem) : Act → Prop → Prop
  | .passeren y, h => y = x ∨ h
  | .verhogen y, h => y ≠ x ∧ h
  | _, h => h

/-- `p` passed a P on `x` and has not made its V. -/
def Holds (x : Sem) (p : ι) : List (Did ι Act Word View) → Prop
  | [] => False
  | d :: log => if d.p = p then d.a.held x (Holds x p log) else Holds x p log

instance Act.decidableHeld (x : Sem) (a : Act) (h : Prop) [Decidable h] : Decidable (a.held x h) := by
  cases a <;> unfold held <;> infer_instance

instance decidableHolds (x : Sem) (p : ι) :
    ∀ log : List (Did ι Act Word View), Decidable (Holds x p log)
  | [] => isFalse id
  | d :: log =>
      have := decidableHolds x p log
      inferInstanceAs (Decidable (if d.p = p then d.a.held x (Holds x p log) else Holds x p log))

/-- Nobody held the semaphore when a P passed. -/
def Exclusive (x : Sem) : List (Did ι Act Word View) → Prop
  | [] => True
  | d :: log =>
      (match d.a with
        | .passeren y => y = x → ∀ p, ¬ Holds x p log
        | _ => True) ∧ Exclusive x log

def Act.isP (x : Sem) : Act → Bool
  | .passeren y => y = x
  | _ => false

def Act.isV (x : Sem) : Act → Bool
  | .verhogen y => y = x
  | _ => false

def passes (x : Sem) (log : List (Did ι Act Word View)) : Nat := log.countP fun d => d.a.isP x

def releases (x : Sem) (log : List (Did ι Act Word View)) : Nat := log.countP fun d => d.a.isV x

omit [DecidableEq ι] in
theorem passes_cons (x : Sem) (d : Did ι Act Word View) (log : List (Did ι Act Word View)) :
    passes x (d :: log) = passes x log + if d.a.isP x then 1 else 0 := List.countP_cons ..

omit [DecidableEq ι] in
theorem releases_cons (x : Sem) (d : Did ι Act Word View) (log : List (Did ι Act Word View)) :
    releases x (d :: log) = releases x log + if d.a.isV x then 1 else 0 := List.countP_cons ..

section Log

variable {x : Sem} {p q : ι} {d : Did ι Act Word View} {log log' : List (Did ι Act Word View)}

theorem holds_cons_of_ne (hp : d.p ≠ p) : Holds x p (d :: log) ↔ Holds x p log := by
  rw [Holds, if_neg hp]

theorem Act.held_away {a : Act} (ha : a.Away x) (h : Prop) : a.held x h ↔ h := by
  cases a with
  | passeren y => exact or_iff_right ha
  | verhogen y => exact and_iff_right ha
  | _ => exact Iff.rfl

theorem holds_cons_away (ha : d.a.Away x) : Holds x p (d :: log) ↔ Holds x p log := by
  rw [Holds]
  split_ifs
  · exact Act.held_away ha _
  · exact Iff.rfl

theorem holds_append_away (ha : ∀ d ∈ log', d.a.Away x) :
    Holds x p (log' ++ log) ↔ Holds x p log := by
  induction log' with
  | nil => exact Iff.rfl
  | cons d log' ih =>
    rw [List.forall_mem_cons] at ha
    exact (holds_cons_away ha.1).trans (ih ha.2)

theorem holds_passeren (hact : d.a = .passeren x) (h : ∀ q, ¬ Holds x q log) :
    Holds x p (d :: log) ↔ d.p = p := by
  rw [Holds]
  split_ifs with hp
  · simp only [hact, Act.held, true_or, hp]
  · exact ⟨fun hq => absurd hq (h p), fun heq => absurd heq hp⟩

theorem not_holds_verhogen (hact : d.a = .verhogen x) (h : ∀ q, Holds x q log → q = d.p) :
    ¬ Holds x p (d :: log) := by
  rw [Holds]
  split_ifs with hp
  · rw [hact]
    exact fun hq => hq.1 rfl
  · exact fun hq => hp (h p hq).symm

theorem Exclusive.append_away (h : Exclusive x log) (ha : ∀ d ∈ log', d.a.Away x) :
    Exclusive x (log' ++ log) := by
  induction log' with
  | nil => exact h
  | cons d log' ih =>
    rw [List.forall_mem_cons] at ha
    refine ⟨?_, ih ha.2⟩
    split
    · rename_i hact
      rw [hact] at ha
      exact fun heq => absurd heq ha.1
    · exact trivial

theorem Exclusive.suffix (h : Exclusive x (log' ++ log)) : Exclusive x log := by
  induction log' with
  | nil => exact h
  | cons d log' ih => exact ih h.2

theorem Exclusive.unique (h : Exclusive x log) (hp : Holds x p log) (hq : Holds x q log) :
    p = q := by
  induction log with
  | nil => exact hp.elim
  | cons d log ih =>
    by_cases hd : d.a = .passeren x
    · have hnone : ∀ p', ¬ Holds x p' log := by
        have hfirst := h.1
        rw [hd] at hfirst
        exact hfirst rfl
      exact ((holds_passeren hd hnone).mp hp).symm.trans ((holds_passeren hd hnone).mp hq)
    · have hold : ∀ p', Holds x p' (d :: log) → Holds x p' log := by
        intro p' hp'
        rw [Holds] at hp'
        split_ifs at hp'
        · cases hact : d.a with
          | passeren y =>
            rw [hact] at hp'
            exact hp'.resolve_left fun hy => hd (hact.trans (congrArg Act.passeren hy))
          | verhogen y =>
            rw [hact] at hp'
            exact hp'.2
          | _ => simpa only [hact, Act.held] using hp'
        · exact hp'
      exact ih h.2 (hold p hp) (hold q hq)

end Log

namespace Sys

variable {S : Setup ι} {D : ι → Discipline Act Word Leave View γ} {c u : ι → γ} {s t : Sys ι}
  {p : ι} {a : Act} {k : Word → Prog} {r : Word} {x : Sem}

/-- What a step does to `x` and to the log. -/
inductive SemStep (x : Sem) (s t : Sys ι) : Prop
  | away {l : List (Did ι Act Word View)} : t.log = l ++ s.log → (∀ d ∈ l, d.a.Away x) →
      t.sem x = s.sem x → SemStep x s t
  | passes {p : ι} {v : View} : 0 < (s.sem x).value → t.log = ⟨p, .passeren x, 0, v⟩ :: s.log →
      t.sem x = (s.sem x).down p → SemStep x s t
  | waits {p : ι} : ¬ 0 < (s.sem x).value → t.log = s.log → t.sem x = (s.sem x).down p →
      SemStep x s t
  | frees {p : ι} {v : View} : (s.sem x).waiters = [] →
      t.log = ⟨p, .verhogen x, 0, v⟩ :: s.log → t.sem x = (s.sem x).up → SemStep x s t
  | hands {p q : ι} {v v' : View} : q ∈ (s.sem x).waiters →
      t.log = ⟨q, .passeren x, 0, v'⟩ :: ⟨p, .verhogen x, 0, v⟩ :: s.log →
      t.sem x = (s.sem x).up → SemStep x s t

omit [DecidableEq ι] in
theorem Still.semStep (h : s.Still t) : SemStep x s t :=
  .away (l := []) h.log (by simp) (by rw [h.sem])

/-- `t` is `s` after the effect of the action, semaphores aside. -/
theorem answer_semStep (hsem : t.sem x = s.sem x) (hlog : t.log = s.log)
    (hprog : (t.task p).prog = .act a k) (ha : a.Away x) : SemStep x s (t.answer p r) := by
  refine .away (l := [⟨p, a, r, t.view⟩]) ?_ (by simpa using ha) ?_
  · rw [answer_log hprog, hlog]
    rfl
  · rw [(answer_lines t p r).1, hsem]

theorem P_semStep {y : Sem} (hprog : (s.task p).prog = .act (.passeren y) k) :
    SemStep x s (s.P p y) := by
  unfold P
  simp only
  generalize ht : ({ s with sem := Function.update s.sem y ((s.sem y).down p) } : Sys ι) = t
  have hprog' : (t.task p).prog = .act (.passeren y) k := by rw [← ht, hprog]
  have hlog : t.log = s.log := log_congr (by rw [← ht])
  have hsem : t.sem = Function.update s.sem y ((s.sem y).down p) := by rw [← ht]
  by_cases hyx : y = x
  · subst hyx
    split_ifs with hpos
    · refine .passes (p := p) (v := t.view) hpos ?_ ?_
      · rw [answer_log hprog', hlog]
      · rw [(answer_lines t p 0).1, hsem, Function.update_self]
    · refine .waits (p := p) hpos hlog ?_
      exact (congrFun hsem y).trans (Function.update_self ..)
  · have hx : t.sem x = s.sem x := by rw [hsem, Function.update_of_ne (Ne.symm hyx)]
    split_ifs
    · exact answer_semStep hx hlog hprog' hyx
    · exact .away (l := []) hlog (by simp) hx

theorem Live.V_semStep (h : s.Live D c u) (hp : s.life p = .ready) {y : Sem}
    (hprog : (s.task p).prog = .act (.verhogen y) k) : SemStep x s (s.V p y) := by
  obtain ⟨-, hfirst⟩ := h.upSem y
  have hfree := h.sane.free hp
  unfold Sys.V
  simp only
  generalize ht : ({ s with sem := Function.update s.sem y (s.sem y).up } : Sys ι) = t at hfirst ⊢
  have htask : t.task = s.task := by rw [← ht]
  have hlog : t.log = s.log := log_congr (by rw [← ht])
  have hsem : t.sem = Function.update s.sem y (s.sem y).up := by rw [← ht]
  have hlog' : (t.answer p 0).log = ⟨p, .verhogen y, 0, t.view⟩ :: s.log := by
    rw [answer_log (htask ▸ hprog), hlog]
  have hsem' := (answer_lines t p 0).1
  have hwoken : ∀ q ws, (s.sem y).waiters = q :: ws → ∃ v,
      ((t.answer p 0).answer q 0).log = ⟨q, .passeren y, 0, v⟩ :: (t.answer p 0).log := by
    intro q ws hws
    obtain ⟨-, -, k', hprog'⟩ := hfirst q (by rw [hws]; rfl)
    have hqp : q ≠ p := fun heq => hfree.sem y (heq ▸ hws ▸ List.mem_cons_self)
    have htask' := (answer_of_ne (s := t) (r := 0) hqp).1
    exact ⟨_, answer_log (by rw [htask', htask, hprog'])⟩
  by_cases hyx : y = x
  · subst hyx
    have hy : t.sem y = (s.sem y).up := by rw [hsem, Function.update_self]
    cases hws : (s.sem y).waiters with
    | nil => exact .frees hws hlog' (by rw [Sys.wake, hsem', hy])
    | cons q ws =>
      obtain ⟨v, hq⟩ := hwoken q ws hws
      refine .hands (hws ▸ List.mem_cons_self) (hq.trans (congrArg _ hlog')) ?_
      rw [Sys.wake, (answer_lines _ q 0).1, hsem', hy]
  · have hx : t.sem x = s.sem x := by rw [hsem, Function.update_of_ne (Ne.symm hyx)]
    cases hws : (s.sem y).waiters with
    | nil => exact answer_semStep (a := .verhogen y) hx hlog (htask ▸ hprog) hyx
    | cons q ws =>
      obtain ⟨v, hq⟩ := hwoken q ws hws
      refine .away (l := [_, _]) (hq.trans (congrArg _ hlog')) ?_ ?_
      · intro d hd
        simp only [List.mem_cons, List.not_mem_nil, or_false] at hd
        rcases hd with rfl | rfl <;> exact hyx
      · rw [Sys.wake, (answer_lines _ q 0).1, hsem', hx]

theorem Live.signal_semStep (h : s.Live D c u) (htask : t.task = s.task) (hdev : t.dev = s.dev)
    (hsem : t.sem x = s.sem x) (hlog : t.log = s.log) (i status : Word) :
    SemStep x s (t.signal i status) := by
  obtain ⟨-, hfirst⟩ := h.upDev i
  unfold Sys.signal
  simp only [hdev]
  cases hws : (s.dev i).waiters with
  | nil => exact .away (l := []) hlog (by simp) hsem
  | cons q ws =>
    obtain ⟨-, -, l, d, u, k, hprog, -⟩ := hfirst q (by rw [hws]; rfl)
    exact answer_semStep (a := .waitio l d u) hsem hlog (htask ▸ hprog) trivial

theorem Live.perform_semStep (h : s.Live D c u) (hrun : s.running = some p)
    (hprog : (s.task p).prog = .act a k) : SemStep x s (s.perform S p r a) := by
  have hp := h.sane.running p hrun
  by_cases hwaits : a.Waits
  · cases a with
    | passeren y => exact P_semStep hprog
    | verhogen y => exact h.V_semStep hp hprog
    | waitio l d u =>
      simp only [Sys.perform, Sys.waitDev]
      split_ifs
      · exact (kill_own s p).still.semStep
      · exact answer_semStep rfl rfl hprog trivial
      · exact .away (l := []) rfl (by simp) rfl
    | _ => exact hwaits.elim
  · rcases perform_cases (S := S) (r := r) hp hwaits with ⟨-, hown⟩ | ⟨t, r', ht, heq⟩
    · exact hown.still.semStep
    · rw [heq]
      refine answer_semStep (by rw [ht.sem]) ht.log (ht.prog.trans hprog) ?_
      cases a with
      | passeren | verhogen => exact absurd trivial hwaits
      | _ => exact trivial

omit [DecidableEq ι] in
theorem transfer_same (s : Sys ι) (command : Word) :
    (s.transfer command).task = s.task ∧ (s.transfer command).life = s.life ∧
      (s.transfer command).running = s.running ∧ (s.transfer command).sem = s.sem ∧
      (s.transfer command).dev = s.dev ∧ (s.transfer command).tables = s.tables ∧
      (s.transfer command).trace = s.trace := by
  unfold transfer
  simp only
  split_ifs <;> exact ⟨rfl, rfl, rfl, rfl, rfl, rfl, rfl⟩

theorem Live.semStep (h : s.Live D c u) {e : Event ι} (hcan : s.Can e) :
    SemStep x s (s.step S e) := by
  cases e with
  | step r =>
    obtain ⟨p, hrun, -⟩ := hcan
    simp only [Sys.step, hrun, Sys.go]
    split
    · exact (Still.refl s).semStep
    · exact (leave_own ..).still.semStep
    · exact h.perform_semStep hrun ‹_›
  | user u =>
    obtain ⟨p, hrun, -⟩ := hcan
    simp only [Sys.step, hrun]
    exact (user_own ..).still.semStep
  | diskInt status =>
    simp only [Sys.step, Sys.diskInt]
    split
    · exact (Still.refl s).semStep
    · obtain ⟨h1, -, -, h4, h5, -, h7⟩ := s.transfer_same ‹Word›
      refine h.signal_semStep ?_ ?_ ?_ ?_ 0 status
      all_goals split_ifs
      · exact h1
      · rfl
      · exact h5
      · rfl
      · exact congrFun h4 x
      · rfl
      · simp only [log, h7]
        rfl
      · rfl
  | devInt index status => exact h.signal_semStep rfl rfl rfl rfl index status
  | dispatch | tapeDma | tlbDrop => exact Still.semStep ⟨rfl, rfl, rfl, rfl, rfl⟩

/-! ## Mutual exclusion -/

/-- The semaphore has the value 1 when nobody holds it, and nobody passed while it was held. -/
structure Mutex (x : Sem) (s : Sys ι) : Prop where
  exclusive : Exclusive x s.log
  value : (s.sem x).value = 1 ∧ (∀ p, ¬ Holds x p s.log) ∨ (s.sem x).value ≤ 0

/-- Only one who holds the semaphore makes a V. -/
def Guarded (D : ι → Discipline Act Word Leave View γ) (c : ι → γ) (x : Sem) : Prop :=
  ∀ p log, Allowed D c log → (D p).may (ghost D c p log) (.verhogen x) → Holds x p log

theorem SemStep.mutex (h : SemStep x s t) (hm : s.Mutex x) (hguard : Guarded D c x)
    (hallowed : Allowed D c t.log) : t.Mutex x := by
  have hnone : 0 < (s.sem x).value → (s.sem x).value = 1 ∧ ∀ p, ¬ Holds x p s.log := by
    intro hpos
    rcases hm.value with hfree | hneg
    · exact hfree
    · omega
  cases h with
  | away hlog ha hsem =>
    constructor
    · rw [hlog]
      exact hm.exclusive.append_away ha
    · rw [hsem, hlog]
      refine hm.value.imp_left fun hfree => ⟨hfree.1, fun p hp => ?_⟩
      exact hfree.2 p ((holds_append_away ha).mp hp)
  | @passes p v hpos hlog hsem =>
    obtain ⟨hone, hfree⟩ := hnone hpos
    constructor
    · rw [hlog]
      exact ⟨fun _ => hfree, hm.exclusive⟩
    · right
      rw [hsem]
      change (s.sem x).value - 1 ≤ 0
      omega
  | waits hpos hlog hsem =>
    constructor
    · rw [hlog]
      exact hm.exclusive
    · right
      rw [hsem]
      change (s.sem x).value - 1 ≤ 0
      omega
  | @frees p v hws hlog hsem =>
    rw [hlog] at hallowed
    have hp := hguard p _ hallowed.2 hallowed.1
    have hfree : ∀ q, ¬ Holds x q t.log := by
      intro q
      rw [hlog]
      exact not_holds_verhogen rfl fun q' hq' => hm.exclusive.unique hq' hp
    have hvalue : (s.sem x).value = 0 := by
      have h0 := (s.sem x).waiters_eq_nil_iff.mp hws
      rcases hm.value with ⟨-, hnobody⟩ | hle
      · exact absurd hp (hnobody p)
      · omega
    constructor
    · rw [hlog]
      exact ⟨trivial, hm.exclusive⟩
    · left
      refine ⟨?_, hfree⟩
      rw [hsem]
      change (s.sem x).value + 1 = 1
      omega
  | @hands p q v v' hq hlog hsem =>
    rw [hlog] at hallowed
    have hp := hguard p _ hallowed.2.2 hallowed.2.1
    have hfree : ∀ q', ¬ Holds x q' (⟨p, .verhogen x, 0, v⟩ :: s.log) := fun q' =>
      not_holds_verhogen rfl fun q'' hq'' => hm.exclusive.unique hq'' hp
    constructor
    · rw [hlog]
      exact ⟨fun _ => hfree, trivial, hm.exclusive⟩
    · right
      have hneg : ¬ 0 ≤ (s.sem x).value := by
        rw [← Semaphore.waiters_eq_nil_iff]
        exact List.ne_nil_of_mem hq
      rw [hsem]
      change (s.sem x).value + 1 ≤ 0
      omega

omit [DecidableEq ι] in
theorem value_down (x : Semaphore ι) (p : ι) : (x.down p).value = x.value - 1 := rfl

omit [DecidableEq ι] in
theorem value_up (x : Semaphore ι) : x.up.value = x.value + 1 := rfl

/-- What came in and what passed balance. -/
def Balanced (x : Sem) (s : Sys ι) : Prop :=
  (passes x s.log : Int) + max 0 (s.sem x).value = x.first + releases x s.log

omit [DecidableEq ι] in
theorem SemStep.balanced (h : SemStep x s t) (hb : s.Balanced x) : t.Balanced x := by
  unfold Balanced at hb ⊢
  cases h with
  | @away l hlog ha hsem =>
    have hcount : ∀ f : Act → Bool, (∀ a, f a = true → ¬ a.Away x) →
        t.log.countP (fun d => f d.a) = s.log.countP fun d => f d.a := by
      intro f hf
      rw [hlog, List.countP_append, Nat.add_eq_right, List.countP_eq_zero]
      exact fun d hd hfd => hf d.a hfd (ha d hd)
    rw [Phase3.passes, releases, hcount, hcount, hsem]
    · exact hb
    · intro a ha
      cases a with
      | verhogen y => exact fun hne => hne (of_decide_eq_true ha)
      | _ => nomatch ha
    · intro a ha
      cases a with
      | passeren y => exact fun hne => hne (of_decide_eq_true ha)
      | _ => nomatch ha
  | passes hpos hlog hsem =>
    simp only [hlog, passes_cons, releases_cons, Act.isP, Act.isV, hsem, value_down, decide_true,
      if_true, Bool.false_eq_true, if_false]
    omega
  | waits hpos hlog hsem =>
    rw [hlog, hsem, value_down]
    omega
  | frees hws hlog hsem =>
    have h0 := (s.sem x).waiters_eq_nil_iff.mp hws
    simp only [hlog, passes_cons, releases_cons, Act.isP, Act.isV, hsem, value_up, decide_true,
      if_true, Bool.false_eq_true, if_false]
    omega
  | hands hq hlog hsem =>
    have h0 : ¬ 0 ≤ (s.sem x).value := by
      rw [← Semaphore.waiters_eq_nil_iff]
      exact List.ne_nil_of_mem hq
    simp only [hlog, passes_cons, releases_cons, Act.isP, Act.isV, hsem, value_up, decide_true,
      if_true, Bool.false_eq_true, if_false]
    omega

omit [DecidableEq ι] in
theorem Fresh.balanced (h : s.Fresh) (hx : 0 ≤ x.first) : s.Balanced x := by
  have hlog := h.log_eq
  rw [Balanced, hlog, h.sem, max_eq_right hx]
  exact (zero_add _).trans (add_zero _).symm

theorem Fresh.mutex (h : s.Fresh) (hx : x.first = 1) : s.Mutex x := by
  have hlog := h.log_eq
  constructor
  · rw [hlog]
    exact trivial
  · left
    rw [h.sem, hx, hlog]
    exact ⟨rfl, fun _ => id⟩

end Sys

end Kaya.Phase3
