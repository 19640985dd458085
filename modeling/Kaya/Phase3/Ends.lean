import Kaya.Phase3.Proofs.Statuses

/-!
# How the processes of Kaya end

As long as disk 0 answers `READY` a process releases what it took before it ends; as long as the
tapes do so too, and no device interrupts before a process waits for it, the end of each process is
signalled to `test` once.
-/

namespace Kaya.Phase3

open Lib

/-- The semaphores of the pager are taken by those who do not hold them and released by those
who do, before they end. -/
structure LocksReleased (s : Sys Word) : Prop where
  acquire : ∀ p x k, x.IsMutex → s.Alive p → (s.task p).prog = .act (.passeren x) k →
    ¬ Holds x p s.log
  release : ∀ p x k, x.IsMutex → s.Alive p → (s.task p).prog = .act (.verhogen x) k →
    Holds x p s.log
  finish : ∀ p x, x.IsMutex → s.life p = .dead → ¬ Holds x p s.log

/-- Each process that `test` created makes one V on `masterSem` when it ends, and `test` goes on
after its P's when all have. -/
structure EndsSignalled (s : Sys Word) : Prop where
  once : ∀ p, IsUProc p → signals p s.log ≤ 1
  ended : ∀ p, IsUProc p → s.life p = .dead → signals p s.log = 1
  /-- Only SYS 2 follows the V. -/
  last : ∀ p a k, IsUProc p → signals p s.log = 1 → s.Alive p → (s.task p).prog ≠ .act a k
  continues : passes .masterSem s.log = MAXUPROC → ∀ p, IsUProc p → signals p s.log = 1
  waits : s.Alive 0 → 0 ∈ (s.sem .masterSem).waiters → ∃ p, IsUProc p ∧ signals p s.log = 0

namespace Sys

variable {strict : Bool} {s : Sys Word} {p : Word} {K : Layout} {junk : Word}
  {h : List (Sys Word × Event Word)}

/-- What holds in every state reached while the promises were kept. -/
structure LockRun (strict : Bool) (s : Sys Word) : Prop where
  allowed : LockAllowed strict s.log
  admitted : LockAdmitted strict s.log
  numbers : ∀ d ∈ s.log, d.p.toNat ≤ MAXUPROC
  released : MAXUPROC ≤ passes .masterSem s.log → MAXUPROC ≤ releases .masterSem s.log
  state : s.LockLive strict ∧ LockInv strict s ∧ s.Balanced .masterSem ∨
    s.Halted ∧ MAXUPROC ≤ releases .masterSem s.log

theorem numbers_of_live (h : s.LockLive strict) (hi : LockInv strict s) :
    ∀ d ∈ s.log, d.p.toNat ≤ MAXUPROC := by
  intro d hd
  by_contra hlt
  have hcreated := hi.created
  exact h.sane.unborn d.p (hi.unborn d.p (by omega)) d hd rfl

theorem Balanced.released (hb : s.Balanced .masterSem) :
    passes .masterSem s.log ≤ releases .masterSem s.log := by
  have hfirst : Sem.masterSem.first = 0 := rfl
  unfold Balanced at hb
  omega

theorem Booted.lockRun (hs : s.Booted) : LockRun strict s := by
  have hlog := hs.toFresh.log_eq
  have hplace : ∀ p, place strict s.log p = .init := by
    intro p
    rw [hlog]
    rfl
  have hlife : ∀ p, p ≠ 0 → s.life p = .unborn := by
    intro p hp
    rw [hs.alone, Function.update_of_ne hp]
  have hready : ∀ p, s.life p ≠ .unborn → p = 0 := fun p hp => by_contra fun h => hp (hlife p h)
  have hlive : s.LockLive strict := by
    refine hs.toFresh.live fun p hp => ?_
    rw [hready p (Life.ne_unborn hp), hs.test]
    exact test_follows
  have hi : LockInv strict s := by
    refine ⟨?_, fun p hp => hlife p ?_, fun p hp hb => absurd (hready p hb) hp, fun p hp => ?_⟩
    · rw [hplace]
      exact Nat.zero_le _
    · rintro rfl
      simp at hp
    · obtain rfl := hready p (by simp [hp])
      rw [hs.alone, Function.update_self] at hp
      exact absurd hp (by simp)
  have hbal : s.Balanced .masterSem := hs.toFresh.balanced le_rfl
  refine ⟨hlive.keeps.allowed, ?_, numbers_of_live hlive hi, fun hp => hp.trans hbal.released,
    .inl ⟨hlive, hi, hbal⟩⟩
  rw [hlog]
  exact trivial

theorem LockRun.step (hr : LockRun strict s) {e : Event Word} (hcan : s.Can e)
    (hkept : Kept strict (s.step (kaya K junk) e).log) :
    LockRun strict (s.step (kaya K junk) e) := by
  rcases hr.state with ⟨hlive, hi, hbal⟩ | ⟨hhalt, hrel⟩
  · have hgo : Goes strict s (s.step (kaya K junk) e) := step_goes hlive hi hcan
    obtain ⟨hadm, hgoes⟩ := hgo
    have hadm := hadm hr.admitted hkept
    have hsem : SemStep .masterSem s (s.step (kaya K junk) e) := hlive.semStep hcan
    have hbal' := hsem.balanced hbal
    rcases hlive.step (kaya_obeys K junk strict) hcan hadm with hlive' | ⟨hhalt, hsame⟩
    · rcases hgoes with hi' | ⟨hhalt, hsame, hpassed⟩
      · exact ⟨hlive'.keeps.allowed, hadm, numbers_of_live hlive' hi',
          fun hp => hp.trans hbal'.released, .inl ⟨hlive', hi', hbal'⟩⟩
      · have hrel := hbal.released
        rw [passed_eq hlive.keeps.allowed, hpassed] at hrel
        refine ⟨hlive'.keeps.allowed, hadm, ?_, fun hp => hp.trans hbal'.released, .inr ⟨hhalt, ?_⟩⟩
        · exact hsame ▸ hr.numbers
        · exact hsame ▸ hrel
    · have hnot : ¬ LockInv strict (s.step (kaya K junk) e) := fun hi' =>
        (hi'.dead 0 (hhalt.dead 0)).1 rfl
      obtain ⟨-, -, hpassed⟩ := hgoes.resolve_left hnot
      have hrel := hbal.released
      rw [passed_eq hlive.keeps.allowed, hpassed] at hrel
      refine ⟨?_, hadm, ?_, fun hp => hp.trans hbal'.released, .inr ⟨hhalt, ?_⟩⟩
      · exact hsame ▸ hr.allowed
      · exact hsame ▸ hr.numbers
      · exact hsame ▸ hrel
  · obtain ⟨hhalt', hsame, -⟩ := hhalt.step (S := kaya K junk) hcan
    have hlog := log_congr hsame
    exact ⟨hlog ▸ hr.allowed, hlog ▸ hr.admitted, hlog ▸ hr.numbers, hlog ▸ hr.released,
      .inr ⟨hhalt', hlog ▸ hrel⟩⟩

theorem Reaches.lockRun (hrun : Reaches (kaya K junk) Booted h s) (hkept : Kept strict s.log) :
    LockRun strict s := by
  induction hrun with
  | start hs => exact hs.lockRun
  | @next h s e hrun hcan ih =>
    refine (ih fun d hd => hkept d ?_).step hcan hkept
    obtain ⟨l, hl⟩ := s.step_log (S := kaya K junk) e
    rw [hl]
    exact List.mem_append_right l hd

/-- SYS 8 returns `READY` for disk 0 and the tapes, and no interrupt is left over. -/
theorem Reaches.kept (hrun : Reaches (kaya K junk) Booted h s)
    (hserved : ∀ x ∈ h, x.1.Served x.2) :
    Kept true s.log ∧ (s.Halted ∨ ∀ i, (s.dev i).value ≤ 0) := by
  induction hrun with
  | start hs =>
    refine ⟨?_, .inr fun i => (hs.dev i).le⟩
    rw [hs.toFresh.log_eq]
    exact fun d hd => absurd hd List.not_mem_nil
  | @next h s e hrun hcan ih =>
    rw [List.forall_mem_cons] at hserved
    obtain ⟨hkept, hdev⟩ := ih hserved.2
    by_cases hhalt : s.Halted
    · obtain ⟨hhalt', hsame, -⟩ := hhalt.step (S := kaya K junk) hcan
      exact ⟨log_congr hsame ▸ hkept, .inl hhalt'⟩
    have hnonpos := hdev.resolve_left hhalt
    obtain ⟨hlive, -, hdisk⟩ := (Reaches.kaya_disk hrun).2.resolve_left hhalt
    obtain ⟨-, hi, -⟩ := (Reaches.lockRun hrun hkept).state.resolve_right fun h => hhalt h.1
    have hown := (Reaches.ownDevices (hrun.next hcan)).log
    refine ⟨hserved.1.kept hcan hlive.sane hi hown hnonpos hkept, .inr fun i => ?_⟩
    exact (hlive.sane.devStep hcan).nonpos (hnonpos i) fun status => hserved.1.found hcan hdisk

/-- Who ended holds nothing. -/
theorem LockRun.free (hr : LockRun strict s) (hp : s.life p = .dead) :
    (place strict s.log p).Free := by
  rcases hr.state with ⟨-, hi, -⟩ | ⟨-, hrel⟩
  · exact (hi.dead p hp).2.1
  by_cases hp0 : p = 0
  · rw [hp0]
    exact place_test hr.allowed
  by_cases hle : p.toNat ≤ MAXUPROC
  · have hpos : 0 < p.toNat := by bv_omega
    obtain ⟨hcount, hfree⟩ := place_signalled hr.allowed p
    rw [all_signalled hr.allowed hr.numbers hrel ⟨hpos, hle⟩] at hcount
    exact hfree (by_contra fun hsig => by rw [if_neg hsig] at hcount; nomatch hcount)
  · have hinit : place strict s.log p = .init :=
      ghost_eq_of_forall_ne fun d hd heq => hle (heq ▸ hr.numbers d hd)
    rw [hinit]
    exact rfl

theorem LockRun.may (hr : LockRun strict s) (hp : s.Alive p) {a : Act} {k : Word → Prog}
    (hprog : (s.task p).prog = .act a k) : (lockRules strict p).may (place strict s.log p) a := by
  rcases hr.state with ⟨hlive, -, -⟩ | ⟨hhalt, -⟩
  · have hfollows := hlive.keeps.prog p hp
    rw [hprog] at hfollows
    exact hfollows.1
  · exact absurd (hhalt.dead p) hp.not_dead

theorem signalled_iff (h : LockAllowed strict s.log) :
    signals p s.log = 1 ↔ (place strict s.log p).signalled = true := by
  rw [(place_signalled h p).1]
  split_ifs with hsig
  · exact iff_of_true rfl hsig
  · exact iff_of_false nofun hsig

end Sys

open Sys

variable {K : Layout} {junk : Word} {h : List (Sys Word × Event Word)} {s : Sys Word}

/-- In every run in which disk 0 always answers `READY`. -/
theorem locks_released (hrun : Sys.Reaches (kaya K junk) Sys.Booted h s)
    (hready : Kept false s.log) : LocksReleased s := by
  have hr := hrun.lockRun hready
  have hmaster : ∀ x : Sem, x.IsMutex → x ≠ .masterSem := by
    rintro x hx rfl
    exact absurd hx (by decide)
  refine ⟨fun p x k hx hp hprog => ?_, fun p x k hx hp hprog => ?_, fun p x hx hp => ?_⟩
  · have hmay := hr.may hp hprog
    obtain ⟨-, -, -, hheld⟩ := lockRules_may hmay fun htest => hmaster x hx htest.1
    rw [holds_place hr.allowed hx, hheld hx]
    exact nofun
  · obtain ⟨-, -, -, hheld⟩ := lockRules_may (hr.may hp hprog) id
    rw [holds_place hr.allowed hx]
    exact hheld hx
  · rw [holds_place hr.allowed hx, (hr.free hp).held x]
    exact nofun

/-! Runs of a system whose tapes are empty: process 1 gets to its user's program, has a page
fault, and the disk answers. -/

def toUser : List (Event Word) :=
  [.dispatch 0, .step 0, .dispatch 1] ++ List.replicate 9 (.step 0)

/-- The pager has sent the heads of disk 0 on their way. -/
def fault : List (Event Word) := .user (.load 0x80000000) :: List.replicate 11 (.step 0)

/-- The process learns how its operation on disk 0 ended. -/
def answered (status : Word) : List (Event Word) :=
  [.diskInt status, .dispatch 1, .step 0, .step 0]

/-- The page is brought in, and the process ends with SYS 18. -/
def normalEnd : List (Event Word) :=
  toUser ++ fault ++ answered READY ++ List.replicate 5 (.step 0) ++ answered READY ++
    List.replicate 13 (.step 0) ++ .user (.syscall terminateState) :: List.replicate 13 (.step 0)

/-- The seek fails, and the process is on its way to `terminateUserProc`. -/
def seekFails : List (Event Word) := toUser ++ fault ++ answered 2 ++ [.step 0]

def runOf (es : List (Event Word)) : Sys Word := es.foldl (Sys.step (kaya .sample 0)) .boot

theorem runOf_replays (es : List (Event Word))
    (hes : AllOk (Sys.step (kaya .sample 0)) (fun s e => s.canNow e) .boot es) :
    Sys.Reaches (kaya .sample 0) Sys.Booted (replay (Sys.step (kaya .sample 0)) ([], .boot) es).1
      (runOf es) := by
  rw [runOf, ← replay_snd (Sys.step (kaya .sample 0)) []]
  exact (Run.start boot_booted).replay es (hes.mono fun _ _ => can_of_canNow)

theorem runOf_reaches (es : List (Event Word))
    (hes : AllOk (Sys.step (kaya .sample 0)) (fun s e => s.canNow e) .boot es) :
    ∃ h, Sys.Reaches (kaya .sample 0) Sys.Booted h (runOf es) := ⟨_, runOf_replays es hes⟩

theorem runOf_serves (es : List (Event Word))
    (hes : AllOk (Sys.step (kaya .sample 0)) (fun s e => s.canNow e) .boot es)
    (hserved : AllOk (Sys.step (kaya .sample 0)) Sys.Served .boot es) :
    ∃ h, Sys.Reaches (kaya .sample 0) Sys.Booted h (runOf es) ∧ ∀ x ∈ h, x.1.Served x.2 :=
  ⟨_, runOf_replays es hes, hserved.replay (by simp)⟩

theorem locks_released_normal : LocksReleased (runOf normalEnd) := by
  obtain ⟨h, hrun⟩ := runOf_reaches normalEnd (by decide +kernel)
  exact locks_released hrun (by decide +kernel)

def wantsP (x : Sem) : Prog → Bool
  | .act (.passeren y) _ => y = x
  | _ => false

theorem eq_act_of_wantsP {x : Sem} {prog : Prog} (h : wantsP x prog = true) :
    ∃ k, prog = .act (.passeren x) k := by
  unfold wantsP at h
  split at h
  case h_1 y k => exact ⟨k, by rw [of_decide_eq_true h]⟩
  case h_2 => nomatch h

/-- After a disk error in the pager the process waits for `swapPoolSem`, which it holds. -/
theorem seek_deadlocks : ∃ h, Sys.Reaches (kaya .sample 0) Sys.Booted h (runOf seekFails) ∧
    ¬ LocksReleased (runOf seekFails) := by
  obtain ⟨h, hrun⟩ := runOf_reaches seekFails (by decide +kernel)
  have hwants : wantsP .swapPoolSem ((runOf seekFails).task 1).prog = true := by decide +kernel
  have hlives : (runOf seekFails).life 1 = .ready := by decide +kernel
  have hholds : Holds .swapPoolSem 1 (runOf seekFails).log := by decide +kernel
  obtain ⟨k, hprog⟩ := eq_act_of_wantsP hwants
  refine ⟨h, hrun, fun hrel => ?_⟩
  exact hrel.acquire 1 .swapPoolSem k (.inl rfl) (.inl hlives) hprog hholds

/-- In every run in which the interrupt of each device finds a process that waits for it, and the
tapes and disk 0 answer `READY`. -/
theorem ends_signalled (hrun : Sys.Reaches (kaya K junk) Sys.Booted h s)
    (hserved : ∀ x ∈ h, x.1.Served x.2) : EndsSignalled s := by
  have hr := hrun.lockRun (hrun.kept hserved).1
  have hall : MAXUPROC ≤ releases .masterSem s.log → ∀ p, IsUProc p → signals p s.log = 1 :=
    fun hrel p hp => all_signalled hr.allowed hr.numbers hrel hp
  refine ⟨fun p _ => ?_, fun p hp hdead => ?_, fun p a k hp hsig halive hprog => ?_,
    fun hpassed => hall (hr.released hpassed.ge), fun halive hwait => ?_⟩
  · rw [(place_signalled hr.allowed p).1]
    split_ifs <;> omega
  · rcases hr.state with ⟨-, hi, -⟩ | ⟨-, hrel⟩
    · exact (signalled_iff hr.allowed).mpr ((hi.dead p hdead).2.2 rfl)
    · exact hall hrel p hp
  · have hmay := hr.may halive hprog
    have hp0 : p ≠ 0 := by
      rintro rfl
      exact absurd hp.1 (by decide)
    rw [lockRules_of_ne hp0] at hmay
    rw [signalled_iff hr.allowed, hmay.1] at hsig
    nomatch hsig
  · rcases hr.state with ⟨hlive, -, hbal⟩ | ⟨hhalt, -⟩
    swap
    · exact absurd (hhalt.dead 0) halive.not_dead
    obtain ⟨-, k, hprog⟩ := hlive.sane.sem .masterSem 0 hwait
    have hmay : testRules.may _ _ := hr.may halive hprog
    have hneg : ¬ 0 ≤ (s.sem .masterSem).value := by
      rw [← Semaphore.waiters_eq_nil_iff]
      exact List.ne_nil_of_mem hwait
    have hfirst : Sem.masterSem.first = 0 := rfl
    have hpassed := passed_eq hr.allowed
    have hlt := hmay.2
    have hrel : releases .masterSem s.log < MAXUPROC := by
      unfold Sys.Balanced at hbal
      omega
    by_contra hnone
    have h1 : signals 1 s.log ≠ 0 := fun h0 => hnone ⟨1, ⟨by decide, by decide⟩, h0⟩
    have h2 : signals 2 s.log ≠ 0 := fun h0 => hnone ⟨2, ⟨by decide, by decide⟩, h0⟩
    have hsum := releases_eq hr.allowed hr.numbers
    have hmax : MAXUPROC = 2 := rfl
    omega

theorem ends_signalled_normal : EndsSignalled (runOf normalEnd) := by
  obtain ⟨h, hrun, hserved⟩ := runOf_serves normalEnd (by decide +kernel) (by decide +kernel)
  exact ends_signalled hrun hserved

/-- Tape 0 fails while process 1 has no trap vectors. -/
def tapeFails : List (Event Word) :=
  [.dispatch 0, .step 0, .dispatch 1, .step 0, .step 2, .step 2, .step 0, .step 0, .step 0,
    .devInt 8 2, .dispatch 1, .step 0]

theorem tape_unsignalled : ∃ h, Sys.Reaches (kaya .sample 0) Sys.Booted h (runOf tapeFails) ∧
    ¬ EndsSignalled (runOf tapeFails) := by
  obtain ⟨h, hrun⟩ := runOf_reaches tapeFails (by decide +kernel)
  have hnone : signals 1 (runOf tapeFails).log = 0 := by decide +kernel
  have hdead : (runOf tapeFails).life 1 = .dead := by decide +kernel
  refine ⟨h, hrun, fun hsig => ?_⟩
  have hone := hsig.ended 1 ⟨by decide, by decide⟩ hdead
  exact absurd (hone.symm.trans hnone) (by decide)

end Kaya.Phase3
