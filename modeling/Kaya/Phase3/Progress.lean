import Kaya.Lib.WaitsFor
import Kaya.Phase3.Devices
import Kaya.Phase3.DiskExclusion
import Kaya.Phase3.Ends
import Kaya.Phase3.Proofs.Waiting

/-!
# Nobody waits for ever

While the disk and the tapes answer `READY` to a process that waits, semaphores are taken in one order: `masterSem`, the
semaphores of terminals, `swapPoolSem`, the semaphore of disk 0.  So a process that waits for a
semaphore waits in the end for a process that can go on, or for a device.
-/

namespace Kaya.Phase3

open Lib

variable {s : Sys Word} {p q : Word} {x y : Sem} {K : Layout} {junk : Word}
  {h : List (Sys Word × Event Word)}

namespace Sys

/-- `p` waits for a semaphore. -/
def Awaits (s : Sys Word) (p : Word) (x : Sem) : Prop := s.Alive p ∧ p ∈ (s.sem x).waiters

/-- `p` is to make a V that others wait for: the end of what it holds, or the signal of its own
end. -/
def Owes (s : Sys Word) (p : Word) (x : Sem) : Prop :=
  s.Alive p ∧ if x = .masterSem then IsUProc p ∧ signals p s.log = 0 else Holds x p s.log

/-- `p` needs no other process to go on. -/
inductive GoesOn (s : Sys Word) (p : Word) : Prop
  | ready : s.life p = .ready → (∀ a, (s.task p).prog ≠ .done a) → GoesOn s p
  | onDevice {l d u : Word} {k : Word → Prog} : (s.task p).prog = .act (.waitio l d u) k →
      p ∈ (s.dev (waitioIndex l d u)).waiters → (OnDisk0 l d u → s.disk.busy ≠ none) → GoesOn s p

end Sys

/-- No processes wait for each other in a circle, and each waits in the end for one that goes on. -/
structure Progress (s : Sys Word) : Prop where
  acyclic : ∀ p, ¬ Relation.TransGen (BlockedBy s.Awaits s.Owes) p p
  leads : ∀ p, s.Alive p →
    ∃ q, Relation.ReflTransGen (BlockedBy s.Awaits s.Owes) p q ∧ s.Alive q ∧ s.GoesOn q

/-! ## What a state needs -/

/-- The order in which semaphores are taken. -/
def Sem.rank (x : Sem) : Fin 4 :=
  if x = .masterSem then ⟨0, by decide⟩ else if x = .swapPoolSem then ⟨2, by decide⟩
  else if x = disk0sem then ⟨3, by decide⟩ else ⟨1, by decide⟩

namespace Sys

/-- Somebody waits for the interrupt of disk 0, so a command is in progress. -/
theorem DiskInv.busy (hi : s.DiskInv) (hwait : (s.dev 0).waiters ≠ []) : s.disk.busy ≠ none := by
  have hnot : ¬ s.Idle := fun hidle => hwait ((s.dev 0).waiters_eq_nil_iff.mpr hidle.2.ge)
  obtain ⟨p, hp⟩ : ∃ p, stage s.log p ≠ .out := by
    by_contra hnone
    exact hnot (hi.idle fun p => by_contra fun hp => hnone ⟨p, hp⟩)
  have hfits := hi.fits p
  cases hstage : stage s.log p with
  | out => exact absurd hstage hp
  | owned | finished | lost =>
    rw [hstage] at hfits
    exact absurd hfits hnot
  | positioned | loaded =>
    rw [hstage] at hfits
    exact absurd hfits.1 hnot
  | seeking w =>
    rw [hstage] at hfits
    exact fun h => nomatch h.symm.trans hfits.1.busy
  | moving w =>
    rw [hstage] at hfits
    obtain ⟨v, hv⟩ := hfits
    exact fun h => nomatch h.symm.trans hv.busy

/-- While `test` waits for `masterSem` an end was not signalled. -/
theorem LockRun.unsignalled {k : Word → Prog} (hr : LockRun true s) (halive : s.Alive 0)
    (hwait : 0 ∈ (s.sem .masterSem).waiters) (hprog : (s.task 0).prog = .act (.passeren .masterSem) k) :
    ∃ q, IsUProc q ∧ signals q s.log = 0 := by
  rcases hr.state with ⟨-, -, hbal⟩ | ⟨hhalt, -⟩
  swap
  · exact absurd (hhalt.dead 0) halive.not_dead
  have hmay : testRules.may _ _ := hr.may halive hprog
  have hneg : ¬ 0 ≤ (s.sem .masterSem).value := by
    rw [← Semaphore.waiters_eq_nil_iff]
    exact List.ne_nil_of_mem hwait
  have hpassed : passes .masterSem s.log < MAXUPROC := by
    rw [passed_eq hr.allowed]
    exact hmay.2
  have hrel : releases .masterSem s.log < MAXUPROC := by
    have hfirst : Sem.masterSem.first = 0 := rfl
    unfold Balanced at hbal
    omega
  by_contra hnone
  have h1 : signals 1 s.log ≠ 0 := fun h0 => hnone ⟨1, ⟨by decide, by decide⟩, h0⟩
  have h2 : signals 2 s.log ≠ 0 := fun h0 => hnone ⟨2, ⟨by decide, by decide⟩, h0⟩
  have hsum := releases_eq hr.allowed hr.numbers
  have hmax : MAXUPROC = 2 := rfl
  omega

theorem LockRun.signalled_of_dead (hr : LockRun true s) (halive : s.Alive 0) (hq : s.life q = .dead) :
    (place true s.log q).signalled = true := by
  rcases hr.state with ⟨-, hi, -⟩ | ⟨hhalt, -⟩
  · exact (hi.dead q hq).2.2 rfl
  · exact absurd (hhalt.dead 0) halive.not_dead

/-- What is known of a state before which disk 0 and the tapes answered `READY`. -/
structure Regular (s : Sys Word) : Prop where
  locks : LockRun true s
  kept : Kept true s.log
  own : s.OwnDevices
  terminals : ∀ p q, p ≠ 0 → p < 64 → q ∉ (s.sem (termSem p)).waiters
  queued : s.Queued
  held : ∀ x, x.IsMutex → s.Held x
  calls : s.DiskLive
  disk : s.DiskInv

/-- A call of `diskIO` does not fail. -/
theorem stage_ne_lost {strict : Bool} {log : List (Did Word Act Word View)} (h : Kept strict log)
    (p : Word) : stage log p ≠ .lost := by
  induction log with
  | nil => exact Stage.noConfusion
  | cons d log ih =>
    rw [Kept, List.forall_mem_cons] at h
    have ih := ih h.2
    by_cases hp : d.p = p
    swap
    · rw [stage_cons_of_ne hp]
      exact ih
    rw [stage_cons_self hp]
    generalize stage log p = g at ih
    have hkept := h.1
    cases hact : d.a with
    | waitio l n u =>
      rw [hact] at hkept
      simp only [diskRules]
      split_ifs with hon
      · rw [hkept (.inl hon)]
        cases g with
        | lost => exact absurd rfl ih
        | _ => simp [Stage.answered]
      · exact ih
    | passeren | verhogen =>
      simp only [diskRules]
      split_ifs
      · exact Stage.noConfusion
      · exact ih
    | setCommand | setData0 =>
      simp only [diskRules]
      split_ifs
      · cases g with
        | lost => exact absurd rfl ih
        | _ => exact Stage.noConfusion
      · exact ih
    | setSTATUS =>
      cases g with
      | lost => exact absurd rfl ih
      | _ => exact Stage.noConfusion
    | _ => exact ih

theorem isMutex_ne_master (hx : x.IsMutex) : x ≠ .masterSem := by
  rintro rfl
  exact absurd hx (by decide)

namespace Regular

theorem waiting (h : s.Regular) (hp : s.Awaits p x) : ∃ k, (s.task p).prog = .act (.passeren x) k :=
  (h.calls.sane.sem x p hp.2).2

/-- `test` waits for `masterSem`, the others for a semaphore of the pager. -/
theorem awaited (h : s.Regular) (hp : s.Awaits p x) : p = 0 ∧ x = .masterSem ∨ p ≠ 0 ∧ x.IsMutex := by
  obtain ⟨k, hprog⟩ := h.waiting hp
  have hmay := h.own.may hp.1 hprog
  by_cases hp0 : p = 0
  · exact .inl ⟨hp0, (if_pos hp0).mp hmay⟩
  · obtain ⟨hlt, hx | ⟨rfl, -⟩⟩ := (if_neg hp0).mp hmay
    · exact .inr ⟨hp0, hx⟩
    · exact absurd hp.2 (h.terminals p p hp0 hlt)

/-- Who waits for a semaphore of the pager does not hold it. -/
theorem not_held (h : s.Regular) (hp : s.Awaits p x) (hx : x.IsMutex) : ¬ Holds x p s.log := by
  obtain ⟨k, hprog⟩ := h.waiting hp
  obtain ⟨-, -, -, hheld⟩ := lockRules_may (h.locks.may hp.1 hprog) fun htest =>
    isMutex_ne_master hx htest.1
  rw [holds_place h.locks.allowed hx, hheld hx]
  exact nofun

/-- Who has disk 0 does not wait for another semaphore. -/
theorem not_disk (h : s.Regular) (hp : s.Awaits p x) : ¬ Holds disk0sem p s.log := by
  obtain ⟨k, hprog⟩ := h.waiting hp
  have hf := h.calls.keeps.prog p hp.1
  rw [hprog] at hf
  have hmay : diskRules.may (stage s.log p) (.passeren x) := hf.1
  have hquiet : stage s.log p = .out ∨ stage s.log p = .lost := by
    simp only [diskRules] at hmay
    split_ifs at hmay
    · exact .inl hmay
    · exact hmay
  rw [holds_iff h.calls.keeps.allowed, not_ne_iff]
  exact hquiet.resolve_right (stage_ne_lost h.kept p)

/-- What is owed was not there for the process itself. -/
theorem above (h : s.Regular) (hp : s.Awaits p x) (howes : s.Owes p y) : y.rank < x.rank := by
  obtain ⟨-, howes⟩ := howes
  have hheld : y ≠ .masterSem → Holds y p s.log := fun hy => (if_neg hy).mp howes
  rcases h.awaited hp with ⟨rfl, rfl⟩ | ⟨hp0, hx⟩
  · exfalso
    by_cases hy : y = .masterSem
    · exact absurd ((if_pos hy).mp howes).1.1 (by decide)
    · exact hy (h.own.log.held_by_test (hheld hy))
  · have hdisk := h.not_disk hp
    have hself := h.not_held hp hx
    have hrank : 1 < x.rank := by
      rcases hx with rfl | rfl <;> decide
    by_cases hmaster : y = .masterSem
    · rw [hmaster]
      exact lt_trans (by decide) hrank
    by_cases hpool : y = .swapPoolSem
    · subst hpool
      rcases hx with rfl | rfl
      · exact absurd (hheld hmaster) hself
      · decide
    · have hy : y ≠ disk0sem := by
        rintro rfl
        exact hdisk (hheld hmaster)
      have hone : y.rank = 1 := (if_neg hmaster).trans ((if_neg hpool).trans (if_neg hy))
      rw [hone]
      exact hrank

/-- While `test` waits, some process has not signalled its end, and lives. -/
theorem owed_master (h : s.Regular) (hp : s.Awaits 0 .masterSem) :
    ∃ q, s.Alive q ∧ IsUProc q ∧ signals q s.log = 0 := by
  obtain ⟨k, hprog⟩ := h.waiting hp
  obtain ⟨q, hq, hsig⟩ := h.locks.unsignalled hp.1 hp.2 hprog
  refine ⟨q, ?_, hq, hsig⟩
  have hdead : s.life q ≠ .dead := by
    intro hdead
    have hsig' := (signalled_iff h.locks.allowed).mpr (h.locks.signalled_of_dead hp.1 hdead)
    omega
  have hborn : s.life q ≠ .unborn := by
    have hf := h.own.test hp.1
    rw [hprog] at hf
    obtain ⟨d, hd, sAsid, sStatus, ha, rfl⟩ := made_of_created (hf.1.2 q hq.1 hq.2)
    exact h.own.born d hd sAsid sStatus ha
  unfold Alive
  cases hl : s.life q with
  | unborn => exact absurd hl hborn
  | ready => exact .inl rfl
  | blocked => exact .inr rfl
  | dead => exact absurd hl hdead

theorem alive_of_holds (h : s.Regular) (hx : x.IsMutex) (hq : Holds x q s.log) : s.Alive q := by
  unfold Alive
  cases hl : s.life q with
  | unborn => exact absurd hq (not_holds_of_ne (h.calls.sane.unborn q hl))
  | ready => exact .inl rfl
  | blocked => exact .inr rfl
  | dead =>
    rw [holds_place h.locks.allowed hx, (h.locks.free hl).held x] at hq
    nomatch hq

/-- Somebody who lives owes what is awaited. -/
theorem owed (h : s.Regular) (hp : s.Awaits p x) : ∃ q, s.Owes q x := by
  rcases h.awaited hp with ⟨rfl, rfl⟩ | ⟨hp0, hx⟩
  · obtain ⟨q, hq, howes⟩ := h.owed_master hp
    exact ⟨q, hq, (if_pos rfl).mpr howes⟩
  · have hneg : ¬ 0 ≤ (s.sem x).value := by
      rw [← Semaphore.waiters_eq_nil_iff]
      exact List.ne_nil_of_mem hp.2
    obtain ⟨q, hq⟩ := h.held x hx (by omega)
    exact ⟨q, h.alive_of_holds hx hq, (if_neg (isMutex_ne_master hx)).mpr hq⟩

theorem ranked (h : s.Regular) : Ranked Sem.rank s.Awaits s.Owes :=
  ⟨fun _ _ _ => h.above, fun _ _ => h.owed⟩

theorem goesOn (h : s.Regular) (hp : s.Alive p) (hfree : ∀ x, ¬ s.Awaits p x) : s.GoesOn p := by
  rcases hp with hready | hblocked
  · refine .ready hready fun a hdone => ?_
    by_cases hp0 : p = 0
    · subst hp0
      have hf := h.own.test (.inl hready)
      rw [hdone] at hf
      exact hf
    · rcases (h.own.minds p hp0 (.inl hready)).prog with hf | hf <;> rw [hdone] at hf <;> exact hf
  · rcases h.queued p hblocked with ⟨x, hx⟩ | ⟨i, hi⟩
    · exact absurd ⟨.inr hblocked, hx⟩ (hfree x)
    · obtain ⟨-, l, d, u, k, hprog, -, rfl⟩ := h.calls.sane.dev i p hi
      refine .onDevice hprog hi fun hon => h.disk.busy ?_
      exact List.ne_nil_of_mem (hon.2 ▸ hi)

end Regular

/-- Lines lose nobody, and a semaphore that is not free has a holder. -/
theorem Reaches.queued (hrun : Reaches (kaya K junk) Booted h s) :
    s.Halted ∨ s.Queued ∧ ∀ x : Sem, x.first = 1 → s.Held x := by
  induction hrun with
  | start hs =>
    refine .inr ⟨fun p hp => ?_, fun x hx hle => ?_⟩
    · rcases hs.life p with hp' | hp' <;> rw [hp'] at hp <;> exact absurd hp (by decide)
    · rw [hs.sem, hx] at hle
      exact absurd hle (by decide)
  | next hrun hcan ih =>
    rcases ih with hhalt | ⟨hq, hheld⟩
    · exact .inl (hhalt.step hcan).1
    rcases Reaches.kaya_live hrun with hhalt | hlive
    · exact .inl (hhalt.step hcan).1
    · exact .inr ⟨hq.step hlive.sane hcan, fun x hx => (hlive.semStep hcan).held (hheld x hx)⟩

theorem Reaches.regular (hrun : Reaches (kaya K junk) Booted h s) (hready : Kept true s.log) :
    s.Halted ∨ s.Regular := by
  have hlocks := hrun.lockRun hready
  rcases hrun.queued with hhalt | ⟨hqueued, hheld⟩
  · exact .inl hhalt
  rcases hrun.kaya_disk.2 with hhalt | ⟨hcalls, -, hdisk⟩
  · exact .inl hhalt
  by_cases hhalt : s.Halted
  · exact .inl hhalt
  refine .inr ⟨hlocks, hready, hrun.ownDevices, fun p q hp0 hp => ?_, hqueued, fun x hx => ?_,
    hcalls, hdisk⟩
  · have hnil := ((hrun.uncontended hp0 hp).resolve_left hhalt).waiters
    rw [hnil]
    exact List.not_mem_nil
  · refine hheld x ?_
    rcases hx with rfl | rfl <;> rfl

end Sys

/-- In every run in which the interrupt of each device finds a process that waits for it, and the
tapes and disk 0 answer `READY`. -/
theorem kaya_progress (hrun : Sys.Reaches (kaya K junk) Sys.Booted h s)
    (hserved : ∀ x ∈ h, x.1.Served x.2) : Progress s := by
  rcases Sys.Reaches.regular hrun (hrun.kept hserved).1 with hhalt | hs
  · have hdead : ∀ p, ¬ s.Alive p := fun p hp => hp.not_dead (hhalt.dead p)
    refine ⟨fun p hway => ?_, fun p hp => absurd hp (hdead p)⟩
    obtain ⟨q, ⟨x, hwaits, -⟩, -⟩ := Relation.TransGen.head'_iff.mp hway
    exact hdead p hwaits.1
  · refine ⟨hs.ranked.acyclic, fun p hp => ?_⟩
    obtain ⟨q, hway, hfree⟩ := hs.ranked.leads p
    refine ⟨q, hway, ?_⟩
    have hq : s.Alive q := by
      rcases hway.cases_tail with rfl | ⟨z, -, x, -, howes⟩
      · exact hp
      · exact howes.1
    exact ⟨hq, hs.goesOn hq hfree⟩

/-- Process 1 waits for disk 0, process 2 for the swap pool, and `test` for both. -/
def contended : List (Event Word) :=
  [.dispatch 0, .step 0, .step 0, .step 0, .dispatch 1] ++ List.replicate 9 (.step 0) ++ fault ++
    .dispatch 2 :: List.replicate 9 (.step 0) ++ [.user (.load 0x80000000), .step 0]

theorem kaya_progress_contended : Progress (runOf contended) := by
  obtain ⟨h, hrun, hserved⟩ := runOf_serves contended (by decide +kernel) (by decide +kernel)
  exact kaya_progress hrun hserved

end Kaya.Phase3
