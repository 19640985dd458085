import Kaya.Phase3.Isolation
import Kaya.Phase3.Proofs.TapeRules

/-!
# Tapes during a run

Until its tape is copied a process keeps to the rules for it and has no trap vector, so it has no
page in memory either.
-/

namespace Kaya.Phase3

open Lib Lib.Program

/-! ## One process -/

/-- How process `p` comes to its pages. -/
inductive Copying (p : Word) (s : Stage × Round) (t : Task) : Prop
  | begins : s = (.out, .start) → t.prog = uProcInit → asidOf t.entryHi = p →
      t.new = (fun _ => none) → Copying p s t
  | copies (x : SupM Unit) : s.2 ≠ .start → t.prog = (x >>= fun _ => afterTape p) →
      Follows (tapeRules p) x s (fun _ s' => ∃ n, s' = (.out, .head n true)) →
        t.new = (fun _ => none) → Copying p s t
  /-- It has its first vector, or is to get it at once. -/
  | settles : s.2 = .done →
      (t.new .tlb ≠ none ∨ ∃ area k, t.prog = .act (.spectrapvec .tlb area) k) → Copying p s t

namespace Copying

variable {p : Word} {s : Stage × Round} {t t' : Task} {a : Act} {k : Word → Prog} {r : Word}
  {l : Leave}

theorem next_block (hp : p < 64) {n : Nat} {b : Bool}
    (hprog : t.prog = uProcInitFrom p (BitVec.ofNat 32 n)) (hnew : t.new = fun _ => none) :
    Copying p (.out, .head n b) t :=
  .copies _ nofun hprog (tapeToDisk_tape hp n b) hnew

theorem done_next (g : Stage) (a : Act) : Round.done.next p g r a = .done := by
  cases a <;> rfl

theorem answer (hp : p < 64) (h : Copying p s t) (hprog : t.prog = .act a k)
    (hr : a = .getENTRYHI → r = t.entryHi) (status : Word) (x : View) :
    Copying p ((tapeRules p).next s a r x)
      { t with prog := k r, status := status, new := a.onNew t.new } := by
  cases h with
  | begins hs hinit hasid hnew =>
    have hact := hinit.symm.trans hprog
    injection hact with ha hk
    subst hs ha hk
    refine next_block hp (n := 0) ?_ hnew
    have hnumber : asidOf r = p := hr rfl ▸ hasid
    exact congrArg (uProcInitFrom · 0) hnumber
  | copies y hs hy hf hnew =>
    rw [hprog] at hy
    cases y with
    | done u =>
      obtain ⟨n, rfl⟩ := hf
      injection hy with ha hk
      subst ha hk
      exact .settles rfl (.inr ⟨_, _, rfl⟩)
    | leave l => nomatch hy
    | act a' k' =>
      injection hy with ha hk
      subst ha hk
      refine .copies (k' r) (Round.next_ne_start hs a) rfl (hf.2 r x trivial) ?_
      have hmay := hf.1
      cases a with
      | spectrapvec => exact hmay.elim
      | _ => exact hnew
  | settles hs hvector =>
    refine .settles ?_ (.inl ?_)
    · exact (congrArg (Round.next p s.1 r · a) hs).trans (done_next s.1 a)
    cases a with
    | spectrapvec trap area =>
      change Function.update t.new trap (some area) .tlb ≠ none
      by_cases htrap : Trap.tlb = trap
      · rw [htrap, Function.update_self]
        exact Option.some_ne_none area
      · rw [Function.update_of_ne htrap]
        refine hvector.resolve_right ?_
        rintro ⟨area', k', hprog'⟩
        have hact := hprog'.symm.trans hprog
        injection hact with ha
        injection ha with htrap'
        exact htrap htrap'
    | _ =>
      refine hvector.resolve_right ?_
      rintro ⟨area', k', hprog'⟩
      have hact := hprog'.symm.trans hprog
      injection hact with ha
      exact Act.noConfusion ha

/-- Who has a vector is not trapped before it has its first. -/
theorem trapped (h : Copying p s t) {trap : Trap} {area : NewArea} (harea : t.new trap = some area)
    (hprog : ∀ area k, t.prog ≠ .act (.spectrapvec .tlb area) k) (hnew : t'.new = t.new) :
    Copying p s t' := by
  cases h with
  | begins _ _ _ hnone | copies _ _ _ _ hnone =>
    rw [hnone] at harea
    exact absurd harea.symm (Option.some_ne_none area)
  | settles hs hvector =>
    refine .settles hs (.inl (hnew ▸ hvector.resolve_right ?_))
    rintro ⟨area', k, heq⟩
    exact hprog area' k heq

/-- Of the ways to leave only those of `tapeToDisk` come before the first vector. -/
theorem leaves (h : Copying p s t) (hprog : t.prog = .leave l) :
    s.2 = .done ∧ t.new .tlb ≠ none ∨ t.new = (fun _ => none) ∧ (tapeRules p).leave s l := by
  cases h with
  | begins _ hinit => exact nomatch hinit.symm.trans hprog
  | copies y hs hy hf hnew =>
    rw [hprog] at hy
    cases y with
    | done u => nomatch hy
    | leave l' =>
      injection hy with hl
      exact .inr ⟨hnew, hl ▸ hf⟩
    | act a' k' => nomatch hy
  | settles hs hvector =>
    refine .inl ⟨hs, hvector.resolve_right ?_⟩
    rintro ⟨area', k, heq⟩
    exact nomatch heq.symm.trans hprog

/-- Who copies its tape keeps to the rules, until it asks for its number. -/
theorem may (h : Copying p s t) (hprog : t.prog = .act a k) (hstart : s.2 ≠ .start)
    (hdone : s.2 ≠ .done) : a = .getENTRYHI ∨ (tapeRules p).may s a := by
  cases h with
  | begins hs => exact absurd (congrArg Prod.snd hs) hstart
  | copies y _ hy hf =>
    rw [hprog] at hy
    cases y with
    | done u =>
      injection hy with ha
      exact .inl ha
    | leave l => nomatch hy
    | act a' k' =>
      injection hy with ha
      exact .inr (ha ▸ hf.1)
  | settles hs => exact absurd hs hdone

theorem at_start (h : Copying p s t) (hprog : t.prog = .act a k) (hs : s.2 = .start) :
    a = .getENTRYHI := by
  cases h with
  | begins _ hinit =>
    have hact := hinit.symm.trans hprog
    injection hact with ha
    exact ha.symm
  | copies _ hne => exact absurd hs hne
  | settles hdone => exact Round.noConfusion (hs.symm.trans hdone)

/-- Where `tapeToDisk` has returned the tape has shown its end. -/
theorem copied (h : Copying p s t) (hprog : t.prog = afterTape p) (hnone : t.new .tlb = none) :
    ∃ n, s = (.out, .head n true) := by
  cases h with
  | begins _ hinit =>
    have hact := hinit.symm.trans hprog
    injection hact with _ hk
    exact Act.noConfusion (Program.act.inj (congrFun hk 0)).1
  | copies y _ hy hf =>
    rw [hprog] at hy
    cases y with
    | done u => exact hf
    | leave l => nomatch hy
    | act a k =>
      injection hy with ha
      subst ha
      exact hf.1.elim
  | settles _ hvector =>
    rcases hvector with hsome | ⟨area, k, heq⟩
    · exact absurd hnone hsome
    · have hact := heq.symm.trans hprog
      injection hact with ha
      exact Act.noConfusion ha

end Copying

/-! ## Jobs -/

namespace Job

variable {K : Layout} {p : Word} {j : Job} {g : Stage} {a : Act} {x : View}

/-- Who lives and has no vector has just asked for its number. -/
theorem eq_settling (h : j.Lives) (hlacks : j.Lacks .tlb) : j = .settling 0 := by
  cases j with
  | settling n => exact congrArg settling (Nat.le_zero.mp hlacks)
  | born | taping | ended => exact h.elim
  | idle | fault | pool => exact hlacks.elim

/-- Who settles does so until it has a vector. -/
theorem settling_next (hmay : (settling 0).May K p g a) (hnumber : a ≠ .getENTRYHI)
    (hvector : ∀ trap new, a ≠ .spectrapvec trap new) : (settling 0).next g x a = .settling 0 := by
  cases a with
  | passeren y =>
    have hpool : y ≠ .swapPoolSem := by
      rintro rfl
      simp [May] at hmay
    simp only [next, if_neg hpool]
    split_ifs <;> rfl
  | verhogen y => exact ite_self _
  | waitio l d u =>
    simp only [next]
    split_ifs
    · cases g <;> rfl
    · rfl
  | getENTRYHI => exact absurd rfl hnumber
  | spectrapvec trap new => exact absurd rfl (hvector trap new)
  | _ => rfl

end Job

theorem not_settling_number {K : Layout} {p : Word} {g : Stage} :
    ¬ (Job.settling 0).May K p g .getENTRYHI := by
  rintro ((h | h | h) | ⟨n, hn, h⟩)
  · exact Job.noConfusion h
  · exact Job.noConfusion h
  · exact Job.noConfusion h
  · exact hn (Job.settling.inj h).symm

/-- Who copies its tape does not settle. -/
theorem tape_not_settling {K : Layout} {p : Word} {x : SupM Unit} {s : Stage × Round}
    {Q : Unit → Stage × Round → Prop} (hf : Follows (tapeRules p) x s Q) (g : Stage)
    {Q' : Unit → Job × Stage → Prop} :
    ¬ Follows (pageRules K p) (x >>= fun _ => afterTape p) (.settling 0, g) Q' := by
  induction x generalizing s g with
  | done u => exact fun h => not_settling_number (K := K) (p := p) (g := g) h.1
  | leave l =>
    intro h
    have h : (pageRules K p).leave (.settling 0, g) l := h
    cases l with
    | ldst | user | terminateprocess => exact Job.noConfusion (Prod.ext_iff.mp h).1
    | again => exact Job.noConfusion (Prod.ext_iff.mp h.1).1
    | terminate =>
      rcases h with h | h
      · exact Job.noConfusion (Prod.ext_iff.mp h).1
      · exact Job.noConfusion (Prod.ext_iff.mp h).1
  | act a k ih =>
    intro h
    have hmay : (tapeRules p).may s a := hf.1
    have hadm : (pageRules K p).admits (.settling 0, g) a READY ⟨.init, 0⟩ := by
      cases a with
      | passeren y => exact fun _ => by decide
      | waitio l d u => exact fun _ => rfl
      | getENTRYHI => exact hmay.elim
      | tables f => exact fun _ _ _ heq => Job.noConfusion heq
      | _ => exact trivial
    refine ih READY (hf.2 READY ⟨.init, 0⟩ trivial) (diskRules.next g a READY ⟨.init, 0⟩) ?_
    have hgo := h.2 READY ⟨.init, 0⟩ hadm
    have hjob : (Job.settling 0).next g ⟨.init, 0⟩ a = .settling 0 := by
      refine Job.settling_next h.1 ?_ ?_
      · rintro rfl
        exact hmay
      · rintro trap new rfl
        exact hmay
    change Follows (pageRules K p) _ ((Job.settling 0).next g ⟨.init, 0⟩ a, _) _ at hgo
    rw [hjob] at hgo
    exact hgo

/-! ## Runs -/

namespace Sys

variable {K : Layout} {junk : Word} {job : Word → Job} {turn : Turn}
  {home : Word × Word → Option Word} {s t : Sys Word} {p : Word}
  {h : List (Sys Word × Event Word)} {log l : List (Did Word Act Word View)}

/-- Where `p` is in a call of `diskIO`, and in the copying of its tape. -/
def copying (log : List (Did Word Act Word View)) (p : Word) : Stage × Round :=
  ghost tapeRules (fun _ => (.out, .start)) p log

theorem copying_stage : (copying log p).1 = stage log p := by
  induction log with
  | nil => rfl
  | cons d log ih =>
    by_cases hp : d.p = p
    · rw [stage_cons_self hp, ← ih]
      exact congrArg Prod.fst (ghost_cons_self hp)
    · rw [stage_cons_of_ne hp, ← ih]
      exact congrArg Prod.fst (ghost_cons_of_ne hp)

theorem Course.copying (hc : Course (kaya K junk) s t l p) (hp : p < 64) (hlog : t.log = l ++ s.log)
    (hunborn : s.life p = .unborn → ∀ d ∈ s.log, d.p ≠ p)
    (h : s.Alive p → Copying p (copying s.log p) (s.task p)) :
    t.Alive p → Copying p (Sys.copying t.log p) (t.task p) := by
  intro halive
  have hsame : (∀ d ∈ l, d.p ≠ p) → Sys.copying t.log p = Sys.copying s.log p := fun hl =>
    hlog ▸ ghost_append_of_ne hl
  cases hc with
  | rests hother htask hlife =>
    have halive' : s.Alive p := by
      rcases hlife with heq | ⟨hs, -⟩ | hdead
      · unfold Alive at halive ⊢
        exact heq ▸ halive
      · exact hs
      · exact absurd hdead halive.not_dead
    rw [htask, hsame hother]
    exact h halive'
  | @goesOn l₁ l₂ a k r v hs hprog hl h₁ h₂ hr _ htask =>
    have hnext : Sys.copying t.log p = (tapeRules p).next (Sys.copying s.log p) a r v := by
      rw [hlog, hl]
      exact ghost_append_entry (d := ⟨p, a, r, v⟩) h₁ h₂
    rw [hnext, htask]
    exact (h hs).answer hp hprog hr _ v
  | born sAsid sStatus hborn hchild hother _ htask =>
    have hstart : Sys.copying s.log p = (.out, .start) := ghost_eq_of_forall_ne (hunborn hborn)
    rw [hsame hother, hstart, htask]
    exact .begins rfl rfl hchild.symm rfl
  | traps hready harea hnil _ hrest htask =>
    rw [hsame (by simp [hnil]), htask]
    refine (h (.inl hready)).trapped harea (fun area' k heq => ?_) rfl
    rcases hrest with ⟨-, hmode | ⟨-, virtAddr, k', hprog⟩⟩ | ⟨-, -, hprog, -⟩
    · obtain ⟨asid, sp, status, pc, hprog⟩ := hmode.prog
      exact nomatch heq.symm.trans hprog
    · exact nomatch heq.symm.trans hprog
    · exact nomatch heq.symm.trans hprog
  | resumes hready hprog hnil _ htask =>
    rw [hsame (by simp [hnil]), htask]
    rcases (h (.inl hready)).leaves hprog with ⟨hdone, hvector⟩ | ⟨-, hleave⟩
    · exact .settles hdone (.inl hvector)
    · exact hleave.elim
  | again hready hprog hnil _ htask =>
    rw [hsame (by simp [hnil]), htask]
    rcases (h (.inl hready)).leaves hprog with ⟨hdone, hvector⟩ | ⟨hnew, n, b, hs, rfl, rfl⟩
    · exact .settles hdone (.inl hvector)
    · rw [hs]
      exact .next_block hp rfl hnew

/-- In every state reached, whatever the devices answer. -/
theorem Reaches.copying (hrun : Sys.Reaches (kaya K junk) Sys.Booted h s) (hp : IsUProc p) :
    s.Alive p → Copying p (Sys.copying s.log p) (s.task p) := by
  induction hrun with
  | start hs =>
    intro halive
    have hlife := congrFun hs.alone p
    rw [Function.update_of_ne hp.ne_zero] at hlife
    exact absurd hlife halive.not_unborn
  | @next h s e hrun hcan ih =>
    rcases Reaches.kaya_live hrun with hhalt | hlive
    · obtain ⟨hhalt', -⟩ := hhalt.step (S := kaya K junk) hcan
      exact fun halive => absurd (hhalt'.dead p) halive.not_dead
    · obtain ⟨l, hlog, hcourse, -⟩ := hlive.sane.courses (S := kaya K junk) hcan
      exact (hcourse p).copying hp.lt hlog (hlive.sane.unborn p) ih

/-! ## Pages -/

/-- Until it has copied its tape a process has no pages. -/
theorem PageInv.not_lives (hinv : PageInv K job turn home s) (hp : IsUProc p) (halive : s.Alive p)
    {c : Stage × Round} (hcopy : Copying p c (s.task p)) (hc : c.2 ≠ .done) : ¬ (job p).Lives := by
  intro hlives
  have habides := (hinv.own p hp).fits halive
  have hne : job p ≠ .ended := by
    intro hended
    rw [hended] at hlives
    exact hlives
  have hj : (s.task p).new = (fun _ => none) → job p = .settling 0 := fun hnew =>
    Job.eq_settling hlives ((habides.lacks hne .tlb).mp (congrFun hnew .tlb))
  cases hcopy with
  | begins _ hprog _ hnew =>
    have hmay := habides.may hprog
    rw [hj hnew] at hmay
    exact not_settling_number hmay
  | copies x _ hprog hf hnew =>
    have hfollows := habides.prog
    rw [hj hnew, hprog] at hfollows
    exact tape_not_settling hf _ hfollows
  | settles hdone => exact hc hdone

/-- Where `tapeToDisk` has returned the process has no vector yet. -/
theorem PageInv.taped_new (hinv : PageInv K job turn home s) (hp : IsUProc p) (ht : s.Taped p) :
    (s.task p).new .tlb = none := by
  have habides := (hinv.own p hp).fits ht.1
  have hj := habides.eq_taping ht.2
  refine (habides.lacks ?_ .tlb).mpr ?_
  · rw [hj]
    exact nofun
  · rw [hj]
    exact trivial

end Sys

end Kaya.Phase3
