import Kaya.Phase3.PageFaults
import Kaya.Phase3.Proofs.Courses
import Kaya.Phase3.Proofs.DeviceRules

/-!
# Devices during a run

Each process uses its own tape and terminal, so nobody ever waits for the semaphore of a terminal.
-/

namespace Kaya.Phase3

open Lib Lib.Program

/-! ## One process -/

theorem Task.InUserMode.prog {t : Task} (h : t.InUserMode) :
    ∃ asid sp st pc, t.prog = .leave (.user asid sp st pc) := by
  unfold InUserMode at h
  split at h
  · exact ⟨_, _, _, _, ‹_›⟩
  · exact h.elim

/-- How a process may leave a handler that it may be trapped in. -/
def Inner (old : Trap → Saved) (p : Word) (g : Bool) : Leave → Prop
  | .ldst trap _ => trap = .sys ∧ g = false ∧ asidOf (old .sys).entryHi = p ∧
      ∃ asid sp st pc, (old .sys).prog = .leave (.user asid sp st pc)
  | .user _ _ _ _ => g = false
  | .again asid _ => asid = p ∧ g = false
  | .terminate | .terminateprocess => True

def Outer (old : Trap → Saved) (p : Word) (g : Bool) : Leave → Prop
  | .ldst trap _ => trap = .tlb ∧ asidOf (old .tlb).entryHi = p ∧
      Follows (deviceRules false p (Inner old p)) (old .tlb).prog g fun _ _ => False
  | .terminate | .terminateprocess => True
  | _ => False

/-- What holds of process `p`, by whether it holds the semaphore of its terminal. -/
structure Minds (p : Word) (g : Bool) (t : Task) : Prop where
  asid : asidOf t.entryHi = p
  new : ∀ trap area, t.new trap = some area → area.sPc = trap.entry ∧ asidOf area.sAsid = p
  prog : Follows (deviceRules false p (Inner t.old p)) t.prog g (fun _ _ => False) ∨
    Follows (deviceRules true p (Outer t.old p)) t.prog g fun _ _ => False

namespace Minds

variable {p : Word} {g : Bool} {t : Task} {a : Act} {k : Word → Prog} {r : Word} {l : Leave}
  {trap : Trap} {area : NewArea} {K : Layout} {junk : Word}

theorem lt (h : Minds p g t) : p < 64 := h.asid ▸ asidOf_lt _

theorem permitted (h : Minds p g t) (hprog : t.prog = .act a k) : a.Permitted p g := by
  rcases h.prog with hf | hf <;> rw [hprog] at hf <;> exact hf.1.1

theorem leaves (h : Minds p g t) (hprog : t.prog = .leave l) :
    Inner t.old p g l ∨ Outer t.old p g l := by
  refine h.prog.imp (fun hf => ?_) fun hf => ?_ <;> rw [hprog] at hf <;> exact hf

theorem answer (h : Minds p g t) (hprog : t.prog = .act a k) (hr : a = .getENTRYHI → r = t.entryHi)
    (status : Word) (x : View) :
    Minds p ((deviceRules false p (Inner t.old p)).next g a r x)
      { t with prog := k r, status := status, new := a.onNew t.new } where
  asid := h.asid
  new trap area harea := by
    have hmay := h.permitted hprog
    cases a with
    | spectrapvec trap' new =>
      have harea : Function.update t.new trap' (some new) trap = some area := harea
      by_cases htrap : trap = trap'
      · rw [htrap, Function.update_self] at harea
        obtain rfl := Option.some.inj harea
        exact htrap ▸ hmay
      · rw [Function.update_of_ne htrap] at harea
        exact h.new trap area harea
    | _ => exact h.new trap area harea
  prog := by
    have hadm : a = .getENTRYHI → asidOf r = p := fun ha => hr ha ▸ h.asid
    refine h.prog.imp (fun hf => ?_) fun hf => ?_ <;> rw [hprog] at hf <;> exact hf.2 r x hadm

theorem traps (h : Minds p g t) (harea : t.new trap = some area) {st : State} {rest : Prog}
    (hrest : rest = t.prog ∧ (t.InUserMode ∨
        trap = .tlb ∧ ∃ virtAddr k, t.prog = .act (.load virtAddr) k) ∨
        trap = .sys ∧ st = Sys.terminateState ∧ t.prog = .leave .terminate ∧ rest = .done ()) :
    Minds p g { t with
      prog := (kaya K junk).enter p area.sPc area.sAsid st
      status := popStatus area.sStatus
      entryHi := area.sAsid
      old := Function.update t.old trap ⟨rest, t.status, t.entryHi⟩ } := by
  obtain ⟨hpc, hasid⟩ := h.new trap area harea
  refine ⟨hasid, h.new, ?_⟩
  generalize hold : Function.update t.old trap ⟨rest, t.status, t.entryHi⟩ = old
  have hself : old trap = ⟨rest, t.status, t.entryHi⟩ := by rw [← hold, Function.update_self]
  have hasid' : asidOf (old trap).entryHi = p := by
    rw [hself]
    exact h.asid
  -- the pager goes back to code that may be trapped again
  have hpager : trap = .tlb → Follows (deviceRules false p (Inner old p)) rest g (fun _ _ => False) →
      Follows (deviceRules true p (Outer old p)) (pager K area.sAsid st) g fun _ _ => False := by
    rintro rfl hf
    refine pager_devices h.lt trivial K area.sAsid ⟨rfl, hasid', ?_⟩
    rw [hself]
    exact hf
  rw [hpc]
  rcases hrest with ⟨rfl, hmode | ⟨rfl, virtAddr, k, hprog⟩⟩ | ⟨rfl, rfl, hprog, rfl⟩
  · obtain ⟨asid, sp, status, pc, hprog⟩ := hmode.prog
    have hg : g = false := by
      rcases h.leaves hprog with hl | hl
      · exact hl
      · exact hl.elim
    cases trap with
    | tlb =>
      refine .inr (hpager rfl ?_)
      rw [hprog]
      exact hg
    | pgm => exact .inl trivial
    | sys =>
      subst hg
      refine .inl (userSyscallHandler_devices junk hasid st (fun _ => trivial) fun st' => ?_)
      exact ⟨rfl, rfl, hasid', asid, sp, status, pc, (congrArg Saved.prog hself).trans hprog⟩
  · have hf : Follows (deviceRules false p (Inner t.old p)) t.prog g fun _ _ => False := by
      refine h.prog.resolve_right fun hf => ?_
      rw [hprog] at hf
      exact hf.1.2 rfl virtAddr rfl
    have hsys : old .sys = t.old .sys := by
      rw [← hold]
      exact Function.update_of_ne (by decide) ..
    have hinner : Inner old p = Inner t.old p := by
      unfold Inner
      rw [hsys]
    refine .inr (hpager rfl ?_)
    rw [hinner]
    exact hf
  · have hterm : userSyscallHandler junk area.sAsid Sys.terminateState =
        terminateUserProc area.sAsid := rfl
    refine .inr ?_
    change Follows _ (userSyscallHandler junk area.sAsid Sys.terminateState) _ _
    rw [hterm]
    exact terminateUserProc_devices h.lt trivial area.sAsid

theorem resumes {st : State} (h : Minds p g t) (hprog : t.prog = .leave (.ldst trap st)) :
    Minds p g { t with
      prog := (t.old trap).prog, status := (t.old trap).status, entryHi := (t.old trap).entryHi } := by
  rcases h.leaves hprog with ⟨rfl, hg, hasid, asid, sp, status, pc, hold⟩ | ⟨rfl, hasid, hf⟩
  · refine ⟨hasid, h.new, .inl ?_⟩
    rw [hold]
    exact hg
  · exact ⟨hasid, h.new, .inl hf⟩

theorem again {asid i : Word} (h : Minds p g t) (hprog : t.prog = .leave (.again asid i)) :
    Minds p g { t with prog := uProcInitFrom asid i } := by
  refine ⟨h.asid, h.new, .inl ?_⟩
  rcases h.leaves hprog with ⟨rfl, rfl⟩ | hl
  · exact uProcInitFrom_devices h.lt trivial (fun _ => ⟨rfl, rfl⟩) (fun _ _ _ _ => rfl) i
  · exact hl.elim

theorem start {sAsid status : Word} (hasid : asidOf sAsid = p) (old : Trap → Saved) :
    Minds p false ⟨uProcInit, status, sAsid, fun _ => none, old⟩ := by
  refine ⟨hasid, nofun, .inl (.perform ⟨trivial, nofun⟩ fun r _ hr => ?_)⟩
  rw [hr rfl]
  exact uProcInitFrom_devices (hasid ▸ asidOf_lt sAsid) trivial (fun _ => ⟨rfl, rfl⟩)
    (fun _ _ _ _ => rfl) 0

end Minds

/-! ## The log -/

variable {log log' l : List (Did Word Act Word View)} {p q : Word} {x : Sem} {a : Act}
  {s t : Sys Word} {K : Layout} {junk : Word}

def Act.ByTest : Act → Prop
  | .passeren x => x = .masterSem
  | .createprocess _ _ => True
  | _ => False

/-- What process `p` may do after a log. -/
def Act.Orderly (p : Word) (log : List (Did Word Act Word View)) (a : Act) : Prop :=
  if p = 0 then a.ByTest else p < 64 ∧ a.Permitted p (Holds (termSem p) p log)

def Orderly : List (Did Word Act Word View) → Prop
  | [] => True
  | d :: log => d.a.Orderly d.p log ∧ Orderly log

theorem Act.Orderly.congr (h : a.Orderly p log)
    (hholds : Holds (termSem p) p log' ↔ Holds (termSem p) p log) : a.Orderly p log' := by
  unfold Act.Orderly at h ⊢
  split_ifs at h ⊢ with hp
  · exact h
  · rw [decide_eq_decide.mpr hholds]
    exact h

theorem Act.Orderly.user (h : a.Orderly p log) (ha : ¬ a.ByTest) :
    p < 64 ∧ a.Permitted p (Holds (termSem p) p log) := by
  unfold Act.Orderly at h
  split_ifs at h with hp
  · exact absurd h ha
  · exact h

theorem Orderly.append (h : Orderly log)
    (hl : ∀ l₁ d l₂, l = l₁ ++ d :: l₂ → d.a.Orderly d.p (l₂ ++ log)) : Orderly (l ++ log) := by
  induction l with
  | nil => exact h
  | cons d l ih =>
    refine ⟨hl [] d l rfl, ih fun l₁ e l₂ heq => hl (d :: l₁) e l₂ ?_⟩
    rw [heq, List.cons_append]

theorem Orderly.suffix (h : Orderly (l ++ log)) : Orderly log := by
  induction l with
  | nil => exact h
  | cons d l ih => exact ih h.2

/-- `test` makes a P on `masterSem` alone. -/
theorem Orderly.held_by_test (h : Orderly log) (hx : Holds x 0 log) : x = .masterSem := by
  induction log with
  | nil => exact hx.elim
  | cons d log ih =>
    by_cases hd : d.p = 0
    swap
    · exact ih h.2 ((holds_cons_of_ne hd).mp hx)
    have hmay : d.a.ByTest := (if_pos hd).mp h.1
    rw [Holds, if_pos hd] at hx
    cases hact : d.a with
    | passeren y =>
      rw [hact] at hmay hx
      rcases hx with rfl | hx
      · exact hmay
      · exact ih h.2 hx
    | createprocess =>
      rw [hact] at hx
      exact ih h.2 hx
    | _ =>
      rw [hact] at hmay
      exact hmay.elim

theorem holds_append_of_ne (hl : ∀ d ∈ l, d.p ≠ p) : Holds x p (l ++ log) ↔ Holds x p log := by
  induction l with
  | nil => exact Iff.rfl
  | cons d l ih =>
    rw [List.forall_mem_cons] at hl
    exact (holds_cons_of_ne hl.1).trans (ih hl.2)

theorem not_holds_of_ne (h : ∀ d ∈ log, d.p ≠ p) : ¬ Holds x p log := by
  have hnil : Holds x p (log ++ []) ↔ Holds x p [] := holds_append_of_ne h
  rw [List.append_nil] at hnil
  exact fun hp => hnil.mp hp

def created (log : List (Did Word Act Word View)) : Word → Bool :=
  ghost (fun _ => creatorRules) (fun _ _ => false) 0 log

theorem created_cons {d : Did Word Act Word View} (hd : d.p = 0) :
    created (d :: log) = creatorRules.next (created log) d.a d.r d.x := ghost_cons_self hd

theorem made_of_created (hp : created log p = true) : ∃ d ∈ log, ∃ sAsid sStatus,
    d.a = .createprocess sAsid sStatus ∧ asidOf sAsid = p := by
  induction log with
  | nil => nomatch hp
  | cons d log ih =>
    by_cases hd : d.p = 0
    swap
    · rw [created, ghost_cons_of_ne hd] at hp
      obtain ⟨e, he, hmade⟩ := ih hp
      exact ⟨e, List.mem_cons_of_mem _ he, hmade⟩
    rw [created_cons hd] at hp
    have hold : created log p = true ∨ ∃ sAsid sStatus,
        d.a = .createprocess sAsid sStatus ∧ asidOf sAsid = p := by
      cases hact : d.a with
      | createprocess sAsid sStatus =>
        rw [hact] at hp
        by_cases hasid : p = asidOf sAsid
        · exact .inr ⟨sAsid, sStatus, rfl, hasid.symm⟩
        · exact .inl ((Function.update_of_ne hasid ..).symm.trans hp)
      | _ =>
        rw [hact] at hp
        exact .inl hp
    rcases hold with hold | hnew
    · obtain ⟨e, he, hmade⟩ := ih hold
      exact ⟨e, List.mem_cons_of_mem _ he, hmade⟩
    · exact ⟨d, List.mem_cons_self, hnew⟩

/-! ## All processes -/

/-- What holds of a system whose processes use their own devices. -/
structure Sys.OwnDevices (s : Sys Word) : Prop where
  root : s.life 0 ≠ .unborn
  test : s.Alive 0 → Follows creatorRules (s.task 0).prog (created s.log) fun _ _ => False
  minds : ∀ p, p ≠ 0 → s.Alive p → Minds p (Holds (termSem p) p s.log) (s.task p)
  log : Orderly s.log
  born : ∀ d ∈ s.log, ∀ sAsid sStatus, d.a = .createprocess sAsid sStatus →
    s.life (asidOf sAsid) ≠ .unborn

namespace Sys

theorem created_of_ne (hl : ∀ d ∈ l, d.p ≠ 0) : created (l ++ log) = created log :=
  ghost_append_of_ne hl

/-- `test` is not trapped, and goes its way. -/
theorem Course.test (hc : Course (kaya K junk) s t l 0) (hlog : t.log = l ++ s.log)
    (hroot : s.life 0 ≠ .unborn)
    (h : s.Alive 0 → Follows creatorRules (s.task 0).prog (created s.log) fun _ _ => False) :
    t.Alive 0 → Follows creatorRules (t.task 0).prog (created t.log) fun _ _ => False := by
  intro halive
  cases hc with
  | rests hother htask hlife =>
    have halive' : s.Alive 0 := by
      rcases hlife with heq | ⟨hs, -⟩ | hdead
      · unfold Alive at halive ⊢
        exact heq ▸ halive
      · exact hs
      · exact absurd hdead halive.not_dead
    rw [htask, hlog, created_of_ne hother]
    exact h halive'
  | @goesOn l₁ l₂ a k r v hs hprog hl h₁ h₂ _ _ htask =>
    have hf := h hs
    rw [hprog] at hf
    have hrest : created (l₂ ++ s.log) = created s.log := created_of_ne h₂
    have hcreated : created t.log = creatorRules.next (created s.log) a r v := by
      rw [hlog, hl, List.append_assoc, created_of_ne h₁, List.cons_append, ← hrest]
      exact created_cons rfl
    rw [hcreated, htask]
    exact hf.2 r v trivial
  | born _ _ hunborn => exact absurd hunborn hroot
  | traps hready _ _ _ hrest =>
    have hf := h (.inl hready)
    rcases hrest with ⟨-, hmode | ⟨-, virtAddr, k, hprog⟩⟩ | ⟨-, -, hprog, -⟩
    · obtain ⟨asid, sp, status, pc, hprog⟩ := hmode.prog
      rw [hprog] at hf
      nomatch hf
    · rw [hprog] at hf
      exact hf.1.elim
    · rw [hprog] at hf
      nomatch hf
  | resumes hready hprog | again hready hprog =>
    have hf := h (.inl hready)
    rw [hprog] at hf
    nomatch hf

theorem deviceRules_held {E : Bool → Leave → Prop} {trapped g : Bool} (r : Word) (v : View) :
    (deviceRules trapped p E).next g a r v = true ↔ a.held (termSem p) (g = true) := by
  cases a with
  | passeren x => simp [deviceRules, Act.held]
  | verhogen x => simp [deviceRules, Act.held]
  | _ => exact Iff.rfl

theorem Course.minds (hc : Course (kaya K junk) s t l q) (hlog : t.log = l ++ s.log)
    (hunborn : s.life q = .unborn → ∀ d ∈ s.log, d.p ≠ q)
    (h : s.Alive q → Minds q (Holds (termSem q) q s.log) (s.task q)) :
    t.Alive q → Minds q (Holds (termSem q) q t.log) (t.task q) := by
  intro halive
  have hsame : (∀ d ∈ l, d.p ≠ q) →
      decide (Holds (termSem q) q t.log) = decide (Holds (termSem q) q s.log) := fun hl =>
    decide_eq_decide.mpr (hlog ▸ holds_append_of_ne hl)
  cases hc with
  | rests hother htask hlife =>
    have halive' : s.Alive q := by
      rcases hlife with heq | ⟨hs, -⟩ | hdead
      · unfold Alive at halive ⊢
        exact heq ▸ halive
      · exact hs
      · exact absurd hdead halive.not_dead
    rw [htask, hsame hother]
    exact h halive'
  | @goesOn l₁ l₂ a k r v hs hprog hl h₁ h₂ hr _ htask =>
    have hm := (h hs).answer hprog hr (a.onStatus (s.task q).status) v
    have hg : decide (Holds (termSem q) q t.log) =
        (deviceRules false q (Inner (s.task q).old q)).next (Holds (termSem q) q s.log) a r v := by
      rw [Bool.eq_iff_iff, deviceRules_held, decide_eq_true_iff, decide_eq_true_iff, hlog, hl,
        List.append_assoc, holds_append_of_ne h₁, List.cons_append, Holds, if_pos rfl,
        holds_append_of_ne h₂]
    rw [hg, htask]
    exact hm
  | born sAsid sStatus hborn hchild hother _ htask =>
    have hnot : decide (Holds (termSem q) q t.log) = false := by
      rw [hsame hother, decide_eq_false_iff_not]
      exact not_holds_of_ne (hunborn hborn)
    rw [hnot, htask]
    exact .start hchild.symm _
  | traps hready harea hnil _ hrest htask =>
    rw [hsame (by simp [hnil]), htask]
    exact (h (.inl hready)).traps harea hrest
  | resumes hready hprog hnil _ htask =>
    rw [hsame (by simp [hnil]), htask]
    exact (h (.inl hready)).resumes hprog
  | again hready hprog hnil _ htask =>
    rw [hsame (by simp [hnil]), htask]
    exact (h (.inl hready)).again hprog

theorem OwnDevices.may (h : s.OwnDevices) (hq : s.Alive q) {k : Word → Prog}
    (hprog : (s.task q).prog = .act a k) : a.Orderly q s.log := by
  by_cases hq0 : q = 0
  · subst hq0
    have hf := h.test hq
    rw [hprog] at hf
    refine (if_pos rfl).mpr ?_
    have hmay := hf.1
    cases a with
    | passeren x => exact hmay.1
    | createprocess => exact trivial
    | _ => exact hmay
  · have hm := h.minds q hq0 hq
    exact (if_neg hq0).mpr ⟨hm.lt, hm.permitted hprog⟩

theorem OwnDevices.courses (h : s.OwnDevices) (hs : s.Sane) (hc : Courses (kaya K junk) s t) :
    t.OwnDevices := by
  obtain ⟨l, hlog, hcourse, hchild⟩ := hc
  refine ⟨(hcourse 0).born_of h.root, (hcourse 0).test hlog h.root h.test, fun q hq0 => ?_, ?_, ?_⟩
  · exact (hcourse q).minds hlog (hs.unborn q) (h.minds q hq0)
  · rw [hlog]
    refine h.log.append fun l₁ d l₂ hl => ?_
    obtain ⟨halive, ⟨k, hprog⟩, -, hrest⟩ := (hcourse d.p).entry hl
    exact (h.may halive hprog).congr (holds_append_of_ne hrest)
  · intro d hd sAsid sStatus ha
    rw [hlog] at hd
    rcases List.mem_append.mp hd with hnew | hold
    · exact hchild.created d hnew sAsid sStatus ha
    · exact (hcourse _).born_of (h.born d hold sAsid sStatus ha)

theorem Booted.ownDevices (h : s.Booted) : s.OwnDevices := by
  have hlog := h.toFresh.log_eq
  have halive : ∀ p, s.Alive p → p = 0 := by
    intro p hp
    by_contra hp0
    have hlife := congrFun h.alone p
    rw [Function.update_of_ne hp0] at hlife
    exact hp.not_unborn hlife
  refine ⟨?_, fun _ => ?_, fun p hp0 hp => absurd (halive p hp) hp0, ?_, ?_⟩
  · rw [h.alone, Function.update_self]
    exact nofun
  · rw [h.test, hlog]
    exact test_creates
  · rw [hlog]
    exact trivial
  · rw [hlog]
    exact fun d hd => absurd hd List.not_mem_nil

theorem OwnDevices.halted (h : s.OwnDevices) (hhalt : t.Halted) (hlog : t.log = s.log) :
    t.OwnDevices := by
  have hdead : ∀ p, ¬ t.Alive p := fun p hp => absurd (hhalt.dead p) hp.not_dead
  have hborn : ∀ p, t.life p ≠ .unborn := by
    intro p
    rw [hhalt.dead p]
    exact nofun
  refine ⟨hborn 0, fun h0 => absurd h0 (hdead 0), fun p _ hp => absurd hp (hdead p), ?_, ?_⟩
  · exact hlog ▸ h.log
  · exact fun d _ sAsid _ _ => hborn (asidOf sAsid)

/-- In a run of Kaya lines and lives fit together until `test` ends. -/
theorem Reaches.kaya_live {h : List (Sys Word × Event Word)}
    (hrun : Reaches (kaya K junk) Booted h s) :
    s.Halted ∨ s.Live (fun _ => tableRules) (fun _ => false) fun _ => false := by
  refine (hrun.tableRun (kaya_tables K junk) fun s hs => ⟨hs.toFresh, ?_⟩).2.imp_right And.left
  refine hs.toFresh.live fun p hp => ?_
  rw [hs.prog hp]
  exact test_tame.follows.mono fun _ _ _ => trivial

/-- What disk 0 saw of a run of Kaya. -/
theorem Reaches.kaya_disk {h : List (Sys Word × Event Word)}
    (hrun : Reaches (kaya K junk) Booted h s) :
    s.DiskTrace ∧ (s.Halted ∨ s.DiskLive ∧ s.Mutex disk0sem ∧ s.DiskInv) := by
  have hS : (kaya K junk).Obeys (fun _ => diskRules) (fun _ => .out) fun _ => .out :=
    support_obeys K fun _ => uProcInit_client
  refine hrun.diskTrace hS fun s hs => ⟨hs.toFresh, hs.toFresh.live fun p hp => ?_⟩
  rw [hs.prog hp]
  exact test_client.follows.mono fun _ _ _ => trivial

/-- In every state reached the processes use their own devices. -/
theorem Reaches.ownDevices {h : List (Sys Word × Event Word)}
    (hrun : Reaches (kaya K junk) Booted h s) : s.OwnDevices := by
  induction hrun with
  | start hs => exact hs.ownDevices
  | @next h s e hrun hcan ih =>
    rcases Reaches.kaya_live hrun with hhalt | hlive
    · obtain ⟨hhalt', htrace, -⟩ := hhalt.step (S := kaya K junk) hcan
      exact ih.halted hhalt' (log_congr htrace)
    · exact ih.courses hlive.sane (hlive.sane.courses hcan)

end Sys

end Kaya.Phase3
