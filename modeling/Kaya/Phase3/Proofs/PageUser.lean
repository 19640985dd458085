import Kaya.Phase3.Proofs.PageMoves

/-!
# What the users' programs do to the pages
-/

namespace Kaya.Phase3

open Lib Lib.Paging

namespace Sys

/-- Process `p` stored `v` at `virtAddr`. -/
structure Stores (K : Layout) (s : Sys Word) (job : Word → Job) (home : Word × Word → Option Word)
    (p virtAddr v : Word) (t : Sys Word) : Prop where
  inv : ∃ turn, PageInv K job turn home t
  uproc : IsUProc p
  lives : (job p).Lives
  present : Present virtAddr
  content : t.content home = Function.update (s.content home) (p, pageIndex virtAddr)
    (Function.update (s.content home (p, pageIndex virtAddr)) (virtAddr &&& 0xFFF) v)
  disk : t.disk = s.disk
  taped : ∀ q, t.Taped q ↔ s.Taped q
  trace : t.trace = .stored p virtAddr v :: s.trace

/-- What a step does to the pages. -/
def PageMove (K : Layout) (s : Sys Word) (job : Word → Job) (home : Word × Word → Option Word)
    (t : Sys Word) : Prop :=
  PageStep K s job home t ∨ ∃ p virtAddr v, Stores K s job home p virtAddr v t

variable {K : Layout} {junk : Word} {job : Word → Job} {turn : Turn}
  {home : Word × Word → Option Word} {s t : Sys Word} {p virtAddr : Word}

/-- A page is read where it is. -/
theorem wordAt_of_home {frame : Word} (hhome : home (p, pageIndex virtAddr) = some frame) :
    s.wordAt home p virtAddr = s.ram frame (virtAddr &&& 0xFFF) :=
  congrFun (contents_of_home hhome) _

theorem PageInv.loads (h : PageInv K job turn home s) {tlb : Word → Word → Option Word}
    {frame : Word}
    (hlives : (job p).Lives) (hpresent : Present virtAddr)
    (hhome : home (p, pageIndex virtAddr) = some frame)
    (htlb : ∀ q page e, IsUProc q → tlb q page = some e → pte s.tables q page = some e) :
    PageStep K s job home { s with
      tlb := tlb
      trace := .loaded p virtAddr (s.ram frame (virtAddr &&& 0xFFF)) :: s.trace } := by
  refine h.still ⟨fun _ _ _ => rfl, fun _ _ _ => .inl rfl, [], rfl, by simp⟩ (fun _ => rfl) rfl rfl
    (fun _ => htlb) (fun _ _ => rfl) ⟨[_], rfl, ?_⟩
  rw [List.forall_mem_singleton]
  exact ⟨hlives, hpresent, (wordAt_of_home hhome).symm⟩

theorem PageInv.stores (h : PageInv K job turn home s) {tlb : Word → Word → Option Word}
    {frame v : Word} (hp : IsUProc p) (hlives : (job p).Lives) (hpresent : Present virtAddr)
    (hhome : home (p, pageIndex virtAddr) = some frame)
    (htlb : ∀ q page e, IsUProc q → tlb q page = some e → pte s.tables q page = some e) :
    Stores K s job home p virtAddr v
      { ({ s with tlb := tlb } : Sys Word).setRam frame virtAddr v with
        trace := .stored p virtAddr v :: s.trace } := by
  generalize ht : ({ ({ s with tlb := tlb } : Sys Word).setRam frame virtAddr v with
    trace := .stored p virtAddr v :: s.trace } : Sys Word) = t
  have hby : By s 0 t := by
    subst ht
    exact ⟨fun _ _ _ => rfl, fun _ _ _ => .inl rfl, [], rfl, by simp⟩
  have hsame : t.tables = s.tables ∧ t.disk = s.disk ∧ t.running = s.running ∧ t.tlb = tlb ∧
      t.task = s.task ∧ t.life = s.life := by
    subst ht
    exact ⟨rfl, rfl, rfl, rfl, rfl, rfl⟩
  obtain ⟨htables, hdisk, hrun, htlb', htask, hlife⟩ := hsame
  have hram : t.ram = Function.update s.ram frame
      (Function.update (s.ram frame) (virtAddr &&& 0xFFF) v) := by
    subst ht
    rfl
  have hback : t.backing = s.backing := backing_congr (congrArg Disk.block hdisk)
  refine ⟨⟨turn, fun q hq => ?_, h.other, h.holder, ?_, ?_, fun q w n hturn => ?_⟩, hp, hlives,
    hpresent, ?_, hdisk, fun q => ?_, ?_⟩
  · have hown := h.own q hq
    refine hown.others hby hq hq.ne_zero (fun _ => ⟨htables, fun _ => hrun⟩) ?_
      ((diskRegs_congr hdisk).mpr hown.disk)
    rw [htables]
    exact fun _ => id
  · rw [htables]
    exact h.ledger
  · rw [htlb', htables]
    exact fun _ => htlb
  · -- the frame whose turn it is has no page, so it is another one
    have hempty := h.ledger.empty (hturn ▸ ⟨q, _, rfl, trivial⟩)
    have hne : frameAddr K s.tables.frameNo ≠ frame := fun heq => hempty _ (heq ▸ hhome)
    rw [htables, hram, Function.update_of_ne hne, hback]
    exact h.arrived q w n hturn
  · rw [content, hram, hback, contents_store h.ledger.unshared hhome, content, contents_of_home hhome]
  · rw [Taped, Taped, Alive, Alive, htask, hlife]
  · subst ht
    rfl

theorem PageInv.user (h : PageInv K job turn home s) (hK : Roomy K) (hp : IsUProc p)
    (hready : s.life p = .ready) (hrun : s.running = some p) (hmode : (s.task p).InUserMode)
    {u : UserAct} (hposs : UserAct.Possible u)
    (hseg : ∀ va, (u = .load va ∨ ∃ v, u = .store va v) → va >>> 30 ≠ 3) :
    PageMove K s job home (s.user (kaya K junk) p u) := by
  have habides := (h.own p hp).fits (.inl hready)
  obtain ⟨hdone, hplace⟩ : (s.task p).prog ≠ .done () ∧ (job p, stage s.log p) = (.idle, .out) := by
    unfold Task.InUserMode at hmode
    split at hmode
    · rename_i hprog
      exact ⟨by rw [hprog]; exact nofun, habides.leave hprog⟩
    · exact hmode.elim
  obtain ⟨hj, hout⟩ := Prod.ext_iff.mp hplace
  have hj : job p = .idle := hj
  have hlives : (job p).Lives := hj ▸ trivial
  have htrap : ∀ trap st, trap ≠ .tlb →
      PageStep K s job home (s.passUp (kaya K junk) p trap st (s.task p).prog) := by
    intro trap st hne
    refine h.traps hp hready hj hout s.tlb h.tlb (.inl rfl) nofun (fun entryHi hasid => ?_)
      (.inl rfl)
    cases trap with
    | tlb => exact absurd rfl hne
    | pgm => exact .inl rfl
    | sys => exact userSyscallHandler_pages hp.lt junk hasid st
  cases u with
  | load va =>
    simp only [Sys.user]
    refine h.access (P := PageMove K s job home) hK hp hready hrun hj hout hdone (.inl rfl)
      (hseg va (.inl rfl)) (fun t => .inl) ?_
    exact fun tlb frame hpresent hhome htlb => .inl (h.loads hlives hpresent hhome htlb)
  | store va v =>
    simp only [Sys.user]
    refine h.access (P := PageMove K s job home) hK hp hready hrun hj hout hdone (.inr rfl)
      (hseg va (.inr ⟨v, rfl⟩)) (fun t => .inl) ?_
    exact fun tlb frame hpresent hhome htlb =>
      .inr ⟨p, va, v, h.stores hp hlives hpresent hhome htlb⟩
  | syscall st =>
    refine .inl ?_
    simp only [Sys.user]
    split_ifs
    · exact htrap .pgm st (by decide)
    · exact htrap .sys st (by decide)
  | progTrap st => exact .inl (htrap .pgm st (by decide))
  | tlbTrap st =>
    exact .inl (h.refused hp hready hj hout fun hinv => hinv.elim hposs.1 hposs.2)

theorem PageInv.leaves (h : PageInv K job turn home s) (hp : IsUProc p) (hready : s.life p = .ready)
    (hrun : s.running = some p) {l : Leave} (hprog : (s.task p).prog = .leave l) :
    PageStep K s job home (s.leave (kaya K junk) p l) := by
  have habides := (h.own p hp).fits (.inl hready)
  have hleave := habides.leave hprog
  have htaped : ¬ s.Taped p := fun ht => nomatch hprog.symm.trans ht.2
  cases l with
  | ldst trap st =>
    obtain ⟨hj, hout⟩ := Prod.ext_iff.mp hleave
    have hj : job p = .idle := hj
    have hout : stage s.log p = .out := hout
    rw [hj, hout] at habides
    exact h.resumes (j := .idle) hp hready hout (.inl ⟨hj.symm, .inl rfl⟩) (habides.ldst trap) htaped
      nofun h.tlb
  | user =>
    exact h.still ⟨fun _ _ _ => rfl, fun _ _ _ => .inl rfl, [], rfl, by simp⟩ (fun _ => rfl) rfl rfl
      h.tlb (fun _ _ => rfl) ⟨[], rfl, by simp⟩
  | again asid i =>
    obtain ⟨hplace, rfl⟩ := hleave
    obtain ⟨hj, hout⟩ := Prod.ext_iff.mp hplace
    have hj : job asid = .taping := hj
    have hout : stage s.log asid = .out := hout
    rw [hj, hout] at habides
    have hasid := habides.asid.resolve_right fun hdone => nomatch hprog.symm.trans hdone
    exact h.resumes (j := .taping) hp hready hout (.inl ⟨hj.symm, .inr rfl⟩) (habides.again hp.lt hasid i)
      htaped nofun h.tlb
  | terminate =>
    rcases hleave with hplace | hplace
    · obtain ⟨hj, hout⟩ := Prod.ext_iff.mp hplace
      exact h.traps (j := .idle) hp hready hj hout s.tlb h.tlb (.inl rfl) nofun
        (fun entryHi hasid => userSyscallHandler_pages hp.lt junk hasid terminateState) (.inr rfl)
    · -- no vector is installed yet
      obtain ⟨hj, hout⟩ := Prod.ext_iff.mp hplace
      have hj : job p = .taping := hj
      rw [hj] at habides
      have hnone : (s.task p).new .sys = none := (habides.lacks nofun .sys).mpr trivial
      simp only [Sys.leave, Sys.passUp, hnone]
      exact h.killed hp hrun (.inl hout) (.inr hj) htaped
  | terminateprocess =>
    obtain ⟨hj, hout⟩ := Prod.ext_iff.mp hleave
    exact h.killed hp hrun (.inl hout) (.inl hj) htaped

end Sys

end Kaya.Phase3
