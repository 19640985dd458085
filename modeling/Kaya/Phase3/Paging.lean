import Kaya.Phase3.DiskExclusion
import Kaya.Phase3.Proofs.PageRun
import Mathlib.Data.Set.Function

/-!
# What a process finds in its pages

However faults, evictions and ends of processes interleave, a process reads from a page what it
wrote there last, and what came from its tape where it wrote nothing.
-/

namespace Kaya.Phase3

open Lib Lib.Paging

/-- What `p` stored last at `virtAddr`. -/
def lastStored (p virtAddr : Word) : List (Obs Word) → Option Word
  | [] => none
  | .stored q a v :: tr => if q = p ∧ a = virtAddr then some v else lastStored p virtAddr tr
  | _ :: tr => lastStored p virtAddr tr

/-- In a run with history `h`, `v` is what `p` stored last at `virtAddr` before `tr`, or what the
backing store held when `tapeToDisk` of `p` had returned. -/
def ReadsLast (h : List (Sys Word × Event Word)) (p virtAddr v : Word) (tr : List (Obs Word)) :
    Prop :=
  (∃ x ∈ h, x.1.Taped p) ∧ ∀ x ∈ h, x.1.Taped p →
    v = (lastStored p virtAddr tr).getD (x.1.backing (p, Sys.pageIndex virtAddr) (virtAddr &&& 0xFFF))

/-- Of `terminateUserProc` only the V on `masterSem` and SYS 2 are left. -/
def TornDown : Prog → Prop
  | .act (.verhogen .masterSem) _ | .leave .terminateprocess => True
  | _ => False

/-- Process `p` lives and has not given its frames back. -/
def Living (s : Sys Word) (p : Word) : Prop :=
  IsUProc p ∧ s.Alive p ∧ ¬ TornDown (s.task p).prog

/-- The entries of the swap pool that are occupied. -/
def occupied (t : Tables) : Set Word := {n | n.toNat < POOLSIZE ∧ (t.swapPool n).spAsid ≠ -1}

/-- The valid page table entries for kUseg2 of the processes that live. -/
def validEntries (s : Sys Word) : Set PtePtr :=
  {ptr | ∃ p j, Living s p ∧ j.toNat < MAXPAGES ∧ ptr = .entry (p - 1) j ∧
    Sys.Valid (s.tables.entryLo ptr)}

/-- In a state with history `h`, what was read from the pages is what was stored there, and while
no pager runs the valid page table entries are those of the occupied frames. -/
structure PagesKept (K : Layout) (h : List (Sys Word × Event Word)) (s : Sys Word) : Prop where
  loaded : ∀ p virtAddr v tr, .loaded p virtAddr v :: tr <:+ s.trace → ReadsLast h p virtAddr v tr
  answered : ∀ p virtAddr v x tr, .did ⟨p, .load virtAddr, v, x⟩ :: tr <:+ s.trace →
    ReadsLast h p virtAddr v tr
  mapped : (∀ p, ¬ Holds .swapPoolSem p s.log) →
    Set.BijOn (fun n => (s.tables.swapPool n).spPteEntry) (occupied s.tables) (validEntries s)
  frames : (∀ p, ¬ Holds .swapPoolSem p s.log) → ∀ n ∈ occupied s.tables,
    s.tables.entryLo (s.tables.swapPool n).spPteEntry &&& 0xFFFFF000 = frameAddr K n

namespace Sys

variable {K : Layout} {junk : Word} {job job' : Word → Job} {turn : Turn}
  {home home' : Word × Word → Option Word} {s t : Sys Word} {p q v virtAddr : Word}
  {h : List (Sys Word × Event Word)} {e : Event Word} {o : Obs Word} {l tr : List (Obs Word)}

/-! ## Addresses -/

/-- The entry of a page is its own. -/
theorem clip_inj {m n : Word} (hm : HasPage m) (hn : HasPage n) (heq : clip m = clip n) : m = n := by
  have hsize : KUSEGPTESIZE = 32#32 := rfl
  unfold clip at heq
  rw [hsize] at heq
  rcases hm with hm | rfl <;> rcases hn with hn | rfl
  all_goals split_ifs at heq <;> bv_omega

/-- An address of kUseg2 is known by the index of its page and its offset. -/
theorem present_inj {a b : Word} (ha : Present a) (hb : Present b) (hpage : pageIndex a = pageIndex b)
    (hoff : a &&& 0xFFF = b &&& 0xFFF) : a = b := by
  have hclip : (a &&& 0x3FFFF000) >>> 12 = (b &&& 0x3FFFF000) >>> 12 := clip_inj ha.2 hb.2 hpage
  have hsplit : ∀ x : Word, ((x &&& 0x3FFFF000) >>> 12).toNat = x.toNat / 4096 % 262144 ∧
      (x >>> 30).toNat = x.toNat / 1073741824 ∧ (x &&& 0xFFF).toNat = x.toNat % 4096 := by
    intro x
    have hpages : (0x3FFFF : Word).toNat = 2 ^ 18 - 1 := rfl
    have hbytes : (0xFFF : Word).toNat = 2 ^ 12 - 1 := rfl
    refine ⟨?_, ?_, ?_⟩
    · rw [missing_of_page, BitVec.toNat_and, BitVec.toNat_ushiftRight, hpages,
        Nat.and_two_pow_sub_one_eq_mod, Nat.shiftRight_eq_div_pow]
    · rw [BitVec.toNat_ushiftRight, Nat.shiftRight_eq_div_pow]
    · rw [BitVec.toNat_and, hbytes, Nat.and_two_pow_sub_one_eq_mod]
  obtain ⟨ha1, ha2, ha3⟩ := hsplit a
  obtain ⟨hb1, hb2, hb3⟩ := hsplit b
  rw [ha.1] at ha2
  rw [hb.1] at hb2
  rw [hclip, hb1] at ha1
  rw [hoff, hb3] at ha3
  apply BitVec.eq_of_toNat_eq
  omega

/-! ## Histories -/

theorem lastStored_append (hl : ∀ o ∈ l, ∀ q a v, o ≠ .stored q a v) :
    lastStored p virtAddr (l ++ tr) = lastStored p virtAddr tr := by
  induction l with
  | nil => rfl
  | cons o l ih =>
    rw [List.forall_mem_cons] at hl
    cases o with
    | stored q a v => exact absurd rfl (hl.1 q a v)
    | _ => exact ih hl.2

/-- An observation of a read is right. -/
def ReadsRight (h : List (Sys Word × Event Word)) (tr : List (Obs Word)) : Obs Word → Prop
  | .loaded p virtAddr v | .did ⟨p, .load virtAddr, v, _⟩ => IsUProc p ∧ ReadsLast h p virtAddr v tr
  | _ => True

/-- What the history of a run says of the pages. -/
structure History (h : List (Sys Word × Event Word)) (job : Word → Job)
    (home : Word × Word → Option Word) (s : Sys Word) : Prop where
  settled : ∀ p, (job p).Lives → ∀ virtAddr, Present virtAddr →
    ReadsLast h p virtAddr (s.wordAt home p virtAddr) s.trace
  early : ∀ p, IsUProc p → (job p).Early → (∀ virtAddr, lastStored p virtAddr s.trace = none) ∧
    ∀ x ∈ h, x.1.Taped p → s.Taped p ∧ ∀ v, x.1.backing (p, v) = s.backing (p, v)
  reads : ∀ o tr, o :: tr <:+ s.trace → ReadsRight h tr o
  ready : ∀ status, .done status ∈ s.trace → status = READY

theorem Sees.ne_stored (h : Sees s job home o) (q a v : Word) : o ≠ .stored q a v := by
  rintro rfl
  exact h

theorem PageInv.uproc_of_lives (h : PageInv K job turn home s) (hp : (job p).Lives) : IsUProc p := by
  by_contra hnot
  rw [h.other p hnot] at hp
  exact hp

/-- What was read stays right as the run goes on. -/
theorem ReadsLast.next (hinv : PageInv K job turn home s) (hh : History h job home s)
    (hp : IsUProc p) (hr : ReadsLast h p virtAddr v tr) : ReadsLast ((s, e) :: h) p virtAddr v tr := by
  obtain ⟨⟨x, hx, htaped⟩, hall⟩ := hr
  refine ⟨⟨x, List.mem_cons_of_mem _ hx, htaped⟩, ?_⟩
  rw [List.forall_mem_cons]
  refine ⟨fun hs => ?_, hall⟩
  -- the process is where it was when it was first seen there
  have hj : job p = .taping := ((hinv.own p hp).fits hs.1).eq_taping hs.2
  obtain ⟨-, hsame⟩ := (hh.early p hp (hj ▸ trivial)).2 x hx htaped
  rw [← hsame]
  exact hall x hx htaped

/-- The newest observation is one of a step, or an older one. -/
theorem suffix_cases {tr' : List (Obs Word)} (h : o :: tr <:+ l ++ tr') :
    o :: tr <:+ tr' ∨ ∃ l', o ∈ l ∧ l' ⊆ l ∧ tr = l' ++ tr' := by
  obtain ⟨l₀, hl₀⟩ := h
  rcases List.append_eq_append_iff.mp hl₀ with ⟨l₁, hl, htr⟩ | ⟨l₁, -, htr⟩
  · cases l₁ with
    | nil => exact .inl ⟨[], htr⟩
    | cons o' l' =>
      injection htr with h1 h2
      subst h1
      refine .inr ⟨l', ?_, ?_, h2⟩ <;> rw [hl]
      · simp
      · exact fun x hx => List.mem_append_right _ (List.mem_cons_of_mem _ hx)
  · exact .inl ⟨l₁, htr.symm⟩

/-- A step stores nothing, and what it reads is right. -/
theorem ReadsRight.next (hinv : PageInv K job turn home s) (hh : History h job home s)
    (hl : ∀ o ∈ l, Sees s job home o) (hsuf : o :: tr <:+ l ++ s.trace) :
    ReadsRight ((s, e) :: h) tr o := by
  rcases suffix_cases hsuf with hold | ⟨l', ho, hl', rfl⟩
  · have hright := hh.reads o tr hold
    unfold ReadsRight at hright ⊢
    split at hright
    · exact ⟨hright.1, ReadsLast.next hinv hh hright.1 hright.2⟩
    · exact ⟨hright.1, ReadsLast.next hinv hh hright.1 hright.2⟩
    · exact trivial
  · have hsees := hl o ho
    have hsame : ∀ p va, lastStored p va (l' ++ s.trace) = lastStored p va s.trace := fun p va =>
      lastStored_append fun o ho => (hl o (hl' ho)).ne_stored
    have hread : ∀ p va v, (job p).Lives ∧ Present va ∧ v = s.wordAt home p va →
        IsUProc p ∧ ReadsLast ((s, e) :: h) p va v (l' ++ s.trace) := by
      rintro p va _ ⟨hlives, hpresent, rfl⟩
      have hp := hinv.uproc_of_lives hlives
      refine ⟨hp, ?_⟩
      rw [ReadsLast, hsame]
      exact ReadsLast.next hinv hh hp (hh.settled p hlives va hpresent)
    unfold ReadsRight
    split
    · exact hread _ _ _ hsees
    · exact hread _ _ _ hsees
    · exact trivial

theorem History.next (hinv : PageInv K job turn home s) (hh : History h job home s)
    (hev : Evolves s job home t job' home') (hother : ∀ p, ¬ IsUProc p → job' p = .born) :
    History ((s, e) :: h) job' home' t := by
  obtain ⟨l, htrace, hl⟩ := hev.sees
  have hsame : ∀ p va, lastStored p va t.trace = lastStored p va s.trace := fun p va => by
    rw [htrace]
    exact lastStored_append fun o ho => (hl o ho).ne_stored
  have htaping : ∀ p, IsUProc p → s.Taped p → (job p).Early := by
    intro p hp ht
    rw [((hinv.own p hp).fits ht.1).eq_taping ht.2]
    exact trivial
  refine ⟨fun p hp va hva => ?_, fun p hp he => ⟨fun va => ?_, ?_⟩, fun o tr hsuf => ?_,
    fun status hs => ?_⟩
  · rcases hev.settles p hp with hlives | ⟨htaped, hcontent, -⟩
    · have hword : t.wordAt home' p va = s.wordAt home p va :=
        congrFun (hev.kept (p, pageIndex va) hlives hp) _
      rw [hword, ReadsLast, hsame]
      exact ReadsLast.next hinv hh (hinv.uproc_of_lives hlives) (hh.settled p hlives va hva)
    · -- `tapeToDisk` has returned, and nothing was stored
      have hproc : IsUProc p := by
        by_contra hnot
        rw [hother p hnot] at hp
        exact hp
      have hword : t.wordAt home' p va = s.backing (p, pageIndex va) (va &&& 0xFFF) :=
        congrFun (hcontent _) _
      obtain ⟨hnone, hback⟩ := hh.early p hproc (htaping p hproc htaped)
      rw [hword, ReadsLast, hsame, hnone]
      refine ⟨⟨_, List.mem_cons_self, htaped⟩, ?_⟩
      rw [List.forall_mem_cons]
      refine ⟨fun _ => rfl, fun x hx ht => ?_⟩
      rw [(hback x hx ht).2]
      rfl
  · rw [hsame]
    exact (hh.early p hp (hev.early p he)).1 va
  · have hback := (hh.early p hp (hev.early p he)).2
    have hnow : s.Taped p → t.Taped p ∧ ∀ v, s.backing (p, v) = t.backing (p, v) := fun ht =>
      ⟨(hev.taped p hp ht he).1, fun v => ((hev.taped p hp ht he).2 v).symm⟩
    rw [List.forall_mem_cons]
    refine ⟨hnow, fun x hx ht => ?_⟩
    obtain ⟨h1, h2⟩ := hback x hx ht
    exact ⟨(hnow h1).1, fun v => (h2 v).trans ((hnow h1).2 v)⟩
  · rw [htrace] at hsuf
    exact ReadsRight.next hinv hh hl hsuf
  · rw [htrace] at hs
    rcases List.mem_append.mp hs with hs | hs
    · exact hl _ hs
    · exact hh.ready status hs

theorem lastStored_cons {a : Word} : lastStored p virtAddr (.stored q a v :: tr) =
    if q = p ∧ a = virtAddr then some v else lastStored p virtAddr tr := rfl

theorem History.stores (hinv : PageInv K job turn home s) (hh : History h job home s)
    (hst : Stores K s job home p virtAddr v t) : History ((s, e) :: h) job home t := by
  have hback : ∀ x, t.backing x = s.backing x :=
    congrFun (backing_congr (congrArg Disk.block hst.disk))
  refine ⟨fun q hq va hva => ?_, fun q hq he => ⟨fun va => ?_, ?_⟩, fun o tr hsuf => ?_,
    fun status hs => ?_⟩
  · have hold := ReadsLast.next (e := e) hinv hh (hinv.uproc_of_lives hq) (hh.settled q hq va hva)
    rw [hst.trace, ReadsLast, lastStored_cons]
    split_ifs with hit
    · obtain ⟨rfl, rfl⟩ := hit
      refine ⟨hold.1, fun x _ _ => ?_⟩
      rw [wordAt, hst.content, Function.update_self, Function.update_self]
      rfl
    · have hword : t.wordAt home q va = s.wordAt home q va := by
        rw [wordAt, wordAt, hst.content]
        by_cases hpage : (q, pageIndex va) = (p, pageIndex virtAddr)
        · obtain ⟨rfl, hindex⟩ := Prod.ext_iff.mp hpage
          have hoff : va &&& 0xFFF ≠ virtAddr &&& 0xFFF := fun hoff =>
            hit ⟨rfl, (present_inj hva hst.present hindex hoff).symm⟩
          rw [hpage, Function.update_self, Function.update_of_ne hoff]
        · rw [Function.update_of_ne hpage]
      rw [hword]
      exact hold
  · have hqp : p ≠ q := by
      rintro rfl
      have hlives := hst.lives
      cases hj : job p with
      | born | taping =>
        rw [hj] at hlives
        exact hlives
      | _ =>
        rw [hj] at he
        exact he
    rw [hst.trace, lastStored_cons, if_neg fun hit => hqp hit.1]
    exact (hh.early q hq he).1 va
  · have hnow : s.Taped q → t.Taped q ∧ ∀ v, s.backing (q, v) = t.backing (q, v) := fun ht =>
      ⟨(hst.taped q).mpr ht, fun v => (hback _).symm⟩
    rw [List.forall_mem_cons]
    refine ⟨hnow, fun x hx ht => ?_⟩
    obtain ⟨h1, h2⟩ := (hh.early q hq he).2 x hx ht
    exact ⟨(hnow h1).1, fun v => (h2 v).trans ((hnow h1).2 v)⟩
  · rw [hst.trace] at hsuf
    rcases List.suffix_cons_iff.mp hsuf with heq | hsuf
    · injection heq with h1 h2
      rw [h1]
      exact trivial
    · exact ReadsRight.next hinv hh (l := []) (by simp) hsuf
  · rw [hst.trace] at hs
    refine hh.ready status ?_
    simpa using hs

/-! ## Runs -/

def PageRun (K : Layout) (h : List (Sys Word × Event Word)) (s : Sys Word) : Prop :=
  ∃ job turn home, PageInv K job turn home s ∧ History h job home s

theorem Booted.pageRun (hs : s.Booted) : PageRun K [] s := by
  have hlog := hs.toFresh.log_eq
  have hborn : ∀ p, IsUProc p → s.life p = .unborn := by
    intro p hp
    rw [hs.alone, Function.update_of_ne hp.ne_zero]
  refine ⟨fun _ => .born, none, fun _ => none, ⟨fun p hp => ?_, fun _ _ => rfl, ?_, ?_, ?_, nofun⟩,
    ⟨fun _ => False.elim, fun p _ _ => ⟨fun va => ?_, nofun⟩, fun o tr hsuf => ?_,
      fun status hd => ?_⟩⟩
  · refine ⟨fun ha => ?_, fun _ => ⟨rfl, hs.old p⟩, fun hd => ?_, ?_, fun hsig => ?_, nofun, nofun,
      ?_⟩
    · exact absurd (hborn p hp) ha.not_unborn
    · nomatch (hborn p hp).symm.trans hd
    · rw [hlog]
      exact iff_of_false id fun hne => hne rfl
    · rw [hlog] at hsig
      nomatch hsig
    · rw [hlog]
      exact trivial
  · exact fun p ph => iff_of_false nofun nofun
  · rw [hs.tables]
    exact init_ledger
  · rw [hs.tlb]
    exact nofun
  · rw [hs.trace]
    rfl
  · rw [hs.trace] at hsuf
    exact absurd (List.suffix_nil.mp hsuf) (by simp)
  · rw [hs.trace] at hd
    nomatch hd

/-- Where the disk completed its commands with `READY`, the processes saw that. -/
theorem kept_of_ready {tr : List (Obs Word)} (hown : OwnStatus tr)
    (hready : ∀ status, .done status ∈ tr → status = READY) :
    Kept false (tr.filterMap Obs.log) := by
  induction tr with
  | nil => exact nofun
  | cons o tr ih =>
    have hrest : ∀ status, .done status ∈ tr → status = READY := fun status hs =>
      hready status (List.mem_cons_of_mem _ hs)
    cases o with
    | did d =>
      have hkept := ih hown.2 hrest
      change Kept false (d :: tr.filterMap Obs.log)
      rw [Kept, List.forall_mem_cons]
      refine ⟨?_, hkept⟩
      cases hact : d.a with
      | waitio l n u =>
        intro hpromise
        have hon : OnDisk0 l n u :=
          hpromise.resolve_right fun hstrict => Bool.false_ne_true hstrict.1
        obtain ⟨tr', rfl, -⟩ := hown.1 (by rw [hact]; exact hon)
        exact hrest d.r List.mem_cons_self
      | _ => exact trivial
    | _ => exact ih hown hrest

theorem Reaches.grounds (hrun : Sys.Reaches (kaya K junk) Sys.Booted h s)
    (hready : ∀ status, .done status ∈ s.trace → status = READY) : s.Halted ∨ s.Grounds := by
  obtain ⟨hdisk, hhalt | ⟨hlive, hmutex, hfits⟩⟩ := hrun.diskTrace
    (support_obeys K fun _ => uProcInit_client) fun s hs =>
      ⟨hs.toFresh, hs.toFresh.live fun p hp => by
        rw [hs.prog hp]
        exact test_client.follows.mono fun _ _ _ => trivial⟩
  · exact .inl hhalt
  obtain ⟨-, hhalt | ⟨-, hpool⟩⟩ := hrun.tableRun (kaya_tables K junk) fun s hs =>
      ⟨hs.toFresh, hs.toFresh.live fun p hp => by
        rw [hs.prog hp]
        exact test_tame.follows.mono fun _ _ _ => trivial⟩
  · exact .inl hhalt
  have hkept : Kept false s.log := kept_of_ready hdisk.own hready
  rcases (hrun.lockRun hkept).state with ⟨hlocks, hplaces, hbal⟩ | ⟨hhalt, -⟩
  · exact .inr ⟨hlocks, hplaces, hbal, hlive, hmutex, hfits, hpool⟩
  · exact .inl hhalt

theorem Reaches.pageRun (hK : Roomy K) (hrun : Sys.Reaches (kaya K junk) Sys.Booted h s)
    (hfair : ∀ x ∈ h, x.1.Fair x.2) : PageRun K h s := by
  induction hrun with
  | start hs => exact hs.pageRun
  | @next h s e hrun hcan ih =>
    rw [List.forall_mem_cons] at hfair
    obtain ⟨job, turn, home, hinv, hh⟩ := ih hfair.2
    rcases hinv.step hK (Reaches.grounds hrun hh.ready) hcan hfair.1 with
      ⟨job', turn', home', hinv', hev⟩ | ⟨p, va, v, hst⟩
    · exact ⟨job', turn', home', hinv', hh.next hinv hev hinv'.other⟩
    · obtain ⟨turn', hinv'⟩ := hst.inv
      exact ⟨job, turn', home, hinv', hh.stores hinv hst⟩

/-! ## Between the runs of the pager -/

theorem PageInv.living (h : PageInv K job turn home s) (hp : (job p).Lives) : Living s p := by
  have hproc := h.uproc_of_lives hp
  have hown := h.own p hproc
  have halive : s.Alive p := by
    cases hlife : s.life p with
    | ready => exact .inl hlife
    | blocked => exact .inr hlife
    | unborn =>
      rw [(hown.unborn hlife).1] at hp
      exact hp.elim
    | dead =>
      rw [hown.dead hlife] at hp
      exact hp.elim
  refine ⟨hproc, halive, fun htorn => ?_⟩
  have habides := hown.fits halive
  unfold TornDown at htorn
  split at htorn
  · rename_i hprog
    rw [show job p = .ended from habides.may hprog] at hp
    exact hp
  · rename_i hprog
    obtain ⟨hj, -⟩ := Prod.ext_iff.mp (habides.leave hprog)
    rw [show job p = .ended from hj] at hp
    exact hp
  · exact htorn

theorem PageInv.not_gone (h : PageInv K job none home s) (hp : Living s p) : ¬ (job p).Gone := by
  intro hgone
  obtain ⟨hproc, halive, htorn⟩ := hp
  have habides := (h.own p hproc).fits halive
  cases hj : job p with
  | pool t b ph => nomatch h.turn_of hj
  | ended =>
    rw [hj] at habides
    refine htorn ?_
    cases hprog : (s.task p).prog with
    | done a =>
      have hdone := habides.prog
      rw [hprog] at hdone
      nomatch hdone
    | act a k =>
      obtain rfl := Job.may_ended (habides.may hprog)
      exact trivial
    | leave l =>
      have hleave := habides.leave hprog
      cases l with
      | terminateprocess => exact trivial
      | terminate => rcases hleave with hleave | hleave <;> nomatch hleave
      | again => nomatch hleave.1
      | ldst | user => nomatch hleave
  | _ =>
    rw [hj] at hgone
    exact hgone

/-- The frame of an entry of the swap pool. -/
theorem PageInv.frame_of (h : PageInv K job none home s) {n : Word} (hn : n ∈ occupied s.tables) :
    ∃ q j, (s.tables.swapPool n).spPteEntry = .entry (q - 1) j ∧
      home (q, j) = some (frameAddr K n) := by
  obtain ⟨q, page, hentry, hhome⟩ := h.ledger.held_of hn.1 hn.2
  exact ⟨q, clip page, by rw [hentry], hhome⟩

theorem PageInv.entry_of_home (h : PageInv K job none home s) {x : Word × Word} {a : Word}
    (hx : home x = some a) : s.tables.entryLo (.entry (x.1 - 1) x.2) = entryFor a :=
  h.ledger.mapped x a hx nofun

theorem PageInv.mapped (h : PageInv K job none home s) (hK : Roomy K) :
    Set.BijOn (fun n => (s.tables.swapPool n).spPteEntry) (occupied s.tables) (validEntries s) := by
  refine ⟨fun n hn => ?_, fun n hn m hm heq => ?_, ?_⟩
  · obtain ⟨q, j, hptr, hhome⟩ := h.frame_of hn
    obtain ⟨hlives, hq, hlt, -⟩ := h.ledger.resident _ _ hhome
    refine ⟨q, j, h.living hlives, hlt, hptr, ?_⟩
    simp only [hptr]
    rw [h.entry_of_home hhome]
    exact valid_entered _
  · obtain ⟨q, j, hptr, hhome⟩ := h.frame_of hn
    obtain ⟨q', j', hptr', hhome'⟩ := h.frame_of hm
    simp only [hptr, hptr', PtePtr.entry.injEq, BitVec.sub_left_inj] at heq
    obtain ⟨rfl, rfl⟩ := heq
    exact frameAddr_inj hK hn.1 hm.1 (Option.some.inj (hhome.symm.trans hhome'))
  · rintro _ ⟨p, j, hp, hlt, rfl, hvalid⟩
    obtain ⟨-, a, hhome, -⟩ := h.ledger.home_of_valid (x := (p, j)) hp.1 (h.not_gone hp) hlt hvalid
    obtain ⟨-, hproc, -, n, hn, rfl⟩ := h.ledger.resident _ _ hhome
    obtain ⟨hasid, hptr⟩ := h.ledger.frame_of hn hhome
    refine ⟨n, ⟨hn, ?_⟩, hptr⟩
    rw [hasid]
    exact ne_of_lt_64 hproc.lt

end Sys

open Sys

variable {K : Layout} {junk : Word} {h : List (Sys Word × Event Word)} {s : Sys Word}

/-- In every run in which disk 0 always answers `READY`, where memory has room for the frames and
nobody accesses kUseg3. -/
theorem pages_kept (hK : Roomy K) (hrun : Sys.Reaches (kaya K junk) Sys.Booted h s)
    (hfair : ∀ x ∈ h, x.1.Fair x.2) : PagesKept K h s := by
  obtain ⟨job, turn, home, hinv, hh⟩ := Reaches.pageRun hK hrun hfair
  refine ⟨fun p va v tr hsuf => (hh.reads _ tr hsuf).2, fun p va v x tr hsuf =>
    (hh.reads _ tr hsuf).2, fun hfree => ?_, fun hfree n hn => ?_⟩
  · obtain rfl := hinv.turn_none hfree
    exact hinv.mapped hK
  · obtain rfl := hinv.turn_none hfree
    obtain ⟨q, j, hptr, hhome⟩ := hinv.frame_of hn
    rw [hptr, hinv.entry_of_home hhome, frame_of_entry, frameAddr_aligned hK hn.1]

/-- Process 1 has its page fault, stores and loads. -/
def storesAndLoads : List (Event Word) :=
  toUser ++ fault ++ answered READY ++ List.replicate 5 (.step 0) ++ answered READY ++
    List.replicate 13 (.step 0) ++
    [.user (.load 0x80000000), .user (.store 0x80000000 7), .user (.load 0x80000000)]

theorem pages_kept_stored :
    PagesKept .sample (replay (Sys.step (kaya .sample 0)) ([], .boot) storesAndLoads).1
      (replay (Sys.step (kaya .sample 0)) ([], .boot) storesAndLoads).2 := by
  have hcan : AllOk (Sys.step (kaya .sample 0)) (fun s e => s.canNow e) .boot storesAndLoads := by
    decide +kernel
  have hfair : AllOk (Sys.step (kaya .sample 0)) Sys.Fair .boot storesAndLoads := by
    decide +kernel
  have hrun : Sys.Reaches (kaya .sample 0) Sys.Booted
      (replay (Sys.step (kaya .sample 0)) ([], .boot) storesAndLoads).1
      (replay (Sys.step (kaya .sample 0)) ([], .boot) storesAndLoads).2 :=
    (Run.start boot_booted).replay storesAndLoads (hcan.mono fun _ _ => can_of_canNow)
  exact pages_kept ⟨by decide, by decide⟩ hrun (hfair.replay (by simp))

end Kaya.Phase3
