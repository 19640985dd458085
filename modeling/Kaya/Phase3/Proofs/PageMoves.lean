import Kaya.Phase3.Proofs.PageTransfers

/-!
# Steps without an answer

Traps and what they resume, loads and stores of the users' programs, and the ends of processes.
-/

namespace Kaya.Phase3

open Lib Lib.Paging

theorem IsUProc.ne_zero {p : Word} (hp : IsUProc p) : p ≠ 0 := by
  rintro rfl
  exact absurd hp.1 (by decide)

/-! ## Addresses -/

theorem segment_of_page (va : Word) : (va >>> 12) >>> 18 = va >>> 30 :=
  (BitVec.shiftRight_add ..).symm

theorem missing_of_page (va : Word) : (va &&& 0x3FFFF000) >>> 12 = (va >>> 12) &&& 0x3FFFF :=
  BitVec.ushiftRight_and_distrib ..

theorem clip_lt (page : Word) : (clip page).toNat < MAXPAGES := by
  have hsize : KUSEGPTESIZE = 32 := rfl
  have hmax : MAXPAGES = 32 := rfl
  unfold clip
  rw [hsize, hmax]
  split_ifs <;> bv_omega

theorem HasPage.number {missing : Word} (h : HasPage missing) :
    (2 <<< 18 ||| missing) >>> 18 = 2#32 ∧ (2 <<< 18 ||| missing) &&& 0x3FFFF#32 = missing := by
  have hall : ∀ i < 31, (2 <<< 18 ||| BitVec.ofNat 32 i) >>> 18 = 2#32 ∧
      (2 <<< 18 ||| BitVec.ofNat 32 i) &&& 0x3FFFF#32 = BitVec.ofNat 32 i := by decide
  rcases h with hlt | rfl
  · have hnat : BitVec.ofNat 32 missing.toNat = missing :=
      (BitVec.ofNat_toNat ..).trans (BitVec.setWidth_eq missing)
    exact hnat ▸ hall missing.toNat hlt
  · decide

namespace Sys

variable {K : Layout} {junk : Word} {job : Word → Job} {turn : Turn}
  {home : Word × Word → Option Word} {s t : Sys Word} {p q : Word} {j : Job} {tk : Task}

theorem PageInv.content_same (h : PageInv K job turn home s) (hdisk : t.disk = s.disk)
    (hram : ∀ n : Word, n.toNat < POOLSIZE → t.ram (frameAddr K n) = s.ram (frameAddr K n)) :
    t.content home = s.content home := by
  funext x
  cases hx : home x with
  | none =>
    rw [content, content, contents_of_back hx, contents_of_back hx]
    exact congrFun (backing_congr (congrArg Disk.block hdisk)) x
  | some a =>
    obtain ⟨-, -, -, n, hn, rfl⟩ := h.ledger.resident x a hx
    rw [content, content, contents_of_home hx, contents_of_home hx, hram n hn]

theorem PageInv.arrived_same (h : PageInv K job turn home s) (htables : t.tables = s.tables)
    (hdisk : t.disk = s.disk)
    (hram : ∀ n : Word, n.toNat < POOLSIZE → t.ram (frameAddr K n) = s.ram (frameAddr K n))
    {v : Word} {n : Nat} (hturn : turn = some (q, .arrived v n)) :
    t.ram (frameAddr K t.tables.frameNo) = t.backing (q, v) := by
  have hnext : ¬ turn.Searching := by
    rw [hturn]
    rintro ⟨_, _, ⟨⟩⟩
  rw [htables, hram _ (h.ledger.next hnext), backing, hdisk]
  exact h.arrived q v n hturn

/-- No process that `test` created does anything. -/
theorem PageInv.still (h : PageInv K job turn home s) (hby : By s 0 t)
    (hrun : turn.Stale → t.running = s.running) (htables : t.tables = s.tables)
    (hdisk : t.disk = s.disk)
    (htlb : ¬ turn.Stale → ∀ p page e, IsUProc p → t.tlb p page = some e →
      pte s.tables p page = some e)
    (hram : ∀ n : Word, n.toNat < POOLSIZE → t.ram (frameAddr K n) = s.ram (frameAddr K n))
    (htrace : ∃ l, t.trace = l ++ s.trace ∧ ∀ o ∈ l, Sees s job home o) :
    PageStep K s job home t := by
  have hback : ∀ x, t.backing x = s.backing x :=
    congrFun (backing_congr (congrArg Disk.block hdisk))
  refine ⟨job, turn, home, ⟨fun q hq => ?_, h.other, h.holder, ?_, ?_, ?_⟩, ⟨fun x _ _ => ?_,
    fun _ => .inl, fun q hq ht _ => ⟨?_, fun v => hback _⟩, fun _ => id, htrace⟩⟩
  · have hown := h.own q hq
    refine hown.others hby hq hq.ne_zero (fun _ => ⟨htables, fun hs => hrun ?_⟩) ?_
      ((diskRegs_congr hdisk).mpr hown.disk)
    · cases hj : job q with
      | pool tb b ph =>
        rw [hj] at hs
        exact ⟨q, ph, h.turn_of hj, hs⟩
      | _ =>
        rw [hj] at hs
        exact hs.elim
    · rw [htables]
      exact fun _ => id
  · rw [htables]
    exact h.ledger
  · rw [htables]
    exact htlb
  · exact fun q v n => h.arrived_same htables hdisk hram
  · exact congrFun (h.content_same hdisk hram) x
  · rw [Taped, (hby.alive hq hq.ne_zero).1, hby.task q hq hq.ne_zero]
    exact ht

theorem PageInv.resumes (h : PageInv K job turn home s) (hp : IsUProc p)
    (hready : s.life p = .ready) (hout : stage s.log p = .out)
    (hj : j = job p ∧ (j = .idle ∨ j = .taping) ∨ job p = .idle ∧ ∃ v, j = .fault v)
    (habides : Abides K p j .out tk) (htaped : ¬ s.Taped p)
    (hfault : ∀ v, j = .fault (some v) → v.toNat < MAXPAGES ∧ ¬ Valid (s.tables.entryOf (p, v)))
    {tlb : Word → Word → Option Word}
    (htlb : ¬ turn.Stale → ∀ q page e, IsUProc q → tlb q page = some e →
      pte s.tables q page = some e) :
    PageStep K s job home (({ s with tlb := tlb } : Sys Word).setTask p tk) := by
  generalize ht : ({ s with tlb := tlb } : Sys Word).setTask p tk = t
  have hby : By s p t := by
    subst ht
    exact ⟨fun q _ hqp => Function.update_of_ne hqp .., fun _ _ _ => .inl rfl, [], rfl, by simp⟩
  have htask : t.task p = tk := by
    subst ht
    exact Function.update_self ..
  have hlife : t.life p = .ready := by
    subst ht
    exact hready
  have hsame : t.log = s.log ∧ t.tables = s.tables ∧ t.disk = s.disk ∧ t.running = s.running ∧
      t.tlb = tlb ∧ t.ram = s.ram ∧ t.trace = s.trace := by
    subst ht
    exact ⟨rfl, rfl, rfl, rfl, rfl, rfl, rfl⟩
  obtain ⟨hlog, htables, hdisk, hrun, htlb', hram, htrace⟩ := hsame
  have hown := h.own p hp
  have hphase : j.phase = none ∧ (job p).phase = none ∧ j ≠ .ended ∧ job p ≠ .ended := by
    rcases hj with ⟨rfl, hj | hj⟩ | ⟨hj, v, rfl⟩ <;> rw [hj]
    all_goals exact ⟨rfl, rfl, nofun, nofun⟩
  obtain ⟨hnone, hnone', hend, hend'⟩ := hphase
  have hlives : ((job p).Lives → j.Lives) ∧ (j.Lives → (job p).Lives) ∧
      ((job p).Gone → j.Gone) ∧ (j.Early → (job p).Early) := by
    rcases hj with ⟨rfl, -⟩ | ⟨hj, v, rfl⟩
    · exact ⟨id, id, id, id⟩
    · rw [hj]
      exact ⟨id, id, False.elim, False.elim⟩
  obtain ⟨hlives, hlives', hgone, hearly⟩ := hlives
  have hcontent := h.content_same hdisk fun n _ => congrFun hram _
  refine ⟨_, turn, home, h.update hp hby ⟨fun _ => ?_, fun hb => ?_, fun hd => ?_, ?_,
    fun hsig => ?_,
    fun tb b ph heq => ?_, ?_, ?_⟩ (turn_same h.holder (hnone.trans hnone'.symm))
    (fun q _ _ _ => ⟨htables, fun _ => hrun⟩) (fun q _ v => htables ▸ id)
    (fun q hq _ => (diskRegs_congr hdisk).mpr (h.own q hq).disk) ?_ ?_
    (fun q v n => h.arrived_same htables hdisk fun n _ => congrFun hram _),
    .update hby (fun x _ _ => congrFun hcontent x) (fun q v _ _ => ?_) (fun hl => .inl (hlives' hl))
      (fun ht => absurd ht htaped) hearly ⟨[], htrace, by simp⟩⟩
  · rw [hlog, hout, htask]
    exact habides
  · nomatch hlife.symm.trans hb
  · nomatch hlife.symm.trans hd
  · rw [hlog, hown.holds, hnone, hnone']
  · rw [hlog] at hsig
    exact absurd (hown.signalled hsig) hend'
  · rw [heq] at hnone
    nomatch hnone
  · rw [htables]
    exact hfault
  · rw [hlog, hout]
    exact trivial
  · rw [htables]
    exact h.ledger.setLives (update_imp hlives) (update_imp hgone)
  · rw [htlb', htables]
    exact htlb
  · exact congrFun (backing_congr (congrArg Disk.block hdisk)) _

/-! ## Ends -/

theorem PageInv.killed (h : PageInv K job turn home s) (hp : IsUProc p)
    (hrun : s.running = some p) (hquiet : (stage s.log p).Quiet)
    (hj : job p = .ended ∨ job p = .taping) (htaped : ¬ s.Taped p) :
    PageStep K s job home (s.kill (kaya K junk) p) := by
  have hroot : ¬ (kaya K junk).root p = true := fun heq => hp.ne_zero (of_decide_eq_true heq)
  have hlife : (s.kill (kaya K junk) p).life = Function.update s.life p .dead := if_neg hroot
  generalize ht : s.kill (kaya K junk) p = t at hlife
  have hby : By s p t := by
    subst ht
    refine ⟨fun _ _ _ => rfl, fun q _ hqp => .inl ?_, [], rfl, by simp⟩
    rw [hlife, Function.update_of_ne hqp]
  have hdead : t.life p = .dead := by rw [hlife, Function.update_self]
  have hsame : t.log = s.log ∧ t.tables = s.tables ∧ t.disk = s.disk ∧ t.tlb = s.tlb ∧
      t.ram = s.ram ∧ t.trace = .died p :: s.trace := by
    subst ht
    exact ⟨rfl, rfl, rfl, rfl, rfl, rfl⟩
  obtain ⟨hlog, htables, hdisk, htlb, hram, htrace⟩ := hsame
  have hown := h.own p hp
  have hparts : (job p).phase = none ∧ ¬ (job p).Lives := by
    rcases hj with hj | hj <;> rw [hj] <;> exact ⟨rfl, id⟩
  obtain ⟨hnone, hdies⟩ := hparts
  have hcontent := h.content_same hdisk fun n _ => congrFun hram _
  refine ⟨_, turn, home, h.update (j := .ended) hp hby ⟨fun ha => ?_, fun hb => ?_, fun _ => rfl, ?_,
    fun _ => rfl, nofun, nofun, ?_⟩ (turn_same h.holder hnone.symm)
    (fun q hq hqp hphase => ⟨htables, fun hs => ?_⟩) (fun q _ v => htables ▸ id)
    (fun q hq _ => (diskRegs_congr hdisk).mpr (h.own q hq).disk) ?_ ?_
    (fun q v n => h.arrived_same htables hdisk fun n _ => congrFun hram _),
    .update hby (fun x _ _ => congrFun hcontent x) (fun q v _ _ => ?_) False.elim
      (fun ht => absurd ht htaped) False.elim ⟨[.died p], htrace, by simp [Sees]⟩⟩
  · exact absurd hdead ha.not_dead
  · nomatch hdead.symm.trans hb
  · rw [hlog, hown.holds, hnone]
    exact Iff.rfl
  · rw [hlog]
    exact DiskRegs.of_quiet hquiet
  · -- a process whose tables may differ from the TLB is the one that runs
    cases hjq : job q with
    | pool tb b ph =>
      rw [hjq] at hs
      have hrun' := ((h.own q hq).pool tb b ph hjq).2.2 hs
      exact absurd (Option.some.inj (hrun'.2.symm.trans hrun)) hqp
    | _ =>
      rw [hjq] at hs
      exact hs.elim
  · rw [htables]
    exact h.ledger.setLives (update_imp fun hl => absurd hl hdies) (update_imp fun _ => trivial)
  · rw [htlb, htables]
    exact h.tlb
  · exact congrFun (backing_congr (congrArg Disk.block hdisk)) _

theorem PageInv.ends (h : PageInv K job turn home s) (hended : ∀ p, IsUProc p → job p = .ended) :
    PageStep K s job home (s.kill (kaya K junk) 0) := by
  generalize ht : s.kill (kaya K junk) 0 = t
  have hdead : ∀ p, t.life p = .dead := by
    subst ht
    exact fun _ => rfl
  have hsame : t.log = s.log ∧ t.tables = s.tables ∧ t.disk = s.disk ∧ t.tlb = s.tlb ∧
      t.ram = s.ram ∧ t.trace = .died 0 :: s.trace := by
    subst ht
    exact ⟨rfl, rfl, rfl, rfl, rfl, rfl⟩
  obtain ⟨hlog, htables, hdisk, htlb, hram, htrace⟩ := hsame
  have hearly : ∀ p, (job p).Early → ¬ IsUProc p := by
    intro p he hp
    rw [hended p hp] at he
    exact he
  have hcontent := h.content_same hdisk fun n _ => congrFun hram _
  refine ⟨job, turn, home, ⟨fun p hp => ?_, h.other, h.holder, ?_, ?_, ?_⟩, ⟨fun x _ _ => ?_,
    fun _ => .inl, fun p hp _ he => absurd hp (hearly p he), fun _ => id, [.died 0], htrace,
    by simp [Sees]⟩⟩
  · have hown := h.own p hp
    refine ⟨fun ha => ?_, fun hb => ?_, fun _ => hended p hp, ?_, fun _ => hended p hp,
      fun tb b ph hj => ?_, fun v hj => ?_, ?_⟩
    · exact absurd (hdead p) ha.not_dead
    · nomatch (hdead p).symm.trans hb
    · rw [hlog]
      exact hown.holds
    · nomatch (hended p hp).symm.trans hj
    · nomatch (hended p hp).symm.trans hj
    · rw [hlog]
      exact (diskRegs_congr hdisk).mpr hown.disk
  · rw [htables]
    exact h.ledger
  · rw [htlb, htables]
    exact h.tlb
  · exact fun q v n => h.arrived_same htables hdisk fun n _ => congrFun hram _
  · exact congrFun hcontent x

/-! ## Traps -/

/-- The page of a TLB trap is that of the access. -/
theorem tlbState_page (s : Sys Word) (p code va : Word) :
    (s.tlbState p code va).sAsid >>> 12 = va >>> 12 := by
  have hlow : ∀ x : Word, (x &&& 0xFFF#32) >>> 12 = 0#32 := by
    intro x
    rw [BitVec.ushiftRight_and_distrib]
    exact BitVec.and_zero
  have hhigh : ∀ x : Word, (x &&& 0xFFFFF000#32) >>> 12 = x >>> 12 := fun x =>
    calc (x &&& 0xFFFFF000#32) >>> 12
        = (x &&& 0xFFFFF000#32) >>> 12 ||| (x &&& 0xFFF#32) >>> 12 := by
          rw [hlow]
          exact BitVec.or_zero.symm
      _ = (x &&& (0xFFFFF000#32 ||| 0xFFF#32)) >>> 12 := by
          rw [← BitVec.ushiftRight_or_distrib, ← BitVec.and_or_distrib_left]
      _ = x >>> 12 := by
          change (x &&& BitVec.allOnes 32) >>> 12 = x >>> 12
          rw [BitVec.and_allOnes]
  change ((va &&& 0xFFFFF000#32) ||| ((s.task p).entryHi &&& 0xFFF#32)) >>> 12 = va >>> 12
  rw [BitVec.ushiftRight_or_distrib, hhigh, hlow]
  exact BitVec.or_zero

theorem PageInv.entry_of (h : PageInv K job turn home s) (hp : IsUProc p) {va e : Word}
    (hseg : va >>> 30 ≠ 3) (he : pte s.tables p (va >>> 12) = some e) :
    Present va ∧ e = s.tables.entryOf (p, pageIndex va) := by
  obtain ⟨j, hj, hfound⟩ := List.exists_of_findSome?_eq_some he
  simp only [table, segment_of_page, if_neg hseg] at hfound
  split_ifs at hfound with hpage
  obtain rfl := Option.some.inj hfound
  rw [h.ledger.names] at hpage
  obtain ⟨missing, hhas, hslot⟩ : ∃ missing, HasPage missing ∧
      Fault.slot ⟨p, 2, missing⟩ = .uPte (p - 1) (BitVec.ofNat 32 j) ∧
        clip missing = BitVec.ofNat 32 j := by
    have hlt : j < 32 := List.mem_range.mp hj
    have hall : ∀ i < 31, BitVec.ofNat 32 i < 31#32 ∧ BitVec.ofNat 32 i ≠ 0x3FFFF#32 ∧
        clip (BitVec.ofNat 32 i) = BitVec.ofNat 32 i := by decide
    have hseg2 : ¬ (2 : Word) = 3 := by decide
    by_cases hj31 : j = 31
    · subst hj31
      exact ⟨0x3FFFF, .inr rfl, rfl, rfl⟩
    · obtain ⟨h1, h2, h3⟩ := hall j (by omega)
      exact ⟨_, .inl h1, (if_neg hseg2).trans (congrArg _ (if_neg h2)), h3⟩
  have hentry := Fault.entryHi_slot (f := ⟨p, 2, missing⟩) (.inl ⟨rfl, hhas⟩) hp.lt
  rw [hslot.1] at hentry
  have hva : va >>> 12 = 2 <<< 18 ||| missing := hpage.symm.trans hentry
  have hmissing := hhas.number
  have hindex : (va &&& 0x3FFFF000) >>> 12 = missing := by
    rw [missing_of_page, hva]
    exact hmissing.2
  refine ⟨⟨?_, ?_⟩, ?_⟩
  · rw [← segment_of_page, hva]
    exact hmissing.1
  · rw [hindex]
    exact hhas
  · rw [pageIndex, hindex, hslot.2]
    rfl

theorem PageInv.not_taped (h : PageInv K job turn home s) (hp : IsUProc p) (hj : job p ≠ .taping) :
    ¬ s.Taped p :=
  fun ht => hj (((h.own p hp).fits ht.1).eq_taping ht.2)

/-- A trap is passed up to the handler that was installed for it. -/
theorem PageInv.traps (h : PageInv K job turn home s) (hp : IsUProc p) (hready : s.life p = .ready)
    (hj : job p = .idle) (hout : stage s.log p = .out) (tlb : Word → Word → Option Word)
    (htlb : ¬ turn.Stale → ∀ q page e, IsUProc q → tlb q page = some e →
      pte s.tables q page = some e)
    {trap : Trap} {st : State} {rest : Prog} (hj' : j = .idle ∨ ∃ v, j = .fault v)
    (hfault : ∀ v, j = .fault (some v) → v.toNat < MAXPAGES ∧ ¬ Valid (s.tables.entryOf (p, v)))
    (hprog : ∀ entryHi, asidOf entryHi = p → Follows (pageRules K p)
      ((kaya K junk).enter p trap.entry entryHi st) (j, .out) fun _ s => s = (.idle, .out))
    (hrest : rest = (s.task p).prog ∨ rest = .done ()) :
    PageStep K s job home (({ s with tlb := tlb } : Sys Word).passUp (kaya K junk) p trap st rest) := by
  have habides := (h.own p hp).fits (.inl hready)
  rw [hj, hout] at habides
  obtain ⟨area, harea⟩ := Option.ne_none_iff_exists'.mp fun hnone =>
    (habides.lacks nofun trap).mp hnone
  obtain ⟨hpc, hasid⟩ := habides.new trap area harea
  simp only [Sys.passUp, harea]
  refine h.resumes hp hready hout ?_ (habides.passUp hj' harea ?_ hrest _) (h.not_taped hp ?_)
    hfault htlb
  · exact hj'.imp (fun hidle => ⟨hidle.trans hj.symm, .inl hidle⟩) fun hf => ⟨hj, hf⟩
  · rw [hpc]
    exact hprog _ hasid
  · exact fun htaping => by cases hj.symm.trans htaping

/-- A TLB trap that the pager does not serve. -/
theorem PageInv.refused (h : PageInv K job turn home s) (hp : IsUProc p)
    (hready : s.life p = .ready) (hj : job p = .idle) (hout : stage s.log p = .out) {st : State}
    (hinv : ¬ Invalid st) :
    PageStep K s job home (s.passUp (kaya K junk) p .tlb st (s.task p).prog) :=
  h.traps hp hready hj hout s.tlb h.tlb (.inr ⟨none, rfl⟩) nofun
    (fun _ _ => pager_refuses hinv) (.inl rfl)

theorem invalid_code {code : Word} (hcode : code = 2 ∨ code = 3) (va : Word) :
    Invalid (s.tlbState p code va) := by
  rcases hcode with rfl | rfl
  · exact .inr (show ((2 : Word) <<< 2 <<< 25) >>> 27 = TLBINVSW by decide)
  · exact .inl (show ((3 : Word) <<< 2 <<< 25) >>> 27 = TLBINVLW by decide)

/-- An access to a page that the process has hits its frame, or traps. -/
theorem PageInv.access (h : PageInv K job turn home s) (hK : Roomy K) (hp : IsUProc p)
    (hready : s.life p = .ready) (hrun : s.running = some p) (hj : job p = .idle)
    (hout : stage s.log p = .out) (hdone : (s.task p).prog ≠ .done ()) {code va : Word}
    (hcode : code = 2 ∨ code = 3)
    (hseg : va >>> 30 ≠ 3) {hit : Sys Word → Word → Sys Word} {P : Sys Word → Prop}
    (htrap : ∀ t, PageStep K s job home t → P t)
    (hhit : ∀ tlb frame, Present va → home (p, pageIndex va) = some frame →
      (∀ q page e, IsUProc q → tlb q page = some e → pte s.tables q page = some e) →
        P (hit { s with tlb := tlb } frame)) :
    P (s.access (kaya K junk) p code va hit) := by
  have hasid : asidOf (s.task p).entryHi = p :=
    ((h.own p hp).fits (.inl hready)).asid.resolve_right hdone
  have htlb := h.tlb (h.not_stale_of hrun (hj ▸ id))
  unfold Sys.access
  cases he : s.entry p (va >>> 12) with
  | none =>
    refine htrap _ (h.refused hp hready hj hout ?_)
    have hother : ((14 : Word) <<< 2 <<< 25) >>> 27 ≠ TLBINVLW ∧
        ((14 : Word) <<< 2 <<< 25) >>> 27 ≠ TLBINVSW := by decide
    exact fun hinv => hinv.elim hother.1 hother.2
  | some e =>
    have hpte : pte s.tables p (va >>> 12) = some e := by
      unfold Sys.entry at he
      cases hcached : s.tlb p (va >>> 12) with
      | some e' =>
        rw [hcached] at he
        exact he ▸ htlb p _ e' hp hcached
      | none =>
        rw [hcached, hasid] at he
        exact he
    obtain ⟨hpresent, hentry⟩ := h.entry_of hp hseg hpte
    have hcache : ∀ q page e', IsUProc q →
        Function.update s.tlb p (Function.update (s.tlb p) (va >>> 12) (some e)) q page = some e' →
          pte s.tables q page = some e' := by
      intro q page e' hq hfound
      by_cases hqp : q = p
      · subst hqp
        rw [Function.update_self] at hfound
        by_cases hpage : page = va >>> 12
        · rw [hpage, Function.update_self] at hfound
          rw [hpage, hpte, hfound]
        · rw [Function.update_of_ne hpage] at hfound
          exact htlb q page e' hq hfound
      · rw [Function.update_of_ne hqp] at hfound
        exact htlb q page e' hq hfound
    have hlt := clip_lt ((va &&& 0x3FFFF000) >>> 12)
    simp only
    split_ifs with hvalid
    · rw [hentry] at hvalid
      obtain ⟨-, a, hhome, ha⟩ :=
        h.ledger.home_of_valid (x := (p, pageIndex va)) hp (hj ▸ id) hlt hvalid
      obtain ⟨-, -, -, n, hn, rfl⟩ := h.ledger.resident _ _ hhome
      have hframe : e &&& 0xFFFFF000 = frameAddr K n := by
        rw [hentry, ha, frame_of_entry, frameAddr_aligned hK hn]
      rw [hframe]
      exact hhit _ _ hpresent hhome hcache
    · refine htrap _ (h.traps (j := .fault (some (pageIndex va))) hp hready hj hout _ (fun _ => hcache)
        (.inr ⟨_, rfl⟩) ?_ (fun entryHi hasid' => ?_) (.inl rfl))
      · rintro v ⟨⟩
        exact ⟨hlt, hentry ▸ hvalid⟩
      · refine pager_pages hasid' (invalid_code hcode va) ?_ ?_ hpresent.2
        · rw [← segment_of_page, tlbState_page, segment_of_page]
          exact hpresent.1
        · rw [missing_of_page, tlbState_page, ← missing_of_page]

end Sys

end Kaya.Phase3
