import Kaya.Phase3.Proofs.PageInv

/-!
# What the actions do to the pages
-/

namespace Kaya.Phase3

open Lib Lib.Paging

namespace Sys

variable {K : Layout} {job job' : Word → Job} {turn turn' : Turn}
  {home home' : Word × Word → Option Word} {s t m : Sys Word} {p q : Word} {j j' : Job}
  {g : Stage} {a : Act} {k : Word → Prog} {r : Word}

theorem DiskRegs.of_quiet (h : g.Quiet) : DiskRegs K s p j g := by
  rcases h with rfl | rfl <;> exact trivial

theorem DiskRegs.setShut (h : DiskRegs K s p j g) (b b' : Bool) :
    DiskRegs K s p (j.setShut b) (g.setShut b') := by
  cases g with
  | seeking w | positioned w b'' =>
    obtain ⟨cyl, sector, buf, command, hmoves⟩ := h
    exact ⟨cyl, sector, buf, command, hmoves.setShut b⟩
  | loaded w b'' =>
    obtain ⟨cyl, sector, buf, command, hmoves, hrest⟩ := h
    exact ⟨cyl, sector, buf, command, hmoves.setShut b, hrest⟩
  | moving w =>
    obtain ⟨cyl, sector, buf, command, hmoves, hrest⟩ := h
    exact ⟨cyl, sector, buf, command, hmoves.setShut b, hrest⟩
  | _ => exact trivial

/-- Who does not live has nothing in memory. -/
theorem PageInv.home_none (h : PageInv K job turn home s) (hp : ¬ (job p).Lives) (v : Word) :
    home (p, v) = none := by
  cases hhome : home (p, v) with
  | none => rfl
  | some a => exact absurd (h.ledger.resident _ _ hhome).1 hp

/-- What a process that does not live would find. -/
theorem PageInv.content_backing (h : PageInv K job turn home s) (hp : ¬ (job p).Lives) (v : Word) :
    s.content home (p, v) = s.backing (p, v) := contents_of_back (h.home_none hp v)

/-- The process with an answer, among the others. -/
structure Answering (K : Layout) (job : Word → Job) (s : Sys Word) (p : Word) (a : Act)
    (k : Word → Prog) (r : Word) (m : Sys Word) : Prop where
  uproc : IsUProc p
  alive : s.Alive p
  prog : (s.task p).prog = .act a k
  effect : s.Effect p a m
  admits : (pageRules K p).admits (job p, stage s.log p) a r m.view
  locks : (lockRules false p).may (place false s.log p) a
  disk : diskRules.may (stage s.log p) a

theorem Answering.may (ha : Answering K job s p a k r m) (h : PageInv K job turn home s) :
    (job p).May K p (stage s.log p) a := ((h.own p ha.uproc).fits ha.alive).may ha.prog

theorem plain_tables (ha : a.Plain) (t : Tables) : a.onTables t = t := by
  cases a with
  | tables f => exact ha.elim
  | _ => rfl

/-- Memory and disk are as they were. -/
structure SameStore (s t : Sys Word) : Prop where
  trace : t.trace = s.trace
  disk : t.disk = s.disk
  ram : t.ram = s.ram

theorem SameStore.backing (h : SameStore s t) : t.backing = s.backing :=
  backing_congr (congrArg Disk.block h.disk)

theorem SameStore.content (h : SameStore s t) (home : Word × Word → Option Word) :
    t.content home = s.content home := content_congr h.ram h.backing

theorem PageInv.plain (h : PageInv K job turn home s) (ha : Answering K job s p a k r m)
    (hplain : a.Plain) (hstore : SameStore s m)
    (htlb : ¬ turn.Stale → ∀ q page e, IsUProc q → m.tlb q page = some e →
      pte s.tables q page = some e)
    (hsees : Sees s job home (.did ⟨p, a, r, m.view⟩)) : PageStep K s job home (m.answer p r) := by
  have hown := h.own p ha.uproc
  have hmild : Job.Mild (job p) ((job p).next (stage s.log p) m.view a) := Job.mild_next hplain
  have htables : m.tables = s.tables := ha.effect.tables.trans (plain_tables hplain _)
  have hback : ∀ x, m.backing x = s.backing x := congrFun hstore.backing
  refine ⟨_, turn, home, h.answered ha.uproc ha.alive ha.prog ha.effect ha.admits ha.locks rfl rfl
    ?_ ?_ ?_ (turn_same h.holder hmild.phase) (.inl htables) ?_ ?_ ?_ ?_ ?_ ?_ ?_ ?_ ?_ hsees⟩
  · -- the tables of the holder
    intro t b ph hj
    rw [htables]
    rcases Job.plain_pool hplain hj with ⟨hold, hstatus⟩ | ⟨status, b', rfl, hb, hold⟩
    · obtain ⟨h1, h2, h3⟩ := hown.pool t b ph hold
      refine ⟨h1, fun hb => ?_, fun hs => ⟨(h3 hs).1, ha.effect.running.trans (h3 hs).2⟩⟩
      rw [hstatus]
      exact h2 hb
    · obtain ⟨h1, -, h3⟩ := hown.pool t b' ph hold
      refine ⟨h1, fun hbt => ?_, fun hs => ⟨?_, ha.effect.running.trans (h3 hs).2⟩⟩
      · have hzero : status &&& 1 = 0 := of_decide_eq_true (hb.symm.trans hbt)
        change status &&& 1 ≠ 1
        rw [hzero]
        decide
      · rw [hb]
        refine decide_eq_true ((ha.may h).2 ?_)
        rw [hold]
        exact hs
  · intro v hv
    rw [htables]
    exact hown.fault v (hmild.fault hv)
  · rw [diskRegs_congr hstore.disk]
    rcases hplain.stage ha.disk with hquiet | rfl | ⟨status, rfl⟩
    · exact DiskRegs.of_quiet hquiet
    · exact hown.disk
    · exact hown.disk.setShut _ _
  · exact fun q _ v => htables ▸ id
  · exact fun q hq _ => (diskRegs_congr hstore.disk).mpr (h.own q hq).disk
  · rw [htables]
    exact h.ledger.setLives (update_imp hmild.lives) (update_imp hmild.gone)
  · rw [htables]
    exact htlb
  · intro q v n hturn
    rw [hstore.ram, htables, hback]
    exact h.arrived q v n hturn
  · rw [hstore.content]
    exact fun _ _ _ => rfl
  · exact fun q v _ _ => hback _
  · intro htaping _ v
    rw [hstore.content]
    exact h.content_backing (htaping ▸ id) v
  · exact ⟨[], hstore.trace, by simp⟩

theorem PageInv.goesOn (h : PageInv K job turn home s) (ha : Answering K job s p a k r m)
    (hjob : (job p).next (stage s.log p) m.view a = job p)
    (hg : diskRules.next (stage s.log p) a r m.view = g) (hplain : ∀ t, a.onTables t = t)
    (hstatus : ∀ status, a.onStatus status = status)
    (htrace : ∃ l, m.trace = l ++ s.trace ∧ ∀ o ∈ l, o = .done READY)
    (hram : m.ram = s.ram) (hblock : m.disk.block = s.disk.block) (htlb : m.tlb = s.tlb)
    (hregs : DiskRegs K m p (job p) g)
    (hdisks : ∀ q, IsUProc q → q ≠ p → DiskRegs K m q (job q) (stage s.log q))
    (hsees : Sees s job home (.did ⟨p, a, r, m.view⟩)) : PageStep K s job home (m.answer p r) := by
  have hown := h.own p ha.uproc
  have htables : m.tables = s.tables := ha.effect.tables.trans (hplain _)
  have hback : m.backing = s.backing := backing_congr hblock
  have hcontent : m.content home = s.content home := content_congr hram hback
  refine ⟨_, turn, home, h.answered ha.uproc ha.alive ha.prog ha.effect ha.admits ha.locks hjob hg
    (fun t b ph heq => ?_) (fun v heq => ?_) hregs (turn_same h.holder rfl) (.inl htables)
    ?_ ?_ ?_ ?_ ?_ ?_
    ?_ ?_ htrace hsees⟩
  · obtain ⟨h1, h2, h3⟩ := hown.pool t b ph heq
    refine ⟨htables.trans h1, fun hb => ?_, fun hs =>
      ⟨(h3 hs).1, ha.effect.running.trans (h3 hs).2⟩⟩
    rw [hstatus]
    exact h2 hb
  · rw [htables]
    exact hown.fault v heq
  · exact fun q _ v => htables ▸ id
  · exact hdisks
  · rw [Function.update_eq_self, htables]
    exact h.ledger
  · rw [htlb, htables]
    exact h.tlb
  · rw [hram, htables, hback]
    exact h.arrived
  · rw [hcontent]
    exact fun _ _ _ => rfl
  · rw [hback]
    exact fun _ _ _ _ => rfl
  · intro htaping _ v
    rw [hcontent]
    exact h.content_backing (htaping ▸ id) v

/-! ## The holder of `swapPoolSem` -/

theorem PageInv.turn_of (h : PageInv K job turn home s) {t : Tables} {b : Bool} {ph : Phase}
    (hj : job p = .pool t b ph) : turn = some (p, ph) :=
  (h.holder p ph).mpr (congrArg Job.phase hj)

/-- The holder of `swapPoolSem` gets to another phase. -/
theorem PageInv.holding (h : PageInv K job turn home s) (home' : Word × Word → Option Word)
    (ha : Answering K job s p a k r m)
    {tb tb' : Tables} {b : Bool} {ph ph' : Phase} (hj : job p = .pool tb b ph)
    (hj' : (job p).next (stage s.log p) m.view a = .pool tb' b ph')
    (hg : diskRules.next (stage s.log p) a r m.view = g) (hfree : ph' = .freeing ↔ ph = .freeing)
    (htables : m.tables = tb') (hstatus : ∀ status, a.onStatus status = status)
    (hstore : SameStore s m) (hstale : ph'.Stale → b = true ∧ s.running = some p)
    (hregs : DiskRegs K m p (.pool tb' b ph') g)
    (hfaults : ∀ q, q ≠ p → ∀ v, ¬ Valid (s.tables.entryOf (q, v)) →
      ¬ Valid (tb'.entryOf (q, v)))
    (hledger : Ledger K (fun q => (job q).Lives) (fun q => (job q).Gone) (some (p, ph')) home' tb')
    (htlb : ¬ ph'.Stale → ∀ q page e, IsUProc q → m.tlb q page = some e →
      pte tb' q page = some e)
    (harrived : ∀ v k, ph' = .arrived v k → s.ram (frameAddr K tb'.frameNo) = s.backing (p, v))
    (hcontent : ∀ x, s.content home' x = s.content home x) :
    PageStep K s job home (m.answer p r) := by
  have hown := h.own p ha.uproc
  have hphase : (job p).phase ≠ none := by
    rw [hj]
    exact Job.pool_phase
  have hback : ∀ x, m.backing x = s.backing x := congrFun hstore.backing
  have hsees : Sees s job home (.did ⟨p, a, r, m.view⟩) := by
    have hmay := ha.may h
    rw [hj] at hmay
    cases a with
    | load virtAddr => nomatch hmay
    | _ => exact trivial
  refine ⟨_, some (p, ph'), home', h.answered ha.uproc ha.alive ha.prog ha.effect ha.admits ha.locks
    hj' hg (fun tb'' b' ph'' heq => ?_) nofun hregs
    (turn_update (j := .pool tb' b ph') h.holder (.inr hphase)) (.inr hphase)
    ?_ ?_ ?_ ?_ ?_ ?_ ?_ ?_ ?_ hsees⟩
  · cases heq
    obtain ⟨-, h2, -⟩ := hown.pool tb b ph hj
    refine ⟨htables, fun hb => ?_, fun hs => ?_⟩
    · rw [hstatus]
      exact h2 hb
    · exact ⟨(hstale hs).1, ha.effect.running.trans (hstale hs).2⟩
  · rw [htables]
    exact hfaults
  · exact fun q hq _ => (diskRegs_congr hstore.disk).mpr (h.own q hq).disk
  · rw [htables]
    refine hledger.setLives (update_imp fun hl => ?_) (update_imp fun hg => ?_)
    · rw [hj] at hl
      exact fun hf => hl (hfree.mp hf)
    · rw [hj] at hg
      exact hfree.mpr hg
  · intro hns
    rw [htables]
    exact htlb fun hs => hns ⟨p, ph', rfl, hs⟩
  · rintro q v n ⟨⟩
    rw [htables, hstore.ram, hback]
    exact harrived v n rfl
  · rw [hstore.content]
    exact fun x _ _ => hcontent x
  · exact fun q v _ _ => hback _
  · intro htaping
    rw [hj] at htaping
    nomatch htaping
  · exact ⟨[], hstore.trace, by simp⟩

/-- What is in the TLB between the phases in which it may be wrong. -/
theorem PageInv.tlb_of (h : PageInv K job turn home s) {t : Tables} {b : Bool} {ph : Phase}
    (hj : job p = .pool t b ph) (hph : ¬ ph.Stale) (q page e : Word) (hq : IsUProc q)
    (he : s.tlb q page = some e) : pte s.tables q page = some e := by
  refine h.tlb ?_ q page e hq he
  rw [h.turn_of hj]
  rintro ⟨_, _, ⟨⟩, hs⟩
  exact hph hs

theorem PageInv.call (h : PageInv K job turn home s)
    (ha : Answering K job s p (.passeren disk0sem) k r m) (hstore : SameStore s m)
    (htlb : m.tlb = s.tlb) : PageStep K s job home (m.answer p r) := by
  have hmay : (job p).MayCall := ha.may h
  have hjob : (job p).next (stage s.log p) m.view (.passeren disk0sem) = (job p).map Phase.onCall :=
    rfl
  have htables : m.tables = s.tables := ha.effect.tables
  cases hj : job p with
  | taping =>
    have hsame : (job p).next (stage s.log p) m.view (.passeren disk0sem) = job p := by
      rw [hjob, hj]
      rfl
    exact h.goesOn ha hsame rfl (fun _ => rfl) (fun _ => rfl) ⟨[], hstore.trace, by simp⟩ hstore.ram
      (by rw [hstore.disk]) htlb trivial
      (fun q hq _ => (diskRegs_congr hstore.disk).mpr (h.own q hq).disk) trivial
  | pool t b ph =>
    obtain ⟨rfl, -, -⟩ := (h.own p ha.uproc).pool t b ph hj
    have hledger := h.ledger
    rw [h.turn_of hj] at hledger
    rw [hj] at hmay hjob
    have hstale : ¬ ph.Stale := by
      cases ph <;> first | exact id | exact hmay.elim
    have hns : ¬ ph.onCall.Stale := by
      cases ph with
      | searching v => cases v <;> exact id
      | _ => first | exact id | exact hmay.elim
    refine h.holding home ha hj (hj ▸ hjob) rfl ?_ htables (fun _ => rfl) hstore
      (fun hs => absurd hs hns) trivial (fun _ _ _ => id) ?_ ?_ ?_ fun _ => rfl
    · cases ph with
      | searching v => cases v <;> exact iff_of_false nofun nofun
      | _ => exact Iff.rfl
    · cases ph with
      | searching v =>
        obtain ⟨hv, hlt, hfree⟩ := hmay
        obtain ⟨v, rfl⟩ := Option.ne_none_iff_exists'.mp hv
        exact hledger.call hlt hfree
      | leaving | clear => exact hledger
      | _ => exact hmay.elim
    · intro _
      rw [htlb]
      exact h.tlb_of hj hstale
    · rintro v n heq
      cases ph with
      | searching v => cases v <;> nomatch heq
      | leaving | clear => nomatch heq
      | _ => exact hmay.elim
  | _ =>
    rw [hj] at hmay
    exact hmay.elim

theorem PageInv.flush (h : PageInv K job turn home s) (ha : Answering K job s p .TLBCLR k r m)
    (hstore : SameStore s m) (htlb : m.tlb = fun _ _ => none) :
    PageStep K s job home (m.answer p r) := by
  obtain ⟨t, b, ph, hj⟩ := ha.may h
  obtain ⟨rfl, -, -⟩ := (h.own p ha.uproc).pool t b ph hj
  have hledger := h.ledger
  rw [h.turn_of hj] at hledger
  have hjob : (job p).next (stage s.log p) m.view .TLBCLR = .pool s.tables b ph.onFlush := by
    rw [hj]
    rfl
  have hns : ¬ ph.onFlush.Stale := by
    cases ph <;> exact id
  have hquiet : (stage s.log p).Quiet := ha.disk
  refine h.holding home ha hj hjob rfl ?_ ha.effect.tables (fun _ => rfl) hstore
    (fun hs => absurd hs hns) (DiskRegs.of_quiet hquiet) (fun _ _ _ => id) ?_ ?_ ?_ fun _ => rfl
  · cases ph <;> first | exact Iff.rfl | exact iff_of_false nofun nofun
  · have hwants : ∀ v, ph.onFlush.wants = some v → ph.wants = some v := by
      intro v hv
      cases ph <;> exact hv
    have hsearch : Turn.Searching (some (p, ph)) → Turn.Searching (some (p, ph.onFlush)) := by
      rintro ⟨_, v, ⟨⟩⟩
      exact ⟨p, v, rfl⟩
    refine hledger.setTurn (fun hs => hledger.next fun hs' => hs (hsearch hs')) ?_ ?_ ?_ ?_
    · constructor
      · rintro ⟨_, _, ⟨⟩, he⟩
        refine ⟨p, ph, rfl, ?_⟩
        cases ph <;> exact he
      · rintro ⟨_, _, ⟨⟩, he⟩
        refine ⟨p, _, rfl, ?_⟩
        cases ph <;> exact he
    · cases ph <;> rfl
    · rintro q ⟨⟩
      rfl
    · rintro _ _ v ⟨⟩ hv
      exact hledger.wants p ph v rfl (hwants v hv)
  · rw [htlb]
    exact nofun
  · intro v n heq
    refine h.arrived p v n ?_
    rw [h.turn_of hj]
    cases ph with
    | arrived =>
      cases heq
      rfl
    | _ => nomatch heq

/-! ## Writes to the tables -/

/-- The TLB is filled from the page tables. -/
theorem pte_congr {t t' : Tables} (hu : t'.uPte = t.uPte) (hk : t'.kUseg3 = t.kUseg3) :
    pte t' = pte t := by
  have htable : table t' = table t := by
    funext asid page
    rw [table, table, hu, hk]
  funext asid page
  unfold pte
  rw [htable]

/-- An eviction makes no entry valid. -/
theorem not_valid_evict {t : Tables} (n : Word) {x : Word × Word} (h : ¬ Valid (t.entryOf x)) :
    ¬ Valid ((t.evict n).entryOf x) := by
  have hslot := t.slot_evict (x := .uPte (x.1 - 1) x.2) n
  have hentry : (t.evict n).entryOf x = ((t.evict n).slot (.uPte (x.1 - 1) x.2)).entryLo := rfl
  rw [hentry, hslot]
  split_ifs
  · exact not_valid_masked _
  · exact h

theorem PageInv.rewrites (h : PageInv K job turn home s) (hK : Roomy K) {f : Tables → Word × Tables}
    (ha : Answering K job s p (.tables f) k r m) (hrun : s.running = some p) (hstore : SameStore s m)
    (htlb : m.tlb = s.tlb) : PageStep K s job home (m.answer p r) := by
  obtain ⟨t, b, ph, hj, hrewrites⟩ := ha.may h
  obtain ⟨rfl, -, hstale⟩ := (h.own p ha.uproc).pool t b ph hj
  have hledger := h.ledger
  have hturn := h.turn_of hj
  rw [hturn] at hledger
  have hquiet : (stage s.log p).Quiet := ha.disk
  have hregs : ∀ ph', DiskRegs K m p (.pool (f s.tables).2 b ph')
      (diskRules.next (stage s.log p) (.tables f) r m.view) := fun _ => DiskRegs.of_quiet hquiet
  have hjob : (job p).next (stage s.log p) m.view (.tables f) =
      .pool (f s.tables).2 b (ph.onTables s.tables b) := by
    rw [hj]
    rfl
  have htables : m.tables = (f s.tables).2 := ha.effect.tables
  generalize (f s.tables).2 = t' at hrewrites hjob htables hregs
  have hpte : ¬ ph.Stale → t'.uPte = s.tables.uPte → t'.kUseg3 = s.tables.kUseg3 →
      ∀ q page e, IsUProc q → m.tlb q page = some e → pte t' q page = some e := by
    intro hns hu hk
    rw [pte_congr hu hk, htlb]
    exact h.tlb_of hj hns
  cases ph with
  | searching v =>
    obtain ⟨hv, hrewrites⟩ := hrewrites
    obtain ⟨v, rfl⟩ := Option.ne_none_iff_exists'.mp hv
    cases b with
    | true =>
      obtain ⟨hlt, hheld, rfl⟩ := hrewrites
      exact h.holding home ha hj hjob rfl (iff_of_false nofun nofun) htables
        (fun _ => rfl) hstore (fun _ => ⟨rfl, hrun⟩) (hregs _) (fun _ _ _ => not_valid_evict _)
        (hledger.mask hlt hheld rfl) (fun hns => absurd trivial hns) nofun fun _ => rfl
    | false =>
      obtain ⟨fNo, rfl⟩ := hrewrites
      exact h.holding home ha hj hjob rfl (iff_of_false nofun nofun) htables
        (fun _ => rfl) hstore nofun (hregs _) (fun _ _ _ => id) (hledger.setFrameNo fNo)
        (fun _ => hpte id rfl rfl) nofun fun _ => rfl
  | masked v x =>
    obtain rfl : t' = s.tables := hrewrites
    exact h.holding home ha hj hjob rfl Iff.rfl htables (fun _ => rfl) hstore hstale
      (hregs _) (fun _ _ _ => id) hledger (fun hns => absurd trivial hns) nofun fun _ => rfl
  | arrived v n =>
    have harrived := h.arrived p v n hturn
    change _ = Job.pool _ b (if n = 4 then .entered else .arrived v (n + 1)) at hjob
    change if n = 4 then _ else _ at hrewrites
    by_cases hn : n = 4
    · rw [if_pos hn] at hjob hrewrites
      obtain ⟨rfl, rfl, page, hpage, hv, hentry⟩ := hrewrites
      obtain ⟨hhome, -, -⟩ := hledger.wants p _ v rfl rfl
      refine h.holding _ ha hj hjob rfl (iff_of_false nofun nofun) htables (fun _ => rfl) hstore
        (fun _ => ⟨rfl, hrun⟩) (hregs _) (fun q hqp v' hinv => ?_)
        (hledger.enter hK ha.uproc hpage hv hentry) (fun hns => absurd trivial hns) nofun fun x => ?_
      · rw [Tables.entryOf_setEntryLo, if_neg fun heq => hqp (congrArg Prod.fst heq)]
        exact hinv
      · exact congrFun (contents_bringIn hhome harrived) x
    · rw [if_neg hn] at hjob hrewrites
      obtain ⟨e, rfl⟩ := hrewrites
      refine h.holding home ha hj hjob rfl (iff_of_false nofun nofun) htables
        (fun _ => rfl) hstore nofun (hregs _) (fun _ _ _ => id) (hledger.setEntry e)
        (fun _ => hpte id rfl rfl) ?_ fun _ => rfl
      rintro _ _ ⟨⟩
      exact harrived
  | freeing =>
    rcases hrewrites with rfl | ⟨i, e, hi, he, rfl⟩
    · exact h.holding home ha hj hjob rfl Iff.rfl htables (fun _ => rfl) hstore nofun
        (hregs _) (fun _ _ _ => id) hledger (fun _ => hpte id rfl rfl) nofun fun _ => rfl
    · have hdead : ¬ (job p).Lives := by
        rw [hj]
        exact fun hl => hl rfl
      exact h.holding home ha hj hjob rfl Iff.rfl htables (fun _ => rfl) hstore nofun
        (hregs _) (fun _ _ _ => id) (hledger.freeEntry hdead hi he) (fun _ => hpte id rfl rfl)
        nofun fun _ => rfl
  | _ => exact hrewrites.elim

/-! ## Taking and giving back -/

theorem PageInv.acquire (h : PageInv K job turn home s)
    (ha : Answering K job s p (.passeren .swapPoolSem) k r m) (hnone : turn = none)
    (hstore : SameStore s m) (htlb : m.tlb = s.tlb) : PageStep K s job home (m.answer p r) := by
  subst hnone
  have hown := h.own p ha.uproc
  have hmay : job p = .idle ∨ ∃ v, job p = .fault v := ha.may h
  have htables : m.tables = s.tables := ha.effect.tables
  have hjob : (job p).next (stage s.log p) m.view (.passeren .swapPoolSem) =
      (job p).acquire s.tables := congrArg (job p).acquire htables
  have hback : ∀ x, m.backing x = s.backing x := congrFun hstore.backing
  have hquiet : (stage s.log p).Quiet := ha.disk
  have hns : ¬ Turn.Stale none := by
    rintro ⟨_, _, ⟨⟩, -⟩
  have hgo : ∀ ph home', (job p).acquire s.tables = .pool s.tables false ph → ¬ ph.Stale →
      (∀ v n, ph ≠ .arrived v n) →
      Ledger K (fun q => (Function.update job p (.pool s.tables false ph) q).Lives)
        (fun q => (Function.update job p (.pool s.tables false ph) q).Gone) (some (p, ph)) home'
        s.tables →
      (∀ x, (Function.update job p (.pool s.tables false ph) x.1).Lives →
        s.content home' x = s.content home x) → PageStep K s job home (m.answer p r) := by
    intro ph home' hj hph harrived hledger hcontent
    refine ⟨_, some (p, ph), home', h.answered ha.uproc ha.alive ha.prog ha.effect ha.admits ha.locks
      (hjob.trans hj) rfl (fun t b ph' heq => ?_) nofun (DiskRegs.of_quiet hquiet)
      (turn_update (j := .pool s.tables false ph) h.holder (.inl rfl)) (.inl htables)
      ?_ ?_ ?_ ?_ ?_ ?_ ?_
      ?_ ?_ trivial⟩
    · cases heq
      exact ⟨htables, nofun, fun hs => absurd hs hph⟩
    · exact fun q _ v => htables ▸ id
    · exact fun q hq _ => (diskRegs_congr hstore.disk).mpr (h.own q hq).disk
    · rw [htables]
      exact hledger
    · rw [htlb, htables]
      exact fun _ => h.tlb hns
    · rintro q v n ⟨⟩
      exact absurd rfl (harrived v n)
    · rw [hstore.content]
      exact fun x _ hx => hcontent x hx
    · exact fun q v _ _ => hback _
    · intro htaping
      rcases hmay with hidle | ⟨v, hfault⟩
      · nomatch htaping.symm.trans hidle
      · nomatch htaping.symm.trans hfault
    · exact ⟨[], hstore.trace, by simp⟩
  rcases hmay with hidle | ⟨v, hfault⟩
  · -- `terminateUserProc`: the pages of the process are forgotten
    have hlives : ∀ q, q ≠ p → ∀ j', Function.update job p j' q = job q := fun q hqp j' =>
      Function.update_of_ne hqp ..
    refine hgo .freeing (Paging.forget home fun x => x.1 = p) (by rw [hidle]; rfl) id nofun
      (h.ledger.forget (fun q hqp hl => ?_) fun q hq => ?_) fun x hx => ?_
    · rw [hlives q hqp]
      exact hl
    · by_cases hqp : q = p
      · subst hqp
        rw [Function.update_self]
        rfl
      · rw [hlives q hqp]
        exact hq.resolve_right hqp
    · refine contents_forget fun hxp => ?_
      have hxp : x.1 = p := hxp
      rw [hxp, Function.update_self] at hx
      exact hx rfl
  · refine hgo (.searching v) home (by rw [hfault]; rfl) id nofun
      ((h.ledger.acquire fun w hw => ?_).setLives (update_imp fun _ => nofun)
        (update_imp fun hg => ?_)) fun _ _ => rfl
    · obtain ⟨hlt, hinv⟩ := hown.fault w (by rw [hfault, hw])
      refine ⟨?_, hlt, hinv⟩
      rw [hfault]
      exact trivial
    · rw [hfault] at hg
      exact hg.elim

theorem PageInv.release (h : PageInv K job turn home s)
    (ha : Answering K job s p (.verhogen .swapPoolSem) k r m) (hstore : SameStore s m)
    (htlb : m.tlb = s.tlb) : PageStep K s job home (m.answer p r) ∧
      ∃ job' home', PageInv K job' none home' (m.answer p r) ∧
        Evolves s job home (m.answer p r) job' home' := by
  have hmay : (job p).MayRelease p := ha.may h
  have hjob : (job p).next (stage s.log p) m.view (.verhogen .swapPoolSem) = (job p).release := rfl
  have htables : m.tables = s.tables := ha.effect.tables
  have hback : ∀ x, m.backing x = s.backing x := congrFun hstore.backing
  have hquiet : (stage s.log p).Quiet := ha.disk
  obtain ⟨t, b, ph, hj⟩ : ∃ t b ph, job p = .pool t b ph := by
    cases hj : job p with
    | pool t b ph => exact ⟨t, b, ph, rfl⟩
    | _ =>
      rw [hj] at hmay
      exact hmay.elim
  obtain ⟨rfl, -, -⟩ := (h.own p ha.uproc).pool t b ph hj
  have hledger := h.ledger
  rw [h.turn_of hj] at hledger
  rw [hj] at hmay
  have hstale : ¬ ph.Stale := by
    cases ph <;> first | exact id | exact hmay.elim
  have hend : ∃ j', (job p).release = j' ∧ j'.phase = none ∧ (∀ v, j' ≠ .fault v) ∧
      (ph ≠ .freeing → j'.Lives) ∧ (ph = .freeing → j'.Gone) := by
    rw [hj]
    cases ph with
    | freeing => exact ⟨.ended, rfl, rfl, nofun, fun hne => absurd rfl hne, fun _ => trivial⟩
    | _ => exact ⟨.idle, rfl, rfl, nofun, fun _ => trivial, nofun⟩
  obtain ⟨j', hj', hphase, hfault, hlives, hgone⟩ := hend
  have hphase' : (job p).phase ≠ none := by
    rw [hj]
    exact nofun
  have hturn := turn_update (j := j') h.holder (.inr hphase')
  rw [hphase] at hturn
  have hall : PageInv K (Function.update job p j') none home (m.answer p r) ∧
      Evolves s job home (m.answer p r) (Function.update job p j') home := by
    refine h.answered ha.uproc ha.alive ha.prog ha.effect ha.admits ha.locks
      (hjob.trans hj') rfl (fun t' b' ph' heq => ?_) (fun v heq => absurd heq (hfault _))
      (DiskRegs.of_quiet hquiet) hturn (.inl htables) ?_ ?_ ?_ ?_ ?_ ?_ ?_ ?_ ?_ trivial
    · rw [heq] at hphase
      nomatch hphase
    · exact fun q _ v => htables ▸ id
    · exact fun q hq _ => (diskRegs_congr hstore.disk).mpr (h.own q hq).disk
    · rw [htables]
      refine (hledger.release ?_ ?_ ?_ ?_).setLives (update_imp fun hl => ?_)
        (update_imp fun hg => ?_)
      · cases ph <;> first | exact id | exact hmay.elim
      · cases ph <;> first | rfl | exact hmay.elim
      · rintro v rfl
        nomatch (hmay : some v = none)
      · rintro rfl
        exact hmay
      · refine hlives fun hf => ?_
        rw [hj, hf] at hl
        exact hl rfl
      · rw [hj] at hg
        exact hgone hg
    · rw [htlb, htables]
      exact fun _ => h.tlb_of hj hstale
    · exact nofun
    · rw [hstore.content]
      exact fun _ _ _ => rfl
    · exact fun q v _ _ => hback _
    · intro htaping
      nomatch htaping.symm.trans hj
    · exact ⟨[], hstore.trace, by simp⟩
  exact ⟨⟨_, none, home, hall⟩, _, home, hall⟩

end Sys

/-- A job moves with one buffer. -/
theorem Transfers.unique {K : Layout} {p : Word} {j : Job}
    {cyl sector buf command cyl' sector' buf' command' : Word}
    (h : Transfers K p j cyl sector buf command) (h' : Transfers K p j cyl' sector' buf' command') :
    buf = buf' ∧ sector = sector' ∧ command = command' := by
  cases h <;> cases h' <;> exact ⟨rfl, rfl, rfl⟩

namespace Sys

variable {K : Layout} {job job' : Word → Job} {turn turn' : Turn}
  {home home' : Word × Word → Option Word} {s t m : Sys Word} {p q : Word} {j j' : Job}
  {g : Stage} {a : Act} {k : Word → Prog} {r v : Word}

/-- Others are in no call. -/
theorem DiskRegs.of_out (h : ∀ q, q ≠ p → stage s.log q = .out) (q : Word) (_ : IsUProc q)
    (hqp : q ≠ p) : DiskRegs K m q (job q) (stage s.log q) := by
  rw [h q hqp]
  exact trivial

/-! ## The registers of disk 0 -/

theorem PageInv.setCommand (h : PageInv K job turn home s)
    (ha : Answering K job s p (.setCommand disk0Reg v) k r { s with disk.busy := some v })
    (hothers : ∀ q, q ≠ p → stage s.log q = .out)
    (hpos : ∀ w b, stage s.log p = .loaded w b → s.disk.cyl = cylOf w) :
    PageStep K s job home (({ s with disk.busy := some v } : Sys Word).answer p r) := by
  have hregs := (h.own p ha.uproc).disk
  obtain ⟨cyl, sector, buf, command, hmoves, hv⟩ := (ha.may h).2 rfl
  have hstage := ha.disk
  simp only [diskRules, if_true] at hstage
  refine h.goesOn ha rfl rfl (fun _ => rfl) (fun _ => rfl) ⟨[], rfl, by simp⟩ rfl rfl rfl ?_
    (DiskRegs.of_out hothers) trivial
  rcases hstage with ⟨hg, -⟩ | ⟨w, hg⟩
  · have hnext : diskRules.next (stage s.log p) (.setCommand disk0Reg v) r
        (view { s with disk.busy := some v }) = .seeking v := by
      rw [hg]
      simp only [diskRules, if_true]
    rw [hnext]
    exact ⟨cyl, sector, buf, command, hmoves⟩
  · have hnext : diskRules.next (stage s.log p) (.setCommand disk0Reg v) r
        (view { s with disk.busy := some v }) = .moving w := by
      rw [hg]
      simp only [diskRules, if_true]
    rw [hg] at hv hregs
    obtain ⟨cyl', sector', buf', command', hmoves', hdata⟩ := hregs
    obtain ⟨rfl, -, -⟩ := hmoves'.unique hmoves
    rw [hnext]
    exact ⟨cyl, sector, buf', command, hmoves, hv.1, hdata, congrArg some hv.2, hpos w true hg⟩

theorem PageInv.setData0 (h : PageInv K job turn home s)
    (ha : Answering K job s p (.setData0 disk0Reg v) k r { s with disk.data0 := v })
    (hothers : ∀ q, q ≠ p → stage s.log q = .out) :
    PageStep K s job home (({ s with disk.data0 := v } : Sys Word).answer p r) := by
  obtain ⟨cyl, sector, command, hmoves⟩ := (ha.may h).2 rfl
  have hstage := ha.disk
  simp only [diskRules, if_true] at hstage
  obtain ⟨w, b, hg⟩ := hstage
  refine h.goesOn ha rfl rfl (fun _ => rfl) (fun _ => rfl) ⟨[], rfl, by simp⟩ rfl rfl rfl ?_
    (DiskRegs.of_out hothers) trivial
  have hnext : diskRules.next (stage s.log p) (.setData0 disk0Reg v) r
      (view { s with disk.data0 := v }) = .loaded w b := by
    rw [hg]
    simp only [diskRules, if_true]
  rw [hnext]
  exact ⟨cyl, sector, v, command, hmoves, rfl⟩

end Sys

end Kaya.Phase3
