import Kaya.Phase3.Ends
import Kaya.Phase3.Proofs.PageUser

/-!
# All steps and the pages
-/

namespace Kaya.Phase3

open Lib Lib.Paging

namespace Sys

/-- What else holds in a run as long as disk 0 answers `READY` and `test` lives. -/
structure Grounds (s : Sys Word) : Prop where
  locks : s.LockLive false
  places : LockInv false s
  balanced : s.Balanced .masterSem
  disk : s.DiskLive
  mutex : s.Mutex disk0sem
  fits : s.DiskInv
  pool : s.Mutex .swapPoolSem

variable {K : Layout} {junk : Word} {job job₁ job₂ : Word → Job} {turn : Turn}
  {home home₁ home₂ : Word × Word → Option Word} {s t u m : Sys Word} {p q : Word} {a : Act}
  {k : Word → Prog} {r : Word} {x : Sem}

theorem Grounds.uproc (hg : s.Grounds) (hp : s.life p ≠ .unborn) (hp0 : p ≠ 0) : IsUProc p := by
  have hcreated := hg.places.created
  refine ⟨by bv_omega, ?_⟩
  by_contra hlt
  exact hp (hg.places.unborn p (by omega))

theorem Grounds.locks_may (hg : s.Grounds) (hp : s.Alive p) (hprog : (s.task p).prog = .act a k) :
    (lockRules false p).may (place false s.log p) a := by
  have hfollows := hg.locks.keeps.prog p hp
  rw [hprog] at hfollows
  exact hfollows.1

theorem Grounds.disk_may (hg : s.Grounds) (hp : s.Alive p) (hprog : (s.task p).prog = .act a k) :
    diskRules.may (stage s.log p) a := by
  have hfollows := hg.disk.keeps.prog p hp
  rw [hprog] at hfollows
  exact hfollows.1

theorem Grounds.answering (hg : s.Grounds) (hp : s.Alive p) (hp0 : p ≠ 0)
    (hprog : (s.task p).prog = .act a k) (heff : s.Effect p a m)
    (hadm : (pageRules K p).admits (job p, stage s.log p) a r m.view) :
    Answering K job s p a k r m :=
  ⟨hg.uproc hp.not_unborn hp0, hp, hprog, heff, hadm, hg.locks_may hp hprog, hg.disk_may hp hprog⟩

theorem PageInv.turn_none (h : PageInv K job turn home s)
    (hfree : ∀ p, ¬ Holds .swapPoolSem p s.log) : turn = none := by
  cases turn with
  | none => rfl
  | some qph =>
    obtain ⟨hq, t, b, hj⟩ := h.holder_of (q := qph.1) rfl
    refine absurd ((h.own qph.1 hq).holds.mpr ?_) (hfree qph.1)
    rw [hj]
    exact nofun

/-- `m` is `s`, semaphores aside. -/
structure Touched (s m : Sys Word) : Prop where
  task : m.task = s.task
  life : m.life = s.life
  running : m.running = s.running
  tables : m.tables = s.tables
  tlb : m.tlb = s.tlb
  store : SameStore s m

theorem Touched.log (h : Touched s m) : m.log = s.log := by rw [Sys.log, h.store.trace, Sys.log]

theorem Touched.effect (h : Touched s m) (hstatus : ∀ st, a.onStatus st = st)
    (hnew : ∀ new, a.onNew new = new) (htables : ∀ t, a.onTables t = t) : s.Effect p a m where
  log := h.log
  life := h.life
  running := h.running
  self := by rw [h.task, hstatus, hnew]
  others q _ := congrFun h.task q
  tables := by rw [h.tables, htables]

theorem PageInv.test_answer (h : PageInv K job turn home s) (hm : Touched s m)
    (hprog : (s.task 0).prog = .act a k) (hsees : Sees s job home (.did ⟨0, a, r, m.view⟩)) :
    PageStep K s job home (m.answer 0 r) := by
  have hprog' : (m.task 0).prog = .act a k := by rw [hm.task, hprog]
  obtain ⟨htables, hdisk, htlb, hram⟩ := answer_store (r := r) hprog'
  refine h.still ⟨fun q _ hq => ?_, fun q _ hq => .inl ?_, [⟨0, a, r, m.view⟩], ?_, by simp⟩
    (fun _ => ?_) (htables.trans hm.tables) (hdisk.trans hm.store.disk) ?_ (fun n _ => ?_)
    ⟨[.did ⟨0, a, r, m.view⟩], ?_, ?_⟩
  · rw [(answer_of_ne hq).1, hm.task]
  · rw [(answer_of_ne hq).2, hm.life]
  · rw [answer_log hprog', hm.log]
    rfl
  · rw [(answer_lines m 0 r).2.2, hm.running]
  · rw [htlb, hm.tlb]
    exact h.tlb
  · rw [hram, hm.store.ram]
  · rw [answer_eq hprog', hm.store.trace]
    rfl
  · rw [List.forall_mem_singleton]
    exact hsees

theorem PageInv.blocks (h : PageInv K job turn home s) (hm : Touched s m)
    (hready : s.life p = .ready) (hns : ¬ turn.Stale) : PageStep K s job home (m.block p) := by
  refine h.still ⟨fun q _ _ => congrFun hm.task q, fun q _ _ => ?_, [], hm.log, by simp⟩
    (fun hs => absurd hs hns) hm.tables hm.store.disk ?_ (fun n _ => ?_)
    ⟨[], hm.store.trace, by simp⟩
  · change Function.update m.life p .blocked q = s.life q ∨ _
    by_cases hqp : q = p
    · subst hqp
      exact .inr ⟨.inl hready, .inr (Function.update_self ..)⟩
    · rw [Function.update_of_ne hqp, hm.life]
      exact .inl rfl
  · change ¬ turn.Stale → ∀ q page e, IsUProc q → m.tlb q page = some e → _
    rw [hm.tlb]
    exact h.tlb
  · exact congrFun hm.store.ram _

/-! ## The operations on semaphores -/

theorem Job.not_stale_passeren {j : Job} {g : Stage} (h : j.May K p g (.passeren x)) :
    ¬ j.Stale := by
  simp only [Job.May] at h
  split_ifs at h
  · rcases h with rfl | ⟨v, rfl⟩ <;> exact id
  · cases j with
    | pool t b ph => cases ph <;> first | exact id | exact h.elim
    | _ => exact id
  · rw [h]
    exact id

theorem PageInv.passes (h : PageInv K job turn home s)
    (ha : Answering K job s p (.passeren x) k r m) (hm : Touched s m)
    (hnone : x = .swapPoolSem → turn = none) : PageStep K s job home (m.answer p r) := by
  by_cases hpool : x = .swapPoolSem
  · subst hpool
    exact h.acquire ha (hnone rfl) hm.store hm.tlb
  by_cases hdisk : x = disk0sem
  · subst hdisk
    exact h.call ha hm.store hm.tlb
  · exact h.plain ha ⟨hpool, hdisk⟩ hm.store (by rw [hm.tlb]; exact h.tlb) trivial

theorem passeren_effect (hm : Touched s m) : s.Effect p (.passeren x) m :=
  hm.effect (fun _ => rfl) (fun _ => rfl) fun _ => rfl

theorem PageInv.passeren_admits (h : PageInv K job turn home s) (hm : Touched s m)
    (hnone : x = .swapPoolSem → turn = none) {g : Job × Stage} :
    (pageRules K p).admits g (.passeren x) r m.view := by
  intro hx
  have hnext : ¬ turn.Searching := by
    rw [hnone hx]
    rintro ⟨_, _, ⟨⟩⟩
  change m.tables.frameNo.toNat < POOLSIZE
  rw [hm.tables]
  exact h.ledger.next hnext

theorem Mutex.free {y : Sem} (hm : s.Mutex y) (hpos : 0 < (s.sem y).value) (p : Word) :
    ¬ Holds y p s.log := by
  rcases hm.value with hfree | hle
  · exact hfree.2 p
  · omega

theorem PageInv.P (h : PageInv K job turn home s) (hg : s.Grounds) (hrun : s.running = some p)
    (hprog : (s.task p).prog = .act (.passeren x) k) : PageStep K s job home (s.P p x) := by
  have hready := hg.locks.sane.running p hrun
  have hm : Touched s { s with sem := Function.update s.sem x ((s.sem x).down p) } :=
    ⟨rfl, rfl, rfl, rfl, rfl, rfl, rfl, rfl⟩
  have hns : ¬ (job p).Stale := by
    by_cases hp0 : p = 0
    · rw [h.other p fun hp => hp.ne_zero hp0]
      exact id
    · exact Job.not_stale_passeren
        (((h.own p (hg.uproc (Life.ne_unborn hready) hp0)).fits (.inl hready)).may hprog)
  unfold Sys.P
  simp only
  split_ifs with hpos
  · have hnone : x = .swapPoolSem → turn = none := by
      rintro rfl
      exact h.turn_none (hg.pool.free hpos)
    by_cases hp0 : p = 0
    · subst hp0
      exact h.test_answer hm hprog trivial
    · exact h.passes (hg.answering (.inl hready) hp0 hprog (passeren_effect hm)
        (h.passeren_admits hm hnone)) hm hnone
  · exact h.blocks hm hready (h.not_stale_of hrun hns)

/-- Who lives after another action lived before. -/
theorem Evolves.lived (h : Evolves s job home t job₁ home₁) {d : Did Word Act Word View}
    {tr : List (Obs Word)} (htrace : t.trace = .did d :: tr) (hd : d.a ≠ .getENTRYHI)
    (hp : (job₁ p).Lives) : (job p).Lives := by
  rcases h.settles p hp with hlives | ⟨-, -, d', tr', htrace', hd'⟩
  · exact hlives
  · rw [htrace] at htrace'
    cases htrace'
    exact absurd hd' hd

/-- A V, and the P that it lets pass. -/
theorem Evolves.woken (h : Evolves s job home t job₁ home₁)
    (h' : Evolves t job₁ home₁ u job₂ home₂)
    {v v' : View} (ht : t.trace = .did ⟨p, .verhogen x, 0, v⟩ :: s.trace)
    (hu : u.trace = .did ⟨q, .passeren x, 0, v'⟩ :: t.trace) :
    Evolves s job home u job₂ home₂ where
  kept y hy hy' := by
    have hlives := h'.lived hu nofun hy'
    exact (h'.kept y hlives hy').trans (h.kept y hy hlives)
  settles p hp := .inl (h.lived ht nofun (h'.lived hu nofun hp))
  taped p hp htaped he := by
    obtain ⟨h1, h2⟩ := h.taped p hp htaped (h'.early p he)
    obtain ⟨h3, h4⟩ := h'.taped p hp h1 he
    exact ⟨h3, fun v => (h4 v).trans (h2 v)⟩
  early p he := h.early p (h'.early p he)
  sees := by
    refine ⟨[_, _], by rw [hu, ht]; rfl, ?_⟩
    simp [Sees]

theorem PageInv.V (h : PageInv K job turn home s) (hg : s.Grounds) (hrun : s.running = some p)
    (hprog : (s.task p).prog = .act (.verhogen x) k) : PageStep K s job home (s.V p x) := by
  have hready := hg.locks.sane.running p hrun
  have hp0 : p ≠ 0 := (lockRules_may (hg.locks_may (.inl hready) hprog) id).1
  have hfree := hg.locks.sane.free hready
  obtain ⟨-, hfirst⟩ := hg.locks.upSem x
  unfold Sys.V
  simp only
  generalize ht : ({ s with sem := Function.update s.sem x (s.sem x).up } : Sys Word) = t
  have hm : Touched s t := by
    subst ht
    exact ⟨rfl, rfl, rfl, rfl, rfl, rfl, rfl, rfl⟩
  have ha : Answering K job s p (.verhogen x) k 0 t :=
    hg.answering (.inl hready) hp0 hprog (hm.effect (fun _ => rfl) (fun _ => rfl) fun _ => rfl) trivial
  have hprog' : (t.task p).prog = .act (.verhogen x) k := by rw [hm.task, hprog]
  have hvia : ∃ job₁ turn₁ home₁, PageInv K job₁ turn₁ home₁ (t.answer p 0) ∧
      Evolves s job home (t.answer p 0) job₁ home₁ ∧ (x = .swapPoolSem → turn₁ = none) := by
    by_cases hx : x = .swapPoolSem
    · subst hx
      obtain ⟨-, job₁, home₁, h1, h2⟩ := h.release ha hm.store hm.tlb
      exact ⟨job₁, none, home₁, h1, h2, fun _ => rfl⟩
    · obtain ⟨job₁, turn₁, home₁, h1, h2⟩ :=
        h.plain ha hx hm.store (by rw [hm.tlb]; exact h.tlb) trivial
      exact ⟨job₁, turn₁, home₁, h1, h2, fun hx' => absurd hx' hx⟩
  obtain ⟨job₁, turn₁, home₁, h1, h2, hnone⟩ := hvia
  cases hws : (s.sem x).waiters with
  | nil => exact ⟨job₁, turn₁, home₁, h1, h2⟩
  | cons q ws =>
    obtain ⟨hb, -, k', hprogq⟩ := hfirst q (by rw [hws]; rfl)
    have hqp : q ≠ p := fun heq => hfree.sem x (heq ▸ hws ▸ List.mem_cons_self)
    have htask : ((t.answer p 0).task q) = s.task q := (answer_of_ne hqp).1.trans (congrFun hm.task q)
    have hlife : (t.answer p 0).life q = .blocked :=
      ((answer_of_ne hqp).2.trans (congrFun hm.life q)).trans hb
    have hlog : (t.answer p 0).log = ⟨p, .verhogen x, 0, t.view⟩ :: s.log := by
      rw [answer_log hprog', hm.log]
    have hprogq' : ((t.answer p 0).task q).prog = .act (.passeren x) k' := by rw [htask, hprogq]
    have hself : Touched (t.answer p 0) (t.answer p 0) := ⟨rfl, rfl, rfl, rfl, rfl, rfl, rfl, rfl⟩
    have hsecond : PageStep K (t.answer p 0) job₁ home₁ ((t.answer p 0).answer q 0) := by
      by_cases hq0 : q = 0
      · subst hq0
        exact h1.test_answer hself hprogq' trivial
      · refine h1.passes ⟨?_, .inr hlife, hprogq', passeren_effect hself,
          h1.passeren_admits hself hnone, ?_, ?_⟩ hself hnone
        · exact hg.uproc (hb ▸ nofun) hq0
        · rw [hlog, place_cons_of_ne (Ne.symm hqp)]
          exact hg.locks_may (.inr hb) hprogq
        · rw [hlog, stage_cons_of_ne (Ne.symm hqp)]
          exact hg.disk_may (.inr hb) hprogq
    obtain ⟨job₂, turn₂, home₂, h3, h4⟩ := hsecond
    have htrace : (t.answer p 0).trace = .did ⟨p, .verhogen x, 0, t.view⟩ :: s.trace := by
      rw [answer_eq hprog', hm.store.trace]
    have htrace' : ((t.answer p 0).answer q 0).trace =
        .did ⟨q, .passeren x, 0, (t.answer p 0).view⟩ :: (t.answer p 0).trace := by
      rw [answer_eq hprogq']
    exact ⟨job₂, turn₂, home₂, h3, h2.woken h4 htrace htrace'⟩

/-! ## Devices -/

theorem PageInv.waitDev (h : PageInv K job turn home s) (hg : s.Grounds) {l d n : Word}
    (hrun : s.running = some p) (hprog : (s.task p).prog = .act (.waitio l d n) k) :
    PageStep K s job home (s.waitDev p (waitioIndex l d n) r) := by
  have hready := hg.locks.sane.running p hrun
  have hp0 : p ≠ 0 := (lockRules_may (hg.locks_may (.inl hready) hprog) id).1
  have hp := hg.uproc (Life.ne_unborn hready) hp0
  have hown := h.own p hp
  have hmay := (hown.fits (.inl hready)).may hprog
  have hdisk := hg.disk_may (.inl hready) hprog
  have hm : Touched s { s with
      dev := Function.update s.dev (waitioIndex l d n) ((s.dev (waitioIndex l d n)).down p) } :=
    ⟨rfl, rfl, rfl, rfl, rfl, rfl, rfl, rfl⟩
  simp only [diskRules] at hdisk
  unfold Sys.waitDev
  simp only
  by_cases hon : OnDisk0 l d n
  · -- the caller's command is in progress
    rw [if_pos hon] at hdisk
    have hvalue : (s.dev (waitioIndex l d n)).value = 0 := by
      rw [hon.2]
      exact hg.fits.dev_value hrun hdisk
    rw [if_neg (by omega)]
    refine h.blocks hm hready (h.not_stale_of hrun ?_)
    have hregs := hown.disk
    cases hstage : stage s.log p with
    | seeking w =>
      rw [hstage] at hregs
      obtain ⟨_, _, _, _, hmoves⟩ := hregs
      exact hmoves.not_stale
    | moving w =>
      rw [hstage] at hregs
      obtain ⟨_, _, _, _, hmoves, -⟩ := hregs
      exact hmoves.not_stale
    | _ =>
      rw [hstage] at hdisk
      exact hdisk.elim
  · have hns : ¬ (job p).Stale := by
      rcases hmay with hmay | hj | hj
      · exact absurd hmay.1 hon
      · rw [hj]
        exact id
      · rw [hj]
        exact id
    split_ifs with hpos
    · refine h.plain (hg.answering (.inl hready) hp0 hprog
        (hm.effect (fun _ => rfl) (fun _ => rfl) fun _ => rfl) fun hon' => absurd hon' hon) hon hm.store
        h.tlb trivial
    · exact h.blocks hm hready (h.not_stale_of hrun hns)

theorem PageInv.signal (h : PageInv K job turn home s) (hg : s.Grounds) {i status : Word}
    (hi : i ≠ 0) :
    PageStep K s job home (s.signal i status) := by
  have hm : Touched s { s with dev := Function.update s.dev i (s.dev i).up } :=
    ⟨rfl, rfl, rfl, rfl, rfl, rfl, rfl, rfl⟩
  obtain ⟨-, hfirst⟩ := hg.locks.upDev i
  unfold Sys.signal
  simp only
  cases hws : (s.dev i).waiters with
  | nil =>
    exact h.still ⟨fun _ _ _ => rfl, fun _ _ _ => .inl rfl, [], rfl, by simp⟩ (fun _ => rfl) rfl rfl
      h.tlb (fun _ _ => rfl) ⟨[], rfl, by simp⟩
  | cons q ws =>
    obtain ⟨hb, -, l, d, n, k, hprog, hindex⟩ := hfirst q (by rw [hws]; rfl)
    have hq0 : q ≠ 0 := (lockRules_may (hg.locks_may (.inr hb) hprog) id).1
    have hon : ¬ OnDisk0 l d n := fun hon => hi (hindex.symm.trans hon.2)
    exact h.plain (a := .waitio l d n) (hg.answering (.inr hb) hq0 hprog
      (hm.effect (fun _ => rfl) (fun _ => rfl) fun _ => rfl) fun hon' => absurd hon' hon) hon hm.store
      h.tlb trivial

/-- Disk 0 completes its command with `READY`. -/
theorem PageInv.diskInt (h : PageInv K job turn home s) (hK : Roomy K) (hg : s.Grounds)
    {status : Word} (hready : status &&& STATUSMASK = READY) (hbusy : s.disk.busy ≠ none)
    (hopen : s.Open) : PageStep K s job home (s.diskInt status) := by
  obtain ⟨command, hcommand⟩ := Option.ne_none_iff_exists'.mp hbusy
  obtain ⟨p, hb, hruns, hline⟩ := hg.fits.runs hcommand hopen
  obtain ⟨hblocked, l, d, n, k, hprog, hl, hindex⟩ :=
    hg.disk.sane.dev 0 p (hline ▸ List.mem_singleton_self p)
  have hp0 : p ≠ 0 := (lockRules_may (hg.locks_may (.inr hblocked) hprog) id).1
  have hon : OnDisk0 l d n := ⟨hl, hindex⟩
  have hout : stage s.log p ≠ .out := by
    intro hout
    rw [hout] at hb
    exact hb
  obtain ⟨h1, h2, h3, -, h5, h6, h7⟩ := s.transfer_same command
  unfold Sys.diskInt
  simp only [hcommand, hready, if_true]
  unfold Sys.signal
  simp only [h5, h7, hline, hready]
  generalize hm : ({ s.transfer command with
    dev := Function.update s.dev 0 (s.dev 0).up
    disk.busy := none
    trace := .done READY :: s.trace } : Sys Word) = m
  have hdone : s.Completed command m := by
    subst hm
    exact ⟨h1, h2, h3, h6, transfer_tlb .., rfl, rfl, rfl, rfl⟩
  exact h.completes hK (hg.answering (.inr hblocked) hp0 hprog (hdone.effect p) fun _ => rfl) hon
    (hg.mutex.others hg.disk hout) (hg.fits.fits p) hcommand hopen hdone

/-! ## Other actions -/

theorem PageInv.creates {c : Word} (h : PageInv K job turn home s) (hc : IsUProc c)
    (hborn : s.life c = .unborn) (hout : stage s.log c = .out)
    (htask : ∀ q, q ≠ c → m.task q = s.task q) (hchild : Abides K c .born .out (m.task c))
    (hlife : m.life = Function.update s.life c .ready) (hrun : m.running = s.running)
    (htables : m.tables = s.tables) (htlb : m.tlb = s.tlb) (hstore : SameStore s m)
    (hprog : (m.task 0).prog = .act a k) (hsees : Sees s job home (.did ⟨0, a, r, m.view⟩)) :
    PageStep K s job home (m.answer 0 r) := by
  have hown := h.own c hc
  obtain ⟨hj, hold⟩ := hown.unborn hborn
  have hc0 : c ≠ 0 := hc.ne_zero
  have hlog : (m.answer 0 r).log = ⟨0, a, r, m.view⟩ :: s.log := by
    rw [answer_log hprog, log_congr hstore.trace]
  obtain ⟨htables', hdisk', htlb', hram'⟩ := answer_store (r := r) hprog
  have hdisk := hdisk'.trans hstore.disk
  have hram : ∀ n : Word, n.toNat < POOLSIZE →
      (m.answer 0 r).ram (frameAddr K n) = s.ram (frameAddr K n) :=
    fun n _ => by rw [hram', hstore.ram]
  have hready : (m.answer 0 r).life c = .ready := by
    rw [(answer_of_ne hc0).2, hlife, Function.update_self]
  have hby : By s c (m.answer 0 r) := by
    refine ⟨fun q hq hqc => ?_, fun q hq hqc => .inl ?_, [_], hlog, ?_⟩
    · rw [(answer_of_ne hq.ne_zero).1, htask q hqc]
    · rw [(answer_of_ne hq.ne_zero).2, hlife, Function.update_of_ne hqc]
    · rw [List.forall_mem_singleton]
      exact .inr fun h0 => h0.ne_zero rfl
  have hcontent := h.content_same hdisk hram
  refine ⟨_, turn, home, h.update (j := .born) hc hby ⟨fun _ => ?_, fun hb => ?_, fun hd => ?_, ?_,
    fun hsig => ?_, nofun, nofun, ?_⟩ (turn_same h.holder (by rw [hj]))
    (fun q _ _ _ => ⟨htables'.trans htables, fun _ => (answer_lines m 0 r).2.2.trans hrun⟩)
    (fun q _ v => by rw [htables', htables]; exact id)
    (fun q hq _ => (diskRegs_congr hdisk).mpr (h.own q hq).disk) ?_ ?_
    (fun q v n => h.arrived_same (htables'.trans htables) hdisk hram),
    .update hby (fun x _ _ => congrFun hcontent x) (fun q v _ _ => ?_) False.elim (fun ht => ?_)
      (fun _ => hj ▸ trivial) ⟨[.did ⟨0, a, r, m.view⟩], ?_, ?_⟩⟩
  · rw [hlog, stage_cons_of_ne hc0.symm, hout, (answer_of_ne hc0).1]
    exact hchild
  · nomatch hready.symm.trans hb
  · nomatch hready.symm.trans hd
  · rw [hlog, holds_cons_of_ne hc0.symm, hown.holds, hj]
  · rw [hlog, place_cons_of_ne hc0.symm] at hsig
    exact hj.symm.trans (hown.signalled hsig)
  · rw [hlog, stage_cons_of_ne hc0.symm, hout]
    exact trivial
  · rw [htables', htables]
    exact h.ledger.setLives (update_imp (P := Job.Lives) fun hl => hj ▸ hl)
      (update_imp (P := Job.Gone) fun hg => hj ▸ hg)
  · rw [htlb', htlb, htables', htables]
    exact h.tlb
  · exact congrFun (backing_congr (congrArg Disk.block hdisk)) _
  · exact absurd hborn ht.1.not_unborn
  · rw [answer_eq hprog, hstore.trace]
    rfl
  · rw [List.forall_mem_singleton]
    exact hsees

theorem PageInv.createprocess (h : PageInv K job turn home s) (hg : s.Grounds)
    {sAsid sStatus : Word} (hprog : (s.task 0).prog = .act (.createprocess sAsid sStatus) k)
    (hc : IsUProc (asidOf sAsid)) :
    PageStep K s job home (s.perform (kaya K junk) 0 r (.createprocess sAsid sStatus)) := by
  have hchild : (kaya K junk).child sAsid = asidOf sAsid := rfl
  simp only [Sys.perform, hchild]
  split_ifs with hborn
  · generalize htk : ({ s.task (asidOf sAsid) with
      prog := (kaya K junk).start (asidOf sAsid)
      status := popStatus sStatus
      entryHi := sAsid
      new := fun _ => none } : Task) = tk
    have hstart : Abides K (asidOf sAsid) .born .out tk := by
      subst htk
      exact .start hc.lt rfl rfl rfl ((h.own _ hc).unborn hborn).2
    have hself : Function.update s.task (asidOf sAsid) tk 0 = s.task 0 :=
      Function.update_of_ne hc.ne_zero.symm ..
    refine h.creates hc hborn (hg.disk.stage_unborn hborn) (fun q hq => Function.update_of_ne hq ..) ?_
      rfl rfl rfl rfl ⟨rfl, rfl, rfl⟩ ((congrArg Task.prog hself).trans hprog) trivial
    change Abides K (asidOf sAsid) .born .out (Function.update s.task (asidOf sAsid) tk (asidOf sAsid))
    rw [Function.update_self]
    exact hstart
  · exact h.test_answer ⟨rfl, rfl, rfl, rfl, rfl, rfl, rfl, rfl⟩ hprog trivial

/-- The effect of an action on one process. -/
theorem PageInv.perform (h : PageInv K job turn home s) (hK : Roomy K) (hg : s.Grounds)
    (hrun : s.running = some p) (hp : IsUProc p) (hprog : (s.task p).prog = .act a k)
    (hseg : ∀ va, a = .load va → va >>> 30 ≠ 3) :
    PageStep K s job home (s.perform (kaya K junk) p r a) := by
  have hready := hg.locks.sane.running p hrun
  have hown := h.own p hp
  have habides := hown.fits (.inl hready)
  have hmay := habides.may hprog
  have hself : Touched s s := ⟨rfl, rfl, rfl, rfl, rfl, rfl, rfl, rfl⟩
  have hplain : ∀ m r, a.Plain → s.Effect p a m → SameStore s m → m.tlb = s.tlb →
      Sees s job home (.did ⟨p, a, r, m.view⟩) →
        (pageRules K p).admits (job p, stage s.log p) a r m.view →
          PageStep K s job home (m.answer p r) := by
    intro m r ha heff hstore htlb hsees hadm
    refine h.plain (hg.answering (.inl hready) hp.ne_zero hprog heff hadm) ha hstore ?_ hsees
    rw [htlb]
    exact h.tlb
  cases a with
  | passeren x => exact h.P hg hrun hprog
  | verhogen x => exact h.V hg hrun hprog
  | waitio l d n =>
    have hl : ¬ l < DISKINT := (lockRules_may (hg.locks_may (.inl hready) hprog) id).2.2
    simp only [Sys.perform, if_neg hl]
    exact h.waitDev hg hrun hprog
  | createprocess => exact hmay.elim
  | spectrapvec trap new =>
    obtain ⟨-, -, hj⟩ := hmay
    have hnone : (s.task p).new trap = none := by
      refine (habides.lacks (fun hend => by cases hj.symm.trans hend) trap).mpr ?_
      rw [hj]
      exact le_refl trap.number
    simp only [Sys.perform, if_pos hnone]
    exact hplain _ _ trivial ⟨rfl, rfl, rfl, Function.update_self .., fun q hq => Function.update_of_ne hq ..,
      rfl⟩ ⟨rfl, rfl, rfl⟩ rfl trivial trivial
  | getSTATUS | setData1 | getData1 =>
    exact hplain s _ trivial (hself.effect (fun _ => rfl) (fun _ => rfl) fun _ => rfl) hself.store rfl
      trivial trivial
  | getENTRYHI =>
    refine hplain s _ trivial (hself.effect (fun _ => rfl) (fun _ => rfl) fun _ => rfl) hself.store rfl
      trivial ?_
    exact habides.asid.resolve_right fun hdone => by cases hprog.symm.trans hdone
  | setSTATUS status =>
    exact hplain _ _ trivial ⟨rfl, rfl, rfl, Function.update_self .., fun q hq => Function.update_of_ne hq ..,
      rfl⟩ ⟨rfl, rfl, rfl⟩ rfl trivial trivial
  | TLBCLR =>
    exact h.flush (hg.answering (.inl hready) hp.ne_zero hprog ⟨rfl, rfl, rfl, rfl, fun _ _ => rfl, rfl⟩
      trivial) ⟨rfl, rfl, rfl⟩ rfl
  | setCommand reg v =>
    have hdisk := hg.disk_may (.inl hready) hprog
    simp only [Sys.perform]
    split_ifs with hreg
    · subst hreg
      refine h.setCommand (hg.answering (.inl hready) hp.ne_zero hprog
        ⟨rfl, rfl, rfl, rfl, fun _ _ => rfl, rfl⟩ trivial) (hg.mutex.others hg.disk ?_) fun w b hstage => ?_
      · simp only [diskRules, if_true] at hdisk
        rcases hdisk with ⟨hstage, -⟩ | ⟨w, hstage⟩ <;> rw [hstage] <;> simp
      · have hfits := hg.fits.fits p
        rw [hstage] at hfits
        exact hfits.2
    · exact hplain s _ hreg (hself.effect (fun _ => rfl) (fun _ => rfl) fun _ => rfl) hself.store rfl
        trivial trivial
  | setData0 reg v =>
    have hdisk := hg.disk_may (.inl hready) hprog
    simp only [Sys.perform]
    split_ifs with hreg
    · subst hreg
      refine h.setData0 (hg.answering (.inl hready) hp.ne_zero hprog
        ⟨rfl, rfl, rfl, rfl, fun _ _ => rfl, rfl⟩ trivial) (hg.mutex.others hg.disk ?_)
      simp only [diskRules, if_true] at hdisk
      obtain ⟨w, b, hstage⟩ := hdisk
      simp [hstage]
    · exact hplain s _ hreg (hself.effect (fun _ => rfl) (fun _ => rfl) fun _ => rfl) hself.store rfl
        trivial trivial
  | tables f =>
    refine h.rewrites hK (hg.answering (.inl hready) hp.ne_zero hprog
      ⟨rfl, rfl, rfl, rfl, fun _ _ => rfl, rfl⟩ ?_) hrun ⟨rfl, rfl, rfl⟩ rfl
    intro tb b ph hj
    rw [(hown.pool tb b ph hj).1]
  | load va =>
    have hj : job p = .idle := hmay
    have hout : stage s.log p = .out := hg.disk_may (.inl hready) hprog
    simp only [Sys.perform]
    refine h.access (P := PageStep K s job home) hK hp hready hrun hj hout ?_ (.inl rfl) (hseg va rfl)
      (fun _ => id) fun tlb frame hpresent hhome htlb => ?_
    · exact fun hdone => by cases hprog.symm.trans hdone
    · refine h.plain (hg.answering (.inl hready) hp.ne_zero hprog ⟨rfl, rfl, rfl, rfl, fun _ _ => rfl, rfl⟩
        trivial) trivial ⟨rfl, rfl, rfl⟩ (fun _ => htlb) ?_
      exact ⟨hj ▸ trivial, hpresent, (wordAt_of_home hhome).symm⟩

/-! ## All steps -/

theorem uproc_of_create {n : Nat} (hn : n < MAXUPROC) : IsUProc (BitVec.ofNat 32 (n + 1)) := by
  have hmax : MAXUPROC = 2 := rfl
  have hcases : n = 0 ∨ n = 1 := by omega
  rcases hcases with rfl | rfl <;> exact ⟨by decide, by decide⟩

theorem PageInv.test_goes (h : PageInv K job turn home s) (hg : s.Grounds)
    (hrun : s.running = some 0) :
    PageStep K s job home (s.go (kaya K junk) 0 r) := by
  have hready := hg.locks.sane.running 0 hrun
  have hfollows := hg.locks.keeps.prog 0 (.inl hready)
  have hsame : PageStep K s job home s :=
    h.still ⟨fun _ _ _ => rfl, fun _ _ _ => .inl rfl, [], rfl, by simp⟩ (fun _ => rfl) rfl rfl h.tlb
      (fun _ _ => rfl) ⟨[], rfl, by simp⟩
  unfold Sys.go
  cases hprog : (s.task 0).prog with
  | done => exact hsame
  | leave l =>
    rw [hprog] at hfollows
    obtain ⟨rfl, hpassed⟩ : l = .terminateprocess ∧ (place false s.log 0).passed = MAXUPROC :=
      hfollows
    have hallowed := hg.locks.keeps.allowed
    refine h.ends fun p hp => (h.own p hp).signalled ?_
    rw [← signalled_iff hallowed]
    refine all_signalled hallowed (numbers_of_live hg.locks hg.places) ?_ hp
    have hrel := hg.balanced.released
    rwa [passed_eq hallowed, hpassed] at hrel
  | act a k =>
    have hmay : testRules.may (place false s.log 0) a := hg.locks_may (.inl hready) hprog
    cases a with
    | passeren x => exact h.P hg hrun hprog
    | createprocess sAsid sStatus =>
      obtain ⟨hlt, hasid⟩ := hmay
      exact h.createprocess hg hprog (hasid ▸ uproc_of_create hlt)
    | _ => exact hmay.elim

def loads : Prog → Option Word
  | .act (.load virtAddr) _ => some virtAddr
  | _ => none

/-- What is asked of an event: disk 0 answers `READY`, tapes write to their own buffers, and nobody
accesses kUseg3. -/
def Fair (s : Sys Word) : Event Word → Prop
  | .step _ => ∀ p ∈ s.running, ∀ virtAddr ∈ loads (s.task p).prog, virtAddr >>> 30 ≠ 3
  | .user (.load virtAddr) | .user (.store virtAddr _) => virtAddr >>> 30 ≠ 3
  | .diskInt status => status &&& STATUSMASK = READY
  | .tapeDma asid _ => IsUProc asid
  | _ => True

def fairNow (s : Sys Word) : Event Word → Bool
  | .step _ => s.running.all fun p => (loads (s.task p).prog).all fun va : Word => va >>> 30 ≠ 3
  | .user (.load virtAddr) | .user (.store virtAddr _) => virtAddr >>> 30 ≠ 3
  | .diskInt status => status &&& STATUSMASK = READY
  | .tapeDma asid _ => 0 < asid.toNat ∧ asid.toNat ≤ MAXUPROC
  | _ => true

theorem fairNow_iff {e : Event Word} : s.fairNow e = true ↔ s.Fair e := by
  cases e with
  | step r => simp [fairNow, Fair, Option.all_eq_true]
  | user act => cases act <;> simp [fairNow, Fair]
  | tapeDma asid block => simp [fairNow, Fair, IsUProc]
  | _ => simp [fairNow, Fair]

instance (s : Sys Word) : DecidablePred s.Fair := fun _ => decidable_of_iff _ fairNow_iff

theorem PageInv.device (h : PageInv K job turn home s) (hK : Roomy K) {e : Event Word}
    (he : (∃ asid block, IsUProc asid ∧ e = .tapeDma asid block) ∨
      ∃ p page, e = .tlbDrop p page) :
    PageStep K s job home (s.step (kaya K junk) e) := by
  have hby : ∀ t : Sys Word, t.task = s.task → t.life = s.life → t.log = s.log → By s 0 t :=
    fun t h1 h2 h3 =>
      ⟨fun q _ _ => congrFun h1 q, fun q _ _ => .inl (congrFun h2 q), [], h3, by simp⟩
  rcases he with ⟨asid, block, hasid, rfl⟩ | ⟨p, page, rfl⟩
  · refine h.still (hby _ rfl rfl rfl) (fun _ => rfl) rfl rfl h.tlb (fun n hn => ?_)
      ⟨[], rfl, by simp⟩
    exact Function.update_of_ne (frameAddr_ne hK hn hasid) ..
  · refine h.still (hby _ rfl rfl rfl) (fun _ => rfl) rfl rfl (fun hns q page' e hq he => ?_)
      (fun _ _ => rfl) ⟨[], rfl, by simp⟩
    have he : Function.update s.tlb p (Function.update (s.tlb p) page none) q page' = some e := he
    refine h.tlb hns q page' e hq ?_
    by_cases hqp : q = p
    · subst hqp
      rw [Function.update_self] at he
      by_cases hpage : page' = page
      · rw [hpage, Function.update_self] at he
        nomatch he
      · rwa [Function.update_of_ne hpage] at he
    · rwa [Function.update_of_ne hqp] at he

theorem PageInv.step (h : PageInv K job turn home s) (hK : Roomy K) (hg : s.Halted ∨ s.Grounds)
    {e : Event Word} (hcan : s.Can e) (hfair : s.Fair e) :
    PageMove K s job home (s.step (kaya K junk) e) := by
  have hrunning : ∀ p, s.running = some p → s.Grounds := by
    intro p hrun
    refine hg.resolve_left fun hhalt => ?_
    rw [hhalt.running] at hrun
    nomatch hrun
  have hopen : s.Open → s.Grounds := fun hopen => hg.resolve_left hopen.1
  cases e with
  | step r =>
    obtain ⟨p, hrun, -⟩ := hcan
    have hg := hrunning p hrun
    have hready := hg.locks.sane.running p hrun
    refine .inl ?_
    simp only [Sys.step, hrun]
    by_cases hp0 : p = 0
    · subst hp0
      exact h.test_goes hg hrun
    · have hp := hg.uproc (Life.ne_unborn hready) hp0
      unfold Sys.go
      cases hprog : (s.task p).prog with
      | done =>
        exact h.still ⟨fun _ _ _ => rfl, fun _ _ _ => .inl rfl, [], rfl, by simp⟩ (fun _ => rfl) rfl
          rfl h.tlb (fun _ _ => rfl) ⟨[], rfl, by simp⟩
      | leave l => exact h.leaves hp hready hrun hprog
      | act a k =>
        refine h.perform hK hg hrun hp hprog ?_
        rintro va rfl
        exact hfair p hrun va (by rw [hprog]; rfl)
  | user act =>
    obtain ⟨p, hrun, hmode, hposs⟩ := hcan
    have hg := hrunning p hrun
    have hready := hg.locks.sane.running p hrun
    have hp0 : p ≠ 0 := by
      rintro rfl
      have hfollows := hg.locks.keeps.prog 0 (.inl hready)
      unfold Task.InUserMode at hmode
      split at hmode
      · rename_i hprog
        rw [hprog] at hfollows
        cases hfollows.1
      · exact hmode.elim
    simp only [Sys.step, hrun]
    refine h.user hK (hg.uproc (Life.ne_unborn hready) hp0) hready hrun hmode hposs ?_
    rintro va (rfl | ⟨v, rfl⟩) <;> exact hfair
  | dispatch p =>
    have hns := h.not_stale hcan.2
    exact .inl (h.still ⟨fun _ _ _ => rfl, fun _ _ _ => .inl rfl, [], rfl, by simp⟩
      (fun hs => absurd hs hns) rfl rfl h.tlb (fun _ _ => rfl) ⟨[], rfl, by simp⟩)
  | diskInt status => exact .inl (h.diskInt hK (hopen hcan.2) hfair hcan.1 hcan.2)
  | devInt i status => exact .inl (h.signal (hopen hcan.2) hcan.1)
  | tapeDma asid block => exact .inl (h.device hK (.inl ⟨asid, block, hfair, rfl⟩))
  | tlbDrop p page => exact .inl (h.device hK (.inr ⟨p, page, rfl⟩))

end Sys

end Kaya.Phase3
