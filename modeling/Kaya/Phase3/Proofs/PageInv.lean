import Kaya.Phase3.Proofs.DiskInv
import Kaya.Phase3.Proofs.PageTasks

/-!
# Pages during a run

The invariant of the pager: what each process is about, where its pages are, and that the tables,
the TLB and the registers of disk 0 agree with that.
-/

namespace Kaya.Phase3

open Lib Lib.Paging

/-- Tables and TLB may differ. -/
def Turn.Stale (turn : Turn) : Prop := ∃ p ph, turn = some (p, ph) ∧ ph.Stale

namespace Sys

/-- What the backing store holds for a page. -/
def backing (s : Sys Word) (x : Word × Word) : Page := s.disk.block x.2 0 (x.1 - 1)

def content (home : Word × Word → Option Word) (s : Sys Word) : Word × Word → Page :=
  contents home s.ram s.backing

def Taped (s : Sys Word) (p : Word) : Prop := s.Alive p ∧ (s.task p).prog = afterTape p

/-- What the registers of disk 0 hold in a call of `p`. -/
def DiskRegs (K : Layout) (s : Sys Word) (p : Word) (j : Job) : Stage → Prop
  | .seeking _ | .positioned _ _ => ∃ cyl sector buf command, Transfers K p j cyl sector buf command
  | .loaded _ _ => ∃ cyl sector buf command, Transfers K p j cyl sector buf command ∧
      s.disk.data0 = buf
  | .moving w => ∃ cyl sector buf command, Transfers K p j cyl sector buf command ∧
      w = seekTo cyl ∧ s.disk.data0 = buf ∧ s.disk.busy = some (moveTo sector command) ∧
        s.disk.cyl = cylOf w
  | _ => True

/-- What holds of process `p`. -/
structure Accounts (K : Layout) (p : Word) (j : Job) (s : Sys Word) : Prop where
  fits : s.Alive p → Abides K p j (stage s.log p) (s.task p)
  unborn : s.life p = .unborn → j = .born ∧ ∀ trap, ((s.task p).old trap).prog = .done ()
  dead : s.life p = .dead → j = .ended
  holds : Holds .swapPoolSem p s.log ↔ j.phase ≠ none
  signalled : (place false s.log p).signalled = true → j = .ended
  pool : ∀ t b ph, j = .pool t b ph → s.tables = t ∧ (b = true → ¬ (s.task p).Open) ∧
    (ph.Stale → b = true ∧ s.running = some p)
  fault : ∀ v, j = .fault (some v) → v.toNat < MAXPAGES ∧ ¬ Valid (s.tables.entryOf (p, v))
  disk : DiskRegs K s p j (stage s.log p)

structure PageInv (K : Layout) (job : Word → Job) (turn : Turn)
    (home : Word × Word → Option Word) (s : Sys Word) : Prop where
  own : ∀ p, IsUProc p → Accounts K p (job p) s
  other : ∀ p, ¬ IsUProc p → job p = .born
  holder : ∀ p ph, turn = some (p, ph) ↔ (job p).phase = some ph
  ledger : Ledger K (fun p => (job p).Lives) (fun p => (job p).Gone) turn home s.tables
  tlb : ¬ turn.Stale → ∀ p page e, IsUProc p → s.tlb p page = some e →
    pte s.tables p page = some e
  arrived : ∀ p v k, turn = some (p, .arrived v k) →
    s.ram (frameAddr K s.tables.frameNo) = s.backing (p, v)

/-- The page is one of kUseg2 that the tables have. -/
def Present (virtAddr : Word) : Prop :=
  virtAddr >>> 30 = 2 ∧ HasPage ((virtAddr &&& 0x3FFFF000) >>> 12)

def pageIndex (virtAddr : Word) : Word := clip ((virtAddr &&& 0x3FFFF000) >>> 12)

def wordAt (home : Word × Word → Option Word) (s : Sys Word) (p virtAddr : Word) : Word :=
  s.content home (p, pageIndex virtAddr) (virtAddr &&& 0xFFF)

/-- What an observation says of memory. -/
def Sees (s : Sys Word) (job : Word → Job) (home : Word × Word → Option Word) : Obs Word → Prop
  | .loaded p virtAddr v => (job p).Lives ∧ Present virtAddr ∧ v = s.wordAt home p virtAddr
  | .did ⟨p, .load virtAddr, v, _⟩ =>
      (job p).Lives ∧ Present virtAddr ∧ v = s.wordAt home p virtAddr
  | .stored _ _ _ => False
  | .done status => status = READY
  | _ => True

/-- What a step that stores nothing does to the pages. -/
structure Evolves (s : Sys Word) (job : Word → Job) (home : Word × Word → Option Word)
    (t : Sys Word) (job' : Word → Job) (home' : Word × Word → Option Word) : Prop where
  kept : ∀ x, (job x.1).Lives → (job' x.1).Lives → t.content home' x = s.content home x
  settles : ∀ p, (job' p).Lives → (job p).Lives ∨
    s.Taped p ∧ (∀ v, t.content home' (p, v) = s.backing (p, v)) ∧
      ∃ d tr, t.trace = .did d :: tr ∧ d.a = .getENTRYHI
  taped : ∀ p, IsUProc p → s.Taped p → (job' p).Early →
    t.Taped p ∧ ∀ v, t.backing (p, v) = s.backing (p, v)
  early : ∀ p, (job' p).Early → (job p).Early
  sees : ∃ l, t.trace = l ++ s.trace ∧ ∀ o ∈ l, Sees s job home o

/-- The invariant goes on to hold. -/
def PageStep (K : Layout) (s : Sys Word) (job : Word → Job) (home : Word × Word → Option Word)
    (t : Sys Word) : Prop :=
  ∃ job' turn' home', PageInv K job' turn' home' t ∧ Evolves s job home t job' home'

variable {K : Layout} {job job' : Word → Job} {turn turn' : Turn}
  {home home' : Word × Word → Option Word} {s t m : Sys Word} {p q : Word} {j j' : Job}
  {g : Stage} {a : Act} {k : Word → Prog} {r : Word}

/-! ## What the parts rest on -/

theorem backing_congr (h : t.disk.block = s.disk.block) : t.backing = s.backing := by
  funext x
  rw [backing, backing, h]

theorem content_congr (hram : t.ram = s.ram) (hback : t.backing = s.backing) :
    t.content home = s.content home := by
  rw [content, content, hram, hback]

/-- Only process `p` did something, or `test`; others may have begun to wait. -/
structure By (s : Sys Word) (p : Word) (t : Sys Word) : Prop where
  task : ∀ q, IsUProc q → q ≠ p → t.task q = s.task q
  life : ∀ q, IsUProc q → q ≠ p → t.life q = s.life q ∨ s.Alive q ∧ t.Alive q
  log : ∃ l, t.log = l ++ s.log ∧ ∀ d ∈ l, d.p = p ∨ ¬ IsUProc d.p

theorem By.same (h : By s p t) (hq : IsUProc q) (hqp : q ≠ p) :
    stage t.log q = stage s.log q ∧ place false t.log q = place false s.log q ∧
      (Holds .swapPoolSem q t.log ↔ Holds .swapPoolSem q s.log) := by
  obtain ⟨l, hl, hown⟩ := h.log
  rw [hl]
  clear hl
  induction l with
  | nil => exact ⟨rfl, rfl, Iff.rfl⟩
  | cons d l ih =>
    rw [List.forall_mem_cons] at hown
    have hdq : d.p ≠ q := by
      rintro rfl
      exact hown.1.elim hqp fun h => h hq
    obtain ⟨h1, h2, h3⟩ := ih hown.2
    exact ⟨(stage_cons_of_ne hdq).trans h1, (place_cons_of_ne hdq).trans h2,
      (holds_cons_of_ne hdq).trans h3⟩

theorem By.alive (h : By s p t) (hq : IsUProc q) (hqp : q ≠ p) :
    (t.Alive q ↔ s.Alive q) ∧ (¬ s.Alive q → t.life q = s.life q) := by
  rcases h.life q hq hqp with heq | ⟨hs, ht⟩
  · rw [Alive, Alive, heq]
    exact ⟨Iff.rfl, fun _ => rfl⟩
  · exact ⟨iff_of_true ht hs, fun hn => absurd hs hn⟩

/-- What the others know stays true. -/
theorem Accounts.others (h : Accounts K q j s) (hby : By s p t) (hq : IsUProc q) (hqp : q ≠ p)
    (hpool : j.phase ≠ none → t.tables = s.tables ∧ (j.Stale → t.running = s.running))
    (hfault : ∀ v, ¬ Valid (s.tables.entryOf (q, v)) → ¬ Valid (t.tables.entryOf (q, v)))
    (hdisk : DiskRegs K t q j (stage s.log q)) : Accounts K q j t := by
  obtain ⟨hstage, hplace, hholds⟩ := hby.same hq hqp
  have htask := hby.task q hq hqp
  obtain ⟨halive, hlife⟩ := hby.alive hq hqp
  have hnot : ¬ t.Alive q → t.life q = s.life q := fun hn => hlife fun hs => hn (halive.mpr hs)
  constructor
  case fits =>
    rw [halive, hstage, htask]
    exact h.fits
  case unborn =>
    intro hb
    have heq := hnot fun ha => ha.not_unborn hb
    rw [htask]
    exact h.unborn (heq.symm.trans hb)
  case dead =>
    intro hd
    exact h.dead ((hnot fun ha => ha.not_dead hd).symm.trans hd)
  case holds => exact hholds.trans h.holds
  case signalled =>
    rw [hplace]
    exact h.signalled
  case pool =>
    rintro tb b ph rfl
    obtain ⟨h1, h2, h3⟩ := h.pool tb b ph rfl
    obtain ⟨htables, hrun⟩ := hpool Job.pool_phase
    rw [htables, htask]
    refine ⟨h1, h2, fun hstale => ⟨(h3 hstale).1, ?_⟩⟩
    rw [hrun hstale]
    exact (h3 hstale).2
  case fault =>
    intro v hv
    obtain ⟨hlt, hinv⟩ := h.fault v hv
    exact ⟨hlt, hfault v hinv⟩
  case disk =>
    rw [hstage]
    exact hdisk

theorem PageInv.update (h : PageInv K job turn home s) (hp : IsUProc p) (hby : By s p t)
    (hown : Accounts K p j t)
    (hturn : ∀ q ph, turn' = some (q, ph) ↔ (Function.update job p j q).phase = some ph)
    (hpool : ∀ q, IsUProc q → q ≠ p → (job q).phase ≠ none →
      t.tables = s.tables ∧ ((job q).Stale → t.running = s.running))
    (hfault : ∀ q, q ≠ p → ∀ v, ¬ Valid (s.tables.entryOf (q, v)) →
      ¬ Valid (t.tables.entryOf (q, v)))
    (hdisk : ∀ q, IsUProc q → q ≠ p → DiskRegs K t q (job q) (stage s.log q))
    (hledger : Ledger K (fun q => (Function.update job p j q).Lives)
      (fun q => (Function.update job p j q).Gone) turn' home' t.tables)
    (htlb : ¬ turn'.Stale → ∀ q page e, IsUProc q → t.tlb q page = some e →
      pte t.tables q page = some e)
    (harrived : ∀ q v k, turn' = some (q, .arrived v k) →
      t.ram (frameAddr K t.tables.frameNo) = t.backing (q, v)) :
    PageInv K (Function.update job p j) turn' home' t where
  own q hq := by
    by_cases hqp : q = p
    · subst hqp
      rw [Function.update_self]
      exact hown
    · rw [Function.update_of_ne hqp]
      exact (h.own q hq).others hby hq hqp (hpool q hq hqp) (hfault q hqp) (hdisk q hq hqp)
  other q hq := by
    have hqp : q ≠ p := by
      rintro rfl
      exact hq hp
    rw [Function.update_of_ne hqp]
    exact h.other q hq
  holder := hturn
  ledger := hledger
  tlb := htlb
  arrived := harrived

/-! ## Turns -/

/-- The turn after a step of a process that holds `swapPoolSem`, or could take it. -/
theorem turn_update (h : ∀ q ph, turn = some (q, ph) ↔ (job q).phase = some ph)
    (hone : turn = none ∨ (job p).phase ≠ none) (q : Word) (ph : Phase) :
    (j.phase.map fun ph => (p, ph)) = some (q, ph) ↔
      (Function.update job p j q).phase = some ph := by
  by_cases hqp : q = p
  · subst hqp
    rw [Function.update_self, Option.map_eq_some_iff]
    constructor
    · rintro ⟨_, hph, ⟨⟩⟩
      exact hph
    · exact fun hph => ⟨ph, hph, rfl⟩
  · rw [Function.update_of_ne hqp]
    refine iff_of_false (fun heq => ?_) fun hq => ?_
    · obtain ⟨_, -, ⟨⟩⟩ := Option.map_eq_some_iff.mp heq
      exact hqp rfl
    · have hturn := (h q ph).mpr hq
      rcases hone with hnone | hsome
      · rw [hnone] at hturn
        nomatch hturn
      · obtain ⟨ph', hph'⟩ := Option.ne_none_iff_exists'.mp hsome
        rw [(h p ph').mpr hph'] at hturn
        cases hturn
        exact hqp rfl

/-- The turn does not change with a job that stays in its phase. -/
theorem turn_same (h : ∀ q ph, turn = some (q, ph) ↔ (job q).phase = some ph)
    (hphase : j'.phase = (job p).phase) (q : Word) (ph : Phase) :
    turn = some (q, ph) ↔ (Function.update job p j' q).phase = some ph := by
  refine (h q ph).trans ?_
  by_cases hqp : q = p
  · subst hqp
    rw [Function.update_self, hphase]
  · rw [Function.update_of_ne hqp]

/-- What stays true of the job of a process stays true of all. -/
theorem update_imp {P : Job → Prop} (h : P (job p) → P j') (q : Word) (hq : P (job q)) :
    P (Function.update job p j' q) := by
  by_cases hqp : q = p
  · subst hqp
    rw [Function.update_self]
    exact h hq
  · rw [Function.update_of_ne hqp]
    exact hq

/-- At most one process has the turn. -/
theorem PageInv.alone (h : PageInv K job turn home s) (hp : (job p).phase ≠ none)
    (hqp : q ≠ p) : (job q).phase = none := by
  by_contra hq
  obtain ⟨ph, hph⟩ := Option.ne_none_iff_exists'.mp hp
  obtain ⟨ph', hph'⟩ := Option.ne_none_iff_exists'.mp hq
  have hturn := (h.holder p ph).mpr hph
  rw [(h.holder q ph').mpr hph'] at hturn
  cases hturn
  exact hqp rfl

theorem PageInv.holder_of (h : PageInv K job turn home s) {ph : Phase} (hturn : turn = some (q, ph)) :
    IsUProc q ∧ ∃ t b, job q = .pool t b ph := by
  have hphase := (h.holder q ph).mp hturn
  constructor
  · by_contra hq
    rw [h.other q hq] at hphase
    nomatch hphase
  · cases hj : job q with
    | pool t b ph' =>
      rw [hj] at hphase
      injection hphase with hph
      exact ⟨t, b, hph ▸ rfl⟩
    | _ =>
      rw [hj] at hphase
      nomatch hphase

/-- Where an interrupt is possible the TLB agrees with the tables. -/
theorem PageInv.not_stale (h : PageInv K job turn home s) (hopen : s.Open) : ¬ turn.Stale := by
  rintro ⟨q, ph, hturn, hs⟩
  obtain ⟨hq, t, b, hj⟩ := h.holder_of hturn
  obtain ⟨-, hshut, hrun⟩ := (h.own q hq).pool t b ph hj
  exact hshut (hrun hs).1 (hopen.2 q (hrun hs).2)

/-- While another process runs, or the holder does something else. -/
theorem PageInv.not_stale_of (h : PageInv K job turn home s) (hrun : s.running = some p)
    (hj : ¬ (job p).Stale) : ¬ turn.Stale := by
  rintro ⟨q, ph, hturn, hs⟩
  obtain ⟨hq, t, b, hjq⟩ := h.holder_of hturn
  have hrun' := (((h.own q hq).pool t b ph hjq).2.2 hs).2
  obtain rfl := Option.some.inj (hrun.symm.trans hrun')
  rw [hjq] at hj
  exact hj hs

/-- What a step of one process does to the pages. -/
theorem Evolves.update (hby : By s p t)
    (hcontent : ∀ x, (job x.1).Lives → (Function.update job p j' x.1).Lives →
      t.content home' x = s.content home x)
    (hback : ∀ q v, q ≠ p → (job q).Early → t.backing (q, v) = s.backing (q, v))
    (hlives : j'.Lives → (job p).Lives ∨
      s.Taped p ∧ (∀ v, t.content home' (p, v) = s.backing (p, v)) ∧
        ∃ d tr, t.trace = .did d :: tr ∧ d.a = .getENTRYHI)
    (htaped : s.Taped p → ¬ j'.Early) (hearly : j'.Early → (job p).Early)
    (hsees : ∃ l, t.trace = l ++ s.trace ∧ ∀ o ∈ l, Sees s job home o) :
    Evolves s job home t (Function.update job p j') home' where
  kept := hcontent
  settles q hq := by
    by_cases hqp : q = p
    · subst hqp
      rw [Function.update_self] at hq
      exact hlives hq
    · rw [Function.update_of_ne hqp] at hq
      exact .inl hq
  taped q hq ht he := by
    by_cases hqp : q = p
    · subst hqp
      rw [Function.update_self] at he
      exact absurd he (htaped ht)
    · rw [Function.update_of_ne hqp] at he
      refine ⟨?_, fun v => hback q v hqp he⟩
      rw [Taped, (hby.alive hq hqp).1, hby.task q hq hqp]
      exact ht
  early q hq := by
    by_cases hqp : q = p
    · subst hqp
      rw [Function.update_self] at hq
      exact hearly hq
    · rw [Function.update_of_ne hqp] at hq
      exact hq
  sees := hsees

/-! ## Answers -/

end Sys

def Act.onNew : Act → (Trap → Option NewArea) → Trap → Option NewArea
  | .spectrapvec trap area, new => Function.update new trap (some area)
  | _, new => new

theorem Abides.effect {K : Layout} {p : Word} {j : Job} {g : Stage} {t : Task} {a : Act}
    {k : Word → Prog} {r : Word} {x : View} (h : Abides K p j g t) (hprog : t.prog = .act a k)
    (hadm : (pageRules K p).admits (j, g) a r x) :
    Abides K p (j.next g x a) (diskRules.next g a r x)
      { t with prog := k r, status := a.onStatus t.status, new := a.onNew t.new } := by
  cases a with
  | spectrapvec trap area => exact h.vector hprog
  | _ => exact h.answer hprog nofun hadm _

namespace Sys

variable {K : Layout} {job job' : Word → Job} {turn turn' : Turn}
  {home home' : Word × Word → Option Word} {s t m : Sys Word} {p q : Word} {j j' : Job}
  {g : Stage} {a : Act} {k : Word → Prog} {r : Word}

/-- `m` is `s` with the effect of the action `a` of `p` on tasks and tables. -/
structure Effect (s : Sys Word) (p : Word) (a : Act) (m : Sys Word) : Prop where
  log : m.log = s.log
  life : m.life = s.life
  running : m.running = s.running
  self : m.task p = { s.task p with
    status := a.onStatus (s.task p).status, new := a.onNew (s.task p).new }
  others : ∀ q, q ≠ p → m.task q = s.task q
  tables : m.tables = a.onTables s.tables

theorem Effect.prog (h : s.Effect p a m) : (m.task p).prog = (s.task p).prog := by
  rw [h.self]

theorem Effect.answer_self (h : s.Effect p a m) (hprog : (s.task p).prog = .act a k) :
    (m.answer p r).task p = { s.task p with
      prog := k r, status := a.onStatus (s.task p).status, new := a.onNew (s.task p).new } := by
  rw [answer_eq (h.prog.trans hprog)]
  change Function.update m.task p { m.task p with prog := k r } p = _
  rw [Function.update_self, h.self]

theorem Effect.by (h : s.Effect p a m) (hprog : (s.task p).prog = .act a k) :
    By s p (m.answer p r) where
  task q _ hqp := (answer_of_ne hqp).1.trans (h.others q hqp)
  life q _ hqp := .inl ((answer_of_ne hqp).2.trans (congrFun h.life q))
  log := by
    refine ⟨[⟨p, a, r, m.view⟩], ?_, by simp⟩
    rw [answer_log (h.prog.trans hprog), h.log]
    rfl

theorem Accounts.answer (h : Accounts K p j s) (hlive : s.Alive p)
    (hprog : (s.task p).prog = .act a k) (heff : s.Effect p a m)
    (hadm : (pageRules K p).admits (j, stage s.log p) a r m.view)
    (hlock : (lockRules false p).may (place false s.log p) a)
    (hpool : ∀ t b ph, j.next (stage s.log p) m.view a = .pool t b ph → m.tables = t ∧
      (b = true → a.onStatus (s.task p).status &&& 1 ≠ 1) ∧
        (ph.Stale → b = true ∧ m.running = some p))
    (hfault : ∀ v, j.next (stage s.log p) m.view a = .fault (some v) →
      v.toNat < MAXPAGES ∧ ¬ Valid (m.tables.entryOf (p, v)))
    (hdisk : DiskRegs K (m.answer p r) p (j.next (stage s.log p) m.view a)
      (diskRules.next (stage s.log p) a r m.view)) :
    Accounts K p (j.next (stage s.log p) m.view a) (m.answer p r) := by
  have habides := h.fits hlive
  have hmay := habides.may hprog
  have hlog : (m.answer p r).log = ⟨p, a, r, m.view⟩ :: s.log := by
    rw [answer_log (heff.prog.trans hprog), heff.log]
  have hstage : stage (m.answer p r).log p = diskRules.next (stage s.log p) a r m.view := by
    rw [hlog, stage_cons_self rfl]
  have halive : (m.answer p r).Alive p := by
    rw [answer_eq (heff.prog.trans hprog)]
    exact .inl (Function.update_self ..)
  have htask := heff.answer_self (r := r) hprog
  have htables : (m.answer p r).tables = m.tables := by rw [answer_eq (heff.prog.trans hprog)]
  constructor
  case fits =>
    rw [hstage, htask]
    exact fun _ => habides.effect hprog hadm
  case unborn => exact fun hb => absurd hb halive.not_unborn
  case dead => exact fun hd => absurd hd halive.not_dead
  case holds =>
    have hact : (⟨p, a, r, m.view⟩ : Did Word Act Word View).a.held .swapPoolSem
        (Holds .swapPoolSem p s.log) ↔ a.held .swapPoolSem (j.phase ≠ none) := by
      rw [propext h.holds]
    rw [hlog, Holds, if_pos rfl, Job.next_phase]
    exact hact
  case signalled =>
    rw [hlog, place_cons_self rfl]
    intro hsig
    have hsig : ((lockRules false p).next (place false s.log p) a r m.view).signalled = true := hsig
    rw [next_signalled hlock] at hsig
    refine Job.next_ended hmay ?_
    cases hb : a.isV .masterSem with
    | false =>
      rw [hb, Bool.or_false] at hsig
      exact h.signalled hsig
    | true =>
      cases a with
      | verhogen y =>
        obtain rfl : y = .masterSem := of_decide_eq_true hb
        exact hmay
      | _ => cases hb
  case pool =>
    intro tb b ph hj
    obtain ⟨h1, h2, h3⟩ := hpool tb b ph hj
    refine ⟨htables.trans h1, fun hb => ?_, fun hs => ⟨(h3 hs).1, ?_⟩⟩
    · rw [htask]
      exact h2 hb
    · rw [(answer_lines m p r).2.2]
      exact (h3 hs).2
  case fault =>
    rw [htables]
    exact hfault
  case disk =>
    rw [hstage]
    exact hdisk

theorem answer_store (hprog : (m.task p).prog = .act a k) :
    (m.answer p r).tables = m.tables ∧ (m.answer p r).disk = m.disk ∧
      (m.answer p r).tlb = m.tlb ∧ (m.answer p r).ram = m.ram := by
  rw [answer_eq hprog]
  exact ⟨rfl, rfl, rfl, rfl⟩

theorem diskRegs_congr (hdisk : t.disk = s.disk) : DiskRegs K t p j g ↔ DiskRegs K s p j g := by
  cases g <;> simp only [DiskRegs, hdisk]

theorem PageInv.answered (h : PageInv K job turn home s) (hp : IsUProc p) (hlive : s.Alive p)
    (hprog : (s.task p).prog = .act a k) (heff : s.Effect p a m)
    (hadm : (pageRules K p).admits (job p, stage s.log p) a r m.view)
    (hlock : (lockRules false p).may (place false s.log p) a)
    (hj : (job p).next (stage s.log p) m.view a = j')
    (hg : diskRules.next (stage s.log p) a r m.view = g)
    (hpool : ∀ t b ph, j' = .pool t b ph → m.tables = t ∧
      (b = true → a.onStatus (s.task p).status &&& 1 ≠ 1) ∧
        (ph.Stale → b = true ∧ m.running = some p))
    (hfault : ∀ v, j' = .fault (some v) → v.toNat < MAXPAGES ∧ ¬ Valid (m.tables.entryOf (p, v)))
    (hdisk : DiskRegs K m p j' g)
    (hturn : ∀ q ph, turn' = some (q, ph) ↔ (Function.update job p j' q).phase = some ph)
    (hsame : m.tables = s.tables ∨ (job p).phase ≠ none)
    (hfaults : ∀ q, q ≠ p → ∀ v, ¬ Valid (s.tables.entryOf (q, v)) →
      ¬ Valid (m.tables.entryOf (q, v)))
    (hdisks : ∀ q, IsUProc q → q ≠ p → DiskRegs K m q (job q) (stage s.log q))
    (hledger : Ledger K (fun q => (Function.update job p j' q).Lives)
      (fun q => (Function.update job p j' q).Gone) turn' home' m.tables)
    (htlb : ¬ turn'.Stale → ∀ q page e, IsUProc q → m.tlb q page = some e →
      pte m.tables q page = some e)
    (harrived : ∀ q v k, turn' = some (q, .arrived v k) →
      m.ram (frameAddr K m.tables.frameNo) = m.backing (q, v))
    (hcontent : ∀ x, (job x.1).Lives → (Function.update job p j' x.1).Lives →
      m.content home' x = s.content home x)
    (hback : ∀ q v, q ≠ p → (job q).Early → m.backing (q, v) = s.backing (q, v))
    (hsettle : job p = .taping → j'.Lives → ∀ v, m.content home' (p, v) = s.backing (p, v))
    (htrace : ∃ l, m.trace = l ++ s.trace ∧ ∀ o ∈ l, o = .done READY)
    (hsees : Sees s job home (.did ⟨p, a, r, m.view⟩)) :
    PageInv K (Function.update job p j') turn' home' (m.answer p r) ∧
      Evolves s job home (m.answer p r) (Function.update job p j') home' := by
  have hprog' := heff.prog.trans hprog
  obtain ⟨htables, hdisk', htlb', hram⟩ := answer_store (r := r) hprog'
  have habides := (h.own p hp).fits hlive
  have hmay := habides.may hprog
  have hregs : ∀ q j g, DiskRegs K m q j g → DiskRegs K (m.answer p r) q j g :=
    fun q j g => (diskRegs_congr hdisk').mpr
  have hbacking : (m.answer p r).backing = m.backing := backing_congr (congrArg Disk.block hdisk')
  have hcont : (m.answer p r).content home' = m.content home' := content_congr hram hbacking
  constructor
  · refine h.update hp (heff.by hprog) ?_ hturn (fun q hq hqp hphase => ?_) ?_ (fun q hq hqp => ?_)
      ?_ ?_ ?_
    · subst hj
      refine (h.own p hp).answer hlive hprog heff hadm hlock hpool hfault (hregs _ _ _ ?_)
      rw [hg]
      exact hdisk
    · rw [htables, (answer_lines m p r).2.2, heff.running]
      refine ⟨hsame.resolve_right fun hphase' => hphase (h.alone hphase' hqp), fun _ => rfl⟩
    · rw [htables]
      exact hfaults
    · exact hregs _ _ _ (hdisks q hq hqp)
    · rw [htables]
      exact hledger
    · rw [htables, htlb']
      exact htlb
    · rw [htables, hram, hbacking]
      exact harrived
  · refine .update (heff.by hprog) ?_ ?_ (fun hlives => ?_) (fun htaped => ?_) (fun he => ?_) ?_
    · rw [hcont]
      exact hcontent
    · rw [hbacking]
      exact hback
    · refine (Job.next_lives (x := m.view) hmay (hj ▸ hlives)).imp_right fun ⟨h1, h2⟩ => ?_
      subst h2
      refine ⟨⟨hlive, ?_⟩, ?_, ⟨p, .getENTRYHI, r, m.view⟩, m.trace, ?_, rfl⟩
      · rw [h1] at habides
        exact habides.eq_afterTape hprog
      · rw [hcont]
        exact hsettle h1 hlives
      · rw [answer_eq hprog']
    · have hjob := habides.eq_taping htaped.2
      have hact : a = .getENTRYHI := by
        have heq := htaped.2.symm.trans hprog
        injection heq with h1
        exact h1.symm
      rw [← hj, hjob, hact]
      exact id
    · exact Job.next_early hmay (hj ▸ he)
    · obtain ⟨l, hl, hdone⟩ := htrace
      refine ⟨.did ⟨p, a, r, m.view⟩ :: l, ?_, ?_⟩
      · rw [answer_eq hprog']
        exact congrArg _ hl
      · rw [List.forall_mem_cons]
        refine ⟨hsees, fun o ho => ?_⟩
        rw [hdone o ho]
        rfl

end Sys

end Kaya.Phase3
