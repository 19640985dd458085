import Kaya.Phase1.Proofs.Alloc
import Kaya.Phase1.Proofs.Harmless
import Kaya.Phase2.Machine

/-!
# The books of CPU time

An observer of the CPU keeps an account for each process; `Books` says how the nucleus's own
`p_time`, `startTOD` and `ioProcTime` relate to the accounts.  Every function of the nucleus keeps
it, in any state, whatever the pointers look like.
-/

namespace Kaya

open Lib

/-! ## Accounts -/

/-- What is on record for a process since its creation.  The first three amounts are about the
quanta that are over: their length, the time spent in `ioTrapHandler` during them, and the part of
it in interrupts that returned to the process.  The others are about the current quantum. -/
structure Account where
  alive : Bool
  elapsed : Int
  inside : Int
  returned : Int
  since : Int
  insideNow : Int
  returnedNow : Int

/-- The process whose account an observation concerns. -/
def Obs.proc : Obs → Option Pcb
  | .create p | .exit p | .dispatch p _ | .leave p _ | .handled p _ _ | .expired p _ _ => p
  | .scheduler _ | .schedulerReturned | .join _ => none

/-- The entry an observation makes in the account of its process. -/
def Account.entry (acc : Account) : Obs → Account
  | .create _ => { acc with alive := true, elapsed := 0, inside := 0, returned := 0 }
  | .exit _ => { acc with alive := false, insideNow := 0, returnedNow := 0 }
  | .dispatch _ t => { acc with since := t, insideNow := 0, returnedNow := 0 }
  | .handled _ timeStart timeEnd => { acc with
      insideNow := acc.insideNow + (timeEnd - timeStart)
      returnedNow := acc.returnedNow + (timeEnd - timeStart) }
  | .expired _ timeStart timeEnd => { acc with
      insideNow := acc.insideNow + (timeEnd - timeStart) }
  | .leave _ t => { acc with
      elapsed := acc.elapsed + (t - acc.since)
      inside := acc.inside + acc.insideNow
      returned := acc.returned + acc.returnedNow
      insideNow := 0
      returnedNow := 0 }
  | .scheduler _ | .schedulerReturned | .join _ => acc

/-- The account of `p` after a trace, the newest observation first. -/
def account (p : Pcb) : List Obs → Account
  | [] => ⟨false, 0, 0, 0, 0, 0, 0⟩
  | o :: trace => if o.proc = some p then (account p trace).entry o else account p trace

variable {s t : Nucleus} {p : Pcb} {o : Obs} {trace : List Obs} {α β : Type}

theorem account_of_ne (h : o.proc ≠ some p) : account p (o :: trace) = account p trace :=
  if_neg h

theorem account_self (h : o.proc = some p) :
    account p (o :: trace) = (account p trace).entry o := if_pos h

/-- The nucleus's records of the CPU time of `p` against its account. -/
structure Booked (s : Nucleus) (p : Pcb) (acc : Account) : Prop where
  /-- The time in interrupts that returned is counted twice too much. -/
  time : acc.alive = true →
    s.pcb.pTime p = acc.elapsed - acc.inside + 2 * acc.returned
  running : s.currentProc = some p → s.startTOD = acc.since ∧
    s.ioProcTime = acc.insideNow - 2 * acc.returnedNow
  resting : s.currentProc ≠ some p → acc.insideNow = 0 ∧ acc.returnedNow = 0
  nonneg : (0 ≤ acc.inside ∧ 0 ≤ acc.insideNow) ∧ 0 ≤ acc.returned ∧ 0 ≤ acc.returnedNow

structure Books (s : Nucleus) : Prop where
  ticks : ∀ n, s.tod n ≤ s.tod (n + 1)
  booked : ∀ p, Booked s p (account p s.trace)
  waiting : s.waiting = true → s.currentProc = none

theorem Booked.congr {acc : Account} (h : Booked s p acc) (htime : t.pcb.pTime p = s.pcb.pTime p)
    (hcur : t.currentProc = some p ↔ s.currentProc = some p)
    (hrun : s.currentProc = some p → t.startTOD = s.startTOD ∧ t.ioProcTime = s.ioProcTime) :
    Booked t p acc where
  time := by rw [htime]; exact h.time
  running := by
    intro hp
    obtain ⟨hsince, hio⟩ := h.running (hcur.mp hp)
    obtain ⟨hstart, hio'⟩ := hrun (hcur.mp hp)
    exact ⟨hstart.trans hsince, hio'.trans hio⟩
  resting := fun hne => h.resting fun hp => hne (hcur.mpr hp)
  nonneg := h.nonneg

/-- An observation about `q` concerns no other account. -/
theorem Books.enter (h : Books s) {q : Pcb} (ho : o.proc = some q) (htod : t.tod = s.tod)
    (htrace : t.trace = o :: s.trace)
    (hself : Booked s q (account q s.trace) → Booked t q ((account q s.trace).entry o))
    (hother : ∀ p, p ≠ q → t.pcb.pTime p = s.pcb.pTime p ∧
      (t.currentProc = some p ↔ s.currentProc = some p) ∧
      (s.currentProc = some p → t.startTOD = s.startTOD ∧ t.ioProcTime = s.ioProcTime))
    (hwait : t.waiting = true → t.currentProc = none) : Books t := by
  refine ⟨?_, ?_, hwait⟩
  · rw [htod]
    exact h.ticks
  · intro p
    rw [htrace]
    by_cases hp : p = q
    · subst hp
      rw [account_self ho]
      exact hself (h.booked p)
    · rw [account_of_ne (by rw [ho]; exact fun he => hp (Option.some.inj he).symm)]
      obtain ⟨htime, hcur, hrun⟩ := hother p hp
      exact (h.booked p).congr htime hcur hrun

/-! ## Code that makes no entry -/

/-- Nothing the books are about has changed. -/
structure Steady (s t : Nucleus) : Prop where
  pTime : t.pcb.pTime = s.pcb.pTime
  currentProc : t.currentProc = s.currentProc
  startTOD : t.startTOD = s.startTOD
  ioProcTime : t.ioProcTime = s.ioProcTime
  waiting : t.waiting = s.waiting
  tod : t.tod = s.tod
  reads : s.reads ≤ t.reads
  account : ∀ p, account p t.trace = account p s.trace

/-- Code that makes no entry and returns, or else control is lost. -/
def Idles (x : NucM α) : Prop := Within Steady (fun e _ _ => e.Lost) x

namespace Steady

theorem refl (s : Nucleus) : Steady s s := ⟨rfl, rfl, rfl, rfl, rfl, rfl, le_refl _, fun _ => rfl⟩

theorem trans {u : Nucleus} (h : Steady s t) (h' : Steady t u) : Steady s u :=
  ⟨h'.pTime.trans h.pTime, h'.currentProc.trans h.currentProc, h'.startTOD.trans h.startTOD,
    h'.ioProcTime.trans h.ioProcTime, h'.waiting.trans h.waiting, h'.tod.trans h.tod,
    h.reads.trans h'.reads, fun p => (h'.account p).trans (h.account p)⟩

theorem emit (h : Steady s t) (o : Obs) :
    Steady { s with trace := o :: s.trace } { t with trace := o :: t.trace } :=
  ⟨h.pTime, h.currentProc, h.startTOD, h.ioProcTime, h.waiting, h.tod, h.reads,
    fun p => by
      by_cases ho : o.proc = some p
      · rw [account_self ho, account_self ho, h.account]
      · rw [account_of_ne ho, account_of_ne ho, h.account]⟩

end Steady

theorem Books.congr (h : Books s) (hst : Steady s t) : Books t := by
  refine ⟨?_, ?_, ?_⟩
  · rw [hst.tod]
    exact h.ticks
  · intro p
    rw [hst.account]
    exact (h.booked p).congr (congrFun hst.pTime p) (by rw [hst.currentProc])
      fun _ => ⟨hst.startTOD, hst.ioProcTime⟩
  · rw [hst.waiting, hst.currentProc]
    exact h.waiting

namespace Idles

variable {x y : NucM α}

theorem bind (hx : Idles x) {f : α → NucM β} (hf : ∀ a, Idles (f a)) : Idles (x >>= f) :=
  Within.bind (fun _ _ _ h h' => h.trans h')
    (fun _ _ _ _ _ he => he) hx hf

theorem pure (a : α) : Idles (pure a : NucM α) := Steady.refl

theorem of_get : Idles (get : NucM Nucleus) := Steady.refl

theorem of_modify {f : Nucleus → Nucleus} (hf : ∀ s, Steady s (f s)) :
    Idles (modify f : NucM PUnit) := hf

theorem ite {c : Prop} [Decidable c] (hx : Idles x) (hy : Idles y) :
    Idles (if c then x else y) := Within.ite hx hy

theorem phase1 {x : Phase1M Pcb Semd α} (hx : Harmless x) : Idles (phase1 x) :=
  Within.zoom hx (fun _ _ h => ⟨h, rfl, rfl, rfl, rfl, rfl, le_refl _, fun _ => rfl⟩)
    fun _ _ _ h => h.1

theorem of_discard (hx : Idles x) : Idles (discard x) := by
  intro s
  have hxs := hx s
  rw [discard_run]
  cases hrun : x s with
  | error e t =>
      rw [hrun] at hxs
      exact hxs
  | ok a t =>
      rw [hrun] at hxs
      exact hxs

theorem of_deref {γ : Type} (p : Option γ) : Idles (deref p : NucM γ) := by
  cases p with
  | none => exact fun _ => .inl rfl
  | some p => exact pure p

theorem same {f : Nucleus → Nucleus} (hf : ∀ s, f s = { s with
    lk := (f s).lk, procCnt := (f s).procCnt, sftBlkCnt := (f s).sftBlkCnt, mem := (f s).mem
    sysOld := (f s).sysOld, pgmOld := (f s).pgmOld, intOld := (f s).intOld
    status := (f s).status, timer := (f s).timer, intervalTmr := (f s).intervalTmr
    devReg := (f s).devReg }) : Idles (modify f : NucM PUnit) := by
  intro s
  show Steady s (f s)
  rw [hf s]
  exact ⟨rfl, rfl, rfl, rfl, rfl, rfl, le_refl _, fun _ => rfl⟩

end Idles

theorem insertReady_idles (p : Option Pcb) : Idles (insertReady p) := by
  refine .bind .of_get fun s => .bind (.phase1 (insertProcQ_keeps _ _)) fun _ => ?_
  refine .bind (.same fun _ => rfl) fun _ => ?_
  have hjoin : ∀ (q : Pcb) tr, account q (.join p :: tr) = account q tr :=
    fun q tr => account_of_ne (by simp [Obs.proc])
  exact fun s => ⟨rfl, rfl, rfl, rfl, rfl, rfl, le_refl _, fun q => hjoin q s.trace⟩

theorem removeReady_idles : Idles removeReady := by
  refine .bind .of_get fun s => .bind (.phase1 (removeProcQ_keeps _)) fun _ => ?_
  exact .bind (.same fun _ => rfl) fun _ => .pure _

theorem outReady_idles (p : Option Pcb) : Idles (outReady p) := by
  refine .bind .of_get fun s => .bind (.phase1 (outProcQ_keeps _ _)) fun _ => ?_
  exact .bind (.same fun _ => rfl) fun _ => .pure _

theorem storeInt_idles (a v : Word) : Idles (storeInt a v) := .same fun _ => rfl

theorem loadInt_idles (a : Word) : Idles (loadInt a) := .bind .of_get fun _ => .pure _

theorem setSysOld_idles (st : State) : Idles (setSysOld st) := .same fun _ => rfl

theorem STCK_idles : Idles STCK := fun _ =>
  ⟨rfl, rfl, rfl, rfl, rfl, rfl, Nat.le_succ _, fun _ => rfl⟩

theorem getPS_idles (p : Option Pcb) : Idles (getPS p) :=
  .bind (.of_deref p) fun _ => .bind .of_get fun _ => .pure _

theorem getPTime_idles (p : Option Pcb) : Idles (getPTime p) :=
  .bind (.of_deref p) fun _ => .bind .of_get fun _ => .pure _

/-! ## Code that keeps the books -/

/-- From `P` the code returns with `Q`, stops with the books in order, or loses control. -/
def Does (P : Nucleus → Prop) (x : NucM α) (Q : α → Nucleus → Prop) : Prop :=
  Triple P x Q fun e t => e.Lost ∨ Books t

/-- Code that makes no entry does not invalidate `P`. -/
def Stable (P : Nucleus → Prop) : Prop := ∀ s t, Steady s t → P s → P t

/-- No process runs. -/
structure Vacant (s : Nucleus) : Prop where
  books : Books s
  currentProc : s.currentProc = none

def Owes (o : Obs) (s : Nucleus) : Prop := Books { s with trace := o :: s.trace }

def Leaving (s : Nucleus) : Prop := Books { s with currentProc := none }

theorem books_stable : Stable Books := fun _ _ hst h => h.congr hst

theorem vacant_stable : Stable Vacant := fun _ _ hst h =>
  ⟨h.books.congr hst, hst.currentProc.trans h.currentProc⟩

theorem owes_stable (o : Obs) : Stable (Owes o) := fun _ _ hst h =>
  Books.congr h (hst.emit o)

theorem leaving_stable : Stable Leaving := fun _ _ hst h =>
  Books.congr h ⟨hst.pTime, rfl, hst.startTOD, hst.ioProcTime, hst.waiting, hst.tod, hst.reads,
    hst.account⟩

namespace Does

variable {P P' : Nucleus → Prop} {Q Q' : α → Nucleus → Prop} {x y : NucM α}

theorem bind {R : β → Nucleus → Prop} {f : α → NucM β} (hx : Does P x Q)
    (hf : ∀ a, Does (Q a) (f a) R) : Does P (x >>= f) R := Triple.bind hx hf

theorem idle (hP : Stable P) (hx : Idles x) : Does P x fun _ => P :=
  Within.triple hx hP fun _ _ _ he _ => .inl he

theorem skip {R : β → Nucleus → Prop} {f : α → NucM β} (hP : Stable P) (hx : Idles x)
    (hf : ∀ a, Does P (f a) R) : Does P (x >>= f) R := (idle hP hx).bind hf

theorem ite {c : Prop} [Decidable c] (hx : c → Does P x Q) (hy : ¬ c → Does P y Q) :
    Does P (if c then x else y) Q := Triple.ite hx hy

theorem weaken (h : Does P x Q) (hP : ∀ s, P' s → P s) (hQ : ∀ a s, Q a s → Q' a s) :
    Does P' x Q' := Triple.weaken h hP hQ

theorem stop {e : Stop} (h : ∀ s, P s → Books s) : Does P (throw e : NucM α) Q :=
  Triple.throw fun s hs => .inr (h s hs)

theorem stop_bind {e : Stop} {f : β → NucM α} (h : ∀ s, P s → Books s) :
    Does P ((throw e : NucM β) >>= f) Q := fun s hs => .inr (h s hs)

theorem of_deref {γ : Type} (q : Option γ) :
    Does P (deref q) fun r s => P s ∧ q = some r := by
  cases q with
  | none => exact fun _ _ => .inl (.inl rfl)
  | some r => exact fun _ hs => ⟨hs, rfl⟩

theorem modify {f : Nucleus → Nucleus} {Q : PUnit → Nucleus → Prop}
    (h : ∀ s, P s → Q ⟨⟩ (f s)) : Does P (modify f : NucM PUnit) Q := Triple.modify h

end Does

/-! ### The scheduler -/

theorem Books.note (h : Books s) (ho : o.proc = none) :
    Books { s with trace := o :: s.trace } := by
  refine ⟨h.ticks, ?_, h.waiting⟩
  intro p
  have hacc : account p (o :: s.trace) = account p s.trace :=
    account_of_ne fun hp => nomatch ho.symm.trans hp
  show Booked _ p (account p (o :: s.trace))
  rw [hacc]
  exact (h.booked p).congr rfl Iff.rfl fun _ => ⟨rfl, rfl⟩

/-- What the scheduler starts its choice with. -/
structure Cleared (s : Nucleus) : Prop where
  vacant : Vacant s
  waiting : s.waiting = false
  ioProcTime : s.ioProcTime = 0

theorem cleared_stable : Stable Cleared := fun s t hst h =>
  ⟨vacant_stable s t hst h.vacant, hst.waiting.trans h.waiting, hst.ioProcTime.trans h.ioProcTime⟩

theorem Vacant.reset (h : Vacant s) : Cleared { s with waiting := false, ioProcTime := 0 } := by
  refine ⟨⟨⟨h.books.ticks, ?_, fun _ => h.currentProc⟩, h.currentProc⟩, rfl, rfl⟩
  intro p
  refine (h.books.booked p).congr rfl Iff.rfl ?_
  intro hp
  rw [h.currentProc] at hp
  cases hp

theorem Cleared.dispatch (h : Cleared s) (q : Pcb) (now timer : Int) (reads : Nat) :
    Books { s with
      currentProc := some q, timer := timer, startTOD := now, reads := reads
      trace := .dispatch (some q) now :: s.trace } := by
  have hnone : s.currentProc = none := h.vacant.currentProc
  refine h.vacant.books.enter (q := q) rfl rfl rfl ?_ ?_ ?_
  · intro hq
    obtain ⟨htime, -, -, ⟨hin, -⟩, hret, -⟩ := hq
    refine ⟨htime, fun _ => ⟨rfl, h.ioProcTime⟩, ?_, ⟨hin, le_refl _⟩, hret, le_refl _⟩
    exact fun hne => absurd rfl hne
  · intro p hp
    have hne : some q ≠ some p := fun he => hp (Option.some.inj he).symm
    refine ⟨rfl, iff_of_false hne ?_, ?_⟩
    · simp [hnone]
    · simp [hnone]
  · intro hw
    rw [h.waiting] at hw
    cases hw

theorem dispatch_does {Q : α → Nucleus → Prop} (q : Option Pcb) (hq : q ≠ none)
    (k : PUnit → NucM α) : Does Cleared (do
      setCurrentProc q
      setTIMER QUANTUM
      let now ← STCK
      modify fun s => { s with startTOD := now }
      emit (.dispatch (← get).currentProc now)
      let r ← LDST (← getPS (← get).currentProc)
      k r) Q := by
  obtain ⟨q, rfl⟩ := Option.ne_none_iff_exists'.mp hq
  intro s hs
  simp only [setCurrentProc, setTIMER, STCK, emit, LDST, getPS, deref, bind_run, modify_run,
    modifyGet_run, get_run, pure_run, throw_run]
  exact .inr (hs.dispatch q _ _ _)

theorem Vacant.wait (h : Vacant s) : Vacant { s with waiting := true } :=
  ⟨⟨h.books.ticks, fun p => (h.books.booked p).congr rfl Iff.rfl fun _ => ⟨rfl, rfl⟩,
    fun _ => h.currentProc⟩, h.currentProc⟩

theorem setSTATUS_idles (v : Word) : Idles (setSTATUS v) := .same fun _ => rfl

theorem scheduler_does : Does Vacant scheduler fun _ => Vacant := by
  have hbooks : ∀ s, Cleared s → Books s := fun _ hs => hs.vacant.books
  unfold scheduler
  refine Triple.get_bind fun s hs => ?_
  refine Does.bind (Q := fun _ => Vacant) (.modify fun t ht => ?_) fun _ => ?_
  · subst ht
    exact ⟨hs.books.note rfl, hs.currentProc⟩
  refine Does.bind (Q := fun _ => Cleared) (.modify fun t ht => ht.reset) fun _ => ?_
  refine Does.skip cleared_stable removeReady_idles fun q => ?_
  refine Does.ite (fun hq => dispatch_does q hq _) fun _ => ?_
  refine Does.skip cleared_stable .of_get fun _ => Does.ite (fun _ => .stop_bind hbooks) fun _ => ?_
  refine Does.skip cleared_stable .of_get fun _ => Does.ite (fun _ => .stop_bind hbooks) fun _ => ?_
  refine Does.skip cleared_stable .of_get fun _ => Does.ite (fun _ => ?_) fun _ => ?_
  · refine Does.bind (Q := fun _ => Vacant) (.modify fun t ht => ht.vacant.wait) fun _ => ?_
    refine Does.skip vacant_stable (.bind .of_get fun _ => .pure _) fun _ => ?_
    exact Does.skip vacant_stable (setSTATUS_idles _) fun _ => .stop_bind fun _ hs => hs.books
  · exact .modify fun t ht => ⟨ht.vacant.books.note rfl, ht.vacant.currentProc⟩

/-! ### Births and deaths -/

theorem Books.create (h : Books s) {pcb : Payload Pcb} (lk : Ptrs)
    (hp : pcb.pTime = Function.update s.pcb.pTime p 0) :
    Books { s with lk := lk, pcb := pcb, trace := .create (some p) :: s.trace } := by
  refine h.enter (q := p) rfl rfl rfl ?_ ?_ h.waiting
  · intro hq
    refine ⟨fun _ => ?_, hq.running, hq.resting, ⟨le_refl _, hq.nonneg.1.2⟩, le_refl _,
      hq.nonneg.2.2⟩
    show pcb.pTime p = 0 - 0 + 2 * 0
    rw [hp, Function.update_self]
    rfl
  · intro q hq
    refine ⟨?_, Iff.rfl, fun _ => ⟨rfl, rfl⟩⟩
    show pcb.pTime q = s.pcb.pTime q
    rw [hp, Function.update_of_ne hq]

/-- The process that dies does not run any more. -/
theorem Books.exit (h : Books s) (p : Option Pcb) : Owes (.exit p)
    { s with currentProc := if p = s.currentProc then none else s.currentProc } := by
  cases p with
  | none =>
      have hsame : (if none = s.currentProc then none else s.currentProc) = s.currentProc := by
        split
        · assumption
        · rfl
      rw [hsame]
      exact h.note rfl
  | some p =>
      have hgone : (if some p = s.currentProc then none else s.currentProc) ≠ some p := by
        split
        · simp
        · exact Ne.symm ‹_›
      refine h.enter (q := p) rfl rfl rfl ?_ ?_ ?_
      · intro hq
        refine ⟨fun halive => ?_, fun hcur => absurd hcur hgone, fun _ => ⟨rfl, rfl⟩,
          ⟨hq.nonneg.1.1, le_refl _⟩, hq.nonneg.2.1, le_refl _⟩
        cases halive
      · intro q hq
        refine ⟨rfl, ?_, fun _ => ⟨rfl, rfl⟩⟩
        show (if some p = s.currentProc then none else s.currentProc) = some q ↔
          s.currentProc = some q
        split
        · have hne : some p ≠ some q := fun he => hq (Option.some.inj he).symm
          simp_all
        · exact Iff.rfl
      · intro hw
        have hnone : s.currentProc = none := h.waiting hw
        show (if some p = s.currentProc then none else s.currentProc) = none
        rw [hnone]
        split <;> rfl

theorem allocPcb_does : Does Books (phase1 allocPcb)
    fun p s => (p = none → Books s) ∧ (p ≠ none → Owes (.create p) s) := by
  intro s hs
  cases hfree : s.lk.pcbFree with
  | none =>
      have hrun : phase1 allocPcb s = _ :=
        zoom_ok (allocPcb_none (s := ⟨s.lk.toLinks, s.pcb⟩) hfree)
      rw [hrun]
      exact ⟨fun _ => hs, fun hne => absurd rfl hne⟩
  | some p =>
      have hrun : phase1 allocPcb s = _ :=
        zoom_ok (allocPcb_some (s := ⟨s.lk.toLinks, s.pcb⟩) hfree)
      rw [hrun]
      exact ⟨fun he => (nomatch he), fun _ => hs.create _ rfl⟩


theorem load_does {Q : α → Nucleus → Prop} (f : Nucleus → State) :
    Does Books (do LDST (f (← get)) : NucM α) Q :=
  .skip books_stable .of_get fun _ => .stop fun _ hs => hs

theorem createprocess_does : Does Books createprocess fun _ => Books := by
  unfold createprocess
  refine Does.bind allocPcb_does fun p => Does.ite (fun hp => ?_) fun hp => ?_
  · refine Does.weaken (P := Books) ?_ (fun s hs => hs.1 hp) fun _ _ hs => hs
    refine .skip books_stable .of_get fun _ => .skip books_stable (setSysOld_idles _) fun _ => ?_
    exact load_does _
  · refine Does.weaken (P := Owes (.create p)) ?_ (fun s hs => hs.2 hp) fun _ _ hs => hs
    refine .skip (owes_stable _) .of_get fun _ => .skip (owes_stable _) .of_get fun _ => ?_
    refine .skip (owes_stable _) (.phase1 (setPS_keeps (fun _ _ => rfl) _ _)) fun _ => ?_
    refine .skip (owes_stable _) .of_get fun _ => ?_
    refine .skip (owes_stable _) (.phase1 (insertChild_keeps _ _)) fun _ => ?_
    refine .skip (owes_stable _) (insertReady_idles _) fun _ => ?_
    refine .skip (owes_stable _) (.same fun _ => rfl) fun _ => ?_
    refine .bind (Q := fun _ => Books) (.modify fun _ hs => hs) fun _ => ?_
    refine .skip books_stable .of_get fun _ => .skip books_stable (setSysOld_idles _) fun _ => ?_
    exact load_does _

/-- The time of a process that is no more does not matter. -/
theorem Books.free (h : Books s) (hdead : (account p s.trace).alive = false) {pcb : Payload Pcb}
    (lk : Ptrs) (hp : pcb.pTime = Function.update s.pcb.pTime p 0) :
    Books { s with lk := lk, pcb := pcb } := by
  refine ⟨h.ticks, ?_, h.waiting⟩
  intro q
  have hq := h.booked q
  by_cases hqp : q = p
  · subst hqp
    refine ⟨fun halive => ?_, hq.running, hq.resting, hq.nonneg⟩
    have halive' : (account q s.trace).alive = true := halive
    rw [hdead] at halive'
    cases halive'
  · refine hq.congr ?_ Iff.rfl fun _ => ⟨rfl, rfl⟩
    show pcb.pTime q = s.pcb.pTime q
    rw [hp, Function.update_of_ne hqp]

variable {K : Layout} {c : Option Pcb}

/-- `c` or nothing runs, and the books are in order once `o` is entered. -/
structure Closing (o : Obs) (c : Option Pcb) (s : Nucleus) : Prop where
  owes : Owes o s
  currentProc : s.currentProc = c

theorem closing_stable (o : Obs) (c : Option Pcb) : Stable (Closing o c) := fun s t hst h =>
  ⟨owes_stable o s t hst h.owes, hst.currentProc.trans h.currentProc⟩

theorem callFreePcb_does (p c : Option Pcb) : Does (Closing (.exit p) c) (callFreePcb p)
    fun _ s => Books s ∧ s.currentProc = c := by
  rintro s ⟨hs, hcur⟩
  have hs' : Books { s with trace := .exit p :: s.trace } := hs
  cases p with
  | none => exact .inl (.inl rfl)
  | some p =>
      have hrun : phase1 (freePcb (some p)) { s with trace := .exit (some p) :: s.trace } = _ :=
        zoom_ok (freePcb_eq ⟨s.lk.toLinks, s.pcb⟩ p)
      have hdead : (account p (.exit (some p) :: s.trace)).alive = false := by
        rw [account_self rfl]
        rfl
      rw [callFreePcb, bind_run]
      simp only [emit, modify_run, hrun]
      exact ⟨hs'.free hdead _ rfl, hcur⟩

/-- During a kill the process that ran still does, or none. -/
structure Held (c : Option Pcb) (s : Nucleus) : Prop where
  books : Books s
  currentProc : s.currentProc = none ∨ s.currentProc = c

theorem held_stable (c : Option Pcb) : Stable (Held c) := fun _ _ hst h =>
  ⟨h.books.congr hst, by rw [hst.currentProc]; exact h.currentProc⟩

theorem terminateOne_does (p : Option Pcb) (semAdd : Word) :
    Does (Held c) (terminateOne K p semAdd) fun _ s =>
      Held c s ∧ (p = c → s.currentProc = none) := by
  have hend : ∀ c', Does (Closing (.exit p) c') (do
      modify fun s : Nucleus => { s with procCnt := s.procCnt - 1 }
      callFreePcb p) fun _ s => Books s ∧ s.currentProc = c' := fun c' =>
    .skip (closing_stable _ _) (.same fun _ => rfl) fun _ => callFreePcb_does p c'
  unfold terminateOne
  refine Triple.get_bind fun s hs => ?_
  let P : Nucleus → Prop := fun t => Books t ∧ t.currentProc = s.currentProc
  have hP : Stable P := fun t u hst h => ⟨h.1.congr hst, hst.currentProc.trans h.2⟩
  refine Does.weaken (P := P) ?_ ?_ fun _ _ h => h
  · refine Does.ite (fun hp => ?_) fun hp => ?_
    · refine .skip hP (.of_discard (.phase1 (outChild_keeps p))) fun _ => ?_
      refine .bind (Q := fun _ => Closing (.exit p) none) (.modify fun t ht => ⟨?_, rfl⟩) fun _ => ?_
      · have hexit := ht.1.exit p
        rwa [ht.2, if_pos hp] at hexit
      · exact (hend none).weaken (fun _ h => h) fun _ t ht => ⟨⟨ht.1, .inl ht.2⟩, fun _ => ht.2⟩
    · have hrest : Does P (do
          modify fun s : Nucleus => { s with procCnt := s.procCnt - 1 }
          callFreePcb p) fun _ s => Held c s ∧ (p = c → s.currentProc = none) := by
        refine (hend s.currentProc).weaken ?_ fun _ t ht => ⟨⟨ht.1, ?_⟩, ?_⟩
        · rintro t ⟨ht, hcur⟩
          have hexit := ht.exit p
          rw [hcur, if_neg hp, ← hcur] at hexit
          exact ⟨hexit, hcur⟩
        · rw [ht.2]
          exact hs.currentProc
        · rintro rfl
          rw [ht.2]
          exact hs.currentProc.resolve_right (Ne.symm hp)
      refine .skip hP (outReady_idles p) fun r => Does.ite (fun _ => ?_) fun _ => hrest
      refine .skip hP (.phase1 (outBlocked_keeps (fun _ _ => rfl) p)) fun q => Does.ite (fun _ => ?_) fun _ => hrest
      refine Does.ite (fun _ => .skip hP (.same fun _ => rfl) fun _ => hrest) fun _ => ?_
      exact .skip hP (loadInt_idles _) fun _ => .skip hP (storeInt_idles _ _) fun _ => hrest
  · rintro t rfl
    exact ⟨hs.books, rfl⟩

theorem getPSemAdd_idles (p : Option Pcb) : Idles (phase1 (getPSemAdd p)) := .phase1 (.read _ _)

theorem terminateLoop_does (fuel : Nat) : ∀ p,
    Does (Held c) (terminateLoop K fuel p) (fun _ s =>
      Held c s ∧ (p = c → s.currentProc = none)) ∧
    Does (Held c) (terminateChildren K fuel p) fun _ => Held c := by
  induction fuel with
  | zero =>
      intro p
      unfold terminateLoop terminateChildren
      exact ⟨fun _ _ => .inl (.inr rfl), fun _ _ => .inl (.inr rfl)⟩
  | succ fuel ih =>
      intro p
      have hheld := held_stable c
      constructor
      · unfold terminateLoop
        refine .skip hheld (getPSemAdd_idles p) fun semAdd => ?_
        exact (ih p).2.bind fun _ => terminateOne_does p semAdd
      · unfold terminateChildren
        refine .skip hheld (.phase1 (emptyChild_keeps p)) fun e => ?_
        refine Does.ite (fun _ => ?_) fun _ => fun _ hs => hs
        refine .skip hheld (.phase1 (removeChild_keeps p)) fun q => ?_
        exact .bind ((ih q).1.weaken (fun _ h => h) fun _ _ h => h.1) fun _ => (ih p).2

theorem terminate_does {Q : α → Nucleus → Prop} {k : NucM α} (hk : Does Vacant k Q) :
    Does Books (do terminateprocess K (← get).currentProc; k) Q := by
  refine Triple.get_bind fun s hs => ?_
  refine Does.weaken (P := Held s.currentProc) ?_ ?_ fun _ _ h => h
  · refine .bind ((terminateLoop_does _ _).1.weaken (fun _ h => h) ?_) fun _ => hk
    exact fun _ t ht => ⟨ht.1.books, ht.2 rfl⟩
  · rintro t rfl
    exact ⟨hs, .inr rfl⟩

theorem die_does : Does Books (do terminateprocess K (← get).currentProc; scheduler)
    fun _ => Books :=
  terminate_does (scheduler_does.weaken (fun _ h => h) fun _ _ h => h.books)

/-! ### Leaving the CPU -/

theorem Books.leave (h : Books s) (hcur : s.currentProc = some p) (now : Int) {pcb : Payload Pcb}
    (hp : pcb.pTime = Function.update s.pcb.pTime p
      (s.pcb.pTime p + ((now - s.startTOD) - s.ioProcTime))) :
    Leaving { s with pcb := pcb, trace := .leave (some p) now :: s.trace } := by
  refine h.enter (q := p) rfl rfl rfl ?_ ?_ fun _ => rfl
  · intro hq
    obtain ⟨hstart, hio⟩ := hq.running hcur
    obtain ⟨⟨hin, hnow⟩, hret, hretNow⟩ := hq.nonneg
    refine ⟨fun halive => ?_, fun hnone => (nomatch hnone), fun _ => ⟨rfl, rfl⟩,
      ⟨Int.add_nonneg hin hnow, le_refl _⟩, Int.add_nonneg hret hretNow, le_refl _⟩
    have htime := hq.time halive
    show pcb.pTime p = _
    rw [hp, Function.update_self, htime, hstart, hio]
    simp only [Account.entry]
    omega
  · intro q hq
    refine ⟨?_, iff_of_false (fun hnone => (nomatch hnone)) ?_, ?_⟩
    · show pcb.pTime q = s.pcb.pTime q
      rw [hp, Function.update_of_ne hq]
    · rw [hcur]
      exact fun he => hq (Option.some.inj he).symm
    · rw [hcur]
      exact fun he => absurd (Option.some.inj he).symm hq

/-- What every way to leave the CPU does to `p_time`. -/
theorem charge_does {γ : Type} {R : γ → Nucleus → Prop} (now : Int) {k : NucM γ}
    (hk : Does Leaving k R) : Does (fun s => Books s ∧ s.currentProc = some p) (do
      let s ← get
      phase1 (setPTime (some p) (s.pcb.pTime p + ((now - s.startTOD) - s.ioProcTime)))
      emit (.leave (some p) now)
      k) R := by
  refine Triple.get_bind fun s hs => ?_
  refine .bind (Q := fun _ t => t = { s with
      pcb.pTime := Function.update s.pcb.pTime p
        (s.pcb.pTime p + ((now - s.startTOD) - s.ioProcTime)) }) ?_ fun _ => ?_
  · rintro t rfl
    exact rfl
  · refine .bind (Q := fun _ => Leaving) (.modify ?_) fun _ => hk
    rintro t rfl
    exact hs.1.leave hs.2 now rfl

theorem blockCurrent_does (w : Word) : Does Books (blockCurrent w) fun _ => Leaving := by
  have hrest : Does Leaving (do
      phase1 (setPS (← get).currentProc (copyState (← get).sysOld))
      discard <| phase1 (insertBlocked w (← get).currentProc) : NucM Unit) fun _ => Leaving := by
    refine .skip leaving_stable .of_get fun _ => .skip leaving_stable .of_get fun _ => ?_
    refine .skip leaving_stable (.phase1 (setPS_keeps (fun _ _ => rfl) _ _)) fun _ => ?_
    refine .skip leaving_stable .of_get fun _ => ?_
    exact .idle leaving_stable (.of_discard (.phase1 (insertBlocked_keeps (fun _ _ => rfl) _ _)))
  refine .skip books_stable STCK_idles fun now => Triple.get_bind fun s hs => ?_
  cases hcur : s.currentProc with
  | none => exact fun _ _ => .inl (.inl rfl)
  | some p =>
      refine (charge_does now hrest).weaken ?_ fun _ _ h => h
      rintro t rfl
      exact ⟨hs, hcur⟩

theorem leave_does {Q : α → Nucleus → Prop} {k : NucM α} (hk : Does Vacant k Q) :
    Does Leaving (do setCurrentProc none; k) Q :=
  .bind (Q := fun _ => Vacant) (.modify fun _ hs => ⟨hs, rfl⟩) fun _ => hk

/-! ### The services -/

theorem Vacant.load {Q : α → Nucleus → Prop} (f : Nucleus → State) :
    Does Vacant (do LDST (f (← get)) : NucM α) Q :=
  (load_does f).weaken (fun _ hs => hs.books) fun _ _ h => h

theorem V_does : Does Books V fun _ => Books := by
  unfold V
  refine .skip books_stable .of_get fun _ => .skip books_stable (loadInt_idles _) fun _ => ?_
  refine .skip books_stable (storeInt_idles _ _) fun _ => ?_
  refine .skip books_stable (loadInt_idles _) fun _ => Does.ite (fun _ => ?_) fun _ => load_does _
  refine .skip books_stable (.phase1 (removeBlocked_keeps (fun _ _ => rfl) _)) fun p => ?_
  refine Does.ite (fun _ => ?_) fun _ => load_does _
  exact .skip books_stable (insertReady_idles _) fun _ => load_does _

theorem P_does : Does Books P fun _ => Books := by
  unfold P
  refine .skip books_stable .of_get fun _ => .skip books_stable (loadInt_idles _) fun _ => ?_
  refine .skip books_stable (storeInt_idles _ _) fun _ => ?_
  refine .skip books_stable (loadInt_idles _) fun _ => Does.ite (fun _ => ?_) fun _ => load_does _
  refine .bind (blockCurrent_does _) fun _ => leave_does ?_
  exact .bind scheduler_does fun _ => Vacant.load _

theorem waitSemDev_does (w : Word) : Does Books (waitSemDev w) fun _ => Books := by
  unfold waitSemDev
  refine .skip books_stable (loadInt_idles _) fun _ => ?_
  refine .skip books_stable (storeInt_idles _ _) fun _ => ?_
  refine .skip books_stable (loadInt_idles _) fun _ => Does.ite (fun _ => ?_) fun _ => load_does _
  refine .bind (blockCurrent_does _) fun _ => ?_
  refine .skip leaving_stable (.same fun _ => rfl) fun _ => leave_does ?_
  exact .bind scheduler_does fun _ => Vacant.load _

theorem setAreas_does (newArea : Payload Pcb → Pcb → Word)
    (set : Payload Pcb → Pcb → Word → Word → Payload Pcb)
    (hset : ∀ b p old new, (set b p old new).pTime = b.pTime) :
    Does Books (setAreas newArea set) fun _ => Books := by
  unfold setAreas
  refine .skip books_stable .of_get fun _ => .skip books_stable (.of_deref _) fun p => ?_
  refine .skip books_stable .of_get fun _ => Does.ite (fun _ => ?_) fun _ _ hs => hs
  have hmod : Idles (modify fun s : Nucleus =>
      { s with pcb := set s.pcb p s.sysOld.a2 s.sysOld.a3 }) :=
    .of_modify fun s => ⟨hset _ _ _ _, rfl, rfl, rfl, rfl, rfl, le_refl _, fun _ => rfl⟩
  exact .skip books_stable hmod fun _ => load_does _

theorem spectrapvec_does : Does Books (spectrapvec K) fun _ => Books := by
  have hdie := die_does (K := K)
  unfold spectrapvec
  refine .skip books_stable .of_get fun _ => ?_
  refine Does.ite (fun _ => .bind (setAreas_does _ _ ?_) fun _ => hdie) fun _ => ?_
  · exact fun _ _ _ _ => rfl
  refine Does.ite (fun _ => .bind (setAreas_does _ _ ?_) fun _ => hdie) fun _ => ?_
  · exact fun _ _ _ _ => rfl
  refine Does.ite (fun _ => .bind (setAreas_does _ _ ?_) fun _ => hdie) fun _ => hdie
  exact fun _ _ _ _ => rfl

theorem getcputime_does : Does Books getcputime fun _ => Books := by
  unfold getcputime
  refine .skip books_stable STCK_idles fun _ => .skip books_stable .of_get fun _ => ?_
  refine .skip books_stable (getPTime_idles _) fun _ => .skip books_stable .of_get fun _ => ?_
  exact .skip books_stable (setSysOld_idles _) fun _ => load_does _

theorem waitio_does : Does Books (waitio K) fun _ => Books := by
  unfold waitio
  refine .skip books_stable .of_get fun _ => .skip books_stable .of_get fun _ => ?_
  refine .skip books_stable .of_get fun _ => Does.ite (fun _ => ?_) fun _ => waitSemDev_does _
  refine terminate_does (.bind scheduler_does fun _ => ?_)
  exact (waitSemDev_does _).weaken (fun _ hs => hs.books) fun _ _ h => h

theorem pUoDHelper_does (new old : Word) (trap : Nucleus → State) :
    Does Books (pUoDHelper K new old trap) fun _ => Books := by
  have hpass : Does Books (do
      modify fun s => { s with mem := storeState s.mem old (copyState (trap s)) }
      LDST (stateAt (← get).mem new) : NucM Unit) fun _ => Books :=
    .skip books_stable (.same fun _ => rfl) fun _ => load_does _
  unfold pUoDHelper
  refine Does.ite (fun _ => terminate_does (.bind scheduler_does fun _ => ?_)) fun _ => hpass
  exact hpass.weaken (fun _ hs => hs.books) fun _ _ h => h

theorem passUpOrDie_does (type : Word) : Does Books (passUpOrDie K type) fun _ => Books := by
  unfold passUpOrDie
  refine .skip books_stable .of_get fun _ => .skip books_stable (.of_deref _) fun _ => ?_
  refine .skip books_stable .of_get fun _ => Does.ite (fun _ => pUoDHelper_does _ _ _) fun _ => ?_
  refine Does.ite (fun _ => pUoDHelper_does _ _ _) fun _ => ?_
  exact Does.ite (fun _ => pUoDHelper_does _ _ _) fun _ _ hs => hs

theorem sysSwitch_does (call : Word) : Does Books (sysSwitch K call) fun _ => Books := by
  unfold sysSwitch
  refine Does.ite (fun _ => createprocess_does) fun _ => Does.ite (fun _ => die_does) fun _ => ?_
  refine Does.ite (fun _ => V_does) fun _ => Does.ite (fun _ => P_does) fun _ => ?_
  refine Does.ite (fun _ => spectrapvec_does) fun _ => Does.ite (fun _ => getcputime_does) fun _ => ?_
  refine Does.ite (fun _ => waitSemDev_does _) fun _ => ?_
  exact Does.ite (fun _ => waitio_does) fun _ => passUpOrDie_does _

theorem sysCallHandler_does : Does Books (sysCallHandler K) fun _ => Books := by
  have hcall : ∀ call, Does Books (do
      setSysOld { (← get).sysOld with sPc := (← get).sysOld.sPc + WORDLEN }
      sysSwitch K call) fun _ => Books := by
    intro call
    refine .skip books_stable .of_get fun _ => .skip books_stable .of_get fun _ => ?_
    exact .skip books_stable (setSysOld_idles _) fun _ => sysSwitch_does call
  unfold sysCallHandler
  refine .skip books_stable .of_get fun _ => .skip books_stable .of_get fun _ => ?_
  refine Does.ite (fun _ => ?_) fun _ => hcall _
  refine .skip books_stable (.same fun _ => rfl) fun _ => ?_
  refine .skip books_stable (.same fun _ => rfl) fun _ => ?_
  exact .bind (passUpOrDie_does _) fun _ => hcall _

/-! ### Interrupts -/

/-- The clock was read at `timeStart`, if a process runs. -/
structure Since (timeStart : Int) (s : Nucleus) : Prop where
  books : Books s
  le : s.currentProc ≠ none → timeStart ≤ s.tod s.reads

theorem since_stable (timeStart : Int) : Stable (Since timeStart) := by
  intro s t hst h
  have hmono : Monotone s.tod := monotone_nat_of_le_succ h.books.ticks
  refine ⟨h.books.congr hst, fun hne => ?_⟩
  rw [hst.currentProc] at hne
  rw [hst.tod]
  exact (h.le hne).trans (hmono hst.reads)

theorem since_STCK (timeStart : Int) :
    Does (Since timeStart) STCK fun timeEnd s =>
      Books s ∧ (s.currentProc ≠ none → timeStart ≤ timeEnd) :=
  fun s hs => ⟨hs.books.congr (STCK_idles s), hs.le⟩

theorem unblockClock_idles (w : Word) (fuel : Nat) : Idles (unblockClock w fuel) := by
  induction fuel with
  | zero => exact fun _ => .inr rfl
  | succ fuel ih =>
      unfold unblockClock
      refine .bind (.phase1 (headBlocked_keeps w)) fun _ => .ite ?_ (.pure _)
      refine .bind (.phase1 (removeBlocked_keeps (fun _ _ => rfl) w)) fun p => .ite ?_ ih
      exact .bind (.same fun _ => rfl) fun _ => .bind (insertReady_idles p) fun _ => ih

theorem ivtimInterrupt_idles : Idles (ivtimInterrupt K) :=
  .bind (unblockClock_idles _ _) fun _ => .bind (storeInt_idles _ _) fun _ => .same fun _ => rfl

theorem acknowledge_idles (lineNo devNo : Int) : Idles (acknowledge lineNo devNo) := by
  have hack : ∀ (f : Nucleus → Word → Device) (r : Word × Int),
      Idles (do modify fun s => { s with devReg := f s }; return r : NucM (Word × Int)) :=
    fun _ r => .bind (.same fun _ => rfl) fun _ => .pure r
  unfold acknowledge
  exact .bind .of_get fun _ => .ite (.ite (hack _ _) (hack _ _)) (hack _ _)

theorem deviceInterrupt_does (timeStart lineNo : Int) :
    Does (Since timeStart) (deviceInterrupt K lineNo) fun _ => Since timeStart := by
  have hP := since_stable timeStart
  unfold deviceInterrupt
  refine .skip hP .of_get fun _ => Does.ite (fun _ => .stop_bind fun _ hs => hs.books) fun _ => ?_
  refine .skip hP (acknowledge_idles _ _) fun r => .skip hP (loadInt_idles _) fun _ => ?_
  refine .skip hP (storeInt_idles _ _) fun _ => .skip hP (loadInt_idles _) fun _ => ?_
  refine Does.ite (fun _ => ?_) fun _ => .idle hP (.same fun _ => rfl)
  refine .skip hP (.phase1 (removeBlocked_keeps (fun _ _ => rfl) _)) fun p => ?_
  refine Does.ite (fun _ => ?_) fun _ => .idle hP (.pure _)
  refine .skip hP (.same fun _ => rfl) fun _ => .skip hP (getPS_idles p) fun _ => ?_
  exact .skip hP (.phase1 (setPS_keeps (fun _ _ => rfl) _ _)) fun _ => .idle hP (insertReady_idles p)

/-- An interrupt that returns: the code subtracts where it should add. -/
theorem Books.handled (h : Books s) {q : Option Pcb} (hcur : s.currentProc = q)
    {timeStart timeEnd : Int} (hle : q ≠ none → timeStart ≤ timeEnd) :
    Books { s with
      ioProcTime := s.ioProcTime + (timeStart - timeEnd)
      trace := .handled q timeStart timeEnd :: s.trace } := by
  cases q with
  | none =>
      have hnote := h.note (o := .handled none timeStart timeEnd) rfl
      refine ⟨h.ticks, fun p => ?_, h.waiting⟩
      refine (hnote.booked p).congr rfl Iff.rfl fun hp => ?_
      have hp' : s.currentProc = some p := hp
      rw [hcur] at hp'
      cases hp'
  | some p =>
      have hle' := hle (by simp)
      refine h.enter (q := p) rfl rfl rfl ?_ ?_ h.waiting
      · intro hq
        obtain ⟨hstart, hio⟩ := hq.running hcur
        obtain ⟨⟨hin, hnow⟩, hret, hretNow⟩ := hq.nonneg
        refine ⟨hq.time, fun _ => ⟨hstart, ?_⟩, fun hne => absurd hcur hne, ⟨hin, ?_⟩, hret, ?_⟩
        · show s.ioProcTime + (timeStart - timeEnd) = _
          simp only [Account.entry]
          omega
        · simp only [Account.entry]
          omega
        · simp only [Account.entry]
          omega
      · intro q hq
        refine ⟨rfl, Iff.rfl, ?_⟩
        rw [hcur]
        exact fun he => absurd (Option.some.inj he).symm hq

/-- An interrupt that ends the quantum: the code adds. -/
theorem Books.expired (h : Books s) (hcur : s.currentProc = some p) {timeStart timeEnd : Int}
    (hle : timeStart ≤ timeEnd) :
    Books { s with
      ioProcTime := s.ioProcTime + (timeEnd - timeStart)
      trace := .expired (some p) timeStart timeEnd :: s.trace } := by
  refine h.enter (q := p) rfl rfl rfl ?_ ?_ h.waiting
  · intro hq
    obtain ⟨hstart, hio⟩ := hq.running hcur
    obtain ⟨⟨hin, hnow⟩, hret, hretNow⟩ := hq.nonneg
    refine ⟨hq.time, fun _ => ⟨hstart, ?_⟩, fun hne => absurd hcur hne, ⟨hin, ?_⟩, hret, hretNow⟩
    · show s.ioProcTime + (timeEnd - timeStart) = _
      simp only [Account.entry]
      omega
    · simp only [Account.entry]
      omega
  · intro q hq
    refine ⟨rfl, Iff.rfl, ?_⟩
    rw [hcur]
    exact fun he => absurd (Option.some.inj he).symm hq

theorem plocInterrupt_does (timeStart : Int) :
    Does (Since timeStart) (plocInterrupt timeStart) fun _ => Vacant := by
  have hend : Does Vacant (do setTIMER QUANTUM; scheduler) fun _ => Vacant :=
    .skip vacant_stable (.same fun _ => rfl) fun _ => scheduler_does
  have hrest : Does Leaving (do
      phase1 (setPS (← get).currentProc (copyState (← get).intOld))
      insertReady (← get).currentProc
      setCurrentProc none
      setTIMER QUANTUM
      scheduler) fun _ => Vacant := by
    refine .skip leaving_stable .of_get fun _ => .skip leaving_stable .of_get fun _ => ?_
    refine .skip leaving_stable (.phase1 (setPS_keeps (fun _ _ => rfl) _ _)) fun _ => ?_
    refine .skip leaving_stable .of_get fun _ => ?_
    exact .skip leaving_stable (insertReady_idles _) fun _ => leave_does hend
  unfold plocInterrupt
  refine .bind (since_STCK timeStart) fun timeEnd => Triple.get_bind fun s hs => ?_
  obtain ⟨hbooks, hle⟩ := hs
  refine Does.ite (fun hne => ?_) fun hnone => ?_
  · obtain ⟨p, hcur⟩ := Option.ne_none_iff_exists'.mp hne
    -- `s'` is the state in which `p_time` is charged
    refine Does.bind (Q := fun _ t => t = { s with
      ioProcTime := s.ioProcTime + (timeEnd - timeStart) }) (.modify ?_) fun _ => ?_
    · rintro t rfl
      rfl
    refine Triple.get_bind ?_
    rintro s' rfl
    refine Does.bind (Does.of_deref s.currentProc) fun q => Triple.get_bind ?_
    rintro s' ⟨rfl, hq⟩
    rw [hcur, Option.some.injEq] at hq
    subst hq
    refine Does.bind (Q := fun _ t => t = { s with
      ioProcTime := s.ioProcTime + (timeEnd - timeStart)
      pcb.pTime := Function.update s.pcb.pTime p (s.pcb.pTime p +
        ((timeEnd - s.startTOD) - (s.ioProcTime + (timeEnd - timeStart)))) }) ?_ fun _ => ?_
    · rintro t rfl
      rfl
    refine Does.bind (Q := fun _ t => t = { s with
      ioProcTime := s.ioProcTime + (timeEnd - timeStart)
      pcb.pTime := Function.update s.pcb.pTime p (s.pcb.pTime p +
        ((timeEnd - s.startTOD) - (s.ioProcTime + (timeEnd - timeStart))))
      trace := .expired (some p) timeStart timeEnd :: s.trace }) (.modify ?_) fun _ => ?_
    · rintro t rfl
      rfl
    refine Does.bind (Q := fun _ => Leaving) (.modify ?_) fun _ => hrest
    rintro t rfl
    exact (hbooks.expired hcur (hle hne)).leave hcur timeEnd rfl
  · refine hend.weaken ?_ fun _ _ h => h
    rintro t rfl
    exact ⟨hbooks, not_not.mp hnone⟩

theorem ioSwitch_does (timeStart lineNo : Int) :
    Does (Since timeStart) (ioSwitch K lineNo timeStart) fun _ => Since timeStart := by
  unfold ioSwitch
  refine Does.ite (fun _ => .stop fun _ hs => hs.books) fun _ => Does.ite (fun _ => ?_) fun _ => ?_
  · refine (plocInterrupt_does timeStart).weaken (fun _ h => h) fun _ s hs => ?_
    exact ⟨hs.books, fun hne => absurd hs.currentProc hne⟩
  · refine Does.ite (fun _ => ?_) fun _ => deviceInterrupt_does _ _
    exact .idle (since_stable _) ivtimInterrupt_idles

theorem ioTrapHandler_does : Does Books (ioTrapHandler K) fun _ => Books := by
  have hend : ∀ timeStart, Does (Since timeStart) (do
      let timeEnd ← STCK
      modify fun s => { s with ioProcTime := s.ioProcTime + (timeStart - timeEnd) }
      emit (.handled (← get).currentProc timeStart timeEnd)
      LDST (← get).intOld : NucM Unit) fun _ => Books := by
    intro timeStart
    refine .bind (since_STCK timeStart) fun timeEnd => ?_
    intro s hs
    exact .inr (hs.1.handled rfl hs.2)
  have hstart : Does Books STCK fun timeStart => Since timeStart :=
    fun s hs => ⟨hs.congr (STCK_idles s), fun _ => hs.ticks s.reads⟩
  unfold ioTrapHandler
  refine .bind hstart fun timeStart => ?_
  refine .skip (since_stable _) .of_get fun _ => .bind (ioSwitch_does _ _) fun _ => ?_
  refine Triple.get_bind fun s hs => Does.ite (fun hwait => ?_) fun _ => ?_
  · refine Does.weaken (P := Vacant) (.bind scheduler_does fun _ => ?_) ?_ fun _ _ h => h
    · refine (hend timeStart).weaken ?_ fun _ _ h => h
      exact fun t ht => ⟨ht.books, fun hne => absurd ht.currentProc hne⟩
    · rintro t rfl
      exact ⟨hs.books, hs.books.waiting hwait⟩
  · refine (hend timeStart).weaken ?_ fun _ _ h => h
    rintro t rfl
    exact hs

/-! ## Steps and runs -/

theorem Machine.enter_books {x : NucM Unit} {s : Nucleus} (hx : Does Books x fun _ => Books)
    (hs : Books s) : (Machine.enter x s).cpu.Lost ∨ Books (Machine.enter x s).nuc := by
  have hxs := hx s hs
  unfold Machine.enter
  cases hrun : x s with
  | error e t =>
      rw [hrun] at hxs
      exact hxs
  | ok a t => exact .inl (.inl rfl)

/-- Whatever happens, the books stay in order as long as control is not lost. -/
theorem Machine.step_books (m : Machine) (e : Event) (h : m.cpu.Lost ∨ Books m.nuc) :
    (m.step K e).cpu.Lost ∨ Books (m.step K e).nuc := by
  by_cases htakes : m.cpu.Takes e
  · have hbooks : Books m.nuc := by
      refine h.resolve_left ?_
      rintro (hlost | hlost) <;> rw [hlost] at htakes <;> revert htakes <;> cases e <;>
        simp [Stop.Takes, Stop.Running]
    have hsame : ∀ s, Steady m.nuc s → Books s := fun s hst => hbooks.congr hst
    rw [Machine.step, if_pos htakes]
    cases e with
    | store a v => exact .inr (hsame _ ⟨rfl, rfl, rfl, rfl, rfl, rfl, le_refl _, fun _ => rfl⟩)
    | syscall st =>
        exact Machine.enter_books sysCallHandler_does
          (hsame _ ⟨rfl, rfl, rfl, rfl, rfl, rfl, le_refl _, fun _ => rfl⟩)
    | progTrap st | tlbTrap st =>
        exact Machine.enter_books (passUpOrDie_does _)
          (hsame _ ⟨rfl, rfl, rfl, rfl, rfl, rfl, le_refl _, fun _ => rfl⟩)
    | interrupt st i d =>
        exact Machine.enter_books ioTrapHandler_does
          (hsame _ ⟨rfl, rfl, rfl, rfl, rfl, rfl, le_refl _, fun _ => rfl⟩)
  · rw [Machine.step, if_neg htakes]
    exact h

end Kaya
