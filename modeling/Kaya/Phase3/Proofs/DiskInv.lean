import Kaya.Phase3.Proofs.DiskRules
import Kaya.Phase3.Proofs.Mutex

/-!
# Disk 0 during a run

At most one process is in a call of `diskIO`, and its place in the call says whether its command
is in progress, where the heads are and whether interrupts can come.
-/

namespace Kaya.Phase3

open Lib

variable {ι : Type} [DecidableEq ι]

/-- Who wrote the command that is in progress. -/
def pending : List (Obs ι) → Option ι
  | [] => none
  | .did d :: tr =>
      match d.a with
      | .setCommand reg _ => if reg = Sys.disk0Reg then some d.p else pending tr
      | _ => pending tr
  | .done _ :: _ => none
  | _ :: tr => pending tr

namespace Stage

def Shut : Stage → Prop
  | owned b | positioned _ b | loaded _ b => b = true
  | seeking _ | moving _ => True
  | _ => False

end Stage

/-! ## What the rules say about a log -/

section Step

variable {g : Stage} {a : Act} {r : Word} {x : View}

theorem next_out_iff (hmay : diskRules.may g a) :
    diskRules.next g a r x ≠ .out ↔ a.held disk0sem (g ≠ .out) := by
  cases a with
  | passeren y =>
    simp only [diskRules, Act.held]
    split_ifs with hy <;> simp [hy]
  | verhogen y =>
    simp only [diskRules, Act.held]
    split_ifs with hy <;> simp [hy]
  | waitio l d u =>
    simp only [diskRules, Act.held]
    split_ifs
    · cases g <;> simp only [Stage.answered, ne_eq, not_true_eq_false, not_false_eq_true, reduceCtorEq] <;>
        split_ifs <;> simp
    · rfl
  | setCommand reg v =>
    simp only [diskRules, Act.held] at hmay ⊢
    split_ifs at hmay ⊢
    · rcases hmay with ⟨rfl, -⟩ | ⟨w, rfl⟩ <;> simp
    · rfl
  | setData0 reg v =>
    simp only [diskRules, Act.held] at hmay ⊢
    split_ifs at hmay ⊢
    · obtain ⟨w, b, rfl⟩ := hmay
      simp
    · rfl
  | setSTATUS status => cases g <;> simp [diskRules, Act.held, Stage.setShut]
  | _ => exact Iff.rfl

end Step

namespace Sys

/-- Where `p` is in a call of `diskIO`. -/
def stage (log : List (Did ι Act Word View)) (p : ι) : Stage :=
  ghost (fun _ => diskRules) (fun _ => .out) p log

abbrev DiskLive (s : Sys ι) : Prop := s.Live (fun _ => diskRules) (fun _ => .out) fun _ => .out

/-- The actions of a log kept to the rules. -/
abbrev DiskAllowed (log : List (Did ι Act Word View)) : Prop :=
  Allowed (fun _ => diskRules) (fun _ => .out) log

abbrev DiskAdmitted (log : List (Did ι Act Word View)) : Prop :=
  Admitted (fun _ => diskRules) (fun _ => .out) log

variable {p q : ι} {log : List (Did ι Act Word View)} {d : Did ι Act Word View}

theorem stage_cons_self (hp : d.p = p) :
    stage (d :: log) p = diskRules.next (stage log p) d.a d.r d.x := ghost_cons_self hp

theorem stage_cons_of_ne (hp : d.p ≠ p) : stage (d :: log) p = stage log p := ghost_cons_of_ne hp

/-- Outside of a call nobody holds the semaphore. -/
theorem holds_iff (h : DiskAllowed log) (p : ι) :
    Holds disk0sem p log ↔ stage log p ≠ .out := by
  induction log with
  | nil => exact ⟨False.elim, fun hne => absurd rfl hne⟩
  | cons d log ih =>
    obtain ⟨hmay, hlog⟩ := h
    by_cases hp : d.p = p
    · subst hp
      have hmay : diskRules.may (stage log d.p) d.a := hmay
      rw [stage_cons_self rfl, next_out_iff hmay, Holds, if_pos rfl, ih hlog]
    · rw [holds_cons_of_ne hp, stage_cons_of_ne hp]
      exact ih hlog

theorem guarded_disk0 : Guarded (ι := ι) (fun _ => diskRules) (fun _ => .out) disk0sem := by
  intro p log hlog hmay
  rw [holds_iff hlog]
  change diskRules.may (stage log p) _ at hmay
  simp only [diskRules, if_true] at hmay
  rw [hmay]
  exact nofun

end Sys

/-! ## The disk during a run -/

def Act.OnDisk : Act → Prop
  | .waitio l d u => OnDisk0 l d u
  | _ => False

/-- The action has nothing to do with disk 0 or with interrupts. -/
def Act.Calm : Act → Prop
  | .passeren x | .verhogen x => x ≠ disk0sem
  | .waitio l d u => ¬ OnDisk0 l d u
  | .setCommand reg _ | .setData0 reg _ => reg ≠ Sys.disk0Reg
  | .setSTATUS _ => False
  | _ => True

section Step

variable {g : Stage} {a : Act} {r : Word} {x : View}

theorem Stage.Quiet.not_busy (h : g.Quiet) : ¬ g.Busy := by
  rcases h with rfl | rfl <;> exact id

theorem Stage.Quiet.not_shut (h : g.Quiet) : ¬ g.Shut := by
  rcases h with rfl | rfl <;> exact id

theorem Act.Calm.next (ha : a.Calm) : diskRules.next g a r x = g := by
  cases a with
  | passeren | verhogen | waitio | setCommand | setData0 => exact if_neg ha
  | setSTATUS => exact ha.elim
  | _ => rfl

theorem Act.Calm.admits (ha : a.Calm) : diskRules.admits g a r x := by
  cases a with
  | setCommand reg v => exact fun hreg => absurd hreg ha
  | _ => exact trivial

theorem Act.Calm.not_onDisk (ha : a.Calm) : ¬ a.OnDisk := by
  cases a with
  | waitio l d u => exact ha
  | _ => exact id

theorem Act.Calm.disk (ha : a.Calm) (disk : Disk) : a.onDisk disk = disk := by
  cases a with
  | setCommand | setData0 => exact if_neg ha
  | _ => rfl

theorem Act.Calm.status (ha : a.Calm) (status : Word) : a.onStatus status = status := by
  cases a with
  | setSTATUS => exact ha.elim
  | _ => rfl

end Step

def OwnStatus : List (Obs ι) → Prop
  | [] => True
  | .did d :: tr =>
      (d.a.OnDisk → ∃ tr', tr = .done d.r :: tr' ∧ pending tr' = some d.p) ∧ OwnStatus tr
  | _ :: tr => OwnStatus tr

omit [DecidableEq ι] in
theorem OwnStatus.suffix {tr tr' : List (Obs ι)} (h : OwnStatus (tr' ++ tr)) : OwnStatus tr := by
  induction tr' with
  | nil => exact h
  | cons o tr' ih =>
    cases o with
    | did d => exact ih h.2
    | _ => exact ih h

namespace Sys

variable {s t : Sys ι} {p q : ι} {g g' : Stage} {a : Act} {k : Word → Prog} {r : Word}

def Idle (s : Sys ι) : Prop := s.disk.busy = none ∧ (s.dev 0).value = 0

/-- The command `w` of `p` is in progress. -/
structure Runs (s : Sys ι) (p : ι) (w : Word) : Prop where
  busy : s.disk.busy = some w
  pending : pending s.trace = some p
  waits : s.running = some p ∧ (s.dev 0).value = 0 ∨
    s.running ≠ some p ∧ (s.dev 0).waiters = [p]

/-- What holds of the disk while `p` is somewhere in a call. -/
def Fits (s : Sys ι) (p : ι) : Stage → Prop
  | .out => True
  | .owned _ | .finished | .lost => s.Idle
  | .seeking w => s.Runs p w ∧ opOf w = SEEKCYL
  | .positioned w _ | .loaded w _ => s.Idle ∧ s.disk.cyl = cylOf w
  | .moving _ => ∃ w, s.Runs p w

structure DiskInv (s : Sys ι) : Prop where
  shut : ∀ p, (stage s.log p).Shut → ¬ (s.task p).Open
  fits : ∀ p, s.Fits p (stage s.log p)
  idle : (∀ p, stage s.log p = .out) → s.Idle

/-- Nothing happened to the disk. -/
structure SameDisk (s t : Sys ι) : Prop where
  busy : t.disk.busy = s.disk.busy
  cyl : t.disk.cyl = s.disk.cyl
  dev : t.dev 0 = s.dev 0
  pending : pending t.trace = pending s.trace

omit [DecidableEq ι] in
theorem Idle.same (h : s.Idle) (hsame : SameDisk s t) : t.Idle :=
  ⟨hsame.busy.trans h.1, by rw [hsame.dev, h.2]⟩

omit [DecidableEq ι] in
theorem Fits.same (h : s.Fits p g) (hsame : SameDisk s t)
    (hrun : g.Busy → (t.running = some p ↔ s.running = some p)) : t.Fits p g := by
  have hruns : g.Busy → ∀ w, s.Runs p w → t.Runs p w := by
    intro hbusy w hw
    refine ⟨hsame.busy.trans hw.busy, hsame.pending.trans hw.pending, ?_⟩
    rw [hsame.dev, hrun hbusy, ne_eq, hrun hbusy]
    exact hw.waits
  cases g with
  | out => exact trivial
  | owned | finished | lost => exact h.same hsame
  | seeking w => exact ⟨hruns trivial w h.1, h.2⟩
  | positioned w b | loaded w b => exact ⟨h.1.same hsame, hsame.cyl.trans h.2⟩
  | moving w =>
    obtain ⟨v, hv⟩ := h
    exact ⟨v, hruns trivial v hv⟩

/-- The process is where it was. -/
structure Stays (s t : Sys ι) (p : ι) : Prop where
  stage : stage t.log p = stage s.log p
  running : (Sys.stage s.log p).Busy → (t.running = some p ↔ s.running = some p)
  status : (Sys.stage s.log p).Shut → (t.task p).status = (s.task p).status

/-- The process moved on in its call, and what holds there holds. -/
structure Advances (s t : Sys ι) (p : ι) : Prop where
  shut : (stage t.log p).Shut → ¬ (t.task p).Open
  fits : t.Fits p (stage t.log p)
  out : stage t.log p = .out → stage s.log p = .out

theorem DiskInv.same (hi : s.DiskInv) (hsame : SameDisk s t)
    (h : ∀ p, Stays s t p ∨ Advances s t p) : t.DiskInv := by
  refine ⟨fun p => ?_, fun p => ?_, fun hout => ?_⟩
  · rcases h p with hp | hp
    · rw [hp.stage]
      intro hshut
      rw [Task.Open, hp.status hshut]
      exact hi.shut p hshut
    · exact hp.shut
  · rcases h p with hp | hp
    · rw [hp.stage]
      exact (hi.fits p).same hsame hp.running
    · exact hp.fits
  · refine (hi.idle fun p => ?_).same hsame
    rcases h p with hp | hp
    · exact hp.stage.symm.trans (hout p)
    · exact hp.out (hout p)

/-- One process is in a call, the others are not. -/
theorem DiskInv.of_one (p : ι) (hshut : (stage t.log p).Shut → ¬ (t.task p).Open)
    (hfits : t.Fits p (stage t.log p)) (hothers : ∀ q, q ≠ p → stage t.log q = .out)
    (hidle : stage t.log p = .out → t.Idle) : t.DiskInv := by
  refine ⟨fun q => ?_, fun q => ?_, fun hout => hidle (hout p)⟩
  · by_cases hqp : q = p
    · exact hqp ▸ hshut
    · rw [hothers q hqp]
      exact False.elim
  · by_cases hqp : q = p
    · exact hqp ▸ hfits
    · rw [hothers q hqp]
      exact trivial

/-- At most one process is in a call. -/
theorem Mutex.others (hm : s.Mutex disk0sem) (h : s.DiskLive) (hp : stage s.log p ≠ .out)
    (q : ι) (hqp : q ≠ p) : stage s.log q = .out := by
  by_contra hq
  have hallowed := h.keeps.allowed
  exact hqp (hm.exclusive.unique ((holds_iff hallowed q).mpr hq) ((holds_iff hallowed p).mpr hp))

/-! ## Steps -/

/-- What a step keeps. -/
structure DiskStep (s t : Sys ι) : Prop where
  inv : t.DiskInv
  admitted : DiskAdmitted s.log → DiskAdmitted t.log
  own : OwnStatus s.trace → OwnStatus t.trace

theorem DiskStep.trans {u : Sys ι} (h : DiskStep s t) (h' : t.DiskInv → DiskStep t u) :
    DiskStep s u :=
  have h' := h' h.inv
  ⟨h'.inv, fun ha => h'.admitted (h.admitted ha), fun ho => h'.own (h.own ho)⟩

theorem DiskInv.still (hi : s.DiskInv) (hlog : t.log = s.log) (hsame : SameDisk s t)
    (hown : OwnStatus s.trace → OwnStatus t.trace)
    (hrun : ∀ q, (stage s.log q).Busy → (t.running = some q ↔ s.running = some q))
    (hstatus : ∀ q, (stage s.log q).Shut → (t.task q).status = (s.task q).status) :
    DiskStep s t where
  inv := hi.same hsame fun q => .inl ⟨by rw [hlog], hrun q, hstatus q⟩
  admitted := by
    rw [hlog]
    exact id
  own := hown

omit [DecidableEq ι] in
theorem own_trace {l : List (Obs ι)} (tr : List (Obs ι)) (h : ∀ o ∈ l, Obs.Own o) :
    pending (l ++ tr) = pending tr ∧ (OwnStatus tr → OwnStatus (l ++ tr)) := by
  induction l with
  | nil => exact ⟨rfl, id⟩
  | cons o l ih =>
    rw [List.forall_mem_cons] at h
    obtain ⟨h1, h2⟩ := ih h.2
    cases o with
    | did d => exact h.1.elim
    | done status => exact h.1.elim
    | died | loaded | stored => exact ⟨h1, h2⟩

/-- The running process does something of its own, not in the middle of a call. -/
theorem DiskInv.ownStep (hi : s.DiskInv) (hrun : s.running = some p)
    (hquiet : (stage s.log p).Quiet) (ho : s.Own p t) : DiskStep s t := by
  obtain ⟨l, hl, hown⟩ := ho.trace
  obtain ⟨hpend, hstat⟩ := own_trace s.trace hown
  rw [← hl] at hpend hstat
  have hother : ∀ q, (stage s.log q).Busy ∨ (stage s.log q).Shut → q ≠ p := by
    rintro q hq rfl
    exact hq.elim (Stage.Quiet.not_busy hquiet) (Stage.Quiet.not_shut hquiet)
  refine hi.still ho.still.log ⟨?_, ?_, ?_, hpend⟩ hstat (fun q hq => ?_) fun q hq => ?_
  · rw [ho.disk]
  · rw [ho.disk]
  · rw [ho.dev]
  · have hqp := hother q (.inl hq)
    refine ⟨ho.running q, fun hq' => ?_⟩
    rw [hrun] at hq'
    exact absurd (Option.some.inj hq').symm hqp
  · rw [ho.task q (hother q (.inr hq))]

/-- `p` got the answer `r` to `a`. -/
structure Answered (s : Sys ι) (p : ι) (a : Act) (r : Word) (t : Sys ι) : Prop where
  entry : ∃ x : View, x.cyl = s.disk.cyl ∧ t.log = ⟨p, a, r, x⟩ :: s.log ∧
    t.trace = .did ⟨p, a, r, x⟩ :: s.trace
  disk : t.disk = a.onDisk s.disk
  dev : t.dev 0 = s.dev 0
  running : t.running = s.running
  status : ∀ q, q = p ∨ stage s.log q ≠ .out →
    (t.task q).status = if q = p then a.onStatus (s.task p).status else (s.task q).status

theorem DiskLive.stage_unborn (h : s.DiskLive) (hp : s.life p = .unborn) :
    stage s.log p = .out := ghost_eq_of_forall_ne (h.sane.unborn p hp)

section Answer

variable {x : View}

omit [DecidableEq ι] in
theorem pending_did {d : Did ι Act Word View} {tr : List (Obs ι)}
    (h : ∀ v, d.a ≠ .setCommand disk0Reg v) : pending (.did d :: tr) = pending tr := by
  rw [Phase3.pending]
  split
  · rename_i reg v heq
    rw [if_neg]
    rintro rfl
    exact h v heq
  · rfl

/-- Statuses are as they were, but for the process that set its own. -/
theorem Answered.stays (ha : s.Answered p a r t) (hq : q ≠ p) : Stays s t q := by
  obtain ⟨x, -, hlog, -⟩ := ha.entry
  refine ⟨?_, fun _ => by rw [ha.running], fun hshut => ?_⟩
  · rw [hlog]
    exact stage_cons_of_ne (Ne.symm hq)
  · have hout : stage s.log q ≠ .out := by
      intro hout
      rw [hout] at hshut
      exact hshut
    rw [ha.status q (.inr hout), if_neg hq]

theorem DiskInv.calm (hi : s.DiskInv) (ha : s.Answered p a r t) (hcalm : a.Calm) :
    DiskStep s t := by
  obtain ⟨x, hcyl, hlog, htrace⟩ := ha.entry
  have hstage : ∀ q, stage t.log q = stage s.log q := by
    intro q
    by_cases hq : q = p
    · subst hq
      rw [hlog, stage_cons_self rfl]
      exact hcalm.next
    · exact (ha.stays hq).stage
  have hpend : pending t.trace = pending s.trace := by
    rw [htrace]
    refine pending_did fun v heq => ?_
    have heq : a = .setCommand disk0Reg v := heq
    rw [heq] at hcalm
    exact hcalm rfl
  refine ⟨hi.same ⟨?_, ?_, ha.dev, hpend⟩ fun q => .inl ⟨hstage q, fun _ => by rw [ha.running], ?_⟩,
    fun hadm => ?_, fun hown => ?_⟩
  · rw [ha.disk, hcalm.disk]
  · rw [ha.disk, hcalm.disk]
  · intro hshut
    have hout : stage s.log q ≠ .out := by
      intro hout
      rw [hout] at hshut
      exact hshut
    rw [ha.status q (.inr hout), hcalm.status]
    split_ifs with hq
    · rw [hq]
    · rfl
  · rw [hlog]
    exact ⟨hcalm.admits, hadm⟩
  · rw [htrace]
    exact ⟨fun hd => absurd hd hcalm.not_onDisk, hown⟩

/-- An action of a process that is alone in a call. -/
theorem DiskStep.alone (ha : s.Answered p a r t)
    (hothers : ∀ q, q ≠ p → stage s.log q = .out)
    (hg : ∀ x, diskRules.next (stage s.log p) a r x = g)
    (hshut : g.Shut → ¬ (t.task p).Open) (hfits : t.Fits p g) (hout : g = .out → t.Idle)
    (hadm : ∀ x : View, x.cyl = s.disk.cyl → diskRules.admits (stage s.log p) a r x)
    (hdisk : ¬ a.OnDisk) : DiskStep s t := by
  obtain ⟨x, hcyl, hlog, htrace⟩ := ha.entry
  have hstage : stage t.log p = g := by
    rw [hlog, stage_cons_self rfl]
    exact hg x
  refine ⟨DiskInv.of_one p ?_ ?_ (fun q hq => ?_) ?_, fun hlog' => ?_, fun hown => ?_⟩
  · rwa [hstage]
  · rwa [hstage]
  · rw [(ha.stays hq).stage]
    exact hothers q hq
  · rwa [hstage]
  · rw [hlog]
    exact ⟨hadm x hcyl, hlog'⟩
  · rw [htrace]
    exact ⟨fun hd => absurd hd hdisk, hown⟩

theorem DiskInv.enters (hi : s.DiskInv) (hall : ∀ q, stage s.log q = .out)
    (ha : s.Answered p (.passeren disk0sem) r t) : DiskStep s t := by
  have hidle := hi.idle hall
  refine .alone (g := .owned false) ha (fun q _ => hall q) (fun _ => ?_) nofun ⟨?_, ?_⟩ nofun
    (fun _ _ => trivial) id
  · simp only [diskRules, if_true]
  · rw [ha.disk]
    exact hidle.1
  · rw [ha.dev]
    exact hidle.2

/-- The process that set its status keeps its place. -/
theorem DiskInv.setSTATUS (hi : s.DiskInv) {status : Word}
    (hmay : ¬ (stage s.log p).Busy) (ha : s.Answered p (.setSTATUS status) r t) : DiskStep s t := by
  obtain ⟨x, hcyl, hlog, htrace⟩ := ha.entry
  have hpend : pending t.trace = pending s.trace := by
    rw [htrace]
    exact pending_did nofun
  have hsame : SameDisk s t := ⟨by rw [ha.disk]; rfl, by rw [ha.disk]; rfl, ha.dev, hpend⟩
  have hstage : stage t.log p = (stage s.log p).setShut (status &&& 1 = 0) := by
    rw [hlog]
    exact stage_cons_self rfl
  have hstatus : (t.task p).status = status := by
    rw [ha.status p (.inl rfl), if_pos rfl]
    rfl
  refine ⟨hi.same hsame fun q => ?_, fun hadm => ?_, fun hown => ?_⟩
  · by_cases hq : q = p
    swap
    · exact .inl (ha.stays hq)
    subst hq
    have hfits := (hi.fits q).same hsame fun hbusy => absurd hbusy hmay
    refine .inr ⟨fun hshut hopen => ?_, ?_, ?_⟩
    · rw [Task.Open, hstatus] at hopen
      rw [hstage] at hshut
      have hzero : status &&& 1 = 0 := by
        cases hg : stage s.log q with
        | owned | positioned | loaded =>
          rw [hg] at hshut
          exact of_decide_eq_true hshut
        | seeking | moving =>
          rw [hg] at hmay
          exact absurd trivial hmay
        | out | finished | lost =>
          rw [hg] at hshut
          exact hshut.elim
      rw [hzero] at hopen
      exact absurd hopen (by decide)
    · rw [hstage]
      cases hg : stage s.log q <;> rw [hg] at hfits <;> exact hfits
    · rw [hstage]
      cases stage s.log q <;> simp [Stage.setShut]
  · rw [hlog]
    exact ⟨trivial, hadm⟩
  · rw [htrace]
    exact ⟨False.elim, hown⟩

theorem DiskInv.setCommand (h : s.DiskLive) (hm : s.Mutex disk0sem) (hi : s.DiskInv)
    {v : Word} (hmay : diskRules.may (stage s.log p) (.setCommand disk0Reg v))
    (hrun : s.running = some p) (ha : s.Answered p (.setCommand disk0Reg v) r t) : DiskStep s t := by
  obtain ⟨x, -, -, htrace⟩ := ha.entry
  have hdisk : t.disk = { s.disk with busy := some v } := by
    rw [ha.disk, Act.onDisk, if_pos rfl]
  have hstatus : (t.task p).status = (s.task p).status := by
    rw [ha.status p (.inl rfl), if_pos rfl]
    rfl
  have hruns : s.Idle → t.Runs p v := by
    intro hidle
    refine ⟨by rw [hdisk], ?_, .inl ⟨ha.running.trans hrun, ?_⟩⟩
    · rw [htrace]
      simp only [Phase3.pending, if_true]
    · rw [ha.dev]
      exact hidle.2
  have hshut := hi.shut p
  have hfits := hi.fits p
  simp only [diskRules, if_true] at hmay
  rcases hmay with ⟨hg, hop⟩ | ⟨w, hg⟩
  · rw [hg] at hshut hfits
    refine .alone (g := .seeking v) ha (hm.others h (hg ▸ nofun)) (fun _ => ?_) (fun _ => ?_)
      ⟨hruns hfits, hop⟩ nofun (fun x _ => ?_) id
    · simp only [hg, diskRules, if_true]
    · rw [Task.Open, hstatus]
      exact hshut rfl
    · rw [hg]
      exact fun _ _ _ => nofun
  · rw [hg] at hshut hfits
    refine .alone (g := .moving w) ha (hm.others h (hg ▸ nofun)) (fun _ => ?_) (fun _ => ?_)
      ⟨v, hruns hfits.1⟩ nofun (fun x hx => ?_) id
    · simp only [hg, diskRules, if_true]
    · rw [Task.Open, hstatus]
      exact hshut rfl
    · rw [hg]
      rintro _ w' b heq
      injection heq with hw
      rw [hx, hfits.2, hw]

theorem DiskInv.setData0 (h : s.DiskLive) (hm : s.Mutex disk0sem) (hi : s.DiskInv)
    {v : Word} (hmay : diskRules.may (stage s.log p) (.setData0 disk0Reg v))
    (ha : s.Answered p (.setData0 disk0Reg v) r t) :
    DiskStep s t := by
  have hdisk : t.disk = { s.disk with data0 := v } := by
    rw [ha.disk, Act.onDisk, if_pos rfl]
  simp only [diskRules, if_true] at hmay
  obtain ⟨w, b, hg⟩ := hmay
  have hshut := hi.shut p
  have hfits := hi.fits p
  rw [hg] at hshut hfits
  refine .alone (g := .loaded w b) ha (hm.others h (hg ▸ nofun)) (fun _ => ?_) (fun hb => ?_)
    ⟨⟨?_, ?_⟩, ?_⟩ nofun (fun _ _ => trivial) id
  · simp only [hg, diskRules, if_true]
  · rw [Task.Open, ha.status p (.inl rfl), if_pos rfl]
    exact hshut hb
  · rw [hdisk]
    exact hfits.1.1
  · rw [ha.dev]
    exact hfits.1.2
  · rw [hdisk]
    exact hfits.2

end Answer

theorem answered (hprog : (t.task p).prog = .act a k) (htrace : t.trace = s.trace)
    (hdisk : t.disk = a.onDisk s.disk) (hdev : t.dev 0 = s.dev 0) (hrun : t.running = s.running)
    (hstatus : ∀ q, q = p ∨ stage s.log q ≠ .out → (t.task q).status =
      if q = p then a.onStatus (s.task p).status else (s.task q).status) :
    s.Answered p a r (t.answer p r) := by
  have hcyl : ∀ disk, (a.onDisk disk).cyl = disk.cyl := by
    intro disk
    cases a with
    | setCommand | setData0 =>
      simp only [Act.onDisk]
      split_ifs <;> rfl
    | _ => rfl
  refine ⟨⟨t.view, ?_, ?_, ?_⟩, ?_, ?_, ?_, fun q hq => ?_⟩
  · exact (congrArg Disk.cyl hdisk).trans (hcyl s.disk)
  · rw [answer_log hprog, log, log, htrace]
  · rw [answer_eq hprog, htrace]
  · rw [answer_eq hprog, hdisk]
  · rw [(answer_lines t p r).2.1, hdev]
  · rw [(answer_lines t p r).2.2, hrun]
  · rw [(answer_task t p q r).1, hstatus q hq]

theorem DiskInv.calmAnswer (hi : s.DiskInv) (hprog : (t.task p).prog = .act a k)
    (htask : ∀ q, (t.task q).status = (s.task q).status) (htrace : t.trace = s.trace)
    (hdisk : t.disk = s.disk) (hdev : t.dev 0 = s.dev 0) (hrun : t.running = s.running)
    (hcalm : a.Calm) : DiskStep s (t.answer p r) := by
  refine hi.calm (answered hprog htrace ?_ hdev hrun fun q _ => ?_) hcalm
  · rw [hdisk, hcalm.disk]
  · rw [hcalm.status, htask]
    split_ifs with hq
    · rw [hq]
    · rfl

theorem DiskInv.blocks (hi : s.DiskInv) (hrun : s.running = some p)
    (hbusy : ¬ (stage s.log p).Busy) (htask : t.task = s.task) (htrace : t.trace = s.trace)
    (hdisk : t.disk = s.disk) (hdev : t.dev 0 = s.dev 0) : DiskStep s (t.block p) := by
  have hlog : (t.block p).log = s.log := log_congr htrace
  refine hi.still hlog ⟨?_, ?_, hdev, ?_⟩ ?_ (fun q hq => ?_) fun q _ => ?_
  · exact congrArg Disk.busy hdisk
  · exact congrArg Disk.cyl hdisk
  · exact congrArg Phase3.pending htrace
  · exact fun hown => htrace ▸ hown
  · have hqp : q ≠ p := fun heq => hbusy (heq ▸ hq)
    rw [hrun]
    exact ⟨fun hnone => absurd hnone (Option.some_ne_none q).symm,
      fun heq => absurd (Option.some.inj heq).symm hqp⟩
  · exact congrArg (fun task => (task q).status) htask

/-! ## The operations on semaphores -/

theorem DiskInv.P (h : s.DiskLive) (hm : s.Mutex disk0sem) (hi : s.DiskInv) {x : Sem}
    (hrun : s.running = some p) (hprog : (s.task p).prog = .act (.passeren x) k) :
    DiskStep s (s.P p x) := by
  have hmay := (h.keeps.prog p (.inl (h.sane.running p hrun)))
  rw [hprog] at hmay
  have hmay : diskRules.may (stage s.log p) (.passeren x) := hmay.1
  unfold Sys.P
  simp only
  split_ifs with hpos
  · by_cases hx : x = disk0sem
    · subst hx
      refine hi.enters (fun q => ?_) (answered hprog rfl rfl rfl rfl fun q _ => ?_)
      · have hnobody : ∀ q, ¬ Holds disk0sem q s.log := by
          rcases hm.value with hfree | hneg
          · exact hfree.2
          · omega
        by_contra hq
        exact hnobody q ((holds_iff h.keeps.allowed q).mpr hq)
      · split_ifs with hq
        · rw [hq]
          rfl
        · rfl
    · exact hi.calmAnswer (a := .passeren x) hprog (fun _ => rfl) rfl rfl rfl rfl hx
  · refine hi.blocks (t := { s with sem := _ }) hrun ?_ rfl rfl rfl rfl
    simp only [diskRules] at hmay
    split_ifs at hmay
    · rw [hmay]
      exact id
    · exact Stage.Quiet.not_busy hmay

theorem DiskInv.V (h : s.DiskLive) (hm : s.Mutex disk0sem) (hi : s.DiskInv) {x : Sem}
    (hrun : s.running = some p) (hprog : (s.task p).prog = .act (.verhogen x) k) :
    DiskStep s (s.V p x) := by
  have hp := h.sane.running p hrun
  have hmay := h.keeps.prog p (.inl hp)
  rw [hprog] at hmay
  have hmay : diskRules.may (stage s.log p) (.verhogen x) := hmay.1
  have hfree := h.sane.free hp
  obtain ⟨-, hfirst⟩ := h.upSem x
  have hpass : s.Answered p (.verhogen x) 0
      (({ s with sem := Function.update s.sem x (s.sem x).up } : Sys ι).answer p 0) := by
    refine answered hprog rfl rfl rfl rfl fun q _ => ?_
    split_ifs with hq
    · rw [hq]
      rfl
    · rfl
  unfold Sys.V
  simp only
  generalize ht : ({ s with sem := Function.update s.sem x (s.sem x).up } : Sys ι).answer p 0 = t
    at hpass
  have hwoken : ∀ q ∈ (s.sem x).waiters.head?, ∃ k, (t.task q).prog = .act (.passeren x) k := by
    intro q hq
    obtain ⟨-, -, k', hprog'⟩ := hfirst q hq
    have hqp : q ≠ p := fun heq => hfree.sem x (heq ▸ List.mem_of_mem_head? hq)
    rw [← ht, (answer_of_ne hqp).1]
    exact ⟨k', hprog'⟩
  by_cases hx : x = disk0sem
  · subst hx
    simp only [diskRules, if_true] at hmay
    have hothers := hm.others h (p := p) (hmay ▸ nofun)
    have hfits := hi.fits p
    rw [hmay] at hfits
    have hidle : t.Idle := by
      constructor
      · rw [hpass.disk]
        exact hfits.1
      · rw [hpass.dev]
        exact hfits.2
    have hgo : ∀ x, diskRules.next (stage s.log p) (.verhogen disk0sem) 0 x = .out := by
      intro x
      simp only [diskRules, if_true]
    have hstep : DiskStep s t := .alone (g := .out) hpass hothers hgo nofun trivial
      (fun _ => hidle) (fun _ _ => trivial) id
    cases hws : (s.sem disk0sem).waiters with
    | nil => exact hstep
    | cons q ws =>
      obtain ⟨k', hprog'⟩ := hwoken q (by rw [hws]; rfl)
      refine hstep.trans fun hi' => hi'.enters (p := q) (r := 0) (fun q' => ?_) ?_
      · obtain ⟨x, -, hlog, -⟩ := hpass.entry
        by_cases hqp : q' = p
        · rw [hqp, hlog, stage_cons_self rfl]
          exact hgo x
        · rw [(hpass.stays hqp).stage]
          exact hothers q' hqp
      · refine answered hprog' rfl rfl rfl rfl fun q' _ => ?_
        split_ifs with hq
        · rw [hq]
          rfl
        · rfl
  · have hstep : DiskStep s t := hi.calm hpass hx
    cases hws : (s.sem x).waiters with
    | nil => exact hstep
    | cons q ws =>
      obtain ⟨k', hprog'⟩ := hwoken q (by rw [hws]; rfl)
      exact hstep.trans fun hi' =>
        hi'.calmAnswer (a := .passeren x) hprog' (fun _ => rfl) rfl rfl rfl rfl hx

omit [DecidableEq ι] in
theorem value_of_waiters {x : Semaphore ι} (h : x.waiters = [p]) : x.value = -1 := by
  have hbal := x.balance
  rw [h, List.length_singleton] at hbal
  omega

/-- The command of the process that runs is in progress. -/
theorem DiskInv.dev_value (hi : s.DiskInv) (hrun : s.running = some p)
    (hbusy : (stage s.log p).Busy) : (s.dev 0).value = 0 := by
  have hwaits : ∀ w, s.Runs p w → (s.dev 0).value = 0 := by
    intro w hw
    rcases hw.waits with hw | hw
    · exact hw.2
    · exact absurd hrun hw.1
  have hfits := hi.fits p
  cases hg : stage s.log p with
  | seeking w =>
    rw [hg] at hfits
    exact hwaits w hfits.1
  | moving w =>
    rw [hg] at hfits
    obtain ⟨w', hw'⟩ := hfits
    exact hwaits w' hw'
  | _ =>
    rw [hg] at hbusy
    exact hbusy.elim

theorem DiskInv.waitDev (h : s.DiskLive) (hm : s.Mutex disk0sem) (hi : s.DiskInv) {l d u : Word}
    (hl : ¬ l < DISKINT) (hrun : s.running = some p)
    (hprog : (s.task p).prog = .act (.waitio l d u) k) :
    DiskStep s (s.waitDev p (waitioIndex l d u) r) := by
  have hmay := h.keeps.prog p (.inl (h.sane.running p hrun))
  rw [hprog] at hmay
  have hmay : diskRules.may (stage s.log p) (.waitio l d u) := hmay.1
  simp only [diskRules] at hmay
  unfold Sys.waitDev
  simp only
  by_cases hdisk : waitioIndex l d u = 0
  · rw [if_pos ⟨hl, hdisk⟩] at hmay
    rw [hdisk]
    have hvalue := hi.dev_value hrun hmay
    have hline : ((s.dev 0).down p).waiters = [p] := by
      have hnil := (s.dev 0).waiters_eq_nil_iff.mpr (by omega)
      change (if (s.dev 0).value ≤ 0 then (s.dev 0).waiters ++ [p] else _) = _
      rw [if_pos (by omega), hnil]
      rfl
    rw [if_neg (by omega)]
    generalize ht : ({ s with dev := Function.update s.dev 0 ((s.dev 0).down p) } : Sys ι).block p = t
    have hlog : t.log = s.log := log_congr (by rw [← ht]; rfl)
    have hruns : ∀ w, s.Runs p w → t.Runs p w := by
      intro w hw
      rw [← ht]
      refine ⟨hw.busy, hw.pending, .inr ⟨by simp [block], ?_⟩⟩
      change (Function.update s.dev 0 ((s.dev 0).down p) 0).waiters = [p]
      rw [Function.update_self]
      exact hline
    have hne : stage s.log p ≠ .out := by
      intro hg
      rw [hg] at hmay
      exact hmay
    refine ⟨DiskInv.of_one p ?_ ?_ (fun q hq => ?_) ?_, ?_, ?_⟩
    · rw [hlog, ← ht]
      exact hi.shut p
    · rw [hlog]
      have hfits := hi.fits p
      cases hg : stage s.log p with
      | seeking w =>
        rw [hg] at hfits
        exact ⟨hruns w hfits.1, hfits.2⟩
      | moving w =>
        rw [hg] at hfits
        obtain ⟨w', hw'⟩ := hfits
        exact ⟨w', hruns w' hw'⟩
      | _ =>
        rw [hg] at hmay
        exact hmay.elim
    · rw [hlog]
      exact hm.others h hne q hq
    · rw [hlog]
      exact fun hout => absurd hout hne
    · rw [hlog]
      exact id
    · rw [← ht]
      exact id
  · rw [if_neg fun hon => hdisk hon.2] at hmay
    split_ifs
    · refine hi.calmAnswer (a := .waitio l d u) hprog (fun _ => rfl) rfl rfl ?_ rfl
        fun hon => hdisk hon.2
      exact Function.update_of_ne (Ne.symm hdisk) ..
    · refine hi.blocks (t := { s with dev := _ }) hrun (Stage.Quiet.not_busy hmay) rfl rfl rfl ?_
      exact Function.update_of_ne (Ne.symm hdisk) ..

theorem DiskInv.signal (h : s.DiskLive) (hi : s.DiskInv) {i status : Word} (hne : i ≠ 0) :
    DiskStep s (s.signal i status) := by
  obtain ⟨-, hfirst⟩ := h.upDev i
  have hdev : Function.update s.dev i (s.dev i).up 0 = s.dev 0 :=
    Function.update_of_ne (Ne.symm hne) ..
  unfold Sys.signal
  simp only
  cases hws : (s.dev i).waiters with
  | nil => exact hi.still rfl ⟨rfl, rfl, hdev, rfl⟩ id (fun _ _ => Iff.rfl) fun _ _ => rfl
  | cons q ws =>
    obtain ⟨-, -, l, d, u, k, hprog, hindex⟩ := hfirst q (by rw [hws]; rfl)
    refine hi.calmAnswer (a := .waitio l d u) hprog (fun _ => rfl) rfl rfl hdev rfl fun hon => ?_
    exact hne (hindex.symm.trans hon.2)

omit [DecidableEq ι] in
theorem transfer_cyl (s : Sys ι) (command : Word) :
    (s.transfer command).disk.cyl =
      if opOf command = SEEKCYL then cylOf command else s.disk.cyl := by
  unfold transfer
  simp only
  split_ifs <;> rfl

/-- A command in progress is that of a process that waits for it. -/
theorem DiskInv.runs (hi : s.DiskInv) {command : Word} (hbusy : s.disk.busy = some command)
    (hopen : s.Open) : ∃ p, (stage s.log p).Busy ∧ s.Runs p command ∧ (s.dev 0).waiters = [p] := by
  have hnot : ¬ s.Idle := by
    intro hidle
    rw [hidle.1] at hbusy
    nomatch hbusy
  obtain ⟨p, hp⟩ : ∃ p, stage s.log p ≠ .out := by
    by_contra hall
    exact hnot (hi.idle fun p => by_contra fun hp => hall ⟨p, hp⟩)
  have hfits := hi.fits p
  have hshut := hi.shut p
  have hruns : (stage s.log p).Busy ∧ ∃ w, s.Runs p w := by
    cases hg : stage s.log p with
    | out => exact absurd hg hp
    | owned | finished | lost =>
      rw [hg] at hfits
      exact absurd hfits hnot
    | positioned | loaded =>
      rw [hg] at hfits
      exact absurd hfits.1 hnot
    | seeking w =>
      rw [hg] at hfits
      exact ⟨trivial, w, hfits.1⟩
    | moving w =>
      rw [hg] at hfits
      exact ⟨trivial, hfits⟩
  obtain ⟨hb, w, hw⟩ := hruns
  have heq : w = command := Option.some.inj (hw.busy.symm.trans hbusy)
  refine ⟨p, hb, heq ▸ hw, ?_⟩
  rcases hw.waits with ⟨hrun, -⟩ | ⟨-, hline⟩
  · refine absurd (hopen.2 p hrun) (hshut ?_)
    cases hg : stage s.log p <;> rw [hg] at hb <;> first | exact trivial | exact hb.elim
  · exact hline

/-- The disk completes its command, and the process that wrote it gets the status. -/
theorem DiskInv.diskInt (h : s.DiskLive) (hm : s.Mutex disk0sem) (hi : s.DiskInv) {status : Word}
    (hopen : s.Open) : DiskStep s (s.diskInt status) := by
  unfold Sys.diskInt
  cases hbusy : s.disk.busy with
  | none => exact hi.still rfl ⟨rfl, rfl, rfl, rfl⟩ id (fun _ _ => Iff.rfl) fun _ _ => rfl
  | some command =>
    obtain ⟨p, hb, hruns, hline⟩ := hi.runs hbusy hopen
    obtain ⟨-, l, d, u, k, hprog, hl, hindex⟩ := h.sane.dev 0 p (hline ▸ List.mem_singleton_self p)
    have hvalue := value_of_waiters hline
    have hne : stage s.log p ≠ .out := by
      intro hg
      rw [hg] at hb
      exact hb
    simp only
    generalize hv : status &&& STATUSMASK = v
    generalize ht : (if v = READY then s.transfer command else s) = t
    have hsame : t.task = s.task ∧ t.dev = s.dev ∧ t.trace = s.trace := by
      obtain ⟨h1, -, -, -, h5, -, h7⟩ := s.transfer_same command
      rw [← ht]
      split_ifs
      · exact ⟨h1, h5, h7⟩
      · exact ⟨rfl, rfl, rfl⟩
    have hcyl : v = READY → opOf command = SEEKCYL → t.disk.cyl = cylOf command := by
      intro hready hop
      rw [← ht, if_pos hready, transfer_cyl, if_pos hop]
    unfold Sys.signal
    simp only [hsame.2.1, hline, hsame.2.2, hv]
    generalize hm' : ({ t with
      dev := Function.update s.dev 0 (s.dev 0).up
      disk.busy := none
      trace := .done v :: s.trace } : Sys ι) = m
    change DiskStep s (m.answer p v)
    have hprog' : (m.task p).prog = .act (.waitio l d u) k := by rw [← hm', hsame.1, hprog]
    have htrace : m.trace = .done v :: s.trace := by rw [← hm']
    have hlog : m.log = s.log := by
      rw [log, log, htrace]
      rfl
    have hidle : (m.answer p v).Idle := by
      rw [Idle, answer_eq hprog', ← hm']
      refine ⟨rfl, ?_⟩
      change (Function.update s.dev 0 (s.dev 0).up 0).value = 0
      rw [Function.update_self]
      change (s.dev 0).value + 1 = 0
      omega
    have hstatus : ((m.answer p v).task p).status = (s.task p).status := by
      rw [(answer_task m p p v).1, ← hm', hsame.1]
    have hstage : stage (m.answer p v).log p = (stage s.log p).answered v := by
      rw [answer_log hprog', hlog, stage_cons_self rfl]
      exact if_pos ⟨hl, hindex⟩
    have hfits := hi.fits p
    have hshut := hi.shut p
    refine ⟨DiskInv.of_one p ?_ ?_ (fun q hq => ?_) fun _ => hidle, fun hadm => ?_, fun hown => ?_⟩
    · rw [hstage, Task.Open, hstatus]
      cases hg : stage s.log p with
      | seeking w =>
        rw [hg] at hshut
        exact fun _ => hshut trivial
      | moving w =>
        rw [hg] at hshut
        exact fun _ => hshut trivial
      | _ =>
        rw [hg] at hb
        exact hb.elim
    · rw [hstage]
      cases hg : stage s.log p with
      | seeking w =>
        rw [hg] at hfits
        have hw : w = command := Option.some.inj (hfits.1.busy.symm.trans hbusy)
        simp only [Stage.answered]
        split_ifs with hready
        · refine ⟨hidle, ?_⟩
          rw [answer_eq hprog', ← hm']
          exact hw ▸ hcyl hready (hw ▸ hfits.2)
        · exact hidle
      | moving w =>
        simp only [Stage.answered]
        split_ifs <;> exact hidle
      | _ =>
        rw [hg] at hb
        exact hb.elim
    · rw [answer_log hprog', hlog, stage_cons_of_ne (Ne.symm hq)]
      exact hm.others h hne q hq
    · rw [answer_log hprog', hlog]
      exact ⟨trivial, hadm⟩
    · rw [answer_eq hprog', htrace]
      exact ⟨fun _ => ⟨s.trace, rfl, hruns.pending⟩, hown⟩

/-! ## All steps -/

theorem Affects.answered (h : s.DiskLive) (ha : s.Affects p a t)
    (hprog : (s.task p).prog = .act a k) (hp : s.life p = .ready) :
    s.Answered p a r (t.answer p r) := by
  refine Sys.answered (ha.prog.trans hprog) ha.trace ha.disk (by rw [ha.dev]) ha.running
    fun q hq => ha.status q fun hborn => ?_
  rcases hq with rfl | hq
  · rw [hp] at hborn
    nomatch hborn
  · exact hq (h.stage_unborn hborn)

theorem DiskInv.affects (h : s.DiskLive) (hm : s.Mutex disk0sem) (hi : s.DiskInv)
    (hrun : s.running = some p) (hmay : diskRules.may (stage s.log p) a)
    (ha : s.Answered p a r t) (hwaits : ¬ a.Waits) : DiskStep s t := by
  cases a with
  | passeren | verhogen | waitio => exact absurd trivial hwaits
  | setSTATUS status => exact hi.setSTATUS hmay ha
  | setCommand reg v =>
    by_cases hreg : reg = disk0Reg
    · subst hreg
      exact hi.setCommand h hm hmay hrun ha
    · exact hi.calm ha hreg
  | setData0 reg v =>
    by_cases hreg : reg = disk0Reg
    · subst hreg
      exact hi.setData0 h hm hmay ha
    · exact hi.calm ha hreg
  | _ => exact hi.calm ha trivial

variable {S : Setup ι}

theorem DiskInv.perform (h : s.DiskLive) (hm : s.Mutex disk0sem) (hi : s.DiskInv)
    (hrun : s.running = some p) (hprog : (s.task p).prog = .act a k) :
    DiskStep s (s.perform S p r a) := by
  have hp := h.sane.running p hrun
  have hmay := h.keeps.prog p (.inl hp)
  rw [hprog] at hmay
  have hmay : diskRules.may (stage s.log p) a := hmay.1
  by_cases hwaits : a.Waits
  · cases a with
    | passeren x => exact hi.P h hm hrun hprog
    | verhogen x => exact hi.V h hm hrun hprog
    | waitio l d u =>
      by_cases hl : l < DISKINT
      · simp only [Sys.perform, if_pos hl]
        refine hi.ownStep hrun ?_ (kill_own s p)
        simpa only [diskRules, if_neg fun hon : OnDisk0 l d u => hon.1 hl] using hmay
      · simp only [Sys.perform, if_neg hl]
        exact hi.waitDev h hm hl hrun hprog
    | _ => exact hwaits.elim
  · rcases perform_cases (S := S) (r := r) hp hwaits with ⟨htraps, hown⟩ | ⟨t, r', ht, heq⟩
    · refine hi.ownStep hrun ?_ hown
      cases a with
      | spectrapvec trap new => exact .inl hmay.1
      | load virtAddr => exact .inl hmay
      | _ => exact htraps.elim
    · rw [heq]
      exact hi.affects h hm hrun hmay (ht.answered h hprog hp) hwaits

theorem DiskInv.go (h : s.DiskLive) (hm : s.Mutex disk0sem) (hi : s.DiskInv)
    (hrun : s.running = some p) : DiskStep s (s.go S p r) := by
  have hfollows := h.keeps.prog p (.inl (h.sane.running p hrun))
  unfold Sys.go
  cases hprog : (s.task p).prog with
  | done a => exact hi.still rfl ⟨rfl, rfl, rfl, rfl⟩ id (fun _ _ => Iff.rfl) fun _ _ => rfl
  | leave l =>
    rw [hprog] at hfollows
    have hleave : diskRules.leave (stage s.log p) l := hfollows
    refine hi.ownStep hrun ?_ (leave_own s p l)
    cases l with
    | terminate | terminateprocess => exact hleave
    | ldst | user | again => exact .inl hleave.1
  | act a k => exact hi.perform h hm hrun hprog

theorem DiskInv.user (h : s.DiskLive) (hi : s.DiskInv) (hrun : s.running = some p)
    (hmode : (s.task p).InUserMode) (u : UserAct) : DiskStep s (s.user S p u) := by
  have hfollows := h.keeps.prog p (.inl (h.sane.running p hrun))
  refine hi.ownStep hrun ?_ (user_own s p u)
  unfold Task.InUserMode at hmode
  split at hmode
  · rename_i hprog
    rw [hprog] at hfollows
    exact .inl hfollows.1
  · exact hmode.elim

theorem DiskInv.step (h : s.DiskLive) (hm : s.Mutex disk0sem) (hi : s.DiskInv) {e : Event ι}
    (hcan : s.Can e) : DiskStep s (s.step S e) := by
  cases e with
  | step r =>
    obtain ⟨p, hrun, -⟩ := hcan
    simp only [Sys.step, hrun]
    exact hi.go h hm hrun
  | user u =>
    obtain ⟨p, hrun, hmode, -⟩ := hcan
    simp only [Sys.step, hrun]
    exact hi.user h hrun hmode u
  | dispatch p =>
    -- a process with a command in progress that does not run is blocked
    refine hi.still rfl ⟨rfl, rfl, rfl, rfl⟩ id (fun q hq => ?_) fun _ _ => rfl
    obtain ⟨hready, hopen⟩ := hcan
    have hruns : ∃ w, s.Runs q w := by
      have hfits := hi.fits q
      cases hg : stage s.log q with
      | seeking w =>
        rw [hg] at hfits
        exact ⟨w, hfits.1⟩
      | moving w =>
        rw [hg] at hfits
        exact hfits
      | _ =>
        rw [hg] at hq
        exact hq.elim
    obtain ⟨w, hw⟩ := hruns
    obtain ⟨q', hq', hruns', hline⟩ := hi.runs hw.busy hopen
    have hqq : q' = q := Option.some.inj (hruns'.pending.symm.trans hw.pending)
    subst hqq
    have hblocked := (h.sane.dev 0 q' (hline ▸ List.mem_singleton_self q')).1
    constructor
    · intro hqp
      obtain rfl : p = q' := Option.some.inj hqp
      exact absurd (hready.symm.trans hblocked) (by simp)
    · intro hrun
      have hready' := h.sane.running q' hrun
      exact absurd (hready'.symm.trans hblocked) (by simp)
  | diskInt status => exact hi.diskInt h hm hcan.2
  | devInt index status => exact hi.signal h hcan.1
  | tapeDma | tlbDrop =>
    exact hi.still rfl ⟨rfl, rfl, rfl, rfl⟩ id (fun _ _ => Iff.rfl) fun _ _ => rfl

/-! ## Runs -/

theorem Fresh.diskInv (h : s.Fresh) : s.DiskInv := by
  have hstage : ∀ p, stage s.log p = .out := by
    intro p
    rw [log, h.trace]
    rfl
  refine ⟨fun p => ?_, fun p => ?_, fun _ => ⟨h.disk, h.dev 0⟩⟩
  · rw [hstage]
    exact False.elim
  · rw [hstage]
    exact trivial

/-- What holds of the trace of every run. -/
structure DiskTrace (s : Sys ι) : Prop where
  allowed : DiskAllowed s.log
  admitted : DiskAdmitted s.log
  exclusive : Exclusive disk0sem s.log
  own : OwnStatus s.trace

theorem Reaches.diskTrace {init : Sys ι → Prop} {h : List (Sys ι × Event ι)}
    (hrun : Reaches S init h s) (hS : S.Obeys (fun _ => diskRules) (fun _ => .out) fun _ => .out)
    (hinit : ∀ s, init s → s.Fresh ∧ s.DiskLive) :
    s.DiskTrace ∧ (s.Halted ∨ s.DiskLive ∧ s.Mutex disk0sem ∧ s.DiskInv) := by
  induction hrun with
  | @start s hs =>
    obtain ⟨hfresh, hlive⟩ := hinit s hs
    have hm : s.Mutex disk0sem := hfresh.mutex rfl
    refine ⟨⟨hlive.keeps.allowed, ?_, hm.exclusive, ?_⟩, .inr ⟨hlive, hm, hfresh.diskInv⟩⟩
    · rw [hfresh.log_eq]
      exact trivial
    · rw [hfresh.trace]
      exact trivial
  | @next h s e hrun hcan ih =>
    obtain ⟨htr, hhalt | ⟨hlive, hm, hi⟩⟩ := ih
    · obtain ⟨hhalt', hsame, -⟩ := hhalt.step (S := S) hcan
      have hlog := log_congr hsame
      refine ⟨⟨?_, ?_, ?_, ?_⟩, .inl hhalt'⟩
      · exact hlog ▸ htr.allowed
      · exact hlog ▸ htr.admitted
      · exact hlog ▸ htr.exclusive
      · exact hsame ▸ htr.own
    · have hstep := hi.step (S := S) hlive hm hcan
      have hadm := hstep.admitted htr.admitted
      have hsem : SemStep disk0sem s (s.step S e) := hlive.semStep hcan
      rcases hlive.step hS hcan hadm with hlive' | ⟨hhalt, hsame⟩
      · have hm' := hsem.mutex hm guarded_disk0 hlive'.keeps.allowed
        exact ⟨⟨hlive'.keeps.allowed, hadm, hm'.exclusive, hstep.own htr.own⟩,
          .inr ⟨hlive', hm', hstep.inv⟩⟩
      · refine ⟨⟨?_, hadm, ?_, hstep.own htr.own⟩, .inl hhalt⟩
        · exact hsame ▸ htr.allowed
        · exact hsame ▸ htr.exclusive

end Sys

end Kaya.Phase3
