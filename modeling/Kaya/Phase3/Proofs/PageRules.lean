import Kaya.Phase3.PageFaults

/-!
# The rules for pages

What a process that `test` created may do with its pages: where it is in the pager, what the
tables were made to, and which block it moves to or from which buffer.
-/

namespace Kaya.Phase3

open Lib Lib.Program

/-- What the holder of `swapPoolSem` does with the frame whose turn it is.  `v` is the index of the
missing page, `x` the process and the index of the page that has to leave. -/
inductive Phase where
  | searching (v : Option Word)
  /-- The entry of `x` is invalid, and the TLB may not know. -/
  | masked (v : Word) (x : Word × Word)
  | leaving (v : Word) (x : Word × Word)
  /-- No page is in the frame. -/
  | clear (v : Word)
  /-- The missing page was read, and `k` writes to the tables are made. -/
  | arrived (v : Word) (k : Nat)
  | entered
  | served
  | freeing

/-- What a process is about. -/
inductive Job where
  | born
  /-- It copies its tape. -/
  | taping
  /-- It has `n` trap vectors. -/
  | settling (n : Nat)
  /-- It runs its user's program or a handler that may be interrupted. -/
  | idle
  /-- It will call the pager for the page with index `v`, or for a fault that is not served. -/
  | fault (v : Option Word)
  /-- It holds `swapPoolSem`, and the tables are `t`. -/
  | pool (t : Tables) (shut : Bool) (ph : Phase)
  | ended

namespace Phase

def onTables (t : Tables) (shut : Bool) : Phase → Phase
  | searching (some v) =>
      if shut then
        masked v ((t.swapPool t.frameNo).spAsid, clip (t.swapPool t.frameNo).spPageNo)
      else searching (some v)
  | arrived v k => if k = 4 then entered else arrived v (k + 1)
  | ph => ph

def onFlush : Phase → Phase
  | masked v x => leaving v x
  | entered => served
  | ph => ph

def onCall : Phase → Phase
  | searching (some v) => clear v
  | ph => ph

def onMove : Phase → Phase
  | leaving v _ => clear v
  | clear v => arrived v 0
  | ph => ph

def Stale : Phase → Prop
  | masked _ _ | entered => True
  | _ => False

end Phase

namespace Job

def map (f : Phase → Phase) : Job → Job
  | pool t b ph => pool t b (f ph)
  | j => j

def setShut (b : Bool) : Job → Job
  | pool t _ ph => pool t b ph
  | j => j

def release : Job → Job
  | pool _ _ .freeing => ended
  | pool _ _ _ => idle
  | j => j

def acquire (t : Tables) : Job → Job
  | fault v => pool t false (.searching v)
  | _ => pool t false .freeing

def Stale : Job → Prop
  | pool _ _ ph => ph.Stale
  | _ => False

end Job

def Trap.number : Trap → Nat
  | .tlb => 0
  | .pgm => 1
  | .sys => 2

def seekTo (cyl : Word) : Word := (cyl <<< 8) ||| SEEKCYL

def moveTo (sector command : Word) : Word := ((0 : Word) <<< 16) ||| (sector <<< 8) ||| command

def HasPage (page : Word) : Prop := page < 31 ∨ page = 0x3FFFF

def entryFor (a : Word) : Word := (a &&& 0xFFFFF000) ||| 0x600

section Rules

variable (K : Layout) (p : Word)

/-- Which block process `p` moves, with which buffer. -/
inductive Transfers : Job → (cyl sector buf command : Word) → Prop
  | tape (cyl : Word) :
      Transfers .taping cyl (p - 1) (TAPEDMABUFFER + (p - 1) * PAGESIZE) WRITEBLK
  | out (t : Tables) (b : Bool) (v : Word) (x : Word × Word) :
      Transfers (.pool t b (.leaving v x)) x.2 (x.1 - 1) (frameAddr K t.frameNo) WRITEBLK
  | bring (t : Tables) (b : Bool) (v : Word) :
      Transfers (.pool t b (.clear v)) v (p - 1) (frameAddr K t.frameNo) READBLK

def Phase.Rewrites (shut : Bool) (t t' : Tables) : Phase → Prop
  | .searching v => v ≠ none ∧
      if shut then t.frameNo.toNat < POOLSIZE ∧ (t.swapPool t.frameNo).spAsid ≠ -1 ∧
        t' = t.evict t.frameNo
      else ∃ fNo, t' = { t with frameNo := fNo }
  | .masked _ _ => t' = t
  | .arrived v k =>
      if k = 4 then shut = true ∧
        t' = t.setEntryLo (.entry (p - 1) v) (entryFor (frameAddr K t.frameNo)) ∧
        ∃ page, HasPage page ∧ clip page = v ∧
          t.swapPool t.frameNo = ⟨p, 2, page, .entry (p - 1) v⟩
      else ∃ e, t' = t.setSwap t.frameNo e
  | .freeing => t' = t ∨ ∃ i e, ((t.swapPool i).spAsid = p ∨ (t.swapPool i).spAsid = -1) ∧
      e.spAsid = -1 ∧ t' = t.setSwap i e
  | _ => False

def Job.MayCall : Job → Prop
  | .taping => True
  | .pool t _ (.searching v) =>
      v ≠ none ∧ t.frameNo.toNat < POOLSIZE ∧ (t.swapPool t.frameNo).spAsid = -1
  | .pool _ _ (.leaving _ _) | .pool _ _ (.clear _) => True
  | _ => False

def Job.MayRelease : Job → Prop
  | .pool _ _ (.searching v) => v = none
  | .pool _ _ .served => True
  | .pool t _ .freeing => ∀ n : Word, n.toNat < POOLSIZE → (t.swapPool n).spAsid ≠ p
  | _ => False

def Job.next (j : Job) (g : Stage) (x : View) : Act → Job
  | .passeren y =>
      if y = .swapPoolSem then j.acquire x.tables
      else if y = disk0sem then j.map Phase.onCall
      else j
  | .verhogen y => if y = .swapPoolSem then j.release else j
  | .waitio l d u =>
      if OnDisk0 l d u then
        match g with
        | .moving _ => j.map Phase.onMove
        | _ => j
      else j
  | .spectrapvec _ _ =>
      match j with
      | .settling n => if n = 2 then .idle else .settling (n + 1)
      | _ => j
  | .setSTATUS status => j.setShut (status &&& 1 = 0)
  | .getENTRYHI =>
      match j with
      | .born => .taping
      | .taping => .settling 0
      | _ => j
  | .TLBCLR => j.map Phase.onFlush
  | .tables f =>
      match j with
      | .pool t b ph => .pool (f t).2 b (ph.onTables t b)
      | _ => j
  | _ => j

def Job.May (j : Job) (g : Stage) : Act → Prop
  | .passeren y =>
      if y = .swapPoolSem then j = .idle ∨ ∃ v, j = .fault v
      else if y = disk0sem then j.MayCall
      else j = .idle
  | .verhogen y =>
      if y = .swapPoolSem then j.MayRelease p
      else if y = .masterSem then j = .ended
      else if y = disk0sem then j ≠ .ended
      else j = .idle
  | .waitio l d u => OnDisk0 l d u ∧ j ≠ .ended ∨ j = .taping ∨ j = .idle
  | .createprocess _ _ => False
  | .spectrapvec trap new =>
      new.sPc = trap.entry ∧ asidOf new.sAsid = p ∧ j = .settling trap.number
  | .setSTATUS status => j ≠ .ended ∧ (j.Stale → status &&& 1 = 0)
  | .getENTRYHI => (j = .born ∨ j = .taping ∨ j = .idle) ∨ ∃ n, n ≠ 0 ∧ j = .settling n
  | .TLBCLR => ∃ t b ph, j = .pool t b ph
  | .setCommand reg v =>
      j ≠ .ended ∧ (reg = Sys.disk0Reg → ∃ cyl sector buf command,
        Transfers K p j cyl sector buf command ∧
          match g with
          | .loaded w _ => w = seekTo cyl ∧ v = moveTo sector command
          | _ => v = seekTo cyl)
  | .setData0 reg v =>
      j ≠ .ended ∧
        (reg = Sys.disk0Reg → ∃ cyl sector command, Transfers K p j cyl sector v command)
  | .tables f => ∃ t b ph, j = .pool t b ph ∧ ph.Rewrites K p b t (f t).2
  | .load _ => j = .idle
  | .getSTATUS | .setData1 _ _ | .getData1 _ => j ≠ .ended

/-- The rules for a process that `test` created, on a disk that answers `READY`. -/
def pageRules : Discipline Act Word Leave View (Job × Stage) where
  may g a := g.1.May K p g.2 a
  admits g a r x :=
    match a with
    | .passeren y => y = .swapPoolSem → x.tables.frameNo.toNat < POOLSIZE
    | .waitio l d u => OnDisk0 l d u → r = READY
    | .getENTRYHI => asidOf r = p
    | .tables f => ∀ t b ph, g.1 = .pool t b ph → r = (f t).1
    | _ => True
  next g a r x := (g.1.next g.2 x a, diskRules.next g.2 a r x)
  leave g
    | .ldst _ _ | .user _ _ _ _ => g = (.idle, .out)
    | .again asid _ => g = (.taping, .out) ∧ asid = p
    | .terminate => g = (.idle, .out) ∨ g = (.taping, .out)
    | .terminateprocess => g = (.ended, .out)

end Rules

variable {K : Layout} {p : Word} {j : Job} {g : Stage} {α : Type}

/-! ## Calls of `diskIO` -/

section DiskIO

@[simp] theorem Job.map_setShut (j : Job) (f : Phase → Phase) (b : Bool) :
    (j.setShut b).map f = (j.map f).setShut b := by
  cases j <;> rfl

@[simp] theorem Job.setShut_setShut (j : Job) (b c : Bool) :
    (j.setShut b).setShut c = j.setShut c := by
  cases j <;> rfl

theorem Job.stale_setShut (b : Bool) : (j.setShut b).Stale ↔ j.Stale := by
  cases j <;> exact Iff.rfl

theorem disableInts_true_pages (hj : j ≠ .ended) :
    Follows (pageRules K p) (disableInts true) (j, g) fun _ s =>
      s = (j.setShut true, g.setShut true) := by
  refine ⟨hj, fun r _ _ => ⟨⟨hj, fun _ => masked_shut r⟩, fun _ _ _ => ?_⟩⟩
  have hshut : decide ((r &&& 0xFFFF00FE) &&& 1 = 0) = true := decide_eq_true (masked_shut r)
  exact Prod.ext (congrArg j.setShut hshut) (congrArg g.setShut hshut)

theorem disableInts_false_pages (hj : j ≠ .ended) (h : ¬ j.Stale) :
    Follows (pageRules K p) (disableInts false) (j, g) fun _ s =>
      ∃ b, s = (j.setShut b, g.setShut b) :=
  ⟨hj, fun _ _ _ => ⟨⟨hj, fun hs => absurd hs h⟩, fun _ _ _ => ⟨_, rfl⟩⟩⟩

theorem Job.map_ne_ended {f : Phase → Phase} (hj : j ≠ .ended) : j.map f ≠ .ended := by
  cases j with
  | ended => exact absurd rfl hj
  | _ => exact nofun

theorem Job.setShut_ne_ended {b : Bool} (hj : j ≠ .ended) : j.setShut b ≠ .ended := by
  cases j with
  | ended => exact absurd rfl hj
  | _ => exact nofun

theorem Transfers.ne_ended {cyl sector buf command : Word}
    (h : Transfers K p j cyl sector buf command) : j ≠ .ended := by
  cases h <;> exact nofun

theorem Transfers.not_stale {cyl sector buf command : Word}
    (h : Transfers K p j cyl sector buf command) : ¬ j.Stale := by
  cases h <;> exact id

theorem Transfers.setShut {cyl sector buf command : Word}
    (h : Transfers K p j cyl sector buf command) (b : Bool) :
    Transfers K p (j.setShut b) cyl sector buf command := by
  cases h with
  | tape cyl => exact .tape cyl
  | out t b' v x => exact .out t b v x
  | bring t b' => exact .bring t b _

theorem diskRules_waitio {l d u r : Word} {x : View} (hon : OnDisk0 l d u) :
    diskRules.next g (.waitio l d u) r x = g.answered r := if_pos hon

/-- A command of the disk ends with `READY`. -/
theorem completed_pages (j' : Job) (g' : Stage) {f : Unit → SupM α} {Q : α → Job × Stage → Prop}
    (hnext : ∀ x, j.next g x (.waitio DISKINT 0 0) = j') (hans : g.answered READY = g')
    (hj : j ≠ .ended) (hj' : j' ≠ .ended) (hstale : ¬ j'.Stale)
    (hf : ∀ b, Follows (pageRules K p) (f ()) (j'.setShut b, g'.setShut b) Q) :
    Follows (pageRules K p) ( waitForIO DISKINT 0 0 >>= fun status => disableInts false >>= fun _ =>
      if status ≠ READY then leave .terminate >>= f else f ()) (j, g) Q := by
  have hdisk : OnDisk0 DISKINT 0 0 := ⟨by decide, by decide⟩
  refine .perform (.inl ⟨hdisk, hj⟩) fun status x hstatus => ?_
  obtain rfl : status = READY := hstatus hdisk
  have hstage := diskRules_waitio (g := g) (r := READY) (x := x) hdisk
  have hgo : (pageRules K p).next (j, g) (.waitio DISKINT 0 0) READY x = (j', g') :=
    Prod.ext (hnext x) (hstage.trans hans)
  rw [hgo]
  refine (disableInts_false_pages hj' hstale).bind ?_
  rintro _ _ ⟨b, rfl⟩
  exact .leaveIf (fun hne => absurd rfl hne) fun _ => hf b

/-- A call that moves the block of the job. -/
theorem diskIO_pages {cyl sector buf command : Word} (hmay : j.MayCall)
    (hmoves : Transfers K p (j.map Phase.onCall) cyl sector buf command)
    (hmoved : ¬ ((j.map Phase.onCall).map Phase.onMove).Stale) :
    Follows (pageRules K p) ( diskIO sector cyl 0 disk0sem 0 buf command) (j, .out) fun _ s =>
      ∃ b, s = (((j.map Phase.onCall).map Phase.onMove).setShut b, .out) := by
  generalize hj : j.map Phase.onCall = j' at hmoves hmoved ⊢
  have hcall : ∀ r x, (pageRules K p).next (j, .out) (.passeren disk0sem) r x =
      (j', .owned false) := fun r x => Prod.ext hj rfl
  have hne : ∀ b, j'.setShut b ≠ .ended := fun b => Job.setShut_ne_ended hmoves.ne_ended
  refine .issue hmay fun r x _ => ?_
  rw [hcall]
  refine (disableInts_true_pages hmoves.ne_ended).bind ?_
  rintro _ _ rfl
  refine .issue ⟨hne true, fun _ => ⟨_, _, _, _, hmoves.setShut true, rfl⟩⟩ fun _ _ _ => ?_
  refine completed_pages (g := .seeking (seekTo cyl)) (j'.setShut true)
    (.positioned (seekTo cyl) true) (fun _ => rfl) rfl (hne true) (hne true) ?_ fun b => ?_
  · rw [Job.stale_setShut]
    exact hmoves.not_stale
  rw [Job.setShut_setShut]
  refine (disableInts_true_pages (hne b)).bind ?_
  rintro _ _ rfl
  rw [Job.setShut_setShut]
  refine .issue ⟨hne true, fun _ => ⟨_, _, _, hmoves.setShut true⟩⟩ fun _ _ _ => ?_
  refine .issue ⟨hne true, fun _ => ⟨_, _, _, _, hmoves.setShut true, rfl, rfl⟩⟩ fun _ _ _ => ?_
  have hne' : (j'.map Phase.onMove).setShut true ≠ .ended :=
    Job.setShut_ne_ended (Job.map_ne_ended hmoves.ne_ended)
  refine completed_pages (g := .moving (seekTo cyl)) ((j'.map Phase.onMove).setShut true) .finished
    (fun _ => ?_) rfl (hne true) hne' ?_ fun b => ?_
  · exact (Job.map_setShut ..)
  · rw [Job.stale_setShut]
    exact hmoved
  rw [Job.setShut_setShut]
  exact ⟨Job.setShut_ne_ended (Job.map_ne_ended hmoves.ne_ended), fun _ _ _ => ⟨b, rfl⟩⟩

end DiskIO

/-! ## The start of a process -/

/-- `uProcInit` from the end of `tapeToDisk` on. -/
def afterTape (asid : Word) : Prog := do
  setTrap asid TLBTRAP .tlb .pager
  setTrap asid PROGTRAP .pgm .userProgTrapHandler
  setTrap asid SYSTRAP .sys .userSyscallHandler
  let sAsid ← perform .getENTRYHI
  leave (.user sAsid 0xC0000000
    (VMON ||| INTERON ||| INTERUNMASKED ||| PLOCTIMEON ||| KERNELOFF) 0x800000B0)

theorem uProcInitFrom_eq (asid i : Word) :
    uProcInitFrom asid i = tapeToDisk asid i >>= fun _ => afterTape asid := rfl

theorem onTape_pages (reg : Word) (hj : j ≠ .ended) :
    Follows (pageRules K p) (onTape reg) (j, g) fun _ s => s = (j, g) := by
  refine .perform hj fun r _ _ => ?_
  split_ifs
  · rfl
  · exact .perform hj fun _ _ _ => rfl

theorem tapeToDisk_pages (hp : p < 64) (i : Word) :
    Follows (pageRules K p) (tapeToDisk p i) (.taping, .out) fun _ s => s = (.taping, .out) := by
  have hreg : getDeviceReg TAPEINT (p - 1) ≠ Sys.disk0Reg := tapeReg_ne hp
  have hkeep : ∀ a : Act, a.Foreign → (∀ x, Job.taping.next .out x a = .taping) → ∀ r x,
      (pageRules K p).next (.taping, .out) a r x = (.taping, .out) := fun a ha hjob r x =>
    Prod.ext (hjob x) (ha.follows.2 r x (by cases a <;> simp [diskRules]))
  refine (onTape_pages _ (by nofun)).bind ?_
  rintro more _ rfl
  cases more with
  | false => rfl
  | true =>
    refine .issue ⟨nofun, fun h => absurd h hreg⟩ fun r x _ => ?_
    rw [hkeep (.setData0 _ _) hreg fun _ => rfl]
    refine .issue ⟨nofun, fun h => absurd h hreg⟩ fun r x _ => ?_
    rw [hkeep (.setCommand _ _) hreg fun _ => rfl]
    refine .perform (.inr (.inl rfl)) fun status x _ => ?_
    rw [hkeep (.waitio _ _ _) (tape_foreign hp) fun x => if_neg (tape_foreign hp)]
    refine .leaveIf (fun _ => .inr rfl) fun _ => ?_
    refine (diskIO_pages (j := .taping) trivial (.tape i) id).bind ?_
    rintro _ _ ⟨b, rfl⟩
    exact ⟨rfl, rfl⟩

theorem setTrap_pages (asid i : Word) {n : Nat} (trap : Trap) (hn : trap.number = n)
    (hj : j = .taping ∧ n = 0 ∨ j = .settling n ∧ n ≠ 0) :
    Follows (pageRules K p) (setTrap asid i trap trap.entry) (j, .out) fun _ s =>
      s = (if n = 2 then .idle else .settling (n + 1), .out) := by
  have hmay : j.May K p .out .getENTRYHI := by
    rcases hj with ⟨rfl, -⟩ | ⟨rfl, hne⟩
    · exact .inl (.inr (.inl rfl))
    · exact .inr ⟨n, hne, rfl⟩
  have hnext : ∀ r x, (pageRules K p).next (j, .out) .getENTRYHI r x = (.settling n, .out) := by
    rcases hj with ⟨rfl, rfl⟩ | ⟨rfl, -⟩ <;> exact fun _ _ => rfl
  refine .perform hmay fun r x hr => ?_
  rw [hnext]
  exact ⟨⟨rfl, hr, hn ▸ rfl⟩, fun _ _ _ => rfl⟩

theorem afterTape_pages (asid : Word) {Q : Unit → Job × Stage → Prop} :
    Follows (pageRules K p) (afterTape asid) (.taping, .out) Q := by
  refine (setTrap_pages asid TLBTRAP .tlb rfl (.inl ⟨rfl, rfl⟩)).bind ?_
  rintro _ _ rfl
  refine (setTrap_pages asid PROGTRAP .pgm rfl (.inr ⟨rfl, by decide⟩)).bind ?_
  rintro _ _ rfl
  refine (setTrap_pages asid SYSTRAP .sys rfl (.inr ⟨rfl, by decide⟩)).bind ?_
  rintro _ _ rfl
  exact .perform (.inl (.inr (.inr rfl))) fun _ _ _ => rfl

theorem uProcInitFrom_pages (hp : p < 64) (i : Word) {Q : Unit → Job × Stage → Prop} :
    Follows (pageRules K p) (uProcInitFrom p i) (.taping, .out) Q := by
  rw [uProcInitFrom_eq]
  refine (tapeToDisk_pages hp i).bind ?_
  rintro _ _ rfl
  exact afterTape_pages p

theorem uProcInit_pages (hp : p < 64) {Q : Unit → Job × Stage → Prop} :
    Follows (pageRules K p) uProcInit (.born, .out) Q := by
  refine .perform (.inl (.inl rfl)) fun r _ hr => ?_
  have hr : asidOf r = p := hr
  rw [hr]
  exact uProcInitFrom_pages hp 0

/-! ## Handlers -/

theorem idle_next {a : Act} (ha : a.Foreign) (hpool : a ≠ .passeren .swapPoolSem) (r : Word)
    (x : View) : (pageRules K p).next (.idle, .out) a r x = (.idle, .out) := by
  refine Prod.ext ?_ (ha.follows.2 r x (by cases a <;> simp [diskRules]))
  cases a with
  | passeren y =>
    have hy : y ≠ .swapPoolSem := fun heq => hpool (congrArg Act.passeren heq)
    exact (if_neg hy).trans (if_neg ha)
  | verhogen y => exact ite_self _
  | waitio l d u => exact if_neg ha
  | _ => rfl

theorem idle_passeren {y : Sem} (h : y ≠ .swapPoolSem) (h' : y ≠ disk0sem) :
    Job.May K p .idle .out (.passeren y) := by
  simp only [Job.May, if_neg h, if_neg h']

theorem idle_verhogen {y : Sem} (h : y ≠ .swapPoolSem) (h' : y ≠ .masterSem) (h'' : y ≠ disk0sem) :
    Job.May K p .idle .out (.verhogen y) := by
  simp only [Job.May, if_neg h, if_neg h', if_neg h'']

theorem freeing_write {t : Tables} {b : Bool} {i : Word} {e : Tables → SwapEntry}
    {f : Unit → SupM α} {Q : α → Job × Stage → Prop}
    (hi : (t.swapPool i).spAsid = p ∨ (t.swapPool i).spAsid = -1) (he : (e t).spAsid = -1)
    (hf : Follows (pageRules K p) (f ()) (.pool (t.setSwap i (e t)) b .freeing, .out) Q) :
    Follows (pageRules K p) ( write (fun t => t.setSwap i (e t)) >>= f) (.pool t b .freeing, .out)
      Q :=
  .issue ⟨t, b, _, rfl, .inr ⟨i, e t, hi, he, rfl⟩⟩ fun _ _ _ => hf

theorem setSwap_self (t : Tables) (i : Word) (e : SwapEntry) : (t.setSwap i e).swapPool i = e :=
  Function.update_self ..

theorem freeFrame_pages {t : Tables} {b : Bool} (hp : p ≠ -1) (i : Word) :
    Follows (pageRules K p) (freeFrame p i) (.pool t b .freeing, .out) fun _ s =>
      ∃ t', s = (.pool t' b .freeing, .out) ∧ (t'.swapPool i).spAsid ≠ p ∧
        ∀ n, (t.swapPool n).spAsid ≠ p → (t'.swapPool n).spAsid ≠ p := by
  refine .perform ⟨t, b, _, rfl, .inl rfl⟩ fun r x hr => ?_
  obtain rfl : r = (t.swapPool i).spAsid := hr t b _ rfl
  refine .ite (fun hown => ?_) fun hother => ⟨t, rfl, hother, fun _ => id⟩
  refine freeing_write (.inl hown) rfl ?_
  refine freeing_write (.inr ?_) ?_ ?_
  · rw [setSwap_self]
  · rw [setSwap_self]
  refine freeing_write (.inr ?_) ?_ ?_
  · simp only [setSwap_self]
  · simp only [setSwap_self]
  refine ⟨⟨_, b, _, rfl, .inr ⟨i, _, .inr ?_, ?_, rfl⟩⟩, fun _ _ _ => ⟨_, rfl, ?_, fun n hn => ?_⟩⟩
  · simp only [setSwap_self]
  · simp only [setSwap_self]
  · simp only [setSwap_self]
    exact Ne.symm hp
  · by_cases hni : n = i
    · exact absurd (hni ▸ hown) hn
    · simp only [Tables.setSwap, Function.update_of_ne hni]
      exact hn

/-- The loop of `terminateUserProc`, after which the frames of `is` are not those of `p`. -/
theorem freeFrames_pages {b : Bool} (hp : p ≠ -1) (is : List Nat) (t : Tables) :
    Follows (pageRules K p) (is.forM fun i => freeFrame p (BitVec.ofNat 32 i))
      (.pool t b .freeing, .out) fun _ s => ∃ t', s = (.pool t' b .freeing, .out) ∧
        ∀ n, (t.swapPool n).spAsid ≠ p ∨ (∃ i ∈ is, n = BitVec.ofNat 32 i) →
          (t'.swapPool n).spAsid ≠ p := by
  induction is generalizing t with
  | nil => exact ⟨t, rfl, fun n hn => hn.resolve_right (by simp)⟩
  | cons i is ih =>
    refine (freeFrame_pages hp _).bind ?_
    rintro _ _ ⟨t', rfl, hfreed, hkept⟩
    refine (ih t').mono ?_
    rintro _ _ ⟨t'', rfl, hrest⟩
    refine ⟨t'', rfl, fun n hn => hrest n ?_⟩
    rcases hn with hn | ⟨k, hk, rfl⟩
    · exact .inl (hkept n hn)
    · rcases List.mem_cons.mp hk with rfl | hk
      · exact .inl hfreed
      · exact .inr ⟨k, hk, rfl⟩

theorem ne_of_lt_64 (hp : p < 64) : p ≠ -1 := by
  rintro rfl
  exact absurd hp (by decide)

theorem terminateUserProc_pages (hp : p < 64) {entryHi : Word} (hasid : asidOf entryHi = p)
    {Q : Unit → Job × Stage → Prop} :
    Follows (pageRules K p) (terminateUserProc entryHi) (.idle, .out) Q := by
  rw [terminateUserProc, hasid]
  refine .issue (.inl rfl) fun _ x _ => ?_
  refine (freeFrames_pages (ne_of_lt_64 hp) _ x.tables).bind ?_
  rintro _ _ ⟨t, rfl, hfreed⟩
  refine .issue ⟨t, _, _, rfl⟩ fun _ _ _ => ?_
  refine .issue (fun n hn => ?_) fun _ _ _ => .issue rfl fun _ _ _ => rfl
  refine hfreed n (.inr ⟨n.toNat, List.mem_range.mpr hn, ?_⟩)
  exact (BitVec.ofNat_toNat ..).trans (BitVec.setWidth_eq n) |>.symm

theorem transmit_pages (hp : p < 64) (virtAddr : Word) (n : Nat) (i status : Word) :
    Follows (pageRules K p) (transmit p virtAddr n i status) (.idle, .out) fun _ s =>
      s = (.idle, .out) := by
  induction n generalizing i status with
  | zero => rfl
  | succ n ih =>
    refine (disableInts_true_pages (by nofun)).bind ?_
    rintro _ _ rfl
    refine .perform rfl fun r x _ => .issue (by nofun) fun _ _ _ => ?_
    refine .perform (.inr (.inr rfl)) fun status x _ => ?_
    change Follows _ _ ((pageRules K p).next (.idle, .out) (.waitio TERMINT (p - 1) 0) status x) _
    rw [idle_next (a := .waitio _ _ _) (terminal_foreign hp) nofun]
    refine (disableInts_false_pages (by nofun) id).bind ?_
    rintro _ _ ⟨b, rfl⟩
    exact .ite (fun _ => rfl) fun _ => ih _ _

theorem writeToTerminal_pages (hp : p < 64) (junk : Word) {entryHi : Word}
    (hasid : asidOf entryHi = p) (state : State) {Q : Unit → Job × Stage → Prop} :
    Follows (pageRules K p) (writeToTerminal junk entryHi state) (.idle, .out) Q := by
  have hsem := terminalSem_ne hp
  have hrest : Follows (pageRules K p) (do
      passeren (.devSemArray (DEVCNT * (TERMINT - DEVINTOFFSET) +
        TERMCNT * (asidOf entryHi - 1)))
      let status ← transmit (asidOf entryHi) state.a1 state.a2.toNat 0 junk
      verhogen (.devSemArray (DEVCNT * (TERMINT - DEVINTOFFSET) +
        TERMCNT * (asidOf entryHi - 1)))
      leave (.ldst .sys (state.setV0 status)) : SupM Unit) (.idle, .out) Q := by
    rw [hasid]
    refine .issue (idle_passeren (K := K) (p := p) (y := .devSemArray _) nofun hsem) fun r x _ => ?_
    rw [idle_next (a := .passeren _) hsem (by simp)]
    refine (transmit_pages hp ..).bind ?_
    rintro _ _ rfl
    refine .issue (idle_verhogen (K := K) (p := p) (y := .devSemArray _) nofun nofun hsem)
      fun r x _ => ?_
    rw [idle_next (a := .verhogen _) hsem nofun]
    rfl
  refine .ite (fun _ => ?_) fun _ => hrest
  exact (terminateUserProc_pages hp hasid).bind fun _ _ (h : False) => h.elim

theorem userSyscallHandler_pages (hp : p < 64) (junk : Word) {entryHi : Word}
    (hasid : asidOf entryHi = p) (state : State) {Q : Unit → Job × Stage → Prop} :
    Follows (pageRules K p) (userSyscallHandler junk entryHi state) (.idle, .out) Q :=
  .ite (fun _ => writeToTerminal_pages hp junk hasid state) fun _ =>
    .ite (fun _ => terminateUserProc_pages hp hasid) fun _ => terminateUserProc_pages hp hasid

/-! ## The pager -/

section Pager

variable {v : Word} {t : Tables} {b : Bool}

theorem getFrame_pages (ht : t.frameNo.toNat < POOLSIZE) :
    Follows (pageRules K p) getFrame (.pool t false (.searching (some v)), .out) fun fNo s =>
      s = (.pool { t with frameNo := fNo } false (.searching (some v)), .out) ∧
        fNo.toNat < POOLSIZE := by
  have hmay : ∀ (u : Tables) (f : Tables → Word × Tables) (fNo : Word),
      (f u).2 = { u with frameNo := fNo } → (pageRules K p).may
        (.pool u false (.searching (some v)), .out) (.tables f) :=
    fun u f fNo hf => ⟨u, false, _, rfl, nofun, fNo, hf⟩
  refine .issue (hmay t _ _ rfl) fun _ _ _ =>
    .perform (hmay _ _ (t.frameNo + 1) rfl) fun r _ hr => ?_
  obtain rfl : r = t.frameNo + 1 := hr _ _ _ rfl
  have hsize : POOLSIZE = 4 := rfl
  refine .ite (fun _ => ?_) fun hne => ?_
  · refine .issue (hmay _ _ 0 rfl) fun _ _ _ => .perform (hmay _ _ 0 rfl) fun r _ hr => ?_
    obtain rfl : r = 0 := hr _ _ _ rfl
    exact ⟨rfl, by decide⟩
  · refine .perform (hmay _ _ (t.frameNo + 1) rfl) fun r _ hr => ?_
    obtain rfl : r = t.frameNo + 1 := hr _ _ _ rfl
    refine ⟨rfl, ?_⟩
    have hnat : t.frameNo + 1 ≠ 4 := hne
    bv_omega

theorem evict_frameNo (t : Tables) (fNo : Word) : (t.evict fNo).frameNo = t.frameNo :=
  (Tables.setEntryLo_same _).1

theorem evict_swapPool (t : Tables) (fNo : Word) : (t.evict fNo).swapPool = t.swapPool :=
  (Tables.setEntryLo_same _).2

theorem evict_pages (ht : t.frameNo.toNat < POOLSIZE)
    (hheld : (t.swapPool t.frameNo).spAsid ≠ -1) :
    Follows (pageRules K p) (evict t.frameNo (frameAddr K t.frameNo))
      (.pool t false (.searching (some v)), .out) fun _ s =>
        ∃ t' b, s = (.pool t' b (.clear v), .out) ∧ t'.frameNo = t.frameNo := by
  generalize hx : ((t.swapPool t.frameNo).spAsid, clip (t.swapPool t.frameNo).spPageNo) = x
  refine (disableInts_true_pages (by nofun)).bind ?_
  rintro _ _ rfl
  refine .issue ⟨t, true, _, rfl, nofun, ht, hheld, rfl⟩ fun _ _ _ => ?_
  change Follows _ _ (Job.pool (t.evict t.frameNo) true (.masked v _), Stage.out) _
  rw [hx]
  refine .perform ⟨_, true, _, rfl, rfl⟩ fun page _ hpage => ?_
  obtain rfl : page = ((t.evict t.frameNo).swapPool t.frameNo).spPageNo := hpage _ _ _ rfl
  refine .perform ⟨_, true, _, rfl, rfl⟩ fun asid _ hasid => ?_
  obtain rfl : asid = ((t.evict t.frameNo).swapPool t.frameNo).spAsid := hasid _ _ _ rfl
  refine .issue ⟨_, true, _, rfl⟩ fun _ _ _ => ?_
  refine (disableInts_false_pages (j := .pool _ true (.leaving v x)) nofun id).bind ?_
  rintro _ _ ⟨b, rfl⟩
  have hmoves : Transfers K p (.pool (t.evict t.frameNo) b (.leaving v x)) x.2 (x.1 - 1)
      (frameAddr K (t.evict t.frameNo).frameNo) WRITEBLK := .out ..
  rw [evict_frameNo] at hmoves
  have hargs : ((t.evict t.frameNo).swapPool t.frameNo).spAsid = x.1 ∧
      clip ((t.evict t.frameNo).swapPool t.frameNo).spPageNo = x.2 := by
    rw [evict_swapPool, ← hx]
    exact ⟨rfl, rfl⟩
  rw [hargs.1, hargs.2]
  refine (diskIO_pages (j := .pool _ b (.leaving v x)) trivial hmoves id).mono ?_
  rintro _ _ ⟨b', rfl⟩
  exact ⟨_, b', rfl, evict_frameNo ..⟩

theorem read_pages (ph : Phase) (hmay : (Job.pool t b ph).MayCall) (hph : ph.onCall = .clear v) :
    Follows (pageRules K p)
      ( diskIO (p - 1) v 0 disk0sem 0 (frameAddr K t.frameNo) READBLK) (.pool t b ph, .out)
        fun _ s => ∃ b, s = (.pool t b (.arrived v 0), .out) := by
  have hjob : (Job.pool t b ph).map Phase.onCall = .pool t b (.clear v) := by
    rw [Job.map, hph]
  have hmoves : Transfers K p ((Job.pool t b ph).map Phase.onCall) v (p - 1)
      (frameAddr K t.frameNo) READBLK := by
    rw [hjob]
    exact .bring t b v
  have hmoved : ((Job.pool t b ph).map Phase.onCall).map Phase.onMove =
      .pool t b (.arrived v 0) := by rw [hjob]; rfl
  refine (diskIO_pages hmay hmoves ?_).mono ?_
  · rw [hmoved]
    exact id
  · rintro _ _ ⟨b', rfl⟩
    rw [hmoved]
    exact ⟨b', rfl⟩

theorem entering_write {fNo : Word} {k : Nat} (hk : k < 4) (ht : t.frameNo = fNo)
    {e : Tables → SwapEntry} {f : Unit → SupM α} {Q : α → Job × Stage → Prop}
    (hf : ∀ t' : Tables, t'.frameNo = fNo → t'.swapPool fNo = e t → Follows (pageRules K p) (f ())
      (.pool t' b (.arrived v (k + 1)), .out) Q) :
    Follows (pageRules K p) ( write (fun u => u.setSwap fNo (e u)) >>= f)
      (.pool t b (.arrived v k), .out) Q := by
  have hne : k ≠ 4 := by omega
  refine .issue ⟨t, b, _, rfl, (if_neg hne).mpr ⟨e t, ht ▸ rfl⟩⟩ fun r x _ => ?_
  have hnext : (pageRules K p).next (.pool t b (.arrived v k), .out)
      (.tables fun u => (0, u.setSwap fNo (e u))) r x =
        (.pool (t.setSwap fNo (e t)) b (.arrived v (k + 1)), .out) :=
    Prod.ext (congrArg (Job.pool _ b) (if_neg hne)) rfl
  rw [hnext]
  exact hf _ ht (setSwap_self ..)

theorem enterPage_pages {page : Word} (hpage : HasPage page) (hv : clip page = v) :
    Follows (pageRules K p)
      (enterPage p 2 page v t.frameNo (frameAddr K t.frameNo)) (.pool t b (.arrived v 0), .out)
        fun _ s => ∃ t' b, s = (.pool t' b .served, .out) := by
  refine (disableInts_true_pages (by nofun)).bind ?_
  rintro _ _ rfl
  refine entering_write (by decide) rfl fun t1 h1 he1 => ?_
  refine entering_write (by decide) h1 fun t2 h2 he2 => ?_
  refine entering_write (by decide) h2 fun t3 h3 he3 => ?_
  refine entering_write (by decide) h3 fun t4 h4 he4 => ?_
  have hentry : t4.swapPool t.frameNo = ⟨p, 2, page, .entry (p - 1) v⟩ := by
    rw [he4, he3, he2, he1]
  have hmay : Phase.Rewrites K p true t4
      (t4.setEntryLo (t4.swapPool t.frameNo).spPteEntry (entryFor (frameAddr K t.frameNo)))
      (.arrived v 4) := by
    rw [hentry, ← h4]
    exact ⟨rfl, rfl, page, hpage, hv, h4 ▸ hentry⟩
  refine .issue ⟨t4, true, _, rfl, hmay⟩ fun _ _ _ => ?_
  refine .issue ⟨_, true, _, rfl⟩ fun _ _ _ => ?_
  exact (disableInts_false_pages (j := .pool _ true .served) nofun id).mono
    fun _ s ⟨b, hs⟩ => ⟨_, b, hs⟩

theorem bringIn_pages {page : Word} (hpage : HasPage page) (ht : t.frameNo.toNat < POOLSIZE) :
    Follows (pageRules K p) (bringIn K p 2 page (clip page))
      (.pool t false (.searching (some (clip page))), .out) fun _ s =>
        ∃ t' b, s = (.pool t' b .served, .out) := by
  refine (getFrame_pages ht).bind ?_
  rintro fNo _ ⟨rfl, hlt⟩
  generalize hu : ({ t with frameNo := fNo } : Tables) = u
  obtain rfl : u.frameNo = fNo := by rw [← hu]
  refine .perform ⟨u, false, _, rfl, nofun, u.frameNo, rfl⟩ fun r _ hr => ?_
  obtain rfl : r = (u.swapPool u.frameNo).spAsid := hr _ _ _ rfl
  refine .ite (fun hheld => ?_) fun hfree => ?_
  · refine (evict_pages hlt hheld).bind ?_
    rintro _ _ ⟨u', b, rfl, hu'⟩
    rw [← hu']
    refine (read_pages (.clear (clip page)) trivial rfl).bind ?_
    rintro _ _ ⟨b', rfl⟩
    exact enterPage_pages hpage rfl
  · refine (read_pages (b := false) (.searching (some (clip page)))
      ⟨nofun, hlt, not_not.mp hfree⟩ rfl).bind ?_
    rintro _ _ ⟨b', rfl⟩
    exact enterPage_pages hpage rfl

/-- The pager serves faults of kUseg2. -/
theorem pager_pages {entryHi : Word} {oldTLB : State} {page : Word} (hasid : asidOf entryHi = p)
    (hinv : Invalid oldTLB) (hseg : oldTLB.sAsid >>> 30 = 2)
    (hpage : (oldTLB.sAsid &&& 0x3FFFF000) >>> 12 = page) (hhas : HasPage page)
    {Q : Unit → Job × Stage → Prop} :
    Follows (pageRules K p) (pager K entryHi oldTLB) (.fault (some (clip page)), .out) Q := by
  have hcause : ¬ ((oldTLB.sCause <<< 25) >>> 27 ≠ TLBINVLW ∧
      (oldTLB.sCause <<< 25) >>> 27 ≠ TLBINVSW) := fun hc => hinv.elim hc.1 hc.2
  refine .issue (.inr ⟨_, rfl⟩) fun _ x hx => ?_
  simp only [hasid, hseg, hpage]
  refine .ite (fun hc => absurd hc hcause) fun _ => ?_
  refine .ite (fun hc => absurd hc (by decide)) fun _ => ?_
  refine (bringIn_pages hhas (hx rfl)).bind ?_
  rintro _ _ ⟨t', b, rfl⟩
  exact .issue trivial fun _ _ _ => rfl

/-- Other faults end the process. -/
theorem pager_refuses {entryHi : Word} {oldTLB : State} (hinv : ¬ Invalid oldTLB)
    {Q : Unit → Job × Stage → Prop} :
    Follows (pageRules K p) (pager K entryHi oldTLB) (.fault none, .out) Q := by
  refine .issue (.inr ⟨_, rfl⟩) fun _ x hx => ?_
  refine .ite (fun _ => .issue rfl fun _ _ _ => .inl rfl) fun hc => ?_
  exact absurd ⟨fun h => hinv (.inl h), fun h => hinv (.inr h)⟩ hc

end Pager

end Kaya.Phase3
