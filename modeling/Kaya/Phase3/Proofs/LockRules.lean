import Kaya.Phase3.Proofs.DiskRules

/-!
# The rules for semaphores

What a process of Kaya holds, which trap vectors it has installed and whether it has signalled
`masterSem`.  `strict` says that a process may rely on its tape as well as on the disk.
-/

namespace Kaya.Phase3

open Lib Lib.Program

def Sem.IsMutex (x : Sem) : Prop := x = .swapPoolSem ∨ x = disk0sem

instance : DecidablePred Sem.IsMutex := fun _ => inferInstanceAs (Decidable (_ ∨ _))

@[ext]
structure Place where
  held : Sem → Bool
  /-- The trap vectors that are installed. -/
  vectors : Trap → Bool
  /-- The V on `masterSem` is made. -/
  signalled : Bool
  /-- What `test` created, and how often it passed `masterSem`. -/
  created : Nat
  passed : Nat

namespace Place

def init : Place := ⟨fun _ => false, fun _ => false, false, 0, 0⟩

def user : Place := ⟨fun _ => false, fun _ => true, false, 0, 0⟩

def Free (g : Place) : Prop := g.held = fun _ => false

theorem user_free : user.Free := rfl

def hold (g : Place) (x : Sem) (b : Bool) : Place :=
  if x.IsMutex then { g with held := Function.update g.held x b } else g

/-- No bad status comes from the disk, and none from a tape that can be relied on. -/
def Promised (strict : Bool) (l d n : Word) : Prop := OnDisk0 l d n ∨ strict = true ∧ l = TAPEINT

instance (strict : Bool) (l d n : Word) : Decidable (Promised strict l d n) :=
  inferInstanceAs (Decidable (_ ∨ _))

end Place

open Phase3.Place

def userRules (strict : Bool) : Discipline Act Word Leave View Place where
  may g a := g.signalled = false ∧
    match a with
    | .passeren x => x ≠ .masterSem ∧ (x.IsMutex → g.held x = false)
    | .verhogen x => (x = .masterSem → g.Free) ∧ (x.IsMutex → g.held x = true)
    | .waitio l _ _ => ¬ l < DISKINT
    | .createprocess _ _ => False
    | .spectrapvec trap new => new.sPc = trap.entry ∧ g.vectors trap = false ∧ g.Free
    | .load _ => g = user
    | _ => True
  admits _
    | .waitio l d n, r, _ => Promised strict l d n → r = READY
    | _, _, _ => True
  next g
    | .passeren x, _, _ => g.hold x true
    | .verhogen x, _, _ => if x = .masterSem then { g with signalled := true } else g.hold x false
    | .spectrapvec trap _, _, _ => { g with vectors := Function.update g.vectors trap true }
    | _, _, _ => g
  leave g
    | .terminate => g.signalled = false ∧ g.Free ∧ (strict = true → g.vectors .sys = true)
    | .terminateprocess => g.signalled = true ∧ g.Free
    | .again asid _ => asid < 64 ∧ g = init
    | .ldst _ _ | .user _ _ _ _ => g = user

def testRules : Discipline Act Word Leave View Place where
  may g
    | .passeren x => x = .masterSem ∧ g.passed < MAXUPROC
    | .createprocess sAsid _ =>
        g.created < MAXUPROC ∧ asidOf sAsid = BitVec.ofNat 32 (g.created + 1)
    | _ => False
  admits _
    | .createprocess _ _, r, _ => r = SUCCESS
    | _, _, _ => True
  next g
    | .passeren _, _, _ => { g with passed := g.passed + 1 }
    | .createprocess _ _, _, _ => { g with created := g.created + 1 }
    | _, _, _ => g
  leave g l := l = .terminateprocess ∧ g.passed = MAXUPROC

/-- The rules of Kaya; `test` is process 0. -/
def lockRules (strict : Bool) (p : Word) : Discipline Act Word Leave View Place :=
  if p = 0 then testRules else userRules strict

variable {α : Type} {strict : Bool} {g : Place} {a : Act} {x : Sem}

/-! ## The functions of phase 3 -/

def Act.Neutral : Act → Prop
  | .getSTATUS | .setSTATUS _ | .getENTRYHI | .TLBCLR | .setCommand _ _ | .setData0 _ _
  | .setData1 _ _ | .getData1 _ | .tables _ => True
  | _ => False

theorem Act.Neutral.follows (ha : a.Neutral) (strict : Bool) (hg : g.signalled = false) :
    (userRules strict).may g a ∧
      ∀ r x, (userRules strict).admits g a r x → (userRules strict).next g a r x = g := by
  cases a with
  | passeren | verhogen | waitio | createprocess | spectrapvec | load => exact ha.elim
  | _ => exact ⟨⟨hg, trivial⟩, fun _ _ _ => rfl⟩

/-- Code that only performs neutral actions. -/
theorem neutral_follows {x : SupM α} (hx : x.Only Act.Neutral fun _ => False)
    (hg : g.signalled = false) : Follows (userRules strict) x g fun _ g' => g' = g :=
  hx.follows (fun _ ha => ha.follows strict hg) fun _ => False.elim

theorem neutral_issue {f : Unit → SupM α} {Q : α → Place → Prop} (ha : a.Neutral)
    (hg : g.signalled = false) (hf : Follows (userRules strict) (f ()) g Q) :
    Follows (userRules strict) (Program.issue a >>= f) g Q := by
  obtain ⟨hmay, hnext⟩ := ha.follows strict hg
  refine .issue hmay fun r x hr => ?_
  rw [hnext r x hr]
  exact hf

theorem neutral_perform {f : Word → SupM α} {Q : α → Place → Prop} (ha : a.Neutral)
    (hg : g.signalled = false) (hf : ∀ r, Follows (userRules strict) (f r) g Q) :
    Follows (userRules strict) (Program.perform a >>= f) g Q := by
  obtain ⟨hmay, hnext⟩ := ha.follows strict hg
  refine .perform hmay fun r x hr => ?_
  rw [hnext r x hr]
  exact hf r

theorem disableInts_only (disable : Bool) :
    (disableInts disable).Only Act.Neutral fun _ => False := by
  cases disable <;> exact ⟨trivial, fun _ => ⟨trivial, fun _ => trivial⟩⟩

/-- The answer of `WAITIO` to a promised operation is `READY`. -/
theorem waitForIO_follows {l d n : Word} {f : Word → SupM α} {Q : α → Place → Prop}
    (hg : g.signalled = false) (hl : ¬ l < DISKINT)
    (hf : ∀ r, (Promised strict l d n → r = READY) → Follows (userRules strict) (f r) g Q) :
    Follows (userRules strict) ( waitForIO l d n >>= f) g Q :=
  .perform ⟨hg, hl⟩ fun r _ hr => hf r hr

theorem hold_release (hheld : x.IsMutex → g.held x = false) : (g.hold x true).hold x false = g := by
  unfold Place.hold
  split_ifs with hx
  · ext1 <;> try rfl
    change Function.update (Function.update g.held x true) x false = g.held
    rw [Function.update_idem, ← hheld hx, Function.update_eq_self]
  · rfl

@[simp] theorem hold_signalled (g : Place) (x : Sem) (b : Bool) :
    (g.hold x b).signalled = g.signalled := by
  unfold Place.hold
  split_ifs <;> rfl

theorem hold_held (hx : x.IsMutex) (b : Bool) : (g.hold x b).held x = b := by
  rw [Place.hold, if_pos hx]
  exact Function.update_self ..

theorem hold_held_of_ne {y : Sem} (hyx : y ≠ x) (b : Bool) : (g.hold x b).held y = g.held y := by
  unfold Place.hold
  split_ifs
  · exact Function.update_of_ne hyx ..
  · rfl

theorem Place.Free.held (h : g.Free) (x : Sem) : g.held x = false := congrFun h x

theorem acquire {f : Unit → SupM α} {Q : α → Place → Prop} (hg : g.signalled = false)
    (hx : x ≠ .masterSem) (hheld : x.IsMutex → g.held x = false)
    (hf : Follows (userRules strict) (f ()) (g.hold x true) Q) :
    Follows (userRules strict) (passeren x >>= f) g Q :=
  .issue ⟨hg, hx, hheld⟩ fun _ _ _ => hf

theorem release_done (hg : g.signalled = false) (hx : x ≠ .masterSem)
    (hheld : x.IsMutex → g.held x = false) :
    Follows (userRules strict) (verhogen x) (g.hold x true) fun _ g' => g' = g := by
  refine ⟨⟨(hold_signalled ..).trans hg, fun heq => absurd heq hx, fun hm => hold_held hm _⟩,
    fun _ _ _ => ?_⟩
  exact (if_neg hx).trans (hold_release hheld)

theorem release {f : Unit → SupM α} {Q : α → Place → Prop} (hg : g.signalled = false)
    (hx : x ≠ .masterSem) (hheld : x.IsMutex → g.held x = false)
    (hf : Follows (userRules strict) (f ()) g Q) :
    Follows (userRules strict) (verhogen x >>= f) (g.hold x true) Q := by
  refine (release_done hg hx hheld).bind ?_
  rintro _ _ rfl
  exact hf

/-- One command of a call, up to the test of its status. -/
theorem completed_locks {f : Unit → SupM α} {Q : α → Place → Prop} (hg : g.signalled = false)
    (hf : Follows (userRules strict) (f ()) g Q) :
    Follows (userRules strict) ( waitForIO DISKINT 0 0 >>= fun status => disableInts false >>= fun _ =>
      if status ≠ READY then leave .terminate >>= f else f ()) g Q := by
  refine waitForIO_follows hg (by decide) fun status hready => ?_
  refine (neutral_follows (disableInts_only false) hg).bind ?_
  rintro _ _ rfl
  refine .leaveIf (fun hne => ?_) fun _ => hf
  exact absurd (hready (.inl ⟨by decide, by decide⟩)) hne

/-- A call of `diskIO` ends where it began. -/
theorem diskIO_locks (hg : g.signalled = false) (hheld : g.held disk0sem = false)
    (sector cyl head memBuf command : Word) :
    Follows (userRules strict) ( diskIO sector cyl head disk0sem 0 memBuf command) g
      fun _ g' => g' = g := by
  have hg' : (g.hold disk0sem true).signalled = false := (hold_signalled ..).trans hg
  refine acquire hg nofun (fun _ => hheld) ?_
  refine (neutral_follows (disableInts_only true) hg').bind ?_
  rintro _ _ rfl
  refine neutral_issue trivial hg' ?_
  refine completed_locks hg' ?_
  refine (neutral_follows (disableInts_only true) hg').bind ?_
  rintro _ _ rfl
  refine neutral_issue trivial hg' ?_
  refine neutral_issue trivial hg' ?_
  refine completed_locks hg' ?_
  exact release_done hg nofun fun _ => hheld

theorem onTape_only (reg : Word) : (onTape reg).Only Act.Neutral fun _ => False :=
  ⟨trivial, fun _ => Only.ite (fun _ => trivial) fun _ => ⟨trivial, fun _ => trivial⟩⟩

theorem tapeToDisk_locks {asid : Word} (h : asid < 64) (i : Word) :
    Follows (userRules strict) (tapeToDisk asid i) init fun _ g' => g' = init := by
  refine (neutral_follows (onTape_only _) rfl).bind ?_
  rintro more _ rfl
  cases more with
  | false => rfl
  | true =>
    refine neutral_issue trivial rfl ?_
    refine neutral_issue trivial rfl ?_
    refine waitForIO_follows rfl (by decide) fun status hready => ?_
    refine .leaveIf (fun hne => ?_) fun _ => ?_
    · exact ⟨rfl, rfl, fun hstrict => absurd (hready (.inr ⟨hstrict, rfl⟩)) hne⟩
    · refine (diskIO_locks rfl rfl _ _ _ _ _).bind ?_
      rintro _ _ rfl
      exact ⟨h, rfl⟩

def Place.withVectors (vs : Trap → Bool) : Place := { init with vectors := vs }

theorem setTrap_locks (asid i : Word) (vs : Trap → Bool) (trap : Trap) (hvs : vs trap = false) :
    Follows (userRules strict) (setTrap asid i trap trap.entry) (withVectors vs)
      fun _ g' => g' = withVectors (Function.update vs trap true) :=
  neutral_perform trivial rfl fun _ => ⟨⟨rfl, rfl, hvs, rfl⟩, fun _ _ _ => rfl⟩

theorem uProcInitFrom_locks {asid : Word} (h : asid < 64) (i : Word) {Q : Unit → Place → Prop} :
    Follows (userRules strict) (uProcInitFrom asid i) init Q := by
  refine (tapeToDisk_locks h i).bind ?_
  rintro _ _ rfl
  refine (setTrap_locks asid TLBTRAP (fun _ => false) .tlb rfl).bind ?_
  rintro _ _ rfl
  refine (setTrap_locks asid PROGTRAP _ .pgm rfl).bind ?_
  rintro _ _ rfl
  refine (setTrap_locks asid SYSTRAP _ .sys rfl).bind ?_
  rintro _ _ rfl
  refine neutral_perform trivial rfl fun _ => ?_
  have hall : Function.update (Function.update (Function.update (fun _ => false) Trap.tlb true)
      Trap.pgm true) Trap.sys true = fun _ => true := by
    funext trap
    cases trap <;> rfl
  change withVectors _ = user
  rw [hall]
  rfl

theorem tables_neutral {y : SupM α} (hy : y.Only Act.IsTables fun _ => False) :
    y.Only Act.Neutral fun _ => False := by
  induction y with
  | done a => exact trivial
  | leave l => exact hy
  | act a k ih =>
    refine ⟨?_, fun r => ih r (hy.2 r)⟩
    cases a with
    | tables f => exact trivial
    | _ => exact hy.1.elim

theorem terminateUserProc_locks (hg : g.signalled = false) (hfree : g.Free) (entryHi : Word)
    {Q : Unit → Place → Prop} : Follows (userRules strict) (terminateUserProc entryHi) g Q := by
  have hg' : (g.hold .swapPoolSem true).signalled = false := (hold_signalled ..).trans hg
  have hheld : Sem.swapPoolSem.IsMutex → g.held .swapPoolSem = false := fun _ => hfree.held _
  refine acquire hg nofun hheld ?_
  refine (neutral_follows (tables_neutral (freeFrames_only _ _)) hg').bind ?_
  rintro _ _ rfl
  refine neutral_issue trivial hg' ?_
  refine release hg nofun hheld ?_
  exact .issue ⟨hg, fun _ => hfree, fun hm => absurd hm (by decide)⟩ fun _ _ _ => ⟨rfl, hfree⟩

theorem transmit_locks (asid virtAddr : Word) (n : Nat) (i status : Word) :
    Follows (userRules strict) (transmit asid virtAddr n i status) user fun _ g' => g' = user := by
  induction n generalizing i status with
  | zero => rfl
  | succ n ih =>
    refine (neutral_follows (disableInts_only true) rfl).bind ?_
    rintro _ _ rfl
    refine .perform ⟨rfl, rfl⟩ fun _ _ _ => ?_
    refine neutral_issue trivial rfl ?_
    refine waitForIO_follows rfl (by decide) fun status _ => ?_
    refine (neutral_follows (disableInts_only false) rfl).bind ?_
    rintro _ _ rfl
    exact .ite (fun _ => rfl) fun _ => ih _ _

theorem hold_other (hx : ¬ x.IsMutex) (g : Place) (b : Bool) : g.hold x b = g := if_neg hx

theorem writeToTerminal_locks (junk entryHi : Word) (state : State) {Q : Unit → Place → Prop} :
    Follows (userRules strict) (writeToTerminal junk entryHi state) user Q := by
  have hmutex : ¬ (Sem.devSemArray (DEVCNT * (TERMINT - DEVINTOFFSET) +
      TERMCNT * (asidOf entryHi - 1))).IsMutex :=
    not_or_intro nofun (terminalSem_ne (asidOf_lt entryHi))
  have hrest : Follows (userRules strict) (do
      passeren (.devSemArray (DEVCNT * (TERMINT - DEVINTOFFSET) +
        TERMCNT * (asidOf entryHi - 1)))
      let status ← transmit (asidOf entryHi) state.a1 state.a2.toNat 0 junk
      verhogen (.devSemArray (DEVCNT * (TERMINT - DEVINTOFFSET) +
        TERMCNT * (asidOf entryHi - 1)))
      leave (.ldst .sys (state.setV0 status)) : SupM Unit) user Q := by
    refine acquire rfl nofun (fun hm => absurd hm hmutex) ?_
    rw [hold_other hmutex]
    refine (transmit_locks _ _ _ _ _).bind ?_
    rintro _ _ rfl
    rw [← hold_other hmutex user true]
    exact release rfl nofun (fun hm => absurd hm hmutex) rfl
  refine .ite (fun _ => ?_) fun _ => hrest
  exact (terminateUserProc_locks rfl user_free entryHi).bind fun _ _ (h : False) => h.elim

theorem userSyscallHandler_locks (junk entryHi : Word) (state : State)
    {Q : Unit → Place → Prop} :
    Follows (userRules strict) (userSyscallHandler junk entryHi state) user Q :=
  .ite (fun _ => writeToTerminal_locks junk entryHi state) fun _ =>
    .ite (fun _ => terminateUserProc_locks rfl user_free entryHi) fun _ =>
      terminateUserProc_locks rfl user_free entryHi

section Pager

variable (hg : g.signalled = false) (hheld : g.held disk0sem = false)

include hg hheld

theorem evict_locks (fNo swapLoc : Word) :
    Follows (userRules strict) (evict fNo swapLoc) g fun _ g' => g' = g := by
  refine (neutral_follows (disableInts_only true) hg).bind ?_
  rintro _ _ rfl
  refine neutral_issue trivial hg ?_
  refine neutral_perform trivial hg fun _ => ?_
  refine neutral_perform trivial hg fun _ => ?_
  refine neutral_issue trivial hg ?_
  refine (neutral_follows (disableInts_only false) hg).bind ?_
  rintro _ _ rfl
  exact diskIO_locks hg hheld _ _ _ _ _

omit hheld in
theorem enterPage_locks (asid segment missingPage vPageNo fNo swapLoc : Word) :
    Follows (userRules strict) (enterPage asid segment missingPage vPageNo fNo swapLoc) g
      fun _ g' => g' = g := by
  refine (neutral_follows (disableInts_only true) hg).bind ?_
  rintro _ _ rfl
  refine neutral_issue trivial hg ?_
  refine neutral_issue trivial hg ?_
  refine neutral_issue trivial hg ?_
  refine neutral_issue trivial hg ?_
  refine neutral_issue trivial hg ?_
  refine neutral_issue trivial hg ?_
  exact neutral_follows (disableInts_only false) hg

theorem bringIn_locks (K : Layout) (asid segment missingPage vPageNo : Word) :
    Follows (userRules strict) (bringIn K asid segment missingPage vPageNo) g
      fun _ g' => g' = g := by
  have hload : ∀ fNo, Follows (userRules strict) (do
      diskIO (asid - 1) vPageNo 0 disk0sem 0 (frameAddr K fNo) READBLK
      enterPage asid segment missingPage vPageNo fNo (frameAddr K fNo)) g
        fun _ g' => g' = g := by
    intro fNo
    refine (diskIO_locks hg hheld _ _ _ _ _).bind ?_
    rintro _ _ rfl
    exact enterPage_locks hg ..
  refine (neutral_follows (tables_neutral getFrame_only) hg).bind ?_
  rintro fNo _ rfl
  refine neutral_perform trivial hg fun _ => .ite (fun _ => ?_) fun _ => hload fNo
  refine (evict_locks hg hheld _ _).bind ?_
  rintro _ _ rfl
  exact hload fNo

end Pager

theorem pager_locks (K : Layout) (entryHi : Word) (oldTLB : State) {Q : Unit → Place → Prop} :
    Follows (userRules strict) (pager K entryHi oldTLB) user Q := by
  have hdisk : (user.hold .swapPoolSem true).held disk0sem = false :=
    hold_held_of_ne (by decide) true
  have hg : (user.hold .swapPoolSem true).signalled = false := hold_signalled ..
  have hheld : Sem.swapPoolSem.IsMutex → user.held .swapPoolSem = false := fun _ => rfl
  have hrest : ∀ asid segment missingPage vPageNo, Follows (userRules strict) (do
      bringIn K asid segment missingPage vPageNo
      verhogen .swapPoolSem
      leave (.ldst .tlb oldTLB) : SupM Unit) (user.hold .swapPoolSem true) Q := by
    intro asid segment missingPage vPageNo
    refine (bringIn_locks hg hdisk K asid segment missingPage vPageNo).bind ?_
    rintro _ _ rfl
    exact release rfl nofun hheld rfl
  refine acquire rfl nofun hheld ?_
  refine .ite (fun _ => release rfl nofun hheld ⟨rfl, rfl, fun _ => rfl⟩) fun _ => ?_
  refine .ite (fun _ => ?_) fun _ => hrest ..
  refine neutral_perform trivial hg fun _ => .ite (fun _ => ?_) fun _ => hrest ..
  exact release rfl nofun hheld rfl

/-! ## `test` -/

theorem createUProc_follows {i : Nat} (hg : g.created + 1 = i) (hi : i ≤ MAXUPROC) :
    Follows testRules (createUProc i) g fun _ g' => g' = { g with created := i } := by
  have hasid : asidOf (BitVec.ofNat 32 i <<< 6) = BitVec.ofNat 32 i := by
    have hcases : i = 1 ∨ i = 2 := by
      have hmax : MAXUPROC = 2 := rfl
      omega
    rcases hcases with rfl | rfl <;> decide
  refine .perform ⟨by omega, ?_⟩ fun status _ hstatus => ?_
  · rw [hasid, hg]
  · refine .ite (fun hne => absurd hstatus hne) fun _ => ?_
    rw [← hg]
    rfl

theorem test_follows {Q : Unit → Place → Prop} : Follows testRules test init Q := by
  have hcreate : Follows testRules ((List.range' 1 MAXUPROC).forM createUProc) init
      fun _ g => g = { init with created := MAXUPROC } := by
    refine (createUProc_follows (i := 1) rfl (by decide)).bind ?_
    rintro _ _ rfl
    refine (createUProc_follows (i := 2) rfl (by decide)).bind ?_
    rintro _ _ rfl
    rfl
  have hwait : Follows testRules ((List.range MAXUPROC).forM fun _ => passeren .masterSem)
      { init with created := MAXUPROC } fun _ g => g.passed = MAXUPROC :=
    ⟨⟨rfl, Nat.zero_lt_two⟩, fun _ _ _ => ⟨⟨rfl, Nat.one_lt_two⟩, fun _ _ _ => rfl⟩⟩
  refine hcreate.bind ?_
  rintro _ _ rfl
  exact hwait.bind fun _ _ hg => ⟨rfl, hg⟩

/-! ## Kaya -/

/-- What only a process that `test` created may do. -/
theorem lockRules_may {p : Word} (h : (lockRules strict p).may g a)
    (ha : ¬ testRules.may g a) : p ≠ 0 ∧ (userRules strict).may g a := by
  unfold lockRules at h
  split_ifs at h with hp
  · exact absurd h ha
  · exact ⟨hp, h⟩

theorem lockRules_leave {p : Word} {l : Leave} (h : (lockRules strict p).leave g l)
    (hl : l ≠ .terminateprocess) : p ≠ 0 ∧ (userRules strict).leave g l := by
  unfold lockRules at h
  split_ifs at h with hp
  · exact absurd h.1 hl
  · exact ⟨hp, h⟩

theorem lockRules_of_ne {p : Word} (hp : p ≠ 0) : lockRules strict p = userRules strict := if_neg hp

/-- A process that is created is not `test`. -/
theorem lockRules_create {p sAsid sStatus : Word}
    (h : (lockRules strict p).may g (.createprocess sAsid sStatus)) :
    p = 0 ∧ g.created < MAXUPROC ∧ asidOf sAsid = BitVec.ofNat 32 (g.created + 1) := by
  unfold lockRules at h
  split_ifs at h with hp
  · exact ⟨hp, h⟩
  · exact h.2.elim

theorem number_ne_zero {n : Nat} (hn : n < MAXUPROC) : BitVec.ofNat 32 (n + 1) ≠ 0 := by
  have hcases : n = 0 ∨ n = 1 := by
    have hmax : MAXUPROC = 2 := rfl
    omega
  rcases hcases with rfl | rfl <;> decide

theorem kaya_obeys (K : Layout) (junk : Word) (strict : Bool) :
    (kaya K junk).Obeys (lockRules strict) (fun _ => init) fun _ => user where
  start p g sAsid sStatus h := by
    obtain ⟨-, hlt, hasid⟩ := lockRules_create h
    have hne : (kaya K junk).child sAsid ≠ 0 := by
      change asidOf sAsid ≠ 0
      rw [hasid]
      exact number_ne_zero hlt
    rw [lockRules_of_ne hne]
    exact neutral_perform trivial rfl fun _ => uProcInitFrom_locks (asidOf_lt _) 0
  again p g asid i h := by
    obtain ⟨hp, hlt, rfl⟩ := lockRules_leave h nofun
    rw [lockRules_of_ne hp]
    exact uProcInitFrom_locks hlt i
  enter p g trap new st h := by
    obtain ⟨hp, -, hpc, -⟩ := lockRules_may h id
    rw [lockRules_of_ne hp, hpc]
    cases trap with
    | tlb => exact pager_locks K new.sAsid st
    | pgm => exact ⟨rfl, user_free, fun _ => rfl⟩
    | sys => exact userSyscallHandler_locks junk new.sAsid st
  terminate p g g' new h h' := by
    obtain ⟨hp, -, hpc, -⟩ := lockRules_may h id
    obtain ⟨-, hsig, hfree, -⟩ := lockRules_leave h' nofun
    rw [lockRules_of_ne hp, hpc]
    exact terminateUserProc_locks hsig hfree new.sAsid
  load p g virtAddr h := (lockRules_may h id).2.2
  ldst p g trap st h := (lockRules_leave h nofun).2
  user p g a1 a2 a3 a4 h := (lockRules_leave h nofun).2

end Kaya.Phase3
