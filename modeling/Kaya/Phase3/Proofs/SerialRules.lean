import Kaya.Lib.Critical
import Kaya.Phase3.PageFaults
import Kaya.Phase3.Proofs.DeviceRules

/-!
# The sections on `swapPoolSem`

What the pager and `terminateUserProc` make of the tables between their P and their V.
-/

namespace Kaya.Phase3

open Lib Lib.Program

/-- What a process does with the tables while it holds `swapPoolSem`. -/
inductive Txn where
  /-- A page gets a frame. -/
  | serve (segment page : Word)
  /-- The process gives up its frames. -/
  | free
  /-- The pager turns a fault down. -/
  | refuse

def Tables.clear (t : Tables) (asid : Word) (ns : List Word) : Tables :=
  { t with swapPool := fun n =>
      if n ∈ ns ∧ (t.swapPool n).spAsid = asid then ⟨-1, 0, 0, .null⟩ else t.swapPool n }

def frames : List Word := (List.range POOLSIZE).map (BitVec.ofNat 32)

/-- What process `p` makes of the tables. -/
def Txn.apply (K : Layout) (p : Word) (τ : Txn) (t : Tables) : Tables :=
  match τ with
  | .serve segment page => t.bringIn K p segment page (clip page) t.nextFrame
  | .free => t.clear p frames
  | .refuse => t

/-- The ghost state is what the tables were when the process passed its P, and what they are;
there is none outside of a section. -/
def serialRules (K : Layout) (p : Word) :
    Discipline Act Word Leave View (Option (Tables × Tables)) where
  may g
    | .verhogen x => x = .swapPoolSem → ∃ t τ, g = some (t, Txn.apply K p τ t)
    | .spectrapvec trap new => new.sPc = trap.entry ∧ asidOf new.sAsid = p
    | .load _ => g = none
    | _ => True
  admits g a r _ :=
    match a with
    | .getENTRYHI => asidOf r = p
    | .tables f => ∀ t₀ t, g = some (t₀, t) → r = (f t).1
    | _ => True
  next g a _ x :=
    match a with
    | .passeren y => if y = .swapPoolSem then some (x.tables, x.tables) else g
    | .verhogen y => if y = .swapPoolSem then none else g
    | .tables f => g.map fun t => (t.1, (f t.2).2)
    | _ => g
  leave g
    | .terminate | .terminateprocess => True
    | .ldst _ _ | .user _ _ _ _ => g = none
    | .again asid _ => asid = p ∧ g = none

variable {α : Type} {K : Layout} {p : Word} {a : Act} {E : Desk → Leave → Prop} {d : Desk}
  {t₀ : Tables} {g : Option (Tables × Tables)} {x : SupM α} {P' : Leave → Prop}

/-! ## Outside and inside -/

theorem serial_enters (g : Option (Tables × Tables)) (r : Word) (v : View) :
    (serialRules K p).next g (.passeren .swapPoolSem) r v = some (v.tables, v.tables) := by
  simp only [serialRules, if_true]

theorem serial_leaves (g : Option (Tables × Tables)) (r : Word) (v : View) :
    (serialRules K p).next g (.verhogen .swapPoolSem) r v = none := by
  simp only [serialRules, if_true]

theorem serial_passes {x : Sem} (hx : x ≠ .swapPoolSem) (g : Option (Tables × Tables)) (r : Word)
    (v : View) : (serialRules K p).next g (.passeren x) r v = g := if_neg hx

def Act.Within (a : Act) (p : Word) (g : Bool) : Prop := a.Keeps g ∧ a.Common p

theorem Act.Within.may {b : Bool} (ha : a.Within p b) : (serialRules K p).may g a := by
  cases a with
  | verhogen y => exact fun hy => absurd hy ha.1
  | spectrapvec | load => exact ha.2.elim
  | _ => exact trivial

theorem Act.Within.outside (ha : a.Within p false) (r : Word) (v : View) :
    (serialRules K p).next none a r v = none := by
  cases a with
  | passeren y => exact if_neg ha.1
  | verhogen y => exact if_neg ha.1
  | _ => rfl

theorem outside_follows (hx : x.Only (fun a => a.Within p false) P')
    (hleave : ∀ l, P' l → (serialRules K p).leave none l) :
    Follows (serialRules K p) x none fun _ g => g = none :=
  hx.follows (fun _ ha => ⟨ha.may, fun r v _ => ha.outside r v⟩) hleave

/-- What a process does to the tables when they are its own it does to them in a section. -/
theorem inside_follows {Q : α → Desk → Prop} (h : Follows (aloneRules E) x d Q)
    (hx : x.Only (fun a => a.Within p true) P') (hleave : ∀ l, P' l → l = .terminate) :
    Follows (serialRules K p) x (some (t₀, d.tables)) fun a g =>
      ∃ d', g = some (t₀, d'.tables) ∧ Q a d' := by
  induction x generalizing d with
  | done a => exact ⟨d, rfl, h⟩
  | leave l =>
    obtain rfl := hleave l hx
    exact trivial
  | act a k ih =>
    obtain ⟨ha, hk⟩ := hx
    refine ⟨ha.may, fun r v hr => ?_⟩
    have hadm : (aloneRules E).admits d a r () := by
      cases a with
      | tables f => exact hr t₀ d.tables rfl
      | _ => exact trivial
    have hnext : (serialRules K p).next (some (t₀, d.tables)) a r v =
        some (t₀, ((aloneRules E).next d a r ()).tables) := by
      cases a with
      | passeren y => exact if_neg ha.1
      | verhogen y => exact if_neg ha.1
      | _ => rfl
    rw [hnext]
    exact ih r (h.2 r () hadm) (hk r)

/-! ## The frames of a process -/

section Clear

variable {asid : Word}

theorem clear_nil (t : Tables) : t.clear asid [] = t := by
  simp [Tables.clear]

theorem clear_cons (t : Tables) (n : Word) (ns : List Word) :
    (if (t.swapPool n).spAsid = asid then t.setSwap n ⟨-1, 0, 0, .null⟩ else t).clear asid ns =
      t.clear asid (n :: ns) := by
  unfold Tables.clear
  by_cases hown : (t.swapPool n).spAsid = asid
  · simp only [if_pos hown, Tables.setSwap, Tables.mk.injEq, true_and, and_true]
    funext m
    by_cases hmn : m = n
    · subst hmn
      simp [hown]
    · simp [hmn]
  · simp only [if_neg hown, Tables.mk.injEq, true_and, and_true]
    funext m
    by_cases hmn : m = n
    · subst hmn
      simp [hown]
    · simp [hmn]

theorem freeFrame_alone (i : Word) : Follows (aloneRules E) (freeFrame asid i) d fun _ d' =>
    d' = { d with tables := if (d.tables.swapPool i).spAsid = asid then
      d.tables.setSwap i ⟨-1, 0, 0, .null⟩ else d.tables } := by
  refine .perform trivial fun r _ hr => ?_
  obtain rfl : r = (d.tables.swapPool i).spAsid := hr
  refine .ite (fun hown => ?_) fun hother => ?_
  · refine .issue trivial fun _ _ _ => .issue trivial fun _ _ _ => .issue trivial fun _ _ _ => ?_
    refine ⟨trivial, fun _ _ _ => ?_⟩
    rw [follows_done, if_pos hown]
    simp only [aloneRules, Tables.setSwap, Function.update_self, Function.update_idem]
  · rw [if_neg hother]
    rfl

theorem freeFrames_alone (is : List Nat) :
    Follows (aloneRules E) (is.forM fun i => freeFrame asid (BitVec.ofNat 32 i)) d fun _ d' =>
      d' = { d with tables := d.tables.clear asid (is.map (BitVec.ofNat 32)) } := by
  induction is generalizing d with
  | nil =>
    change d = _
    rw [List.map_nil, clear_nil]
  | cons i is ih =>
    refine (freeFrame_alone (BitVec.ofNat 32 i)).bind ?_
    rintro _ _ rfl
    refine ih.mono ?_
    rintro _ _ rfl
    rw [List.map_cons, ← clear_cons]

end Clear

/-! ## The functions of phase 3 -/

theorem disableInts_within (b disable : Bool) :
    (disableInts disable).Only (fun a => a.Within p b) P' := by
  cases disable <;> exact ⟨⟨trivial, trivial⟩, fun _ => ⟨⟨trivial, trivial⟩, fun _ => trivial⟩⟩

theorem setTrap_serial (asid i : Word) (trap : Trap) {f : Unit → SupM α}
    {Q : α → Option (Tables × Tables) → Prop} (hf : Follows (serialRules K p) (f ()) none Q) :
    Follows (serialRules K p) (setTrap asid i trap trap.entry >>= f) none Q :=
  .perform trivial fun _ _ hr => ⟨⟨rfl, hr⟩, fun _ _ _ => hf⟩

theorem uProcInitFrom_serial (i : Word) {Q : Unit → Option (Tables × Tables) → Prop} :
    Follows (serialRules K p) (uProcInitFrom p i) none Q := by
  have htape : (tapeToDisk p i).Only (fun a => a.Within p false) fun l =>
      tableRules.leave false l ∧ ∀ asid i, l = .again asid i → asid = p := by
    refine (tapeToDisk_tame p i).and (tapeToDisk_common (fun _ _ h => Leave.noConfusion h) i ?_)
    intro i asid i' h
    exact (Leave.again.inj h).1.symm
  refine (outside_follows htape ?_).bind ?_
  · rintro l ⟨-, hagain⟩
    cases l with
    | terminate | terminateprocess => exact trivial
    | ldst | user => rfl
    | again asid i => exact ⟨hagain asid i rfl, rfl⟩
  rintro _ _ rfl
  refine setTrap_serial p TLBTRAP .tlb ?_
  refine setTrap_serial p PROGTRAP .pgm ?_
  refine setTrap_serial p SYSTRAP .sys ?_
  exact .perform trivial fun _ _ _ => rfl

/-- Also after a bad status of the disk, when the process is in a section. -/
theorem terminateUserProc_serial {entryHi : Word} (hasid : asidOf entryHi = p)
    {Q : Unit → Option (Tables × Tables) → Prop} :
    Follows (serialRules K p) (terminateUserProc entryHi) g Q := by
  have hfree : ((List.range POOLSIZE).forM fun i => freeFrame p (BitVec.ofNat 32 i)).Only
      (fun a => a.Within p true) fun l => tableRules.leave true l ∧ l = .terminate :=
    (freeFrames_tame _ _).and (tables_common (freeFrames_only _ _) fun _ => False.elim)
  unfold terminateUserProc
  rw [hasid]
  refine .issue trivial fun _ x _ => ?_
  rw [serial_enters]
  refine (inside_follows (d := ⟨x.tables, 0⟩) (freeFrames_alone (E := fun _ _ => True) _) hfree
    fun _ => And.right).bind ?_
  rintro _ _ ⟨_, rfl, rfl⟩
  refine .issue trivial fun _ _ _ => .issue (fun _ => ⟨x.tables, .free, rfl⟩) fun _ _ _ => ?_
  exact .issue (fun hx => Sem.noConfusion hx) fun _ _ _ => trivial

theorem transmit_serial (virtAddr : Word) (n : Nat) (i status : Word) :
    Follows (serialRules K p) (transmit p virtAddr n i status) none fun _ g => g = none := by
  have hints : ∀ b, Follows (serialRules K p) (disableInts b) none fun _ g => g = none := fun b =>
    outside_follows (disableInts_within false b) (fun _ => False.elim)
  induction n generalizing i status with
  | zero => rfl
  | succ n ih =>
    refine (hints true).bind ?_
    rintro _ _ rfl
    refine .perform rfl fun _ _ _ => .issue trivial fun _ _ _ => .perform trivial fun status _ _ => ?_
    refine (hints false).bind ?_
    rintro _ _ rfl
    exact .ite (fun _ => rfl) fun _ => ih ..

theorem userSyscallHandler_serial (junk : Word) {entryHi : Word} (hasid : asidOf entryHi = p)
    (state : State) {Q : Unit → Option (Tables × Tables) → Prop} :
    Follows (serialRules K p) (userSyscallHandler junk entryHi state) none Q := by
  have hrest : Follows (serialRules K p) (do
      passeren (termSem p)
      let status ← transmit p state.a1 state.a2.toNat 0 junk
      verhogen (termSem p)
      leave (.ldst .sys (state.setV0 status)) : SupM Unit) none Q := by
    refine .issue trivial fun _ _ _ => ?_
    rw [serial_passes (Sem.noConfusion : termSem p = .swapPoolSem → False)]
    refine (transmit_serial _ _ _ _).bind ?_
    rintro status _ rfl
    exact .issue (fun hx => Sem.noConfusion hx) fun _ _ _ => rfl
  refine .ite (fun _ => ?_) fun _ => .ite (fun _ => terminateUserProc_serial hasid) fun _ =>
    terminateUserProc_serial hasid
  unfold writeToTerminal
  rw [hasid]
  refine .ite (fun _ => ?_) fun _ => hrest
  exact (terminateUserProc_serial hasid).bind fun _ _ (h : False) => h.elim

theorem pager_serial {entryHi : Word} (hasid : asidOf entryHi = p) (oldTLB : State)
    {Q : Unit → Option (Tables × Tables) → Prop} :
    Follows (serialRules K p) (pager K entryHi oldTLB) none Q := by
  have hin : ∀ segment missingPage vPageNo,
      (bringIn K p segment missingPage vPageNo).Only (fun a => a.Within p true) fun l =>
        tableRules.leave true l ∧ l = .terminate := by
    intro segment missingPage vPageNo
    refine (bringIn_tame K p segment missingPage vPageNo).and (bringIn_common ?_ K _ _ _ _)
    rfl
  have hrest : ∀ segment missingPage t, Follows (serialRules K p) (do
      bringIn K p segment missingPage (clip missingPage)
      verhogen .swapPoolSem
      leave (.ldst .tlb oldTLB) : SupM Unit) (some (t, t)) Q := by
    intro segment missingPage t
    refine (inside_follows (d := ⟨t, 0⟩) (bringIn_alone (E := fun _ _ => True) (fun _ => trivial)
      K _ _ _ _) (hin ..) fun _ => And.right).bind ?_
    rintro _ _ ⟨_, rfl, rfl⟩
    exact .issue (fun _ => ⟨t, .serve segment missingPage, rfl⟩) fun _ _ _ => rfl
  unfold pager
  rw [hasid]
  refine .issue trivial fun _ x _ => ?_
  rw [serial_enters]
  have hrefuse : ∃ t τ, some (x.tables, x.tables) = some (t, Txn.apply K p τ t) :=
    ⟨x.tables, .refuse, rfl⟩
  refine .ite (fun _ => .issue (fun _ => hrefuse) fun _ _ _ => trivial) fun _ => ?_
  refine .ite (fun _ => ?_) fun _ => hrest ..
  refine .perform trivial fun _ _ _ => .ite (fun _ => ?_) fun _ => hrest ..
  exact .issue (fun _ => hrefuse) fun _ _ _ => rfl

theorem test_serial {Q : Unit → Option (Tables × Tables) → Prop} :
    Follows (serialRules K p) test none Q := by
  have hcreate : ∀ is : List Nat,
      Follows (serialRules K p) (is.forM createUProc) none fun _ g => g = none := by
    intro is
    induction is with
    | nil => rfl
    | cons i is ih =>
      refine Follows.bind (P := fun _ g => g = none)
        (.perform trivial fun _ _ _ => .ite (fun _ => trivial) fun _ => rfl) ?_
      rintro _ _ rfl
      exact ih
  have hwait : ∀ is : List Nat, Follows (serialRules K p) (is.forM fun _ => passeren .masterSem)
      none fun _ g => g = none := by
    intro is
    induction is with
    | nil => rfl
    | cons i is ih =>
      refine .issue trivial fun r v _ => ?_
      rw [serial_passes (by decide)]
      exact ih
  refine (hcreate _).bind ?_
  rintro _ _ rfl
  refine (hwait _).bind ?_
  rintro _ _ rfl
  exact trivial

/-- In every section of Kaya the tables become those of a transaction. -/
theorem kaya_serial (K : Layout) (junk : Word) :
    (kaya K junk).Obeys (fun p => serialRules K p) (fun _ => none) fun _ => none where
  start _ _ _ _ _ := by
    refine .perform trivial fun r _ hr => ?_
    rw [hr]
    exact uProcInitFrom_serial 0
  again p g asid i h := by
    obtain ⟨rfl, rfl⟩ := h
    exact uProcInitFrom_serial i
  enter p g trap new st h := by
    obtain ⟨hpc, hasid⟩ := h
    rw [hpc]
    cases trap with
    | tlb => exact pager_serial hasid st
    | pgm => exact trivial
    | sys => exact userSyscallHandler_serial junk hasid st
  terminate p g g' new h _ := by
    obtain ⟨hpc, hasid⟩ := h
    rw [hpc]
    exact terminateUserProc_serial hasid
  load _ _ _ h := h
  ldst _ _ _ _ h := h
  user _ _ _ _ _ _ h := h

end Kaya.Phase3
