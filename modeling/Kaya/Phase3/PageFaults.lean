import Kaya.Phase2.Machine
import Kaya.Phase3.Proofs.Tables

/-!
# What a page fault does to the page tables

The pager holds `swapPoolSem` while it works, so the tables are its own; what else it is answered
may be anything.
-/

namespace Kaya.Phase3

open Lib Lib.Program

/-! ## Faults -/

/-- An entry of a page table. -/
inductive Slot where
  | uPte (u j : Word)
  | kUseg3 (j : Word)
  deriving DecidableEq

def PtePtr.slot : PtePtr → Option Slot
  | .null => none
  | .entry u j => some (.uPte u j)

def Tables.slot (t : Tables) : Slot → Pte
  | .uPte u j => t.uPte u j
  | .kUseg3 j => t.kUseg3 j

/-- A fault of process `asid` at a page, which counts from the start of its segment. -/
structure Fault where
  asid : Word
  segment : Word
  page : Word

namespace Fault

/-- The entry for the page in the tables of `test`. -/
def slot (f : Fault) : Slot :=
  if f.segment = 3 then .kUseg3 f.page
  else .uPte (f.asid - 1) (if f.page = 0x3FFFF then 31 else f.page)

/-- The page has an entry: kUseg2 has 31 pages and that of the stack, kUseg3 has 32. -/
def Present (f : Fault) : Prop :=
  f.segment = 2 ∧ (f.page < 31 ∨ f.page = 0x3FFFF) ∨ f.segment = 3 ∧ f.page < 32

/-- The processor looks for the entry by the number of the virtual page. -/
theorem entryHi_slot {f : Fault} (h : f.Present) (hasid : f.asid < 64) :
    (Tables.init.slot f.slot).entryHi >>> 12 = f.segment <<< 18 ||| f.page := by
  have hkUseg2 : ∀ a < 64, ∀ j < 31,
      (Tables.init.slot (slot ⟨BitVec.ofNat 32 a, 2, BitVec.ofNat 32 j⟩)).entryHi >>> 12 =
        2 <<< 18 ||| BitVec.ofNat 32 j := by decide +kernel
  have hstack : ∀ a < 64,
      (Tables.init.slot (slot ⟨BitVec.ofNat 32 a, 2, 0x3FFFF⟩)).entryHi >>> 12 =
        2 <<< 18 ||| 0x3FFFF := by decide +kernel
  have hkUseg3 : ∀ j < 32, (Tables.init.kUseg3 (BitVec.ofNat 32 j)).entryHi >>> 12 =
      3 <<< 18 ||| BitVec.ofNat 32 j := by decide +kernel
  obtain ⟨asid, segment, page⟩ := f
  have hnat : ∀ v : Word, BitVec.ofNat 32 v.toNat = v := fun v =>
    (BitVec.ofNat_toNat ..).trans (BitVec.setWidth_eq v)
  rcases h with ⟨rfl, hlt | rfl⟩ | ⟨rfl, hlt⟩
  · have hentry := hkUseg2 asid.toNat hasid page.toNat hlt
    rwa [hnat, hnat] at hentry
  · have hentry := hstack asid.toNat hasid
    rwa [hnat] at hentry
  · have hentry := hkUseg3 page.toNat hlt
    rwa [hnat] at hentry

end Fault

/-- The fault of which an old area tells. -/
def faultOf (entryHi : Word) (oldTLB : State) : Fault :=
  ⟨asidOf entryHi, oldTLB.sAsid >>> 30, (oldTLB.sAsid &&& 0x3FFFF000) >>> 12⟩

def Invalid (oldTLB : State) : Prop :=
  (oldTLB.sCause <<< 25) >>> 27 = TLBINVLW ∨ (oldTLB.sCause <<< 25) >>> 27 = TLBINVSW

/-- The page held in frame `fNo` has the entry `x`. -/
def Tables.Holds (t : Tables) (fNo : Word) (x : Slot) : Prop :=
  (t.swapPool fNo).spAsid ≠ -1 ∧ (t.swapPool fNo).spPteEntry.slot = some x

/-- The tables, and the address of the last buffer that was given to a device. -/
structure Desk where
  tables : Tables
  buffer : Word

/-- The tables `t` became those of `d`, and the page of the fault is in its frame. -/
structure Served (K : Layout) (f : Fault) (t : Tables) (d : Desk) : Prop where
  frame : d.buffer = frameAddr K d.tables.frameNo
  valid : Sys.Valid (d.tables.slot f.slot).entryLo
  maps : (d.tables.slot f.slot).entryLo >>> 12 = d.buffer >>> 12
  names : (d.tables.swapPool d.tables.frameNo).spAsid = f.asid ∧
    (d.tables.swapPool d.tables.frameNo).spSegNo = f.segment ∧
    (d.tables.swapPool d.tables.frameNo).spPageNo = f.page ∧
    (d.tables.swapPool d.tables.frameNo).spPteEntry.slot = some f.slot
  pool : ∀ n, n ≠ d.tables.frameNo → d.tables.swapPool n = t.swapPool n
  evicted : ∀ x, x ≠ f.slot → t.Holds d.tables.frameNo x → ¬ Sys.Valid (d.tables.slot x).entryLo
  others : ∀ x, x ≠ f.slot → ¬ t.Holds d.tables.frameNo x → d.tables.slot x = t.slot x

/-! ## The pager alone -/

/-- Nobody else writes to the tables. -/
def aloneRules (E : Desk → Leave → Prop) : Discipline Act Word Leave Unit Desk where
  may _ _ := True
  admits d a r _ :=
    match a with
    | .tables f => r = (f d.tables).1
    | _ => True
  next d a _ _ :=
    match a with
    | .tables f => { d with tables := (f d.tables).2 }
    | .setData0 _ v => { d with buffer := v }
    | _ => d
  leave := E

abbrev alone : Discipline Act Word Leave Unit Desk := aloneRules fun _ _ => True

/-- The pager, called with the tables `t`, ends with those of `d`. -/
def PagerReturns (K : Layout) (entryHi : Word) (oldTLB : State) (t : Tables) (d : Desk) : Prop :=
  ∃ b, Steps alone (pager K entryHi oldTLB) ⟨t, b⟩ (.leave (.ldst .tlb oldTLB)) d

variable {α : Type} {E : Desk → Leave → Prop} {d : Desk}

/-- Actions that have nothing to do with the tables or with buffers. -/
def Act.Aside : Act → Prop
  | .tables _ | .setData0 _ _ => False
  | _ => True

theorem Act.Aside.follows {a : Act} (ha : a.Aside) (E : Desk → Leave → Prop) (d : Desk) :
    (aloneRules E).may d a ∧
      ∀ r x, (aloneRules E).admits d a r x → (aloneRules E).next d a r x = d := by
  cases a with
  | tables | setData0 => exact ha.elim
  | _ => exact ⟨trivial, fun _ _ _ => rfl⟩

theorem disableInts_alone (disable : Bool) :
    Follows (aloneRules E) (disableInts disable) d fun _ d' => d' = d := by
  have honly : (disableInts disable).Only Act.Aside fun _ => False := by
    cases disable <;> exact ⟨trivial, fun _ => ⟨trivial, fun _ => trivial⟩⟩
  exact honly.follows (fun a ha => ha.follows E d) fun _ => False.elim

theorem diskIO_alone (hE : ∀ d, E d .terminate) (sector cyl head diskNum memBuf command : Word)
    (sem : Sem) :
    Follows (aloneRules E) ( diskIO sector cyl head sem diskNum memBuf command) d
      fun _ d' => d' = { d with buffer := memBuf } := by
  refine .issue trivial fun _ _ _ => ?_
  refine (disableInts_alone true).bind ?_
  rintro _ _ rfl
  refine .issue trivial fun _ _ _ => .perform trivial fun _ _ _ => ?_
  refine (disableInts_alone false).bind ?_
  rintro _ _ rfl
  refine .leaveIf (fun _ => hE _) fun _ => (disableInts_alone true).bind ?_
  rintro _ _ rfl
  refine .issue trivial fun _ _ _ => .issue trivial fun _ _ _ => .perform trivial fun _ _ _ => ?_
  refine (disableInts_alone false).bind ?_
  rintro _ _ rfl
  exact .leaveIf (fun _ => hE _) fun _ => .issue trivial fun _ _ _ => rfl

def Tables.nextFrame (t : Tables) : Word :=
  if t.frameNo + 1 = BitVec.ofNat 32 POOLSIZE then 0 else t.frameNo + 1

theorem getFrame_alone : Follows (aloneRules E) getFrame d fun fNo d' =>
    fNo = d.tables.nextFrame ∧ d' = { d with tables := { d.tables with frameNo := fNo } } := by
  refine .issue trivial fun _ _ _ => .perform trivial fun r _ hr => ?_
  obtain rfl : r = d.tables.frameNo + 1 := hr
  refine .ite (fun hwrap => ?_) fun hnext => ?_
  · refine .issue trivial fun _ _ _ => .perform trivial fun r _ hr => ?_
    obtain rfl : r = 0 := hr
    exact ⟨(if_pos hwrap).symm, rfl⟩
  · refine .perform trivial fun r _ hr => ?_
    obtain rfl : r = d.tables.frameNo + 1 := hr
    exact ⟨(if_neg hnext).symm, rfl⟩

def Tables.evict (t : Tables) (fNo : Word) : Tables :=
  t.setEntryLo (t.swapPool fNo).spPteEntry (t.entryLo (t.swapPool fNo).spPteEntry &&& 0xCFF)

theorem evict_alone (hE : ∀ d, E d .terminate) (fNo swapLoc : Word) :
    Follows (aloneRules E) (evict fNo swapLoc) d
      fun _ d' => d' = ⟨d.tables.evict fNo, swapLoc⟩ := by
  refine (disableInts_alone true).bind ?_
  rintro _ _ rfl
  refine .issue trivial fun _ _ _ => .perform trivial fun _ _ _ => .perform trivial fun _ _ _ => ?_
  refine .issue trivial fun _ _ _ => (disableInts_alone false).bind ?_
  rintro _ _ rfl
  exact diskIO_alone hE ..

def Tables.enter (t : Tables) (asid segment missingPage vPageNo fNo swapLoc : Word) : Tables :=
  (t.setSwap fNo ⟨asid, segment, missingPage, .entry (asid - 1) vPageNo⟩).setEntryLo
    (.entry (asid - 1) vPageNo) ((swapLoc &&& 0xFFFFF000) ||| (0x6 <<< 8))

theorem enterPage_alone (asid segment missingPage vPageNo fNo swapLoc : Word) :
    Follows (aloneRules E) (enterPage asid segment missingPage vPageNo fNo swapLoc) d fun _ d' =>
      d' = { d with tables := d.tables.enter asid segment missingPage vPageNo fNo swapLoc } := by
  refine (disableInts_alone true).bind ?_
  rintro _ _ rfl
  refine .issue trivial fun _ _ _ => .issue trivial fun _ _ _ => .issue trivial fun _ _ _ => ?_
  refine .issue trivial fun _ _ _ => .issue trivial fun _ _ _ => .issue trivial fun _ _ _ => ?_
  refine (disableInts_alone false).mono ?_
  rintro _ _ rfl
  simp only [aloneRules, Tables.enter, Tables.setSwap, Function.update_self, Function.update_idem]

/-- The tables after `bringIn`, which put the page into frame `fNo`. -/
def Tables.bringIn (K : Layout) (t : Tables) (asid segment missingPage vPageNo fNo : Word) :
    Tables :=
  (if (t.swapPool fNo).spAsid ≠ -1 then ({ t with frameNo := fNo } : Tables).evict fNo
    else { t with frameNo := fNo }).enter asid segment missingPage vPageNo fNo (frameAddr K fNo)

theorem bringIn_alone (hE : ∀ d, E d .terminate) (K : Layout)
    (asid segment missingPage vPageNo : Word) :
    Follows (aloneRules E) (bringIn K asid segment missingPage vPageNo) d fun _ d' =>
      d' = ⟨d.tables.bringIn K asid segment missingPage vPageNo d.tables.nextFrame,
        frameAddr K d.tables.nextFrame⟩ := by
  refine getFrame_alone.bind ?_
  rintro _ _ ⟨rfl, rfl⟩
  generalize d.tables.nextFrame = fNo
  have hload : ∀ d' : Desk, d'.tables =
        (if (d.tables.swapPool fNo).spAsid ≠ -1 then
          ({ d.tables with frameNo := fNo } : Tables).evict fNo
        else { d.tables with frameNo := fNo }) →
      Follows (aloneRules E) (do
        diskIO (asid - 1) vPageNo 0 disk0sem 0 (frameAddr K fNo) READBLK
        enterPage asid segment missingPage vPageNo fNo (frameAddr K fNo)) d' fun _ d'' =>
          d'' = ⟨d.tables.bringIn K asid segment missingPage vPageNo fNo, frameAddr K fNo⟩ := by
    intro d' hd'
    refine (diskIO_alone hE ..).bind ?_
    rintro _ _ rfl
    refine (enterPage_alone ..).mono ?_
    rintro _ _ rfl
    rw [Tables.bringIn, ← hd']
  refine .perform trivial fun r _ hr => ?_
  obtain rfl : r = (d.tables.swapPool fNo).spAsid := hr
  refine .ite (fun hheld => ?_) fun hfree => hload _ (if_neg hfree).symm
  refine (evict_alone hE ..).bind ?_
  rintro _ _ rfl
  exact hload _ (if_pos hheld).symm

/-! ## What the entries are -/

section Words

variable (v : Word)

theorem not_valid_masked : ¬ Sys.Valid (v &&& 0xCFF) := by
  intro h
  rw [Sys.Valid, BitVec.and_assoc] at h
  have hzero : v &&& (0xCFF &&& 0x200) = 0 := BitVec.and_zero
  rw [hzero] at h
  exact absurd h (by decide)

theorem valid_entered : Sys.Valid ((v &&& 0xFFFFF000) ||| (0x6 <<< 8)) := by
  change (v &&& 0xFFFFF000#32 ||| 0x600#32) &&& 0x200#32 = 0x200#32
  rw [BitVec.and_or_distrib_right, BitVec.and_assoc]
  have hzero : v &&& (0xFFFFF000#32 &&& 0x200#32) = 0 := BitVec.and_zero
  rw [hzero]
  decide

theorem frame_entered : ((v &&& 0xFFFFF000) ||| (0x6 <<< 8)) >>> 12 = v >>> 12 := by
  have hpage : v >>> 12 &&& 0xFFFFF#32 = v >>> 12 := by
    apply BitVec.eq_of_toNat_eq
    have hmask : (0xFFFFF#32).toNat = 2 ^ 20 - 1 := rfl
    have hlt := v.isLt
    rw [BitVec.toNat_and, hmask, Nat.and_two_pow_sub_one_eq_mod, BitVec.toNat_ushiftRight,
      Nat.shiftRight_eq_div_pow]
    exact Nat.mod_eq_of_lt (by omega)
  rw [BitVec.ushiftRight_or_distrib, BitVec.ushiftRight_and_distrib]
  change v >>> 12 &&& 0xFFFFF#32 ||| 0#32 = _
  rw [hpage, BitVec.or_zero]

end Words

namespace Tables

variable {t : Tables} {x : Slot} {ptr : PtePtr}

theorem slot_setEntryLo (v : Word) : (t.setEntryLo ptr v).slot x =
    if ptr.slot = some x then { t.slot x with entryLo := v } else t.slot x := by
  cases ptr with
  | null => exact (if_neg nofun).symm
  | entry u j =>
    cases x with
    | kUseg3 i => exact (if_neg nofun).symm
    | uPte w i =>
      simp only [slot, setEntryLo, PtePtr.slot, Option.some.injEq, Slot.uPte.injEq]
      by_cases hu : w = u
      · subst hu
        rw [Function.update_self]
        by_cases hi : i = j
        · subst hi
          simp
        · rw [Function.update_of_ne hi, if_neg fun h => hi h.2.symm]
      · rw [Function.update_of_ne hu, if_neg fun h => hu h.1.symm]

theorem setEntryLo_same (v : Word) : (t.setEntryLo ptr v).frameNo = t.frameNo ∧
    (t.setEntryLo ptr v).swapPool = t.swapPool := by
  cases ptr <;> exact ⟨rfl, rfl⟩

theorem slot_setSwap (fNo : Word) (e : SwapEntry) : (t.setSwap fNo e).slot x = t.slot x := by
  cases x <;> rfl

theorem entryLo_slot (h : ptr.slot = some x) : t.entryLo ptr = (t.slot x).entryLo := by
  cases ptr with
  | null => nomatch h
  | entry u j =>
    obtain rfl := Option.some.inj h
    rfl

/-- An eviction makes one entry invalid. -/
theorem slot_evict (fNo : Word) : (t.evict fNo).slot x =
    if (t.swapPool fNo).spPteEntry.slot = some x then
      { t.slot x with entryLo := (t.slot x).entryLo &&& 0xCFF }
    else t.slot x := by
  rw [evict, slot_setEntryLo]
  split_ifs with hx
  · rw [entryLo_slot hx]
  · rfl

section BringIn

variable (K : Layout) (t) (asid segment missingPage vPageNo fNo : Word)

theorem bringIn_frameNo :
    (t.bringIn K asid segment missingPage vPageNo fNo).frameNo = fNo := by
  rw [bringIn, enter, (setEntryLo_same _).1]
  split_ifs
  · exact (setEntryLo_same _).1
  · rfl

theorem bringIn_swapPool : (t.bringIn K asid segment missingPage vPageNo fNo).swapPool =
    Function.update t.swapPool fNo ⟨asid, segment, missingPage, .entry (asid - 1) vPageNo⟩ := by
  rw [bringIn, enter, (setEntryLo_same _).2]
  split_ifs
  · simp only [setSwap, evict, (setEntryLo_same _).2]
  · rfl

theorem bringIn_slot :
    ((t.bringIn K asid segment missingPage vPageNo fNo).slot (.uPte (asid - 1) vPageNo)).entryLo =
      (frameAddr K fNo &&& 0xFFFFF000) ||| (0x6 <<< 8) := by
  rw [bringIn, enter, slot_setEntryLo]
  exact congrArg Pte.entryLo (if_pos rfl)

variable {asid vPageNo} (hx : x ≠ .uPte (asid - 1) vPageNo)

include hx

theorem bringIn_slot_of_ne :
    (t.bringIn K asid segment missingPage vPageNo fNo).slot x =
      if (t.swapPool fNo).spAsid ≠ -1 then ({ t with frameNo := fNo } : Tables).evict fNo |>.slot x
      else t.slot x := by
  have hne : ¬ (PtePtr.entry (asid - 1) vPageNo).slot = some x := fun h =>
    hx (Option.some.inj h).symm
  rw [bringIn, enter, slot_setEntryLo, if_neg hne, slot_setSwap]
  split_ifs
  · rfl
  · cases x <;> rfl

theorem bringIn_evicted (hheld : t.Holds fNo x) :
    ¬ Sys.Valid ((t.bringIn K asid segment missingPage vPageNo fNo).slot x).entryLo := by
  rw [bringIn_slot_of_ne t K segment missingPage fNo hx, if_pos hheld.1, slot_evict,
    if_pos hheld.2]
  exact not_valid_masked _

theorem bringIn_other (hheld : ¬ t.Holds fNo x) :
    (t.bringIn K asid segment missingPage vPageNo fNo).slot x = t.slot x := by
  rw [bringIn_slot_of_ne t K segment missingPage fNo hx]
  split_ifs with hocc
  · rw [slot_evict, if_neg fun h => hheld ⟨hocc, h⟩]
    cases x <;> rfl
  · rfl

end BringIn

end Tables

/-! ## What the pager does -/

variable {f : Fault}

/-- The index that the pager computes. -/
theorem slot_of_segment (hseg : f.segment = 2) (hpresent : f.Present) :
    f.slot = .uPte (f.asid - 1) (clip f.page) := by
  have hpage : f.page < 31 ∨ f.page = 0x3FFFF := by
    rcases hpresent with ⟨-, hpage⟩ | ⟨hseg', -⟩
    · exact hpage
    · rw [hseg] at hseg'
      exact absurd hseg' (by decide)
  rw [Fault.slot, if_neg (by rw [hseg]; decide), clip]
  rcases hpage with hlt | hstack
  · have hne : f.page ≠ 0x3FFFF := by
      intro heq
      rw [heq] at hlt
      exact absurd hlt (by decide)
    have hge : ¬ f.page ≥ KUSEGPTESIZE := by
      unfold KUSEGPTESIZE
      bv_omega
    rw [if_neg hne, if_neg hge]
  · rw [hstack]
    rfl

theorem served_bringIn (K : Layout) (t : Tables) (hseg : f.segment = 2) (hpresent : f.Present)
    (fNo : Word) : Served K f t
      ⟨t.bringIn K f.asid f.segment f.page (clip f.page) fNo, frameAddr K fNo⟩ := by
  have hslot := slot_of_segment hseg hpresent
  constructor
  case frame => rw [Tables.bringIn_frameNo]
  case valid =>
    rw [hslot, Tables.bringIn_slot]
    exact valid_entered _
  case maps =>
    rw [hslot, Tables.bringIn_slot]
    exact frame_entered _
  case names =>
    rw [Tables.bringIn_frameNo, Tables.bringIn_swapPool, Function.update_self, hslot]
    exact ⟨rfl, rfl, rfl, rfl⟩
  case pool =>
    rw [Tables.bringIn_frameNo, Tables.bringIn_swapPool]
    exact fun n hn => Function.update_of_ne hn ..
  case evicted =>
    rw [hslot, Tables.bringIn_frameNo]
    exact fun x hx => Tables.bringIn_evicted t K _ _ _ hx
  case others =>
    rw [hslot, Tables.bringIn_frameNo]
    exact fun x hx => Tables.bringIn_other t K _ _ _ hx

section Pager

variable {K : Layout} {entryHi : Word} {oldTLB : State} {t : Tables}

theorem Fault.Present.segment_ne (h : f.Present) : f.segment ≠ KUSEG3NO := by
  intro heq
  rcases h with ⟨hseg, -⟩ | ⟨hseg, -⟩ <;> exact absurd (hseg.symm.trans heq) (by decide)

/-- Where the pager returns it did as `bringIn` does, in any segment. -/
theorem pager_bringsIn (hpresent : (faultOf entryHi oldTLB).Present)
    (hreturns : PagerReturns K entryHi oldTLB t d) : ∃ fNo, d =
      ⟨t.bringIn K (faultOf entryHi oldTLB).asid (faultOf entryHi oldTLB).segment
        (faultOf entryHi oldTLB).page (clip (faultOf entryHi oldTLB).page) fNo,
        frameAddr K fNo⟩ := by
  obtain ⟨b, hsteps⟩ := hreturns
  let E : Desk → Leave → Prop := fun d l => l = .ldst .tlb oldTLB → ∃ fNo, d =
    ⟨t.bringIn K (faultOf entryHi oldTLB).asid (faultOf entryHi oldTLB).segment
      (faultOf entryHi oldTLB).page (clip (faultOf entryHi oldTLB).page) fNo, frameAddr K fNo⟩
  have hE : ∀ d, E d .terminate := fun _ => nofun
  have hpager : Follows (aloneRules E) (pager K entryHi oldTLB) ⟨t, b⟩ fun _ _ => True := by
    refine .issue trivial fun _ _ _ => ?_
    refine .ite (fun _ => .issue trivial fun _ _ _ => hE _) fun _ => ?_
    refine .ite (fun hseg => absurd hseg hpresent.segment_ne) fun _ => ?_
    refine (bringIn_alone hE ..).bind ?_
    rintro _ _ rfl
    exact .issue trivial fun _ _ _ _ => ⟨_, rfl⟩
  exact hpager.steps (hsteps.withLeave E) rfl

/-- The pager never writes to the page table of the shared segment. -/
theorem not_served_of_segment (hkUseg3 : t.kUseg3 = Tables.init.kUseg3)
    (hseg : (faultOf entryHi oldTLB).segment = 3) (hpresent : (faultOf entryHi oldTLB).Present)
    (hreturns : PagerReturns K entryHi oldTLB t d) :
    ¬ Served K (faultOf entryHi oldTLB) t d := by
  obtain ⟨fNo, rfl⟩ := pager_bringsIn hpresent hreturns
  have hslot : (faultOf entryHi oldTLB).slot = .kUseg3 (faultOf entryHi oldTLB).page := if_pos hseg
  have hfree : ¬ t.Holds fNo (faultOf entryHi oldTLB).slot := by
    rintro ⟨-, hptr⟩
    rw [hslot] at hptr
    cases hp : (t.swapPool fNo).spPteEntry with
    | null =>
      rw [hp] at hptr
      nomatch hptr
    | entry u j =>
      rw [hp] at hptr
      nomatch Option.some.inj hptr
  intro hserved
  have hvalid := hserved.valid
  rw [Tables.bringIn_other t K _ _ _ (by rw [hslot]; exact nofun) hfree, hslot, Tables.slot,
    hkUseg3] at hvalid
  have hinvalid : ¬ Sys.Valid (0x5 <<< 8) := by decide
  exact hinvalid hvalid

end Pager

section Returns

theorem returns_act {a : Act} {k : Word → SupM α} (r : Word) (ha : ∀ d, alone.admits d a r ())
    (h : (k r).Returns alone) : Program.Returns alone (.act a k) := .act fun d => ⟨r, (), ha d, h⟩

theorem returns_tables {f : Tables → Word × Tables} {k : Word → SupM α}
    (h : ∀ r, (k r).Returns alone) : Program.Returns alone (.act (.tables f) k) :=
  .act fun d => ⟨(f d.tables).1, (), rfl, h _⟩

theorem disableInts_returns (disable : Bool) : (disableInts disable).Returns alone := by
  cases disable <;>
    exact returns_act 0 (fun _ => trivial) (returns_act 0 (fun _ => trivial) (.done ()))

theorem diskIO_returns (sector cyl head diskNum memBuf command : Word) (sem : Sem) :
    ( diskIO sector cyl head sem diskNum memBuf command).Returns alone := by
  refine returns_act 0 (fun _ => trivial) ((disableInts_returns true).bind fun _ => ?_)
  refine returns_act 0 (fun _ => trivial) (returns_act READY (fun _ => trivial) ?_)
  refine (disableInts_returns false).bind fun _ => .ite (fun hne => absurd rfl hne) fun _ => ?_
  refine (disableInts_returns true).bind fun _ => returns_act 0 (fun _ => trivial) ?_
  refine returns_act 0 (fun _ => trivial) (returns_act READY (fun _ => trivial) ?_)
  refine (disableInts_returns false).bind fun _ => .ite (fun hne => absurd rfl hne) fun _ => ?_
  exact returns_act 0 (fun _ => trivial) (.done ())

theorem getFrame_returns : getFrame.Returns alone := by
  refine returns_tables fun _ => returns_tables fun _ => .ite (fun _ => ?_) fun _ => ?_
  · exact returns_tables fun _ => returns_tables fun _ => .done _
  · exact returns_tables fun _ => .done _

theorem bringIn_returns (K : Layout) (asid segment missingPage vPageNo : Word) :
    (bringIn K asid segment missingPage vPageNo).Returns alone := by
  refine getFrame_returns.bind fun fNo => returns_tables fun _ => ?_
  have hevict : (evict fNo (frameAddr K fNo)).Returns alone := by
    refine (disableInts_returns true).bind fun _ => returns_tables fun _ => returns_tables fun _ => ?_
    refine returns_tables fun _ => returns_act 0 (fun _ => trivial) ?_
    exact (disableInts_returns false).bind fun _ => diskIO_returns _ _ _ _ _ _ _
  have henter : (enterPage asid segment missingPage vPageNo fNo (frameAddr K fNo)).Returns alone := by
    refine (disableInts_returns true).bind fun _ => returns_tables fun _ => returns_tables fun _ => ?_
    refine returns_tables fun _ => returns_tables fun _ => returns_tables fun _ => ?_
    exact returns_act 0 (fun _ => trivial) (disableInts_returns false)
  have hload := (diskIO_returns (asid - 1) vPageNo 0 0 (frameAddr K fNo) READBLK disk0sem).bind
    fun _ => henter
  exact .ite (fun _ => hevict.bind fun _ => hload) fun _ => hload

/-- A fault that the pager accepts is served when the disk answers `READY`. -/
theorem pager_returns {entryHi : Word} {oldTLB : State} (K : Layout) (t : Tables)
    (hinv : Invalid oldTLB) (hpresent : (faultOf entryHi oldTLB).Present) :
    ∃ d, PagerReturns K entryHi oldTLB t d := by
  have hcause : ¬ ((oldTLB.sCause <<< 25) >>> 27 ≠ TLBINVLW ∧
      (oldTLB.sCause <<< 25) >>> 27 ≠ TLBINVSW) := by
    rintro ⟨h1, h2⟩
    exact hinv.elim h1 h2
  have hseg : ¬ oldTLB.sAsid >>> 30 = KUSEG3NO := hpresent.segment_ne
  obtain ⟨_, d, hsteps⟩ := bringIn_returns K (asidOf entryHi) (oldTLB.sAsid >>> 30)
    ((oldTLB.sAsid &&& 0x3FFFF000) >>> 12) (clip ((oldTLB.sAsid &&& 0x3FFFF000) >>> 12)) ⟨t, 0⟩
  refine ⟨d, 0, .act (r := 0) (v := ()) trivial ?_⟩
  simp only [if_neg hcause, if_neg hseg]
  exact (hsteps.bind _).trans (.act (r := 0) (v := ()) trivial (.refl ..))

end Returns

/-! ## In every run -/

section Runs

variable {K : Layout} {junk : Word} {h : List (Sys Word × Event Word)} {s : Sys Word}

theorem Sys.Reaches.kaya_tableRun (hrun : Sys.Reaches (kaya K junk) Sys.Booted h s) :
    s.TableRun := by
  refine (hrun.tableRun (kaya_tables K junk) fun s hs => ⟨hs.toFresh, ?_⟩).1
  refine hs.toFresh.live fun p hp => ?_
  rw [hs.prog hp]
  exact test_tame.follows.mono fun _ _ _ => trivial

/-- Between its P and its V on `swapPoolSem` a process has the tables to itself. -/
theorem kaya_tables_own (hrun : Sys.Reaches (kaya K junk) Sys.Booted h s)
    {l log : List (Did Word Act Word View)} {p : Word} (hlog : s.log = l ++ log)
    (hholds : ∀ l', l' <:+ l → Holds .swapPoolSem p (l' ++ log)) :
    s.tables = (l.filter fun d => d.p = p).foldr (fun d t => d.a.onTables t)
      (tablesOf log) := by
  have htab := hrun.kaya_tableRun
  rw [htab.replayed, hlog]
  exact Sys.tablesOf_holder (hlog ▸ htab.allowed) (hlog ▸ htab.exclusive) hholds

/-- A fault in a page of the process that the pager accepts gets its page, and nothing else
changes but the page that was in the frame, if and only if it is in kUseg2. -/
theorem pager_serves_iff (hrun : Sys.Reaches (kaya K junk) Sys.Booted h s) {entryHi : Word}
    {oldTLB : State} (hinv : Invalid oldTLB) (hpresent : (faultOf entryHi oldTLB).Present) :
    (∀ d, PagerReturns K entryHi oldTLB s.tables d →
      Served K (faultOf entryHi oldTLB) s.tables d) ↔ (faultOf entryHi oldTLB).segment = 2 := by
  have htab := hrun.kaya_tableRun
  constructor
  · intro hall
    by_contra hseg
    have hseg3 : (faultOf entryHi oldTLB).segment = 3 :=
      (hpresent.resolve_left fun h => hseg h.1).1
    have hkUseg3 : s.tables.kUseg3 = Tables.init.kUseg3 :=
      htab.replayed ▸ Sys.tablesOf_kUseg3 htab.allowed
    obtain ⟨d, hreturns⟩ := pager_returns K s.tables hinv hpresent
    exact not_served_of_segment hkUseg3 hseg3 hpresent hreturns (hall d hreturns)
  · intro hseg d hreturns
    obtain ⟨fNo, rfl⟩ := pager_bringsIn hpresent hreturns
    exact served_bringIn K s.tables hseg hpresent fNo

def stackFault : State := { resetState with sCause := TLBINVLW <<< 2, sAsid := 0xBFFFF040 }

theorem pager_serves_iff_stack :
    (∀ d, PagerReturns .sample 0x40 stackFault Sys.boot.tables d →
      Served .sample (faultOf 0x40 stackFault) Sys.boot.tables d) ↔
        (faultOf 0x40 stackFault).segment = 2 := by
  have hrun : Sys.Reaches (kaya .sample 0) Sys.Booted [] Sys.boot := .start Sys.boot_booted
  exact pager_serves_iff hrun (.inl (by decide)) (.inl ⟨by decide, .inr (by decide)⟩)

def sharedFault : State := { resetState with sCause := TLBINVLW <<< 2, sAsid := 0xC0000040 }

theorem shared_not_served :
    ¬ ∀ d, PagerReturns .sample 0x40 sharedFault Sys.boot.tables d →
      Served .sample (faultOf 0x40 sharedFault) Sys.boot.tables d := by
  have hpresent : (faultOf 0x40 sharedFault).Present := .inr ⟨by decide, by decide⟩
  obtain ⟨d, hreturns⟩ := pager_returns .sample Sys.boot.tables (.inl (by decide)) hpresent
  exact fun hall => not_served_of_segment rfl (by decide) hpresent hreturns (hall d hreturns)

end Runs

end Kaya.Phase3
