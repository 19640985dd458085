import Kaya.Lib.Paging
import Kaya.Phase3.Proofs.LockInv
import Kaya.Phase3.Proofs.PageRules

/-!
# The page tables, the swap pool and where the pages are

A ledger says of each page of the processes that live which frame it is in, and what the tables
say of that, by where the holder of `swapPoolSem` is in the pager.
-/

namespace Kaya.Phase3

open Lib Lib.Paging

/-- Memory is a number of pages, and the frames lie above the memory of the support level. -/
structure Roomy (K : Layout) : Prop where
  aligned : (K.rambase + K.ramsize).toNat % 4096 = 0
  above : KSEGOSEND.toNat + 7 * 4096 ≤ (K.rambase + K.ramsize).toNat

section Frames

variable {K : Layout} {n m : Word}

theorem frameAddr_toNat (hK : Roomy K) (hn : n.toNat < POOLSIZE) :
    (frameAddr K n).toNat = (K.rambase + K.ramsize).toNat - 4 * 4096 - n.toNat * 4096 := by
  have habove := hK.above
  have hsize : POOLSIZE = 4 := rfl
  have hend : KSEGOSEND.toNat = 0x20040000 := rfl
  have hpage : (PAGESIZE : Word) = 4096#32 := rfl
  unfold frameAddr
  rw [hpage]
  generalize K.rambase + K.ramsize = top at habove ⊢
  bv_omega

theorem frameAddr_inj (hK : Roomy K) (hn : n.toNat < POOLSIZE) (hm : m.toNat < POOLSIZE)
    (h : frameAddr K n = frameAddr K m) : n = m := by
  have habove := hK.above
  have hend : KSEGOSEND.toNat = 0x20040000 := rfl
  have hsize : POOLSIZE = 4 := rfl
  have htoNat := congrArg BitVec.toNat h
  rw [frameAddr_toNat hK hn, frameAddr_toNat hK hm] at htoNat
  apply BitVec.eq_of_toNat_eq
  omega

/-- A frame begins where a page of memory does. -/
theorem frameAddr_aligned (hK : Roomy K) (hn : n.toNat < POOLSIZE) :
    frameAddr K n &&& 0xFFFFF000 = frameAddr K n := by
  have hmod : (frameAddr K n).toNat % 4096 = 0 := by
    have haligned := hK.aligned
    have habove := hK.above
    have hend : KSEGOSEND.toNat = 0x20040000 := rfl
    have hsize : POOLSIZE = 4 := rfl
    rw [frameAddr_toNat hK hn]
    omega
  generalize frameAddr K n = a at hmod ⊢
  have hlow : a &&& 0xFFF#32 = 0#32 := by
    apply BitVec.eq_of_toNat_eq
    have hmask : (0xFFF#32).toNat = 2 ^ 12 - 1 := rfl
    rw [BitVec.toNat_and, hmask, Nat.and_two_pow_sub_one_eq_mod]
    exact hmod
  calc a &&& 0xFFFFF000#32 = (a &&& 0xFFFFF000#32) ||| (a &&& 0xFFF#32) := by
        rw [hlow]
        exact BitVec.or_zero.symm
    _ = a &&& (0xFFFFF000#32 ||| 0xFFF#32) := (BitVec.and_or_distrib_left ..).symm
    _ = a := BitVec.and_allOnes

theorem frame_of_entry (a : Word) : entryFor a &&& 0xFFFFF000 = a &&& 0xFFFFF000 := by
  have hbits : 0x600#32 &&& 0xFFFFF000#32 = 0#32 := by decide
  change (a &&& 0xFFFFF000#32 ||| 0x600#32) &&& 0xFFFFF000#32 = a &&& 0xFFFFF000#32
  rw [BitVec.and_or_distrib_right, hbits, BitVec.or_zero, BitVec.and_assoc, BitVec.and_self]

/-- No tape writes to a frame. -/
theorem frameAddr_ne (hK : Roomy K) (hn : n.toNat < POOLSIZE) {asid : Word} (hasid : IsUProc asid) :
    frameAddr K n ≠ TAPEDMABUFFER + (asid - 1) * PAGESIZE := by
  have habove := hK.above
  have hend : KSEGOSEND.toNat = 0x20040000 := rfl
  have hsize : POOLSIZE = 4 := rfl
  have hmax : MAXUPROC = 2 := rfl
  obtain ⟨hpos, hle⟩ := hasid
  have hcases : asid = 1 ∨ asid = 2 := by bv_omega
  intro heq
  have htoNat := congrArg BitVec.toNat heq
  rw [frameAddr_toNat hK hn] at htoNat
  rcases hcases with rfl | rfl
  · have hbuf : (TAPEDMABUFFER + (1 - 1) * PAGESIZE).toNat = 0x2002B000 := rfl
    omega
  · have hbuf : (TAPEDMABUFFER + (2 - 1) * PAGESIZE).toNat = 0x2002C000 := rfl
    omega

end Frames

/-! ## Ledgers -/

namespace Phase

/-- The page that is between the frame and the disk. -/
def away : Phase → Option (Word × Word)
  | masked _ x | leaving _ x => some x
  | _ => none

def Empty : Phase → Prop
  | clear _ | arrived _ _ => True
  | _ => False

def wants : Phase → Option Word
  | searching v => v
  | masked v _ | leaving v _ | clear v | arrived v _ => some v
  | _ => none

end Phase

/-- Who holds `swapPoolSem`, and where it is in its work. -/
abbrev Turn := Option (Word × Phase)

namespace Turn

def away (turn : Turn) : Option (Word × Word) := turn.bind fun h => h.2.away

def Empty (turn : Turn) : Prop := ∃ p ph, turn = some (p, ph) ∧ ph.Empty

def Searching (turn : Turn) : Prop := ∃ p v, turn = some (p, .searching (some v))

end Turn

variable {K : Layout} {live gone : Word → Prop} {turn : Turn} {home : Word × Word → Option Word}
  {t : Tables} {n p v : Word} {x : Word × Word}

def Tables.entryOf (t : Tables) (x : Word × Word) : Word := (t.uPte (x.1 - 1) x.2).entryLo

theorem Tables.uPte_setEntryLo (t : Tables) (q j w u i : Word) :
    ((t.setEntryLo (.entry q j) w).uPte u i).entryHi = (t.uPte u i).entryHi := by
  simp only [setEntryLo]
  by_cases hu : u = q
  · subst hu
    rw [Function.update_self]
    by_cases hi : i = j
    · rw [hi, Function.update_self]
    · rw [Function.update_of_ne hi]
  · rw [Function.update_of_ne hu]

theorem Tables.entryOf_setEntryLo (t : Tables) (q j w : Word) (x : Word × Word) :
    (t.setEntryLo (.entry (q - 1) j) w).entryOf x = if x = (q, j) then w else t.entryOf x := by
  have hiff : (PtePtr.entry (q - 1) j).slot = some (.uPte (x.1 - 1) x.2) ↔ x = (q, j) := by
    rw [PtePtr.slot, Option.some.injEq, Slot.uPte.injEq, Prod.ext_iff, BitVec.sub_left_inj]
    exact and_congr eq_comm eq_comm
  change ((t.setEntryLo (.entry (q - 1) j) w).slot (.uPte (x.1 - 1) x.2)).entryLo = _
  rw [Tables.slot_setEntryLo]
  by_cases hx : x = (q, j)
  · rw [if_pos (hiff.mpr hx), if_pos hx]
  · rw [if_neg fun h => hx (hiff.mp h), if_neg hx]
    rfl

/-- What entry `n` of the swap pool may be. -/
inductive PoolEntry (K : Layout) (turn : Turn) (home : Word × Word → Option Word) (n : Word)
    (e : SwapEntry) : Prop
  | free : e.spAsid = -1 → Unused home (frameAddr K n) → PoolEntry K turn home n e
  | held (q page : Word) : e = ⟨q, 2, page, .entry (q - 1) (clip page)⟩ → HasPage page →
      home (q, clip page) = some (frameAddr K n) → PoolEntry K turn home n e
  /-- An entry that `terminateUserProc` has not got to. -/
  | left (p : Word) : turn = some (p, .freeing) → e.spAsid = p → Unused home (frameAddr K n) →
      PoolEntry K turn home n e

/-- `live` says whose pages are kept, and `gone` whose page tables are not used any more. -/
structure Ledger (K : Layout) (live gone : Word → Prop) (turn : Turn)
    (home : Word × Word → Option Word) (t : Tables) : Prop where
  resident : ∀ x a, home x = some a →
    live x.1 ∧ IsUProc x.1 ∧ x.2.toNat < MAXPAGES ∧ ∃ n, n.toNat < POOLSIZE ∧ a = frameAddr K n
  unshared : Unshared home
  mapped : ∀ x a, home x = some a → turn.away ≠ some x →
    t.entryOf x = entryFor a
  unmapped : ∀ x, IsUProc x.1 → ¬ gone x.1 → x.2.toNat < MAXPAGES →
    home x = none ∨ turn.away = some x → ¬ Sys.Valid (t.entryOf x)
  pool : ∀ n, n.toNat < POOLSIZE → ¬ (turn.Empty ∧ n = t.frameNo) → PoolEntry K turn home n (t.swapPool n)
  next : ¬ turn.Searching → t.frameNo.toNat < POOLSIZE
  empty : turn.Empty → Unused home (frameAddr K t.frameNo)
  away : ∀ x, turn.away = some x → home x = some (frameAddr K t.frameNo)
  wants : ∀ p ph v, turn = some (p, ph) → ph.wants = some v →
    home (p, v) = none ∧ v.toNat < MAXPAGES ∧ live p
  names : ∀ u j, (t.uPte u j).entryHi = (Tables.init.uPte u j).entryHi

theorem PoolEntry.setTurn {turn' : Turn} {e : SwapEntry} (h : PoolEntry K turn home n e)
    (hturn : ∀ p, turn = some (p, .freeing) → turn' = some (p, .freeing)) :
    PoolEntry K turn' home n e := by
  cases h with
  | free h1 h2 => exact .free h1 h2
  | held q page h1 h2 h3 => exact .held q page h1 h2 h3
  | left p h1 h2 h3 => exact .left p (hturn p h1) h2 h3

namespace Ledger

/-- Another place in the pager at which the same is known of the pages. -/
theorem setTurn {turn' : Turn} (h : Ledger K live gone turn home t)
    (hnext : ¬ turn'.Searching → t.frameNo.toNat < POOLSIZE)
    (hempty : turn'.Empty ↔ turn.Empty) (haway : turn'.away = turn.away)
    (hfree : ∀ p, turn = some (p, .freeing) → turn' = some (p, .freeing))
    (hwants : ∀ p ph v, turn' = some (p, ph) → ph.wants = some v →
      home (p, v) = none ∧ v.toNat < MAXPAGES ∧ live p) :
    Ledger K live gone turn' home t where
  resident := h.resident
  unshared := h.unshared
  mapped := by
    rw [haway]
    exact h.mapped
  unmapped := by
    rw [haway]
    exact h.unmapped
  pool n hn hc := (h.pool n hn fun hc' => hc ⟨hempty.mpr hc'.1, hc'.2⟩).setTurn hfree
  next := hnext
  empty he := h.empty (hempty.mp he)
  away := by
    rw [haway]
    exact h.away
  wants := hwants
  names := h.names

theorem setLives {live' gone' : Word → Prop} (h : Ledger K live gone turn home t)
    (hlive : ∀ q, live q → live' q) (hgone : ∀ q, gone q → gone' q) :
    Ledger K live' gone' turn home t where
  resident x a hx := ⟨hlive _ (h.resident x a hx).1, (h.resident x a hx).2⟩
  unshared := h.unshared
  mapped := h.mapped
  unmapped x hx hg := h.unmapped x hx fun hg' => hg (hgone _ hg')
  pool := h.pool
  next := h.next
  empty := h.empty
  away := h.away
  wants p ph v hturn hv :=
    let ⟨h1, h2, h3⟩ := h.wants p ph v hturn hv
    ⟨h1, h2, hlive p h3⟩
  names := h.names

end Ledger

theorem not_empty_of {p : Word} {ph : Phase} (h : ¬ ph.Empty) : ¬ Turn.Empty (some (p, ph)) := by
  rintro ⟨_, _, heq, hph⟩
  cases heq
  exact h hph

namespace Ledger

theorem setFrameNo (h : Ledger K live gone (some (p, .searching (some v))) home t) (fNo : Word) :
    Ledger K live gone (some (p, .searching (some v))) home { t with frameNo := fNo } where
  resident := h.resident
  unshared := h.unshared
  mapped := h.mapped
  unmapped := h.unmapped
  pool n hn _ := h.pool n hn fun hc => not_empty_of id hc.1
  next hsearch := absurd ⟨p, v, rfl⟩ hsearch
  empty he := absurd he (not_empty_of id)
  away _ hx := nomatch hx
  wants := h.wants
  names := h.names

/-! ### Taking and giving back -/

/-- A valid entry is that of a page in a frame. -/
theorem home_of_valid (h : Ledger K live gone turn home t) (hx : IsUProc x.1) (hg : ¬ gone x.1)
    (hlt : x.2.toNat < MAXPAGES) (hv : Sys.Valid (t.entryOf x)) :
    turn.away ≠ some x ∧ ∃ a, home x = some a ∧ t.entryOf x = entryFor a := by
  have haway : turn.away ≠ some x := fun ha => h.unmapped x hx hg hlt (.inr ha) hv
  cases hhome : home x with
  | none => exact absurd hv (h.unmapped x hx hg hlt (.inl hhome))
  | some a => exact ⟨haway, a, rfl, h.mapped x a hhome haway⟩

theorem acquire (h : Ledger K live gone none home t) {w : Option Word}
    (hw : ∀ v, w = some v → live p ∧ v.toNat < MAXPAGES ∧ ¬ Sys.Valid (t.entryOf (p, v))) :
    Ledger K live gone (some (p, .searching w)) home t := by
  refine h.setTurn (fun _ => h.next ?_) ?_ ?_ nofun fun q ph v hturn hv => ?_
  · rintro ⟨_, _, hs⟩
    nomatch hs
  · refine iff_of_false (not_empty_of id) ?_
    rintro ⟨_, _, hs, -⟩
    nomatch hs
  · rfl
  · cases hturn
    obtain ⟨hlive, hlt, hinv⟩ := hw v hv
    refine ⟨?_, hlt, hlive⟩
    cases hhome : home (p, v) with
    | none => rfl
    | some a =>
      rw [h.mapped _ a hhome nofun] at hinv
      exact absurd (valid_entered a) hinv

theorem forget (h : Ledger K live gone none home t) {live' gone' : Word → Prop}
    (hlive : ∀ q, q ≠ p → live q → live' q) (hgone : ∀ q, gone q ∨ q = p → gone' q) :
    Ledger K live' gone' (some (p, .freeing)) (Paging.forget home fun x => x.1 = p) t where
  resident x a hx := by
    obtain ⟨hne, hhome⟩ := forget_eq_some.mp hx
    obtain ⟨hl, hrest⟩ := h.resident x a hhome
    exact ⟨hlive _ hne hl, hrest⟩
  unshared := h.unshared.forget
  mapped x a hx _ := h.mapped x a (forget_eq_some.mp hx).2 nofun
  unmapped x hx hg hlt hx' := by
    have hne : ¬ x.1 = p := fun heq => hg (hgone _ (.inr heq))
    have hsame : Paging.forget home (fun x => x.1 = p) x = home x := if_neg hne
    refine h.unmapped x hx (fun hg' => hg (hgone _ (.inl hg'))) hlt (.inl ?_)
    rw [← hsame]
    exact hx'.resolve_right nofun
  pool n hn _ := by
    have hempty : ¬ Turn.Empty none := by
      rintro ⟨_, _, hs, -⟩
      nomatch hs
    cases h.pool n hn fun hc => hempty hc.1 with
    | free h1 h2 => exact .free h1 h2.forget
    | left q h1 => nomatch h1
    | held q page h1 h2 h3 =>
      by_cases hq : q = p
      · subst hq
        refine .left q rfl (by rw [h1]) fun x hx => ?_
        obtain ⟨hne, hhome⟩ := forget_eq_some.mp hx
        exact hne (congrArg Prod.fst (h.unshared _ _ _ hhome h3))
      · exact .held q page h1 h2 (forget_eq_some.mpr ⟨hq, h3⟩)
  next _ := h.next (by rintro ⟨_, _, hs⟩; nomatch hs)
  empty he := absurd he (not_empty_of id)
  away _ hx := nomatch hx
  wants := by
    rintro _ _ v heq hv
    cases heq
    nomatch hv
  names := h.names

theorem freeEntry (h : Ledger K live gone (some (p, .freeing)) home t) (hp : ¬ live p) {i : Word}
    {e : SwapEntry} (hi : (t.swapPool i).spAsid = p ∨ (t.swapPool i).spAsid = -1)
    (he : e.spAsid = -1) : Ledger K live gone (some (p, .freeing)) home (t.setSwap i e) where
  resident := h.resident
  unshared := h.unshared
  mapped := h.mapped
  unmapped := h.unmapped
  pool n hn _ := by
    have hold := h.pool n hn fun hc => not_empty_of id hc.1
    by_cases hni : n = i
    · subst hni
      rw [setSwap_self]
      cases hold with
      | free h1 h2 => exact .free he h2
      | left q h1 h2 h3 => exact .free he h3
      | held q page h1 h2 h3 =>
        obtain ⟨hlive, ⟨hpos, hle⟩, -⟩ := h.resident _ _ h3
        have hfar : ¬ (-1 : Word).toNat ≤ MAXUPROC := by decide
        rw [h1] at hi
        rcases hi with rfl | rfl
        · exact absurd hlive hp
        · exact absurd hle hfar
    · have hsame : (t.setSwap i e).swapPool n = t.swapPool n := Function.update_of_ne hni ..
      rw [hsame]
      exact hold
  next := h.next
  empty he := absurd he (not_empty_of id)
  away _ hx := nomatch hx
  wants := h.wants
  names := h.names

theorem release {ph : Phase} (h : Ledger K live gone (some (p, ph)) home t)
    (hempty : ¬ ph.Empty) (haway : ph.away = none) (hsearch : ∀ v, ph ≠ .searching (some v))
    (hfree : ph = .freeing → ∀ n : Word, n.toNat < POOLSIZE → (t.swapPool n).spAsid ≠ p) :
    Ledger K live gone none home t where
  resident := h.resident
  unshared := h.unshared
  mapped x a hx _ := h.mapped x a hx (by rw [Turn.away, Option.bind_some, haway]; exact nofun)
  unmapped x hx hg hlt hx' := h.unmapped x hx hg hlt (.inl (hx'.resolve_right nofun))
  pool n hn _ := by
    cases h.pool n hn fun hc => not_empty_of hempty hc.1 with
    | free h1 h2 => exact .free h1 h2
    | held q page h1 h2 h3 => exact .held q page h1 h2 h3
    | left q h1 h2 =>
      cases h1
      exact absurd h2 (hfree rfl n hn)
  next _ := h.next (by rintro ⟨_, v, hs⟩; cases hs; exact hsearch v rfl)
  empty he := by
    obtain ⟨_, _, hs, -⟩ := he
    nomatch hs
  away _ hx := nomatch hx
  wants _ _ _ hs := nomatch hs
  names := h.names

/-! ### A page goes -/

/-- The page that is in the frame has to leave, and its entry is made invalid. -/
theorem mask (h : Ledger K live gone (some (p, .searching (some v))) home t)
    (hlt : t.frameNo.toNat < POOLSIZE) (hheld : (t.swapPool t.frameNo).spAsid ≠ -1)
    (hx : x = ((t.swapPool t.frameNo).spAsid, clip (t.swapPool t.frameNo).spPageNo)) :
    Ledger K live gone (some (p, .masked v x)) home (t.evict t.frameNo) := by
  have hentry := h.pool t.frameNo hlt fun hc => not_empty_of id hc.1
  obtain ⟨q, page, hq, hhome⟩ : ∃ q page, t.swapPool t.frameNo = ⟨q, 2, page, .entry (q - 1) (clip page)⟩ ∧
      home (q, clip page) = some (frameAddr K t.frameNo) := by
    cases hentry with
    | free h1 => exact absurd h1 hheld
    | left q h1 => nomatch h1
    | held q page h1 _ h3 => exact ⟨q, page, h1, h3⟩
  obtain rfl : x = (q, clip page) := by rw [hx, hq]
  have hevict : t.evict t.frameNo = t.setEntryLo (.entry (q - 1) (clip page))
      (t.entryOf (q, clip page) &&& 0xCFF) := by
    unfold Tables.evict
    rw [hq]
    rfl
  have haway : Turn.away (some (p, .masked v (q, clip page))) = some (q, clip page) := rfl
  constructor
  case resident => exact h.resident
  case unshared => exact h.unshared
  case mapped =>
    intro y a hy hne
    rw [haway] at hne
    rw [hevict, Tables.entryOf_setEntryLo, if_neg fun heq => hne (congrArg some heq.symm)]
    exact h.mapped y a hy nofun
  case unmapped =>
    intro y hy hg hlt' hout
    rw [hevict, Tables.entryOf_setEntryLo]
    split_ifs with hyx
    · exact not_valid_masked _
    · refine h.unmapped y hy hg hlt' (.inl (hout.resolve_right fun heq => hyx ?_))
      exact (Option.some.inj heq).symm
  case pool =>
    intro n hn _
    rw [evict_swapPool]
    exact (h.pool n hn fun hc => not_empty_of id hc.1).setTurn nofun
  case next =>
    rw [evict_frameNo]
    exact fun _ => hlt
  case empty => exact fun he => absurd he (not_empty_of id)
  case away =>
    rw [evict_frameNo]
    rintro _ ⟨⟩
    exact hhome
  case wants =>
    rintro _ _ w ⟨⟩ ⟨⟩
    exact h.wants p _ v rfl rfl
  case names =>
    rw [hevict]
    exact fun u j => (Tables.uPte_setEntryLo ..).trans (h.names u j)

theorem writtenBack (hK : Roomy K) (h : Ledger K live gone (some (p, .leaving v x)) home t) :
    Ledger K live gone (some (p, .clear v)) (Function.update home x none) t := by
  have hhome := h.away x rfl
  have hnext : t.frameNo.toNat < POOLSIZE := h.next (by rintro ⟨_, _, ⟨⟩⟩)
  constructor
  case resident => exact fun y a hy => h.resident y a (update_none hy).2
  case unshared => exact h.unshared.writeBack x
  case mapped =>
    intro y a hy _
    obtain ⟨hne, hy⟩ := update_none hy
    exact h.mapped y a hy fun heq => hne (Option.some.inj heq).symm
  case unmapped =>
    intro y hy hg hlt hout
    refine h.unmapped y hy hg hlt ?_
    by_cases hyx : y = x
    · exact .inr (congrArg some hyx.symm)
    · rw [Function.update_of_ne hyx] at hout
      exact .inl (hout.resolve_right nofun)
  case pool =>
    intro n hn hne
    cases h.pool n hn fun hc => not_empty_of id hc.1 with
    | free h1 h2 => exact .free h1 (h2.writeBack x)
    | left q h1 => nomatch h1
    | held q page h1 h2 h3 =>
      refine .held q page h1 h2 ?_
      rw [Function.update_of_ne, h3]
      rintro rfl
      rw [hhome] at h3
      exact hne ⟨⟨p, _, rfl, trivial⟩, (frameAddr_inj hK hnext hn (Option.some.inj h3)).symm⟩
  case next => exact fun _ => hnext
  case empty => exact fun _ => h.unshared.unused hhome
  case away => nofun
  case wants =>
    rintro _ _ w ⟨⟩ ⟨⟩
    obtain ⟨h1, hrest⟩ := h.wants p _ v rfl rfl
    refine ⟨?_, hrest⟩
    by_cases hpx : (p, v) = x
    · rw [hpx, Function.update_self]
    · rw [Function.update_of_ne hpx, h1]
  case names => exact h.names

/-- The frame whose turn it is has no page. -/
theorem call (h : Ledger K live gone (some (p, .searching (some v))) home t)
    (hlt : t.frameNo.toNat < POOLSIZE) (hfree : (t.swapPool t.frameNo).spAsid = -1) :
    Ledger K live gone (some (p, .clear v)) home t := by
  have hfar : ¬ (-1 : Word).toNat ≤ MAXUPROC := by decide
  constructor
  case resident => exact h.resident
  case unshared => exact h.unshared
  case mapped => exact fun y a hy _ => h.mapped y a hy nofun
  case unmapped =>
    exact fun y hy hg hlt' hout => h.unmapped y hy hg hlt' (.inl (hout.resolve_right nofun))
  case pool => exact fun n hn _ => (h.pool n hn fun hc => not_empty_of id hc.1).setTurn nofun
  case next => exact fun _ => hlt
  case empty =>
    intro _
    cases h.pool t.frameNo hlt fun hc => not_empty_of id hc.1 with
    | free h1 h2 => exact h2
    | left q h1 => nomatch h1
    | held q page h1 _ h3 =>
      rw [h1] at hfree
      obtain ⟨-, ⟨-, hle⟩, -⟩ := h.resident _ _ h3
      exact absurd (congrArg (fun w : Word => w.toNat ≤ MAXUPROC) hfree ▸ hle) hfar
  case away => nofun
  case wants =>
    rintro _ _ w ⟨⟩ ⟨⟩
    exact h.wants p _ v rfl rfl
  case names => exact h.names

/-! ### A page comes -/

theorem setEntry {k k' : Nat} (h : Ledger K live gone (some (p, .arrived v k)) home t)
    (e : SwapEntry) :
    Ledger K live gone (some (p, .arrived v k')) home (t.setSwap t.frameNo e) where
  resident := h.resident
  unshared := h.unshared
  mapped := h.mapped
  unmapped := h.unmapped
  pool n hn hne := by
    have hni : n ≠ t.frameNo := fun heq => hne ⟨⟨p, _, rfl, trivial⟩, heq⟩
    have hsame : (t.setSwap t.frameNo e).swapPool n = t.swapPool n := Function.update_of_ne hni ..
    rw [hsame]
    exact (h.pool n hn fun hc => hni hc.2).setTurn nofun
  next _ := h.next (by rintro ⟨_, _, ⟨⟩⟩)
  empty _ := h.empty ⟨p, _, rfl, trivial⟩
  away := nofun
  wants := by
    rintro _ _ w ⟨⟩ ⟨⟩
    exact h.wants p _ v rfl rfl
  names := h.names

theorem enter (hK : Roomy K) {k : Nat} {page : Word} (hp : IsUProc p)
    (h : Ledger K live gone (some (p, .arrived v k)) home t) (hpage : HasPage page)
    (hv : clip page = v) (hentry : t.swapPool t.frameNo = ⟨p, 2, page, .entry (p - 1) v⟩) :
    Ledger K live gone (some (p, .entered)) (Function.update home (p, v) (some (frameAddr K t.frameNo)))
      (t.setEntryLo (.entry (p - 1) v) (entryFor (frameAddr K t.frameNo))) := by
  have hnext : t.frameNo.toNat < POOLSIZE := h.next (by rintro ⟨_, _, ⟨⟩⟩)
  have hunused := h.empty ⟨p, _, rfl, trivial⟩
  obtain ⟨hhome, hlt, hlive⟩ := h.wants p _ v rfl rfl
  constructor
  case resident =>
    intro y a hy
    by_cases hyx : y = (p, v)
    · subst hyx
      rw [Function.update_self] at hy
      exact ⟨hlive, hp, hlt, t.frameNo, hnext, (Option.some.inj hy).symm⟩
    · rw [Function.update_of_ne hyx] at hy
      exact h.resident y a hy
  case unshared => exact h.unshared.bringIn hunused _
  case mapped =>
    intro y a hy _
    rw [Tables.entryOf_setEntryLo]
    split_ifs with hyx
    · rw [hyx, Function.update_self] at hy
      rw [← Option.some.inj hy]
    · rw [Function.update_of_ne hyx] at hy
      exact h.mapped y a hy nofun
  case unmapped =>
    intro y hy hg hlt' hout
    have hout := hout.resolve_right nofun
    have hyx : y ≠ (p, v) := by
      rintro rfl
      rw [Function.update_self] at hout
      nomatch hout
    rw [Function.update_of_ne hyx] at hout
    rw [Tables.entryOf_setEntryLo, if_neg hyx]
    exact h.unmapped y hy hg hlt' (.inl hout)
  case pool =>
    intro n hn _
    by_cases hne : n = t.frameNo
    · rw [hne]
      subst hv
      exact .held p page hentry hpage (Function.update_self ..)
    · cases h.pool n hn fun hc => hne hc.2 with
      | free h1 h2 =>
        refine .free h1 fun y hy => ?_
        by_cases hyx : y = (p, v)
        · rw [hyx, Function.update_self] at hy
          exact hne (frameAddr_inj hK hnext hn (Option.some.inj hy)).symm
        · rw [Function.update_of_ne hyx] at hy
          exact h2 y hy
      | left q h1 => nomatch h1
      | held q page' h1 h2 h3 =>
        refine .held q page' h1 h2 ?_
        rw [Function.update_of_ne, h3]
        intro heq
        rw [heq, hhome] at h3
        nomatch h3
  case next => exact fun _ => hnext
  case empty => exact fun he => absurd he (not_empty_of id)
  case away => nofun
  case wants =>
    rintro _ _ w ⟨⟩ ⟨⟩
  case names => exact fun u j => (Tables.uPte_setEntryLo ..).trans (h.names u j)

/-! ### Between the runs of the pager -/

/-- An entry of the swap pool that is not free is that of a page. -/
theorem held_of (h : Ledger K live gone none home t) (hn : n.toNat < POOLSIZE)
    (hheld : (t.swapPool n).spAsid ≠ -1) : ∃ q page,
      t.swapPool n = ⟨q, 2, page, .entry (q - 1) (clip page)⟩ ∧
        home (q, clip page) = some (frameAddr K n) := by
  cases h.pool n hn (by rintro ⟨⟨_, _, ⟨⟩, -⟩, -⟩) with
  | free h1 => exact absurd h1 hheld
  | left q h1 => nomatch h1
  | held q page h1 _ h3 => exact ⟨q, page, h1, h3⟩

theorem frame_of (h : Ledger K live gone none home t) (hn : n.toNat < POOLSIZE)
    (hhome : home x = some (frameAddr K n)) :
    (t.swapPool n).spAsid = x.1 ∧ (t.swapPool n).spPteEntry = .entry (x.1 - 1) x.2 := by
  cases h.pool n hn (by rintro ⟨⟨_, _, ⟨⟩, -⟩, -⟩) with
  | free _ h2 => exact absurd hhome (h2 x)
  | left q h1 => nomatch h1
  | held q page h1 _ h3 =>
    obtain rfl := h.unshared _ _ _ hhome h3
    rw [h1]
    exact ⟨rfl, rfl⟩

end Ledger

theorem init_ledger : Ledger K live gone none (fun _ => none) Tables.init where
  resident _ _ hx := nomatch hx
  unshared _ _ _ hx := nomatch hx
  mapped _ _ hx := nomatch hx
  unmapped x _ _ _ _ := by
    have hinvalid : ¬ Sys.Valid (0x1 <<< 10) := by decide
    unfold Tables.entryOf Tables.init
    simp only
    split_ifs <;> exact hinvalid
  pool _ _ _ := .free rfl nofun
  next _ := by decide
  empty he := by
    obtain ⟨_, _, ⟨⟩, -⟩ := he
  away _ hx := nomatch hx
  wants _ _ _ hs := nomatch hs
  names _ _ := rfl

end Kaya.Phase3
