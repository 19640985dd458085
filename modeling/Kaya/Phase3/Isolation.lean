import Kaya.Phase3.Devices
import Kaya.Phase3.Paging

/-!
# Whose memory it is

The swap pool says whose page each frame holds.  A user's program reaches no other frame, and
whatever is written to memory or to the backing store belongs to the process that it is written
for.
-/

namespace Kaya.Phase3

open Lib Lib.Paging

namespace Sys

/-- Where in memory the page of `virtAddr` is that `p` reaches, if the access does not trap. -/
def frameAt (s : Sys Word) (p virtAddr : Word) : Option Word :=
  (s.entry p (virtAddr >>> 12)).bind fun e => if Valid e then some (e &&& 0xFFFFF000) else none

/-- The user's program of `p` runs, or will go on. -/
def InUser (s : Sys Word) (p : Word) : Prop := s.Alive p ∧ (s.task p).InUserMode

end Sys

/-- Entry `n` of the swap pool is that of the page of `virtAddr`, of process `p`. -/
def Tables.Keeps (t : Tables) (n p virtAddr : Word) : Prop :=
  let page := (virtAddr &&& 0x3FFFF000) >>> 12
  t.swapPool n = ⟨p, virtAddr >>> 30, page, .entry (p - 1) (clip page)⟩

/-- What the users' programs reach. -/
structure Isolated (K : Layout) (s : Sys Word) : Prop where
  /-- A page is in the frame whose entry of the swap pool names it. -/
  reached : ∀ p virtAddr frame, s.InUser p → s.frameAt p virtAddr = some frame →
    virtAddr >>> 30 = 2 ∧
      ∃ n, n.toNat < POOLSIZE ∧ frame = frameAddr K n ∧ s.tables.Keeps n p virtAddr
  /-- Two accesses reach one frame only if they are to one page of one process. -/
  alone : ∀ p q a b frame, s.InUser p → s.InUser q → s.frameAt p a = some frame →
    s.frameAt q b = some frame → p = q ∧ a >>> 12 = b >>> 12
  /-- Nobody reaches a frame to which disk 0 moves a block. -/
  filled : ∀ command p virtAddr, s.InUser p → s.disk.busy = some command →
    opOf command = READBLK → s.frameAt p virtAddr ≠ some s.disk.data0

/-- The page that the event `e` writes to memory at `a` belongs to process `p`. -/
inductive Fills (K : Layout) (s : Sys Word) (p a : Word) (page : Page) : Event Word → Prop
  /-- Its program stores a word in a page of its own. -/
  | store (virtAddr v n : Word) : s.running = some p → n.toNat < POOLSIZE → a = frameAddr K n →
      s.tables.Keeps n p virtAddr → page = Function.update (s.ram a) (virtAddr &&& 0xFFF) v →
        Fills K s p a page (.user (.store virtAddr v))
  /-- Its pager gets a page of its own from the backing store. -/
  | bring (v status : Word) : Holds .swapPoolSem p s.log → v.toNat < MAXPAGES →
      a = frameAddr K s.tables.frameNo → page = s.backing (p, v) → Fills K s p a page (.diskInt status)
  /-- Its tape writes to its buffer. -/
  | tape : a = TAPEDMABUFFER + (p - 1) * PAGESIZE → Fills K s p a page (.tapeDma p page)

/-- What the event `e` writes to page `v` of process `p` on the backing store is its own. -/
inductive Saves (K : Layout) (s : Sys Word) (p v : Word) (page : Page) : Event Word → Prop
  | tape (status : Word) : page = s.ram (TAPEDMABUFFER + (p - 1) * PAGESIZE) →
      Saves K s p v page (.diskInt status)
  | out (n pageNo status : Word) : n.toNat < POOLSIZE →
      s.tables.swapPool n = ⟨p, 2, pageNo, .entry (p - 1) v⟩ → page = s.ram (frameAddr K n) →
        Saves K s p v page (.diskInt status)

/-- Nothing that one process has gets to another one when `s` becomes `t`. -/
structure Contained (K : Layout) (s t : Sys Word) (e : Event Word) : Prop where
  memory : ∀ a, t.ram a ≠ s.ram a → ∃ p, IsUProc p ∧ Fills K s p a (t.ram a) e
  disk : ∀ cyl head sector, t.disk.block cyl head sector ≠ s.disk.block cyl head sector →
    head = 0 ∧ ∃ p, IsUProc p ∧ sector = p - 1 ∧ Saves K s p cyl (t.disk.block cyl head sector) e

namespace Sys

variable {K : Layout} {junk : Word} {job : Word → Job} {turn : Turn}
  {home : Word × Word → Option Word} {s : Sys Word} {p q virtAddr frame : Word}
  {h : List (Sys Word × Event Word)}

/-- An entry of the swap pool whose frame has a page is that of the page. -/
theorem PageInv.pool_of (hinv : PageInv K job turn home s) {n : Word} {x : Word × Word}
    (hn : n.toNat < POOLSIZE) (hhome : home x = some (frameAddr K n)) :
    ∃ page, HasPage page ∧ clip page = x.2 ∧
      s.tables.swapPool n = ⟨x.1, 2, page, .entry (x.1 - 1) x.2⟩ := by
  have hnot : ¬ (turn.Empty ∧ n = s.tables.frameNo) := by
    rintro ⟨hempty, rfl⟩
    exact hinv.ledger.empty hempty _ hhome
  cases hinv.ledger.pool n hn hnot with
  | free _ hunused => exact absurd hhome (hunused _)
  | left _ _ _ hunused => exact absurd hhome (hunused _)
  | held q page hentry hpage hhome' =>
    obtain rfl := hinv.ledger.unshared _ _ _ hhome hhome'
    exact ⟨page, hpage, rfl, hentry⟩

theorem PageInv.keeps_of (hinv : PageInv K job turn home s) {n : Word} (hn : n.toNat < POOLSIZE)
    (hpresent : Present virtAddr) (hhome : home (p, pageIndex virtAddr) = some (frameAddr K n)) :
    s.tables.Keeps n p virtAddr := by
  obtain ⟨page, hpage, hclip, hentry⟩ := hinv.pool_of hn hhome
  obtain rfl : page = (virtAddr &&& 0x3FFFF000) >>> 12 := clip_inj hpage hpresent.2 hclip
  rw [Tables.Keeps, hpresent.1]
  exact hentry

/-- No entry for kUseg3 is valid. -/
theorem pte_kUseg3 {t : Tables} (ht : t.kUseg3 = Tables.init.kUseg3) {asid page e : Word}
    (hpage : page >>> 18 = 3) (he : pte t asid page = some e) : ¬ Valid e := by
  obtain ⟨j, -, hfound⟩ := List.exists_of_findSome?_eq_some he
  simp only [table, if_pos hpage, ht] at hfound
  split_ifs at hfound
  obtain rfl := Option.some.inj hfound
  change ¬ Valid (0x5 <<< 8)
  decide

/-- The number of a page is its segment and its number there. -/
theorem page_inj {x y : Word} (hsegment : x >>> 18 = y >>> 18) (hpage : x &&& 0x3FFFF = y &&& 0x3FFFF) :
    x = y := by
  have hmask : (0x3FFFF : Word).toNat = 2 ^ 18 - 1 := rfl
  have hlow := congrArg BitVec.toNat hpage
  rw [BitVec.toNat_and, BitVec.toNat_and, hmask, Nat.and_two_pow_sub_one_eq_mod,
    Nat.and_two_pow_sub_one_eq_mod] at hlow
  bv_omega

/-! ## What disk 0 is about -/

/-- What the command that disk 0 carries out moves. -/
inductive Underway (K : Layout) (home : Word × Word → Option Word) (s : Sys Word)
    (command : Word) : Prop
  | seeks : opOf command ≠ READBLK → opOf command ≠ WRITEBLK → Underway K home s command
  /-- A block of the tape of `p`. -/
  | tape (p w : Word) : IsUProc p → stage s.log p = .moving w → command = moveTo (p - 1) WRITEBLK →
      s.disk.data0 = TAPEDMABUFFER + (p - 1) * PAGESIZE → Underway K home s command
  /-- The page in the frame that is to be used. -/
  | out (n p v page : Word) : n.toNat < POOLSIZE → IsUProc p → home (p, v) = some (frameAddr K n) →
      s.tables.swapPool n = ⟨p, 2, page, .entry (p - 1) v⟩ → command = moveTo (p - 1) WRITEBLK →
        s.disk.data0 = frameAddr K n → s.disk.cyl = v → Underway K home s command
  /-- The page that `p` misses. -/
  | bring (p v : Word) : IsUProc p → Holds .swapPoolSem p s.log → v.toNat < MAXPAGES →
      s.tables.frameNo.toNat < POOLSIZE → Unused home (frameAddr K s.tables.frameNo) →
        command = moveTo (p - 1) READBLK → s.disk.data0 = frameAddr K s.tables.frameNo →
          s.disk.cyl = v → Underway K home s command

theorem PageInv.underway (hinv : PageInv K job turn home s) (hg : s.Grounds)
    (htest : stage s.log 0 = .out) {command : Word} (hbusy : s.disk.busy = some command) :
    Underway K home s command := by
  obtain ⟨p, hstage⟩ : ∃ p, stage s.log p ≠ .out := by
    by_contra hall
    have hidle := (hg.fits.idle fun p => by_contra fun hp => hall ⟨p, hp⟩).1
    exact Option.some_ne_none _ (hbusy.symm.trans hidle)
  have hp0 : p ≠ 0 := by
    rintro rfl
    exact hstage htest
  have hp : IsUProc p := hg.uproc (fun hborn => hstage (hg.disk.stage_unborn hborn)) hp0
  have hfits := hg.fits.fits p
  have hregs := (hinv.own p hp).disk
  have hbusyIdle : ¬ s.Idle := by
    intro hidle
    exact Option.some_ne_none _ (hbusy.symm.trans hidle.1)
  cases hg : stage s.log p with
  | out => exact absurd hg hstage
  | owned | finished | lost =>
    rw [hg] at hfits
    exact absurd hfits hbusyIdle
  | positioned | loaded =>
    rw [hg] at hfits
    exact absurd hfits.1 hbusyIdle
  | seeking w =>
    rw [hg] at hfits
    obtain rfl : w = command := Option.some.inj (hfits.1.busy.symm.trans hbusy)
    have hne : SEEKCYL ≠ READBLK ∧ SEEKCYL ≠ WRITEBLK := by decide
    exact .seeks (hfits.2 ▸ hne.1) (hfits.2 ▸ hne.2)
  | moving w =>
    rw [hg] at hregs
    obtain ⟨cyl, sector, buf, op, hmoves, rfl, hdata, hcommand, hcyl⟩ := hregs
    obtain rfl : moveTo sector op = command := Option.some.inj (hcommand.symm.trans hbusy)
    generalize hj : job p = j at hmoves
    cases hmoves with
    | tape => exact .tape p _ hp hg rfl hdata
    | out t b v x =>
      obtain ⟨rfl, -, -⟩ := (hinv.own p hp).pool t b _ hj
      have hledger := hinv.ledger
      rw [hinv.turn_of hj] at hledger
      have hnext : s.tables.frameNo.toNat < POOLSIZE := by
        refine hledger.next ?_
        rintro ⟨_, _, ⟨⟩⟩
      have hhome := hledger.away x rfl
      obtain ⟨-, hx, hlt, -⟩ := hledger.resident x _ hhome
      obtain ⟨page, -, -, hentry⟩ := hinv.pool_of hnext hhome
      exact .out _ x.1 x.2 page hnext hx hhome hentry rfl hdata (hcyl.trans (cylOf_seekTo hlt))
    | bring t b v =>
      obtain ⟨rfl, -, -⟩ := (hinv.own p hp).pool t b _ hj
      have hledger := hinv.ledger
      rw [hinv.turn_of hj] at hledger
      obtain ⟨-, hlt, -⟩ := hledger.wants p _ cyl rfl rfl
      have hnext : s.tables.frameNo.toNat < POOLSIZE := by
        refine hledger.next ?_
        rintro ⟨_, _, ⟨⟩⟩
      refine .bring p cyl hp ((hinv.own p hp).holds.mpr ?_) hlt hnext
        (hledger.empty ⟨p, _, rfl, trivial⟩) rfl hdata (hcyl.trans (cylOf_seekTo hlt))
      rw [hj]
      exact Option.some_ne_none _

/-! ## Who writes to memory -/

/-- The pages in memory and on disk 0. -/
def memory (s : Sys Word) : (Word → Page) × (Word → Word → Word → Page) := (s.ram, s.disk.block)

/-- What the TLB may hold after a step. -/
inductive Caches (s : Sys Word) : (Word → Word → Option Word) → Prop
  | same : Caches s s.tlb
  | empty : Caches s fun _ _ => none
  | found {p page e : Word} : s.entry p page = some e →
      Caches s (Function.update s.tlb p (Function.update (s.tlb p) page (some e)))
  | drop (p page : Word) :
      Caches s (Function.update s.tlb p (Function.update (s.tlb p) page none))

/-- A user's program accesses what it reaches, and no command of the disk ends. -/
def Reached (s : Sys Word) : Obs Word → Prop
  | .loaded p virtAddr _ | .stored p virtAddr _ => s.frameAt p virtAddr ≠ none
  | .done _ => False
  | _ => True

/-- After a step the memory is `m`, the TLB holds what it may, and what was seen was reached. -/
structure Leaves (s t : Sys Word) (m : (Word → Page) × (Word → Word → Word → Page)) : Prop where
  memory : t.memory = m
  caches : s.Caches t.tlb
  reached : ∃ l, t.trace = l ++ s.trace ∧ ∀ o ∈ l, s.Reached o

section Leaves

variable {t u : Sys Word} {m : (Word → Page) × (Word → Word → Word → Page)}

theorem Leaves.self (s : Sys Word) : s.Leaves s s.memory := ⟨rfl, .same, [], rfl, by simp⟩

theorem Leaves.sees (h : s.Leaves t m) {o : Obs Word} (ho : s.Reached o) (hmem : u.memory = t.memory)
    (htlb : u.tlb = t.tlb) (htrace : u.trace = o :: t.trace) : s.Leaves u m where
  memory := hmem.trans h.memory
  caches := htlb ▸ h.caches
  reached := by
    obtain ⟨l, hl, hall⟩ := h.reached
    refine ⟨o :: l, by rw [htrace, hl, List.cons_append], ?_⟩
    rw [List.forall_mem_cons]
    exact ⟨ho, hall⟩

theorem Leaves.answer (h : s.Leaves t m) (p r : Word) : s.Leaves (t.answer p r) m := by
  unfold Sys.answer
  split
  · rename_i a k _
    exact h.sees (o := .did ⟨p, a, r, t.view⟩) trivial rfl rfl rfl
  · exact h

theorem Leaves.wake (h : s.Leaves t m) (ws : List Word) (r : Word) : s.Leaves (t.wake ws r) m := by
  cases ws with
  | nil => exact h
  | cons q ws => exact h.answer q r

theorem Leaves.kill (h : s.Leaves t m) (S : Setup Word) (p : Word) : s.Leaves (t.kill S p) m :=
  h.sees (o := .died p) trivial rfl rfl rfl

theorem Leaves.passUp (h : s.Leaves t m) (S : Setup Word) (p : Word) (trap : Trap) (st : State)
    (rest : Prog) : s.Leaves (t.passUp S p trap st rest) m := by
  unfold Sys.passUp
  simp only
  split
  · exact h.kill S p
  · exact ⟨h.memory, h.caches, h.reached⟩

theorem Leaves.signal (h : s.Leaves t m) (index status : Word) :
    s.Leaves (t.signal index status) m := by
  have hline : s.Leaves { t with dev := Function.update t.dev index (t.dev index).up } m :=
    ⟨h.memory, h.caches, h.reached⟩
  exact hline.wake ..

theorem Leaves.cached {tlb : Word → Word → Option Word} (htlb : s.Caches tlb) :
    s.Leaves { s with tlb := tlb } s.memory := ⟨rfl, htlb, [], rfl, by simp⟩

/-- An access reaches a frame, or leaves memory as it is. -/
theorem access_leaves {P : Sys Word → Prop} (S : Setup Word) (p code virtAddr : Word)
    {hit : Sys Word → Word → Sys Word} (hmiss : ∀ t, s.Leaves t s.memory → P t)
    (hhit : ∀ tlb frame, s.Caches tlb → s.frameAt p virtAddr = some frame →
      P (hit { s with tlb := tlb } frame)) : P (s.access S p code virtAddr hit) := by
  unfold access
  cases he : s.entry p (virtAddr >>> 12) with
  | none => exact hmiss _ ((Leaves.self s).passUp ..)
  | some e =>
    simp only
    split_ifs with hvalid
    · refine hhit _ _ (.found he) ?_
      rw [frameAt, he, Option.bind_some, if_pos hvalid]
    · exact hmiss _ ((Leaves.cached (.found he)).passUp ..)

theorem perform_leaves (S : Setup Word) (s : Sys Word) (p r : Word) (a : Act) :
    s.Leaves (s.perform S p r a) s.memory := by
  -- apart from `TLBCLR` and loads, what changes is neither memory nor the TLB
  have hsame : ∀ t : Sys Word, t.memory = s.memory → t.tlb = s.tlb → t.trace = s.trace →
      s.Leaves t s.memory := fun t hmem htlb htrace =>
    ⟨hmem, htlb ▸ .same, [], htrace, by simp⟩
  have hanswer : ∀ (t : Sys Word) (r : Word), t.memory = s.memory → t.tlb = s.tlb →
      t.trace = s.trace → s.Leaves (t.answer p r) s.memory := fun t r hmem htlb htrace =>
    (hsame t hmem htlb htrace).answer p r
  cases a with
  | passeren x =>
    simp only [perform, P]
    split_ifs
    · exact hanswer _ _ rfl rfl rfl
    · exact hsame _ rfl rfl rfl
  | verhogen x =>
    simp only [perform, V]
    refine Leaves.wake ?_ ..
    exact hanswer _ _ rfl rfl rfl
  | waitio l d n =>
    simp only [perform, waitDev]
    split_ifs
    · exact (Leaves.self s).kill S p
    · exact hanswer _ _ rfl rfl rfl
    · exact hsame _ rfl rfl rfl
  | createprocess sAsid sStatus =>
    simp only [perform]
    split_ifs
    · exact hanswer _ _ rfl rfl rfl
    · exact hanswer _ _ rfl rfl rfl
  | spectrapvec trap new =>
    simp only [perform]
    split_ifs
    · exact hanswer _ _ rfl rfl rfl
    · exact (Leaves.self s).kill S p
  | setCommand reg v | setData0 reg v =>
    simp only [perform]
    split_ifs
    · exact hanswer _ _ rfl rfl rfl
    · exact hanswer _ _ rfl rfl rfl
  | TLBCLR => exact (Leaves.cached .empty).answer p 0
  | load virtAddr =>
    simp only [perform]
    refine access_leaves (P := fun t => s.Leaves t s.memory) S p 2 virtAddr (fun _ => id) ?_
    exact fun tlb frame htlb _ => (Leaves.cached htlb).answer p _
  | _ => exact hanswer _ _ rfl rfl rfl

/-- The code of phase 3 writes to no page itself. -/
theorem go_leaves (S : Setup Word) (s : Sys Word) (p r : Word) :
    s.Leaves (s.go S p r) s.memory := by
  unfold go
  split
  · exact .self s
  · rename_i l _
    cases l with
    | terminate => exact (Leaves.self s).passUp ..
    | terminateprocess => exact (Leaves.self s).kill S p
    | _ => exact ⟨rfl, .same, [], rfl, by simp⟩
  · exact perform_leaves ..

theorem user_leaves (S : Setup Word) (s : Sys Word) (p : Word) (u : UserAct) :
    s.Leaves (s.user S p u) s.memory ∨ ∃ virtAddr v frame, u = .store virtAddr v ∧
      s.frameAt p virtAddr = some frame ∧ s.Leaves (s.user S p u) (Function.update s.ram frame
        (Function.update (s.ram frame) (virtAddr &&& 0xFFF) v), s.disk.block) := by
  have hsees : ∀ {virtAddr frame}, s.frameAt p virtAddr = some frame →
      s.frameAt p virtAddr ≠ none := fun hframe => hframe.trans_ne (Option.some_ne_none _)
  cases u with
  | load virtAddr =>
    simp only [user]
    refine .inl (access_leaves (P := fun t => s.Leaves t s.memory) S p 2 virtAddr (fun _ => id) ?_)
    exact fun tlb frame htlb hframe => ⟨rfl, htlb, [_], rfl, by simpa [Reached] using hsees hframe⟩
  | store virtAddr v =>
    simp only [user]
    refine access_leaves (P := fun t => s.Leaves t s.memory ∨ ∃ a w frame,
      UserAct.store virtAddr v = .store a w ∧ s.frameAt p a = some frame ∧ s.Leaves t
        (Function.update s.ram frame (Function.update (s.ram frame) (a &&& 0xFFF) w), s.disk.block))
      S p 3 virtAddr (fun _ => .inl) ?_
    exact fun tlb frame htlb hframe => .inr ⟨virtAddr, v, frame, rfl, hframe, rfl, htlb, [_], rfl,
      by simpa [Reached] using hsees hframe⟩
  | syscall st =>
    simp only [user]
    split_ifs <;> exact .inl ((Leaves.self s).passUp ..)
  | progTrap st | tlbTrap st => exact .inl ((Leaves.self s).passUp ..)

end Leaves

/-- What a command of disk 0 moves. -/
theorem diskInt_leaves (s : Sys Word) {command : Word} (hbusy : s.disk.busy = some command)
    (status : Word) :
    ({ s with trace := .done (status &&& STATUSMASK) :: s.trace } : Sys Word).Leaves
      (s.diskInt status)
      (if status &&& STATUSMASK = READY then (s.transfer command).memory else s.memory) := by
  obtain ⟨-, -, -, -, -, -, htrace⟩ := s.transfer_same command
  unfold diskInt
  simp only [hbusy]
  refine Leaves.signal ⟨?_, ?_, [], ?_, by simp⟩ 0 status
  · split_ifs <;> rfl
  · split_ifs
    · exact (transfer_tlb s command).symm ▸ .same
    · exact .same
  · split_ifs
    · exact congrArg _ htrace
    · rfl

/-- Where a block of the disk is written. -/
theorem transfer_block_eq {command : Word} (hop : opOf command = WRITEBLK) (cyl head sector : Word) :
    (s.transfer command).disk.block cyl head sector =
      if cyl = s.disk.cyl ∧ head = headOf command ∧ sector = sectorOf command then
        s.ram s.disk.data0
      else s.disk.block cyl head sector := by
  have hne : ¬ WRITEBLK = SEEKCYL ∧ ¬ WRITEBLK = READBLK := by decide
  unfold transfer
  simp only [hop, if_neg hne.1, if_neg hne.2, if_true]
  by_cases hcyl : cyl = s.disk.cyl
  swap
  · rw [Function.update_of_ne hcyl, if_neg fun h => hcyl h.1]
  rw [hcyl, Function.update_self]
  by_cases hhead : head = headOf command
  swap
  · rw [Function.update_of_ne hhead, if_neg fun h => hhead h.2.1]
  rw [hhead, Function.update_self]
  by_cases hsector : sector = sectorOf command
  · rw [hsector, Function.update_self, if_pos ⟨rfl, rfl, rfl⟩]
  · rw [Function.update_of_ne hsector, if_neg fun h => hsector h.2.2]

/-! ## In every run -/

theorem PageInv.inUser (hinv : PageInv K job turn home s) (hp : IsUProc p) (huser : s.InUser p) :
    (s.task p).prog ≠ .done () ∧ job p = .idle := by
  have habides := (hinv.own p hp).fits huser.1
  have hmode := huser.2
  unfold Task.InUserMode at hmode
  split at hmode
  · rename_i hprog
    exact ⟨by simp [hprog], (Prod.ext_iff.mp (habides.leave hprog)).1⟩
  · exact hmode.elim

theorem Grounds.inUser (hg : s.Grounds) (huser : s.InUser p) : IsUProc p := by
  refine hg.uproc huser.1.not_unborn ?_
  rintro rfl
  have hfollows := hg.locks.keeps.prog 0 huser.1
  have hmode := huser.2
  unfold Task.InUserMode at hmode
  split at hmode
  · rename_i hprog
    rw [hprog] at hfollows
    exact Leave.noConfusion hfollows.1
  · exact hmode.elim

def Steady (s : Sys Word) : Prop := s.Open ∨ ∃ p, s.running = some p ∧ (s.task p).InUserMode

theorem PageInv.steady (hinv : PageInv K job turn home s) (hg : s.Grounds) (hsteady : s.Steady) :
    ¬ turn.Stale := by
  rcases hsteady with hopen | ⟨p, hrun, hmode⟩
  · exact hinv.not_stale hopen
  · have huser : s.InUser p := ⟨.inl (hg.locks.sane.running p hrun), hmode⟩
    obtain ⟨-, hj⟩ := hinv.inUser (hg.inUser huser) huser
    exact hinv.not_stale_of hrun (hj ▸ id)

theorem Grounds.test_out (hg : s.Grounds) (hown : s.OwnDevices) : stage s.log 0 = .out := by
  by_contra hstage
  have hholds := (holds_iff hg.disk.keeps.allowed 0).mpr hstage
  exact Sem.noConfusion (hown.log.held_by_test hholds)

/-- What a user's program reaches is a page that the ledger has. -/
theorem PageInv.reaches (hinv : PageInv K job turn home s) (hK : Roomy K)
    (hg : s.Grounds) (hkUseg3 : s.tables.kUseg3 = Tables.init.kUseg3) (hsteady : s.Steady)
    (huser : s.InUser p) (hframe : s.frameAt p virtAddr = some frame) :
    Present virtAddr ∧ home (p, pageIndex virtAddr) = some frame := by
  have hp := hg.inUser huser
  obtain ⟨hdone, hj⟩ := hinv.inUser hp huser
  have hasid := ((hinv.own p hp).fits huser.1).asid.resolve_right hdone
  obtain ⟨e, he, hvalid⟩ := Option.bind_eq_some_iff.mp hframe
  split_ifs at hvalid with hv
  obtain rfl := Option.some.inj hvalid
  have hpte : pte s.tables p (virtAddr >>> 12) = some e := by
    unfold Sys.entry at he
    cases hcached : s.tlb p (virtAddr >>> 12) with
    | some e' =>
      rw [hcached] at he
      exact he ▸ hinv.tlb (hinv.steady hg hsteady) p _ e' hp hcached
    | none =>
      rw [hcached, hasid] at he
      exact he
  have hseg : virtAddr >>> 30 ≠ 3 := by
    intro hseg
    rw [← segment_of_page] at hseg
    exact pte_kUseg3 hkUseg3 hseg hpte hv
  obtain ⟨hpresent, rfl⟩ := hinv.entry_of hp hseg hpte
  obtain ⟨-, a, hhome, ha⟩ :=
    hinv.ledger.home_of_valid (x := (p, pageIndex virtAddr)) hp (hj ▸ id) (clip_lt _) hv
  obtain ⟨-, -, -, n, hn, rfl⟩ := hinv.ledger.resident _ _ hhome
  refine ⟨hpresent, ?_⟩
  rw [hhome, ha, frame_of_entry, frameAddr_aligned hK hn]

theorem Reaches.kUseg3 (hrun : Sys.Reaches (kaya K junk) Sys.Booted h s) :
    s.tables.kUseg3 = Tables.init.kUseg3 :=
  hrun.kaya_tableRun.replayed ▸ Sys.tablesOf_kUseg3 hrun.kaya_tableRun.allowed

end Sys

open Sys

variable {K : Layout} {junk : Word} {h : List (Sys Word × Event Word)} {s : Sys Word}

/-- In every run in which disk 0 always answers `READY`, where memory has room for the frames,
nobody accesses kUseg3 and tapes write to the buffers of processes. -/
theorem accesses_isolated (hK : Roomy K) (hrun : Sys.Reaches (kaya K junk) Sys.Booted h s)
    (hfair : ∀ x ∈ h, x.1.Fair x.2) (hsteady : s.Steady) : Isolated K s := by
  obtain ⟨job, turn, home, hinv, hh⟩ := Reaches.pageRun hK hrun hfair
  rcases Reaches.grounds hrun hh.ready with hhalt | hg
  · have hnobody : ∀ p, ¬ s.InUser p := fun p huser => huser.1.not_dead (hhalt.dead p)
    exact ⟨fun p _ _ hp => absurd hp (hnobody p), fun p _ _ _ _ hp => absurd hp (hnobody p),
      fun _ p _ hp => absurd hp (hnobody p)⟩
  have hreach : ∀ p virtAddr frame, s.InUser p → s.frameAt p virtAddr = some frame →
      Present virtAddr ∧ home (p, pageIndex virtAddr) = some frame := fun p virtAddr frame =>
    hinv.reaches hK hg (Reaches.kUseg3 hrun) hsteady
  refine ⟨fun p virtAddr frame hp hframe => ?_, fun p q a b frame hp hq ha hb => ?_,
    fun command p virtAddr hp hbusy hop hframe => ?_⟩
  · obtain ⟨hpresent, hhome⟩ := hreach p virtAddr frame hp hframe
    obtain ⟨-, -, -, n, hn, rfl⟩ := hinv.ledger.resident _ _ hhome
    exact ⟨hpresent.1, n, hn, rfl, hinv.keeps_of hn hpresent hhome⟩
  · obtain ⟨hpa, hhomea⟩ := hreach p a frame hp ha
    obtain ⟨hpb, hhomeb⟩ := hreach q b frame hq hb
    obtain ⟨rfl, hindex⟩ := Prod.ext_iff.mp (hinv.ledger.unshared _ _ _ hhomea hhomeb)
    refine ⟨rfl, ?_⟩
    have hpage := clip_inj hpa.2 hpb.2 hindex
    rw [missing_of_page, missing_of_page] at hpage
    refine page_inj ?_ hpage
    rw [segment_of_page, segment_of_page, hpa.1, hpb.1]
  · obtain ⟨-, hhome⟩ := hreach p virtAddr _ hp hframe
    have hnot : READBLK ≠ WRITEBLK := by decide
    cases hinv.underway hg (hg.test_out (Reaches.ownDevices hrun)) hbusy with
    | seeks hread => exact hread hop
    | tape q w hq _ hcommand =>
      rw [hcommand, (moveTo_fields hq (.inr rfl)).1] at hop
      exact hnot hop.symm
    | out n q v page hn hq _ hentry hcommand =>
      rw [hcommand, (moveTo_fields hq (.inr rfl)).1] at hop
      exact hnot hop.symm
    | bring q v hq hholds hlt _ hunused hcommand hdata =>
      rw [hdata] at hhome
      exact hunused _ hhome

def paged : List (Sys Word × Event Word) × Sys Word :=
  replay (Sys.step (kaya .sample 0)) ([], .boot) storesAndLoads

theorem paged_run :
    Sys.Reaches (kaya .sample 0) Sys.Booted paged.1 paged.2 ∧ ∀ x ∈ paged.1, x.1.Fair x.2 := by
  have hcan : AllOk (Sys.step (kaya .sample 0)) (fun s e => s.canNow e) .boot storesAndLoads := by
    decide +kernel
  have hfair : AllOk (Sys.step (kaya .sample 0)) Sys.Fair .boot storesAndLoads := by
    decide +kernel
  exact ⟨(Run.start boot_booted).replay storesAndLoads (hcan.mono fun _ _ => can_of_canNow),
    hfair.replay (by simp)⟩

theorem accesses_isolated_paged : Isolated .sample paged.2 :=
  accesses_isolated ⟨by decide, by decide⟩ paged_run.1 paged_run.2
    (.inr ⟨1, by decide +kernel, by decide +kernel⟩)

/-! ### One step -/

namespace Contained

variable {t : Sys Word} {e : Event Word} {p a command : Word} {page : Page}

theorem same (hram : t.ram = s.ram) (hblock : t.disk.block = s.disk.block) : Contained K s t e where
  memory a hne := absurd (congrFun hram a) hne
  disk cyl head sector hne := absurd (congrFun (congrFun (congrFun hblock cyl) head) sector) hne

theorem fill (hp : IsUProc p) (hram : t.ram = Function.update s.ram a page)
    (hblock : t.disk.block = s.disk.block) (hfills : Fills K s p a page e) : Contained K s t e where
  memory b hne := by
    rw [hram] at hne ⊢
    obtain rfl : b = a := by
      by_contra hba
      exact hne (Function.update_of_ne hba ..)
    rw [Function.update_self]
    exact ⟨p, hp, hfills⟩
  disk cyl head sector hne := absurd (congrFun (congrFun (congrFun hblock cyl) head) sector) hne

theorem save (hp : IsUProc p) (hmove : command = moveTo (p - 1) WRITEBLK) (hram : t.ram = s.ram)
    (hblock : t.disk.block = (s.transfer command).disk.block)
    (hsaves : Saves K s p s.disk.cyl (s.ram s.disk.data0) e) : Contained K s t e where
  memory a hne := absurd (congrFun hram a) hne
  disk cyl head sector hne := by
    obtain ⟨hop, hhead, hsector⟩ := moveTo_fields hp (.inr rfl)
    rw [← hmove] at hop hhead hsector
    rw [hblock, transfer_block_eq hop, hhead, hsector] at hne ⊢
    split_ifs at hne ⊢ with hhere
    · obtain ⟨rfl, rfl, rfl⟩ := hhere
      exact ⟨rfl, p, hp, rfl, hsaves⟩
    · exact absurd rfl hne

theorem transferred {home : Word × Word → Option Word} {status : Word}
    (hunder : Underway K home s command) (hram : t.ram = (s.transfer command).ram)
    (hblock : t.disk.block = (s.transfer command).disk.block) :
    Contained K s t (.diskInt status) := by
  have hwrites : ∀ p, IsUProc p → command = moveTo (p - 1) WRITEBLK → t.ram = s.ram := by
    intro p hp hmove
    refine hram.trans (transfer_ram ?_)
    rw [hmove, (moveTo_fields hp (.inr rfl)).1]
    decide
  cases hunder with
  | seeks hread hwrite =>
    exact same (hram.trans (transfer_ram hread)) (hblock.trans (transfer_block hwrite))
  | tape p w hp _ hmove hdata =>
    refine save hp hmove (hwrites p hp hmove) hblock (.tape status ?_)
    rw [hdata]
  | out n p v page hn hp _ hentry hmove hdata hcyl =>
    refine save hp hmove (hwrites p hp hmove) hblock (.out n page status hn ?_ ?_)
    · rw [hcyl, hentry]
    · rw [hdata]
  | bring p v hp hholds hlt _ hunused hmove hdata hcyl =>
    obtain ⟨hop, hhead, hsector⟩ := moveTo_fields hp (.inl rfl)
    rw [← hmove] at hop hhead hsector
    refine fill hp (hram.trans (transfer_read hop hhead)) (hblock.trans (transfer_block ?_))
      (.bring v status hholds hlt hdata ?_)
    · rw [hop]
      decide
    · rw [hcyl, hsector]
      rfl

end Contained

/-- The next step of such a run, when its event keeps to the same conditions. -/
theorem data_contained (hK : Roomy K) (hrun : Sys.Reaches (kaya K junk) Sys.Booted h s)
    (hfair : ∀ x ∈ h, x.1.Fair x.2) {e : Event Word} (hcan : s.Can e) (hnext : s.Fair e) :
    Contained K s (s.step (kaya K junk) e) e := by
  obtain ⟨job, turn, home, hinv, hh⟩ := Reaches.pageRun hK hrun hfair
  have hgrounds := Reaches.grounds hrun hh.ready
  have hsame : ∀ t : Sys Word, s.Leaves t s.memory → Contained K s t e := fun t ht =>
    .same (congrArg Prod.fst ht.memory) (congrArg Prod.snd ht.memory)
  cases e with
  | step r =>
    refine hsame _ ?_
    simp only [Sys.step]
    split
    · exact .self s
    · exact go_leaves ..
  | user u =>
    obtain ⟨p, hp, hmode, -⟩ := hcan
    have hg := hgrounds.resolve_left fun hhalt => by
      rw [hhalt.running] at hp
      exact Option.some_ne_none _ hp.symm
    have huser : s.InUser p := ⟨.inl (hg.locks.sane.running p hp), hmode⟩
    simp only [Sys.step, hp]
    rcases user_leaves (kaya K junk) s p u with heq | ⟨virtAddr, v, frame, rfl, hframe, hmem, -, -⟩
    · exact hsame _ heq
    obtain ⟨hpresent, hhome⟩ :=
      hinv.reaches hK hg (Reaches.kUseg3 hrun) (.inr ⟨p, hp, hmode⟩) huser hframe
    obtain ⟨-, -, -, n, hn, rfl⟩ := hinv.ledger.resident _ _ hhome
    exact .fill (hg.inUser huser) (congrArg Prod.fst hmem) (congrArg Prod.snd hmem)
      (.store virtAddr v n hp hn rfl (hinv.keeps_of hn hpresent hhome) rfl)
  | diskInt status =>
    obtain ⟨hbusy, hopen⟩ := hcan
    have hg := hgrounds.resolve_left hopen.1
    obtain ⟨command, hcommand⟩ := Option.ne_none_iff_exists'.mp hbusy
    have hready : status &&& STATUSMASK = READY := hnext
    obtain ⟨hmem, -, -⟩ := diskInt_leaves s hcommand status
    rw [if_pos hready] at hmem
    have hunder := hinv.underway hg (hg.test_out (Reaches.ownDevices hrun)) hcommand
    exact .transferred hunder (congrArg Prod.fst hmem) (congrArg Prod.snd hmem)
  | tapeDma asid block => exact .fill hnext rfl rfl (.tape rfl)
  | devInt i status => exact hsame _ ((Leaves.self s).signal ..)
  | dispatch p => exact hsame _ ⟨rfl, .same, [], rfl, by simp⟩
  | tlbDrop p page => exact hsame _ (.cached (.drop p page))

theorem data_contained_store : Contained .sample paged.2
    (paged.2.step (kaya .sample 0) (.user (.store 0x80000000 8))) (.user (.store 0x80000000 8)) :=
  data_contained ⟨by decide, by decide⟩ paged_run.1 paged_run.2 (can_of_canNow (by decide +kernel))
    (fairNow_iff.mp (by decide))

/-! ## The shared segment -/

/-- Nobody gets at a page of kUseg3. -/
structure SharedUnmapped (s : Sys Word) : Prop where
  unreached : ∀ p virtAddr : Word, virtAddr >>> 30 = 3 → s.frameAt p virtAddr = none
  loaded : ∀ p virtAddr v : Word, .loaded p virtAddr v ∈ s.trace → virtAddr >>> 30 ≠ 3
  stored : ∀ p virtAddr v : Word, .stored p virtAddr v ∈ s.trace → virtAddr >>> 30 ≠ 3

namespace Sys

def NoShared (tlb : Word → Word → Option Word) : Prop :=
  ∀ p page e : Word, page >>> 18 = 3 → tlb p page = some e → ¬ Valid e

variable {p page e virtAddr : Word} {tlb : Word → Word → Option Word}

theorem NoShared.update (h : NoShared tlb) {o : Option Word} (p page : Word)
    (ho : page >>> 18 = 3 → ∀ e, o = some e → ¬ Valid e) :
    NoShared (Function.update tlb p (Function.update (tlb p) page o)) := by
  intro q page' e hpage he
  by_cases hq : q = p
  swap
  · rw [Function.update_of_ne hq] at he
    exact h q page' e hpage he
  rw [hq, Function.update_self] at he
  by_cases hsame : page' = page
  · rw [hsame, Function.update_self] at he
    exact ho (hsame ▸ hpage) e he
  · rw [Function.update_of_ne hsame] at he
    exact h p page' e hpage he

theorem NoShared.entry (h : NoShared s.tlb) (ht : s.tables.kUseg3 = Tables.init.kUseg3)
    (hpage : page >>> 18 = 3) (he : s.entry p page = some e) : ¬ Valid e := by
  unfold Sys.entry at he
  cases hcached : s.tlb p page with
  | some e' =>
    rw [hcached] at he
    exact Option.some.inj he ▸ h p page e' hpage hcached
  | none =>
    rw [hcached] at he
    exact pte_kUseg3 ht hpage he

theorem Caches.noShared (hc : s.Caches tlb) (h : NoShared s.tlb)
    (ht : s.tables.kUseg3 = Tables.init.kUseg3) : NoShared tlb := by
  cases hc with
  | same => exact h
  | empty => exact fun p page e _ he => absurd he.symm (Option.some_ne_none e)
  | @found p page e he =>
    refine h.update p page fun hpage e' heq => ?_
    exact Option.some.inj heq ▸ h.entry ht hpage he
  | drop p page => exact h.update p page fun _ e heq => absurd heq.symm (Option.some_ne_none e)

theorem NoShared.frameAt (h : NoShared s.tlb) (ht : s.tables.kUseg3 = Tables.init.kUseg3)
    (hseg : virtAddr >>> 30 = 3) (p : Word) : s.frameAt p virtAddr = none := by
  rw [← segment_of_page] at hseg
  unfold Sys.frameAt
  cases he : s.entry p (virtAddr >>> 12) with
  | none => rfl
  | some e => exact if_neg (h.entry ht hseg he)

theorem step_leaves (S : Setup Word) (s : Sys Word) {ev : Event Word}
    (hev : ∀ status, ev ≠ .diskInt status) : ∃ m, s.Leaves (s.step S ev) m := by
  cases ev with
  | step r =>
    simp only [Sys.step]
    split
    · exact ⟨_, .self s⟩
    · exact ⟨_, go_leaves ..⟩
  | user u =>
    simp only [Sys.step]
    split
    · exact ⟨_, .self s⟩
    · rename_i p _
      rcases user_leaves S s p u with h | ⟨_, _, _, _, _, h⟩
      · exact ⟨_, h⟩
      · exact ⟨_, h⟩
  | diskInt status => exact absurd rfl (hev status)
  | devInt i status => exact ⟨_, (Leaves.self s).signal ..⟩
  | tlbDrop p page => exact ⟨_, .cached (.drop p page)⟩
  | dispatch | tapeDma => exact ⟨_, rfl, .same, [], rfl, by simp⟩

def OutOfShared : Obs Word → Prop
  | .loaded _ virtAddr _ | .stored _ virtAddr _ => virtAddr >>> 30 ≠ 3
  | _ => True

theorem Leaves.noShared {t : Sys Word} {m : (Word → Page) × (Word → Word → Word → Page)}
    (hleaves : s.Leaves t m) (h : NoShared s.tlb) (ht : s.tables.kUseg3 = Tables.init.kUseg3)
    (hseen : ∀ o ∈ s.trace, OutOfShared o) :
    NoShared t.tlb ∧ ∀ o ∈ t.trace, OutOfShared o := by
  obtain ⟨l, htrace, hreached⟩ := hleaves.reached
  refine ⟨hleaves.caches.noShared h ht, fun o ho => ?_⟩
  rw [htrace] at ho
  rcases List.mem_append.mp ho with hnew | hold
  · have hframe := hreached o hnew
    cases o with
    | loaded p virtAddr v | stored p virtAddr v => exact fun hseg => hframe (h.frameAt ht hseg p)
    | _ => exact trivial
  · exact hseen o hold

theorem Reaches.noShared (hrun : Sys.Reaches (kaya K junk) Sys.Booted h s) :
    NoShared s.tlb ∧ ∀ o ∈ s.trace, OutOfShared o := by
  induction hrun with
  | start hs =>
    refine ⟨fun p page e _ he => ?_, fun o ho => ?_⟩
    · rw [hs.tlb] at he
      exact absurd he.symm (Option.some_ne_none e)
    · rw [hs.trace] at ho
      exact absurd ho List.not_mem_nil
  | @next h s e hrun hcan ih =>
    have ht := Reaches.kUseg3 hrun
    by_cases hdisk : ∃ status, e = .diskInt status
    · obtain ⟨status, rfl⟩ := hdisk
      obtain ⟨command, hbusy⟩ := Option.ne_none_iff_exists'.mp hcan.1
      refine (diskInt_leaves s hbusy status).noShared ih.1 ht ?_
      rw [List.forall_mem_cons]
      exact ⟨trivial, ih.2⟩
    · obtain ⟨m, hleaves⟩ := step_leaves (kaya K junk) s fun status heq => hdisk ⟨status, heq⟩
      exact hleaves.noShared ih.1 ht ih.2

end Sys

/-- In every run, whatever the disk and the tapes answer. -/
theorem kUseg3_unmapped (hrun : Sys.Reaches (kaya K junk) Sys.Booted h s) : SharedUnmapped s := by
  obtain ⟨htlb, hseen⟩ := Reaches.noShared hrun
  exact ⟨fun p virtAddr hseg => htlb.frameAt (Reaches.kUseg3 hrun) hseg p,
    fun p virtAddr v hv => hseen _ hv, fun p virtAddr v hv => hseen _ hv⟩

/-- Process 1 loads from kUseg3, its fault is served, and it loads again. -/
def sharedLoads : List (Event Word) :=
  toUser ++ .user (.load 0xC0000000) :: List.replicate 11 (.step 0) ++ answered READY ++
    List.replicate 5 (.step 0) ++ answered READY ++ List.replicate 13 (.step 0) ++
    [.user (.load 0xC0000000)]

theorem kUseg3_unmapped_fault : SharedUnmapped (runOf sharedLoads) := by
  obtain ⟨h, hrun⟩ := runOf_reaches sharedLoads (by decide +kernel)
  exact kUseg3_unmapped hrun

end Kaya.Phase3
