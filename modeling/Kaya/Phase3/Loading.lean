import Kaya.Phase3.Proofs.TapeInv

/-!
# The program of a process

`tapeToDisk` copies the tape of a process to the part of disk 0 that backs its pages.  Whatever the
other processes do meanwhile, the blocks get there in order, and the process finds them in its
pages.
-/

namespace Kaya.Phase3

open Lib Lib.Program

def tapeBuffer (p : Word) : Word := TAPEDMABUFFER + (p - 1) * PAGESIZE

def Act.OnTape (p : Word) : Act → Prop
  | .waitio l d u => Phase3.OnTape p l d u
  | _ => False

def Act.asksTape (p : Word) : Act → Bool
  | .waitio l d u => Phase3.OnTape p l d u
  | _ => false

theorem Act.asksTape_iff {p : Word} {a : Act} : a.asksTape p = true ↔ a.OnTape p := by
  cases a with
  | waitio l d u => exact decide_eq_true_iff
  | _ => exact iff_of_false Bool.false_ne_true id

instance (p : Word) : DecidablePred (Act.OnTape p) := fun _ => decidable_of_iff _ Act.asksTape_iff

/-- How often the tape of `p` answered `READY`. -/
def blocksRead (p : Word) (log : List (Did Word Act Word View)) : Nat :=
  log.countP fun d => d.p = p ∧ d.a.OnTape p ∧ d.r = READY

/-- The blocks that the tape of `p` delivered in a run, the newest first: whatever was in the buffer
when `p` got `READY`. -/
def delivered (S : Setup Word) (p : Word) : List (Sys Word × Event Word) → List Page
  | [] => []
  | (s, e) :: h =>
      if blocksRead p (s.step S e).log = blocksRead p s.log then delivered S p h
      else s.ram (tapeBuffer p) :: delivered S p h

/-- The store with the blocks on it, the oldest first. -/
def written (store : Word → Page) : List Page → Word → Page
  | [] => store
  | block :: blocks =>
      Function.update (written store blocks) (BitVec.ofNat 32 blocks.length &&& 0xFFFF) block

/-- What the register of its tape showed to `p` last. -/
def shown (p : Word) : List (Did Word Act Word View) → Option Word
  | [] => none
  | d :: log =>
      match d.a with
      | .getData1 reg =>
          if d.p = p ∧ reg = getDeviceReg TAPEINT (p - 1) then some d.r else shown p log
      | _ => shown p log

def Task.awaitsTape (t : Task) (p : Word) : Bool :=
  match t.prog with
  | .act a _ => a.asksTape p
  | _ => false

/-- A tape writes to its buffer only while the process that asked for the block waits for it. -/
def Sys.timely (s : Sys Word) : Event Word → Bool
  | .tapeDma p _ => (s.task p).awaitsTape p
  | _ => true

theorem Task.awaitsTape_act {t : Task} {p : Word} (h : t.awaitsTape p = true) :
    ∃ a k, t.prog = .act a k ∧ a.OnTape p := by
  unfold awaitsTape at h
  split at h
  · rename_i a k hprog
    exact ⟨a, k, hprog, Act.asksTape_iff.mp h⟩
  · exact absurd h Bool.false_ne_true

/-- In a state with history `h` of a run from `s₀`, where `tapeToDisk` of `p` has just returned. -/
structure TapeCopied (S : Setup Word) (s₀ : Sys Word) (h : List (Sys Word × Event Word))
    (s : Sys Word) (p : Word) : Prop where
  pages : ∀ c, s.backing (p, c) = written (fun c => s₀.backing (p, c)) (delivered S p h) c
  /-- Block `i` of a tape that has no more blocks than the disk has cylinders is page `i`. -/
  block : ∀ i block, (delivered S p h).length ≤ 0x10000 →
    (delivered S p h).reverse[i]? = some block → s.backing (p, BitVec.ofNat 32 i) = block
  /-- All of the tape was read. -/
  ended : shown p s.log = some EOT ∨ shown p s.log = some EOF

/-- With the observations `tr` before it, the word `v` at an address is what the program of `p`
stored there last, or else what its tape had for it. -/
def ReadsProgram (S : Setup Word) (s₀ : Sys Word) (h : List (Sys Word × Event Word))
    (p virtAddr v : Word) (tr : List (Obs Word)) : Prop :=
  ∃ h₂ x h₁, h = h₂ ++ x :: h₁ ∧ TapeCopied S s₀ h₁ x.1 p ∧
    v = (lastStored p virtAddr tr).getD
      (written (fun c => s₀.backing (p, c)) (delivered S p h₁) (Sys.pageIndex virtAddr)
        (virtAddr &&& 0xFFF))

/-- Whoever loads a word of a page finds the program of the process there. -/
structure ProgramKept (S : Setup Word) (s₀ : Sys Word) (h : List (Sys Word × Event Word))
    (s : Sys Word) : Prop where
  loaded : ∀ p virtAddr v tr, .loaded p virtAddr v :: tr <:+ s.trace →
    ReadsProgram S s₀ h p virtAddr v tr
  /-- The code of phase 3 that gets its arguments. -/
  got : ∀ p virtAddr v x tr, .did ⟨p, .load virtAddr, v, x⟩ :: tr <:+ s.trace →
    ReadsProgram S s₀ h p virtAddr v tr

namespace Sys

variable {K : Layout} {junk : Word} {S : Setup Word} {job : Word → Job} {turn : Turn}
  {home : Word × Word → Option Word} {s t s₀ : Sys Word} {p q w r command : Word} {a : Act}
  {d : Did Word Act Word View} {log l : List (Did Word Act Word View)} {e : Event Word}
  {h : List (Sys Word × Event Word)} {store : Word → Page} {blocks : List Page} {round : Round}

/-! ## Logs -/

theorem blocksRead_append (l log : List (Did Word Act Word View)) :
    blocksRead p (l ++ log) = blocksRead p l + blocksRead p log := List.countP_append

theorem blocksRead_others (hl : ∀ d ∈ l, d.p ≠ p) : blocksRead p l = 0 := by
  refine List.countP_eq_zero.mpr fun d hd => ?_
  simp [hl d hd]

theorem blocksRead_entry {l₁ l₂ : List (Did Word Act Word View)} (h₁ : ∀ e ∈ l₁, e.p ≠ d.p)
    (h₂ : ∀ e ∈ l₂, e.p ≠ d.p) : blocksRead d.p (l₁ ++ d :: l₂ ++ log) =
      (if d.a.OnTape d.p ∧ d.r = READY then 1 else 0) + blocksRead d.p log := by
  have hone : blocksRead d.p (d :: l₂) =
      blocksRead d.p l₂ + if d.a.OnTape d.p ∧ d.r = READY then 1 else 0 := by
    refine List.countP_cons.trans (congrArg _ ?_)
    simp
  rw [blocksRead_append, blocksRead_append, hone, blocksRead_others h₁, blocksRead_others h₂]
  omega

/-- Whoever found the end of its tape had been shown it. -/
theorem shown_of_ended {n : Nat} (hend : (copying log p).2 = .head n true) :
    shown p log = some EOT ∨ shown p log = some EOF := by
  induction log generalizing n with
  | nil => exact Round.noConfusion hend
  | cons d log ih =>
    by_cases hp : d.p = p
    swap
    · have hsame : copying (d :: log) p = copying log p := ghost_cons_of_ne hp
      have hshown : shown p (d :: log) = shown p log := by
        rw [shown]
        split
        · exact if_neg fun h => hp h.1
        · rfl
      rw [hsame] at hend
      rw [hshown]
      exact ih hend
    have hnext : (copying (d :: log) p).2 =
        (copying log p).2.next p (copying log p).1 d.r d.a :=
      congrArg Prod.snd (ghost_cons_self hp)
    rw [hnext] at hend
    generalize (copying log p).2 = round at hend ih
    generalize (copying log p).1 = g at hend
    rw [shown]
    cases hact : d.a with
    | getENTRYHI =>
      rw [hact] at hend
      cases round with
      | start => exact Bool.noConfusion (Round.head.inj hend).2
      | _ => exact Round.noConfusion hend
    | getData1 reg =>
      rw [hact] at hend
      cases round with
      | head m b =>
        simp only [Round.next] at hend ⊢
        by_cases hreg : reg = getDeviceReg TAPEINT (p - 1)
        · rw [if_pos hreg] at hend
          rw [if_pos ⟨hp, hreg⟩]
          exact (of_decide_eq_true (Round.head.inj hend).2).imp (congrArg some) (congrArg some)
        · rw [if_neg hreg] at hend
          rw [if_neg fun h => hreg h.2]
          exact ih hend
      | _ => exact Round.noConfusion hend
    | waitio l u v =>
      rw [hact] at hend
      cases round with
      | head m b =>
        simp only [Round.next] at hend
        split_ifs at hend
      | full m =>
        cases g with
        | moving w =>
          simp only [Round.next] at hend
          split_ifs at hend
          exact Bool.noConfusion (Round.head.inj hend).2
        | _ => exact Round.noConfusion hend
      | _ => exact Round.noConfusion hend
    | _ =>
      rw [hact] at hend
      exact ih hend

/-! ## One process -/

/-- Where the blocks are that came from the tape of `p`. -/
def Copied (store : Word → Page) (blocks : List Page) (s : Sys Word) (p : Word) : Round → Prop
  | .start => blocks = [] ∧ ∀ c, s.backing (p, c) = store c
  | .head n _ => blocks.length = n ∧ ∀ c, s.backing (p, c) = written store blocks c
  | .full n => ∃ rest, blocks = s.ram (tapeBuffer p) :: rest ∧ rest.length = n ∧
      ∀ c, s.backing (p, c) = written store rest c
  | .failed | .done => True

def Uses (s : Sys Word) (l : List (Did Word Act Word View)) (p : Word) : Prop :=
  (∃ d ∈ l, d.p = p) ∨ ∀ a k, (s.task p).prog = .act a k → ¬ a.OnTape p

/-- What a step that logs `l` does to the blocks of `p`. -/
structure Carries (s t : Sys Word) (l : List (Did Word Act Word View)) (p : Word) : Prop where
  buffer : Uses s l p → t.ram (tapeBuffer p) = s.ram (tapeBuffer p)
  still : (∀ d ∈ l, d.p ≠ p) ∨ (∀ w, stage s.log p ≠ .moving w) →
    ∀ c, t.backing (p, c) = s.backing (p, c)
  moved : ∀ d ∈ l, d.p = p → ∀ w, stage s.log p = .moving w → d.a.OnDisk ∧ d.r = READY ∧
    ∀ c, t.backing (p, c) = if c = cylOf w then s.ram (tapeBuffer p) else s.backing (p, c)

theorem OnTape.not_onDisk (hp : p < 64) (ha : a.OnTape p) : ¬ a.OnDisk := by
  cases a with
  | waitio l d u =>
    obtain ⟨rfl, rfl, rfl⟩ := ha
    exact tape_foreign hp
  | _ => exact id

/-- A cylinder has 16 bits. -/
theorem cylOf_seekTo_eq (v : Word) : cylOf (seekTo v) = v &&& 0xFFFF := by
  have hmask : (0xFFFF : Word).toNat = 2 ^ 16 - 1 := rfl
  have hseek : SEEKCYL >>> 8 = 0#32 := rfl
  rw [cylOf, seekTo, BitVec.ushiftRight_or_distrib, hseek]
  apply BitVec.eq_of_toNat_eq
  rw [BitVec.or_zero, BitVec.toNat_and, BitVec.toNat_and, hmask, Nat.and_two_pow_sub_one_eq_mod,
    Nat.and_two_pow_sub_one_eq_mod, BitVec.toNat_ushiftRight, BitVec.toNat_shiftLeft,
    Nat.shiftLeft_eq, Nat.shiftRight_eq_div_pow]
  omega

theorem head_not_onDisk {g : Stage} {n : Nat} {b : Bool} (hp : p < 64)
    (hmay : (tapeRules p).may (g, .head n b) a) : ¬ a.OnDisk := by
  cases a with
  | waitio l d u => exact OnTape.not_onDisk (a := .waitio l d u) hp hmay
  | _ => exact id

theorem full_not_onTape {g : Stage} {n : Nat} (hp : p < 64)
    (hmay : (tapeRules p).may (g, .full n) a) : ¬ a.OnTape p := by
  cases a with
  | waitio l d u => exact fun ha => OnTape.not_onDisk (a := .waitio l d u) hp ha hmay.1
  | _ => exact id

theorem Carries.rests {g : Stage} (h : Carries s t l p) (hp : p < 64) (hl : ∀ d ∈ l, d.p ≠ p)
    (hcopy : round ≠ .start → Copying p (g, round) (s.task p))
    (hc : Copied store blocks s p round) : Copied store blocks t p round := by
  have hstill := h.still (.inl hl)
  cases round with
  | start => exact ⟨hc.1, fun c => (hstill c).trans (hc.2 c)⟩
  | head n b => exact ⟨hc.1, fun c => (hstill c).trans (hc.2 c)⟩
  | full n =>
    obtain ⟨rest, hblocks, hlen, hback⟩ := hc
    have hram : t.ram (tapeBuffer p) = s.ram (tapeBuffer p) := by
      -- who has a block in the buffer does not wait for another one
      refine h.buffer (.inr fun a k hprog ha => ?_)
      rcases (hcopy nofun).may hprog nofun nofun with rfl | hmay
      · exact ha
      · exact full_not_onTape hp hmay ha
    exact ⟨rest, hram ▸ hblocks, hlen, fun c => (hstill c).trans (hback c)⟩
  | failed => exact trivial
  | done => exact trivial

theorem Carries.answer {k : Word → Prog} {v : View} (h : Carries s t l p) (hp : p < 64)
    (hd : ⟨p, a, r, v⟩ ∈ l) (hprog : (s.task p).prog = .act a k)
    (hcopy : Copying p (stage s.log p, round) (s.task p)) (hc : Copied store blocks s p round) :
    Copied store (if a.OnTape p ∧ r = READY then s.ram (tapeBuffer p) :: blocks else blocks) t p
      (round.next p (stage s.log p) r a) := by
  have hram := h.buffer (.inl ⟨_, hd, rfl⟩)
  have hmoved := h.moved _ hd rfl
  have hstill : ¬ a.OnDisk → ∀ c, t.backing (p, c) = s.backing (p, c) := fun ha =>
    h.still (.inr fun w hw => ha (hmoved w hw).1)
  cases round with
  | start =>
    obtain rfl := hcopy.at_start hprog rfl
    obtain ⟨rfl, hback⟩ := hc
    exact ⟨rfl, fun c => (hstill id c).trans (hback c)⟩
  | head n b =>
    obtain ⟨hlen, hback⟩ := hc
    rcases hcopy.may hprog nofun nofun with rfl | hmay
    · exact trivial
    have hsame := fun c => (hstill (head_not_onDisk hp hmay) c).trans (hback c)
    cases a with
    | waitio l d u =>
      by_cases hready : r = READY
      · subst hready
        rw [if_pos ⟨hmay, rfl⟩, Round.next_read _ _ _ hmay]
        exact ⟨blocks, by rw [hram], hlen, hsame⟩
      · rw [Round.next_failed hready]
        exact trivial
    | getData1 reg =>
      rw [if_neg fun hon => hon.1]
      obtain ⟨b', hb'⟩ := Round.next_asked p (stage s.log p) r n b reg
      rw [hb']
      exact ⟨hlen, hsame⟩
    | getENTRYHI => exact hmay.elim
    | _ =>
      rw [if_neg fun hon => hon.1]
      exact ⟨hlen, hsame⟩
  | full n =>
    obtain ⟨rest, rfl, hlen, hback⟩ := hc
    rcases hcopy.may hprog nofun nofun with rfl | hmay
    · exact trivial
    rw [if_neg fun hon => full_not_onTape hp hmay hon.1]
    have hkept : (∀ w, stage s.log p ≠ .moving w) →
        Copied store (s.ram (tapeBuffer p) :: rest) t p (.full n) := fun hnot =>
      ⟨rest, by rw [hram], hlen, fun c => (h.still (.inr hnot) c).trans (hback c)⟩
    cases a with
    | waitio l d u =>
      cases hg : stage s.log p with
      | moving w =>
        -- the block is where the heads were sent for it
        obtain rfl := hmay.2 w hg
        obtain ⟨-, rfl, hback'⟩ := hmoved _ hg
        refine ⟨congrArg Nat.succ hlen, fun c => ?_⟩
        rw [hback', hback, cylOf_seekTo_eq, written, Function.update_apply, hlen]
      | _ => exact hkept fun w hw => Stage.noConfusion (hg.symm.trans hw)
    | getENTRYHI => exact hmay.elim
    | _ => exact hkept fun w hw => (hmoved w hw).1
  | failed => cases a <;> exact trivial
  | done =>
    rw [Copying.done_next]
    exact trivial

/-! ## One step -/

theorem tapeBuffer_inj (hp : IsUProc p) (hq : IsUProc q) (h : tapeBuffer p = tapeBuffer q) :
    p = q := by
  rcases hp.cases with rfl | rfl <;> rcases hq.cases with rfl | rfl <;>
    first | rfl | exact absurd h (by decide)

/-- While a block moves only its end is awaited. -/
theorem onDisk_of_moving {w : Word} (h : diskRules.may (.moving w) a) : a.OnDisk := by
  cases a with
  | waitio l d u =>
    by_contra hon
    have hon : ¬ OnDisk0 l d u := hon
    have h : if OnDisk0 l d u then (Stage.moving w).Busy else (Stage.moving w).Quiet := h
    rw [if_neg hon] at h
    rcases h with h | h <;> exact Stage.noConfusion h
  | _ => simp [diskRules, Stage.Quiet, Stage.Busy] at h

/-- A tape that is awaited does not write to the buffer of one that is not. -/
theorem Uses.buffer_ne (h : Uses s [] p) (hp : IsUProc p) (hq : IsUProc q)
    (hawaits : (s.task q).awaitsTape q = true) : tapeBuffer p ≠ tapeBuffer q := by
  intro hbuffer
  obtain rfl := tapeBuffer_inj hp hq hbuffer
  obtain ⟨a, k, hprog, ha⟩ := Task.awaitsTape_act hawaits
  rcases h with ⟨d, hd, -⟩ | hnot
  · exact absurd hd List.not_mem_nil
  · exact hnot a k hprog ha

/-- A process that waits for its block does not get the answer from a step that ends no command. -/
theorem Leaves.not_moving {m : (Word → Page) × (Word → Word → Word → Page)} {w : Word}
    (hleaves : s.Leaves t m) (hfits : s.DiskInv) (hown : OwnStatus t.trace)
    (hlog : t.log = l ++ s.log) (hd : d ∈ l) (hmay : diskRules.may (stage s.log d.p) d.a) :
    stage s.log d.p ≠ .moving w := by
  intro hmoving
  rw [hmoving] at hmay
  have hon := onDisk_of_moving hmay
  obtain ⟨tr, htrace, hreached⟩ := hleaves.reached
  have hl : l = tr.filterMap Obs.log := by
    refine List.append_cancel_right (hlog.symm.trans ?_)
    rw [log, htrace, List.filterMap_append]
    rfl
  obtain ⟨o, ho, heq⟩ := List.mem_filterMap.mp (hl ▸ hd)
  obtain rfl : o = .did d := by
    cases o with
    | did d' => exact congrArg _ (Option.some.inj heq)
    | _ => exact absurd heq.symm (Option.some_ne_none d)
  obtain ⟨tr₁, tr₂, rfl⟩ := List.append_of_mem ho
  rw [htrace, List.append_assoc] at hown
  obtain ⟨tr', htr', hpending⟩ := hown.suffix.1 hon
  cases tr₂ with
  | nil =>
    have hfit := hfits.fits d.p
    rw [hmoving] at hfit
    obtain ⟨v, hruns⟩ := hfit
    have hasked := hruns.pending
    rw [show s.trace = _ from htr'] at hasked
    exact Option.some_ne_none _ hasked.symm
  | cons o tr₂ =>
    obtain ⟨rfl, -⟩ := List.cons.inj htr'
    exact hreached (.done d.r) (by simp)

theorem Leaves.carries {m : (Word → Page) × (Word → Word → Word → Page)} (hleaves : s.Leaves t m)
    (hdisk : m.2 = s.disk.block) (hfits : s.DiskInv) (hown : OwnStatus t.trace)
    (hlog : t.log = l ++ s.log) (hmay : ∀ d ∈ l, d.p = p → diskRules.may (stage s.log p) d.a)
    (hbuffer : Uses s l p → m.1 (tapeBuffer p) = s.ram (tapeBuffer p)) : Carries s t l p where
  buffer h := (congrFun (congrArg Prod.fst hleaves.memory) _).trans (hbuffer h)
  still _ c := congrFun (backing_congr ((congrArg Prod.snd hleaves.memory).trans hdisk)) (p, c)
  moved d hd hdp w hw := by
    subst hdp
    exact absurd hw (hleaves.not_moving hfits hown hlog hd (hmay d hd rfl))

/-- A block of the part of `p` of the backing store is written. -/
theorem transfer_moveTo (hp : IsUProc p) : (s.transfer (moveTo (p - 1) WRITEBLK)).ram = s.ram ∧
    ∀ y, (s.transfer (moveTo (p - 1) WRITEBLK)).backing y =
      if y.2 = s.disk.cyl ∧ y.1 = p then s.ram s.disk.data0 else s.backing y := by
  obtain ⟨hop, hhead, hsector⟩ := moveTo_fields hp (.inr rfl)
  refine ⟨transfer_ram (by rw [hop]; decide), fun y => ?_⟩
  simp only [transfer_write hop hhead, hsector, BitVec.sub_left_inj]

/-- The only process in a call of `diskIO` gets the answer. -/
theorem Grounds.completes (hg : s.Grounds) {status : Word} (hready : status &&& STATUSMASK = READY)
    (hbusy : s.disk.busy = some command) (hopen : s.Open) :
    ∃ q l d n v, OnDisk0 l d n ∧
      (s.diskInt status).log = ⟨q, .waitio l d n, READY, v⟩ :: s.log ∧
        ∀ r, stage s.log r ≠ .out → r = q := by
  obtain ⟨q, hb, -, hline⟩ := hg.fits.runs hbusy hopen
  obtain ⟨-, l, d, n, k, hprog, hl, hindex⟩ :=
    hg.disk.sane.dev 0 q (hline ▸ List.mem_singleton_self q)
  have hout : stage s.log q ≠ .out := by
    intro hout
    rw [hout] at hb
    exact hb
  obtain ⟨htask, -, -, -, hdev, -, htrace⟩ := s.transfer_same command
  have hentry : ∃ v, (s.diskInt status).log = ⟨q, .waitio l d n, READY, v⟩ :: s.log := by
    unfold Sys.diskInt
    simp only [hbusy, hready, if_true]
    unfold Sys.signal
    simp only [hdev, htrace, hline, hready]
    exact ⟨_, answer_log (by rw [htask]; exact hprog)⟩
  obtain ⟨v, hentry⟩ := hentry
  refine ⟨q, l, d, n, v, ⟨hl, hindex⟩, hentry, fun r hr => ?_⟩
  by_contra hrq
  exact hr (hg.mutex.others hg.disk hout r hrq)

theorem PageInv.carries (hinv : PageInv K job turn home s) (hK : Roomy K) (hg : s.Grounds)
    (htest : stage s.log 0 = .out) (hp : IsUProc p) (hlives : ¬ (job p).Lives) {status : Word}
    (hready : status &&& STATUSMASK = READY) (hbusy : s.disk.busy ≠ none) (hopen : s.Open)
    (hlog : (s.diskInt status).log = l ++ s.log) : Carries s (s.diskInt status) l p := by
  obtain ⟨command, hcommand⟩ := Option.ne_none_iff_exists'.mp hbusy
  obtain ⟨q, l', d, n, v, hon, hentry, honly⟩ := hg.completes hready hcommand hopen
  obtain rfl : l = [⟨q, .waitio l' d n, READY, v⟩] :=
    List.append_cancel_right (hlog.symm.trans hentry)
  obtain ⟨hmem, -, -⟩ := diskInt_leaves s hcommand status
  rw [if_pos hready] at hmem
  have hram : (s.diskInt status).ram = (s.transfer command).ram := congrArg Prod.fst hmem
  have hback : (s.diskInt status).backing = (s.transfer command).backing :=
    backing_congr (congrArg Prod.snd hmem)
  refine ⟨fun _ => ?_, fun hrests c => ?_, fun d hd hdp w hw => ?_⟩
  · rw [hram]
    cases hinv.underway hg htest hcommand with
    | seeks hread _ => rw [transfer_ram hread]
    | tape r w hr _ hmove => rw [hmove, (transfer_moveTo hr).1]
    | out n r v page _ hr _ _ hmove => rw [hmove, (transfer_moveTo hr).1]
    | bring r v hr _ _ hn _ hmove hdata =>
      obtain ⟨hop, hhead, -⟩ := moveTo_fields hr (.inl rfl)
      rw [hmove, transfer_read hop hhead, hdata]
      exact Function.update_of_ne (frameAddr_ne hK hn hp).symm ..
  · rw [hback]
    cases hinv.underway hg htest hcommand with
    | seeks _ hwrite => rw [backing_congr (transfer_block hwrite)]
    | tape r w hr hmoving hmove =>
      rw [hmove, (transfer_moveTo hr).2, if_neg]
      rintro ⟨-, rfl⟩
      obtain rfl := honly p (by rw [hmoving]; exact Stage.noConfusion)
      rcases hrests with hother | hnot
      · exact hother _ List.mem_cons_self rfl
      · exact hnot w hmoving
    | out n r v page _ hr hhome _ hmove =>
      rw [hmove, (transfer_moveTo hr).2, if_neg]
      rintro ⟨-, rfl⟩
      exact hlives (hinv.ledger.resident _ _ hhome).1
    | bring r v hr _ _ _ _ hmove =>
      obtain ⟨hop, -, -⟩ := moveTo_fields hr (.inl rfl)
      rw [hmove, backing_congr (transfer_block (by rw [hop]; decide))]
  · obtain rfl := List.mem_singleton.mp hd
    refine ⟨hon, rfl, fun c => ?_⟩
    have hregs := (hinv.own p hp).disk
    rw [hw] at hregs
    obtain ⟨cyl, sector, buf, op, hmoves, -, hdata, hmove, hcyl⟩ := hregs
    obtain rfl : moveTo sector op = command := Option.some.inj (hmove.symm.trans hcommand)
    generalize hj : job p = j at hmoves
    rw [hj] at hlives
    cases hmoves with
    | tape =>
      rw [hback, (transfer_moveTo hp).2, hdata, hcyl]
      exact if_congr (and_iff_left rfl) rfl rfl
    | out | bring => exact (hlives Phase.noConfusion).elim

/-- Whatever happens while the pages of `p` are not in use yet. -/
theorem Reaches.carries (hK : Roomy K) (hrun : Sys.Reaches (kaya K junk) Sys.Booted h s)
    (hinv : PageInv K job turn home s) (hg : s.Grounds) (hcan : s.Can e) (hfair : s.Fair e)
    (htimely : s.timely e) (hp : IsUProc p) (hlives : ¬ (job p).Lives)
    (hlog : (s.step (kaya K junk) e).log = l ++ s.log)
    (hmay : ∀ d ∈ l, d.p = p → diskRules.may (stage s.log p) d.a) :
    Carries s (s.step (kaya K junk) e) l p := by
  have hown := (Reaches.kaya_disk (hrun.next hcan)).1.own
  have hsame : s.Leaves (s.step (kaya K junk) e) s.memory →
      Carries s (s.step (kaya K junk) e) l p := fun hleaves =>
    hleaves.carries rfl hg.fits hown hlog hmay fun _ => rfl
  cases e with
  | step r =>
    refine hsame ?_
    simp only [Sys.step]
    split
    · exact .self s
    · exact go_leaves ..
  | user u =>
    obtain ⟨q, hq, hmode, -⟩ := hcan
    have huser : s.InUser q := ⟨.inl (hg.locks.sane.running q hq), hmode⟩
    have hstep : s.step (kaya K junk) (.user u) = s.user (kaya K junk) q u := by
      simp only [Sys.step, hq]
    rcases user_leaves (kaya K junk) s q u with hleaves | ⟨virtAddr, v, frame, rfl, hframe, hleaves⟩
    · exact hsame (hstep ▸ hleaves)
    rw [← hstep] at hleaves
    refine hleaves.carries rfl hg.fits hown hlog hmay fun _ => ?_
    obtain ⟨-, hhome⟩ :=
      hinv.reaches hK hg (Reaches.kUseg3 hrun) (.inr ⟨q, hq, hmode⟩) huser hframe
    obtain ⟨-, -, -, n, hn, rfl⟩ := hinv.ledger.resident _ _ hhome
    exact Function.update_of_ne (frameAddr_ne hK hn hp).symm ..
  | diskInt status =>
    have htest := hg.test_out (Reaches.ownDevices hrun)
    exact hinv.carries hK hg htest hp hlives hfair hcan.1 hcan.2 hlog
  | tapeDma q block =>
    have hleaves : s.Leaves (s.step (kaya K junk) (.tapeDma q block))
        (Function.update s.ram (tapeBuffer q) block, s.disk.block) := ⟨rfl, .same, [], rfl, by simp⟩
    obtain rfl : l = [] := List.self_eq_append_left.mp hlog
    refine hleaves.carries rfl hg.fits hown hlog hmay fun huses => ?_
    have hne := huses.buffer_ne hp hfair htimely
    change Function.update s.ram (tapeBuffer q) block (tapeBuffer p) = _
    rw [Function.update_of_ne hne]
  | devInt i status => exact hsame ((Leaves.self s).signal ..)
  | dispatch q => exact hsame ⟨rfl, .same, [], rfl, by simp⟩
  | tlbDrop q page => exact hsame (.cached (.drop q page))

/-! ## Runs -/

theorem Booted.reaches (hs₀ : s₀.Booted) (hrun : Sys.Reaches (kaya K junk) (· = s₀) h s) :
    Sys.Reaches (kaya K junk) Sys.Booted h s :=
  hrun.of_init fun _ heq => by rw [heq]; exact hs₀

theorem Course.not_dead {S : Setup Word} (hc : Course S s t l p) (hlife : t.life p ≠ .dead) :
    s.life p ≠ .dead := by
  cases hc with
  | rests _ _ hsame =>
    rcases hsame with heq | ⟨halive, -⟩ | hdead
    · exact heq ▸ hlife
    · exact halive.not_dead
    · exact absurd hdead hlife
  | goesOn _ _ halive => exact halive.not_dead
  | born _ _ hborn => exact hborn.trans_ne Life.noConfusion
  | traps hready | resumes hready | again hready => exact hready.trans_ne Life.noConfusion

/-- Who has its first vector does not copy any more. -/
theorem copying_done (l : List (Did Word Act Word View)) (h : (copying log p).2 = .done) :
    (copying (l ++ log) p).2 = .done := by
  induction l with
  | nil => exact h
  | cons d l ih =>
    by_cases hp : d.p = p
    · have hnext : (copying (d :: (l ++ log)) p).2 = _ := congrArg Prod.snd (ghost_cons_self hp)
      exact hnext.trans ((congrArg (Round.next p _ d.r · d.a) ih).trans (Copying.done_next _ d.a))
    · have hsame : copying (d :: (l ++ log)) p = copying (l ++ log) p := ghost_cons_of_ne hp
      exact (congrArg Prod.snd hsame).trans ih

theorem Course.copied (hc : Course (kaya K junk) s t l p) (hp : p < 64) (hlog : t.log = l ++ s.log)
    (hcarries : (Sys.copying s.log p).2 ≠ .done → Carries s t l p)
    (halive : (Sys.copying s.log p).2 ≠ .start → s.Alive p)
    (hcopy : s.Alive p → Copying p (Sys.copying s.log p) (s.task p))
    (h : Copied store blocks s p (Sys.copying s.log p).2) :
    Copied store
      (if blocksRead p t.log = blocksRead p s.log then blocks else s.ram (tapeBuffer p) :: blocks)
      t p (Sys.copying t.log p).2 := by
  by_cases hdone : (Sys.copying s.log p).2 = .done
  · rw [hlog, copying_done l hdone]
    exact trivial
  have hcarries := hcarries hdone
  have hrests : (∀ d ∈ l, d.p ≠ p) → Copied store
      (if blocksRead p t.log = blocksRead p s.log then blocks else s.ram (tapeBuffer p) :: blocks)
      t p (Sys.copying t.log p).2 := by
    intro hl
    have hsame : Sys.copying t.log p = Sys.copying s.log p := hlog ▸ ghost_append_of_ne hl
    have hread : blocksRead p t.log = blocksRead p s.log := by
      rw [hlog, blocksRead_append, blocksRead_others hl, Nat.zero_add]
    rw [hsame, if_pos hread]
    exact hcarries.rests hp hl (fun hstart => hcopy (halive hstart)) h
  cases hc with
  | rests hother | born _ _ _ _ hother => exact hrests hother
  | traps _ _ hnil | resumes _ _ hnil | again _ _ hnil => exact hrests (by simp [hnil])
  | @goesOn l₁ l₂ a k r v hs hprog hl h₁ h₂ =>
    have hnext : Sys.copying t.log p = (tapeRules p).next (Sys.copying s.log p) a r v := by
      rw [hlog, hl]
      exact ghost_append_entry (d := ⟨p, a, r, v⟩) h₁ h₂
    have hread : blocksRead p t.log =
        (if a.OnTape p ∧ r = READY then 1 else 0) + blocksRead p s.log := by
      rw [hlog, hl]
      exact blocksRead_entry (d := ⟨p, a, r, v⟩) h₁ h₂
    have hd : ⟨p, a, r, v⟩ ∈ l := hl ▸ List.mem_append_right _ List.mem_cons_self
    have hstage : Sys.copying s.log p = (stage s.log p, (Sys.copying s.log p).2) :=
      Prod.ext copying_stage rfl
    have hanswer := hcarries.answer hp hd hprog (hstage ▸ hcopy hs) h
    rw [hnext, hread]
    change Copied store _ t p ((Sys.copying s.log p).2.next p (Sys.copying s.log p).1 r a)
    rw [copying_stage]
    by_cases hone : a.OnTape p ∧ r = READY
    · rw [if_pos hone] at hanswer ⊢
      rw [if_neg (by omega)]
      exact hanswer
    · rw [if_neg hone] at hanswer ⊢
      rw [if_pos (Nat.zero_add _)]
      exact hanswer

/-- In a run from `s₀`, in every state in which the process has not ended. -/
theorem Reaches.copied (hK : Roomy K) (hs₀ : s₀.Booted)
    (hrun : Sys.Reaches (kaya K junk) (· = s₀) h s) (hfair : ∀ x ∈ h, x.1.Fair x.2)
    (htimely : ∀ x ∈ h, x.1.timely x.2) (hp : IsUProc p) (hlife : s.life p ≠ .dead) :
    Copied (fun c => s₀.backing (p, c)) (delivered (kaya K junk) p h) s p
      (Sys.copying s.log p).2 := by
  induction hrun with
  | start hs =>
    subst hs
    rw [hs₀.toFresh.log_eq]
    exact ⟨rfl, fun _ => rfl⟩
  | @next h s e hrun hcan ih =>
    rw [List.forall_mem_cons] at hfair htimely
    have hbooted := hs₀.reaches hrun
    have hnot : ¬ s.Halted := fun hhalt => hlife ((hhalt.step (S := kaya K junk) hcan).1.dead p)
    obtain ⟨job, turn, home, hinv, hh⟩ := Reaches.pageRun hK hbooted hfair.2
    have hg := (Reaches.grounds hbooted hh.ready).resolve_left hnot
    have hsane := ((Reaches.kaya_live hbooted).resolve_left hnot).sane
    obtain ⟨l, hlog, hcourse, -⟩ := hsane.courses (S := kaya K junk) hcan
    have hbefore := (hcourse p).not_dead hlife
    have hcopy := Reaches.copying hbooted hp
    have hborn : s.life p = .unborn → Sys.copying s.log p = (.out, .start) := fun hborn =>
      ghost_eq_of_forall_ne (hsane.unborn p hborn)
    have hstate : s.life p = .unborn ∨ s.Alive p := by
      cases hl : s.life p with
      | unborn => exact .inl rfl
      | ready => exact .inr (.inl hl)
      | blocked => exact .inr (.inr hl)
      | dead => exact absurd hl hbefore
    refine (hcourse p).copied hp.lt hlog (fun hdone => ?_) (fun hstart => ?_) hcopy
      (ih hfair.2 htimely.2 hbefore)
    · refine Reaches.carries hK hbooted hinv hg hcan hfair.1 htimely.1 hp ?_ hlog ?_
      · rcases hstate with hs | hs
        · rw [((hinv.own p hp).unborn hs).1]
          exact id
        · exact hinv.not_lives hp hs (hcopy hs) hdone
      · rintro d hd rfl
        obtain ⟨l₁, l₂, hl⟩ := List.append_of_mem hd
        obtain ⟨halive, ⟨k, hprog⟩, -⟩ := (hcourse d.p).entry hl
        exact hg.disk_may halive hprog
    · exact hstate.resolve_left fun hs => hstart (congrArg Prod.snd (hborn hs))

/-- Each block has a page of its own, as far as the cylinders go. -/
theorem written_block {i : Nat} {block : Page} (hlen : blocks.length ≤ 0x10000)
    (hi : blocks.reverse[i]? = some block) : written store blocks (BitVec.ofNat 32 i) = block := by
  have hmask : ∀ n < 0x10000, BitVec.ofNat 32 n &&& 0xFFFF = BitVec.ofNat 32 n := by
    intro n hn
    have hlow : (0xFFFF : Word).toNat = 2 ^ 16 - 1 := rfl
    apply BitVec.eq_of_toNat_eq
    rw [BitVec.toNat_and, hlow, Nat.and_two_pow_sub_one_eq_mod, BitVec.toNat_ofNat]
    omega
  induction blocks with
  | nil => exact absurd hi.symm (Option.some_ne_none _)
  | cons b blocks ih =>
    rw [List.length_cons] at hlen
    have hlast : BitVec.ofNat 32 blocks.length &&& 0xFFFF = BitVec.ofNat 32 blocks.length :=
      hmask _ (by omega)
    rw [List.reverse_cons] at hi
    by_cases hold : i < blocks.reverse.length
    · rw [List.getElem?_append_left hold] at hi
      rw [List.length_reverse] at hold
      have hne : BitVec.ofNat 32 i ≠ BitVec.ofNat 32 blocks.length := by
        intro heq
        have heq := congrArg BitVec.toNat heq
        rw [BitVec.toNat_ofNat, BitVec.toNat_ofNat] at heq
        omega
      rw [written, hlast, Function.update_of_ne hne]
      exact ih (by omega) hi
    · rw [List.getElem?_append_right (Nat.le_of_not_lt hold)] at hi
      rw [List.getElem?_singleton] at hi
      split_ifs at hi with hzero
      obtain rfl := Option.some.inj hi
      rw [List.length_reverse] at hold hzero
      obtain rfl : i = blocks.length := by omega
      rw [written, hlast, Function.update_self]

theorem Reaches.tapeCopied (hK : Roomy K) (hs₀ : s₀.Booted)
    (hrun : Sys.Reaches (kaya K junk) (· = s₀) h s) (hfair : ∀ x ∈ h, x.1.Fair x.2)
    (htimely : ∀ x ∈ h, x.1.timely x.2) (hp : IsUProc p) (htaped : s.Taped p) :
    TapeCopied (kaya K junk) s₀ h s p := by
  have hbooted := hs₀.reaches hrun
  obtain ⟨job, turn, home, hinv, -⟩ := Reaches.pageRun hK hbooted hfair
  obtain ⟨n, hround⟩ :=
    (Reaches.copying hbooted hp htaped.1).copied htaped.2 (hinv.taped_new hp htaped)
  have hcopied := Reaches.copied hK hs₀ hrun hfair htimely hp htaped.1.not_dead
  rw [hround] at hcopied
  refine ⟨hcopied.2, fun i block hlen hi => ?_, shown_of_ended (congrArg Prod.snd hround)⟩
  exact (hcopied.2 _).trans (written_block hlen hi)

/-- What was right about a page is right about the program. -/
theorem Reaches.readsProgram (hK : Roomy K) (hs₀ : s₀.Booted)
    (hrun : Sys.Reaches (kaya K junk) (· = s₀) h s) (hfair : ∀ x ∈ h, x.1.Fair x.2)
    (htimely : ∀ x ∈ h, x.1.timely x.2) (hp : IsUProc p) {virtAddr v : Word} {tr : List (Obs Word)}
    (hreads : ReadsLast h p virtAddr v tr) : ReadsProgram (kaya K junk) s₀ h p virtAddr v tr := by
  obtain ⟨⟨x, hx, htaped⟩, hall⟩ := hreads
  obtain ⟨h₂, h₁, rfl⟩ := List.append_of_mem hx
  obtain ⟨s₁, hfirst, -⟩ := hrun.split
  have hmem : ∀ y ∈ h₁, y ∈ h₂ ++ x :: h₁ := fun y hy =>
    List.mem_append_right _ (List.mem_cons_of_mem _ hy)
  cases hfirst with
  | @next _ s₂ e hbefore hcan =>
    have hcopied : TapeCopied (kaya K junk) s₀ h₁ s₂ p :=
      Reaches.tapeCopied hK hs₀ hbefore (fun y hy => hfair y (hmem y hy))
        (fun y hy => htimely y (hmem y hy)) hp htaped
    refine ⟨h₂, _, h₁, rfl, hcopied, ?_⟩
    rw [hall _ hx htaped, hcopied.pages]

end Sys

open Sys

variable {K : Layout} {junk : Word} {s s₀ : Sys Word} {p : Word} {h : List (Sys Word × Event Word)}

/-- In every run in which disk 0 always answers `READY`, whatever the tapes answer. -/
theorem tape_copied (hK : Roomy K) (hs₀ : s₀.Booted)
    (hrun : Sys.Reaches (kaya K junk) (· = s₀) h s) (hfair : ∀ x ∈ h, x.1.Fair x.2)
    (htimely : ∀ x ∈ h, x.1.timely x.2) (hp : IsUProc p) (htaped : s.Taped p) :
    TapeCopied (kaya K junk) s₀ h s p :=
  Reaches.tapeCopied hK hs₀ hrun hfair htimely hp htaped

/-- The tape of process 1 has one block, and `tapeToDisk` has returned. -/
def oneBlock : List (Event Word) :=
  [.dispatch 0, .step 0, .dispatch 1] ++ List.replicate 3 (.step 2) ++
    List.replicate 3 (.step 0) ++ [.tapeDma 1 fun n => n + 5, .devInt 8 READY, .dispatch 1] ++
    List.replicate 5 (.step 0) ++ answered READY ++ List.replicate 5 (.step 0) ++ answered READY ++
    List.replicate 3 (.step 0)

/-- Its program has its page fault and loads a word of the block. -/
def programLoads : List (Event Word) :=
  oneBlock ++ List.replicate 7 (.step 0) ++ fault ++ answered READY ++ List.replicate 5 (.step 0) ++
    answered READY ++ List.replicate 13 (.step 0) ++ [.user (.load 0x80000008)]

/-- A run from `boot` in which disk 0 and the tapes behave. -/
theorem boot_run (es : List (Event Word)) (hes : AllOk (Sys.step (kaya .sample 0))
      (fun s e => s.canNow e ∧ s.fairNow e ∧ s.timely e) .boot es) :
    Sys.Reaches (kaya .sample 0) (· = .boot)
        (replay (Sys.step (kaya .sample 0)) ([], .boot) es).1
        (replay (Sys.step (kaya .sample 0)) ([], .boot) es).2 ∧
      (∀ x ∈ (replay (Sys.step (kaya .sample 0)) ([], .boot) es).1, x.1.Fair x.2) ∧
      ∀ x ∈ (replay (Sys.step (kaya .sample 0)) ([], .boot) es).1, x.1.timely x.2 := by
  have hstart : Sys.Reaches (kaya .sample 0) (· = .boot) [] .boot := .start rfl
  have hcan := hes.mono fun s e h => can_of_canNow h.1
  have hfair : AllOk (Sys.step (kaya .sample 0)) Sys.Fair .boot es :=
    hes.mono fun _ _ h => fairNow_iff.mp h.2.1
  have htimely := hes.mono fun s e h => h.2.2
  exact ⟨hstart.replay es hcan, hfair.replay (by simp), htimely.replay (by simp)⟩

theorem tape_copied_block : TapeCopied (kaya .sample 0) .boot
    (replay (Sys.step (kaya .sample 0)) ([], .boot) oneBlock).1
    (replay (Sys.step (kaya .sample 0)) ([], .boot) oneBlock).2 1 := by
  obtain ⟨hrun, hfair, htimely⟩ := boot_run oneBlock (by decide +kernel)
  refine tape_copied ⟨by decide, by decide⟩ boot_booted hrun hfair htimely ⟨by decide, by decide⟩ ?_
  exact ⟨.inl (by decide +kernel), rfl⟩

/-- In every such run, whatever the other processes do. -/
theorem program_kept (hK : Roomy K) (hs₀ : s₀.Booted)
    (hrun : Sys.Reaches (kaya K junk) (· = s₀) h s) (hfair : ∀ x ∈ h, x.1.Fair x.2)
    (htimely : ∀ x ∈ h, x.1.timely x.2) : ProgramKept (kaya K junk) s₀ h s := by
  obtain ⟨job, turn, home, -, hh⟩ := Reaches.pageRun hK (hs₀.reaches hrun) hfair
  refine ⟨fun p virtAddr v tr hsuf => ?_, fun p virtAddr v x tr hsuf => ?_⟩
  · obtain ⟨hp, hreads⟩ := hh.reads _ tr hsuf
    exact Reaches.readsProgram hK hs₀ hrun hfair htimely hp hreads
  · obtain ⟨hp, hreads⟩ := hh.reads _ tr hsuf
    exact Reaches.readsProgram hK hs₀ hrun hfair htimely hp hreads

theorem program_kept_loads : ProgramKept (kaya .sample 0) .boot
    (replay (Sys.step (kaya .sample 0)) ([], .boot) programLoads).1
    (replay (Sys.step (kaya .sample 0)) ([], .boot) programLoads).2 := by
  obtain ⟨hrun, hfair, htimely⟩ := boot_run programLoads (by decide +kernel)
  exact program_kept ⟨by decide, by decide⟩ boot_booted hrun hfair htimely

end Kaya.Phase3
