import Kaya.Phase3.Proofs.PageSteps

/-!
# What disk 0 moves

When a command of a call of `diskIO` ends, the block of the job was moved.
-/

namespace Kaya.Phase3

open Lib Lib.Paging

variable {K : Layout} {p v command : Word}

theorem IsUProc.cases (hp : IsUProc p) : p = 1 ∨ p = 2 := by
  obtain ⟨hpos, hle⟩ := hp
  have hmax : MAXUPROC = 2 := rfl
  bv_omega

theorem IsUProc.lt (hp : IsUProc p) : p < 64 := by
  rcases hp.cases with rfl | rfl <;> decide

theorem moveTo_fields (hp : IsUProc p) (hcommand : command = READBLK ∨ command = WRITEBLK) :
    opOf (moveTo (p - 1) command) = command ∧ headOf (moveTo (p - 1) command) = 0 ∧
      sectorOf (moveTo (p - 1) command) = p - 1 := by
  rcases hp.cases with rfl | rfl <;> rcases hcommand with rfl | rfl <;> decide

theorem cylOf_seekTo (hv : v.toNat < MAXPAGES) : cylOf (seekTo v) = v := by
  have hall : ∀ n < MAXPAGES, cylOf (seekTo (BitVec.ofNat 32 n)) = BitVec.ofNat 32 n := by decide
  have heq : BitVec.ofNat 32 v.toNat = v := BitVec.ofNat_toNat .. |>.trans (BitVec.setWidth_eq v)
  exact heq ▸ hall v.toNat hv

namespace Sys

variable {job : Word → Job} {turn : Turn} {home home' : Word × Word → Option Word}
  {s m : Sys Word} {q l d u : Word} {k : Word → Prog} {x : Word × Word}

theorem transfer_write (hop : opOf command = WRITEBLK) (hhead : headOf command = 0) (y : Word × Word) :
    (s.transfer command).backing y =
      if y.2 = s.disk.cyl ∧ y.1 - 1 = sectorOf command then s.ram s.disk.data0 else s.backing y := by
  have hne : ¬ WRITEBLK = SEEKCYL ∧ ¬ WRITEBLK = READBLK := by decide
  unfold transfer
  simp only [hop, hhead, if_neg hne.1, if_neg hne.2, if_true, backing]
  by_cases hcyl : y.2 = s.disk.cyl
  · rw [hcyl, Function.update_self, Function.update_self]
    by_cases hsector : y.1 - 1 = sectorOf command
    · rw [hsector, Function.update_self, if_pos ⟨rfl, rfl⟩]
    · rw [Function.update_of_ne hsector, if_neg fun h => hsector h.2]
  · rw [Function.update_of_ne hcyl, if_neg fun h => hcyl h.1]

theorem transfer_ram (hop : opOf command ≠ READBLK) : (s.transfer command).ram = s.ram := by
  unfold transfer
  simp only
  split_ifs <;> rfl

theorem transfer_read (hop : opOf command = READBLK) (hhead : headOf command = 0) :
    (s.transfer command).ram = Function.update s.ram s.disk.data0
      (s.disk.block s.disk.cyl 0 (sectorOf command)) := by
  have hne : ¬ READBLK = SEEKCYL := by decide
  unfold transfer
  simp only [hop, hhead, if_neg hne, if_true]

theorem transfer_block (hop : opOf command ≠ WRITEBLK) :
    (s.transfer command).disk.block = s.disk.block := by
  unfold transfer
  simp only
  split_ifs <;> rfl

theorem transfer_tlb (s : Sys Word) (command : Word) : (s.transfer command).tlb = s.tlb := by
  unfold transfer
  simp only
  split_ifs <;> rfl

/-- `m` is `s` after its command, before the process that waits hears of it. -/
structure Completed (s : Sys Word) (command : Word) (m : Sys Word) : Prop where
  task : m.task = s.task
  life : m.life = s.life
  running : m.running = s.running
  tables : m.tables = s.tables
  tlb : m.tlb = s.tlb
  ram : m.ram = (s.transfer command).ram
  block : m.disk.block = (s.transfer command).disk.block
  cyl : m.disk.cyl = (s.transfer command).disk.cyl
  trace : m.trace = .done READY :: s.trace

theorem Completed.effect (h : s.Completed command m) (p : Word) : s.Effect p (.waitio l d u) m where
  log := by
    rw [log, log, h.trace]
    rfl
  life := h.life
  running := h.running
  self := congrFun h.task p
  others q _ := congrFun h.task q
  tables := h.tables

theorem Completed.backing (h : s.Completed command m) : m.backing = (s.transfer command).backing := by
  exact backing_congr h.block

theorem map_onMove {j : Job} {t : Tables} {b : Bool} {ph : Phase}
    (h : j.map Phase.onMove = .pool t b ph) :
    ∃ ph', j = .pool t b ph' ∧ ph'.onMove = ph := by
  cases j with
  | pool t' b' ph' =>
    injection h with h1 h2 h3
    subst h1 h2
    exact ⟨ph', rfl, h3⟩
  | _ => nomatch h

theorem PageInv.moved {w : Word} (h : PageInv K job turn home s) (turn' : Turn)
    (home' : Word × Word → Option Word)
    (ha : Answering K job s p (.waitio l d u) k READY m) (hon : OnDisk0 l d u)
    (hg : stage s.log p = .moving w) (hothers : ∀ q, q ≠ p → stage s.log q = .out)
    (hm : s.Completed command m) (hquiet : ¬ ((job p).map Phase.onMove).Stale)
    (hturn : ∀ q ph, turn' = some (q, ph) ↔
      (Function.update job p ((job p).map Phase.onMove) q).phase = some ph)
    (hledger : Ledger K (fun q => (job q).Lives) (fun q => (job q).Gone) turn' home' s.tables)
    (htlb : ∀ q page e, IsUProc q → s.tlb q page = some e → pte s.tables q page = some e)
    (harrived : ∀ q v n, turn' = some (q, .arrived v n) →
      m.ram (frameAddr K s.tables.frameNo) = m.backing (q, v))
    (hcontent : ∀ x, (job x.1).Lives → m.content home' x = s.content home x)
    (hback : ∀ q v, q ≠ p → (job q).Early → m.backing (q, v) = s.backing (q, v)) :
    PageStep K s job home (m.answer p READY) := by
  have hown := h.own p ha.uproc
  have hjob : (job p).next (stage s.log p) m.view (.waitio l d u) = (job p).map Phase.onMove := by
    rw [hg]
    exact if_pos hon
  have hstage : diskRules.next (stage s.log p) (.waitio l d u) READY m.view = .finished := by
    rw [hg, diskRules_waitio hon]
    rfl
  refine ⟨_, turn', home', h.answered ha.uproc ha.alive ha.prog ha.effect ha.admits ha.locks hjob
    hstage (fun t b ph heq => ?_) (fun v heq => ?_) trivial hturn (.inl hm.tables) ?_
    (DiskRegs.of_out hothers) ?_ ?_ ?_ ?_ hback ?_ ⟨[.done READY], hm.trace, by simp⟩ trivial⟩
  · obtain ⟨ph', hj, -⟩ := map_onMove heq
    obtain ⟨h1, h2, -⟩ := hown.pool t b ph' hj
    refine ⟨hm.tables.trans h1, h2, fun hs => ?_⟩
    rw [heq] at hquiet
    exact absurd hs hquiet
  · rw [hm.tables]
    refine hown.fault v ?_
    cases hj : job p with
    | pool => rw [hj] at heq; nomatch heq
    | _ => rw [hj] at heq; exact heq
  · exact fun q _ v => hm.tables ▸ id
  · rw [hm.tables]
    refine hledger.setLives (update_imp fun hl => ?_) (update_imp fun hd => ?_)
    · cases hj : job p with
      | pool t b ph =>
        rw [hj] at hl
        cases ph <;> first | exact hl | exact nofun
      | _ => rw [hj] at hl; exact hl
    · cases hj : job p with
      | pool t b ph =>
        rw [hj] at hd
        cases ph <;> first | exact hd | nomatch hd
      | _ => rw [hj] at hd; exact hd
  · rw [hm.tlb, hm.tables]
    exact fun _ => htlb
  · rw [hm.tables]
    exact harrived
  · exact fun x hx _ => hcontent x hx
  · intro htaping hl
    rw [htaping] at hl
    exact hl.elim

/-- What is in a block after a command that writes it. -/
theorem Completed.written (hm : s.Completed (moveTo (p - 1) WRITEBLK) m) (hp : IsUProc p)
    (y : Word × Word) : m.backing y =
      if y.2 = s.disk.cyl ∧ y.1 = p then s.ram s.disk.data0 else s.backing y := by
  obtain ⟨hop, hhead, hsector⟩ := moveTo_fields hp (.inr rfl)
  simp only [hm.backing, transfer_write hop hhead, hsector, BitVec.sub_left_inj]

theorem Completed.written_ram (hm : s.Completed (moveTo (p - 1) WRITEBLK) m) (hp : IsUProc p) :
    m.ram = s.ram := by
  obtain ⟨hop, -, -⟩ := moveTo_fields hp (.inr rfl)
  refine hm.ram.trans (transfer_ram ?_)
  rw [hop]
  decide

/-- A block of the tape is on the disk. -/
theorem PageInv.copied {w : Word} (h : PageInv K job turn home s)
    (ha : Answering K job s p (.waitio l d u) k READY m) (hon : OnDisk0 l d u)
    (hg : stage s.log p = .moving w) (hothers : ∀ q, q ≠ p → stage s.log q = .out)
    (hj : job p = .taping) (hopen : s.Open) (hm : s.Completed (moveTo (p - 1) WRITEBLK) m) :
    PageStep K s job home (m.answer p READY) := by
  have hram := hm.written_ram ha.uproc
  have hback : ∀ q v, q ≠ p → m.backing (q, v) = s.backing (q, v) := by
    intro q v hqp
    rw [hm.written ha.uproc, if_neg fun hc => hqp hc.2]
  refine h.moved turn home ha hon hg hothers hm (hj ▸ id)
    (turn_same h.holder (hj ▸ rfl)) h.ledger (h.tlb (h.not_stale hopen)) (fun q v n hturn => ?_)
    (fun x hx => ?_) fun q v hqp _ => hback q v hqp
  · have hqp : q ≠ p := by
      rintro rfl
      obtain ⟨-, t, b, hpool⟩ := h.holder_of hturn
      nomatch hj.symm.trans hpool
    rw [hram, hback q v hqp]
    exact h.arrived q v n hturn
  · have hxp : x.1 ≠ p := by
      intro heq
      rw [heq, hj] at hx
      exact hx
    rw [content, content, hram]
    exact contents_congr (hback x.1 x.2 hxp)

theorem PageInv.left {w v : Word} {t : Tables} {b : Bool} (h : PageInv K job turn home s)
    (hK : Roomy K) (ha : Answering K job s p (.waitio l d u) k READY m) (hon : OnDisk0 l d u)
    (hg : stage s.log p = .moving w) (hothers : ∀ q, q ≠ p → stage s.log q = .out)
    (hj : job p = .pool t b (.leaving v x)) (hopen : s.Open)
    (hm : s.Completed (moveTo (x.1 - 1) WRITEBLK) m) (hdata : s.disk.data0 = frameAddr K t.frameNo)
    (hcyl : s.disk.cyl = cylOf (seekTo x.2)) : PageStep K s job home (m.answer p READY) := by
  obtain ⟨rfl, -, -⟩ := (h.own p ha.uproc).pool t b _ hj
  have hledger := h.ledger
  have hturn := h.turn_of hj
  rw [hturn] at hledger
  have hhome : home x = some (frameAddr K s.tables.frameNo) := hledger.away x rfl
  obtain ⟨hlives, hx, hlt, -⟩ := hledger.resident x _ hhome
  have hback : m.backing = Function.update s.backing x (s.ram (frameAddr K s.tables.frameNo)) := by
    funext y
    simp only [hm.written hx, hcyl, cylOf_seekTo hlt, hdata, Function.update_apply, Prod.ext_iff,
      and_comm]
  have hphase : (job p).phase ≠ none := hj ▸ nofun
  have hmap : (job p).map Phase.onMove = .pool s.tables b (.clear v) := by rw [hj]; rfl
  refine h.moved (some (p, .clear v)) (Function.update home x none) ha hon hg
    hothers hm (hmap ▸ id) ?_ (hledger.writtenBack hK) (h.tlb (h.not_stale hopen)) nofun
    (fun y _ => ?_) fun q v' hqp hq => ?_
  · rw [hmap]
    exact turn_update (j := .pool s.tables b (.clear v)) h.holder (.inr hphase)
  · rw [content, content, hm.written_ram hx, hback]
    exact congrFun (contents_writeBack hhome) y
  · rw [hback, Function.update_of_ne]
    rintro rfl
    cases hj' : job q with
    | born | taping =>
      rw [hj'] at hlives
      exact hlives
    | _ =>
      rw [hj'] at hq
      exact hq

theorem PageInv.brought {w v : Word} {t : Tables} {b : Bool} (h : PageInv K job turn home s)
    (ha : Answering K job s p (.waitio l d u) k READY m) (hon : OnDisk0 l d u)
    (hg : stage s.log p = .moving w) (hothers : ∀ q, q ≠ p → stage s.log q = .out)
    (hj : job p = .pool t b (.clear v)) (hopen : s.Open)
    (hm : s.Completed (moveTo (p - 1) READBLK) m) (hdata : s.disk.data0 = frameAddr K t.frameNo)
    (hcyl : s.disk.cyl = cylOf (seekTo v)) : PageStep K s job home (m.answer p READY) := by
  obtain ⟨rfl, -, -⟩ := (h.own p ha.uproc).pool t b _ hj
  have hledger := h.ledger
  have hturn := h.turn_of hj
  rw [hturn] at hledger
  obtain ⟨-, hlt, -⟩ := hledger.wants p _ v rfl rfl
  obtain ⟨hop, hhead, hsector⟩ := moveTo_fields ha.uproc (.inl rfl)
  have hram : m.ram = Function.update s.ram (frameAddr K s.tables.frameNo) (s.backing (p, v)) := by
    rw [hm.ram, transfer_read hop hhead, hsector, hdata, hcyl, cylOf_seekTo hlt]
    rfl
  have hback : m.backing = s.backing := by
    rw [hm.backing]
    exact backing_congr (transfer_block (by rw [hop]; decide))
  have hunused : Unused home (frameAddr K s.tables.frameNo) :=
    hledger.empty ⟨p, _, rfl, trivial⟩
  have hphase : (job p).phase ≠ none := hj ▸ nofun
  have hmap : (job p).map Phase.onMove = .pool s.tables b (.arrived v 0) := by rw [hj]; rfl
  refine h.moved (some (p, .arrived v 0)) home ha hon hg hothers hm (hmap ▸ id)
    ?_ (hledger.setTurn ?_ ?_ rfl nofun ?_) (h.tlb (h.not_stale hopen)) ?_ (fun y _ => ?_)
    fun q v' _ _ => ?_
  · rw [hmap]
    exact turn_update (j := .pool s.tables b (.arrived v 0)) h.holder (.inr hphase)
  · refine fun _ => hledger.next ?_
    rintro ⟨_, _, ⟨⟩⟩
  · exact iff_of_true ⟨p, _, rfl, trivial⟩ ⟨p, _, rfl, trivial⟩
  · rintro _ _ v' ⟨⟩ hv'
    exact hledger.wants p _ v' rfl hv'
  · rintro q v' n ⟨⟩
    rw [hram, hback, Function.update_self]
  · rw [content, content, hram, hback]
    exact congrFun (contents_scratch hunused) y
  · rw [hback]

/-- The disk completes a command with `READY`. -/
theorem PageInv.completes (h : PageInv K job turn home s) (hK : Roomy K)
    (ha : Answering K job s p (.waitio l d u) k READY m) (hon : OnDisk0 l d u)
    (hothers : ∀ q, q ≠ p → stage s.log q = .out) (hfits : s.Fits p (stage s.log p))
    (hbusy : s.disk.busy = some command) (hopen : s.Open) (hm : s.Completed command m) :
    PageStep K s job home (m.answer p READY) := by
  have hregs := (h.own p ha.uproc).disk
  have hstage := ha.disk
  simp only [diskRules, if_pos hon] at hstage
  cases hg : stage s.log p with
  | seeking w =>
    rw [hg] at hfits hregs
    obtain rfl : w = command := Option.some.inj (hfits.1.busy.symm.trans hbusy)
    have hop : opOf w ≠ READBLK ∧ opOf w ≠ WRITEBLK := by
      rw [hfits.2]
      decide
    refine h.goesOn ha (if_pos hon |>.trans (by rw [hg])) (g := .positioned w true) ?_ (fun _ => rfl)
      (fun _ => rfl) ⟨[.done READY], hm.trace, by simp⟩ (hm.ram.trans (transfer_ram hop.1))
      (hm.block.trans (transfer_block hop.2)) hm.tlb hregs (DiskRegs.of_out hothers) trivial
    rw [hg, diskRules_waitio hon]
    rfl
  | moving w =>
    rw [hg] at hregs
    obtain ⟨cyl, sector, buf, op, hmoves, hw, hdata, hcommand, hcyl⟩ := hregs
    obtain rfl : moveTo sector op = command := Option.some.inj (hcommand.symm.trans hbusy)
    rw [hw] at hcyl
    generalize hj : job p = j at hmoves
    cases hmoves with
    | tape => exact h.copied ha hon hg hothers hj hopen hm
    | out t b v x => exact h.left hK ha hon hg hothers hj hopen hm hdata hcyl
    | bring t b v => exact h.brought ha hon hg hothers hj hopen hm hdata hcyl
  | _ =>
    rw [hg] at hstage
    exact hstage.elim

end Sys

end Kaya.Phase3
