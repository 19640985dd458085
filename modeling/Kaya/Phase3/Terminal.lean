import Kaya.Phase3.VmIOsupport

/-!
# What a process writes to its terminal

`writeToTerminal` is followed over all answers that it can get from a terminal which completes
the transmissions with given statuses.
-/

namespace Kaya.Phase3

open Lib Lib.Program

/-- What a process does with a terminal and with the semaphores. -/
inductive Io where
  | acquire (s : Sem)
  | transmit (reg : Word) (c : BitVec 8)
  | completed (lineNo devNo read status : Word)
  | release (s : Sem)
  deriving DecidableEq

structure Terminal where
  io : List Io
  /-- The number of completed transmissions. -/
  count : Nat

/-- A terminal reads the command from the low byte and the character from the one above. -/
def Terminal.command (d : Terminal) (reg v : Word) : Terminal :=
  if v.setWidth 8 = TRANSMCHAR.setWidth 8 then
    { d with io := d.io ++ [.transmit reg ((v >>> 8).setWidth 8)] }
  else d

/-- Memory holds `text`, and transmission `k` ends with `statuses k`. -/
def terminalRules (text : Word → BitVec 8) (statuses : Nat → Word) (E : Terminal → Leave → Prop) :
    Discipline Act Word Leave Unit Terminal where
  may _ _ := True
  admits d a r _ :=
    match a with
    | .load virtAddr => r.setWidth 8 = text virtAddr
    | .waitio .. => r = statuses d.count
    | _ => True
  next d a r _ :=
    match a with
    | .passeren s => { d with io := d.io ++ [.acquire s] }
    | .verhogen s => { d with io := d.io ++ [.release s] }
    | .setData1 reg v => d.command reg v
    | .waitio lineNo devNo read =>
      { io := d.io ++ [.completed lineNo devNo read r], count := d.count + 1 }
    | _ => d
  leave := E

abbrev terminal (text : Word → BitVec 8) (statuses : Nat → Word) :
    Discipline Act Word Leave Unit Terminal :=
  terminalRules text statuses fun _ _ => True

/-! ## What is to be written -/

section Spec

variable (text : Word → BitVec 8) (statuses : Nat → Word) (asid virtAddr : Word)

/-- Character `k` is transmitted, and this is completed. -/
def exchange (k : Nat) : List Io :=
  [.transmit (getDeviceReg TERMINT (asid - 1)) (text (virtAddr + BitVec.ofNat 32 k)),
    .completed TERMINT (asid - 1) 0 (statuses k)]

/-- The first `m` characters, under the semaphore of the terminal. -/
def session (m : Nat) : List Io :=
  let sem := Sem.devSemArray (DEVCNT * (TERMINT - DEVINTOFFSET) + TERMCNT * (asid - 1))
  .acquire sem :: (List.range m).flatMap (exchange text statuses asid virtAddr) ++ [.release sem]

/-- `len` characters are written, with result `v0`. -/
inductive Wrote (len : Nat) : List Io → Word → Prop
  | all (h : ∀ k < len, statuses k = CHARTRANSMD) :
      Wrote len (session text statuses asid virtAddr len) (BitVec.ofNat 32 len)
  | failed {k : Nat} (hlt : k < len) (hbefore : ∀ j < k, statuses j = CHARTRANSMD)
      (hfail : statuses k ≠ CHARTRANSMD) :
      Wrote len (session text statuses asid virtAddr (k + 1)) (-statuses k)

/-- What the loop returns that starts at `i` with `status` and has `n` characters to go, after
`m` of them. -/
inductive Result (n i : Nat) (status : Word) : Nat → Word → Prop
  | all (h : ∀ k < n, statuses (i + k) = CHARTRANSMD) :
      Result n i status n (if n = 0 then status else BitVec.ofNat 32 (i + n - 1))
  | failed {k : Nat} (hlt : k < n) (hbefore : ∀ j < k, statuses (i + j) = CHARTRANSMD)
      (hfail : statuses (i + k) ≠ CHARTRANSMD) :
      Result n i status (k + 1) (-statuses (i + k))

end Spec

/-- A call of `writeToTerminal` ends with `l`. -/
def WriteEnds (text : Word → BitVec 8) (statuses : Nat → Word) (junk entryHi : Word)
    (state : State) (io : List Io) (l : Leave) : Prop :=
  ∃ count, Steps (terminal text statuses) (writeToTerminal junk entryHi state) ⟨[], 0⟩
    (.leave l) ⟨io, count⟩

/-! ## The loop -/

section Loop

variable {text : Word → BitVec 8} {statuses : Nat → Word} {E : Terminal → Leave → Prop}
  {d : Terminal}

theorem command_transmit (d : Terminal) (reg c : Word) :
    d.command reg ((c <<< 8) ||| TRANSMCHAR) =
      { d with io := d.io ++ [.transmit reg (c.setWidth 8)] } := by
  have hlow : ((c <<< 8) ||| TRANSMCHAR).setWidth 8 = TRANSMCHAR.setWidth 8 := by
    ext i hi
    simp [TRANSMCHAR]
  have hchar : (((c <<< 8) ||| TRANSMCHAR) >>> 8).setWidth 8 = c.setWidth 8 := by
    have hzero : TRANSMCHAR >>> 8 = 0#32 := rfl
    rw [BitVec.ushiftRight_or_distrib, hzero, BitVec.or_zero]
    ext i hi
    simp
    omega
  rw [Terminal.command, if_pos hlow, hchar]

theorem disableInts_terminal (disable : Bool) :
    Follows (terminalRules text statuses E) (disableInts disable) d fun _ d' => d' = d := by
  cases disable <;> exact ⟨trivial, fun _ _ _ => ⟨trivial, fun _ _ _ => rfl⟩⟩

theorem Result.step {n i m : Nat} {status v : Word} (hok : statuses i = CHARTRANSMD)
    (h : Result statuses n (i + 1) (BitVec.ofNat 32 i) m v) :
    Result statuses (n + 1) i status (m + 1) v := by
  have hcons : ∀ {k}, (∀ j < k, statuses (i + 1 + j) = CHARTRANSMD) →
      ∀ j < k + 1, statuses (i + j) = CHARTRANSMD := by
    intro k hk j hj
    cases j with
    | zero => exact hok
    | succ j =>
      have hj' := hk j (Nat.lt_of_succ_lt_succ hj)
      rwa [Nat.add_right_comm] at hj'
  cases h with
  | all h =>
    have hv : (if n = 0 then BitVec.ofNat 32 i else BitVec.ofNat 32 (i + 1 + n - 1)) =
        if n + 1 = 0 then status else BitVec.ofNat 32 (i + (n + 1) - 1) := by
      rw [if_neg n.succ_ne_zero]
      split_ifs with hn
      · rw [hn, Nat.add_sub_cancel]
      · rw [Nat.add_right_comm]
        rfl
    rw [hv]
    exact .all (hcons h)
  | @failed k hlt hbefore hfail =>
    have hi : i + 1 + k = i + (k + 1) := by omega
    rw [hi] at hfail ⊢
    exact .failed (Nat.succ_lt_succ hlt) (hcons hbefore) hfail

/-- `io` grows by the first `m` characters from `i` on. -/
theorem transmit_follows (asid virtAddr : Word) (n i : Nat) (status : Word) (io : List Io) :
    Follows (terminalRules text statuses E)
      (transmit asid virtAddr n (BitVec.ofNat 32 i) status) ⟨io, i⟩ fun v d => ∃ m,
        Result statuses n i status m v ∧ d = ⟨io ++ (List.range' i m).flatMap
          (exchange text statuses asid virtAddr), i + m⟩ := by
  induction n generalizing i status io with
  | zero =>
    refine ⟨0, .all fun k hk => absurd hk k.not_lt_zero, ?_⟩
    rw [List.range'_zero, List.flatMap_nil, List.append_nil, Nat.add_zero]
  | succ n ih =>
    refine (disableInts_terminal true).bind ?_
    rintro _ _ rfl
    refine .perform trivial fun c _ hc => ?_
    obtain hc : c.setWidth 8 = text (virtAddr + BitVec.ofNat 32 i) := hc
    refine .issue trivial fun _ _ _ => ?_
    show Follows _ _ (Terminal.command ⟨io, i⟩ _ _) _
    rw [command_transmit, hc]
    refine .perform trivial fun s _ hs => (disableInts_terminal false).bind ?_
    rintro _ _ rfl
    obtain rfl : s = statuses i := hs
    have hio : (io ++ [.transmit (getDeviceReg TERMINT (asid - 1))
        (text (virtAddr + BitVec.ofNat 32 i))]) ++
          [.completed TERMINT (asid - 1) 0 (statuses i)] =
        io ++ exchange text statuses asid virtAddr i := List.append_assoc ..
    show Follows _ _ (Terminal.mk _ _) _
    rw [hio]
    refine .ite (fun hfail => ?_) fun hok => ?_
    · refine ⟨1, .failed n.succ_pos (fun j hj => absurd hj j.not_lt_zero) hfail, ?_⟩
      rw [List.range'_one, List.flatMap_singleton]
    · have hok : statuses i = CHARTRANSMD := not_not.mp hok
      have hi : BitVec.ofNat 32 i + 1 = BitVec.ofNat 32 (i + 1) := (BitVec.ofNat_add ..).symm
      rw [hi]
      refine (ih (i + 1) (BitVec.ofNat 32 i) _).mono ?_
      rintro v _ ⟨m, hresult, rfl⟩
      refine ⟨m + 1, hresult.step hok, ?_⟩
      rw [List.range'_succ, List.flatMap_cons, List.append_assoc, Nat.add_right_comm]
      rfl

/-- A terminal completes every transmission. -/
theorem transmit_returns (asid virtAddr : Word) (n : Nat) (i status : Word) :
    (transmit asid virtAddr n i status).Returns (terminalRules text statuses E) := by
  induction n generalizing i status with
  | zero => exact .done _
  | succ n ih =>
    have hints : ∀ b, (disableInts b).Returns (terminalRules text statuses E) := by
      intro b
      cases b <;>
        exact .act fun _ => ⟨0, (), trivial, .act fun _ => ⟨0, (), trivial, .done ()⟩⟩
    refine (hints true).bind fun _ => .act fun _ => ?_
    refine ⟨(text (virtAddr + i)).setWidth 32, (), ?_, ?_⟩
    · exact BitVec.setWidth_setWidth_of_le _ (by decide)
    · refine .act fun _ => ⟨0, (), trivial, .act fun d => ⟨statuses d.count, (), rfl, ?_⟩⟩
      exact (hints false).bind fun _ => .ite (fun _ => .done _) fun _ => ih _ _

end Loop

/-! ## The call -/

section Call

variable {text : Word → BitVec 8} {statuses : Nat → Word} {junk entryHi : Word} {state : State}

/-- The arguments pass the check. -/
def Writable (state : State) : Prop :=
  state.a2.toNat ≤ 128 ∧ KSEGOSEND ≤ state.a1

theorem Writable.accepted (h : Writable state) :
    ¬ (state.a2.toInt < 0 ∨ 128 < state.a2.toInt ∨ state.a1 < KSEGOSEND) := by
  have hlen : state.a2.toInt = state.a2.toNat := BitVec.toInt_eq_toNat_of_lt (by have := h.1; omega)
  have haddr : ¬ state.a1 < KSEGOSEND := BitVec.not_lt.mpr h.2
  rw [hlen]
  rintro (h0 | h1 | h2)
  · omega
  · have := h.1
    omega
  · exact haddr h2

theorem WriteEnds.result (hargs : Writable state) {io : List Io} {l : Leave}
    (h : WriteEnds text statuses junk entryHi state io l) : ∃ m v0,
      Result statuses state.a2.toNat 0 junk m v0 ∧ l = .ldst .sys (state.setV0 v0) ∧
        io = session text statuses (asidOf entryHi) state.a1 m := by
  obtain ⟨count, hsteps⟩ := h
  let E : Terminal → Leave → Prop := fun d l => ∃ m v0,
      Result statuses state.a2.toNat 0 junk m v0 ∧ l = .ldst .sys (state.setV0 v0) ∧
        d.io = session text statuses (asidOf entryHi) state.a1 m
  have hcall : Follows (terminalRules text statuses E) (writeToTerminal junk entryHi state)
      ⟨[], 0⟩ fun _ _ => True := by
    rw [writeToTerminal, if_neg hargs.accepted]
    refine .issue trivial fun _ _ _ => ?_
    refine (transmit_follows (asidOf entryHi) state.a1 state.a2.toNat 0 junk _).bind ?_
    rintro v _ ⟨m, hresult, rfl⟩
    refine .issue trivial fun _ _ _ => ⟨m, v, hresult, rfl, ?_⟩
    rw [session, List.range_eq_range']
    rfl
  exact hcall.steps (hsteps.withLeave E)

theorem exists_writeEnds (text : Word → BitVec 8) (statuses : Nat → Word) (junk entryHi : Word)
    (hargs : Writable state) : ∃ io l, WriteEnds text statuses junk entryHi state io l := by
  let sem := Sem.devSemArray (DEVCNT * (TERMINT - DEVINTOFFSET) + TERMCNT * (asidOf entryHi - 1))
  have hloop : (transmit (asidOf entryHi) state.a1 state.a2.toNat 0 junk).Returns
      (terminal text statuses) := transmit_returns _ _ _ _ _
  obtain ⟨v, d, hsteps⟩ := hloop ⟨[.acquire sem], 0⟩
  refine ⟨d.io ++ [.release sem], .ldst .sys (state.setV0 v), d.count, ?_⟩
  rw [writeToTerminal, if_neg hargs.accepted]
  exact .act (r := 0) (v := ()) trivial
    ((hsteps.bind _).trans (.act (r := 0) (v := ()) trivial (.refl ..)))

theorem ldst_setV0_inj {v w : Word}
    (h : Leave.ldst .sys (state.setV0 v) = .ldst .sys (state.setV0 w)) : v = w := by
  have hv0 := congrArg State.v0 (Leave.ldst.inj h).2
  rwa [State.v0_setV0, State.v0_setV0] at hv0

/-- Either a transmission fails, and the result is its negated status, or the result is one less
than the number of characters. -/
theorem result_wrote_iff {len : Nat} (hlen : len ≤ 128) {asid virtAddr : Word} {m : Nat}
    {v0 : Word} (h : Result statuses len 0 junk m v0) :
    Wrote text statuses asid virtAddr len (session text statuses asid virtAddr m) v0 ↔
      (∃ k < len, statuses k ≠ CHARTRANSMD) ∨ len = 0 ∧ junk = 0 := by
  cases h with
  | all hall =>
    have hall : ∀ k < len, statuses k = CHARTRANSMD := fun k hk => by
      have hok := hall k hk
      rwa [Nat.zero_add] at hok
    have hfails : ¬ ∃ k < len, statuses k ≠ CHARTRANSMD := fun ⟨k, hk, hfail⟩ => hfail (hall k hk)
    have hwrote : ∀ {io v}, Wrote text statuses asid virtAddr len io v →
        v = BitVec.ofNat 32 len := by
      intro io v hw
      cases hw with
      | all => rfl
      | failed hlt hbefore hfail => exact absurd (hall _ hlt) hfail
    rw [or_iff_right hfails]
    constructor
    · intro hw
      have hv := hwrote hw
      split_ifs at hv with h0
      · exact ⟨h0, by rw [hv, h0]; rfl⟩
      · have hnat := congrArg BitVec.toNat hv
        rw [BitVec.toNat_ofNat, BitVec.toNat_ofNat, Nat.mod_eq_of_lt (by omega),
          Nat.mod_eq_of_lt (by omega)] at hnat
        omega
    · rintro ⟨rfl, rfl⟩
      exact .all hall
  | @failed k hlt hbefore hfail =>
    simp only [Nat.zero_add] at hbefore hfail ⊢
    exact ⟨fun _ => .inl ⟨k, hlt, hfail⟩, fun _ => .failed hlt hbefore hfail⟩

/-- The characters are written in order and the result is right if and only if a transmission
fails, or there is none and `status` happens to hold 0. -/
theorem writeToTerminal_wrote_iff (text : Word → BitVec 8) (statuses : Nat → Word)
    (junk entryHi : Word) (hargs : Writable state) :
    ((∃ io l, WriteEnds text statuses junk entryHi state io l) ∧
      ∀ io l, WriteEnds text statuses junk entryHi state io l → ∃ v0,
        l = .ldst .sys (state.setV0 v0) ∧
          Wrote text statuses (asidOf entryHi) state.a1 state.a2.toNat io v0) ↔
      (∃ k < state.a2.toNat, statuses k ≠ CHARTRANSMD) ∨ state.a2.toNat = 0 ∧ junk = 0 := by
  have hends := exists_writeEnds text statuses junk entryHi hargs
  constructor
  · rintro ⟨⟨io, l, h⟩, hall⟩
    obtain ⟨m, v0, hresult, hl, rfl⟩ := h.result hargs
    obtain ⟨v0', hl', hwrote⟩ := hall _ l h
    rw [ldst_setV0_inj (hl'.symm.trans hl)] at hwrote
    exact (result_wrote_iff hargs.1 hresult).mp hwrote
  · intro hwhen
    refine ⟨hends, fun io l h => ?_⟩
    obtain ⟨m, v0, hresult, hl, rfl⟩ := h.result hargs
    exact ⟨v0, hl, (result_wrote_iff hargs.1 hresult).mpr hwhen⟩

def printOne : State :=
  { resetState with
    sReg := Function.update (Function.update resetState.sReg 4 KSEGOSEND) 5 1 }

theorem printOne_writable : Writable printOne := ⟨by decide, by decide⟩

theorem writeToTerminal_wrote_iff_one :
    ((∃ io l, WriteEnds (fun _ => 65) (fun _ => 4) 0 0x40 printOne io l) ∧
      ∀ io l, WriteEnds (fun _ => 65) (fun _ => 4) 0 0x40 printOne io l → ∃ v0,
        l = .ldst .sys (printOne.setV0 v0) ∧
          Wrote (fun _ => 65) (fun _ => 4) (asidOf 0x40) printOne.a1 printOne.a2.toNat io v0) ↔
      (∃ k < printOne.a2.toNat, (4 : Word) ≠ CHARTRANSMD) ∨
        printOne.a2.toNat = 0 ∧ (0 : Word) = 0 :=
  writeToTerminal_wrote_iff (fun _ => 65) (fun _ => 4) 0 0x40 printOne_writable

/-- One character is transmitted, and the result is 0. -/
theorem writeToTerminal_one : ¬ ∀ io l,
    WriteEnds (fun _ => 65) (fun _ => CHARTRANSMD) 0 0x40 printOne io l → ∃ v0,
      l = .ldst .sys (printOne.setV0 v0) ∧
        Wrote (fun _ => 65) (fun _ => CHARTRANSMD) (asidOf 0x40) printOne.a1 printOne.a2.toNat
          io v0 := by
  intro hall
  obtain ⟨io, l, h⟩ := exists_writeEnds (fun _ => 65) (fun _ => CHARTRANSMD) 0 0x40
    printOne_writable
  obtain ⟨m, v0, hresult, hl, rfl⟩ := h.result printOne_writable
  obtain ⟨v0', hl', hwrote⟩ := hall _ l h
  rw [ldst_setV0_inj (hl'.symm.trans hl)] at hwrote
  rcases (result_wrote_iff printOne_writable.1 hresult).mp hwrote with ⟨k, -, hfail⟩ | ⟨h0, -⟩
  · exact hfail rfl
  · exact absurd h0 (by decide)

end Call

end Kaya.Phase3
