import Kaya.Phase3.Paging
import Kaya.Phase3.Proofs.DeviceInv

/-!
# The rules for a tape

A process that copies its tape waits for the tape while a block comes to its buffer, and puts the
block on the disk behind those that came before.
-/

namespace Kaya.Phase3

open Lib Lib.Program

/-- Where a process is in the copying of its tape. -/
inductive Round where
  | start
  /-- `n` blocks are on the disk; `ended` says that the tape showed its end when it was last
  asked. -/
  | head (n : Nat) (ended : Bool)
  /-- Another block is in the buffer. -/
  | full (n : Nat)
  /-- After a status of the tape that is not `READY`. -/
  | failed
  | done

def OnTape (p lineNo devNo read : Word) : Prop := lineNo = TAPEINT ∧ devNo = p - 1 ∧ read = 0

instance (p l d u : Word) : Decidable (OnTape p l d u) := inferInstanceAs (Decidable (_ ∧ _))

namespace Round

/-- After the answer `r` to an action at stage `g` of `diskIO`. -/
def next (p : Word) (g : Stage) (r : Word) (round : Round) : Act → Round
  | .getENTRYHI =>
      match round with
      | start => head 0 false
      | _ => done
  | .getData1 reg =>
      match round with
      | head n _ => if reg = getDeviceReg TAPEINT (p - 1) then head n (r = EOT ∨ r = EOF) else round
      | _ => round
  | .waitio l d u =>
      match round with
      | head n _ => if OnTape p l d u ∧ r = READY then full n else failed
      | full n =>
          match g with
          | .moving _ => if r = READY then head (n + 1) false else full n
          | _ => full n
      | _ => round
  | _ => round

theorem next_read {p l d u : Word} (g : Stage) (n : Nat) (b : Bool) (h : OnTape p l d u) :
    (head n b).next p g READY (.waitio l d u) = full n := if_pos ⟨h, rfl⟩

theorem next_failed {p l d u r : Word} {g : Stage} {n : Nat} {b : Bool} (h : r ≠ READY) :
    (head n b).next p g r (.waitio l d u) = failed := if_neg fun hread => h hread.2

theorem next_asked (p : Word) (g : Stage) (r : Word) (n : Nat) (b : Bool) (reg : Word) :
    ∃ b', (head n b).next p g r (.getData1 reg) = head n b' := by
  simp only [next]
  split_ifs
  · exact ⟨_, rfl⟩
  · exact ⟨b, rfl⟩

theorem next_ne_start {p : Word} {g : Stage} {r : Word} {round : Round} (h : round ≠ start)
    (a : Act) : round.next p g r a ≠ start := by
  cases a with
  | getENTRYHI => cases round <;> first | exact absurd rfl h | exact Round.noConfusion
  | getData1 reg =>
    cases round with
    | head n b =>
      simp only [next]
      split_ifs
      · exact Round.noConfusion
      · exact h
    | _ => exact h
  | waitio l d u =>
    cases round with
    | head n b =>
      simp only [next]
      split_ifs <;> exact Round.noConfusion
    | full n =>
      cases g with
      | moving w =>
        simp only [next]
        split_ifs <;> exact Round.noConfusion
      | _ => exact h
    | _ => exact h
  | _ => exact h

end Round

/-- The rules for a process that has asked for its number, until it has copied its tape. -/
def tapeRules (p : Word) : Discipline Act Word Leave View (Stage × Round) where
  may s
    | .waitio l d u =>
        match s.2 with
        | .head _ _ => OnTape p l d u
        | .full n => OnDisk0 l d u ∧ ∀ w, s.1 = .moving w → w = seekTo (BitVec.ofNat 32 n)
        | _ => False
    | .getENTRYHI | .createprocess _ _ | .spectrapvec _ _ | .load _ => False
    | _ => True
  admits _ _ _ _ := True
  next s a r x := (diskRules.next s.1 a r x, s.2.next p s.1 r a)
  leave s
    | .again asid i => ∃ n b, s = (.out, .head n b) ∧ asid = p ∧ i = BitVec.ofNat 32 n
    | .terminate => True
    | _ => False

variable {p : Word} {g : Stage} {round : Round} {α : Type}

/-! ## Calls of `diskIO` -/

theorem disableInts_tape (disable : Bool) (s : Stage × Round) :
    Follows (tapeRules p) (disableInts disable) s fun _ s' => ∃ b, s' = (s.1.setShut b, s.2) := by
  cases disable <;> exact ⟨trivial, fun _ _ _ => ⟨trivial, fun _ _ _ => ⟨_, rfl⟩⟩⟩

/-- A command of the disk ends, and the call goes on if the status is `READY`. -/
theorem completed_tape {n : Nat} (g' : Stage) (round' : Round) {f : Unit → SupM α}
    {Q : α → Stage × Round → Prop} (hmoves : ∀ w, g = .moving w → w = seekTo (BitVec.ofNat 32 n))
    (hnext : ∀ x, (tapeRules p).next (g, .full n) (.waitio DISKINT 0 0) READY x = (g', round'))
    (hf : ∀ b, Follows (tapeRules p) (f ()) (g'.setShut b, round') Q) :
    Follows (tapeRules p) ( waitForIO DISKINT 0 0 >>= fun status => disableInts false >>= fun _ =>
      if status ≠ READY then leave .terminate >>= f else f ()) (g, .full n) Q := by
  refine .perform ⟨⟨by decide, by decide⟩, hmoves⟩ fun status x _ => ?_
  refine (disableInts_tape false _).bind ?_
  rintro _ _ ⟨b, rfl⟩
  refine .leaveIf (fun _ => trivial) fun hready => ?_
  obtain rfl : status = READY := not_not.mp hready
  rw [hnext]
  exact hf b

theorem diskIO_tape (n : Nat) (sector memBuf command : Word) :
    Follows (tapeRules p)
      ( diskIO sector (BitVec.ofNat 32 n) 0 disk0sem 0 memBuf command) (.out, .full n)
      fun _ s => s = (.out, .head (n + 1) false) := by
  refine .issue trivial fun _ _ _ => ?_
  refine (disableInts_tape true (.owned false, .full n)).bind ?_
  rintro _ _ ⟨b, rfl⟩
  refine .issue trivial fun _ _ _ => ?_
  refine completed_tape (g := .seeking (seekTo (BitVec.ofNat 32 n))) (.positioned _ true) (.full n)
    nofun (fun _ => rfl) fun b => ?_
  refine (disableInts_tape true (.positioned _ b, .full n)).bind ?_
  rintro _ _ ⟨b', rfl⟩
  refine .issue trivial fun _ _ _ => .issue trivial fun _ _ _ => ?_
  refine completed_tape (g := .moving (seekTo (BitVec.ofNat 32 n))) .finished (.head (n + 1) false)
    (fun w hw => (Stage.moving.inj hw).symm) (fun _ => rfl) fun _ => ?_
  exact ⟨trivial, fun _ _ _ => rfl⟩

/-! ## The loop -/

/-- The loop ends where the tape shows its end. -/
theorem onTape_tape (n : Nat) (b : Bool) :
    Follows (tapeRules p) (onTape (getDeviceReg TAPEINT (p - 1))) (.out, .head n b) fun more s =>
      ∃ b, s = (.out, .head n b) ∧ (more = false → b = true) := by
  have hshows : ∀ (b : Bool) (r : Word) (x : View),
      (tapeRules p).next (.out, .head n b) (.getData1 (getDeviceReg TAPEINT (p - 1))) r x =
        (.out, .head n (r = EOT ∨ r = EOF)) := fun b r x => Prod.ext rfl (if_pos rfl)
  refine .perform trivial fun r x _ => ?_
  rw [hshows]
  refine .ite (fun hend => ⟨_, rfl, fun _ => decide_eq_true (.inl hend)⟩) fun _ => ?_
  refine .perform trivial fun r x _ => ?_
  rw [hshows]
  refine ⟨_, rfl, fun hmore => decide_eq_true (.inr ?_)⟩
  exact not_not.mp (of_decide_eq_false hmore)

theorem foreign_tape (round' : Round) {r : Word} (a : Act) (ha : a.Foreign)
    (hround : round.next p .out r a = round') (x : View) :
    (tapeRules p).next (.out, round) a r x = (.out, round') :=
  Prod.ext (ha.follows.2 r x (by cases a <;> simp [diskRules])) hround

theorem tapeToDisk_tape (hp : p < 64) (n : Nat) (b : Bool) :
    Follows (tapeRules p) (tapeToDisk p (BitVec.ofNat 32 n)) (.out, .head n b) fun _ s =>
      ∃ n, s = (.out, .head n true) := by
  have hreg : getDeviceReg TAPEINT (p - 1) ≠ Sys.disk0Reg := tapeReg_ne hp
  refine (onTape_tape n b).bind ?_
  rintro more _ ⟨b, rfl, hend⟩
  cases more with
  | false => exact ⟨n, by rw [hend rfl]⟩
  | true =>
    refine .issue trivial fun r x _ => ?_
    rw [foreign_tape (.head n b) (.setData0 _ _) hreg rfl]
    refine .issue trivial fun r x _ => ?_
    rw [foreign_tape (.head n b) (.setCommand _ _) hreg rfl]
    refine .perform ⟨rfl, rfl, rfl⟩ fun status x _ => ?_
    refine .leaveIf (fun _ => trivial) fun hready => ?_
    obtain rfl : status = READY := not_not.mp hready
    rw [foreign_tape (.full n) (.waitio TAPEINT (p - 1) 0) (tape_foreign hp)
      (Round.next_read _ n b ⟨rfl, rfl, rfl⟩)]
    refine (diskIO_tape n ..).bind ?_
    rintro _ _ rfl
    refine ⟨n + 1, false, rfl, rfl, ?_⟩
    exact (BitVec.ofNat_add n 1).symm

end Kaya.Phase3
