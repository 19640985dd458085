import Kaya.Phase1.Proofs.Harmless
import Kaya.Phase2.Exceptions
import Kaya.Phase2.Interrupts

/-!
# What handlers leave alone

`Stays f x` says that `x` leaves what `f` tells of the nucleus as it is, however it ends and
whatever the pointers look like.
-/

namespace Kaya

open Lib

variable {α β γ δ : Type}

/-- The three kinds of trap that a process can have areas for. -/
inductive TrapType where
  | tlb
  | pgm
  | sys
  deriving DecidableEq

def Payload.areas (c : Payload Pcb) (p : Pcb) : TrapType → Word × Word
  | .tlb => (c.pOldTlb p, c.pNewTlb p)
  | .pgm => (c.pOldPgm p, c.pNewPgm p)
  | .sys => (c.pOldSys p, c.pNewSys p)

/-- The fields of a PCB that only its owner's calls change. -/
structure Records where
  pS : Pcb → State
  areas : Pcb → TrapType → Word × Word

def Payload.records (c : Payload Pcb) : Records := ⟨c.pS, c.areas⟩

/-- What no queue operation changes. -/
structure Files where
  mem : Word → Word
  devReg : Word → Device
  intOld : State
  records : Records

def Nucleus.files (s : Nucleus) : Files := ⟨s.mem, s.devReg, s.intOld, s.pcb.records⟩

def Stays (f : Nucleus → γ) (x : NucM α) : Prop :=
  Within (fun s t => f t = f s) (fun _ s t => f t = f s) x

namespace Stays

variable {f : Nucleus → γ} {x y : NucM α}

theorem pure (a : α) : Stays f (pure a : NucM α) := fun _ => rfl

theorem throw (e : Stop) : Stays f (throw e : NucM α) := fun _ => rfl

theorem stop_bind (e : Stop) {g : α → NucM β} : Stays f ((MonadExcept.throw e : NucM α) >>= g) :=
  fun _ => rfl

theorem of_get : Stays f (get : NucM Nucleus) := fun _ => rfl

theorem bind (hx : Stays f x) {g : α → NucM β} (hg : ∀ a, Stays f (g a)) : Stays f (x >>= g) :=
  Within.bind (fun _ _ _ h h' => h'.trans h) (fun _ _ _ _ h h' => h'.trans h) hx hg

theorem ite {c : Prop} [Decidable c] (hx : Stays f x) (hy : Stays f y) :
    Stays f (if c then x else y) := Within.ite hx hy

theorem of_deref (p : Option α) : Stays f (deref p : NucM α) := by
  cases p with
  | none => exact throw _
  | some p => exact pure p

theorem phase1 {x : Phase1M Pcb Semd α} {g : Payload Pcb → δ} (hx : Keeps g x)
    (hf : ∀ s lk c, g c = g s.pcb → f { s with lk.toLinks := lk, pcb := c } = f s) :
    Stays f (phase1 x) :=
  Within.zoom hx (fun _ _ h => hf _ _ _ h) fun _ _ _ h => hf _ _ _ h.2

theorem discard (hx : Stays f x) : Stays f (discard x) := bind hx fun _ => pure _

/-- What follows from the part that stays also stays. -/
theorem map (g : γ → δ) (hx : Stays f x) : Stays (fun s => g (f s)) x :=
  .of_endState fun s => congrArg g (hx.endState s)

end Stays

theorem semBlind_records : SemBlind Payload.records := fun _ _ => rfl

section Files

open Stays

theorem queue_stays {x : Phase1M Pcb Semd α} (hx : Keeps Payload.records x) :
    Stays Nucleus.files (phase1 x) :=
  .phase1 hx fun s _ _ h => congrArg (Files.mk s.mem s.devReg s.intOld) h

theorem emit_stays (o : Obs) : Stays Nucleus.files (emit o) := fun _ => rfl

theorem STCK_stays : Stays Nucleus.files STCK := fun _ => rfl

theorem getPS_stays (p : Option Pcb) : Stays Nucleus.files (getPS p) :=
  .bind (.of_deref p) fun _ => .bind .of_get fun _ => .pure _

theorem insertReady_stays (p : Option Pcb) : Stays Nucleus.files (insertReady p) := by
  refine .bind .of_get fun s => .bind (queue_stays (insertProcQ_keeps _ _)) fun _ => ?_
  refine .bind ?tail fun _ => emit_stays _
  case tail => exact fun _ => rfl

theorem removeReady_stays : Stays Nucleus.files removeReady := by
  refine .bind .of_get fun s => .bind (queue_stays (removeProcQ_keeps _)) fun r => ?_
  refine .bind ?tail fun _ => .pure _
  case tail => exact fun _ => rfl

theorem scheduler_stays : Stays Nucleus.files scheduler := by
  refine .bind .of_get fun _ => .bind (emit_stays _) fun _ => .bind ?reset fun _ => ?_
  case reset => exact fun _ => rfl
  refine .bind removeReady_stays fun p => .ite ?_ ?_
  · refine .bind ?current fun _ => .bind ?timer fun _ => .bind STCK_stays fun _ => ?_
    case current | timer => exact fun _ => rfl
    refine .bind ?start fun _ => .bind .of_get fun _ => .bind (emit_stays _) fun _ => ?_
    case start => exact fun _ => rfl
    exact .bind .of_get fun _ => .bind (getPS_stays _) fun _ => .stop_bind _
  · refine .bind .of_get fun _ => .ite (.stop_bind _) ?_
    refine .bind .of_get fun _ => .ite (.stop_bind _) ?_
    refine .bind .of_get fun _ => .ite ?_ (emit_stays _)
    refine .bind ?waiting fun _ => .bind (.bind .of_get fun _ => .pure _) fun _ => ?_
    case waiting => exact fun _ => rfl
    refine .bind ?status fun _ => .stop_bind _
    case status => exact fun _ => rfl

end Files

end Kaya
