import Kaya.Lib.Kernel
import Kaya.Phase3.Ends

/-!
# The processes of phase 3 and the kernel

Seen from above the nucleus is a kernel: what the processes call for, and what the devices report,
are operations on its counting semaphores, and a trap without a vector is the end of a process.
-/

namespace Kaya.Phase3

open Lib

def Life.standing : Life → Standing
  | .unborn | .dead => .absent
  | .ready => .ready
  | .blocked => .blocked

namespace Sys

section Steps

variable {ι : Type} [DecidableEq ι] {S : Setup ι} {s t : Sys ι} {e : Event ι} {p q : ι} {a : Act}
  {k : Word → Prog} {r i : Word} {l : List (Kernel.Op ι (Sem ⊕ Word))}

/-- The kernel on which the processes run, with the semaphores of phase 3 and those of the
devices. -/
def kernel (s : Sys ι) : Kernel ι (Sem ⊕ Word) where
  standing := Life.standing ∘ s.life
  running := s.running
  sem := Sum.elim s.sem s.dev

/-! ## What is asked for -/

/-- A trap asks for the end of a process that has no vector for it. -/
def trapped (s : Sys ι) (p : ι) : Option Trap → List (Kernel.Op ι (Sem ⊕ Word))
  | none => []
  | some type => if (s.task p).new type = none then [.exit p] else []

/-- The trap of an access to `virtAddr`, if any. -/
def missed (s : Sys ι) (p : ι) (virtAddr : Word) : Option Trap :=
  match s.entry p (virtAddr >>> 12) with
  | none => some .tlb
  | some e => if Valid e then none else some .tlb

/-- What an action of `p` asks of the kernel. -/
def calls (S : Setup ι) (s : Sys ι) (p : ι) : Act → List (Kernel.Op ι (Sem ⊕ Word))
  | .passeren x => [.down p (.inl x)]
  | .verhogen x => [.up (.inl x)]
  | .waitio l d u => if l < DISKINT then [.exit p] else [.down p (.inr (waitioIndex l d u))]
  | .createprocess sAsid _ =>
      if s.life (S.child sAsid) = .unborn then [.create (S.child sAsid)] else []
  | .spectrapvec type _ => if (s.task p).new type = none then [] else [.exit p]
  | .load virtAddr => s.trapped p (s.missed p virtAddr)
  | .getSTATUS | .setSTATUS _ | .getENTRYHI | .TLBCLR | .setCommand _ _ | .setData0 _ _
  | .setData1 _ _ | .getData1 _ | .tables _ => []

def UserAct.trap (s : Sys ι) (p : ι) : UserAct → Option Trap
  | .load virtAddr | .store virtAddr _ => s.missed p virtAddr
  | .syscall st => if st.a0 ≤ 8 then some .pgm else some .sys
  | .progTrap _ => some .pgm
  | .tlbTrap _ => some .tlb

def leaves (s : Sys ι) (p : ι) : Leave → List (Kernel.Op ι (Sem ⊕ Word))
  | .terminate => s.trapped p (some .sys)
  | .terminateprocess => [.exit p]
  | .ldst _ _ | .user _ _ _ _ | .again _ _ => []

/-- What an event asks of the kernel. -/
def asks (S : Setup ι) (s : Sys ι) : Event ι → List (Kernel.Op ι (Sem ⊕ Word))
  | .step _ => s.running.toList.flatMap fun p =>
      match (s.task p).prog with
      | .done _ => []
      | .leave l => s.leaves p l
      | .act a _ => s.calls S p a
  | .user u => s.running.toList.flatMap fun p => s.trapped p (UserAct.trap s p u)
  | .diskInt _ => if s.disk.busy = none then [] else [.up (.inr 0)]
  | .devInt i _ => [.up (.inr i)]
  | .dispatch _ | .tapeDma _ _ | .tlbDrop _ _ => []

def asked (S : Setup ι) (h : List (Sys ι × Event ι)) : List (Kernel.Op ι (Sem ⊕ Word)) :=
  h.flatMap fun x => x.1.asks S x.2

/-! ## Steps -/

/-- `test` has ended, or the kernel did what it was asked for. -/
def Serves (s t : Sys ι) (l : List (Kernel.Op ι (Sem ⊕ Word))) : Prop :=
  t.Halted ∨ ∃ os, s.kernel.Goes os t.kernel ∧ os.filter Kernel.Op.isService = l

theorem Serves.none (h : t.kernel = s.kernel) : Serves s t [] :=
  .inr ⟨[], h ▸ .refl, rfl⟩

theorem Serves.one {o : Kernel.Op ι (Sem ⊕ Word)} (hallows : s.kernel.Allows o)
    (ho : o.isService = true) (h : t.kernel = s.kernel.perform o) : Serves s t [o] :=
  .inr ⟨[o], h ▸ .one hallows, List.filter_eq_self.mpr (by simpa using ho)⟩

theorem standing_update (f : ι → Life) (p : ι) (v : Life) :
    Life.standing ∘ Function.update f p v = Function.update (Life.standing ∘ f) p v.standing :=
  Function.comp_update ..

end Steps

end Sys

/-! ## Runs -/

open Sys

variable {K : Layout} {junk : Word} {h : List (Sys Word × Event Word)} {s : Sys Word}

def bootKernel : Kernel Word (Sem ⊕ Word) := .alone 0 (Sum.elim Sem.first fun _ => 0)

theorem Sys.Booted.kernel (hs : s.Booted) : s.kernel = bootKernel.perform .pause := by
  have hstanding : Life.standing ∘ s.life = Function.update (fun _ => Standing.absent) 0 .ready := by
    rw [hs.alone, standing_update]
    rfl
  have hsem : Sum.elim s.sem s.dev = bootKernel.sem := by
    funext x
    cases x with
    | inl x =>
      have hvalue : (s.sem x).value = max 0 x.first :=
        (hs.sem x).trans (max_eq_right x.first_nonneg).symm
      refine Semaphore.ext hvalue ?_
      exact (Semaphore.waiters_eq_nil_iff _).mpr (hvalue ▸ le_max_left ..)
    | inr i =>
      refine Semaphore.ext (hs.dev i) ?_
      exact (Semaphore.waiters_eq_nil_iff _).mpr (hs.dev i).ge
  unfold Sys.kernel
  rw [hstanding, hsem, hs.running]
  rfl

end Kaya.Phase3
