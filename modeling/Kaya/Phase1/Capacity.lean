import Kaya.Phase1.SemaphoreMap

/-!
# The descriptors suffice

Each active descriptor has a waiter of its own, so `MAXPROC` PCBs never use up the descriptors
that `initASL` puts on `semdFree_h`, two of which the sentinels take.
-/

namespace Kaya

open Lib

variable {π δ : Type} {m : QueueMap Word π} {X : Finset π}

namespace AslCall

def Within (X : Finset π) : AslCall π → Prop
  | insert _ (some p) => p ∈ X
  | insert _ none | remove _ | head _ => True

theorem next_within {c : AslCall π} (hm : m.Within X) (hc : c.Within X) : (c.next m).Within X := by
  cases c with
  | insert a p =>
      cases p with
      | none => exact hm
      | some p =>
          by_cases hfull : a ∉ m.active ∧ m.active.card = MAXPROC
          · have hserve : (insert a (some p)).serve m = (.inserted true, m) := if_pos hfull
            rw [next, hserve]
            exact hm
          · have hserve : (insert a (some p)).serve m = (.inserted false, m.append a p) :=
              if_neg hfull
            rw [next, hserve]
            exact hm.append hc
  | remove a => exact hm.dropHead
  | head a => exact hm

/-- A PCB that waits nowhere is one of `X` without a descriptor of its own. -/
theorem serve_insert (hm : m.Within X) (hdisj : QueuesDisjoint m.queue)
    (hcard : X.card ≤ MAXPROC) {a : Word} {p : π} (hp : p ∈ X) (hout : ∀ b, p ∉ m.queue b) :
    ((insert a (some p)).serve m).1 = .inserted false := by
  classical
  have hm' : m.Within (X.erase p) := by
    intro k q hq
    refine Finset.mem_erase.mpr ⟨?_, hm k q hq⟩
    rintro rfl
    exact hout k hq
  have hle : m.active.card ≤ (X.erase p).card := hm'.card_active_le hdisj
  have hlt : (X.erase p).card < X.card := Finset.card_erase_lt_of_mem hp
  have hroom : ¬ (a ∉ m.active ∧ m.active.card = MAXPROC) := by
    rintro ⟨-, hfull⟩
    omega
  have hserve : (insert a (some p)).serve m = (.inserted false, m.append a p) := if_neg hroom
  rw [hserve]

end AslCall

variable [DecidableEq π] [DecidableEq δ] [Fintype δ] {s : Phase1 π δ}

/-- No insertion of a PCB is answered with `TRUE`. -/
theorem Represents.has_room (h : Represents s m) (hδ : Fintype.card δ = MAXPROC + 2)
    (hX : X.card ≤ MAXPROC) (hm : m.Within X) {cs : List (AslCall π)}
    (hcs : AllOk AslCall.next (fun m c => c.Allowed m) m cs) (hin : ∀ c ∈ cs, c.Within X)
    {i : Nat} {a : Word} {p : π} (hi : cs[i]? = some (.insert a (some p))) :
    (AslCall.answers m cs)[i]? = some (.inserted false) := by
  induction cs generalizing s m i with
  | nil => cases hi
  | cons c cs ih =>
      obtain ⟨s', -, h'⟩ := h.call hδ hcs.1
      have hc : c.Within X := hin c List.mem_cons_self
      cases i with
      | zero =>
          obtain rfl : c = .insert a (some p) := Option.some.inj hi
          exact congrArg some (AslCall.serve_insert hm h.disjoint hX hc (hcs.1.2 p rfl))
      | succ i =>
          exact ih h' (AslCall.next_within hm hc) hcs.2
            (fun d hd => hin d (List.mem_cons_of_mem _ hd)) hi

end Kaya
