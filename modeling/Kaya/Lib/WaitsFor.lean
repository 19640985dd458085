import Mathlib.Logic.Relation
import Mathlib.Order.WellFounded

/-!
# Who waits for whom

Processes wait for resources that processes owe.  Where each of them waits only for a resource
that ranks above all that it owes itself, nobody waits for himself by way of others, and from
everybody who waits a way leads to somebody who does not.
-/

namespace Kaya.Lib

variable {ι ρ α : Type}

/-- `p` waits for something that `q` owes. -/
def BlockedBy (waits owes : ι → ρ → Prop) (p q : ι) : Prop := ∃ x, waits p x ∧ owes q x

/-- Resources are asked for in the order of their ranks, and somebody owes what is waited for. -/
structure Ranked [LT α] (rank : ρ → α) (waits owes : ι → ρ → Prop) : Prop where
  above : ∀ p x y, waits p x → owes p y → rank y < rank x
  owed : ∀ p x, waits p x → ∃ q, owes q x

namespace Ranked

variable [Preorder α] {rank : ρ → α} {waits owes : ι → ρ → Prop} {p q : ι}

/-- Along a way the ranks do not fall. -/
theorem rises (h : Ranked rank waits owes)
    (hway : Relation.TransGen (BlockedBy waits owes) p q) :
    ∃ x y, waits p x ∧ owes q y ∧ rank x ≤ rank y := by
  induction hway with
  | single hpq =>
    obtain ⟨x, hx, hy⟩ := hpq
    exact ⟨x, x, hx, hy, le_rfl⟩
  | tail _ hstep ih =>
    obtain ⟨x, y, hx, hy, hle⟩ := ih
    obtain ⟨z, hz, howes⟩ := hstep
    exact ⟨x, z, hx, howes, hle.trans (h.above _ z y hz hy).le⟩

theorem acyclic (h : Ranked rank waits owes) (p : ι) :
    ¬ Relation.TransGen (BlockedBy waits owes) p p := by
  intro hway
  obtain ⟨x, y, hx, hy, hle⟩ := h.rises hway
  exact (h.above p x y hx hy).not_ge hle

/-- Everybody waits in the end for somebody who does not wait. -/
theorem leads [WellFoundedGT α] (h : Ranked rank waits owes) (p : ι) :
    ∃ q, Relation.ReflTransGen (BlockedBy waits owes) p q ∧ ∀ x, ¬ waits q x := by
  by_cases hp : ∃ x, waits p x
  swap
  · exact ⟨p, .refl, fun x hx => hp ⟨x, hx⟩⟩
  obtain ⟨x, hx⟩ := hp
  generalize hr : rank x = r
  induction r using WellFoundedGT.induction generalizing p x with
  | ind r ih =>
    obtain ⟨q, hq⟩ := h.owed p x hx
    have hpq : BlockedBy waits owes p q := ⟨x, hx, hq⟩
    by_cases hwait : ∃ y, waits q y
    · obtain ⟨y, hy⟩ := hwait
      obtain ⟨q', hway, hfree⟩ := ih (rank y) (hr ▸ h.above q y x hy hq) q y hy rfl
      exact ⟨q', .head hpq hway, hfree⟩
    · exact ⟨q, .single hpq, fun y hy => hwait ⟨y, hy⟩⟩

end Ranked

end Kaya.Lib
