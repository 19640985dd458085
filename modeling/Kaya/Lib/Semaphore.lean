import Mathlib.Data.Int.Order.Basic
import Mathlib.Data.List.Basic

/-!
# Counting semaphores with a line of waiters

A semaphore's value and its line determine each other: a negative value counts
the waiters.  `Semaphore` carries this as a field, so the two operations prove
it once.  A run of operations is a list, the newest first.
-/

namespace Kaya.Lib

structure Semaphore (α : Type) where
  value : Int
  waiters : List α
  balance : (waiters.length : Int) = max 0 (-value)

namespace Semaphore

variable {α : Type} (s : Semaphore α) (p : α)

theorem start_balance {n : Int} (hn : 0 ≤ n) : (([] : List α).length : Int) = max 0 (-n) := by
  rw [List.length_nil]
  omega

def start (n : Int) (hn : 0 ≤ n) : Semaphore α := ⟨n, [], start_balance hn⟩

def zero : Semaphore α := .start 0 le_rfl

def down : Semaphore α where
  value := s.value - 1
  waiters := if s.value ≤ 0 then s.waiters ++ [p] else s.waiters
  balance := by
    have h := s.balance
    split
    · rw [List.length_append, List.length_singleton]
      omega
    · omega

def up : Semaphore α where
  value := s.value + 1
  waiters := s.waiters.tail
  balance := by
    have h := s.balance
    rw [List.length_tail]
    omega

theorem waiters_eq_nil_iff : s.waiters = [] ↔ 0 ≤ s.value := by
  have h := s.balance
  rw [← List.length_eq_zero_iff]
  omega

theorem ext {s t : Semaphore α} (hv : s.value = t.value) (hw : s.waiters = t.waiters) : s = t := by
  cases s
  cases t
  simp_all

/-! ## Runs -/

inductive Op (α : Type) where
  | down (p : α)
  | up

def step : Op α → Semaphore α
  | .down p => s.down p
  | .up => s.up

def run : List (Op α) → Semaphore α
  | [] => s
  | o :: os => (run os).step o

/-- How many callers of `down` pass at an operation. -/
def passes : Op α → Nat
  | .down _ => if 0 < s.value then 1 else 0
  | .up => if s.waiters = [] then 0 else 1

def completed : List (Op α) → Nat
  | [] => 0
  | o :: os => (s.run os).passes o + completed os

def Op.isUp : Op α → Bool
  | .up => true
  | .down _ => false

def Op.isDown (o : Op α) : Bool := !o.isUp

theorem run_value (os : List (Op α)) :
    (s.run os).value = s.value + os.countP Op.isUp - os.countP Op.isDown := by
  induction os with
  | nil => simp [run]
  | cons o os ih =>
      cases o with
      | down p =>
          have h : (s.run (.down p :: os)).value = (s.run os).value - 1 := rfl
          rw [h, ih, List.countP_cons_of_neg (by simp [Op.isUp]), List.countP_cons_of_pos rfl]
          omega
      | up =>
          have h : (s.run (.up :: os)).value = (s.run os).value + 1 := rfl
          rw [h, ih, List.countP_cons_of_pos rfl, List.countP_cons_of_neg (by simp [Op.isDown, Op.isUp])]
          omega

/-- Every call of `down` has passed or is in the line. -/
theorem completed_add_waiters (os : List (Op α)) :
    s.completed os + (s.run os).waiters.length =
      os.countP Op.isDown + s.waiters.length := by
  induction os with
  | nil => simp [completed, run]
  | cons o os ih =>
      cases o with
      | down p =>
          have hc : s.completed (.down p :: os) =
            (if 0 < (s.run os).value then 1 else 0) + s.completed os := rfl
          have hw : (s.run (.down p :: os)).waiters = if (s.run os).value ≤ 0 then
            (s.run os).waiters ++ [p] else (s.run os).waiters := rfl
          rw [hc, hw, List.countP_cons_of_pos rfl]
          by_cases hpos : 0 < (s.run os).value
          · rw [if_pos hpos, if_neg (by omega)]
            omega
          · rw [if_neg hpos, if_pos (by omega), List.length_append, List.length_singleton]
            omega
      | up =>
          have hc : s.completed (.up :: os) =
            (if (s.run os).waiters = [] then 0 else 1) + s.completed os := rfl
          have hw : (s.run (.up :: os)).waiters = (s.run os).waiters.tail := rfl
          rw [hc, hw, List.countP_cons_of_neg (by simp [Op.isDown, Op.isUp]), List.length_tail]
          by_cases hnil : (s.run os).waiters = []
          · rw [if_pos hnil]
            rw [hnil] at ih ⊢
            simpa using ih
          · have hlen := List.length_pos_iff.mpr hnil
            rw [if_neg hnil]
            omega

/-- No more callers pass than the semaphore's start and its `up`s allow. -/
theorem completed_le (hs : s.waiters = []) (os : List (Op α)) :
    (s.completed os : Int) ≤ s.value + os.countP Op.isUp := by
  have hcount := s.completed_add_waiters os
  have hvalue := s.run_value os
  have hbal := (s.run os).balance
  rw [hs, List.length_nil] at hcount
  omega

end Semaphore

end Kaya.Lib
