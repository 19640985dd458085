import Mathlib.Data.Finset.Insert
import Mathlib.Data.Finset.Card
import Mathlib.Data.Finset.Erase
import Mathlib.Logic.Function.Basic

/-!
# Finite maps from keys to queues

A key is active while its queue is not empty; only finitely many keys are
active.  Elements join a queue at its end and leave it at its head.
-/

namespace Kaya.Lib

variable {κ α : Type*}

structure QueueMap (κ α : Type*) where
  queue : κ → List α
  active : Finset κ
  mem_active : ∀ k, k ∈ active ↔ queue k ≠ []

namespace QueueMap

def empty : QueueMap κ α where
  queue := fun _ => []
  active := ∅
  mem_active := by simp

@[simp] theorem empty_queue (k : κ) : (empty : QueueMap κ α).queue k = [] := rfl

variable [DecidableEq κ]

def append (m : QueueMap κ α) (k : κ) (a : α) : QueueMap κ α where
  queue := Function.update m.queue k (m.queue k ++ [a])
  active := insert k m.active
  mem_active := by
    intro j
    by_cases hj : j = k
    · subst hj
      simp
    · simp [hj, m.mem_active]

def dropHead (m : QueueMap κ α) (k : κ) : QueueMap κ α where
  queue := Function.update m.queue k (m.queue k).tail
  active := if (m.queue k).tail = [] then m.active.erase k else m.active
  mem_active := by
    intro j
    by_cases hj : j = k
    · subst hj
      by_cases ht : (m.queue j).tail = []
      · simp [ht]
      · have hne : m.queue j ≠ [] := by
          rintro hnil
          rw [hnil] at ht
          exact ht rfl
        simp [ht, m.mem_active, hne]
    · by_cases ht : (m.queue k).tail = []
      · simp [ht, hj, m.mem_active]
      · simp [ht, hj, m.mem_active]

theorem append_queue (m : QueueMap κ α) (k : κ) (a : α) :
    (m.append k a).queue = Function.update m.queue k (m.queue k ++ [a]) := rfl

theorem dropHead_queue (m : QueueMap κ α) (k : κ) :
    (m.dropHead k).queue = Function.update m.queue k (m.queue k).tail := rfl

theorem dropHead_queue_of_nil {m : QueueMap κ α} {k : κ} (h : m.queue k = []) :
    (m.dropHead k).queue = m.queue := by
  rw [dropHead_queue, h, List.tail_nil, ← h, Function.update_eq_self]

variable {m : QueueMap κ α} {k j : κ} {a b : α}

theorem mem_append :
    b ∈ (m.append k a).queue j ↔ b ∈ m.queue j ∨ j = k ∧ b = a := by
  by_cases hj : j = k
  · subst hj
    simp [append_queue]
  · simp [append_queue, hj]

theorem mem_of_dropHead (h : b ∈ (m.dropHead k).queue j) : b ∈ m.queue j := by
  rw [dropHead_queue] at h
  by_cases hj : j = k
  · subst hj
    rw [Function.update_self] at h
    exact List.mem_of_mem_tail h
  · rwa [Function.update_of_ne hj] at h

/-! ## How many keys are active -/

/-- Only members of `X` stand in queues. -/
def Within (m : QueueMap κ α) (X : Finset α) : Prop := ∀ k, ∀ a ∈ m.queue k, a ∈ X

omit [DecidableEq κ] in
theorem empty_within (X : Finset α) : (empty : QueueMap κ α).Within X := by
  intro k a ha
  cases ha

theorem Within.append {X : Finset α} (h : m.Within X) (ha : a ∈ X) : (m.append k a).Within X := by
  intro j b hb
  rcases mem_append.mp hb with hb | ⟨-, rfl⟩
  · exact h j b hb
  · exact ha

theorem Within.dropHead {X : Finset α} (h : m.Within X) : (m.dropHead k).Within X :=
  fun j b hb => h j b (mem_of_dropHead hb)

omit [DecidableEq κ] in
/-- Each active key has a first element of its own. -/
theorem Within.card_active_le {X : Finset α} (h : m.Within X)
    (hdisj : ∀ j k a, a ∈ m.queue j → a ∈ m.queue k → j = k) : m.active.card ≤ X.card := by
  have hX : (X.map Function.Embedding.some).card = X.card := Finset.card_map _
  rw [← hX]
  apply Finset.card_le_card_of_injOn fun k => (m.queue k).head?
  · intro k hk
    obtain ⟨a, ha⟩ := List.exists_mem_of_ne_nil _ ((m.mem_active k).mp hk)
    cases hq : m.queue k with
    | nil => simp [hq] at ha
    | cons b bs =>
        have hb : b ∈ X := h k b (by simp [hq])
        have hhead : (m.queue k).head? = some b := by rw [hq]; rfl
        exact Finset.mem_coe.mpr (Finset.mem_map.mpr ⟨b, hb, hhead.symm⟩)
  · intro j hj k hk heq
    cases hq : m.queue j with
    | nil => exact absurd hq ((m.mem_active j).mp hj)
    | cons b bs =>
        have hhead : (m.queue k).head? = some b := by
          have hj : (m.queue j).head? = (m.queue k).head? := heq
          rw [← hj, hq]
          rfl
        exact hdisj j k b (by simp [hq]) (List.mem_of_mem_head? hhead)

end QueueMap

end Kaya.Lib
