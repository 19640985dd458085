import Kaya.Phase2.Proofs.Plain

/-!
# Every process is in one place

In every state that plain events reach, each PCB is free, running, ready or
blocked on the semaphore its `p_semAdd` names, and nothing else.
-/

namespace Kaya

open Lib

/-- The records of `m` agree with the lists `l` that its pointers represent. -/
structure Accounted (m : Machine) (l : Lists) : Prop where
  /-- Each process is in one of the four places, and in no other. -/
  place : ∀ p, ∃ x : Place, At (m.abs l) p x ∧ ∀ w, x = .blocked w → m.nuc.pcb.pSemAdd p = w
  once : Nodups l
  procCnt : m.nuc.procCnt = (Finset.univ.filter fun p => p ∉ l.free).card
  semAdd : ∀ p, m.nuc.pcb.pSemAdd p = NULL ↔ ∀ w, p ∉ l.blocked w
  /-- The children lists are a forest of live processes. -/
  acyclic : Acyclic l.kids
  parents : UniqueParents l.kids
  live : ∀ p q, p ∈ l.kids q → p ∉ l.free ∧ q ∉ l.free
  bare : ∀ p ∈ l.free, m.nuc.lk.pPrnt p = none ∧ m.nuc.lk.pChild p = none ∧
    m.nuc.lk.pSib p = none

variable {K : Layout} {m : Machine} {l : Lists}

theorem Place.semAdd_eq_null {x : Place} (haddr : ∀ w, x = .blocked w → SemAddr w) :
    x.semAdd = NULL ↔ ∀ w, x ≠ .blocked w := by
  cases x with
  | blocked w =>
      have hne : w ≠ NULL := (haddr w rfl).2
      simp [Place.semAdd, hne]
  | free | running | ready => simp [Place.semAdd]

theorem Place.live_iff {x : Place} : x.Live ↔ x ≠ .free := by
  cases x <;> simp [Place.Live]

theorem Machine.Holds.accounted (h : m.Holds K l) : Accounted m l := by
  obtain ⟨place, hpl⟩ := h.sound.inv.placed
  have hfam : Family l := h.sound.inv.family
  have hsem : ∀ p, m.nuc.pcb.pSemAdd p = (place p).semAdd := hpl.semAdd
  constructor
  case place =>
    intro p
    refine ⟨place p, hpl.spot p, ?_⟩
    intro w hw
    rw [hsem, hw]
    rfl
  case once => exact h.shape.nodups
  case procCnt =>
    have hlive : ∀ p, (place p).Live ↔ p ∉ l.free := by
      intro p
      have hfree : p ∈ l.free ↔ place p = .free := (hpl.spot p).free
      rw [Place.live_iff, hfree]
    have hcnt : m.nuc.procCnt = count Place.Live place := hpl.procCnt
    rw [hcnt, count]
    congr 1
    exact congrArg Finset.card (Finset.filter_congr fun p _ => hlive p)
  case semAdd =>
    intro p
    rw [hsem, Place.semAdd_eq_null (hpl.addr p)]
    have hblk : ∀ w, p ∈ l.blocked w ↔ place p = .blocked w := (hpl.spot p).blocked
    simp only [hblk, ne_eq]
  case acyclic => exact hfam.acyclic
  case parents => exact h.shape.parents
  case live => exact fun p q hp => ⟨hfam.child p q hp, hfam.parent p q hp⟩
  case bare =>
    intro p hp
    obtain ⟨hprnt, hkids⟩ := hfam.orphan h.shape.trees hp
    exact ⟨hprnt, h.shape.kids_eq_nil.mp hkids, h.shape.trees.loose p hprnt⟩

/-- Every state that plain events reach keeps every process in one place. -/
theorem plain_accounted {h : List (Machine × Event)} (hrun : Reaches K (Machine.Plain K) h m) :
    ∃ l, Shape m.nuc.lk l ∧ Accounted m l := by
  obtain ⟨l, hl⟩ := hrun.holds fun _ _ he => he.admits
  exact ⟨l, hl.shape, hl.accounted⟩

/-- The first process creates another one. -/
theorem plain_accounted_create :
    ∃ l, Shape (Machine.step .sample (boot .sample .sample)
        (.syscall (.call CREATEPROCESS 0 0 0))).nuc.lk l ∧
      Accounted (Machine.step .sample (boot .sample .sample)
        (.syscall (.call CREATEPROCESS 0 0 0))) l := by
  have hplain : (boot .sample .sample).Plain .sample
      (.syscall (.call CREATEPROCESS 0 0 0)) := by
    refine ⟨⟨_, boot_cpu _ _⟩, ?_⟩
    constructor
    case user => decide
    case call => exact .inl rfl
    all_goals exact fun h => absurd h (by decide)
  exact plain_accounted (.next (.start ⟨.sample, rfl, rfl⟩) hplain)

end Kaya
