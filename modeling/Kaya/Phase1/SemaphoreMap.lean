import Kaya.Phase1.Proofs.Alloc
import Kaya.Lib.QueueMap
import Kaya.Lib.Triple
import Kaya.Lib.Run

/-!
# The semaphore list as a map

After `initASL` the active semaphore list behaves like a finite map from
semaphore addresses to FIFO queues that has room for `MAXPROC` addresses.
-/

namespace Kaya

open Lib

variable {π δ : Type}

/-! ## What the list stands for -/

/-- The active list represents `m`, and every waiter names the semaphore it waits for. -/
structure Represents (s : Phase1 π δ) (m : QueueMap Word π) : Prop where
  asl : IsAsl s.lk m.queue
  semAdd : ∀ a, ∀ p ∈ m.queue a, s.pcb.pSemAdd p = a

namespace Represents

variable {s : Phase1 π δ} {m : QueueMap Word π}

/-- A PCB names one semaphore, so it waits in one queue. -/
theorem disjoint (h : Represents s m) : QueuesDisjoint m.queue := by
  intro a b p hpa hpb
  rw [← h.semAdd a p hpa, h.semAdd b p hpb]

end Represents

/-- One active descriptor for each active address, and the two sentinels. -/
theorem AslShape.length_active {lk : Links π δ} {m : QueueMap Word π} {act free : List δ}
    (h : AslShape lk m.queue act free) : act.length = m.active.card + 2 := by
  have hnd : (act.map lk.sSemAdd).Nodup := by
    refine h.active.nodup.map_on ?_
    exact fun d hd e he heq => h.semAdd_inj hd he heq
  have hmem : ∀ a, a ∈ act.map lk.sSemAdd ↔ a = MININT ∨ a = MAXINT ∨ a ∈ m.active := by
    intro a
    rw [List.mem_map, m.mem_active]
    constructor
    · rintro ⟨d, hd, rfl⟩
      by_cases hmin : lk.sSemAdd d = MININT
      · exact .inl hmin
      · by_cases hmax : lk.sSemAdd d = MAXINT
        · exact .inr (.inl hmax)
        · exact .inr (.inr (h.queue d hd hmin hmax).1)
    · rintro (rfl | rfl | ha)
      · exact h.first
      · exact h.last
      · exact (h.keys a ha).2.2
  have hset : (act.map lk.sSemAdd).toFinset = insert MININT (insert MAXINT m.active) := by
    ext a
    rw [List.mem_toFinset, hmem]
    simp
  have hmin : MININT ∉ insert MAXINT m.active := by
    rw [Finset.mem_insert, not_or, m.mem_active]
    exact ⟨by decide, fun ha => (h.keys _ ha).1 rfl⟩
  have hmax : MAXINT ∉ m.active := by
    rw [m.mem_active]
    exact fun ha => (h.keys _ ha).2.1 rfl
  have hcard := List.toFinset_card_of_nodup hnd
  rw [hset, Finset.card_insert_of_notMem hmin, Finset.card_insert_of_notMem hmax,
    List.length_map] at hcard
  omega

/-- No descriptor is free exactly when the map has no more room. -/
theorem AslShape.semdFree_eq_none_iff [Fintype δ] {lk : Links π δ} {m : QueueMap Word π}
    {act free : List δ} (h : AslShape lk m.queue act free)
    (hcard : Fintype.card δ = MAXPROC + 2) :
    lk.semdFree = none ↔ m.active.card = MAXPROC := by
  have hnd : (act ++ free).Nodup := by
    rw [List.nodup_append]
    refine ⟨h.active.nodup, h.unused.nodup, ?_⟩
    rintro d hd e he rfl
    exact h.disj d hd he
  have hall : (act ++ free).length = Fintype.card δ := by
    classical
    rw [← List.toFinset_card_of_nodup hnd, ← Finset.card_univ]
    congr 1
    ext d
    simpa using h.all d
  rw [List.length_append, h.length_active, hcard] at hall
  rw [h.unused.none_iff, ← List.length_eq_zero_iff]
  omega

/-! ## Calls -/

inductive AslCall (π : Type) where
  | insert (semAdd : Word) (p : Option π)
  | remove (semAdd : Word)
  | head (semAdd : Word)

inductive AslAnswer (π : Type) where
  | inserted (full : Bool)
  | waiter (p : Option π)
  deriving DecidableEq

namespace AslCall

def serve (m : QueueMap Word π) : AslCall π → AslAnswer π × QueueMap Word π
  | insert _ none => (.inserted true, m)
  | insert a (some p) =>
      if a ∉ m.active ∧ m.active.card = MAXPROC then (.inserted true, m)
      else (.inserted false, m.append a p)
  | remove a => (.waiter (m.queue a).head?, m.dropHead a)
  | head a => (.waiter (m.queue a).head?, m)

def next (m : QueueMap Word π) (c : AslCall π) : QueueMap Word π := (c.serve m).2

/-- The answers of the map to a list of calls. -/
def answers (m : QueueMap Word π) : List (AslCall π) → List (AslAnswer π)
  | [] => []
  | c :: cs => (c.serve m).1 :: answers (c.next m) cs

/-- The address can have a descriptor, and a PCB is inserted only while it is on no queue. -/
def Allowed (m : QueueMap Word π) : AslCall π → Prop
  | insert a p => SemAddr a ∧ ∀ q ∈ p, ∀ b, q ∉ m.queue b
  | remove a => SemAddr a
  | head a => SemAddr a

variable [DecidableEq π] [DecidableEq δ] [Fintype δ]

def run : AslCall π → Phase1M π δ (AslAnswer π)
  | insert a p => do return .inserted (← insertBlocked a p)
  | remove a => do return .waiter (← removeBlocked a)
  | head a => do return .waiter (← headBlocked a)

def runAll : List (AslCall π) → Phase1M π δ (List (AslAnswer π))
  | [] => return []
  | c :: cs => do
    let r ← run c
    return r :: (← runAll cs)

end AslCall

/-! ## The list follows the map -/

section Refinement

variable [DecidableEq π] [DecidableEq δ] [Fintype δ] {s : Phase1 π δ} {m : QueueMap Word π}

namespace Represents

theorem insert (h : Represents s m) (hcard : Fintype.card δ = MAXPROC + 2) {a : Word}
    (ha : SemAddr a) {p : π} (hp : ∀ b, p ∉ m.queue b)
    (hroom : ¬ (a ∉ m.active ∧ m.active.card = MAXPROC)) :
    ∃ s', insertBlocked a (some p) s = .ok false s' ∧ Represents s' (m.append a p) := by
  have hfree : m.queue a = [] → s.lk.semdFree ≠ none := by
    intro hQ hnone
    obtain ⟨act, free, hshape⟩ := h.asl
    have hact : a ∉ m.active := by
      rw [m.mem_active]
      exact fun hne => hne hQ
    exact hroom ⟨hact, (hshape.semdFree_eq_none_iff hcard).mp hnone⟩
  obtain ⟨lk, hrun, hasl, -⟩ := insertBlocked_spec h.asl h.disjoint ha hp hfree
  refine ⟨_, hrun, hasl, ?_⟩
  intro b q hq
  rcases QueueMap.mem_append.mp hq with hq | ⟨rfl, rfl⟩
  · have hne : q ≠ p := fun heq => hp b (heq ▸ hq)
    exact (Function.update_of_ne hne _ _).trans (h.semAdd b q hq)
  · exact Function.update_self ..

theorem remove (h : Represents s m) {a : Word} (ha : SemAddr a) :
    ∃ s', removeBlocked a s = .ok (m.queue a).head? s' ∧ Represents s' (m.dropHead a) := by
  cases hQ : m.queue a with
  | nil =>
      refine ⟨s, removeBlocked_nil h.asl ha hQ, ?_, ?_⟩
      · rw [QueueMap.dropHead_queue_of_nil hQ]
        exact h.asl
      · exact fun b q hq => h.semAdd b q (QueueMap.mem_of_dropHead hq)
  | cons p ps =>
      obtain ⟨lk, hrun, hasl, -⟩ := removeBlocked_spec h.asl h.disjoint ha hQ
      refine ⟨_, hrun, ?_, ?_⟩
      · rw [QueueMap.dropHead_queue, hQ]
        exact hasl
      · intro b q hq
        -- the removed head is in no queue any more
        have hne : q ≠ p := by
          rintro rfl
          have hab := h.disjoint b a q (QueueMap.mem_of_dropHead hq) (by simp [hQ])
          subst hab
          rw [QueueMap.dropHead_queue, Function.update_self, hQ] at hq
          obtain ⟨act, free, hshape⟩ := h.asl
          have hnd := hshape.nodup_queue b
          rw [hQ] at hnd
          exact (List.nodup_cons.mp hnd).1 hq
        exact (Function.update_of_ne hne _ _).trans
          (h.semAdd b q (QueueMap.mem_of_dropHead hq))

theorem call (h : Represents s m) (hcard : Fintype.card δ = MAXPROC + 2) {c : AslCall π}
    (hc : c.Allowed m) :
    ∃ s', c.run s = .ok (c.serve m).1 s' ∧ Represents s' (c.next m) := by
  cases c with
  | insert a p =>
      obtain ⟨ha, hp⟩ := hc
      cases p with
      | none =>
          exact ⟨s, bind_ok (insertBlocked_null h.asl ha), h⟩
      | some p =>
          by_cases hfull : a ∉ m.active ∧ m.active.card = MAXPROC
          · have hserve : (AslCall.insert a (some p)).serve m = (.inserted true, m) :=
              if_pos hfull
            obtain ⟨act, free, hshape⟩ := h.asl
            have hQ : m.queue a = [] := by
              by_contra hne
              exact hfull.1 ((m.mem_active a).mpr hne)
            have hnone := (hshape.semdFree_eq_none_iff hcard).mpr hfull.2
            rw [AslCall.next, hserve]
            exact ⟨s, bind_ok (insertBlocked_full h.asl ha hQ hnone p), h⟩
          · have hserve : (AslCall.insert a (some p)).serve m =
                (.inserted false, m.append a p) := if_neg hfull
            obtain ⟨s', hrun, h'⟩ := h.insert hcard ha (hp p rfl) hfull
            rw [AslCall.next, hserve]
            exact ⟨s', bind_ok hrun, h'⟩
  | remove a =>
      obtain ⟨s', hrun, h'⟩ := h.remove hc
      exact ⟨s', bind_ok hrun, h'⟩
  | head a => exact ⟨s, bind_ok (headBlocked_spec h.asl hc), h⟩

end Represents

end Refinement

/-! ## `TRUE` leaves everything as it was -/

section Full

/-- From `s` a program returns in `s`, if it returns. -/
def Reads {α : Type} (s : Phase1 π δ) (x : Phase1M π δ α) : Prop :=
  Triple (· = s) x (fun _ t => t = s) fun _ _ => True

variable {s : Phase1 π δ}

theorem deref_reads {α : Type} (s : Phase1 π δ) (p : Option α) :
    Reads s (deref p : Phase1M π δ α) := by
  cases p with
  | none => exact Triple.throw fun _ _ => True.intro
  | some p => exact Triple.pure fun _ ht => ht

theorem field_reads {α β : Type} (s : Phase1 π δ) (p : Option α) (f : Phase1 π δ → α → β) :
    Reads s (do
      let p ← deref p
      return f (← get) p) :=
  Triple.bind (deref_reads s p) fun _ => Triple.get_bind fun _ ht =>
    Triple.pure fun _ hu => hu.trans ht

theorem findASemdLoop_reads (i : Word) (n : Nat) (d : Option δ) :
    Reads s (findASemdLoop i n d) := by
  induction n generalizing d with
  | zero => exact Triple.throw fun _ _ => True.intro
  | succ n ih =>
      refine Triple.bind (field_reads s _ _) fun e => Triple.bind (field_reads s _ _) fun w => ?_
      refine Triple.ite (fun _ => ?_) fun _ => Triple.pure fun _ ht => ht
      exact Triple.bind (field_reads s _ _) fun e => ih e

theorem findASemd_reads [Fintype δ] (i : Word) : Reads s (findASemd i) :=
  Triple.get_bind fun _ ht => ht ▸ findASemdLoop_reads i _ _

/-- A program whose last step is `return FALSE` does not return `TRUE`. -/
theorem false_last {α : Type} {P : Phase1 π δ → Prop} (x : Phase1M π δ α) :
    Triple P (do let _ ← x; return false) (fun full t => full = true → t = s)
      fun _ _ => True :=
  Triple.bind Triple.trivial fun _ => Triple.pure fun _ _ h => (nomatch h)

theorem insertBlocked_true [DecidableEq π] [DecidableEq δ] [Fintype δ] (a : Word)
    (p : Option π) : Triple (· = s) (insertBlocked a p : Phase1M π δ Bool)
      (fun full t => full = true → t = s) fun _ _ => True := by
  refine Triple.bind (findASemd_reads a) fun d => Triple.bind (field_reads s _ _) fun e => ?_
  refine Triple.ite (fun _ => Triple.pure fun _ ht _ => ht) fun _ => ?_
  refine Triple.bind (field_reads s _ _) fun w => ?_
  -- every path that writes ends with `FALSE`
  refine Triple.ite (fun _ => ?_) fun _ => ?_
  · refine Triple.bind Triple.trivial fun _ => Triple.bind Triple.trivial fun _ => ?_
    exact Triple.bind Triple.trivial fun _ => false_last _
  · refine Triple.get_bind fun t ht => ?_
    refine Triple.ite (fun _ => Triple.pure fun _ hu _ => hu.trans ht) fun _ => ?_
    refine Triple.bind Triple.trivial fun _ => Triple.bind Triple.trivial fun _ => ?_
    refine Triple.bind Triple.trivial fun _ => Triple.bind Triple.trivial fun _ => ?_
    refine Triple.bind Triple.trivial fun _ => Triple.bind Triple.trivial fun _ => ?_
    exact Triple.bind Triple.trivial fun _ => false_last _

end Full

/-! ## Whole runs -/

section Runs

variable [DecidableEq π] [DecidableEq δ] [Fintype δ]

theorem Represents.calls {s : Phase1 π δ} {m : QueueMap Word π} (h : Represents s m)
    (hcard : Fintype.card δ = MAXPROC + 2) {cs : List (AslCall π)}
    (hcs : AllOk AslCall.next (fun m c => c.Allowed m) m cs) :
    ∃ s', AslCall.runAll cs s = .ok (AslCall.answers m cs) s' ∧
      Represents s' (cs.foldl AslCall.next m) := by
  induction cs generalizing s m with
  | nil => exact ⟨s, rfl, h⟩
  | cons c cs ih =>
      obtain ⟨s₁, hrun, h₁⟩ := h.call hcard hcs.1
      obtain ⟨s', hrest, h'⟩ := ih h₁ hcs.2
      exact ⟨s', (bind_ok hrun).trans (bind_ok hrest), h'⟩

omit [DecidableEq π] in
theorem initASL_represents {semdArr : List δ} (hnd : semdArr.Nodup)
    (hall : ∀ d, d ∈ semdArr) (hlen : semdArr.length = MAXPROC + 2) (s : Phase1 π δ) :
    Fintype.card δ = MAXPROC + 2 ∧
      ∃ s₀, initASL semdArr s = .ok () s₀ ∧ Represents s₀ QueueMap.empty := by
  constructor
  · rw [← hlen, ← List.toFinset_card_of_nodup hnd, ← Finset.card_univ]
    congr 1
    ext d
    simp [hall d]
  · obtain ⟨sn, sa, sq, act, free, hrun, hasl⟩ := initASL_spec s hnd hall (by omega)
    refine ⟨_, hrun, hasl, ?_⟩
    intro a p hp
    cases hp

/-- After `initASL` every list of calls gets the answers of the map, the list represents
the map after each of them, and an insertion that returns `TRUE` changes nothing. -/
theorem asl_serves {semdArr : List δ} (hnd : semdArr.Nodup) (hall : ∀ d, d ∈ semdArr)
    (hlen : semdArr.length = MAXPROC + 2) (s : Phase1 π δ) (cs : List (AslCall π))
    (hcs : AllOk AslCall.next (fun m c => c.Allowed m) QueueMap.empty cs) :
    ∃ s₀ s', initASL semdArr s = .ok () s₀ ∧
      AslCall.runAll cs s₀ = .ok (AslCall.answers QueueMap.empty cs) s' ∧
      Represents s' (cs.foldl AslCall.next QueueMap.empty) ∧
      ∀ a p s'', insertBlocked a p s' = .ok true s'' → s'' = s' := by
  obtain ⟨hcard, s₀, hinit, h₀⟩ := initASL_represents hnd hall hlen s
  obtain ⟨s', hrun, h'⟩ := h₀.calls hcard hcs
  refine ⟨s₀, s', hinit, hrun, h', ?_⟩
  intro a p s'' hins
  have htrue := insertBlocked_true (s := s') a p s' rfl
  rw [hins] at htrue
  exact htrue rfl

end Runs

/-- Two PCBs wait for the semaphore at 4, and the first of them is removed. -/
theorem asl_serves_two :
    ∃ s₀ s' : Phase1 (Fin 2) (Fin (MAXPROC + 2)),
      initASL (List.finRange (MAXPROC + 2)) Phase1.sample = .ok () s₀ ∧
      AslCall.runAll [.insert 4 (some 0), .insert 4 (some 1), .remove 4] s₀ =
        .ok [.inserted false, .inserted false, .waiter (some 0)] s' ∧
      Represents s' ((QueueMap.empty.append 4 0).append 4 1 |>.dropHead 4) ∧
      ∀ a p s'', insertBlocked a p s' = .ok true s'' → s'' = s' := by
  have haddr : SemAddr 4 := ⟨by decide, by decide⟩
  refine asl_serves (List.nodup_finRange _) List.mem_finRange (List.length_finRange ..)
    Phase1.sample [.insert 4 (some 0), .insert 4 (some 1), .remove 4]
    ⟨⟨haddr, ?_⟩, ⟨haddr, ?_⟩, haddr, trivial⟩
  · intro q _ b hq
    cases hq
  · rintro q hq b hmem
    cases hq
    have hnext : AslCall.next QueueMap.empty (.insert 4 (some (0 : Fin 2))) =
        QueueMap.empty.append 4 0 := rfl
    rw [hnext, QueueMap.mem_append] at hmem
    simp at hmem

end Kaya
