import Kaya.Phase1.Proofs.Queue
import Kaya.Lib.QueueMap
import Kaya.Lib.Run

/-!
# Process queues as FIFO lists

Any number of queues share the link fields of the PCBs.  As long as a PCB is inserted only
while it is on no queue, each of them is a FIFO list of its own.
-/

namespace Kaya

open Lib

variable {ι π δ : Type}

/-- The tail pointers of the queues, and memory. -/
structure ProcQs (ι π δ : Type) where
  tp : ι → Option π
  mem : Phase1 π δ

inductive QueueCall (ι π : Type) where
  | insert (i : ι) (p : π)
  | remove (i : ι)
  | head (i : ι)

namespace QueueCall

/-- The queue a call is for. -/
def queue : QueueCall ι π → ι
  | insert i _ | remove i | head i => i

section Code

variable [DecidableEq ι] [DecidableEq π]

def onMem {α : Type} (x : Phase1M π δ α) : EStateM Stop (ProcQs ι π δ) α :=
  zoom (·.mem) (fun s t => { s with mem := t }) x

def run : QueueCall ι π → EStateM Stop (ProcQs ι π δ) (Option π)
  | insert i p => do
    let tp ← onMem (insertProcQ ((← get).tp i) (some p))
    modify fun s => { s with tp := Function.update s.tp i tp }
    return none
  | remove i => do
    let (p, tp) ← onMem (removeProcQ ((← get).tp i))
    modify fun s => { s with tp := Function.update s.tp i tp }
    return p
  | head i => do
    onMem (headProcQ ((← get).tp i))

def runAll : List (QueueCall ι π) → EStateM Stop (ProcQs ι π δ) (List (Option π))
  | [] => return []
  | c :: cs => do
    let r ← run c
    return r :: (← runAll cs)

end Code

section Lists

variable [DecidableEq ι]

def serve (m : QueueMap ι π) : QueueCall ι π → Option π × QueueMap ι π
  | insert i p => (none, m.append i p)
  | remove i => ((m.queue i).head?, m.dropHead i)
  | head i => ((m.queue i).head?, m)

def next (m : QueueMap ι π) (c : QueueCall ι π) : QueueMap ι π := (c.serve m).2

def answers (m : QueueMap ι π) : List (QueueCall ι π) → List (Option π)
  | [] => []
  | c :: cs => (c.serve m).1 :: answers (c.next m) cs

/-- A PCB is inserted only while it is on no queue. -/
def Allowed (m : QueueMap ι π) : QueueCall ι π → Prop
  | insert _ p => ∀ j, p ∉ m.queue j
  | remove _ | head _ => True

end Lists

end QueueCall

/-! ## The queues follow the lists -/

/-- Each queue is a circular list that holds its elements, and shares none with another. -/
structure Fifos (s : ProcQs ι π δ) (m : QueueMap ι π) : Prop where
  queue : ∀ i, IsQueue s.mem.lk.pNext s.mem.lk.pPrev (s.tp i) (m.queue i)
  disjoint : ∀ i j p, p ∈ m.queue i → p ∈ m.queue j → i = j

/-- What `c` leaves alone: the tail pointers of the other queues, the links of PCBs that are
not in its own, and everything that is no queue link. -/
structure QueueCall.Leaves (c : QueueCall ι π) (m : QueueMap ι π) (s s' : ProcQs ι π δ) :
    Prop where
  tp : ∀ j, j ≠ c.queue → s'.tp j = s.tp j
  links : AgreeOn (fun u => u ∉ m.queue c.queue ∧ ∀ i, c ≠ .insert i u) s.mem.lk.pNext
    s'.mem.lk.pNext s.mem.lk.pPrev s'.mem.lk.pPrev
  rest : s'.mem = s.mem.relink s'.mem.lk.pNext s'.mem.lk.pPrev
  head : ∀ i, c = .head i → s' = s
  /-- A removed PCB points nowhere. -/
  removed : ∀ i p, c = .remove i → (m.queue i).head? = some p →
    s'.mem.lk.pNext p = none ∧ s'.mem.lk.pPrev p = none

variable {s : ProcQs ι π δ} {m : QueueMap ι π} [DecidableEq ι] [DecidableEq π]

omit [DecidableEq π] in
/-- One queue has changed, and the links of what is on the others have not. -/
theorem Fifos.update (h : Fifos s m) {i : ι} {tp : Option π} {next prev : π → Option π}
    {m' : QueueMap ι π} (hi : IsQueue next prev tp (m'.queue i))
    (hother : ∀ j, j ≠ i → m'.queue j = m.queue j)
    (hdisj : ∀ i j p, p ∈ m'.queue i → p ∈ m'.queue j → i = j)
    (hkeep : ∀ j, j ≠ i → ∀ u ∈ m.queue j,
      next u = s.mem.lk.pNext u ∧ prev u = s.mem.lk.pPrev u) :
    Fifos ⟨Function.update s.tp i tp, s.mem.relink next prev⟩ m' := by
  have hq : ∀ j, IsQueue next prev (Function.update s.tp i tp j) (m'.queue j) := by
    intro j
    by_cases hj : j = i
    · subst hj
      rw [Function.update_self]
      exact hi
    · rw [Function.update_of_ne hj, hother j hj]
      exact (h.queue j).congr (hkeep j hj)
  exact ⟨hq, hdisj⟩

theorem Fifos.insert (h : Fifos s m) (i : ι) {p : π} (hp : ∀ j, p ∉ m.queue j) :
    ∃ s', QueueCall.run (.insert i p) s = .ok none s' ∧ Fifos s' (m.append i p) ∧
      QueueCall.Leaves (.insert i p) m s s' := by
  obtain ⟨next, prev, hrun, hq, hag⟩ := insertProcQ_spec (h.queue i) (hp i)
  have hmem : QueueCall.onMem (insertProcQ (s.tp i) (some p)) s =
      .ok (some p) { s with mem := s.mem.relink next prev } := zoom_ok hrun
  refine ⟨⟨Function.update s.tp i (some p), s.mem.relink next prev⟩, ?_, ?_, ?_⟩
  · rw [QueueCall.run, bind_ok (get_run s), bind_ok hmem]
    rfl
  · refine h.update (by rwa [QueueMap.append_queue, Function.update_self])
      (fun j hj => Function.update_of_ne hj _ _) ?_ ?_
    · intro j k q hj hk
      rcases QueueMap.mem_append.mp hj with hj' | ⟨rfl, rfl⟩
      · rcases QueueMap.mem_append.mp hk with hk' | ⟨rfl, rfl⟩
        · exact h.disjoint j k q hj' hk'
        · exact absurd hj' (hp j)
      · rcases QueueMap.mem_append.mp hk with hk' | ⟨rfl, -⟩
        · exact absurd hk' (hp k)
        · rfl
    · intro j hj u hu
      refine hag u ⟨fun hi => hj (h.disjoint j i u hu hi), ?_⟩
      rintro rfl
      exact hp j hu
  · constructor
    case tp => exact fun j hj => Function.update_of_ne hj _ _
    case links =>
      rintro u ⟨hu, hne⟩
      exact hag u ⟨hu, fun heq => hne i (heq ▸ rfl)⟩
    case rest => rfl
    case head => exact fun _ hc => nomatch hc
    case removed => exact fun _ _ hc => nomatch hc

theorem Fifos.remove (h : Fifos s m) (i : ι) :
    ∃ s', QueueCall.run (.remove i) s = .ok (m.queue i).head? s' ∧ Fifos s' (m.dropHead i) ∧
      QueueCall.Leaves (.remove i) m s s' := by
  have hdisj : ∀ j k p, p ∈ (m.dropHead i).queue j → p ∈ (m.dropHead i).queue k → j = k :=
    fun j k p hj hk =>
      h.disjoint j k p (QueueMap.mem_of_dropHead hj) (QueueMap.mem_of_dropHead hk)
  cases hQ : m.queue i with
  | nil =>
      have hnil : s.tp i = none := (h.queue i).eq_nil_iff.mpr hQ
      have hrun : QueueCall.run (.remove i) s =
          .ok none { s with tp := Function.update s.tp i none } := by
        have hmem : QueueCall.onMem (removeProcQ (s.tp i)) s = .ok (none, none) s := by
          rw [hnil]
          exact zoom_ok (removeProcQ_none s.mem)
        rw [QueueCall.run, bind_ok (get_run s), bind_ok hmem]
        rfl
      have hsame : ({ s with tp := Function.update s.tp i none } : ProcQs ι π δ) = s := by
        rw [← hnil, Function.update_eq_self]
      rw [hsame] at hrun
      refine ⟨s, hrun, ⟨?_, hdisj⟩, ?_⟩
      · rw [QueueMap.dropHead_queue_of_nil hQ]
        exact h.queue
      · constructor
        case tp | rest | head => intros; rfl
        case links => exact fun _ _ => ⟨rfl, rfl⟩
        case removed =>
          rintro j p ⟨⟩ hp
          rw [hQ] at hp
          cases hp
  | cons p ps =>
      have hq := h.queue i
      rw [hQ] at hq
      obtain ⟨tp, next, prev, hrun, hq', hn, hp, hag⟩ := removeProcQ_spec hq
      have hmem : QueueCall.onMem (removeProcQ (s.tp i)) s =
          .ok (some p, tp) { s with mem := s.mem.relink next prev } := zoom_ok hrun
      refine ⟨⟨Function.update s.tp i tp, s.mem.relink next prev⟩, ?_, ?_, ?_⟩
      · rw [QueueCall.run, bind_ok (get_run s), bind_ok hmem]
        rfl
      · refine h.update ?_ (fun j hj => Function.update_of_ne hj _ _) hdisj ?_
        · rw [QueueMap.dropHead_queue, Function.update_self, hQ]
          exact hq'
        · intro j hj u hu
          refine hag u fun hi => hj (h.disjoint j i u hu ?_)
          rwa [hQ]
      · constructor
        case tp => exact fun j hj => Function.update_of_ne hj _ _
        case links =>
          rintro u ⟨hu, -⟩
          refine hag u ?_
          rwa [← hQ]
        case rest => rfl
        case head => exact fun _ hc => nomatch hc
        case removed =>
          rintro j q ⟨⟩ hj
          rw [hQ] at hj
          obtain rfl : p = q := Option.some.inj hj
          exact ⟨hn, hp⟩

/-- One call. -/
theorem Fifos.call (h : Fifos s m) {c : QueueCall ι π} (hc : c.Allowed m) :
    ∃ s', c.run s = .ok (c.serve m).1 s' ∧ Fifos s' (c.next m) ∧ c.Leaves m s s' := by
  cases c with
  | insert i p => exact h.insert i hc
  | remove i => exact h.remove i
  | head i =>
      have hmem : QueueCall.onMem (headProcQ (s.tp i)) s = .ok (m.queue i).head? s :=
        zoom_ok (s := s.mem) (headProcQ_spec (h.queue i))
      refine ⟨s, hmem, h, ?_⟩
      constructor
      case tp | rest | head => intros; rfl
      case links => exact fun _ _ => ⟨rfl, rfl⟩
      case removed => exact fun _ _ hc => nomatch hc

/-! ## Whole runs -/

theorem Fifos.calls (h : Fifos s m) {cs : List (QueueCall ι π)}
    (hcs : AllOk QueueCall.next (fun m c => c.Allowed m) m cs) :
    ∃ s', QueueCall.runAll cs s = .ok (QueueCall.answers m cs) s' ∧
      Fifos s' (cs.foldl QueueCall.next m) := by
  induction cs generalizing s m with
  | nil => exact ⟨s, rfl, h⟩
  | cons c cs ih =>
      obtain ⟨s₁, hrun, h₁, -⟩ := h.call hcs.1
      obtain ⟨s', hrest, h'⟩ := ih h₁ hcs.2
      exact ⟨s', (bind_ok hrun).trans (bind_ok hrest), h'⟩

/-- From empty queues on every list of calls gets the answers of FIFO lists, the queues hold
those lists after it, and one more call leaves the other queues alone. -/
theorem procQs_fifo (hs : ∀ i, s.tp i = mkEmptyProcQ) (cs : List (QueueCall ι π))
    (hcs : AllOk QueueCall.next (fun m c => c.Allowed m) QueueMap.empty cs) :
    ∃ s', QueueCall.runAll cs s = .ok (QueueCall.answers QueueMap.empty cs) s' ∧
      Fifos s' (cs.foldl QueueCall.next QueueMap.empty) ∧
      ∀ c : QueueCall ι π, c.Allowed (cs.foldl QueueCall.next QueueMap.empty) →
        ∃ s'', c.run s' = .ok (c.serve (cs.foldl QueueCall.next QueueMap.empty)).1 s'' ∧
          c.Leaves (cs.foldl QueueCall.next QueueMap.empty) s' s'' := by
  have h₀ : Fifos s QueueMap.empty := by
    refine ⟨fun i => ?_, fun _ _ _ hp => nomatch hp⟩
    rw [hs i]
    exact IsQueue.nil
  obtain ⟨s', hrun, h'⟩ := h₀.calls hcs
  refine ⟨s', hrun, h', ?_⟩
  intro c hc
  obtain ⟨s'', hcall, -, hleaves⟩ := h'.call hc
  exact ⟨s'', hcall, hleaves⟩

/-- Two queues, one PCB in each. -/
theorem procQs_fifo_two : ∃ s' : ProcQs Bool (Fin 2) Unit,
    QueueCall.runAll [.insert true 0, .insert false 1, .remove true]
        ⟨fun _ => mkEmptyProcQ, Phase1.sample⟩ = .ok [none, none, some 0] s' ∧
      Fifos s' (((QueueMap.empty.append true 0).append false 1).dropHead true) ∧
      ∀ c : QueueCall Bool (Fin 2),
        c.Allowed (((QueueMap.empty.append true 0).append false 1).dropHead true) →
        ∃ s'', c.run s' =
            .ok (c.serve (((QueueMap.empty.append true 0).append false 1).dropHead true)).1 s'' ∧
          c.Leaves (((QueueMap.empty.append true 0).append false 1).dropHead true) s' s'' := by
  refine procQs_fifo (fun _ => rfl) [.insert true 0, .insert false 1, .remove true]
    ⟨?_, ?_, trivial, trivial⟩
  · intro j hj
    cases hj
  · intro j hj
    rcases QueueMap.mem_append.mp hj with hj | ⟨-, hp⟩
    · cases hj
    · exact absurd hp (by decide)

end Kaya
