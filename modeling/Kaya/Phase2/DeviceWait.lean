import Kaya.Phase2.Proofs.Bystander
import Kaya.Phase2.Semaphores
import Kaya.Phase2.WaitIO

/-!
# Waiting for an operation of a device

A process starts an operation of a device that nobody else uses and waits for it with SYS 8.  The
interrupt at the end of the operation comes before or after the call, and other processes run in
between.
-/

namespace Kaya

open Lib

variable {K : Layout} {m m₀ : Machine} {l : Lists} {h earlier later : List (Machine × Event)}
  {p : Pcb} {e : Event} {a : Abs} {am : AbsMachine} {st : State} {w b : Word}

/-! ## Operations and signals -/

/-- The status of half `read` of the device. -/
def Device.status (dev : Device) (lineNo read : Int) : Word :=
  if lineNo = 7 ∧ read = 0 then dev.dData0 else dev.dStatus

/-- The status byte with which an operation of half `read` of device `devNo` on line `lineNo` ends,
if the event is its interrupt. -/
def Event.reports (lineNo devNo read : Int) : Event → Option Word
  | .interrupt st interruptDev devReg =>
      if findLineNo st.sCause = lineNo ∧ findDevNo (interruptDev (lineNo - 3)) = devNo ∧
          (devReg (getDeviceReg lineNo devNo)).Reports lineNo read then
        some ((devReg (getDeviceReg lineNo devNo)).status lineNo read &&& STATUSMASK)
      else none
  | _ => none

/-- An interrupt of device `devNo` on line `lineNo`, a terminal whose receiver is at work. -/
def Event.FindsBusy (lineNo devNo : Int) : Event → Prop
  | .interrupt st interruptDev devReg =>
      findLineNo st.sCause = lineNo ∧ findDevNo (interruptDev (lineNo - 3)) = devNo ∧
        (devReg (getDeviceReg lineNo devNo)).ReceiverBusy lineNo
  | _ => False

/-- A terminal interrupts only for a half that has completed its operation. -/
def Event.Genuine : Event → Prop
  | .interrupt st interruptDev devReg => findLineNo st.sCause = 7 →
      ∃ x, (devReg (getDeviceReg 7 (findDevNo (interruptDev 4)))).halves.Completed x
  | _ => True

def Event.IsInterrupt : Event → Prop
  | .interrupt _ _ _ => True
  | _ => False

/-- The status bytes with which operations of the device that `st` names ended. -/
def statuses (st : State) (h : List (Machine × Event)) : List Word :=
  h.filterMap fun x => x.2.reports st.a1.toNat st.a2.toNat st.half

/-- The status bytes with which interrupts of the history signalled the entry at `w`. -/
def signals (K : Layout) (w : Word) (h : List (Machine × Event)) : List Word :=
  h.filterMap fun x => x.2.shows K w

/-- Up to the end of the operation no interrupt of the device finds the receiver at work. -/
def Unmistaken (st : State) (h : List (Machine × Event)) : Prop :=
  ∀ after x before, h = after ++ x :: before → x.2.FindsBusy st.a1.toNat st.a2.toNat →
    statuses st before ≠ []

/-- No event but interrupts changed the entry at `w`. -/
def Sole (K : Layout) (w : Word) (h : List (Machine × Event)) : Prop :=
  ∀ x ∈ h, ¬ x.2.IsInterrupt → (x.1.step K x.2).nuc.mem w = x.1.nuc.mem w

/-- The process with the PCB `p` has not been freed. -/
def Machine.Alive (m : Machine) (p : Pcb) : Prop := ∀ l, Shape m.nuc.lk l → p ∉ l.free

/-- The process did not run and was not killed. -/
def Away (p : Pcb) (h : List (Machine × Event)) : Prop :=
  ∀ x ∈ h, x.1.nuc.currentProc ≠ some p ∧ x.1.Alive p

theorem Sole.tail {x : Machine × Event} (hsole : Sole K w (x :: h)) : Sole K w h :=
  fun y hy => hsole y (List.mem_cons_of_mem _ hy)

theorem Away.tail {x : Machine × Event} (haway : Away p (x :: h)) : Away p h :=
  fun y hy => haway y (List.mem_cons_of_mem _ hy)

theorem away_singleton (hcur : m.nuc.currentProc ≠ some p) (halive : m.Alive p) :
    Away p [(m, e)] := by
  intro x hx
  obtain rfl := List.mem_singleton.mp hx
  exact ⟨hcur, halive⟩

theorem statuses_append : statuses st (later ++ earlier) =
    statuses st later ++ statuses st earlier := List.filterMap_append ..

theorem signals_append : signals K w (later ++ earlier) =
    signals K w later ++ signals K w earlier := List.filterMap_append ..

theorem statuses_of_none (he : e.reports st.a1.toNat st.a2.toNat st.half = none) :
    statuses st ((m, e) :: h) = statuses st h := List.filterMap_cons_none he

theorem statuses_of_some (he : e.reports st.a1.toNat st.a2.toNat st.half = some b) :
    statuses st ((m, e) :: h) = b :: statuses st h := List.filterMap_cons_some he

theorem signals_of_none (he : e.shows K w = none) :
    signals K w ((m, e) :: h) = signals K w h := List.filterMap_cons_none he

theorem signals_of_some (he : e.shows K w = some b) :
    signals K w ((m, e) :: h) = b :: signals K w h := List.filterMap_cons_some he

/-! ## Which half is signalled -/

section Halves

variable {dev : Device} {lineNo devNo read : Int} {c : Word}

theorem ack_status (dev : Device) (lineNo : Int) :
    (dev.ack lineNo).1 = dev.status lineNo (dev.ack lineNo).2.1 := by
  by_cases h7 : lineNo = 7
  · rw [h7, ack_chosen]
    cases dev.halves.chosen <;> rfl
  · rw [Device.ack, if_neg h7, Device.status, if_neg fun h => h7 h.1]

/-- Where no busy receiver is in the way, the half that the handler takes has completed. -/
theorem reports_ack (hgenuine : lineNo = 7 → ∃ x, dev.halves.Completed x)
    (hfree : ¬ dev.ReceiverBusy lineNo) : dev.Reports lineNo (dev.ack lineNo).2.1 := by
  by_cases h7 : lineNo = 7
  · subst h7
    have hdone := (Halves.completed_chosen_iff (hgenuine rfl)).mpr fun hbusy => hfree ⟨rfl, hbusy⟩
    rw [ack_chosen, Device.Reports, if_pos rfl]
    cases hchosen : dev.halves.chosen with
    | receiver => exact .inl ⟨rfl, hchosen ▸ hdone⟩
    | transmitter =>
      have hready : dev.halves.Ready .receiver := by
        by_contra hready
        have hother : dev.halves.chosen = .receiver := if_neg hready
        exact absurd (hchosen.symm.trans hother) (by decide)
      exact .inr ⟨rfl, hchosen ▸ hdone, fun hrest => hrest.1 hready⟩
  · rw [Device.ack, Device.Reports, if_neg h7, if_neg h7]

/-- A busy receiver is taken for the half that interrupts. -/
theorem ack_busy (hbusy : dev.ReceiverBusy lineNo) :
    (dev.ack lineNo).2.1 = 1 ∧ (dev.ack lineNo).1 &&& STATUSMASK = BUSY := by
  obtain ⟨rfl, hbusy⟩ := hbusy
  have hnot : ¬ dev.halves.Ready .receiver := by
    intro hready
    have heq : READY = BUSY := hready.symm.trans hbusy
    exact absurd heq (by decide)
  have hchosen : dev.halves.chosen = .receiver := if_neg hnot
  rw [ack_chosen, hchosen]
  exact ⟨rfl, hbusy⟩

theorem Device.Reports.status_ne_busy (h : dev.Reports 7 read) :
    dev.status 7 read &&& STATUSMASK ≠ BUSY := by
  rw [Device.Reports, if_pos rfl] at h
  rcases h with ⟨rfl, hdone⟩ | ⟨rfl, hdone, -⟩
  · exact hdone.2
  · exact hdone.2

/-- The handler signals the entry of a device where it takes the device's half. -/
theorem shows_entry (hnames : st.Names) {s : State} {i : Int → Word} {d : Word → Device}
    (hok : m.Admits K (.interrupt s i d)) :
    (Event.interrupt s i d).shows K (st.entry K) =
      if findLineNo s.sCause = st.a1.toNat ∧ findDevNo (i (st.a1.toNat - 3)) = st.a2.toNat ∧
          ((d (getDeviceReg st.a1.toNat st.a2.toNat)).ack st.a1.toNat).2.1 = st.half then
        some ((d (getDeviceReg st.a1.toNat st.a2.toNat)).status st.a1.toNat st.half &&& STATUSMASK)
      else none := by
  have h3 := hnames.hasDev.line.1
  rw [Event.shows]
  split_ifs with hshows htaken htaken
  · obtain ⟨hl, hd, hr⟩ := htaken
    rw [statusByte, ack_status, hl, hd, hr]
  · obtain ⟨h3', hslot⟩ := hshows
    obtain ⟨read, hdev, hread, hidx⟩ := shown_hasDev hok h3'
    rw [hidx, entry_eq] at hslot
    obtain ⟨hl, hd, hr⟩ := hdev.slot_inj hnames.hasDev hslot
    rw [hl] at hd hread
    rw [hd] at hread
    exact absurd ⟨hl, hd, hread.symm.trans hr⟩ htaken
  · obtain ⟨hl, hd, hr⟩ := htaken
    have hslot : K.semDev (BitVec.ofInt 32 (shownIndex (findLineNo s.sCause) i d)) = st.entry K := by
      rw [shownIndex, hl, hd, hr, entry_eq]
    exact absurd ⟨hl ▸ h3, hslot⟩ hshows
  · rfl

/-- Where no busy receiver is in the way, the signals for an entry are the ends of its device's
operations. -/
theorem shows_eq_reports (hnames : st.Names) (hok : m.Admits K e) (hgenuine : e.Genuine)
    (hfree : ¬ e.FindsBusy st.a1.toNat st.a2.toNat) :
    e.shows K (st.entry K) = e.reports st.a1.toNat st.a2.toNat st.half := by
  cases e with
  | store | syscall | progTrap | tlbTrap => rfl
  | interrupt s i d =>
    rw [shows_entry hnames hok, Event.reports]
    refine if_congr ⟨?_, ?_⟩ rfl rfl
    · rintro ⟨hl, hd, hr⟩
      refine ⟨hl, hd, hr ▸ reports_ack (fun h7 => ?_) fun hbusy => hfree ⟨hl, hd, hbusy⟩⟩
      have hdone := hgenuine (hl.trans h7)
      rw [h7] at hd ⊢
      rw [← hd]
      exact hdone
    · rintro ⟨hl, hd, hrep⟩
      exact ⟨hl, hd, hrep.ack_iff.mpr fun hbusy => hfree ⟨hl, hd, hbusy⟩⟩

/-- A busy receiver is signalled in place of the half that has completed. -/
theorem shows_of_busy (hnames : st.Names) (hok : m.Admits K e) (hgenuine : e.Genuine)
    (hbusy : e.FindsBusy st.a1.toNat st.a2.toNat) :
    e.shows K (st.entry K) = none ∧ e.reports st.a1.toNat st.a2.toNat st.half ≠ none ∨
      e.shows K (st.entry K) = some BUSY ∧ e.reports st.a1.toNat st.a2.toNat st.half = none := by
  cases e with
  | store | syscall | progTrap | tlbTrap => exact hbusy.elim
  | interrupt s i d =>
    obtain ⟨hl, hd, hbusy⟩ := hbusy
    obtain ⟨hread, hstatus⟩ := ack_busy hbusy
    rw [shows_entry hnames hok]
    split_ifs with htaken
    · refine .inr ⟨?_, if_neg fun hrep => hrep.2.2.ack_iff.mp htaken.2.2 hbusy⟩
      rw [← htaken.2.2, ← ack_status, hstatus]
    · have h7 := hbusy.1
      have hhalf : st.half = 0 := by
        refine hnames.hasDev.half.resolve_right fun hrec => htaken ⟨hl, hd, ?_⟩
        exact hread.trans hrec.2.symm
      have hdone : (d (getDeviceReg st.a1.toNat st.a2.toNat)).halves.Completed .transmitter := by
        obtain ⟨x, hx⟩ := hgenuine (hl.trans h7)
        rw [h7] at hd hbusy ⊢
        have hdev : findDevNo (i 4) = st.a2.toNat := hd
        rw [hdev] at hx
        cases x with
        | receiver => exact absurd hbusy.2 hx.2
        | transmitter => exact hx
      have hrep : (d (getDeviceReg st.a1.toNat st.a2.toNat)).Reports st.a1.toNat st.half := by
        rw [Device.Reports, if_pos h7]
        exact .inr ⟨hhalf, hdone, fun hrest => hrest.2 hbusy.2⟩
      refine .inl ⟨rfl, ?_⟩
      rw [Event.reports, if_pos ⟨hl, hd, hrep⟩]
      exact Option.some_ne_none _

theorem reports_ne_busy (hbusy : ∃ x : Event, x.FindsBusy st.a1.toNat st.a2.toNat)
    (he : e.reports st.a1.toNat st.a2.toNat st.half = some b) : b ≠ BUSY := by
  have h7 : (st.a1.toNat : Int) = 7 := by
    obtain ⟨x, hx⟩ := hbusy
    cases x with
    | store | syscall | progTrap | tlbTrap => exact hx.elim
    | interrupt s i d => exact hx.2.2.1
  cases e with
  | store | syscall | progTrap | tlbTrap => exact absurd he.symm (Option.some_ne_none _)
  | interrupt s i d =>
    rw [Event.reports] at he
    split_ifs at he with hrep
    obtain ⟨-, -, hrep⟩ := hrep
    rw [h7] at hrep he
    rw [← Option.some.inj he]
    exact hrep.status_ne_busy

theorem unmistaken_cons : Unmistaken st ((m, e) :: h) ↔
    (e.FindsBusy st.a1.toNat st.a2.toNat → statuses st h ≠ []) ∧ Unmistaken st h := by
  constructor
  · intro hun
    refine ⟨hun [] (m, e) h rfl, fun after x before hh => ?_⟩
    exact hun ((m, e) :: after) x before (by rw [hh]; rfl)
  · rintro ⟨hfirst, hrest⟩ after x before hh
    cases after with
    | nil =>
      obtain ⟨rfl, rfl⟩ := List.cons.inj hh
      exact hfirst
    | cons y after =>
      obtain ⟨-, hh⟩ := List.cons.inj hh
      exact hrest after x before hh

/-- Before the operation ends an entry is only signalled for a busy receiver. -/
theorem signals_before (hnames : st.Names) (hok : ∀ x ∈ h, x.1.Admits K x.2)
    (hgenuine : ∀ x ∈ h, x.2.Genuine) (hnone : statuses st h = []) :
    Unmistaken st h ∧ signals K (st.entry K) h = [] ∨
      ¬ Unmistaken st h ∧ (∃ x : Event, x.FindsBusy st.a1.toNat st.a2.toNat) ∧
        (signals K (st.entry K) h).getLast? = some BUSY := by
  induction h with
  | nil => exact .inl ⟨fun after x before hh => absurd hh.symm (by simp), rfl⟩
  | cons y h ih =>
    obtain ⟨m, e⟩ := y
    rw [List.forall_mem_cons] at hok hgenuine
    cases he : e.reports st.a1.toNat st.a2.toNat st.half with
    | some c =>
      rw [statuses_of_some he] at hnone
      exact absurd hnone (List.cons_ne_nil _ _)
    | none =>
      have hrest : statuses st h = [] := (statuses_of_none he).symm.trans hnone
      have ih := ih hok.2 hgenuine.2 hrest
      rw [unmistaken_cons, hrest]
      by_cases hbusy : e.FindsBusy st.a1.toNat st.a2.toNat
      · obtain ⟨-, hsome⟩ | ⟨hshows, -⟩ := shows_of_busy hnames hok.1 hgenuine.1 hbusy
        · exact absurd he hsome
        · refine .inr ⟨fun hun => hun.1 hbusy rfl, ⟨e, hbusy⟩, ?_⟩
          rw [signals_of_some hshows, List.getLast?_cons]
          rcases ih with ⟨-, hnil⟩ | ⟨-, -, hlast⟩
          · rw [hnil]
            rfl
          · rw [hlast]
            rfl
      · have hshows := shows_eq_reports hnames hok.1 hgenuine.1 hbusy
        rw [signals_of_none (hshows.trans he)]
        refine ih.imp (And.imp_left fun hun => ⟨fun hb => absurd hb hbusy, hun⟩) ?_
        exact And.imp_left fun hun hcons => hun hcons.2

/-- The first signal for the entry is the end of the operation exactly where no busy receiver was
taken for it before. -/
theorem signals_last_iff (hnames : st.Names) (hok : ∀ x ∈ h, x.1.Admits K x.2)
    (hgenuine : ∀ x ∈ h, x.2.Genuine) (hone : statuses st h = [b]) :
    (signals K (st.entry K) h).getLast? = some b ↔ Unmistaken st h := by
  induction h with
  | nil => exact absurd hone.symm (List.cons_ne_nil _ _)
  | cons y h ih =>
    obtain ⟨m, e⟩ := y
    rw [List.forall_mem_cons] at hok hgenuine
    rw [unmistaken_cons]
    cases he : e.reports st.a1.toNat st.a2.toNat st.half with
    | some c =>
      -- the operation ends here
      rw [statuses_of_some he] at hone
      obtain ⟨rfl, hrest⟩ := List.cons.inj hone
      have hbefore := signals_before hnames hok.2 hgenuine.2 hrest
      rw [hrest]
      by_cases hbusy : e.FindsBusy st.a1.toNat st.a2.toNat
      · have hne := reports_ne_busy ⟨e, hbusy⟩ he
        obtain ⟨hshows, -⟩ | ⟨-, hnone⟩ := shows_of_busy hnames hok.1 hgenuine.1 hbusy
        · rw [signals_of_none hshows]
          refine iff_of_false (fun hlast => ?_) fun hun => hun.1 hbusy rfl
          rcases hbefore with ⟨-, hnil⟩ | ⟨-, -, hbefore⟩
          · rw [hnil] at hlast
            exact Option.some_ne_none _ hlast.symm
          · exact hne (Option.some.inj (hlast.symm.trans hbefore))
        · exact absurd (he.symm.trans hnone) (Option.some_ne_none _)
      · have hshows := (shows_eq_reports hnames hok.1 hgenuine.1 hbusy).trans he
        rw [signals_of_some hshows, List.getLast?_cons]
        rcases hbefore with ⟨hun, hnil⟩ | ⟨hun, hsome, hbefore⟩
        · rw [hnil]
          exact iff_of_true rfl ⟨fun hb => absurd hb hbusy, hun⟩
        · rw [hbefore]
          refine iff_of_false (fun hlast => ?_) fun hcons => hun hcons.2
          exact reports_ne_busy hsome he (Option.some.inj hlast).symm
    | none =>
      have hrest : statuses st h = [b] := (statuses_of_none he).symm.trans hone
      have ih := ih hok.2 hgenuine.2 hrest
      have hcons : (e.FindsBusy st.a1.toNat st.a2.toNat → statuses st h ≠ []) ∧ Unmistaken st h ↔
          Unmistaken st h := and_iff_right fun _ => hrest ▸ List.cons_ne_nil _ _
      rw [hcons, ← ih]
      by_cases hbusy : e.FindsBusy st.a1.toNat st.a2.toNat
      · obtain ⟨-, hsome⟩ | ⟨hshows, -⟩ := shows_of_busy hnames hok.1 hgenuine.1 hbusy
        · exact absurd he hsome
        · obtain ⟨x, -, hx⟩ := List.mem_filterMap.mp (hrest ▸ List.mem_singleton_self b)
          have hne := reports_ne_busy ⟨e, hbusy⟩ hx
          rw [signals_of_some hshows, List.getLast?_cons]
          cases (signals K (st.entry K) h).getLast? with
          | none => exact iff_of_false (fun hlast => hne (Option.some.inj hlast).symm) (by simp)
          | some c => rfl
      · have hshows := (shows_eq_reports hnames hok.1 hgenuine.1 hbusy).trans he
        rw [signals_of_none hshows]

end Halves

/-! ## One step -/

theorem step_shows (hok : m.Admits K e) (he : e.shows K w = some b) :
    ∃ (a : Abs) (status : Word) (t : Int), a.lk = l ∧ a.pcb = m.nuc.pcb ∧ a.mem = m.nuc.mem ∧
      status &&& STATUSMASK = b ∧
      (m.over l).step K e = (a.signal w status).leaveHandler t := by
  cases e with
  | store | syscall | progTrap | tlbTrap => exact absurd he (by simp [Event.shows])
  | interrupt s i d =>
    simp only [Event.shows] at he
    split_ifs at he with hshows
    obtain ⟨h3, hslot⟩ := hshows
    obtain ⟨hfound, -⟩ := hok.sane.dev h3
    let a : Abs := { m.abs l with intOld := s, interruptDev := i, devReg := d }
    have hstep : (m.over l).step K (.interrupt s i d) = a.interrupt K := if_pos hok.takes
    refine ⟨a.tick.acked (findLineNo s.sCause), (a.tick.shown (findLineNo s.sCause)).1,
      a.tod a.reads, rfl, rfl, rfl, Option.some.inj he, ?_⟩
    rw [hstep, Abs.interrupt_device (a := a) rfl h3 hfound, ← hslot]
    rfl

theorem signal_mem (a : Abs) (w status : Word) :
    (a.signal w status).mem = Function.update a.mem w (a.mem w + 1) := by
  by_cases hle : (a.mem w + 1).toInt ≤ 0
  · cases hq : a.lk.blocked w with
    | nil =>
      rw [Abs.signal_nil hle hq]
      rfl
    | cons p ps =>
      rw [Abs.signal_cons hle hq]
      rfl
  · rw [Abs.signal_of_pos hle]
    rfl

/-- Where the word of a semaphore stays, nobody joins its line. -/
theorem step_line (hholds : m.Holds K l) (hok : m.Admits K e)
    (hmem : ((m.over l).step K e).nuc.mem w = m.nuc.mem w) :
    (((m.over l).step K e).nuc.lk.blocked w).Sublist (l.blocked w) := by
  rcases step_queues hholds hok with hshrinks | ⟨st, -, henters⟩
  · exact hshrinks w
  · refine (henters.takes w).resolve_right fun htakes => ?_
    have heq : m.nuc.mem w = m.nuc.mem w - 1 := hmem.symm.trans htakes.2
    bv_omega

theorem interrupt_mem (hok : m.Admits K e) {s : State} {interruptDev : Int → Word}
    {devReg : Word → Device} (he : e = .interrupt s interruptDev devReg) :
    ((m.over l).step K e).nuc.mem =
      if findLineNo s.sCause = IVTIMINT then Function.update m.nuc.mem K.clock 0
      else if 3 ≤ findLineNo s.sCause then
        Function.update m.nuc.mem
          (K.semDev (BitVec.ofInt 32 (shownIndex (findLineNo s.sCause) interruptDev devReg)))
          (m.nuc.mem (K.semDev
            (BitVec.ofInt 32 (shownIndex (findLineNo s.sCause) interruptDev devReg))) + 1)
      else m.nuc.mem := by
  subst he
  let a : Abs := { m.abs l with intOld := s, interruptDev := interruptDev, devReg := devReg }
  have hstep : (m.over l).step K (.interrupt s interruptDev devReg) = a.interrupt K :=
    if_pos hok.takes
  rw [hstep]
  rcases findLineNo_cases s.sCause with h0 | h1 | h2 | ⟨h3, -⟩
  · exact absurd h0 hok.sane.line
  · have hne : ¬ findLineNo s.sCause = IVTIMINT := by rw [h1]; decide
    have hlow : ¬ 3 ≤ findLineNo s.sCause := by rw [h1]; decide
    rw [Abs.interrupt_ploc (a := a) h1, (schedule_world _).mem, endQuantum_mem, if_neg hne,
      if_neg hlow]
    rfl
  · rw [Abs.interrupt_ivtim (a := a) h2, (leaveHandler_world _ _).mem, if_pos h2]
    rfl
  · have hne : ¬ findLineNo s.sCause = IVTIMINT := by simp only [IVTIMINT]; omega
    obtain ⟨hfound, -⟩ := hok.sane.dev h3
    rw [Abs.interrupt_device (a := a) rfl h3 hfound, (leaveHandler_world _ _).mem, if_neg hne,
      if_pos h3]
    exact signal_mem _ _ _

/-- Who counts an interrupt for no entry leaves the entry alone. -/
theorem Sole.mem (hsole : Sole K w ((m, e) :: h)) (hclock : w ≠ K.clock) (hholds : m.Holds K l)
    (hok : m.Admits K e) (he : e.shows K w = none) :
    ((m.over l).step K e).nuc.mem w = m.nuc.mem w := by
  by_cases hint : e.IsInterrupt
  · cases e with
    | store | syscall | progTrap | tlbTrap => exact hint.elim
    | interrupt s i d =>
      rw [interrupt_mem hok rfl]
      split_ifs with h2 h3
      · exact Function.update_of_ne hclock ..
      · apply Function.update_of_ne
        rintro rfl
        rw [Event.shows, if_pos ⟨h3, rfl⟩] at he
        exact absurd he (Option.some_ne_none _)
      · rfl
  · obtain ⟨l', -, hover⟩ := hholds.step hok
    have hmem := hsole (m, e) List.mem_cons_self hint
    rw [← hover]
    exact hmem

/-! ## Before the call -/

/-- The entry counts the signals, and nobody waits. -/
structure Uncalled (K : Layout) (w : Word) (h : List (Machine × Event)) (a : Abs) : Prop where
  line : a.lk.blocked w = []
  mem : a.mem w = BitVec.ofNat 32 (signals K w h).length

theorem step_counts (hclock : w ≠ K.clock) (hholds : m.Holds K l) (hok : m.Admits K e)
    (hsole : Sole K w ((m, e) :: h)) (hc : Uncalled K w h (m.abs l)) :
    Uncalled K w ((m, e) :: h) ((m.over l).step K e).nuc := by
  cases he : e.shows K w with
  | none =>
    have hmem := hsole.mem hclock hholds hok he
    have hline := step_line hholds hok hmem
    rw [show l.blocked w = [] from hc.line] at hline
    exact ⟨List.sublist_nil.mp hline, by rw [hmem, signals_of_none he]; exact hc.mem⟩
  | some b =>
    obtain ⟨a, status, t, hlk, -, hamem, -, hstep⟩ := step_shows (l := l) hok he
    have hworld := leaveHandler_world (a.signal w status) t
    have hline : ((a.signal w status).lk.blocked w).Sublist (a.lk.blocked w) :=
      signal_shrinks a w status w
    rw [hlk, show l.blocked w = [] from hc.line] at hline
    constructor
    · rw [hstep, hworld.blocked]
      exact List.sublist_nil.mp hline
    · have hold : m.nuc.mem w = BitVec.ofNat 32 (signals K w h).length := hc.mem
      rw [hstep, hworld.mem, signal_mem, Function.update_self, hamem, hold, signals_of_some he,
        List.length_cons, BitVec.ofNat_add]
      rfl

theorem counts_of_run (hclock : w ≠ K.clock)
    (hrun : Run (· = m₀) (Machine.step K) (Machine.Admits K) h m)
    (hstart : ∃ l, m₀.Holds K l) (hmem : m₀.nuc.mem w = 0) (hnone : ∀ q, m₀.nuc.pcb.pSemAdd q ≠ w)
    (hsole : Sole K w h) : ∃ l, m.Holds K l ∧ Uncalled K w h (m.abs l) := by
  have hinv : ∃ l, m.Holds K l ∧ (Sole K w h → Uncalled K w h (m.over l).nuc) := by
    refine run_induction hrun (fun _ _ he => he)
      (I := fun h am => Sole K w h → Uncalled K w h am.nuc) ?_ ?_
    · rintro m rfl
      obtain ⟨l, hholds⟩ := hstart
      refine ⟨l, hholds, fun _ => ⟨?_, hmem⟩⟩
      obtain ⟨place, hpl⟩ := hholds.sound.inv.placed
      apply List.eq_nil_iff_forall_not_mem.mpr
      intro q hq
      have hplace : place q = .blocked w := ((hpl.spot q).blocked w).mp hq
      apply hnone q
      rw [show m.nuc.pcb.pSemAdd q = (place q).semAdd from hpl.semAdd q, hplace]
      rfl
    · exact fun h m l e hholds hc hok hsole => step_counts hclock hholds hok hsole (hc hsole.tail)
  obtain ⟨l, hholds, hc⟩ := hinv
  exact ⟨l, hholds, hc hsole⟩

/-! ## After the call -/

/-- `p`, which left the processor in state `st`, waits for a signal, or it goes on or will go on
with the first one's status in `v0`, or it is dead. -/
inductive Awaits (K : Layout) (p : Pcb) (w : Word) (st : State) (h : List (Machine × Event))
    (am : AbsMachine) : Prop
  | waits : signals K w h = [] → am.nuc.lk.blocked w = [p] → am.nuc.mem w = -1 →
      am.nuc.pcb.pS p = st → Awaits K p w st h am
  | ready {b : Word} : (signals K w h).getLast? = some b → p ∈ am.nuc.lk.ready →
      am.nuc.pcb.pS p = st.setV0 b → Awaits K p w st h am
  | runs {b : Word} : (signals K w h).getLast? = some b → am.nuc.currentProc = some p →
      am.cpu = .ldst (st.setV0 b) → Awaits K p w st h am
  | dead : p ∈ am.nuc.lk.free → Awaits K p w st h am

/-- Once `p` is ready it runs or waits for its turn. -/
theorem Spares.awaits (hs : Spares K.clock p a am) (hstat : (signals K w h).getLast? = some b)
    (hready : p ∈ a.lk.ready) (hst : a.pcb.pS p = st.setV0 b) : Awaits K p w st h am := by
  rcases hs.ready hready with hr | ⟨hcur, hcpu⟩
  · exact .ready hstat hr (hs.saved.trans hst)
  · exact .runs hstat hcur (hcpu.trans (by rw [hst]))

/-- Later signals change nothing in which one was the first. -/
theorem signals_first (hstat : (signals K w h).getLast? = some b) :
    (signals K w ((m, e) :: h)).getLast? = some b := by
  cases he : e.shows K w with
  | none => rwa [signals_of_none he]
  | some c => rw [signals_of_some he, List.getLast?_cons, hstat, Option.getD_some]

theorem step_awaits (hclock : w ≠ K.clock) (hholds : m.Holds K l) (hok : m.Admits K e)
    (hsole : Sole K w ((m, e) :: h)) (haway : Away p ((m, e) :: h))
    (ha : Awaits K p w st h (m.over l)) :
    Awaits K p w st ((m, e) :: h) ((m.over l).step K e) := by
  obtain ⟨hcur, halive⟩ := haway (m, e) List.mem_cons_self
  have hfree : p ∉ l.free := halive l hholds.shape
  obtain ⟨place, hpl⟩ := hholds.sound.inv.placed
  cases ha with
  | waits hstat hline hmem hst =>
    cases he : e.shows K w with
    | none =>
      have hp : p ∈ l.blocked w := hline ▸ List.mem_singleton_self p
      have hsig : ∀ v, p ∈ l.blocked v → e.shows K v = none := by
        intro v hv
        have hplace : Place.blocked v = Place.blocked w :=
          (((hpl.spot p).blocked v).mp hv).symm.trans (((hpl.spot p).blocked w).mp hp)
        obtain rfl : v = w := Place.blocked.inj hplace
        exact he
      have hsame := hsole.mem hclock hholds hok he
      rcases step_spares hholds hok hfree hcur hsig fun _ => rfl with hdead | hs
      · exact .dead hdead
      have hp' : p ∈ ((m.over l).step K e).nuc.lk.blocked w := by
        refine (hs.waits w hclock hp).resolve_right fun hinc => ?_
        have heq : m.nuc.mem w = m.nuc.mem w + 1 := hsame.symm.trans hinc
        bv_omega
      have hsub := step_line hholds hok hsame
      rw [show l.blocked w = [p] from hline] at hsub
      refine .waits (by rw [signals_of_none he, hstat]) ?_ (hsame.trans hmem)
        (hs.saved.trans hst)
      rcases List.sublist_singleton.mp hsub with hnil | hone
      · rw [hnil] at hp'
        exact absurd hp' List.not_mem_nil
      · exact hone
    | some b =>
      obtain ⟨a, status, t, hlk, hpcb, hamem, hb, hstep⟩ := step_shows (l := l) hok he
      have hm : a.mem w = -1 := (congrFun hamem w).trans hmem
      have hle : (a.mem w + 1).toInt ≤ 0 := by rw [hm]; decide
      have hq : a.lk.blocked w = [p] := by rw [hlk]; exact hline
      have hpS : (a.signal w status).pcb.pS p = st.setV0 b := by
        have hold : a.pcb.pS p = st := by rw [hpcb]; exact hst
        rw [Abs.signal_cons hle hq, ← hb, ← hold]
        exact Function.update_self ..
      have hready : p ∈ (a.signal w status).lk.ready := by
        rw [Abs.signal_cons hle hq]
        exact List.mem_append_right _ (List.mem_singleton_self p)
      rw [hstep]
      have hs : Spares K.clock p (a.signal w status) ((a.signal w status).leaveHandler t) :=
        (Undisturbed.same rfl rfl rfl).leaveHandler t
      exact hs.awaits (by rw [signals_of_some he, hstat]; rfl) hready hpS
  | @ready b hstat hr hst =>
    have hsig : ∀ v, p ∈ l.blocked v → e.shows K v = none := by
      intro v hv
      have hplace := (((hpl.spot p).blocked v).mp hv).symm.trans ((hpl.spot p).ready.mp hr)
      exact Place.noConfusion hplace
    rcases step_spares hholds hok hfree hcur hsig fun _ => rfl with hdead | hs
    · exact .dead hdead
    · exact hs.awaits (signals_first hstat) hr hst
  | runs hstat hp hcpu => exact absurd hp hcur
  | dead hdead => exact absurd hdead hfree

theorem awaits_of_run (hclock : w ≠ K.clock)
    (hrun : Run (· = m₀) (Machine.step K) (Machine.Admits K) h m)
    (hstart : ∃ l, m₀.Holds K l ∧ Awaits K p w st [] (m₀.over l)) (hsole : Sole K w h)
    (haway : Away p h) : ∃ l, m.Holds K l ∧ Awaits K p w st h (m.over l) := by
  have hinv : ∃ l, m.Holds K l ∧ (Sole K w h → Away p h → Awaits K p w st h (m.over l)) := by
    refine run_induction hrun (fun _ _ he => he)
      (I := fun h am => Sole K w h → Away p h → Awaits K p w st h am) ?_ ?_
    · rintro m rfl
      obtain ⟨l, hholds, ha⟩ := hstart
      exact ⟨l, hholds, fun _ _ => ha⟩
    · exact fun h m l e hholds ha hok hsole haway =>
        step_awaits hclock hholds hok hsole haway (ha hsole.tail haway.tail)
  obtain ⟨l, hholds, ha⟩ := hinv
  exact ⟨l, hholds, ha hsole haway⟩

theorem Away.of_current (haway : Away p h)
    (hrun : Run (· = m₀) (Machine.step K) (Machine.Admits K) h m)
    (hcur : m₀.nuc.currentProc = some p) : m = m₀ := by
  induction hrun with
  | start hm => exact hm
  | @next h m e _ _ ih =>
    obtain rfl := ih haway.tail
    exact absurd hcur (haway (m, e) List.mem_cons_self).1

/-! ## The call -/

/-- SYS 8 of `p` for the entry at `w`. -/
structure WaitsFor (K : Layout) (p : Pcb) (w : Word) (m : Machine) (st : State) : Prop where
  caller : m.nuc.currentProc = some p
  user : ¬ st.Privileged
  call : st.a0 = WAITIO
  device : ¬ st.a1 < DISKINT
  entry : st.entry K = w

theorem WaitsFor.step (hcall : WaitsFor K p w m st) (hok : m.Admits K (.syscall st)) :
    (m.over l).step K (.syscall st) = ((m.abs l).called st).waitDev p w := by
  let a : Abs := { m.abs l with sysOld := st }
  have hstep : (m.over l).step K (.syscall st) = (m.over l).take K (.syscall st) := if_pos hok.takes
  have htake : (m.over l).take K (.syscall st) = a.sysCall K p :=
    Abs.withCurrent_some (a := a) _ hcall.caller
  have hswitch : a.sysCall K p = ((m.abs l).called st).sysSwitch K p st.a0 := if_neg hcall.user
  have hwait : ((m.abs l).called st).sysSwitch K p WAITIO =
      ((m.abs l).called st).waitDev p (st.entry K) := if_neg hcall.device
  rw [hstep, htake, hswitch, hcall.call, hwait, hcall.entry]

/-- `p` goes on with the state `s`, now or when the scheduler takes it from the ready queue. -/
def Machine.GoesOn (m : Machine) (p : Pcb) (s : State) : Prop :=
  m.nuc.currentProc = some p ∧ m.cpu = .ldst s ∨
    m.nuc.currentProc ≠ some p ∧ m.nuc.pcb.pS p = s ∧ ∃ l, Shape m.nuc.lk l ∧ p ∈ l.ready

theorem Machine.GoesOn.unique {s s' : State} (hs : m.GoesOn p s) (hs' : m.GoesOn p s') : s = s' := by
  rcases hs with ⟨hcur, hcpu⟩ | ⟨hcur, hst, -⟩
  · rcases hs' with ⟨-, hcpu'⟩ | ⟨hcur', -⟩
    · exact Stop.ldst.inj (hcpu.symm.trans hcpu')
    · exact absurd hcur hcur'
  · rcases hs' with ⟨hcur', -⟩ | ⟨-, hst', -⟩
    · exact absurd hcur' hcur
    · exact hst.symm.trans hst'

/-- One operation of the device that the registers `st` name.  Nobody waits for the device in `m₀`;
from there on the operation is the only one of the device, ends with the status `b`, and only
interrupts change the entry, which can count them.  In `mw` the process `p` makes SYS 8, and until
`m` it has not run again and has not been killed. -/
structure Operation (K : Layout) (p : Pcb) (b : Word) (m₀ : Machine)
    (earlier : List (Machine × Event)) (mw : Machine) (st : State)
    (later : List (Machine × Event)) (m : Machine) : Prop where
  start : ∃ h, Reaches K (Machine.Admits K) h m₀
  names : st.Names
  idle : m₀.nuc.mem (st.entry K) = 0
  nobody : ∀ q, m₀.nuc.pcb.pSemAdd q ≠ st.entry K
  run : Run (· = m₀) (Machine.step K) (Machine.Admits K) (later ++ (mw, .syscall st) :: earlier) m
  call : WaitsFor K p (st.entry K) mw st
  sole : Sole K (st.entry K) (later ++ earlier)
  genuine : ∀ x ∈ later ++ earlier, x.2.Genuine
  status : statuses st (later ++ earlier) = [b]
  few : (signals K (st.entry K) earlier).length < 2 ^ 31
  away : Away p later
  alive : m.Alive p

theorem waitDev_returns (hpos : 0 < (m.nuc.mem w).toInt) :
    ((m.abs l).called st).waitDev p w =
      ⟨((m.abs l).called st).setInt w (m.nuc.mem w - 1), .ldst st.advance⟩ := by
  have hnot : ¬ (((m.abs l).called st).mem w - 1).toInt < 0 := by
    have hmem : ((m.abs l).called st).mem w = m.nuc.mem w := rfl
    rw [hmem, toInt_pred (by omega)]
    omega
  rw [Abs.waitDev_of_not_neg hnot]
  rfl

/-- A call before the interrupt blocks its process. -/
theorem waitDev_awaits (hline : l.blocked w = []) (hzero : m.nuc.mem w = 0) :
    Awaits K p w st.advance [] (((m.abs l).called st).waitDev p w) := by
  have hmem : ((m.abs l).called st).mem w - 1 = -1 := by
    rw [show ((m.abs l).called st).mem w = 0 from hzero]
    rfl
  rw [Abs.waitDev_of_neg (by rw [hmem]; decide), hmem]
  have hworld := schedule_world ((((m.abs l).called st).setInt w (-1)).block 1 p w)
  refine .waits rfl ?_ ?_ ?_
  · rw [hworld.blocked]
    have hnil : ((m.abs l).called st).lk.blocked w = [] := hline
    simp [Abs.block, Abs.setInt, hnil]
  · rw [hworld.mem]
    exact Function.update_self ..
  · rw [hworld.pcb]
    exact Function.update_self ..

theorem v0_advance (st : State) : st.advance.v0 = st.v0 := rfl

/-- A process that waits goes on with `b` exactly where that was the first status signalled. -/
theorem Awaits.goesOn_iff (ha : Awaits K p w st h (m.over l)) (hholds : m.Holds K l)
    (halive : m.Alive p) :
    (∃ s, m.GoesOn p s ∧ s.v0 = b) ↔ (signals K w h).getLast? = some b := by
  obtain ⟨place, hpl⟩ := hholds.sound.inv.placed
  have hgo : ∀ {s c}, (signals K w h).getLast? = some c → s.v0 = c → m.GoesOn p s →
      ((∃ s, m.GoesOn p s ∧ s.v0 = b) ↔ (signals K w h).getLast? = some b) := by
    intro s c hlast hv0 hs
    rw [hlast, Option.some.injEq, ← hv0]
    constructor
    · rintro ⟨s', hs', hb⟩
      rw [hs.unique hs', hb]
    · exact fun hb => ⟨s, hs, hb⟩
  cases ha with
  | waits hnil hline _ _ =>
    rw [hnil]
    refine iff_of_false ?_ (Option.some_ne_none b).symm
    have hp : place p = .blocked w := ((hpl.spot p).blocked w).mp (hline ▸ List.mem_singleton_self p)
    rintro ⟨s, ⟨hcur, -⟩ | ⟨-, -, l', hshape, hready⟩, -⟩
    · exact Place.noConfusion (hp.symm.trans ((hpl.spot p).running.mp hcur))
    · rw [hshape.unique hholds.shape] at hready
      exact Place.noConfusion (hp.symm.trans ((hpl.spot p).ready.mp hready))
  | dead hdead => exact absurd hdead (halive l hholds.shape)
  | ready hlast hready hst =>
    have hcur : m.nuc.currentProc ≠ some p := fun hcur => (hpl.out hcur).ready hready
    exact hgo hlast (State.v0_setV0 ..) (.inr ⟨hcur, hst, l, hholds.shape, hready⟩)
  | runs hlast hcur hcpu => exact hgo hlast (State.v0_setV0 ..) (.inl ⟨hcur, hcpu⟩)

namespace Operation

variable {mw : Machine}

theorem called (ho : Operation K p b m₀ earlier mw st later m) :
    ∃ l l', mw.Holds K l ∧ Uncalled K (st.entry K) earlier (mw.abs l) ∧
      (mw.step K (.syscall st)).Holds K l' ∧
      (mw.step K (.syscall st)).over l' = ((mw.abs l).called st).waitDev p (st.entry K) ∧
      Run (· = mw.step K (.syscall st)) (Machine.step K) (Machine.Admits K) later m := by
  obtain ⟨h, hreach⟩ := ho.start
  obtain ⟨m₁, hfirst, hrest⟩ := ho.run.split
  cases hfirst with
  | next hearly hok =>
  have hsole : Sole K (st.entry K) earlier := fun x hx => ho.sole x (List.mem_append_right _ hx)
  obtain ⟨l, hholds, hc⟩ := counts_of_run ho.names.entry_ne_clock hearly
    (hreach.holds fun _ _ he => he) ho.idle ho.nobody hsole
  obtain ⟨l', hholds', hover⟩ := hholds.step hok
  rw [ho.call.step hok] at hover
  exact ⟨l, l', hholds, hc, hholds', hover, hrest⟩

/-- A signal came before the call, which returns. -/
theorem returns (ho : Operation K p b m₀ earlier mw st later m)
    (hsome : signals K (st.entry K) earlier ≠ []) : m.GoesOn p st.advance := by
  obtain ⟨l, l', -, hc, -, hover, hrest⟩ := ho.called
  have hpos : 0 < (mw.nuc.mem (st.entry K)).toInt := by
    have hmem : mw.nuc.mem (st.entry K) = _ := hc.mem
    have hlen := List.length_pos_of_ne_nil hsome
    have hfew := ho.few
    have hnat := BitVec.toNat_ofNat (signals K (st.entry K) earlier).length 32
    rw [Nat.mod_eq_of_lt (by omega)] at hnat
    rw [hmem, BitVec.toInt_eq_toNat_of_lt (by omega), hnat]
    omega
  rw [waitDev_returns hpos] at hover
  have hcur : (mw.step K (.syscall st)).nuc.currentProc = some p := by
    have hp : ((mw.step K (.syscall st)).over l').nuc.currentProc = some p := by
      rw [hover]
      exact ho.call.caller
    exact hp
  have hcpu : (mw.step K (.syscall st)).cpu = .ldst st.advance := by
    have hc : ((mw.step K (.syscall st)).over l').cpu = .ldst st.advance := by rw [hover]
    exact hc
  obtain rfl := ho.away.of_current hrest hcur
  exact .inl ⟨hcur, hcpu⟩

/-- No signal came before the call, which waits for the first. -/
theorem awaits (ho : Operation K p b m₀ earlier mw st later m)
    (hnone : signals K (st.entry K) earlier = []) :
    ∃ l, m.Holds K l ∧ Awaits K p (st.entry K) st.advance later (m.over l) := by
  obtain ⟨l, l', -, hc, hholds', hover, hrest⟩ := ho.called
  have hzero : mw.nuc.mem (st.entry K) = 0 := by
    have hmem := hc.mem
    rw [hnone] at hmem
    exact hmem
  have hbegin : Awaits K p (st.entry K) st.advance [] ((mw.step K (.syscall st)).over l') := by
    rw [hover]
    exact waitDev_awaits hc.line hzero
  have hsole : Sole K (st.entry K) later := fun x hx => ho.sole x (List.mem_append_left _ hx)
  exact awaits_of_run ho.names.entry_ne_clock hrest ⟨l', hholds', hbegin⟩ hsole ho.away

theorem admits (ho : Operation K p b m₀ earlier mw st later m) :
    ∀ x ∈ later ++ earlier, x.1.Admits K x.2 := by
  intro x hx
  apply ho.run.allowed x
  rw [List.mem_append, List.mem_cons]
  exact (List.mem_append.mp hx).imp_right .inr

/-- Where a signal came before the call, the operation ended before it or a busy receiver was taken
for it. -/
theorem signalled (ho : Operation K p b m₀ earlier mw st later m)
    (hnone : statuses st earlier = []) (hun : Unmistaken st (later ++ earlier)) :
    signals K (st.entry K) earlier = [] := by
  have hok := fun x hx => ho.admits x (List.mem_append_right later hx)
  have hgenuine := fun x hx => ho.genuine x (List.mem_append_right later hx)
  refine (signals_before ho.names hok hgenuine hnone).elim And.right fun hmis => ?_
  refine absurd (fun after x before hh => ?_) hmis.1
  exact hun (later ++ after) x before (by rw [hh, List.append_assoc])

/-- Where no signal came before the call and no receiver was taken for the device, the operation did
not end before it. -/
theorem not_ended (ho : Operation K p b m₀ earlier mw st later m)
    (hnone : signals K (st.entry K) earlier = []) (hun : Unmistaken st (later ++ earlier)) :
    statuses st earlier = [] := by
  have hstatus := ho.status
  rw [statuses_append] at hstatus
  by_contra hsome
  have hearlier : statuses st earlier = [b] := by
    rcases List.append_eq_singleton_iff.mp hstatus with ⟨-, hone⟩ | ⟨-, hnil⟩
    · exact hone
    · exact absurd hnil hsome
  have hok := fun x hx => ho.admits x (List.mem_append_right later hx)
  have hgenuine := fun x hx => ho.genuine x (List.mem_append_right later hx)
  have hun' : Unmistaken st earlier := fun after x before hh =>
    hun (later ++ after) x before (by rw [hh, List.append_assoc])
  have hlast := (signals_last_iff ho.names hok hgenuine hearlier).mpr hun'
  rw [hnone] at hlast
  exact Option.some_ne_none _ hlast.symm

end Operation

/-- The process goes on after SYS 8 with the status of its operation exactly where the call came
before the operation ended and up to its end no interrupt found the receiver at work, or where
`v0` held that status already and a signal had come before the call. -/
theorem waitio_delivers_iff {mw : Machine} (ho : Operation K p b m₀ earlier mw st later m) :
    (∃ s, m.GoesOn p s ∧ s.v0 = b) ↔
      statuses st earlier = [] ∧ Unmistaken st (later ++ earlier) ∨
        st.v0 = b ∧ signals K (st.entry K) earlier ≠ [] := by
  by_cases hnone : signals K (st.entry K) earlier = []
  · obtain ⟨l, hholds, ha⟩ := ho.awaits hnone
    have hfirst := signals_last_iff ho.names ho.admits ho.genuine ho.status
    rw [signals_append, hnone, List.append_nil] at hfirst
    rw [or_iff_left fun hv0 => hv0.2 hnone, ha.goesOn_iff hholds ho.alive, hfirst]
    exact ⟨fun hun => ⟨ho.not_ended hnone hun, hun⟩, And.right⟩
  · have hgo := ho.returns hnone
    have hnot : ¬ (statuses st earlier = [] ∧ Unmistaken st (later ++ earlier)) :=
      fun hc => hnone (ho.signalled hc.1 hc.2)
    rw [or_iff_right hnot, and_iff_left hnone]
    constructor
    · rintro ⟨s, hs, hv0⟩
      rw [← hv0, hs.unique hgo, v0_advance]
    · exact fun hv0 => ⟨_, hgo, hv0⟩

/-! ## Two orders on a disk -/

theorem Machine.Holds.alive (hholds : m.Holds K l) (hp : p ∉ l.free) : m.Alive p := by
  intro l' hshape
  rw [← hholds.shape.queues.free.unique hshape.queues.free]
  exact hp

theorem Machine.Holds.alive_of_waits (hholds : m.Holds K l) (hp : m.nuc.pcb.pSemAdd p ≠ NULL) :
    m.Alive p := by
  obtain ⟨place, hpl⟩ := hholds.sound.inv.placed
  refine hholds.alive fun hfree => hp ?_
  have hplace : place p = .free := (hpl.spot p).free.mp hfree
  rw [show m.nuc.pcb.pSemAdd p = (place p).semAdd from hpl.semAdd p, hplace]
  rfl

theorem Machine.Holds.alive_of_runs (hholds : m.Holds K l) (hp : m.nuc.currentProc = some p) :
    m.Alive p := by
  obtain ⟨place, hpl⟩ := hholds.sound.inv.placed
  exact hholds.alive (hpl.out hp).free

def diskCall : State := .call WAITIO 3 0 0

def diskAwaited : Machine := (boot .sample .sample).step .sample (.syscall diskCall)

def diskDone : Machine := (boot .sample .sample).step .sample (.disk resetState READY)

theorem diskCall_plain (hruns : m.cpu.Running) : m.Plain .sample (.syscall diskCall) := by
  refine ⟨hruns, ?_⟩
  constructor
  case user => decide
  case call => exact .inr (.inr (.inr (.inr (.inr rfl))))
  case device => decide
  case slot => decide
  all_goals exact fun h => absurd h (by decide)

theorem disk_plain (htakes : m.cpu.Takes (.disk resetState READY)) :
    m.Plain .sample (.disk resetState READY) := ⟨htakes, by decide, fun _ => by decide⟩

theorem disk_sole (w : Word) (m : Machine) :
    Sole .sample w [(m, .disk resetState READY)] := by
  intro x hx hnot
  obtain rfl := List.mem_singleton.mp hx
  exact absurd trivial hnot

theorem disk_genuine (m : Machine) :
    ∀ x ∈ [(m, Event.disk resetState READY)], x.2.Genuine := by
  intro x hx
  obtain rfl := List.mem_singleton.mp hx
  exact fun h7 => absurd h7 (by decide)

theorem diskCall_entry : diskCall.entry .sample = Layout.sample.semDev 0 := by decide

theorem boot_idle : (boot .sample .sample).nuc.mem (diskCall.entry .sample) = 0 := by
  rw [boot_mem, diskCall_entry]
  exact first_mem_dev _ (by decide)

theorem boot_nobody (q : Pcb) :
    (boot .sample .sample).nuc.pcb.pSemAdd q ≠ diskCall.entry .sample := by
  rw [boot_pcb, diskCall_entry]
  exact (by decide : NULL ≠ Layout.sample.semDev 0)

theorem diskCall_waits (hcur : m.nuc.currentProc = some p) :
    WaitsFor .sample p (diskCall.entry .sample) m diskCall :=
  ⟨hcur, by decide, rfl, by decide, rfl⟩

/-- The first process waits and then the disk interrupts. -/
theorem waitio_delivers_iff_disk :
    (∃ s, (diskAwaited.step .sample (.disk resetState READY)).GoesOn Abs.firstPcb s ∧ s.v0 = 1) ↔
      statuses diskCall [] = [] ∧
          Unmistaken diskCall ([(diskAwaited, .disk resetState READY)] ++ []) ∨
        diskCall.v0 = 1 ∧ signals .sample (diskCall.entry .sample) [] ≠ [] := by
  have hwait : diskAwaited.cpu = .wait := by decide +kernel
  have hcall : (boot .sample .sample).Plain .sample (.syscall diskCall) :=
    diskCall_plain ⟨_, boot_cpu _ _⟩
  have hdisk : diskAwaited.Plain .sample (.disk resetState READY) := disk_plain (.inr hwait)
  obtain ⟨l, hholds, -⟩ := boot_holds .sample .sample
  obtain ⟨l₁, hholds₁⟩ : ∃ l, diskAwaited.Holds .sample l :=
    (hholds.step hcall.admits).imp fun _ => And.left
  obtain ⟨l₂, hholds₂, -⟩ := hholds₁.step hdisk.admits
  suffices ho : Operation .sample Abs.firstPcb 1 (boot .sample .sample) []
      (boot .sample .sample) diskCall [(diskAwaited, .disk resetState READY)]
      (diskAwaited.step .sample (.disk resetState READY)) from waitio_delivers_iff ho
  constructor
  case start => exact ⟨[], .start ⟨.sample, rfl, rfl⟩⟩
  case names => decide
  case idle => exact boot_idle
  case nobody => exact boot_nobody
  case run => exact .next (.next (.start rfl) hcall.admits) hdisk.admits
  case call => exact diskCall_waits boot_current
  case status => decide
  case few => decide
  case sole => exact disk_sole _ _
  case genuine => exact disk_genuine _
  case away =>
    have hcur : diskAwaited.nuc.currentProc ≠ some Abs.firstPcb := by decide +kernel
    have hsem : diskAwaited.nuc.pcb.pSemAdd Abs.firstPcb = Layout.sample.semDev 0 := by
      decide +kernel
    have hnull : diskAwaited.nuc.pcb.pSemAdd Abs.firstPcb ≠ NULL := by
      rw [hsem]
      decide
    exact away_singleton hcur (hholds₁.alive_of_waits hnull)
  case alive => exact hholds₂.alive_of_runs (by decide +kernel)

/-- The disk interrupts first, and SYS 8 leaves `v0` as it was: 0 and not the status 1. -/
theorem waitio_misses_status :
    Operation .sample Abs.firstPcb 1 (boot .sample .sample)
        [(boot .sample .sample, .disk resetState READY)] diskDone diskCall []
        (diskDone.step .sample (.syscall diskCall)) ∧
      ¬ ∃ s, (diskDone.step .sample (.syscall diskCall)).GoesOn Abs.firstPcb s ∧ s.v0 = 1 := by
  have hdisk : (boot .sample .sample).Plain .sample (.disk resetState READY) :=
    disk_plain (.inl ⟨_, boot_cpu _ _⟩)
  have hcur : diskDone.nuc.currentProc = some Abs.firstPcb := by decide +kernel
  have hcall : diskDone.Plain .sample (.syscall diskCall) := diskCall_plain (by decide +kernel)
  have hruns : (diskDone.step .sample (.syscall diskCall)).nuc.currentProc = some Abs.firstPcb := by
    decide +kernel
  have hcpu : (diskDone.step .sample (.syscall diskCall)).cpu = .ldst diskCall.advance := by
    decide +kernel
  obtain ⟨l, hholds, -⟩ := boot_holds .sample .sample
  obtain ⟨l₁, hholds₁⟩ : ∃ l, diskDone.Holds .sample l :=
    (hholds.step hdisk.admits).imp fun _ => And.left
  obtain ⟨l₂, hholds₂, -⟩ := hholds₁.step hcall.admits
  constructor
  · constructor
    case start => exact ⟨[], .start ⟨.sample, rfl, rfl⟩⟩
    case names => decide
    case idle => exact boot_idle
    case nobody => exact boot_nobody
    case run => exact .next (.next (.start rfl) hdisk.admits) hcall.admits
    case call => exact diskCall_waits hcur
    case status => decide
    case few => decide
    case sole => exact disk_sole _ _
    case genuine => exact disk_genuine _
    case away => exact fun x hx => absurd hx List.not_mem_nil
    case alive => exact hholds₂.alive_of_runs hruns
  · rintro ⟨s, ⟨-, hs⟩ | ⟨hnot, -⟩, hv0⟩
    · obtain rfl : s = diskCall.advance := Stop.ldst.inj (hs.symm.trans hcpu)
      exact absurd hv0 (by decide)
    · exact hnot hruns

end Kaya
