import Kaya.Phase2.DeviceEntries
import Kaya.Phase2.Proofs.Models

/-!
# The nucleus refines its specifications

The linked lists of the code do what the services over lists do, and these are the operations
of a kernel with counting semaphores.
-/

namespace Kaya

open Lib

variable {K : Layout} {U : Word → Prop} {m : Machine} {l : Lists} {k : Kernel Pcb Word} {e : Event}
  {h : List (Machine × Event)} {st : State} {s : Nucleus} {p : Pcb} {w : Word}

/-! ## Pointers and lists -/

/-- The machine over lists after the events of a history. -/
def Abs.after (K : Layout) (s : Nucleus) (h : List (Machine × Event)) : AbsMachine :=
  (h.map Prod.snd).foldr (fun e am => am.step K e) (Abs.first K s).schedule

theorem Abs.after_cons :
    Abs.after K s ((m, e) :: h) = (Abs.after K s h).step K e := rfl

/-- In every run the pointers represent lists, the only ones they can, and what `main` and the
handlers have made of everything is what the services over lists make of it. -/
theorem nucleus_refines
    (hrun : Run (· = boot K s) (Machine.step K) (Machine.Admits K) h m) :
    ∃! l, Shape m.nuc.lk l ∧ Sound K (m.over l) ∧ m.over l = Abs.after K s h := by
  have hboot := boot_holds K s
  generalize boot K s = m₀ at hrun hboot
  have hinv : ∃ l, m.Holds K l ∧ m.over l = Abs.after K s h := by
    apply run_induction hrun (fun _ _ he => he) (I := fun h am => am = Abs.after K s h)
    · intro m hm
      subst hm
      exact hboot
    · intro h m l e _ hover _
      rw [Abs.after_cons, hover]
  obtain ⟨l, hholds, hover⟩ := hinv
  exact ⟨l, ⟨hholds.shape, hholds.sound, hover⟩, fun l' hl' => hl'.1.unique hholds.shape⟩

/-- The first process waits for the clock. -/
theorem nucleus_refines_waitclock : ∃! l,
    Shape (Machine.step .sample (boot .sample .sample)
      (.syscall (.call WAITCLOCK 0 0 0))).nuc.lk l ∧
    Sound .sample ((Machine.step .sample (boot .sample .sample)
      (.syscall (.call WAITCLOCK 0 0 0))).over l) ∧
    (Machine.step .sample (boot .sample .sample)
      (.syscall (.call WAITCLOCK 0 0 0))).over l =
      Abs.after .sample .sample [(boot .sample .sample, .syscall (.call WAITCLOCK 0 0 0))] :=
  nucleus_refines (.next (.start rfl) waitclock_plain.admits)

/-! ## Lists and a kernel -/

/-- What a system call asks of the kernel. -/
def Machine.calls (K : Layout) (m : Machine) (st : State) (p : Pcb) :
    List (Kernel.Op Pcb Word) :=
  match st.waitsOn K with
  | some w => [.down p w]
  | none =>
      if st.a0 = VERHOGEN then [.up st.a1]
      else if st.a0 = TERMINATEPROCESS then [.exit p]
      else if st.a0 = CREATEPROCESS then m.nuc.lk.pcbFree.toList.map .create
      else []

/-- What an event asks of the kernel. -/
def Machine.asks (K : Layout) (m : Machine) : Event → List (Kernel.Op Pcb Word)
  | .syscall st => m.nuc.currentProc.toList.flatMap (m.calls K st)
  | .interrupt st interruptDev devReg =>
      if findLineNo st.sCause = IVTIMINT then [.flush K.clock]
      else if 3 ≤ findLineNo st.sCause then
        [.up (K.semDev (BitVec.ofInt 32 (shownIndex (findLineNo st.sCause) interruptDev devReg)))]
      else []
  | .store _ _ | .progTrap _ | .tlbTrap _ => []

def asked (K : Layout) (h : List (Machine × Event)) : List (Kernel.Op Pcb Word) :=
  h.flatMap fun x => x.1.asks K x.2

/-- The semaphores: the words of `U`, and the entries of `semDevArray`. -/
def Layout.Counted (K : Layout) (U : Word → Prop) (w : Word) : Prop :=
  U w ∨ ∃ i : Word, i.toNat < DEVICECNT ∧ w = K.semDev i

/-- A plain event that uses the words in `U`, and no others, as semaphores; no signal overflows. -/
structure Machine.KeepsTo (K : Layout) (U : Word → Prop) (m : Machine) (e : Event) : Prop where
  plain : m.Plain K e
  called : ∀ st, e = .syscall st → st.a0 = VERHOGEN ∨ st.a0 = PASSEREN → U st.a1
  store : ∀ w v, e = .store w v → ¬ U w
  high : ∀ w, .up w ∈ m.asks K e → (m.nuc.mem w).toInt + 1 < 2 ^ 31

theorem State.waitsOn_passeren (h4 : st.a0 = PASSEREN) : st.waitsOn K = some st.a1 := if_pos h4

theorem State.waitsOn_none (h4 : st.a0 ≠ PASSEREN) (h7 : st.a0 ≠ WAITCLOCK) (h8 : st.a0 ≠ WAITIO) :
    st.waitsOn K = none := by
  rw [waitsOn, if_neg h4, if_neg h7, if_neg fun h => h8 h.1]

theorem Machine.asks_syscall (hcur : m.nuc.currentProc = some p) :
    m.asks K (.syscall st) = m.calls K st p := by
  simp only [asks, hcur, Option.toList_some, List.flatMap_singleton]

theorem Machine.asks_down (hcur : m.nuc.currentProc = some p) (hw : st.waitsOn K = some w) :
    m.asks K (.syscall st) = [.down p w] := by
  rw [asks_syscall hcur, calls, hw]

theorem Machine.asks_up (hcur : m.nuc.currentProc = some p) (h3 : st.a0 = VERHOGEN) :
    m.asks K (.syscall st) = [.up st.a1] := by
  have hnone : st.waitsOn K = none := by
    apply State.waitsOn_none <;> rw [h3] <;> decide
  rw [asks_syscall hcur, calls, hnone]
  exact if_pos h3

theorem Machine.asks_exit (hcur : m.nuc.currentProc = some p) (h2 : st.a0 = TERMINATEPROCESS) :
    m.asks K (.syscall st) = [.exit p] := by
  have hnone : st.waitsOn K = none := by
    apply State.waitsOn_none <;> rw [h2] <;> decide
  have h3 : st.a0 ≠ VERHOGEN := by
    rw [h2]
    decide
  rw [asks_syscall hcur, calls, hnone]
  exact (if_neg h3).trans (if_pos h2)

theorem Machine.asks_create (hcur : m.nuc.currentProc = some p) (h1 : st.a0 = CREATEPROCESS) :
    m.asks K (.syscall st) = m.nuc.lk.pcbFree.toList.map .create := by
  have hnone : st.waitsOn K = none := by
    apply State.waitsOn_none <;> rw [h1] <;> decide
  have h3 : st.a0 ≠ VERHOGEN := by
    rw [h1]
    decide
  have h2 : st.a0 ≠ TERMINATEPROCESS := by
    rw [h1]
    decide
  rw [asks_syscall hcur, calls, hnone]
  exact (if_neg h3).trans ((if_neg h2).trans (if_pos h1))

/-- SYS 7 and SYS 8 wait on the entry that their registers name. -/
theorem Machine.Holds.waitsDev (hholds : m.Holds K l) (hok : m.Plain K (.syscall st))
    (hcall : st.a0 = WAITCLOCK ∨ st.a0 = WAITIO) : ∃ p i, m.nuc.currentProc = some p ∧
      i.toNat < DEVICECNT ∧ st.waitsOn K = some (K.semDev i) ∧
      (m.over l).step K (.syscall st) = ((m.abs l).called st).waitDev p (K.semDev i) := by
  obtain ⟨p, hcur, -⟩ := hholds.serves hok.1
  rcases hcall with h7 | h8
  · refine ⟨p, BitVec.ofNat 32 (DEVICECNT - 1), hcur, by decide, State.waitsOn_clock h7, ?_⟩
    have hstep : (m.over l).step K (.syscall st) = (m.over l).take K (.syscall st) := if_pos hok.1
    have htake : (m.over l).take K (.syscall st) =
        Abs.sysCall K { m.abs l with sysOld := st } p := Abs.withCurrent_some _ hcur
    have hswitch : Abs.sysCall K { m.abs l with sysOld := st } p =
        ((m.abs l).called st).sysSwitch K p st.a0 := if_neg hok.2.user
    have hclock : ((m.abs l).called st).sysSwitch K p WAITCLOCK =
        ((m.abs l).called st).waitDev p K.clock := by
      unfold Abs.sysSwitch
      rw [if_neg (by decide), if_neg (by decide), if_neg (by decide), if_neg (by decide),
        if_neg (by decide), if_neg (by decide), if_pos rfl]
    rw [hstep, htake, hswitch, h7, hclock, Layout.clock]
  · have hline := hok.2.device h8
    exact ⟨p, waitioIndex st.a1 st.a2 st.a3, hcur, hok.2.slot h8, State.waitsOn_entry h8 hline,
      WaitsFor.step ⟨hcur, hok.2.user, h8, hline, rfl⟩ hok.admits⟩

/-- One step of the nucleus is some operations of the kernel: what the event asks for, and then
what the scheduler chooses. -/
theorem Models.step (h : Models K (K.Counted U) (m.abs l) k) (hholds : m.Holds K l)
    (hok : m.KeepsTo K U e) :
    Leads K (K.Counted U) k (m.asks K e) ((m.over l).step K e).nuc := by
  have hs := hholds.plain hok.plain
  have hnd := hholds.shape.nodups
  have hwait := hholds.waiting hok.plain.1
  have hcalled : ∀ st, Models K (K.Counted U) ((m.abs l).called st) k := fun st =>
    h.congr rfl rfl rfl rfl rfl rfl rfl fun _ _ => rfl
  have hint : ∀ st i d, Models K (K.Counted U) ((m.abs l).interrupted st i d) k := fun st i d =>
    h.congr rfl rfl rfl rfl rfl rfl rfl fun _ _ => rfl
  generalize ham : (m.over l).step K e = am at hs
  cases hs with
  | @store w v hdev hrun =>
      refine Models.leads (h.congr rfl rfl rfl rfl rfl rfl rfl ?_)
      intro u hu
      apply Function.update_of_ne
      rintro rfl
      rcases hu with hu | ⟨i, hi, rfl⟩
      · exact hok.store u v rfl hu
      · exact hdev (Layout.isDev_semDev hi)
  | @create st p h1 hcur =>
      rw [Machine.asks_create hcur h1, hholds.shape.queues.free.eq_head?]
      cases hfree : l.free with
      | nil =>
          have hfree' : ((m.abs l).called st).lk.free = [] := hfree
          simp only [Abs.createprocess, hfree']
          exact Models.leads ((hcalled st).congr rfl rfl rfl rfl rfl rfl rfl fun _ _ => rfl)
      | cons c fs =>
          obtain ⟨place, hpl, hst⟩ := h.standing
          have hmem : c ∈ (m.abs l).lk.free := by
            change c ∈ l.free
            simp [hfree]
          have hallow : k.Allows (.create c) := by
            change k.standing c = .absent
            rw [hst, Function.comp_apply, (hpl.spot c).free.mp hmem]
            rfl
          exact ((hcalled st).createprocess hfree hnd.free).leads.ask hallow
  | @exit st p h2 hcur hkids =>
      have hallow : k.Allows (.exit p) := h.running.trans hcur
      rw [Machine.asks_exit hcur h2]
      exact (((hcalled st).reapCurrent hcur).schedule rfl).ask hallow
  | @V st p h3 hcur huser =>
      have hasks : m.asks K (.syscall st) = [.up st.a1] := Machine.asks_up hcur h3
      have hhigh := hok.high st.a1 (by rw [hasks]; exact List.mem_singleton.mpr rfl)
      have hV := (hcalled st).V (hnd.blocked _) (.inl (hok.called st rfl (.inl h3)))
        huser.2.2 hhigh
      rw [hasks]
      exact hV.leads.ask (o := .up st.a1) trivial
  | @P st p h4 hcur huser =>
      rw [Machine.asks_down hcur (State.waitsOn_passeren h4)]
      exact (hcalled st).P (hnd.blocked _) (.inl (hok.called st rfl (.inr h4))) hcur
        huser.semAddr huser.2.2
  | waitDev h78 =>
      obtain ⟨p, i, hcur, hi, hw, hstep⟩ := hholds.waitsDev hok.plain h78
      rw [← ham, hstep, Machine.asks_down hcur hw]
      exact (hcalled _).waitDev (hnd.blocked _) (.inr ⟨i, hi, rfl⟩) (Layout.isDev_semDev hi) hcur
  | @quantum st i d h1 =>
      have hasks : m.asks K (.interrupt st i d) = [] := by
        simp [Machine.asks, h1, PLOCINT, IVTIMINT]
      have hend := (hint st i d).endQuantum (m.nuc.tod m.nuc.reads)
      rw [hasks]
      exact (hend.schedule hend.running.symm).ask (o := .pause) trivial
  | @clock st i d h2 =>
      have hq := wakeAll_quiet ((m.abs l).interrupted st i d) K.clock (l.blocked K.clock)
      have hasks : m.asks K (.interrupt st i d) = [.flush K.clock] := if_pos h2
      have htick := (hint st i d).clockTick (hnd.blocked _)
      rw [hasks]
      refine (htick.leaveHandler ?_ _).ask (o := .flush K.clock) trivial
      exact fun hw => hq.currentProc.trans (hwait (hq.waiting.symm.trans hw))
  | @device st i d h3 hdev =>
      have hasks : m.asks K (.interrupt st i d) =
          [.up (K.semDev (BitVec.ofInt 32 (shownIndex (findLineNo st.sCause) i d)))] := by
        have h2 : findLineNo st.sCause ≠ IVTIMINT := by
          simp only [IVTIMINT]
          omega
        exact (if_neg h2).trans (if_pos h3)
      have hhigh := hok.high _ (by rw [hasks]; exact List.mem_singleton.mpr rfl)
      have hacked : Models K (K.Counted U) (((m.abs l).interrupted st i d).acked (findLineNo st.sCause)) k :=
        (hint st i d).congr rfl rfl rfl rfl rfl rfl rfl fun _ _ => rfl
      have hsignal := hacked.signal (hnd.blocked _)
        (.inr ⟨_, (hok.plain.2.dev h3).2, rfl⟩) hdev hhigh
        (((m.abs l).interrupted st i d).shown (findLineNo st.sCause)).1
      have hq := signal_quiet (((m.abs l).interrupted st i d).acked (findLineNo st.sCause))
        (((m.abs l).interrupted st i d).slot K (findLineNo st.sCause))
        (((m.abs l).interrupted st i d).shown (findLineNo st.sCause)).1
      rw [hasks]
      refine Leads.ask (hsignal.leaveHandler ?_ _) trivial
      exact fun hw => hq.currentProc.trans (hwait (hq.waiting.symm.trans hw))

theorem Leads.trans {a b : Abs} {os os' : List (Kernel.Op Pcb Word)} (h : Leads K U k os a)
    (hnext : ∀ k', Models K U a k' → Leads K U k' os' b) : Leads K U k (os' ++ os) b := by
  obtain ⟨ops, k', hgoes, hos, hmodels⟩ := h
  obtain ⟨ops', k'', hgoes', hos', hmodels'⟩ := hnext k' hmodels
  refine ⟨ops' ++ ops, k'', hgoes.trans hgoes', ?_, hmodels'⟩
  rw [List.filter_append, hos, hos']

def Kernel.first (K : Layout) (s : Nucleus) : Kernel Pcb Word :=
  .alone Abs.firstPcb fun w => ((Abs.first K s).mem w).toInt

theorem first_models (hU : ∀ w, U w → K.UserWord w ∧ 0 ≤ (s.mem w).toInt) :
    Leads K (K.Counted U) (Kernel.first K s) [] (Abs.first K s).schedule.nuc := by
  have hmodels : Models K (K.Counted U) (Abs.first K s) ((Kernel.first K s).perform .pause) := by
    constructor
    case standing =>
      refine ⟨_, first_placed K s, ?_⟩
      funext p
      change Function.update (fun _ => Standing.absent) Abs.firstPcb .ready p = _
      by_cases hp : p = Abs.firstPcb <;> simp [hp, Place.standing]
    case ready => exact List.nodup_singleton _
    case running => rfl
    case waiters => exact fun w => rfl
    case value =>
      intro w hw
      have hpos : 0 ≤ ((Abs.first K s).mem w).toInt := by
        rcases hw with hw | ⟨i, hi, rfl⟩
        · rw [first_mem_of_not_dev s (hU w hw).1.2.2]
          exact (hU w hw).2
        · rw [first_mem_dev s hi]
          decide
      exact max_eq_right hpos
  exact (hmodels.schedule rfl).ask (o := .pause) trivial

/-- The nucleus is a kernel: in every run its lists and its semaphores are those of a kernel in
which a process blocks only by its own call, a signal wakes the first waiter and nobody else, a
tick all waiters of the clock, and the scheduler runs only ready processes, and the services of
this kernel are those that the events asked for, one after the other. -/
theorem nucleus_serves (hU : ∀ w, U w → K.UserWord w ∧ 0 ≤ (s.mem w).toInt)
    (hrun : Run (· = boot K s) (Machine.step K) (Machine.KeepsTo K U) h m) :
    ∃ l os k, Shape m.nuc.lk l ∧ (Kernel.first K s).Goes os k ∧
      os.filter Kernel.Op.isService = asked K h ∧ Models K (K.Counted U) (m.abs l) k ∧ k.Sane := by
  have hboot := boot_holds K s
  have hfirst := first_models hU
  generalize boot K s = m₀ at hrun hboot
  have hinv : ∃ l, m.Holds K l ∧
      Leads K (K.Counted U) (Kernel.first K s) (asked K h) (m.over l).nuc := by
    apply run_induction hrun (fun _ _ he => he.plain.admits)
      (I := fun h am => Leads K (K.Counted U) (Kernel.first K s) (asked K h) am.nuc)
    · intro m hm
      subst hm
      obtain ⟨l, hholds, hover⟩ := hboot
      refine ⟨l, hholds, ?_⟩
      rw [hover]
      exact hfirst
    · intro h m l e hholds hleads hok
      exact hleads.trans fun k' hk' => hk'.step hholds hok
  obtain ⟨l, hholds, os, k, hgoes, hos, hmodels⟩ := hinv
  exact ⟨l, os, k, hholds.shape, hgoes, hos, hmodels, (Kernel.Sane.alone _ _).goes hgoes⟩

/-- The first process signals a semaphore that starts at 0. -/
theorem nucleus_serves_verhogen : ∃ l os k,
    Shape (Machine.step .sample (boot .sample .sample)
      (.syscall (.call VERHOGEN 0x20008000 0 0))).nuc.lk l ∧
    (Kernel.first .sample .sample).Goes os k ∧
    os.filter Kernel.Op.isService =
      asked .sample [(boot .sample .sample, .syscall (.call VERHOGEN 0x20008000 0 0))] ∧
    Models .sample (Layout.sample.Counted (· = 0x20008000))
      ((Machine.step .sample (boot .sample .sample)
        (.syscall (.call VERHOGEN 0x20008000 0 0))).abs l) k ∧ k.Sane := by
  have hdev : ¬ Layout.sample.IsDev 0x20008000 := by decide
  have hmem : (boot .sample .sample).nuc.mem 0x20008000 = 0 := by
    rw [boot_mem, first_mem_of_not_dev _ hdev]
    rfl
  have hplain : (boot .sample .sample).Plain .sample
      (.syscall (.call VERHOGEN 0x20008000 0 0)) := by
    refine ⟨⟨_, boot_cpu _ _⟩, ?_⟩
    constructor
    case user => decide
    case call => exact .inr (.inr (.inl rfl))
    case sem => exact fun _ => by decide
    all_goals exact fun h => absurd h (by decide)
  refine nucleus_serves (U := (· = 0x20008000)) ?_ (.next (.start rfl) ⟨hplain, ?_, by simp, ?_⟩)
  · rintro w rfl
    exact ⟨by decide, le_rfl⟩
  · intro st hst _
    cases hst
    rfl
  · intro w hw
    cases hcur : (boot Layout.sample Nucleus.sample).nuc.currentProc with
    | none =>
        rw [Machine.asks, hcur] at hw
        exact absurd hw List.not_mem_nil
    | some p =>
        rw [Machine.asks_up hcur rfl, List.mem_singleton] at hw
        obtain rfl : w = 0x20008000 := (Kernel.Op.up.inj hw).trans rfl
        rw [hmem]
        decide

end Kaya
