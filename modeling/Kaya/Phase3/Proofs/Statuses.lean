import Kaya.Phase3.Proofs.DeviceInv

/-!
# What the devices report

The semaphore of a device counts the interrupts that nobody waits for.  While there are none,
SYS 8 returns the status with which the device interrupted.
-/

namespace Kaya.Phase3

open Lib

def Act.AsksFor (i : Word) : Act → Prop
  | .waitio l d u => waitioIndex l d u = i
  | _ => False

/-- The interrupt of a device, by the index of its semaphore and its status. -/
def Event.report {ι : Type} : Event ι → Option (Word × Word)
  | .devInt i status => some (i, status)
  | .diskInt status => some (0, status)
  | _ => none

namespace Sys

section Steps

variable {ι : Type} [DecidableEq ι] {S : Setup ι} {s t : Sys ι} {e : Event ι} {p : ι} {a : Act}
  {k : Word → Prog} {r i j status : Word}

/-- What an event does to the semaphore of device `i` and to the log. -/
inductive DevStep (i : Word) (s : Sys ι) (e : Event ι) (t : Sys ι) : Prop
  | away {l : List (Did ι Act Word View)} : t.log = l ++ s.log → (∀ d ∈ l, ¬ d.a.AsksFor i) →
      t.dev i = s.dev i → DevStep i s e t
  | passes {d : Did ι Act Word View} : 0 < (s.dev i).value → t.log = d :: s.log →
      t.dev i = (s.dev i).down d.p → DevStep i s e t
  | waits {p : ι} : ¬ 0 < (s.dev i).value → t.log = s.log → t.dev i = (s.dev i).down p →
      DevStep i s e t
  | lost {status : Word} : (s.dev i).waiters = [] → e.report = some (i, status) → t.log = s.log →
      t.dev i = (s.dev i).up → DevStep i s e t
  | wakes {d : Did ι Act Word View} {status : Word} : d.p ∈ (s.dev i).waiters →
      e.report = some (i, status) → d.r = status &&& STATUSMASK → t.log = d :: s.log →
      t.dev i = (s.dev i).up → DevStep i s e t

omit [DecidableEq ι] in
theorem Still.devStep (h : s.Still t) : DevStep i s e t :=
  .away (l := []) h.log (by simp) (by rw [h.dev])

theorem answer_devStep (hdev : t.dev i = s.dev i) (hlog : t.log = s.log)
    (hprog : (t.task p).prog = .act a k) (ha : ¬ a.AsksFor i) : DevStep i s e (t.answer p r) := by
  refine .away (l := [⟨p, a, r, t.view⟩]) ?_ (by simpa using ha) ?_
  · rw [answer_log hprog, hlog]
    rfl
  · rw [(answer_lines t p r).2.1, hdev]

theorem waitDev_devStep {l d u : Word} (hprog : (s.task p).prog = .act (.waitio l d u) k) :
    DevStep i s e (s.waitDev p (waitioIndex l d u) r) := by
  unfold waitDev
  simp only
  generalize hj : waitioIndex l d u = j
  generalize ht : ({ s with dev := Function.update s.dev j ((s.dev j).down p) } : Sys ι) = t
  have hprog' : (t.task p).prog = .act (.waitio l d u) k := by rw [← ht, hprog]
  have hlog : t.log = s.log := log_congr (by rw [← ht])
  by_cases hji : j = i
  · subst hji
    have hdev : t.dev j = (s.dev j).down p := by
      rw [← ht]
      exact Function.update_self ..
    split_ifs with hpos
    · refine .passes (d := ⟨p, .waitio l d u, r, t.view⟩) hpos ?_ ?_
      · rw [answer_log hprog', hlog]
      · rw [(answer_lines t p r).2.1, hdev]
    · exact .waits (p := p) hpos hlog hdev
  · have hdev : t.dev i = s.dev i := by
      rw [← ht]
      exact Function.update_of_ne (Ne.symm hji) ..
    split_ifs
    · exact answer_devStep hdev hlog hprog' fun hasks => hji (hj.symm.trans hasks)
    · exact .away (l := []) hlog (by simp) hdev

theorem Sane.V_devStep (h : s.Sane) (hp : s.life p = .ready) {x : Sem}
    (hprog : (s.task p).prog = .act (.verhogen x) k) : DevStep i s e (s.V p x) := by
  unfold V
  simp only
  generalize ht : ({ s with sem := Function.update s.sem x (s.sem x).up } : Sys ι) = t
  have htask : t.task = s.task := by rw [← ht]
  have hlog : t.log = s.log := log_congr (by rw [← ht])
  have hdev : t.dev = s.dev := by rw [← ht]
  have hprog' : (t.task p).prog = .act (.verhogen x) k := by rw [htask, hprog]
  cases hws : (s.sem x).waiters with
  | nil => exact answer_devStep (by rw [hdev]) hlog hprog' id
  | cons q ws =>
    obtain ⟨hb, k', hq⟩ := h.sem x q (hws ▸ List.mem_cons_self)
    have hqp : q ≠ p := by
      rintro rfl
      exact absurd (hp.symm.trans hb) (by decide)
    have hq' : ((t.answer p 0).task q).prog = .act (.passeren x) k' := by
      rw [(answer_of_ne hqp).1, htask, hq]
    refine .away (l := [⟨q, .passeren x, 0, (t.answer p 0).view⟩, ⟨p, .verhogen x, 0, t.view⟩])
      ?_ (by simp [Act.AsksFor]) ?_
    · rw [wake, answer_log hq', answer_log hprog', hlog]
      rfl
    · rw [wake, (answer_lines _ q 0).2.1, (answer_lines t p 0).2.1, hdev]

theorem Sane.signal_devStep (h : s.Sane) (htask : t.task = s.task) (hdev : t.dev = s.dev)
    (hlog : t.log = s.log) (he : e.report = some (j, status)) :
    DevStep i s e (t.signal j status) := by
  unfold signal
  simp only [hdev]
  generalize ht : ({ t with dev := Function.update s.dev j (s.dev j).up } : Sys ι) = u
  have hlog' : u.log = s.log := by
    rw [← hlog]
    exact log_congr (by rw [← ht])
  have htask' : u.task = s.task := by rw [← ht, htask]
  have hdev' : u.dev = Function.update s.dev j (s.dev j).up := by rw [← ht]
  by_cases hi : j = i
  · subst hi
    have hup : u.dev j = (s.dev j).up := by rw [hdev', Function.update_self]
    cases hws : (s.dev j).waiters with
    | nil => exact .lost hws he hlog' hup
    | cons q ws =>
      obtain ⟨-, l, d, n, k, hprog, -⟩ := h.dev j q (hws ▸ List.mem_cons_self)
      refine .wakes (d := ⟨q, .waitio l d n, status &&& STATUSMASK, u.view⟩)
        (hws ▸ List.mem_cons_self) he rfl ?_ ?_
      · rw [wake, answer_log (htask' ▸ hprog), hlog']
      · rw [wake, (answer_lines u q _).2.1, hup]
  · have hsame : u.dev i = s.dev i := by rw [hdev', Function.update_of_ne (Ne.symm hi)]
    cases hws : (s.dev j).waiters with
    | nil => exact .away (l := []) hlog' (by simp) hsame
    | cons q ws =>
      obtain ⟨-, l, d, n, k, hprog, -, hindex⟩ := h.dev j q (hws ▸ List.mem_cons_self)
      refine answer_devStep hsame hlog' (htask' ▸ hprog) ?_
      intro hasks
      exact hi (hindex.symm.trans hasks)

theorem Sane.perform_devStep (h : s.Sane) (hrun : s.running = some p)
    (hprog : (s.task p).prog = .act a k) : DevStep i s e (s.perform S p r a) := by
  have hp := h.running p hrun
  by_cases hwaits : a.Waits
  · cases a with
    | passeren x =>
      simp only [perform, P]
      split_ifs
      · exact answer_devStep rfl rfl hprog id
      · exact .away (l := []) rfl (by simp) rfl
    | verhogen x => exact h.V_devStep hp hprog
    | waitio l d u =>
      simp only [perform]
      split_ifs
      · exact (kill_own s p).still.devStep
      · exact waitDev_devStep hprog
    | _ => exact hwaits.elim
  · rcases perform_cases (S := S) (r := r) hp hwaits with ⟨-, hown⟩ | ⟨t, r', ht, heq⟩
    · exact hown.still.devStep
    · rw [heq]
      refine answer_devStep (by rw [ht.dev]) ht.log (ht.prog.trans hprog) ?_
      cases a with
      | waitio => exact absurd trivial hwaits
      | _ => exact id

theorem Sane.devStep (h : s.Sane) (hcan : s.Can e) : DevStep i s e (s.step S e) := by
  cases e with
  | step r =>
    obtain ⟨p, hrun, -⟩ := hcan
    simp only [Sys.step, hrun, Sys.go]
    split
    · exact (Still.refl s).devStep
    · exact (leave_own ..).still.devStep
    · exact h.perform_devStep hrun ‹_›
  | user u =>
    obtain ⟨p, hrun, -⟩ := hcan
    simp only [Sys.step, hrun]
    exact (user_own ..).still.devStep
  | diskInt status =>
    simp only [Sys.step, Sys.diskInt]
    split
    · exact (Still.refl s).devStep
    · obtain ⟨h1, -, -, -, h5, -, h7⟩ := s.transfer_same ‹Word›
      refine h.signal_devStep ?_ ?_ ?_ rfl
      all_goals split_ifs
      · exact h1
      · rfl
      · exact h5
      · rfl
      · simp only [log, h7]
        rfl
      · rfl
  | devInt index status => exact h.signal_devStep rfl rfl rfl rfl
  | dispatch | tapeDma | tlbDrop => exact Still.devStep ⟨rfl, rfl, rfl, rfl, rfl⟩

omit [DecidableEq ι] in
/-- While each interrupt of a device finds a process that waits for it, none is counted. -/
theorem DevStep.nonpos (h : DevStep i s e t) (hs : (s.dev i).value ≤ 0)
    (hfound : ∀ status, e.report = some (i, status) → (s.dev i).waiters ≠ []) :
    (t.dev i).value ≤ 0 := by
  cases h with
  | away _ _ hdev => rwa [hdev]
  | passes hpos => exact absurd hpos (not_lt_of_ge hs)
  | waits _ _ hdev =>
    rw [hdev, value_down]
    omega
  | lost hws he => exact absurd hws (hfound _ he)
  | wakes hmem _ _ _ hdev =>
    have hneg : ¬ 0 ≤ (s.dev i).value := by
      rw [← Semaphore.waiters_eq_nil_iff]
      exact List.ne_nil_of_mem hmem
    rw [hdev, value_up]
    omega

omit [DecidableEq ι] in
/-- Who goes on after SYS 8 gets the status of the interrupt that it waited for. -/
theorem DevStep.answered {l : List (Did ι Act Word View)} {d : Did ι Act Word View}
    (h : DevStep i s e t) (hs : (s.dev i).value ≤ 0) (hlog : t.log = l ++ s.log) (hd : d ∈ l)
    (hasks : d.a.AsksFor i) : d.p ∈ (s.dev i).waiters ∧
      ∃ status, e.report = some (i, status) ∧ d.r = status &&& STATUSMASK := by
  have hnone : t.log ≠ s.log := by
    rw [hlog]
    intro heq
    rw [List.self_eq_append_left.mp heq.symm] at hd
    exact List.not_mem_nil hd
  cases h with
  | away hlog' haway =>
    obtain rfl := List.append_cancel_right (hlog.symm.trans hlog')
    exact absurd hasks (haway d hd)
  | passes hpos => exact absurd hpos (not_lt_of_ge hs)
  | waits _ hsame | lost _ _ hsame => exact absurd hsame hnone
  | @wakes d' status hmem he hr hlog' =>
    obtain rfl : l = [d'] := List.append_cancel_right (hlog.symm.trans hlog')
    obtain rfl := List.mem_singleton.mp hd
    exact ⟨hmem, status, he, hr⟩

end Steps

/-! ## Kaya -/

/-- `i` is the index of the semaphore of a tape. -/
def OfTape (i : Word) : Prop := i - waitioIndex TAPEINT 0 0 < DEVCNT

instance : DecidablePred OfTape := fun _ => inferInstanceAs (Decidable (_ < _))

/-- What is asked of an event: the interrupt of a device finds a process that waits for it, and
disk 0 and the tapes answer `READY`. -/
def Served (s : Sys Word) : Event Word → Prop
  | .devInt i status => (s.dev i).waiters ≠ [] ∧ (OfTape i → status &&& STATUSMASK = READY)
  | .diskInt status => status &&& STATUSMASK = READY
  | _ => True

instance (s : Sys Word) : ∀ e, Decidable (s.Served e)
  | .devInt _ _ => inferInstanceAs (Decidable (_ ∧ _))
  | .diskInt _ => inferInstanceAs (Decidable (_ = _))
  | .step _ | .user _ | .dispatch _ | .tapeDma _ _ | .tlbDrop _ _ => isTrue trivial

variable {s t : Sys Word} {e : Event Word} {i status : Word}

theorem ofTape_waitioIndex {d u : Word} (hd : d < DEVCNT) : OfTape (waitioIndex TAPEINT d u) := by
  have hindex : ∀ d u, waitioIndex TAPEINT d u = 8 + d := fun _ _ => if_pos (by decide)
  simp only [OfTape, hindex, DEVCNT] at hd ⊢
  bv_omega

/-- The interrupts of disk 0 find a process too. -/
theorem Served.found (h : s.Served e) (hcan : s.Can e) (hdisk : s.DiskInv)
    (he : e.report = some (i, status)) : (s.dev i).waiters ≠ [] := by
  cases e with
  | devInt j status' =>
    obtain ⟨rfl, rfl⟩ := Prod.mk.inj (Option.some.inj he)
    exact h.1
  | diskInt status' =>
    obtain ⟨rfl, rfl⟩ := Prod.mk.inj (Option.some.inj he)
    obtain ⟨command, hbusy⟩ := Option.ne_none_iff_exists'.mp hcan.1
    obtain ⟨p, -, -, hline⟩ := hdisk.runs hbusy hcan.2
    rw [hline]
    exact List.cons_ne_nil p []
  | _ => nomatch he

theorem Served.ready (h : s.Served e) (hcan : s.Can e) (he : e.report = some (i, status))
    (hi : i = 0 ∨ OfTape i) : status &&& STATUSMASK = READY := by
  cases e with
  | devInt j status' =>
    obtain ⟨rfl, rfl⟩ := Prod.mk.inj (Option.some.inj he)
    exact h.2 (hi.resolve_left hcan.1)
  | diskInt status' =>
    obtain ⟨rfl, rfl⟩ := Prod.mk.inj (Option.some.inj he)
    exact h
  | _ => nomatch he

/-- A process that waits for a tape waits for its own, and there are more tapes than processes. -/
theorem LockInv.ofTape {strict : Bool} {log : List (Did Word Act Word View)} {p d u : Word}
    (hi : LockInv strict s) (hborn : s.life p ≠ .unborn)
    (hact : (Act.waitio TAPEINT d u).Orderly p log) : OfTape (waitioIndex TAPEINT d u) := by
  obtain ⟨-, -, hown⟩ := hact.user id
  have hd : d = p - 1 := by
    rcases hown with ⟨hline, -⟩ | ⟨-, rfl⟩ | ⟨hline, -⟩
    · exact absurd hline (by decide)
    · rfl
    · exact absurd hline (by decide)
  have hle : p.toNat ≤ MAXUPROC := by
    by_contra hlt
    have hcreated := hi.created
    exact hborn (hi.unborn p (by omega))
  have hp0 : p ≠ 0 := by
    rintro rfl
    exact hact.elim
  refine ofTape_waitioIndex ?_
  rw [hd]
  simp only [MAXUPROC, DEVCNT] at hle ⊢
  bv_omega

/-- What SYS 8 returns after such an event. -/
theorem Served.kept (h : s.Served e) (hcan : s.Can e) {S : Setup Word} (hsane : s.Sane)
    (hi : LockInv true s) (hlog : Orderly (s.step S e).log)
    (hnonpos : ∀ i, (s.dev i).value ≤ 0) (hkept : Kept true s.log) :
    Kept true (s.step S e).log := by
  obtain ⟨l, hl⟩ := s.step_log (S := S) e
  rw [hl] at hlog ⊢
  intro d hd
  rcases List.mem_append.mp hd with hnew | hold
  swap
  · exact hkept d hold
  cases hact : d.a with
  | waitio ln n u =>
    intro hpromise
    have hstep : DevStep (waitioIndex ln n u) s e (s.step S e) := hsane.devStep hcan
    obtain ⟨hwait, status, he, hr⟩ := hstep.answered (hnonpos _) hl hnew (by rw [hact]; rfl)
    rw [hr]
    refine h.ready hcan he ?_
    rcases hpromise with hon | ⟨-, rfl⟩
    · exact .inl hon.2
    · obtain ⟨l₁, l₂, rfl⟩ := List.append_of_mem hnew
      have hd' := (List.append_assoc .. ▸ hlog : Orderly (l₁ ++ (d :: l₂ ++ s.log))).suffix.1
      rw [hact] at hd'
      obtain ⟨hb, -⟩ := hsane.dev _ _ hwait
      exact .inr (hi.ofTape (by rw [hb]; decide) hd')
  | _ => exact trivial

end Sys

end Kaya.Phase3
