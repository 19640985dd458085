import Kaya.Phase3.Ends
import Kaya.Phase3.Proofs.DeviceInv

/-!
# Every process has its own devices

Nothing keeps a user's process from the tape or the terminal of another one but its own number:
`uProcInit` and the handlers of traps find the devices with the number in `ENTRYHI`.
-/

namespace Kaya.Phase3

open Lib

/-- What the log of a run and its semaphores say about tapes and terminals. -/
structure DevicesOwned (s : Sys Word) : Prop where
  /-- A character goes to the process's own terminal, whose semaphore it holds. -/
  transmits : ∀ d log reg v, d :: log <:+ s.log → d.a = .setData1 reg v →
    reg = termReg d.p ∧ Holds (termSem d.p) d.p log
  /-- A process waits for disk 0, for its own tape and, with its semaphore, for its terminal. -/
  waits : ∀ d log l n u, d :: log <:+ s.log → d.a = .waitio l n u →
    l = DISKINT ∧ n = 0 ∨ l = TAPEINT ∧ n = d.p - 1 ∨
      l = TERMINT ∧ n = d.p - 1 ∧ Holds (termSem d.p) d.p log
  commands : ∀ d log reg v, d :: log <:+ s.log →
    d.a = .setCommand reg v ∨ d.a = .setData0 reg v → reg = Sys.disk0Reg ∨ reg = tapeReg d.p
  /-- Nobody else takes the semaphore of a terminal, so nobody ever waits for it. -/
  holder : ∀ p q, p ≠ 0 → p < 64 → Holds (termSem p) q s.log → q = p
  unqueued : ∀ p q, p ≠ 0 → p < 64 → s.Alive q → q ∉ (s.sem (termSem p)).waiters

variable {p q : Word} {a : Act} {log l : List (Did Word Act Word View)} {d : Did Word Act Word View}

/-! ## One terminal -/

theorem termSem_inj (h : termSem p = termSem q) : p = q := by
  have hindex : DEVCNT * (TERMINT - DEVINTOFFSET) + TERMCNT * (p - 1) =
      DEVCNT * (TERMINT - DEVINTOFFSET) + TERMCNT * (q - 1) := Sem.devSemArray.inj h
  -- `TERMCNT` is odd
  have hinv : ∀ x : Word, 0xAAAAAAAB * (TERMCNT * x) = x := by
    intro x
    have hone : (0xAAAAAAAB : Word) * TERMCNT = 1 := by decide
    rw [← BitVec.mul_assoc, hone]
    exact BitVec.one_mul x
  have hsub : p - 1 = q - 1 := by
    rw [← hinv (p - 1), (BitVec.add_right_inj _).mp hindex, hinv]
  bv_omega

theorem Act.Orderly.away (h : a.Orderly q log) (hp : p < 64) (hqp : q ≠ p) :
    a.Away (termSem p) := by
  unfold Act.Orderly at h
  split_ifs at h with hq0
  · cases a with
    | passeren x =>
      obtain rfl : x = .masterSem := h
      exact fun heq => Sem.noConfusion heq
    | createprocess => exact trivial
    | _ => exact h.elim
  · have hne : termSem q ≠ termSem p := fun heq => hqp (termSem_inj heq)
    cases a with
    | passeren x =>
      rcases h.2 with hx | ⟨rfl, -⟩
      · exact isMutex_ne_termSem hp hx
      · exact hne
    | verhogen x =>
      rcases h.2 with hx | rfl | ⟨rfl, -⟩
      · exact isMutex_ne_termSem hp hx
      · exact fun heq => Sem.noConfusion heq
      · exact hne
    | _ => exact trivial

theorem Orderly.holder (h : Orderly log) (hp : p < 64) (hq : Holds (termSem p) q log) : q = p := by
  by_contra hqp
  induction log with
  | nil => exact hq
  | cons d log ih =>
    by_cases hd : d.p = q
    · have haway : d.a.Away (termSem p) := h.1.away hp (hd ▸ hqp)
      exact ih h.2 ((holds_cons_away haway).mp hq)
    · exact ih h.2 ((holds_cons_of_ne hd).mp hq)

theorem Act.Orderly.permitted (h : a.Orderly p log) (hp : p ≠ 0) :
    a.Permitted p (Holds (termSem p) p log) := ((if_neg hp).mp h).2

namespace Sys

variable {s t : Sys Word} {K : Layout} {junk : Word} {h : List (Sys Word × Event Word)}

/-- The semaphore of the terminal of `p` is 0 while `p` holds it, and 1 at all other times. -/
def Uncontended (p : Word) (s : Sys Word) : Prop :=
  (s.sem (termSem p)).value = if Holds (termSem p) p s.log then 0 else 1

theorem Uncontended.waiters (hs : s.Uncontended p) : (s.sem (termSem p)).waiters = [] := by
  rw [Semaphore.waiters_eq_nil_iff, hs]
  split_ifs <;> decide

theorem SemStep.uncontended (h : SemStep (termSem p) s t) (hsane : t.Sane) (ht : t.OwnDevices)
    (hp0 : p ≠ 0) (hp : p < 64) (hs : s.Uncontended p) : t.Uncontended p := by
  have hself : ∀ q (a : Act) log, a.Orderly q log → ¬ a.Away (termSem p) → q = p :=
    fun q a log ha haway => by_contra fun hqp => haway (ha.away hp hqp)
  have hmutex : ¬ (termSem p).IsMutex := fun hx => isMutex_ne_termSem hp hx rfl
  have hpasses : ∀ log, (Act.passeren (termSem p)).Orderly p log → ¬ Holds (termSem p) p log := by
    intro log hmay
    have hfree := ((hmay.permitted hp0).resolve_left hmutex).2
    exact of_decide_eq_false hfree
  unfold Uncontended at hs ⊢
  cases h with
  | away hlog haway hsem =>
    rw [hsem, hs, hlog]
    simp only [holds_append_away haway]
  | @passes q v hpos hlog hsem =>
    have hmay : (Act.passeren (termSem p)).Orderly q s.log := (hlog ▸ ht.log : Orderly (_ :: _)).1
    obtain rfl := hself q _ _ hmay fun h => h rfl
    have hholds : Holds (termSem q) q t.log := by
      rw [hlog, Holds, if_pos rfl]
      exact .inl rfl
    rw [if_pos hholds, hsem, value_down, hs, if_neg (hpasses _ hmay)]
    rfl
  | @waits q hpos hlog hsem =>
    have hq : q ∈ (t.sem (termSem p)).waiters := by
      rw [hsem]
      change q ∈ if _ then _ else _
      rw [if_pos (by omega)]
      exact List.mem_append_right _ List.mem_cons_self
    obtain ⟨hb, k, hprog⟩ := hsane.sem _ q hq
    have hmay := ht.may (.inr hb) hprog
    rw [hlog] at hmay
    obtain rfl := hself q _ _ hmay fun h => h rfl
    rw [hs, if_neg (hpasses _ hmay)] at hpos
    exact absurd one_pos hpos
  | @frees q v hws hlog hsem =>
    have hmay : (Act.verhogen (termSem p)).Orderly q s.log := (hlog ▸ ht.log : Orderly (_ :: _)).1
    obtain rfl := hself q _ _ hmay fun h => h rfl
    have hheld : Holds (termSem q) q s.log := by
      rcases hmay.permitted hp0 with hx | hx | ⟨-, hheld⟩
      · exact absurd hx hmutex
      · exact Sem.noConfusion hx
      · exact of_decide_eq_true hheld
    have hnot : ¬ Holds (termSem q) q t.log := by
      rw [hlog, Holds, if_pos rfl]
      exact fun h => h.1 rfl
    rw [if_neg hnot, hsem, value_up, hs, if_pos hheld]
    rfl
  | @hands q r v v' hr _ _ =>
    have hnil : (s.sem (termSem p)).waiters = [] := Uncontended.waiters hs
    rw [hnil] at hr
    exact absurd hr List.not_mem_nil

theorem Reaches.uncontended (hrun : Reaches (kaya K junk) Booted h s) (hp0 : p ≠ 0) (hp : p < 64) :
    s.Halted ∨ s.Uncontended p := by
  induction hrun with
  | start hs =>
    right
    unfold Uncontended
    rw [hs.toFresh.log_eq, hs.sem]
    exact (if_neg id).symm
  | @next h s e hrun hcan ih =>
    have hnext : Reaches (kaya K junk) Booted _ (s.step (kaya K junk) e) := hrun.next hcan
    rcases ih with hhalt | hs
    · exact .inl (hhalt.step hcan).1
    rcases Reaches.kaya_live hrun with hhalt | hlive
    · exact .inl (hhalt.step hcan).1
    rcases hnext.kaya_live with hhalt | hlive'
    · exact .inl hhalt
    · exact .inr ((hlive.semStep hcan).uncontended hlive'.sane hnext.ownDevices hp0 hp hs)

end Sys

open Sys

variable {s : Sys Word} {K : Layout} {junk : Word} {h : List (Sys Word × Event Word)}

/-- In every run each user's process has its tape and its terminal to itself. -/
theorem devices_owned (hrun : Sys.Reaches (kaya K junk) Sys.Booted h s) : DevicesOwned s := by
  have hlog := (Sys.Reaches.ownDevices hrun).log
  have hdid : ∀ d log, d :: log <:+ s.log → d.a.Orderly d.p log := by
    rintro d log ⟨l, hl⟩
    exact (hl ▸ hlog : Orderly (l ++ d :: log)).suffix.1
  refine ⟨fun d log reg v hsuf ha => ?_, fun d log l n u hsuf ha => ?_,
    fun d log reg v hsuf ha => ?_, fun p q hp0 hp hq => hlog.holder hp hq, fun p q hp0 hp hq hw => ?_⟩
  · have hmay := (hdid d log hsuf).user (by rw [ha]; exact id)
    rw [ha] at hmay
    exact ⟨hmay.2.1, of_decide_eq_true hmay.2.2⟩
  · have hmay := (hdid d log hsuf).user (by rw [ha]; exact id)
    rw [ha] at hmay
    exact hmay.2.2.imp_right (Or.imp_right fun h => ⟨h.1, h.2.1, of_decide_eq_true h.2.2⟩)
  · have hmay := (hdid d log hsuf).user (by rcases ha with ha | ha <;> rw [ha] <;> exact id)
    rcases ha with ha | ha <;> rw [ha] at hmay <;> exact hmay.2
  · rcases Sys.Reaches.uncontended hrun hp0 hp with hhalt | hs
    · exact absurd (hhalt.dead q) hq.not_dead
    · rw [hs.waiters] at hw
      exact absurd hw List.not_mem_nil

/-- SYS 10 for the first character of the page at `0x80000000`. -/
def writeState : State :=
  { resetState with sReg := fun i =>
      if i = 3 then WRITETERMINAL else if i = 4 then 0x80000000 else if i = 5 then 1 else 0 }

/-- Process 1 has its first page brought in and writes a character of it. -/
def writesOne : List (Event Word) :=
  toUser ++ fault ++ answered READY ++ List.replicate 5 (.step 0) ++ answered READY ++
    List.replicate 13 (.step 0) ++ .user (.syscall writeState) :: List.replicate 6 (.step 0)

theorem devices_owned_writes : DevicesOwned (runOf writesOne) := by
  obtain ⟨h, hrun⟩ := runOf_reaches writesOne (by decide +kernel)
  exact devices_owned hrun

end Kaya.Phase3
