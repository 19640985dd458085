import Kaya.Phase3.Proofs.LockRules
import Kaya.Phase3.Proofs.Mutex

/-!
# Processes of Kaya during a run

Who exists, which trap vectors a process has and what it left behind when it ended.
-/

namespace Kaya.Phase3

open Lib

/-- The answer `r` to the action is `READY` where that was promised. -/
def Act.Kept (strict : Bool) (r : Word) : Act → Prop
  | .waitio l d n => Place.Promised strict l d n → r = READY
  | _ => True

instance Act.decidableKept (strict : Bool) (r : Word) : ∀ a : Act, Decidable (a.Kept strict r)
  | .waitio l d n => inferInstanceAs (Decidable (Place.Promised strict l d n → r = READY))
  | .passeren _ | .verhogen _ | .createprocess _ _ | .spectrapvec _ _ | .getSTATUS | .setSTATUS _
  | .getENTRYHI | .TLBCLR | .setCommand _ _ | .setData0 _ _ | .setData1 _ _ | .getData1 _
  | .tables _ | .load _ => isTrue trivial

def Kept (strict : Bool) (log : List (Did Word Act Word View)) : Prop :=
  ∀ d ∈ log, d.a.Kept strict d.r

instance (strict : Bool) (log : List (Did Word Act Word View)) : Decidable (Kept strict log) :=
  inferInstanceAs (Decidable (∀ d ∈ log, _))

/-- How often `p` made a V on `masterSem`. -/
def signals (p : Word) (log : List (Did Word Act Word View)) : Nat :=
  log.countP fun d => d.p = p && d.a.isV .masterSem

def IsUProc (p : Word) : Prop := 0 < p.toNat ∧ p.toNat ≤ MAXUPROC

def Act.Mild : Act → Prop
  | .spectrapvec _ _ | .createprocess _ _ => False
  | _ => True

namespace Sys

/-- What `p` holds, has installed and has signalled. -/
def place (strict : Bool) (log : List (Did Word Act Word View)) (p : Word) : Place :=
  ghost (lockRules strict) (fun _ => .init) p log

abbrev LockLive (strict : Bool) (s : Sys Word) : Prop :=
  s.Live (lockRules strict) (fun _ => .init) fun _ => .user

abbrev LockAllowed (strict : Bool) (log : List (Did Word Act Word View)) : Prop :=
  Allowed (lockRules strict) (fun _ => .init) log

abbrev LockAdmitted (strict : Bool) (log : List (Did Word Act Word View)) : Prop :=
  Admitted (lockRules strict) (fun _ => .init) log

variable {strict : Bool} {p q : Word} {log : List (Did Word Act Word View)}
  {d : Did Word Act Word View} {x : Sem} {g : Place} {a : Act}

theorem place_cons_self (hp : d.p = p) : place strict (d :: log) p =
    (lockRules strict p).next (place strict log p) d.a d.r d.x := ghost_cons_self hp

theorem place_cons_of_ne (hp : d.p ≠ p) : place strict (d :: log) p = place strict log p :=
  ghost_cons_of_ne hp

/-! ## What the rules say about a log -/

theorem next_held (hx : x.IsMutex) (hmay : (lockRules strict p).may g a) (r : Word) (y : View) :
    ((lockRules strict p).next g a r y).held x = true ↔ a.held x (g.held x = true) := by
  have hmaster : x ≠ .masterSem := by
    rintro rfl
    exact absurd hx (by decide)
  unfold lockRules at hmay ⊢
  split_ifs at hmay ⊢ with hp
  · cases a with
    | passeren z =>
      obtain ⟨rfl, -⟩ := hmay
      exact (or_iff_right (Ne.symm hmaster)).symm
    | createprocess => exact Iff.rfl
    | _ => exact hmay.elim
  · cases a with
    | passeren z =>
      by_cases hz : z = x
      · subst hz
        exact iff_of_true (hold_held hx true) (.inl rfl)
      · refine Iff.trans ?_ (or_iff_right hz).symm
        rw [← hold_held_of_ne (g := g) (Ne.symm hz) true]
        rfl
    | verhogen z =>
      by_cases hz : z = x
      · subst hz
        have hnext : ((userRules strict).next g (.verhogen z) r y).held z = false :=
          (congrArg (fun g => Place.held g z) (if_neg hmaster)).trans (hold_held hx false)
        rw [hnext]
        exact iff_of_false nofun fun h => h.1 rfl
      · refine Iff.trans ?_ (and_iff_right hz).symm
        simp only [userRules]
        split_ifs
        · rfl
        · rw [hold_held_of_ne (Ne.symm hz)]
    | spectrapvec => exact Iff.rfl
    | _ => exact Iff.rfl

theorem holds_place (h : LockAllowed strict log) (hx : x.IsMutex) (p : Word) :
    Holds x p log ↔ (place strict log p).held x = true := by
  induction log with
  | nil => exact ⟨False.elim, nofun⟩
  | cons d log ih =>
    obtain ⟨hmay, hlog⟩ := h
    by_cases hp : d.p = p
    · subst hp
      have hmay : (lockRules strict d.p).may (place strict log d.p) d.a := hmay
      rw [place_cons_self rfl, next_held hx hmay, Holds, if_pos rfl, ih hlog]
    · rw [holds_cons_of_ne hp, place_cons_of_ne hp]
      exact ih hlog

theorem next_signalled (hmay : (lockRules strict p).may g a) (r : Word) (y : View) :
    ((lockRules strict p).next g a r y).signalled = (g.signalled || a.isV .masterSem) := by
  unfold lockRules at hmay ⊢
  split_ifs at hmay ⊢ with hp
  · cases a with
    | passeren | createprocess => exact (Bool.or_false _).symm
    | _ => exact hmay.elim
  · cases a with
    | passeren z => exact (hold_signalled ..).trans (Bool.or_false _).symm
    | verhogen z =>
      simp only [userRules, Act.isV]
      split_ifs with hz
      · rw [decide_eq_true hz, Bool.or_true]
      · rw [hold_signalled, decide_eq_false hz, Bool.or_false]
    | _ => exact (Bool.or_false _).symm

theorem next_free (hmay : (lockRules strict p).may g a) (h : g.signalled = true → g.Free)
    (r : Word) (y : View) : ((lockRules strict p).next g a r y).signalled = true →
      ((lockRules strict p).next g a r y).Free := by
  intro hsig
  rw [next_signalled hmay] at hsig
  unfold lockRules at hmay ⊢
  split_ifs at hmay ⊢ with hp
  · cases a with
    | passeren | createprocess =>
      exact h ((Bool.or_false _).symm.trans hsig)
    | _ => exact hmay.elim
  · rw [hmay.1, Bool.false_or] at hsig
    cases a with
    | verhogen z =>
      have hz : z = .masterSem := of_decide_eq_true hsig
      have hnext : (userRules strict).next g (.verhogen z) r y = { g with signalled := true } :=
        if_pos hz
      rw [hnext]
      exact hmay.2.1 hz
    | _ => nomatch hsig

theorem next_mild (ha : a.Mild) (strict : Bool) (p : Word) (g : Place) (r : Word) (y : View) :
    ((lockRules strict p).next g a r y).vectors = g.vectors ∧
      ((lockRules strict p).next g a r y).created = g.created := by
  have hhold : ∀ x b, (g.hold x b).vectors = g.vectors ∧ (g.hold x b).created = g.created := by
    intro x b
    unfold Place.hold
    split_ifs <;> exact ⟨rfl, rfl⟩
  unfold lockRules
  split_ifs
  · cases a with
    | createprocess => exact ha.elim
    | _ => exact ⟨rfl, rfl⟩
  · cases a with
    | spectrapvec => exact ha.elim
    | passeren z => exact hhold z true
    | verhogen z =>
      simp only [userRules]
      split_ifs
      · exact ⟨rfl, rfl⟩
      · exact hhold z false
    | _ => exact ⟨rfl, rfl⟩

theorem signals_cons (p : Word) (d : Did Word Act Word View) (log : List (Did Word Act Word View)) :
    signals p (d :: log) = signals p log + if d.p = p ∧ d.a.isV .masterSem = true then 1 else 0 := by
  rw [signals, signals, List.countP_cons]
  by_cases hp : d.p = p <;> cases d.a.isV .masterSem <;> simp [hp]

theorem may_signals (hmay : (lockRules strict p).may g a) (ha : a.isV .masterSem = true) :
    p ≠ 0 ∧ g.signalled = false := by
  unfold lockRules at hmay
  split_ifs at hmay with hp
  · cases a with
    | passeren | createprocess => nomatch ha
    | _ => exact hmay.elim
  · exact ⟨hp, hmay.1⟩

theorem place_signalled (h : LockAllowed strict log) (p : Word) :
    signals p log = (if (place strict log p).signalled = true then 1 else 0) ∧
      ((place strict log p).signalled = true → (place strict log p).Free) := by
  induction log with
  | nil => exact ⟨rfl, nofun⟩
  | cons d log ih =>
    obtain ⟨hmay, hlog⟩ := h
    obtain ⟨hcount, hfree⟩ := ih hlog
    rw [signals_cons]
    by_cases hp : d.p = p
    · subst hp
      have hmay : (lockRules strict d.p).may (place strict log d.p) d.a := hmay
      rw [place_cons_self rfl]
      refine ⟨?_, next_free hmay hfree _ _⟩
      rw [next_signalled hmay, hcount]
      cases ha : d.a.isV .masterSem with
      | false => simp
      | true => simp [(may_signals hmay ha).2]
    · rw [place_cons_of_ne hp, if_neg fun h => hp h.1]
      exact ⟨hcount, hfree⟩

theorem place_test (h : LockAllowed strict log) : (place strict log 0).Free := by
  induction log with
  | nil => rfl
  | cons d log ih =>
    obtain ⟨hmay, hlog⟩ := h
    by_cases hp : d.p = 0
    · rw [place_cons_self hp]
      have hmay : (lockRules strict d.p).may (place strict log d.p) d.a := hmay
      rw [hp] at hmay
      cases hact : d.a with
      | passeren | createprocess => exact ih hlog
      | _ =>
        rw [hact] at hmay
        exact hmay.elim
    · rw [place_cons_of_ne hp]
      exact ih hlog

/-! ## Steps -/

variable {s t u : Sys Word} {K : Layout} {junk : Word} {k : Word → Prog} {r : Word}

structure LockInv (strict : Bool) (s : Sys Word) : Prop where
  created : (place strict s.log 0).created ≤ MAXUPROC
  unborn : ∀ p, (place strict s.log 0).created < p.toNat → s.life p = .unborn
  vectors : ∀ p, p ≠ 0 → s.life p ≠ .unborn → ∀ trap,
    (s.task p).new trap = none ↔ (place strict s.log p).vectors trap = false
  dead : ∀ p, s.life p = .dead → p ≠ 0 ∧ (place strict s.log p).Free ∧
    (strict = true → (place strict s.log p).signalled = true)

/-- Nobody was created or ended, and no vector was installed. -/
structure Gentle (strict : Bool) (s t : Sys Word) : Prop where
  new : ∀ p, (t.task p).new = (s.task p).new
  life : ∀ p, t.life p = s.life p ∨ s.Alive p ∧ t.Alive p
  log : ∃ l, t.log = l ++ s.log ∧ ∀ d ∈ l, d.a.Mild ∧ s.Alive d.p

theorem Gentle.refl (s : Sys Word) : Gentle strict s s :=
  ⟨fun _ => rfl, fun _ => .inl rfl, [], rfl, by simp⟩

theorem Gentle.alive (h : Gentle strict s t) (p : Word) : t.Alive p ↔ s.Alive p := by
  rcases h.life p with hp | ⟨hs, ht⟩
  · rw [Alive, Alive, hp]
  · exact iff_of_true ht hs

theorem Gentle.trans (h : Gentle strict s t) (h' : Gentle strict t u) : Gentle strict s u := by
  refine ⟨fun p => (h'.new p).trans (h.new p), fun p => ?_, ?_⟩
  · rcases h'.life p with hp | ⟨ht, hu⟩
    · rcases h.life p with hp' | ⟨hs, ht⟩
      · exact .inl (hp.trans hp')
      · exact .inr ⟨hs, by rw [Alive, hp]; exact ht⟩
    · exact .inr ⟨(h.alive p).mp ht, hu⟩
  · obtain ⟨l, hl, hmild⟩ := h.log
    obtain ⟨l', hl', hmild'⟩ := h'.log
    refine ⟨l' ++ l, by rw [hl', hl, List.append_assoc], fun d hd => ?_⟩
    rcases List.mem_append.mp hd with hd | hd
    · exact ⟨(hmild' d hd).1, (h.alive _).mp (hmild' d hd).2⟩
    · exact hmild d hd

/-- What mild actions do to the places. -/
theorem place_mild (strict : Bool) (log : List (Did Word Act Word View))
    {l : List (Did Word Act Word View)} (hl : ∀ d ∈ l, d.a.Mild ∧ s.Alive d.p) (p : Word) :
    (place strict (l ++ log) p).vectors = (place strict log p).vectors ∧
      (place strict (l ++ log) p).created = (place strict log p).created ∧
      (¬ s.Alive p → place strict (l ++ log) p = place strict log p) := by
  induction l with
  | nil => exact ⟨rfl, rfl, fun _ => rfl⟩
  | cons d l ih =>
    rw [List.forall_mem_cons] at hl
    obtain ⟨h1, h2, h3⟩ := ih hl.2
    by_cases hp : d.p = p
    · rw [List.cons_append, place_cons_self hp]
      obtain ⟨hvec, hcre⟩ := next_mild hl.1.1 strict p (place strict (l ++ log) p) d.r d.x
      exact ⟨hvec.trans h1, hcre.trans h2, fun hdead => absurd (hp ▸ hl.1.2) hdead⟩
    · rw [List.cons_append, place_cons_of_ne hp]
      exact ⟨h1, h2, h3⟩

theorem LockInv.gentle (hi : LockInv strict s) (h : Gentle strict s t) : LockInv strict t := by
  obtain ⟨l, hl, hmild⟩ := h.log
  have hplace := place_mild strict s.log hmild
  rw [← hl] at hplace
  have hdead : ∀ p, ¬ t.Alive p → t.life p = s.life p := by
    intro p hp
    rcases h.life p with hp' | ⟨-, ht⟩
    · exact hp'
    · exact absurd ht hp
  refine ⟨?_, fun p hp => ?_, fun p hp hborn trap => ?_, fun p hp => ?_⟩
  · rw [(hplace 0).2.1]
    exact hi.created
  · rw [(hplace 0).2.1] at hp
    have hlife := hi.unborn p hp
    rcases h.life p with hp' | ⟨hs, -⟩
    · exact hp'.trans hlife
    · rw [Alive, hlife] at hs
      exact absurd hs (by decide)
  · rw [h.new, (hplace p).1]
    refine hi.vectors p hp (fun hs => hborn ?_) trap
    rw [hdead p fun ht => ?_, hs]
    rw [h.alive, Alive, hs] at ht
    exact absurd ht (by decide)
  · have hnot : ¬ t.Alive p := by
      rw [Alive, hp]
      decide
    rw [(hplace p).2.2 fun hs => hnot ((h.alive p).mpr hs)]
    exact hi.dead p ((hdead p hnot).symm.trans hp)

theorem admits_mild {y : View} (ha : a.Mild) (hkept : a.Kept strict r) :
    (lockRules strict p).admits g a r y := by
  unfold lockRules
  split_ifs
  · cases a with
    | createprocess => exact ha.elim
    | _ => exact trivial
  · cases a with
    | waitio l n u => exact hkept
    | _ => exact trivial

theorem Gentle.admitted (h : Gentle strict s t) (hadm : LockAdmitted strict s.log)
    (hkept : Kept strict t.log) : LockAdmitted strict t.log := by
  obtain ⟨l, hl, hmild⟩ := h.log
  rw [hl] at hkept ⊢
  clear h hl
  induction l with
  | nil => exact hadm
  | cons d l ih =>
    rw [List.forall_mem_cons] at hmild
    rw [List.cons_append, Kept, List.forall_mem_cons] at hkept
    exact ⟨admits_mild hmild.1.1 hkept.1, ih hkept.2 hmild.2⟩

theorem Gentle.still (hlog : t.log = s.log) (hnew : ∀ p, (t.task p).new = (s.task p).new)
    (hlife : ∀ p, t.life p = s.life p ∨ s.Alive p ∧ t.Alive p) : Gentle strict s t :=
  ⟨hnew, hlife, [], hlog, by simp⟩

theorem answer_gentle (hp : s.Alive p) (hprog : (s.task p).prog = .act a k) (ha : a.Mild) :
    Gentle strict s (s.answer p r) := by
  refine ⟨fun q => ?_, fun q => ?_, [⟨p, a, r, s.view⟩], answer_log hprog, by simpa using ⟨ha, hp⟩⟩
  · rw [answer_eq hprog]
    by_cases hq : q = p
    · subst hq
      simp only [Function.update_self]
    · simp only [Function.update_of_ne hq]
  · rw [answer_eq hprog]
    by_cases hq : q = p
    · subst hq
      exact .inr ⟨hp, .inl (Function.update_self ..)⟩
    · exact .inl (Function.update_of_ne hq ..)

theorem block_gentle (hp : s.Alive p) : Gentle strict s (s.block p) := by
  refine .still rfl (fun _ => rfl) fun q => ?_
  by_cases hq : q = p
  · subst hq
    exact .inr ⟨hp, .inr (Function.update_self ..)⟩
  · exact .inl (Function.update_of_ne hq ..)

/-- The same processes, with other lines and devices. -/
theorem same_gentle (htask : t.task = s.task) (hlife : t.life = s.life) (hlog : t.log = s.log) :
    Gentle strict s t :=
  .still hlog (fun _ => by rw [htask]) fun _ => .inl (by rw [hlife])

theorem P_gentle (hp : s.Alive p) (hprog : (s.task p).prog = .act (.passeren x) k) :
    Gentle strict s (s.P p x) := by
  unfold Sys.P
  simp only
  refine .trans (t := { s with sem := Function.update s.sem x ((s.sem x).down p) })
    (same_gentle rfl rfl rfl) ?_
  split_ifs
  · exact answer_gentle (a := .passeren x) hp hprog trivial
  · exact block_gentle hp

theorem waitDev_gentle (hp : s.Alive p) {l d n i : Word}
    (hprog : (s.task p).prog = .act (.waitio l d n) k) : Gentle strict s (s.waitDev p i r) := by
  unfold Sys.waitDev
  simp only
  refine .trans (t := { s with dev := Function.update s.dev i ((s.dev i).down p) })
    (same_gentle rfl rfl rfl) ?_
  split_ifs
  · exact answer_gentle (a := .waitio l d n) hp hprog trivial
  · exact block_gentle hp

theorem signal_gentle (h : s.LockLive strict) (htask : t.task = s.task) (hlife : t.life = s.life)
    (hdev : t.dev = s.dev) (hlog : t.log = s.log) (i status : Word) :
    Gentle strict s (t.signal i status) := by
  obtain ⟨-, hfirst⟩ := h.upDev i
  unfold Sys.signal
  simp only [hdev]
  refine .trans (t := { t with dev := Function.update s.dev i (s.dev i).up })
    (same_gentle htask hlife hlog) ?_
  cases hws : (s.dev i).waiters with
  | nil => exact .refl _
  | cons q ws =>
    obtain ⟨hb, -, l, d, n, k, hprog, -⟩ := hfirst q (by rw [hws]; rfl)
    refine answer_gentle (a := .waitio l d n) (.inr ?_) (htask ▸ hprog) trivial
    exact (congrFun hlife q).trans hb

theorem V_gentle (h : s.LockLive strict) (hp : s.life p = .ready)
    (hprog : (s.task p).prog = .act (.verhogen x) k) : Gentle strict s (s.V p x) := by
  obtain ⟨-, hfirst⟩ := h.upSem x
  have hfree := h.sane.free hp
  unfold Sys.V
  simp only
  generalize ht : ({ s with sem := Function.update s.sem x (s.sem x).up } : Sys Word) = t
  have htask : t.task = s.task := by rw [← ht]
  have hlife : t.life = s.life := by rw [← ht]
  have hgo : Gentle strict s (t.answer p 0) := by
    refine (same_gentle htask hlife (log_congr (by rw [← ht]))).trans ?_
    exact answer_gentle (a := .verhogen x) (.inl (hlife ▸ hp)) (htask ▸ hprog) trivial
  refine hgo.trans ?_
  cases hws : (s.sem x).waiters with
  | nil => exact .refl _
  | cons q ws =>
    obtain ⟨hb, -, k', hprog'⟩ := hfirst q (by rw [hws]; rfl)
    have hqp : q ≠ p := fun heq => hfree.sem x (heq ▸ hws ▸ List.mem_cons_self)
    obtain ⟨h1, h2⟩ := answer_of_ne (s := t) (r := 0) hqp
    refine answer_gentle (a := .passeren x) (k := k') (.inr ?_) ?_ trivial
    · rw [h2, hlife, hb]
    · rw [h1, htask, hprog']

theorem setTask_gentle {t : Task} (hnew : t.new = (s.task p).new) :
    Gentle strict s (s.setTask p t) := by
  refine .still rfl (fun q => ?_) fun _ => .inl rfl
  by_cases hq : q = p
  · subst hq
    simpa only [Sys.setTask, Function.update_self] using hnew
  · simp only [Sys.setTask, Function.update_of_ne hq]

theorem passUp_gentle {S : Setup Word} {trap : Trap} {st : State} {rest : Prog}
    (hnew : (s.task p).new trap ≠ none) : Gentle strict s (s.passUp S p trap st rest) := by
  unfold Sys.passUp
  simp only
  cases harea : (s.task p).new trap with
  | none => exact absurd harea hnew
  | some area => exact setTask_gentle rfl

/-! ## Ends -/

/-- What a step leads to: the end of a process that leaves nothing behind included. -/
def Goes (strict : Bool) (s t : Sys Word) : Prop :=
  (LockAdmitted strict s.log → Kept strict t.log → LockAdmitted strict t.log) ∧
    (LockInv strict t ∨ t.Halted ∧ t.log = s.log ∧ (place strict s.log 0).passed = MAXUPROC)

theorem Gentle.goes (h : Gentle strict s t) (hi : LockInv strict s) : Goes strict s t :=
  ⟨h.admitted, .inl (hi.gentle h)⟩

theorem kill_goes (hi : LockInv strict s) (hfree : (place strict s.log p).Free)
    (hsig : strict = true → (place strict s.log p).signalled = true) (hp : p ≠ 0)
    (hborn : s.life p ≠ .unborn) : Goes strict s (s.kill (kaya K junk) p) := by
  have hroot : ¬ (kaya K junk).root p = true := fun h => hp (of_decide_eq_true h)
  have hlife : (s.kill (kaya K junk) p).life = Function.update s.life p .dead := by
    simp only [Sys.kill, if_neg hroot]
  refine ⟨fun h _ => h, .inl ⟨hi.created, fun q hq => ?_, fun q hq hb => ?_, fun q hq => ?_⟩⟩
  · have hqp : q ≠ p := by
      rintro rfl
      exact hborn (hi.unborn q hq)
    rw [hlife, Function.update_of_ne hqp]
    exact hi.unborn q hq
  · refine hi.vectors q hq fun hs => hb ?_
    have hqp : q ≠ p := by
      rintro rfl
      exact hborn hs
    rw [hlife, Function.update_of_ne hqp, hs]
  · by_cases hqp : q = p
    · subst hqp
      exact ⟨hp, hfree, hsig⟩
    · rw [hlife, Function.update_of_ne hqp] at hq
      exact hi.dead q hq

theorem kill_test (hpassed : (place strict s.log 0).passed = MAXUPROC) :
    Goes strict s (s.kill (kaya K junk) 0) :=
  ⟨fun h _ => h, .inr ⟨⟨fun _ => rfl, rfl⟩, rfl, hpassed⟩⟩

/-- A trap where a vector is installed, or where nothing needs one. -/
theorem passUp_goes (hi : LockInv strict s) {trap : Trap} {st : State} {rest : Prog}
    (hp : p ≠ 0) (hborn : s.life p ≠ .unborn) (hfree : (place strict s.log p).Free)
    (hvec : (place strict s.log p).vectors trap = true ∨ strict = false) :
    Goes strict s (s.passUp (kaya K junk) p trap st rest) := by
  by_cases hnew : (s.task p).new trap = none
  · have hkill : s.passUp (kaya K junk) p trap st rest = s.kill (kaya K junk) p := by
      simp only [Sys.passUp, hnew]
    rw [hkill]
    refine kill_goes hi hfree (fun hstrict => ?_) hp hborn
    rw [(hi.vectors p hp hborn trap).mp hnew, hstrict] at hvec
    exact absurd hvec (by decide)
  · exact (passUp_gentle hnew).goes hi

/-! ## The actions that create and install -/

section Answer

variable (hprog : (t.task p).prog = .act a k) (hlog : t.log = s.log)

include hprog hlog

/-- An answer changes the place of its process alone. -/
theorem place_answer (strict : Bool) (r : Word) : ∃ x, place strict (t.answer p r).log p =
    (lockRules strict p).next (place strict s.log p) a r x := by
  rw [answer_log hprog, hlog]
  exact ⟨t.view, place_cons_self rfl⟩

theorem place_answer_of_ne (hq : q ≠ p) :
    place strict (t.answer p r).log q = place strict s.log q := by
  rw [answer_log hprog, hlog, place_cons_of_ne (Ne.symm hq)]

end Answer

theorem answer_life (hprog : (t.task p).prog = .act a k) :
    (t.answer p r).life = Function.update t.life p .ready := by
  rw [answer_eq hprog]

theorem create_goes (sAsid sStatus : Word) (h : s.LockLive strict) (hi : LockInv strict s)
    {child : Word} (hlt : (place strict s.log 0).created < MAXUPROC)
    (hchild : child.toNat = (place strict s.log 0).created + 1)
    (hprog : (t.task 0).prog = .act (.createprocess sAsid sStatus) k) (hlog : t.log = s.log)
    (hlife : t.life = Function.update s.life child .ready)
    (hnew : ∀ q, (t.task q).new = if q = child then fun _ => none else (s.task q).new) :
    Goes strict s (t.answer 0 SUCCESS) := by
  have hborn : s.life child = .unborn := hi.unborn _ (by omega)
  have hplace : place strict (t.answer 0 SUCCESS).log 0 =
      { place strict s.log 0 with created := (place strict s.log 0).created + 1 } := by
    obtain ⟨x, hx⟩ := place_answer hprog hlog strict SUCCESS
    exact hx
  have hother : ∀ q, q ≠ child → q ≠ 0 → (t.answer 0 SUCCESS).life q = s.life q := by
    intro q hq hq0
    rw [answer_life hprog, hlife, Function.update_of_ne hq0, Function.update_of_ne hq]
  have hready : ∀ q, q = child ∨ q = 0 → (t.answer 0 SUCCESS).life q = .ready := by
    intro q hq
    rw [answer_life hprog, hlife]
    by_cases hq0 : q = 0
    · rw [hq0, Function.update_self]
    · obtain rfl := hq.resolve_right hq0
      rw [Function.update_of_ne hq0, Function.update_self]
  refine ⟨fun hadm _ => ?_, .inl ⟨?_, fun q hq => ?_, fun q hq hb trap => ?_, fun q hq => ?_⟩⟩
  · rw [answer_log hprog, hlog]
    exact ⟨rfl, hadm⟩
  · rw [hplace]
    exact hlt
  · rw [hplace] at hq
    have hq' : (place strict s.log 0).created + 1 < q.toNat := hq
    rw [hother q (by rintro rfl; omega) (by rintro rfl; simp at hq')]
    exact hi.unborn q (by omega)
  · rw [(answer_task t 0 q SUCCESS).2, hnew, place_answer_of_ne hprog hlog hq]
    split_ifs with hqc
    · have hinit : place strict s.log q = .init :=
        ghost_eq_of_forall_ne (h.sane.unborn q (hqc ▸ hborn))
      rw [hinit]
      exact iff_of_true rfl rfl
    · refine hi.vectors q hq (fun hs => hb ?_) trap
      rw [hother q hqc hq, hs]
  · by_cases hqc : q = child ∨ q = 0
    · rw [hready q hqc] at hq
      nomatch hq
    · rw [not_or] at hqc
      rw [hother q hqc.1 hqc.2] at hq
      rw [place_answer_of_ne hprog hlog hqc.2]
      exact hi.dead q hq

theorem createprocess_goes (h : s.LockLive strict) (hi : LockInv strict s)
    (hp : s.life p = .ready) {sAsid sStatus : Word}
    (hprog : (s.task p).prog = .act (.createprocess sAsid sStatus) k)
    (hmay : (lockRules strict p).may (place strict s.log p) (.createprocess sAsid sStatus)) :
    Goes strict s (s.perform (kaya K junk) p r (.createprocess sAsid sStatus)) := by
  obtain ⟨rfl, hlt, hasid⟩ := lockRules_create hmay
  have hnat : ((kaya K junk).child sAsid).toNat = (place strict s.log 0).created + 1 := by
    change (asidOf sAsid).toNat = _
    rw [hasid, BitVec.toNat_ofNat]
    have hmax : MAXUPROC = 2 := rfl
    omega
  have hborn : s.life ((kaya K junk).child sAsid) = .unborn := hi.unborn _ (by omega)
  have hne : 0 ≠ (kaya K junk).child sAsid := by
    intro h0
    rw [← h0, hp] at hborn
    nomatch hborn
  simp only [Sys.perform, if_pos hborn]
  refine create_goes (k := k) sAsid sStatus h hi hlt hnat ?_ rfl rfl fun q => ?_
  · simpa only [Sys.setTask, Function.update_of_ne hne] using hprog
  · by_cases hq : q = (kaya K junk).child sAsid
    · rw [if_pos hq]
      simp only [Sys.setTask, hq, Function.update_self]
    · rw [if_neg hq]
      simp only [Sys.setTask, Function.update_of_ne hq]

theorem spectrapvec_goes (hi : LockInv strict s) (hp : s.life p = .ready) {trap : Trap}
    {area : NewArea} (hprog : (s.task p).prog = .act (.spectrapvec trap area) k)
    (hmay : (lockRules strict p).may (place strict s.log p) (.spectrapvec trap area)) :
    Goes strict s (s.perform (kaya K junk) p r (.spectrapvec trap area)) := by
  obtain ⟨hp0, -, -, hvec, -⟩ := lockRules_may hmay id
  have hnone := (hi.vectors p hp0 (Life.ne_unborn hp) trap).mpr hvec
  simp only [Sys.perform, if_pos hnone]
  generalize ht : s.setTask p
    { s.task p with new := Function.update (s.task p).new trap (some area) } = t
  have hprog' : (t.task p).prog = .act (.spectrapvec trap area) k := by
    rw [← ht]
    simpa only [Sys.setTask, Function.update_self] using hprog
  have hlog : t.log = s.log := log_congr (by rw [← ht]; rfl)
  have hlife : (t.answer p 0).life = s.life := by
    rw [answer_life hprog', ← ht]
    exact (congrArg (Function.update s.life p) hp.symm).trans (Function.update_eq_self ..)
  have hplace : place strict (t.answer p 0).log p = { place strict s.log p with
      vectors := Function.update (place strict s.log p).vectors trap true } := by
    obtain ⟨x, hx⟩ := place_answer hprog' hlog strict 0
    rw [hx, lockRules_of_ne hp0]
    rfl
  have hzero : place strict (t.answer p 0).log 0 = place strict s.log 0 :=
    place_answer_of_ne hprog' hlog (Ne.symm hp0)
  refine ⟨fun hadm _ => ?_, .inl ⟨?_, ?_, fun q hq hb trap' => ?_, fun q hq => ?_⟩⟩
  · rw [answer_log hprog', hlog]
    refine ⟨?_, hadm⟩
    rw [lockRules_of_ne hp0]
    exact trivial
  · rw [hzero]
    exact hi.created
  · rw [hzero, hlife]
    exact hi.unborn
  · rw [hlife] at hb
    rw [(answer_task t p q 0).2]
    by_cases hqp : q = p
    · subst hqp
      rw [hplace, ← ht]
      simp only [Sys.setTask, Function.update_self]
      by_cases htr : trap' = trap
      · subst htr
        simp only [Function.update_self]
        exact iff_of_false (Option.some_ne_none area) (by simp)
      · simp only [Function.update_of_ne htr]
        exact hi.vectors q hq hb trap'
    · rw [place_answer_of_ne hprog' hlog hqp, ← ht]
      simp only [Sys.setTask, Function.update_of_ne hqp]
      exact hi.vectors q hq hb trap'
  · rw [hlife] at hq
    have hqp : q ≠ p := by
      rintro rfl
      exact absurd (hp.symm.trans hq) (by simp)
    rw [place_answer_of_ne hprog' hlog hqp]
    exact hi.dead q hq

/-! ## All steps -/

/-- A trap of a process that runs its user's program, or a handler that may be interrupted. -/
theorem trap_goes (hi : LockInv strict s) (hp : p ≠ 0) (hborn : s.life p ≠ .unborn)
    (huser : place strict s.log p = .user) (tlb : Word → Word → Option Word) (trap : Trap)
    (st : State) (rest : Prog) :
    Goes strict s (({ s with tlb := tlb } : Sys Word).passUp (kaya K junk) p trap st rest) := by
  have hi' : LockInv strict ({ s with tlb := tlb } : Sys Word) := hi.gentle (same_gentle rfl rfl rfl)
  refine passUp_goes hi' hp hborn ?_ (.inl ?_)
  · exact huser ▸ Place.user_free
  · exact (congrArg (fun g => Place.vectors g trap) huser).trans rfl

theorem perform_goes (h : s.LockLive strict) (hi : LockInv strict s) (hrun : s.running = some p)
    (hprog : (s.task p).prog = .act a k) : Goes strict s (s.perform (kaya K junk) p r a) := by
  have hp := h.sane.running p hrun
  have hmay := h.keeps.prog p (.inl hp)
  rw [hprog] at hmay
  have hmay : (lockRules strict p).may (place strict s.log p) a := hmay.1
  cases a with
  | passeren x => exact (P_gentle (.inl hp) hprog).goes hi
  | verhogen x => exact (V_gentle h hp hprog).goes hi
  | waitio l d n =>
    have hl : ¬ l < DISKINT := (lockRules_may hmay id).2.2
    simp only [Sys.perform, if_neg hl]
    exact (waitDev_gentle (.inl hp) hprog).goes hi
  | createprocess sAsid sStatus => exact createprocess_goes h hi hp hprog hmay
  | spectrapvec trap area => exact spectrapvec_goes hi hp hprog hmay
  | load virtAddr =>
    obtain ⟨hp0, -, huser⟩ := lockRules_may hmay id
    simp only [Sys.perform]
    rcases access_cases (S := kaya K junk) s p 2 virtAddr _ with ⟨tlb, st, heq⟩ | ⟨tlb, frame, heq⟩
    · rw [heq]
      exact trap_goes hi hp0 (Life.ne_unborn hp) huser ..
    · rw [heq]
      refine Gentle.goes (.trans (t := { s with tlb := tlb }) (same_gentle rfl rfl rfl) ?_) hi
      exact answer_gentle (a := .load virtAddr) (.inl hp) hprog trivial
  | setSTATUS status =>
    refine Gentle.goes (.trans (setTask_gentle (t := { s.task p with status := status }) rfl)
      (answer_gentle (a := .setSTATUS status) (k := k) (.inl hp) ?_ trivial)) hi
    simpa only [Sys.setTask, Function.update_self] using hprog
  | setCommand reg v | setData0 reg v =>
    simp only [Sys.perform]
    split_ifs
    all_goals refine Gentle.goes (.trans (same_gentle ?_ ?_ ?_)
      (answer_gentle (k := k) (.inl hp) hprog trivial)) hi <;> rfl
  | getSTATUS | getENTRYHI | setData1 | getData1 =>
    exact (answer_gentle (.inl hp) hprog trivial).goes hi
  | TLBCLR | tables f =>
    refine Gentle.goes (.trans (same_gentle ?_ ?_ ?_)
      (answer_gentle (k := k) (.inl hp) hprog trivial)) hi <;> rfl

theorem leave_goes (h : s.LockLive strict) (hi : LockInv strict s) (hp : s.life p = .ready)
    {l : Leave} (hprog : (s.task p).prog = .leave l) : Goes strict s (s.leave (kaya K junk) p l) := by
  have hleave := h.keeps.prog p (.inl hp)
  rw [hprog] at hleave
  have hleave : (lockRules strict p).leave (place strict s.log p) l := hleave
  have hborn : s.life p ≠ .unborn := hp ▸ nofun
  cases l with
  | ldst | again =>
    refine Gentle.goes (setTask_gentle ?_) hi
    rfl
  | user => exact (Gentle.refl s).goes hi
  | terminate =>
    obtain ⟨hp0, -, hfree, hvec⟩ := lockRules_leave hleave nofun
    refine passUp_goes hi hp0 hborn hfree ?_
    cases strict with
    | false => exact .inr rfl
    | true => exact .inl (hvec rfl)
  | terminateprocess =>
    by_cases hp0 : p = 0
    · subst hp0
      exact kill_test hleave.2
    · rw [lockRules_of_ne hp0] at hleave
      exact kill_goes hi hleave.2 (fun _ => hleave.1) hp0 hborn

theorem user_goes (h : s.LockLive strict) (hi : LockInv strict s) (hp : s.life p = .ready)
    (hmode : (s.task p).InUserMode) (act : UserAct) :
    Goes strict s (s.user (kaya K junk) p act) := by
  have hborn : s.life p ≠ .unborn := Life.ne_unborn hp
  have huser : p ≠ 0 ∧ place strict s.log p = .user := by
    have hfollows := h.keeps.prog p (.inl hp)
    unfold Task.InUserMode at hmode
    split at hmode
    · rename_i hprog
      rw [hprog] at hfollows
      exact lockRules_leave hfollows (by simp)
    · exact hmode.elim
  have htrap : ∀ tlb trap st rest,
      Goes strict s (({ s with tlb := tlb } : Sys Word).passUp (kaya K junk) p trap st rest) :=
    trap_goes hi huser.1 hborn huser.2
  cases act with
  | load virtAddr | store virtAddr v =>
    simp only [Sys.user]
    rcases access_cases (S := kaya K junk) s p _ virtAddr _ with ⟨tlb, st, heq⟩ | ⟨tlb, frame, heq⟩
    · rw [heq]
      exact htrap ..
    · rw [heq]
      refine Gentle.goes (same_gentle ?_ ?_ ?_) hi <;> rfl
  | syscall st =>
    simp only [Sys.user]
    split_ifs <;> exact htrap s.tlb ..
  | progTrap st | tlbTrap st => exact htrap s.tlb ..

theorem step_goes (h : s.LockLive strict) (hi : LockInv strict s) {e : Event Word}
    (hcan : s.Can e) : Goes strict s (s.step (kaya K junk) e) := by
  cases e with
  | step r =>
    obtain ⟨p, hrun, -⟩ := hcan
    simp only [Sys.step, hrun, Sys.go]
    split
    · exact (Gentle.refl s).goes hi
    · exact leave_goes h hi (h.sane.running p hrun) ‹_›
    · exact perform_goes h hi hrun ‹_›
  | user act =>
    obtain ⟨p, hrun, hmode, -⟩ := hcan
    simp only [Sys.step, hrun]
    exact user_goes h hi (h.sane.running p hrun) hmode act
  | dispatch | tapeDma | tlbDrop => refine Gentle.goes (same_gentle ?_ ?_ ?_) hi <;> rfl
  | diskInt status =>
    simp only [Sys.step, Sys.diskInt]
    split
    · exact (Gentle.refl s).goes hi
    · obtain ⟨h1, h2, -, -, h5, -, h7⟩ := s.transfer_same ‹Word›
      refine Gentle.goes (signal_gentle h ?_ ?_ ?_ ?_ 0 status) hi
      all_goals split_ifs
      · exact h1
      · rfl
      · exact h2
      · rfl
      · exact h5
      · rfl
      · simp only [log, h7]
        rfl
      · rfl
  | devInt index status => exact (signal_gentle h rfl rfl rfl rfl index status).goes hi

/-! ## Runs -/

theorem passed_eq (h : LockAllowed strict log) :
    passes .masterSem log = (place strict log 0).passed := by
  induction log with
  | nil => rfl
  | cons d log ih =>
    obtain ⟨hmay, hlog⟩ := h
    have hmay : (lockRules strict d.p).may (place strict log d.p) d.a := hmay
    rw [passes_cons, ih hlog]
    by_cases hp : d.p = 0
    · rw [place_cons_self hp]
      rw [hp] at hmay
      cases hact : d.a with
      | passeren x =>
        rw [hact] at hmay
        obtain ⟨rfl, -⟩ := hmay
        rfl
      | createprocess => rfl
      | _ =>
        rw [hact] at hmay
        exact hmay.elim
    · rw [place_cons_of_ne hp]
      rw [lockRules_of_ne hp] at hmay
      have hnot : d.a.isP .masterSem = false := by
        cases hact : d.a with
        | passeren x =>
          rw [hact] at hmay
          exact decide_eq_false hmay.2.1
        | _ => rfl
      rw [hnot]
      rfl

/-- All V's on `masterSem` are those of the processes that `test` created. -/
theorem releases_eq (h : LockAllowed strict log) (hnum : ∀ d ∈ log, d.p.toNat ≤ MAXUPROC) :
    releases .masterSem log = signals 1 log + signals 2 log := by
  induction log with
  | nil => rfl
  | cons d log ih =>
    obtain ⟨hmay, hlog⟩ := h
    rw [List.forall_mem_cons] at hnum
    rw [releases_cons, ih hlog hnum.2, signals_cons, signals_cons]
    cases hact : d.a.isV .masterSem with
    | false => simp
    | true =>
      have hne := (may_signals hmay hact).1
      have hcases : d.p = 1 ∨ d.p = 2 := by
        have hmax : MAXUPROC = 2 := rfl
        have hlt := hnum.1
        bv_omega
      rcases hcases with hp | hp <;> rw [hp] <;> simp <;> omega

/-- When `test` passed all its P's, the others made their V's. -/
theorem all_signalled (h : LockAllowed strict log) (hnum : ∀ d ∈ log, d.p.toNat ≤ MAXUPROC)
    (hbal : MAXUPROC ≤ releases .masterSem log) (hp : IsUProc p) : signals p log = 1 := by
  have hone : ∀ q, signals q log ≤ 1 := by
    intro q
    rw [(place_signalled h q).1]
    split_ifs <;> omega
  have hsum := releases_eq h hnum
  have h1 := hone 1
  have h2 := hone 2
  have hmax : MAXUPROC = 2 := rfl
  have hcases : p = 1 ∨ p = 2 := by
    obtain ⟨hpos, hle⟩ := hp
    bv_omega
  rcases hcases with rfl | rfl <;> omega

end Sys

end Kaya.Phase3
