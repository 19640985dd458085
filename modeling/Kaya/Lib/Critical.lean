import Kaya.Lib.Program
import Mathlib.Data.List.Basic

/-!
# Critical sections

Processes share a state that only one of them at a time may change, between its entry to a
critical section and its exit.  If every section as a whole is a transaction, then the shared
state is what the transactions make of it one after the other, in the order of the exits.
-/

namespace Kaya.Lib

/-- Where critical sections begin and end, and what actions do to the shared state. -/
structure Sections (A T : Type) where
  enters : A → Bool
  exits : A → Bool
  effect : A → T → T

namespace Sections

variable {ι A R X T Z : Type} [DecidableEq ι] (C : Sections A T) (init : T)

def after : List (Did ι A R X) → T
  | [] => init
  | d :: log => C.effect d.a (after log)

def Inside (p : ι) : List (Did ι A R X) → Prop
  | [] => False
  | d :: log =>
      if d.p = p then C.enters d.a = true ∨ C.exits d.a = false ∧ Inside p log else Inside p log

def found (p : ι) : List (Did ι A R X) → T
  | [] => init
  | d :: log => if d.p = p ∧ C.enters d.a = true then C.after init log else found p log

/-- What `p` did since it last entered, the newest first. -/
def own (p : ι) : List (Did ι A R X) → List A
  | [] => []
  | d :: log =>
      if d.p = p then if C.enters d.a = true then [] else d.a :: own p log else own p log

/-- Nobody enters while another process is inside, and only who is inside leaves or changes the
shared state. -/
def Bracketed : List (Did ι A R X) → Prop
  | [] => True
  | d :: log =>
      (C.enters d.a = true → ∀ q, ¬ C.Inside q log) ∧ (C.exits d.a = true → C.Inside d.p log) ∧
        (C.Inside d.p log ∨ ∀ t, C.effect d.a t = t) ∧ Bracketed log

def serial (apply : ι → Z → T → T) (zs : List (ι × Z)) : T :=
  zs.foldr (fun x t => apply x.1 x.2 t) init

variable {C init} {p q : ι} {d : Did ι A R X} {log l : List (Did ι A R X)}

theorem inside_cons_of_ne (hp : d.p ≠ p) : C.Inside p (d :: log) ↔ C.Inside p log := by
  rw [Inside, if_neg hp]

theorem inside_cons_self (hp : d.p = p) :
    C.Inside p (d :: log) ↔ C.enters d.a = true ∨ C.exits d.a = false ∧ C.Inside p log := by
  rw [Inside, if_pos hp]

theorem found_of_enters (hp : d.p = p) (ha : C.enters d.a = true) :
    C.found init p (d :: log) = C.after init log := if_pos ⟨hp, ha⟩

theorem found_of_not (h : ¬ (d.p = p ∧ C.enters d.a = true)) :
    C.found init p (d :: log) = C.found init p log := if_neg h

namespace Bracketed

theorem suffix (h : C.Bracketed (l ++ log)) : C.Bracketed log := by
  induction l with
  | nil => exact h
  | cons d l ih => exact ih h.2.2.2

/-- At most one process is inside. -/
theorem unique (h : C.Bracketed log) (hp : C.Inside p log) (hq : C.Inside q log) : p = q := by
  induction log with
  | nil => exact hp.elim
  | cons d log ih =>
    obtain ⟨henter, -, -, h⟩ := h
    by_cases hdp : d.p = p
    · by_cases hdq : d.p = q
      · exact hdp.symm.trans hdq
      rw [inside_cons_of_ne hdq] at hq
      rcases (inside_cons_self hdp).mp hp with ha | ⟨-, hp⟩
      · exact absurd hq (henter ha q)
      · exact ih h hp hq
    · rw [inside_cons_of_ne hdp] at hp
      by_cases hdq : d.p = q
      · rcases (inside_cons_self hdq).mp hq with ha | ⟨-, hq⟩
        · exact absurd hp (henter ha p)
        · exact ih h hp hq
      · rw [inside_cons_of_ne hdq] at hq
        exact ih h hp hq

theorem still (h : C.Bracketed (d :: log)) (hp : C.Inside p log) (hne : d.p ≠ p) :
    C.after init (d :: log) = C.after init log := by
  obtain ⟨-, -, hin | hstill, h⟩ := h
  · exact absurd (h.unique hin hp) hne
  · exact hstill _

/-- The shared state is what who is inside made of the one it found. -/
theorem after_own (h : C.Bracketed log) (hp : C.Inside p log) :
    C.after init log = (C.own p log).foldr C.effect (C.found init p log) := by
  induction log with
  | nil => exact hp.elim
  | cons d log ih =>
    by_cases hdp : d.p = p
    · rcases (inside_cons_self hdp).mp hp with ha | ⟨-, hin⟩
      · have hstill : ∀ t, C.effect d.a t = t := h.2.2.1.resolve_left (h.1 ha d.p)
        rw [found_of_enters hdp ha, own, if_pos hdp, if_pos ha]
        exact hstill _
      · have ha : ¬ C.enters d.a = true := fun ha => h.1 ha p hin
        rw [found_of_not fun hnew => ha hnew.2, own, if_pos hdp, if_neg ha, List.foldr_cons,
          ← ih h.2.2.2 hin]
        rfl
    · have hin := (inside_cons_of_ne hdp).mp hp
      rw [h.still hin hdp, found_of_not fun hnew => hdp hnew.1, own, if_neg hdp]
      exact ih h.2.2.2 hin

/-- A section that ended is a transaction. -/
def Atomic (C : Sections A T) (init : T) (apply : ι → Z → T → T) (log : List (Did ι A R X)) : Prop :=
  ∀ d log', d :: log' <:+ log → C.exits d.a = true →
    ∃ z, C.after init (d :: log') = apply d.p z (C.found init d.p log')

/-- The shared state is that of the transactions, one after the other. -/
structure Serial (C : Sections A T) (init : T) (apply : ι → Z → T → T) (log : List (Did ι A R X))
    (zs : List (ι × Z)) : Prop where
  order : zs.map Prod.fst = (log.filter fun d => C.exits d.a).map Did.p
  inside : ∀ p, C.Inside p log → C.found init p log = serial init apply zs
  outside : (∀ p, ¬ C.Inside p log) → C.after init log = serial init apply zs

variable {apply : ι → Z → T → T} {zs : List (ι × Z)}

theorem Serial.exit (hzs : Serial C init apply log zs) (h : C.Bracketed (d :: log))
    (hexits : C.exits d.a = true) {z : Z}
    (hz : C.after init (d :: log) = apply d.p z (C.found init d.p log)) :
    Serial C init apply (d :: log) ((d.p, z) :: zs) := by
  obtain ⟨henter, hexit, -, hrest⟩ := h
  have hin := hexit hexits
  have hout : ∀ p, ¬ C.Inside p (d :: log) := by
    intro p hp
    by_cases hdp : d.p = p
    · rcases (inside_cons_self hdp).mp hp with ha | ⟨hno, -⟩
      · exact henter ha d.p hin
      · exact Bool.noConfusion (hexits.symm.trans hno)
    · exact hdp (hrest.unique hin ((inside_cons_of_ne hdp).mp hp))
  refine ⟨?_, fun p hp => absurd hp (hout p), fun _ => ?_⟩
  · rw [List.filter_cons_of_pos (p := fun e : Did ι A R X => C.exits e.a) hexits, List.map_cons,
      List.map_cons, hzs.order]
  · rw [hz, hzs.inside d.p hin]
    rfl

theorem Serial.stay (hzs : Serial C init apply log zs) (h : C.Bracketed (d :: log))
    (hstay : ¬ C.exits d.a = true) : Serial C init apply (d :: log) zs := by
  obtain ⟨henter, -, hwrite, -⟩ := h
  refine ⟨?_, fun p hp => ?_, fun hout => ?_⟩
  · rw [List.filter_cons_of_neg (p := fun e : Did ι A R X => C.exits e.a) hstay]
    exact hzs.order
  · by_cases hnew : d.p = p ∧ C.enters d.a = true
    · rw [found_of_enters hnew.1 hnew.2]
      exact hzs.outside (henter hnew.2)
    · rw [found_of_not hnew]
      refine hzs.inside p ?_
      by_cases hdp : d.p = p
      · exact (((inside_cons_self hdp).mp hp).resolve_left fun ha => hnew ⟨hdp, ha⟩).2
      · exact (inside_cons_of_ne hdp).mp hp
  · have hout' : ∀ p, ¬ C.Inside p log := by
      intro p hp
      refine hout p ?_
      by_cases hdp : d.p = p
      · exact (inside_cons_self hdp).mpr (.inr ⟨Bool.eq_false_iff.mpr hstay, hp⟩)
      · exact (inside_cons_of_ne hdp).mpr hp
    refine Eq.trans ?_ (hzs.outside hout')
    exact hwrite.resolve_left (hout' d.p) _

/-- Critical sections that are transactions have the effect of running one after the other, now
and at every moment before. -/
theorem serial (h : C.Bracketed log) (hatomic : Atomic C init apply log) :
    ∃ zs : List (ι × Z), ∀ l log', log = l ++ log' →
      Serial C init apply log' (zs.drop (l.countP fun d => C.exits d.a)) := by
  induction log with
  | nil =>
    refine ⟨[], fun l log' heq => ?_⟩
    obtain ⟨rfl, rfl⟩ := List.append_eq_nil_iff.mp heq.symm
    exact ⟨rfl, fun p hp => hp.elim, fun _ => rfl⟩
  | cons d log ih =>
    obtain ⟨zs, hall⟩ := ih h.2.2.2 fun e log' hsuf =>
      hatomic e log' (hsuf.trans (List.suffix_cons d log))
    have hzs : Serial C init apply log zs := hall [] log rfl
    by_cases hexits : C.exits d.a = true
    · obtain ⟨z, hz⟩ := hatomic d log (List.suffix_refl _) hexits
      refine ⟨(d.p, z) :: zs, fun l log' heq => ?_⟩
      cases l with
      | nil =>
        obtain rfl : d :: log = log' := heq
        exact hzs.exit h hexits hz
      | cons e l =>
        obtain ⟨rfl, hlog⟩ := List.cons.inj heq
        rw [List.countP_cons_of_pos (p := fun e : Did ι A R X => C.exits e.a) hexits,
          List.drop_succ_cons]
        exact hall l log' hlog
    · refine ⟨zs, fun l log' heq => ?_⟩
      cases l with
      | nil =>
        obtain rfl : d :: log = log' := heq
        exact hzs.stay h hexits
      | cons e l =>
        obtain ⟨rfl, hlog⟩ := List.cons.inj heq
        rw [List.countP_cons_of_neg (p := fun e : Did ι A R X => C.exits e.a) hexits]
        exact hall l log' hlog

end Bracketed

end Sections

end Kaya.Lib
