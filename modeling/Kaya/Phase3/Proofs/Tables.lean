import Kaya.Phase3.Proofs.TableRules

/-!
# The tables during a run

The tables are what the actions of the log made of them, and between a P and its V on
`swapPoolSem` all writes are by one process.
-/

namespace Kaya.Phase3

open Lib

variable {ι γ : Type} [DecidableEq ι]

def tablesOf : List (Did ι Act Word View) → Tables
  | [] => .init
  | d :: log => d.a.onTables (tablesOf log)

namespace Sys

variable {S : Setup ι} {D : ι → Discipline Act Word Leave View γ} {c u : ι → γ} {s t : Sys ι}
  {p : ι} {a : Act} {k : Word → Prog} {r : Word}

/-- The tables are those of the log. -/
def Replayed (s : Sys ι) : Prop := s.tables = tablesOf s.log

omit [DecidableEq ι] in
theorem Still.replayed (h : s.Still t) (hs : s.Replayed) : t.Replayed := by
  rw [Replayed, h.tables, h.log, hs]

theorem answer_tables (s : Sys ι) (p : ι) (r : Word) : (s.answer p r).tables = s.tables := by
  unfold answer
  split <;> rfl

theorem Replayed.answer (hs : s.Replayed) (htables : t.tables = a.onTables s.tables)
    (hlog : t.log = s.log) (hprog : (t.task p).prog = .act a k) : (t.answer p r).Replayed := by
  rw [Replayed, answer_tables, answer_log hprog, hlog, tablesOf, htables, hs]

theorem Live.V_replayed (h : s.Live D c u) (hs : s.Replayed) (hp : s.life p = .ready) {x : Sem}
    (hprog : (s.task p).prog = .act (.verhogen x) k) : (s.V p x).Replayed := by
  obtain ⟨-, hfirst⟩ := h.upSem x
  have hfree := h.sane.free hp
  unfold Sys.V
  simp only
  generalize ht : ({ s with sem := Function.update s.sem x (s.sem x).up } : Sys ι) = t at hfirst ⊢
  have htask : t.task = s.task := by rw [← ht]
  have hone : (t.answer p 0).Replayed :=
    hs.answer (a := .verhogen x) (by rw [← ht]; rfl) (by rw [← ht]; rfl) (htask ▸ hprog)
  cases hws : (s.sem x).waiters with
  | nil => exact hone
  | cons q ws =>
    obtain ⟨-, -, k', hprog'⟩ := hfirst q (by rw [hws]; rfl)
    have hqp : q ≠ p := fun heq => hfree.sem x (heq ▸ hws ▸ List.mem_cons_self)
    have htask' := (answer_of_ne (s := t) (r := 0) hqp).1
    exact hone.answer (a := .passeren x) rfl rfl (by rw [htask', htask, hprog'])

theorem Live.signal_replayed (h : s.Live D c u) (hs : s.Replayed) (htask : t.task = s.task)
    (hdev : t.dev = s.dev) (htables : t.tables = s.tables) (hlog : t.log = s.log)
    (i status : Word) : (t.signal i status).Replayed := by
  obtain ⟨-, hfirst⟩ := h.upDev i
  unfold Sys.signal
  simp only [hdev]
  cases hws : (s.dev i).waiters with
  | nil => exact htables.trans (hs.trans (congrArg tablesOf hlog.symm))
  | cons q ws =>
    obtain ⟨-, -, l, d, u, k, hprog, -⟩ := hfirst q (by rw [hws]; rfl)
    exact hs.answer (a := .waitio l d u) htables hlog (htask ▸ hprog)

theorem Live.perform_replayed (h : s.Live D c u) (hs : s.Replayed) (hrun : s.running = some p)
    (hprog : (s.task p).prog = .act a k) : (s.perform S p r a).Replayed := by
  have hp := h.sane.running p hrun
  by_cases hwaits : a.Waits
  · cases a with
    | passeren x =>
      simp only [Sys.perform, Sys.P]
      split_ifs
      · exact hs.answer (a := .passeren x) rfl rfl hprog
      · exact hs
    | verhogen x => exact h.V_replayed hs hp hprog
    | waitio l d u =>
      simp only [Sys.perform, Sys.waitDev]
      split_ifs
      · exact (kill_own s p).still.replayed hs
      · exact hs.answer (a := .waitio l d u) rfl rfl hprog
      · exact hs
    | _ => exact hwaits.elim
  · rcases perform_cases (S := S) (r := r) hp hwaits with ⟨-, hown⟩ | ⟨t, r', ht, heq⟩
    · exact hown.still.replayed hs
    · rw [heq]
      exact hs.answer ht.tables ht.log (ht.prog.trans hprog)

theorem Live.step_replayed (h : s.Live D c u) (hs : s.Replayed) {e : Event ι} (hcan : s.Can e) :
    (s.step S e).Replayed := by
  cases e with
  | step r =>
    obtain ⟨p, hrun, -⟩ := hcan
    simp only [Sys.step, hrun, Sys.go]
    split
    · exact hs
    · exact (leave_own ..).still.replayed hs
    · exact h.perform_replayed hs hrun ‹_›
  | user u =>
    obtain ⟨p, hrun, -⟩ := hcan
    simp only [Sys.step, hrun]
    exact (user_own ..).still.replayed hs
  | diskInt status =>
    simp only [Sys.step, Sys.diskInt]
    split
    · exact hs
    · obtain ⟨h1, -, -, -, h5, h6, h7⟩ := s.transfer_same ‹Word›
      refine h.signal_replayed hs ?_ ?_ ?_ ?_ 0 status
      all_goals split_ifs
      · exact h1
      · rfl
      · exact h5
      · rfl
      · exact h6
      · rfl
      · simp only [log, h7]
        rfl
      · rfl
  | devInt index status => exact h.signal_replayed hs rfl rfl rfl rfl index status
  | dispatch | tapeDma | tlbDrop => exact hs

omit [DecidableEq ι] in
theorem Fresh.replayed (h : s.Fresh) : s.Replayed := by
  rw [Replayed, h.tables, log, h.trace]
  rfl

/-! ## Who writes -/

abbrev TablesAllowed (log : List (Did ι Act Word View)) : Prop :=
  Allowed (fun _ => tableRules) (fun _ => false) log

variable {log : List (Did ι Act Word View)} {d : Did ι Act Word View}

theorem holds_iff_ghost (p : ι) (log : List (Did ι Act Word View)) :
    Holds .swapPoolSem p log ↔ ghost (fun _ => tableRules) (fun _ => false) p log = true := by
  induction log with
  | nil => exact iff_of_false id nofun
  | cons d log ih =>
    by_cases hp : d.p = p
    swap
    · rw [holds_cons_of_ne hp, ghost_cons_of_ne hp]
      exact ih
    rw [ghost_cons_self hp, Holds, if_pos hp]
    cases hact : d.a with
    | passeren x | verhogen x =>
      simp only [Act.held, tableRules, ih]
      split_ifs with hx <;> simp [hx]
    | _ => exact ih

theorem guarded_swapPool :
    Guarded (ι := ι) (fun _ => tableRules) (fun _ => false) .swapPoolSem := by
  intro p log _ hmay
  exact (holds_iff_ghost p log).mpr (hmay rfl)

theorem writer_holds (h : TablesAllowed (d :: log)) :
    Holds .swapPoolSem d.p log ∨ ∀ t, d.a.onTables t = t := by
  have hmay := h.1
  cases hact : d.a with
  | tables f =>
    rw [hact] at hmay
    exact hmay.2.imp_left (holds_iff_ghost d.p log).mpr
  | _ => exact .inr fun _ => rfl

theorem onTables_kUseg3 (h : TablesAllowed (d :: log)) (t : Tables) :
    (d.a.onTables t).kUseg3 = t.kUseg3 := by
  have hmay := h.1
  cases hact : d.a with
  | tables f =>
    rw [hact] at hmay
    exact hmay.1 t
  | _ => rfl

theorem tablesOf_kUseg3 (h : TablesAllowed log) : (tablesOf log).kUseg3 = Tables.init.kUseg3 := by
  induction log with
  | nil => rfl
  | cons d log ih => exact (onTables_kUseg3 h _).trans (ih h.2)

/-- While `p` holds `swapPoolSem` the tables change by its actions alone. -/
theorem tablesOf_holder {l : List (Did ι Act Word View)} (h : TablesAllowed (l ++ log))
    (hex : Exclusive .swapPoolSem (l ++ log))
    (hholds : ∀ l', l' <:+ l → Holds .swapPoolSem p (l' ++ log)) :
    tablesOf (l ++ log) = (l.filter fun d => d.p = p).foldr (fun d t => d.a.onTables t)
      (tablesOf log) := by
  induction l with
  | nil => rfl
  | cons d l ih =>
    have ih := ih h.2 hex.2 fun l' hl' => hholds l' (hl'.trans (List.suffix_cons d l))
    have hp := hholds l (List.suffix_cons d l)
    change d.a.onTables (tablesOf (l ++ log)) = _
    by_cases hd : d.p = p
    · rw [List.filter_cons_of_pos (by simpa using hd), List.foldr_cons, ih]
    · rw [List.filter_cons_of_neg (by simpa using hd), ← ih]
      rcases writer_holds h with hown | hidle
      · exact absurd (hex.2.unique hown hp) hd
      · exact hidle _

/-- What holds of the tables in every state reached. -/
structure TableRun (s : Sys ι) : Prop where
  allowed : TablesAllowed s.log
  exclusive : Exclusive .swapPoolSem s.log
  replayed : s.Replayed

theorem Reaches.tableRun {init : Sys ι → Prop} {h : List (Sys ι × Event ι)}
    (hrun : Reaches S init h s)
    (hS : S.Obeys (fun _ => tableRules) (fun _ => false) fun _ => false)
    (hinit : ∀ s, init s → s.Fresh ∧ s.Live (fun _ => tableRules) (fun _ => false) fun _ => false) :
    s.TableRun ∧ (s.Halted ∨
      s.Live (fun _ => tableRules) (fun _ => false) (fun _ => false) ∧ s.Mutex .swapPoolSem) := by
  have hadm : ∀ log : List (Did ι Act Word View),
      Admitted (fun _ => tableRules) (fun _ => false) log := by
    intro log
    induction log with
    | nil => exact trivial
    | cons d log ih => exact ⟨trivial, ih⟩
  induction hrun with
  | @start s hs =>
    obtain ⟨hfresh, hlive⟩ := hinit s hs
    have hm : s.Mutex .swapPoolSem := hfresh.mutex rfl
    exact ⟨⟨hlive.keeps.allowed, hm.exclusive, hfresh.replayed⟩, .inr ⟨hlive, hm⟩⟩
  | @next h s e hrun hcan ih =>
    obtain ⟨htab, hhalt | ⟨hlive, hm⟩⟩ := ih
    · obtain ⟨hhalt', hsame, htables⟩ := hhalt.step (S := S) hcan
      have hlog : (s.step S e).log = s.log := by rw [log, hsame, log]
      refine ⟨⟨?_, ?_, ?_⟩, .inl hhalt'⟩
      · exact hlog ▸ htab.allowed
      · exact hlog ▸ htab.exclusive
      · rw [Replayed, htables, hlog, htab.replayed]
    · have hsem : SemStep .swapPoolSem s (s.step S e) := hlive.semStep hcan
      have hrep : (s.step S e).Replayed := hlive.step_replayed htab.replayed hcan
      rcases hlive.step hS hcan (hadm _) with hlive' | ⟨hhalt, hsame⟩
      · have hm' := hsem.mutex hm guarded_swapPool hlive'.keeps.allowed
        exact ⟨⟨hlive'.keeps.allowed, hm'.exclusive, hrep⟩, .inr ⟨hlive', hm'⟩⟩
      · refine ⟨⟨?_, ?_, hrep⟩, .inl hhalt⟩
        · exact hsame ▸ htab.allowed
        · exact hsame ▸ htab.exclusive

end Sys

end Kaya.Phase3
