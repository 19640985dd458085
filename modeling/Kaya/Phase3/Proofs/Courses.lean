import Kaya.Phase3.Proofs.PageInv

/-!
# The course of one process

What a step is to a single process: it rests, gets the answer to its action, is born, is trapped,
or goes on with what a trap had interrupted.
-/

namespace Kaya.Phase3

open Lib

variable {ι : Type} [DecidableEq ι]

/-- A list has one place for the only element with a property. -/
theorem unique_split {α β : Type} {f : α → β} {b : β} {l₁ l₂ m₁ m₂ : List α} {d e : α}
    (h : l₁ ++ d :: l₂ = m₁ ++ e :: m₂) (hd : f d = b) (h₁ : ∀ x ∈ m₁, f x ≠ b)
    (h₂ : ∀ x ∈ m₂, f x ≠ b) : l₁ = m₁ ∧ d = e ∧ l₂ = m₂ := by
  induction l₁ generalizing m₁ with
  | nil =>
    cases m₁ with
    | nil => exact ⟨rfl, List.cons.inj h⟩
    | cons x m₁ => exact absurd ((List.cons.inj h).1 ▸ hd) (h₁ x List.mem_cons_self)
  | cons y l₁ ih =>
    cases m₁ with
    | nil =>
      refine absurd hd (h₂ d ?_)
      rw [← (List.cons.inj h).2]
      exact List.mem_append_right _ List.mem_cons_self
    | cons x m₁ =>
      obtain ⟨rfl, htail⟩ := List.cons.inj h
      obtain ⟨rfl, hrest⟩ := ih htail fun z hz => h₁ z (List.mem_cons_of_mem _ hz)
      exact ⟨rfl, hrest⟩

/-- The action neither reads `ENTRYHI` or the tables nor creates a process. -/
def Act.Ordinary : Act → Prop
  | .getENTRYHI | .createprocess _ _ | .tables _ => False
  | _ => True

theorem Act.Ordinary.ne {a : Act} (ha : a.Ordinary) :
    a ≠ .getENTRYHI ∧ (∀ sAsid sStatus, a ≠ .createprocess sAsid sStatus) ∧
      ∀ f, a ≠ .tables f := by
  refine ⟨?_, ?_, ?_⟩
  · rintro rfl
    exact ha
  · rintro sAsid sStatus rfl
    exact ha
  · rintro f rfl
    exact ha

theorem Act.Ordinary.tables {a : Act} (ha : a.Ordinary) (t : Tables) : a.onTables t = t := by
  cases a with
  | tables f => exact ha.elim
  | _ => rfl

namespace Sys

/-- From `s` to `t`, where the log grows by `l`, process `q` did this. -/
inductive Course (S : Setup ι) (s t : Sys ι) (l : List (Did ι Act Word View)) (q : ι) : Prop
  | rests : (∀ d ∈ l, d.p ≠ q) → t.task q = s.task q →
      (t.life q = s.life q ∨ s.Alive q ∧ t.Alive q ∨ t.life q = .dead) → Course S s t l q
  | goesOn (l₁ l₂ : List (Did ι Act Word View)) {a : Act} {k : Word → Prog} {r : Word} {v : View} :
      s.Alive q → (s.task q).prog = .act a k → l = l₁ ++ ⟨q, a, r, v⟩ :: l₂ →
      (∀ d ∈ l₁, d.p ≠ q) → (∀ d ∈ l₂, d.p ≠ q) → (a = .getENTRYHI → r = (s.task q).entryHi) →
      t.life q = .ready →
      t.task q = { s.task q with
        prog := k r, status := a.onStatus (s.task q).status, new := a.onNew (s.task q).new } →
      Course S s t l q
  | born (sAsid sStatus : Word) : s.life q = .unborn → q = S.child sAsid → (∀ d ∈ l, d.p ≠ q) →
      t.life q = .ready →
      t.task q = { s.task q with
        prog := S.start q, status := popStatus sStatus, entryHi := sAsid, new := fun _ => none } →
      Course S s t l q
  | traps {trap : Trap} {area : NewArea} {st : State} {rest : Prog} : s.life q = .ready →
      (s.task q).new trap = some area → l = [] → t.life q = .ready →
      (rest = (s.task q).prog ∧ ((s.task q).InUserMode ∨
        trap = .tlb ∧ ∃ virtAddr k, (s.task q).prog = .act (.load virtAddr) k) ∨
        trap = .sys ∧ st = terminateState ∧ (s.task q).prog = .leave .terminate ∧ rest = .done ()) →
      t.task q = { s.task q with
        prog := S.enter q area.sPc area.sAsid st
        status := popStatus area.sStatus
        entryHi := area.sAsid
        old := Function.update (s.task q).old trap ⟨rest, (s.task q).status, (s.task q).entryHi⟩ } →
      Course S s t l q
  | resumes {trap : Trap} {st : State} : s.life q = .ready → (s.task q).prog = .leave (.ldst trap st) →
      l = [] → t.life q = .ready →
      t.task q = { s.task q with
        prog := ((s.task q).old trap).prog
        status := ((s.task q).old trap).status
        entryHi := ((s.task q).old trap).entryHi } →
      Course S s t l q
  | again {asid i : Word} : s.life q = .ready → (s.task q).prog = .leave (.again asid i) → l = [] →
      t.life q = .ready → t.task q = { s.task q with prog := S.again q asid i } → Course S s t l q

/-- What the new entries `l` of the log tell. -/
structure Entries (S : Setup ι) (s t : Sys ι) (l : List (Did ι Act Word View)) : Prop where
  created : ∀ d ∈ l, ∀ sAsid sStatus, d.a = .createprocess sAsid sStatus →
    t.life (S.child sAsid) ≠ .unborn
  read : ∀ d ∈ l, ∀ f, d.a = .tables f → d.r = (f s.tables).1
  tables : ∀ d ∈ l, d.x.tables = d.a.onTables s.tables
  few : l.length ≤ 1 ∨ ∀ d ∈ l, d.a.Waits

/-- Every process has its course, and the log tells it. -/
def Courses (S : Setup ι) (s t : Sys ι) : Prop :=
  ∃ l, t.log = l ++ s.log ∧ (∀ q, Course S s t l q) ∧ Entries S s t l

variable {S : Setup ι} {s t m : Sys ι} {p q : ι} {a : Act} {k : Word → Prog} {r : Word}
  {l : List (Did ι Act Word View)}

omit [DecidableEq ι] in
theorem Entries.nil : Entries S s t [] := by
  refine ⟨?_, ?_, ?_, .inl (Nat.zero_le 1)⟩ <;> exact fun d hd => absurd hd List.not_mem_nil

omit [DecidableEq ι] in
theorem Courses.still (hlog : t.log = s.log) (htask : t.task = s.task) (hlife : t.life = s.life) :
    Courses S s t :=
  ⟨[], hlog, fun q => .rests (by simp) (congrFun htask q) (.inl (congrFun hlife q)), .nil⟩

theorem Course.other (hl : ∀ d ∈ l, d.p ≠ q) (hqp : q ≠ p)
    (htask : m.task q = s.task q) (hlife : m.life q = s.life q) :
    Course S s (m.answer p r) (⟨p, a, r, m.view⟩ :: l) q := by
  refine .rests ?_ ?_ (.inl ?_)
  · rw [List.forall_mem_cons]
    exact ⟨hqp.symm, hl⟩
  · rw [(answer_of_ne hqp).1, htask]
  · rw [(answer_of_ne hqp).2, hlife]

/-- `m` is `s` with the effect of the action of `p` on its task. -/
structure Prepares (s : Sys ι) (p : ι) (a : Act) (m : Sys ι) : Prop where
  log : m.log = s.log
  life : m.life = s.life
  self : m.task p = { s.task p with
    status := a.onStatus (s.task p).status, new := a.onNew (s.task p).new }
  others : ∀ q, q ≠ p → m.task q = s.task q
  tables : m.tables = a.onTables s.tables

theorem answer_born (hprog : (m.task p).prog = .act a k) (hq : m.life q ≠ .unborn) :
    (m.answer p r).life q ≠ .unborn := by
  rw [answer_eq hprog]
  by_cases hqp : q = p
  · rw [hqp]
    exact (Function.update_self ..).trans_ne nofun
  · exact (Function.update_of_ne hqp ..).trans_ne hq

omit [DecidableEq ι] in
theorem Entries.one {d : Did ι Act Word View}
    (hcreated : ∀ sAsid sStatus, d.a = .createprocess sAsid sStatus →
      t.life (S.child sAsid) ≠ .unborn)
    (hread : ∀ f, d.a = .tables f → d.r = (f s.tables).1)
    (htables : d.x.tables = d.a.onTables s.tables) : Entries S s t [d] := by
  refine ⟨?_, ?_, ?_, .inl le_rfl⟩ <;> rw [List.forall_mem_singleton]
  · exact hcreated
  · exact hread
  · exact htables

theorem Prepares.courses (h : s.Prepares p a m) (hp : s.Alive p) (hprog : (s.task p).prog = .act a k)
    (hr : a = .getENTRYHI → r = (s.task p).entryHi)
    (hchild : ∀ sAsid sStatus, a = .createprocess sAsid sStatus → s.life (S.child sAsid) ≠ .unborn)
    (hread : ∀ f, a = .tables f → r = (f s.tables).1) : Courses S s (m.answer p r) := by
  have hprog' : (m.task p).prog = .act a k := by
    rw [h.self]
    exact hprog
  refine ⟨[⟨p, a, r, m.view⟩], ?_, fun q => ?_, ?_⟩
  · rw [answer_log hprog', h.log]
    rfl
  swap
  · refine .one (fun sAsid sStatus ha => ?_) hread h.tables
    exact answer_born hprog' (h.life ▸ hchild sAsid sStatus ha)
  by_cases hqp : q = p
  · subst hqp
    refine .goesOn [] [] hp hprog rfl (by simp) (by simp) hr ?_ ?_
    · rw [answer_eq hprog']
      exact Function.update_self ..
    · rw [answer_eq hprog']
      change Function.update m.task q { m.task q with prog := k r } q = _
      rw [Function.update_self, h.self]
  · exact Course.other (l := []) (by simp) hqp (h.others q hqp) (congrFun h.life q)

theorem Prepares.ordinary (h : s.Prepares p a m) (hp : s.Alive p) (ha : a.Ordinary)
    (hprog : (s.task p).prog = .act a k) : Courses S s (m.answer p r) :=
  h.courses hp hprog (fun heq => absurd heq ha.ne.1) (fun x y heq => absurd heq (ha.ne.2.1 x y))
    fun f heq => absurd heq (ha.ne.2.2 f)

omit [DecidableEq ι] in
theorem Prepares.of_eq (hlog : m.log = s.log) (hlife : m.life = s.life) (htask : m.task = s.task)
    (hstatus : ∀ st, a.onStatus st = st) (hnew : ∀ new, a.onNew new = new)
    (htables : m.tables = a.onTables s.tables) : s.Prepares p a m where
  log := hlog
  life := hlife
  self := by rw [htask, hstatus, hnew]
  others q _ := congrFun htask q
  tables := htables

theorem Courses.alone (hlog : t.log = s.log) (hlife : ∀ q, q ≠ p → t.life q = s.life q)
    (htask : ∀ q, q ≠ p → t.task q = s.task q) (hp : Course S s t [] p) : Courses S s t := by
  refine ⟨[], hlog, fun q => ?_, .nil⟩
  by_cases hqp : q = p
  · rw [hqp]
    exact hp
  · exact .rests (by simp) (htask q hqp) (.inl (hlife q hqp))

theorem Courses.block (hlog : m.log = s.log) (hlife : m.life = s.life) (htask : m.task = s.task)
    (hp : s.life p = .ready) : Courses S s (m.block p) := by
  refine .alone (p := p) hlog (fun q hqp => ?_) (fun q _ => congrFun htask q) ?_
  · exact (Function.update_of_ne hqp ..).trans (congrFun hlife q)
  · refine .rests (by simp) (congrFun htask p) (.inr (.inl ⟨.inl hp, .inr ?_⟩))
    exact Function.update_self ..

theorem Courses.kill (hlog : m.log = s.log) (hlife : m.life = s.life) (htask : m.task = s.task)
    (p : ι) : Courses S s (m.kill S p) := by
  have hlog' : (m.kill S p).log = s.log := hlog
  refine ⟨[], hlog', fun q => .rests (by simp) (congrFun htask q) ?_, .nil⟩
  change (if S.root p then fun _ => Life.dead else Function.update m.life p .dead) q = s.life q ∨
    s.Alive q ∧ Alive _ q ∨ (if S.root p then fun _ => Life.dead else Function.update m.life p .dead) q = .dead
  split_ifs
  · exact .inr (.inr rfl)
  · by_cases hqp : q = p
    · subst hqp
      exact .inr (.inr (Function.update_self ..))
    · exact .inl ((Function.update_of_ne hqp ..).trans (congrFun hlife q))

theorem Courses.setTask (hlog : m.log = s.log) (hlife : m.life = s.life) (htask : m.task = s.task)
    {tk : Task} (hp : ∀ t : Sys ι, t.life p = s.life p → t.task p = tk → Course S s t [] p) :
    Courses S s (m.setTask p tk) := by
  refine .alone (p := p) hlog (fun q _ => congrFun hlife q) (fun q hqp => ?_) ?_
  · exact (Function.update_of_ne hqp ..).trans (congrFun htask q)
  · exact hp _ (congrFun hlife p) (Function.update_self ..)

theorem Courses.passUp (hlog : m.log = s.log) (hlife : m.life = s.life) (htask : m.task = s.task)
    (hp : s.life p = .ready) {trap : Trap} {st : State} {rest : Prog}
    (hrest : rest = (s.task p).prog ∧ ((s.task p).InUserMode ∨
        trap = .tlb ∧ ∃ virtAddr k, (s.task p).prog = .act (.load virtAddr) k) ∨
        trap = .sys ∧ st = terminateState ∧ (s.task p).prog = .leave .terminate ∧ rest = .done ()) :
    Courses S s (m.passUp S p trap st rest) := by
  unfold Sys.passUp
  cases hnew : (s.task p).new trap with
  | none =>
    simp only [htask, hnew]
    exact .kill hlog hlife htask p
  | some area =>
    simp only [htask, hnew]
    refine .setTask hlog hlife htask fun t ht htk => ?_
    exact .traps hp hnew rfl (ht.trans hp) hrest htk

theorem Courses.access (hp : s.life p = .ready) {code virtAddr : Word} {hit : Sys ι → Word → Sys ι}
    (hload : (s.task p).InUserMode ∨ ∃ virtAddr k, (s.task p).prog = .act (.load virtAddr) k)
    (hhit : ∀ tlb frame, Courses S s (hit { s with tlb := tlb } frame)) :
    Courses S s (s.access S p code virtAddr hit) := by
  rcases access_cases (S := S) s p code virtAddr hit with ⟨tlb, st, heq⟩ | ⟨tlb, frame, heq⟩
  · rw [heq]
    refine Courses.passUp (s := s) (m := { s with tlb := tlb }) rfl rfl rfl hp ?_
    exact .inl ⟨rfl, hload.imp_right fun h => ⟨rfl, h⟩⟩
  · rw [heq]
    exact hhit tlb frame

theorem waits_quiet (ha : a.Waits) :
    (∀ st, a.onStatus st = st) ∧ (∀ new, a.onNew new = new) ∧ a.Ordinary := by
  cases a with
  | passeren | verhogen | waitio => exact ⟨fun _ => rfl, fun _ => rfl, trivial⟩
  | _ => exact ha.elim

/-- The first of the waiters is answered as well. -/
theorem Courses.wakes (hprog : (m.task p).prog = .act a k) (hp : s.Alive p) (hm : m.log = s.log)
    (hlife : m.life = s.life) (htask : m.task = s.task) (htables : m.tables = s.tables)
    (ha : a.Waits) {a' : Act}
    {k' : Word → Prog} {r' : Word} (hqp : q ≠ p) (hq : s.Alive q)
    (hprog' : (s.task q).prog = .act a' k') (ha' : a'.Waits) :
    Courses S s ((m.answer p r).answer q r') := by
  have hprog₁ : (s.task p).prog = .act a k := by rw [← htask, hprog]
  have hprog₂ : ((m.answer p r).task q).prog = .act a' k' := by
    rw [(answer_of_ne hqp).1, htask, hprog']
  obtain ⟨hstatus, hnew, hord⟩ := waits_quiet ha
  obtain ⟨hstatus', hnew', hord'⟩ := waits_quiet ha'
  obtain ⟨hr, hc, hf⟩ := hord.ne
  obtain ⟨hr', hc', hf'⟩ := hord'.ne
  refine ⟨[⟨q, a', r', (m.answer p r).view⟩, ⟨p, a, r, m.view⟩], ?_, fun z => ?_, ?_⟩
  · rw [answer_log hprog₂, answer_log hprog, hm]
    rfl
  swap
  · refine ⟨?_, ?_, ?_, .inr ?_⟩ <;> rw [List.forall_mem_cons, List.forall_mem_singleton]
    · exact ⟨fun _ _ heq => absurd heq (hc' _ _), fun _ _ heq => absurd heq (hc _ _)⟩
    · exact ⟨fun _ heq => absurd heq (hf' _), fun _ heq => absurd heq (hf _)⟩
    · constructor
      · exact ((answer_tables m p r).trans htables).trans (hord'.tables _).symm
      · exact htables.trans (hord.tables _).symm
    · exact ⟨ha', ha⟩
  by_cases hzq : z = q
  · subst hzq
    refine .goesOn [] [⟨p, a, r, m.view⟩] hq hprog' rfl (by simp) ?_
      (fun h => absurd h hr') ?_ ?_
    · simpa using hqp.symm
    · rw [answer_eq hprog₂]
      exact Function.update_self ..
    · rw [answer_eq hprog₂]
      change Function.update (m.answer p r).task z { (m.answer p r).task z with prog := k' r' } z = _
      rw [Function.update_self, (answer_of_ne hqp).1, htask, hstatus', hnew']
  by_cases hzp : z = p
  · subst hzp
    refine .goesOn [⟨q, a', r', (m.answer z r).view⟩] [] hp hprog₁ rfl ?_ (by simp)
      (fun h => absurd h hr) ?_ ?_
    · simpa using hqp
    · rw [(answer_of_ne hzq).2, answer_eq hprog]
      exact Function.update_self ..
    · rw [(answer_of_ne hzq).1, answer_eq hprog]
      change Function.update m.task z { m.task z with prog := k r } z = _
      rw [Function.update_self, htask, hstatus, hnew]
  · refine .rests ?_ ?_ (.inl ?_)
    · intro d hd
      simp only [List.mem_cons, List.not_mem_nil, or_false] at hd
      rcases hd with rfl | rfl
      · exact Ne.symm hzq
      · exact Ne.symm hzp
    · rw [(answer_of_ne hzq).1, (answer_of_ne hzp).1, htask]
    · rw [(answer_of_ne hzq).2, (answer_of_ne hzp).2, hlife]

/-! ## All steps -/

theorem Sane.courses_V (h : s.Sane) (hp : s.life p = .ready) {x : Sem}
    (hprog : (s.task p).prog = .act (.verhogen x) k) : Courses S s (s.V p x) := by
  unfold Sys.V
  simp only
  generalize hm : ({ s with sem := Function.update s.sem x (s.sem x).up } : Sys ι) = m
  have hlog : m.log = s.log := log_congr (by rw [← hm])
  have hlife : m.life = s.life := by rw [← hm]
  have htask : m.task = s.task := by rw [← hm]
  have hprog' : (m.task p).prog = .act (.verhogen x) k := by rw [htask, hprog]
  cases hws : (s.sem x).waiters with
  | nil =>
    have hprep : s.Prepares p (.verhogen x) m :=
      .of_eq hlog hlife htask (fun _ => rfl) (fun _ => rfl) (by rw [← hm]; rfl)
    exact hprep.ordinary (.inl hp) trivial hprog
  | cons q ws =>
    obtain ⟨hb, k', hq⟩ := h.sem x q (hws ▸ List.mem_cons_self)
    have hqp : q ≠ p := by
      rintro rfl
      exact absurd (hp.symm.trans hb) (by decide)
    exact .wakes hprog' (.inl hp) hlog hlife htask (by rw [← hm]) trivial hqp (.inr hb) hq trivial

theorem Sane.courses_signal (h : s.Sane) (hlog : m.log = s.log) (hlife : m.life = s.life)
    (htask : m.task = s.task) (hdev : m.dev = s.dev) (htables : m.tables = s.tables)
    (i status : Word) : Courses S s (m.signal i status) := by
  unfold Sys.signal
  simp only [hdev]
  generalize hm' : ({ m with dev := Function.update s.dev i (s.dev i).up } : Sys ι) = m'
  have hlog' : m'.log = s.log := by rw [← hlog, ← hm']; rfl
  have hlife' : m'.life = s.life := by rw [← hm', hlife]
  have htask' : m'.task = s.task := by rw [← hm', htask]
  cases hws : (s.dev i).waiters with
  | nil => exact .still hlog' htask' hlife'
  | cons q ws =>
    obtain ⟨hb, l, d, u, k', hq, -⟩ := h.dev i q (hws ▸ List.mem_cons_self)
    have hprep : s.Prepares q (.waitio l d u) m' :=
      .of_eq hlog' hlife' htask' (fun _ => rfl) (fun _ => rfl) (by rw [← hm']; exact htables)
    exact hprep.ordinary (.inr hb) trivial hq

theorem Courses.creates {sAsid sStatus : Word} (hp : s.life p = .ready)
    (hprog : (s.task p).prog = .act (.createprocess sAsid sStatus) k)
    (hborn : s.life (S.child sAsid) = .unborn)
    (hlog : m.log = s.log) (hlife : m.life = Function.update s.life (S.child sAsid) .ready)
    (htask : m.task = Function.update s.task (S.child sAsid)
      { s.task (S.child sAsid) with
        prog := S.start (S.child sAsid), status := popStatus sStatus, entryHi := sAsid
        new := fun _ => none })
    (htables : m.tables = s.tables) : Courses S s (m.answer p SUCCESS) := by
  have hne : p ≠ S.child sAsid := by
    intro heq
    rw [heq, hborn] at hp
    cases hp
  have hself : m.task p = s.task p := by rw [htask, Function.update_of_ne hne]
  have hprog' : (m.task p).prog = .act (.createprocess sAsid sStatus) k := by rw [hself, hprog]
  refine ⟨[⟨p, .createprocess sAsid sStatus, SUCCESS, m.view⟩], ?_, fun q => ?_, ?_⟩
  · rw [answer_log hprog', hlog]
    rfl
  swap
  · refine .one (fun sAsid' sStatus' ha => ?_) (fun _ heq => Act.noConfusion heq) htables
    obtain ⟨rfl, rfl⟩ := Act.createprocess.inj ha
    refine answer_born hprog' ?_
    rw [hlife, Function.update_self]
    exact nofun
  by_cases hqp : q = p
  · subst hqp
    refine .goesOn [] [] (.inl hp) hprog rfl (by simp) (by simp) nofun ?_ ?_
    · rw [answer_eq hprog']
      exact Function.update_self ..
    · rw [answer_eq hprog']
      change Function.update m.task q { m.task q with prog := k SUCCESS } q = _
      rw [Function.update_self, hself]
      rfl
  by_cases hqc : q = S.child sAsid
  · refine .born sAsid sStatus (hqc ▸ hborn) hqc (by simpa using Ne.symm hqp) ?_ ?_
    · rw [(answer_of_ne hqp).2, hlife, hqc, Function.update_self]
    · rw [(answer_of_ne hqp).1, htask, hqc, Function.update_self]
  · refine Course.other (l := []) (by simp) hqp ?_ ?_
    · rw [htask, Function.update_of_ne hqc]
    · rw [hlife, Function.update_of_ne hqc]

theorem Sane.courses_perform (h : s.Sane) (hrun : s.running = some p)
    (hprog : (s.task p).prog = .act a k) : Courses S s (s.perform S p r a) := by
  have hp := h.running p hrun
  have hsame : (∀ st, a.onStatus st = st) → (∀ new, a.onNew new = new) → a.Ordinary → ∀ m : Sys ι,
      m.log = s.log → m.life = s.life → m.task = s.task → m.tables = s.tables →
        ∀ r, Courses S s (m.answer p r) :=
    fun hstatus hnew hord m hlog hlife htask htables r =>
      (Prepares.of_eq hlog hlife htask hstatus hnew (htables.trans (hord.tables _).symm)).ordinary
        (.inl hp) hord hprog
  cases a with
  | passeren x =>
    simp only [Sys.perform, Sys.P]
    split_ifs
    · refine hsame (fun _ => rfl) (fun _ => rfl) trivial _ ?_ ?_ ?_ ?_ 0 <;> rfl
    · exact .block rfl rfl rfl hp
  | verhogen x => exact h.courses_V hp hprog
  | waitio l d u =>
    simp only [Sys.perform, Sys.waitDev]
    split_ifs
    · exact .kill rfl rfl rfl p
    · refine hsame (fun _ => rfl) (fun _ => rfl) trivial _ ?_ ?_ ?_ ?_ r <;> rfl
    · exact .block rfl rfl rfl hp
  | createprocess sAsid sStatus =>
    simp only [Sys.perform]
    split_ifs with hborn
    · exact .creates hp hprog hborn rfl rfl rfl rfl
    · refine (Prepares.of_eq rfl rfl rfl (fun _ => rfl) (fun _ => rfl) rfl).courses (.inl hp) hprog
        (fun heq => Act.noConfusion heq) (fun sAsid' sStatus' ha => ?_) fun _ heq => Act.noConfusion heq
      obtain ⟨rfl, rfl⟩ := Act.createprocess.inj ha
      exact hborn
  | spectrapvec trap new =>
    simp only [Sys.perform]
    split_ifs
    · refine Prepares.ordinary (a := .spectrapvec trap new)
        ⟨rfl, rfl, ?_, fun q hq => Function.update_of_ne hq .., rfl⟩ (.inl hp) trivial hprog
      exact Function.update_self ..
    · exact .kill rfl rfl rfl p
  | setSTATUS status =>
    refine Prepares.ordinary (a := .setSTATUS status)
      ⟨rfl, rfl, ?_, fun q hq => Function.update_of_ne hq .., rfl⟩ (.inl hp) trivial hprog
    exact Function.update_self ..
  | getENTRYHI =>
    exact (Prepares.of_eq rfl rfl rfl (fun _ => rfl) (fun _ => rfl) rfl).courses (.inl hp) hprog
      (fun _ => rfl) (fun _ _ heq => Act.noConfusion heq) fun _ heq => Act.noConfusion heq
  | getSTATUS | setData1 | getData1 =>
    exact hsame (fun _ => rfl) (fun _ => rfl) trivial s rfl rfl rfl rfl _
  | TLBCLR => refine hsame (fun _ => rfl) (fun _ => rfl) trivial _ ?_ ?_ ?_ ?_ _ <;> rfl
  | tables f =>
    have hprep : s.Prepares p (.tables f) { s with tables := (f s.tables).2 } :=
      .of_eq rfl rfl rfl (fun _ => rfl) (fun _ => rfl) rfl
    refine hprep.courses (.inl hp) hprog (fun heq => Act.noConfusion heq)
      (fun _ _ heq => Act.noConfusion heq) fun f' heq => ?_
    obtain rfl := Act.tables.inj heq
    rfl
  | setCommand reg v | setData0 reg v =>
    simp only [Sys.perform]
    split_ifs
    all_goals refine hsame (fun _ => rfl) (fun _ => rfl) trivial _ ?_ ?_ ?_ ?_ 0 <;> rfl
  | load virtAddr =>
    refine .access hp (.inr ⟨virtAddr, k, hprog⟩) fun tlb frame => ?_
    refine hsame (fun _ => rfl) (fun _ => rfl) trivial _ ?_ ?_ ?_ ?_ _ <;> rfl

theorem Courses.leave (hp : s.life p = .ready) {l : Leave} (hprog : (s.task p).prog = .leave l) :
    Courses S s (s.leave S p l) := by
  cases l with
  | ldst trap st =>
    exact .setTask rfl rfl rfl fun t ht htk => .resumes hp hprog rfl (ht.trans hp) htk
  | user => exact .still rfl rfl rfl
  | terminate => exact .passUp rfl rfl rfl hp (.inr ⟨rfl, rfl, hprog, rfl⟩)
  | terminateprocess => exact .kill rfl rfl rfl p
  | again asid i =>
    exact .setTask rfl rfl rfl fun t ht htk => .again hp hprog rfl (ht.trans hp) htk

theorem Courses.user (hp : s.life p = .ready) (hmode : (s.task p).InUserMode) (act : UserAct) :
    Courses S s (s.user S p act) := by
  have htrap : ∀ trap st, Courses S s (s.passUp S p trap st (s.task p).prog) := fun trap st =>
    .passUp rfl rfl rfl hp (.inl ⟨rfl, .inl hmode⟩)
  cases act with
  | load virtAddr => exact .access hp (.inl hmode) fun tlb frame => .still rfl rfl rfl
  | store virtAddr v => exact .access hp (.inl hmode) fun tlb frame => .still rfl rfl rfl
  | syscall st =>
    simp only [Sys.user]
    split_ifs <;> exact htrap ..
  | progTrap st | tlbTrap st => exact htrap ..

theorem Sane.courses (h : s.Sane) {e : Event ι} (hcan : s.Can e) : Courses S s (s.step S e) := by
  cases e with
  | step r =>
    obtain ⟨p, hrun, -⟩ := hcan
    simp only [Sys.step, hrun, Sys.go]
    split
    · exact .still rfl rfl rfl
    · exact .leave (h.running p hrun) ‹_›
    · exact h.courses_perform hrun ‹_›
  | user act =>
    obtain ⟨p, hrun, hmode, -⟩ := hcan
    simp only [Sys.step, hrun]
    exact .user (h.running p hrun) hmode act
  | diskInt status =>
    simp only [Sys.step, Sys.diskInt]
    split
    · exact .still rfl rfl rfl
    · obtain ⟨h1, h2, -, -, h5, h6, h7⟩ := s.transfer_same ‹Word›
      refine h.courses_signal ?_ ?_ ?_ ?_ ?_ 0 status
      all_goals split_ifs
      · simp only [log, h7]
        rfl
      · rfl
      · exact h2
      · rfl
      · exact h1
      · rfl
      · exact h5
      · rfl
      · exact h6
      · rfl
  | devInt index status => exact h.courses_signal rfl rfl rfl rfl rfl index status
  | dispatch | tapeDma | tlbDrop => exact .still rfl rfl rfl

/-! ## What courses say -/

omit [DecidableEq ι] in
/-- An entry is by a process that lived at that action, and by nobody else. -/
theorem Course.entry {d : Did ι Act Word View} {l₁ l₂ : List (Did ι Act Word View)}
    (h : Course S s t l d.p) (hl : l = l₁ ++ d :: l₂) :
    s.Alive d.p ∧ (∃ k, (s.task d.p).prog = .act d.a k) ∧
      (d.a = .getENTRYHI → d.r = (s.task d.p).entryHi) ∧ ∀ e ∈ l₂, e.p ≠ d.p := by
  have hd : d ∈ l := hl ▸ List.mem_append_right _ List.mem_cons_self
  cases h with
  | rests hother => exact absurd rfl (hother d hd)
  | born _ _ _ _ hother => exact absurd rfl (hother d hd)
  | traps _ _ hnil | resumes _ _ hnil | again _ _ hnil =>
    rw [hnil] at hd
    nomatch hd
  | @goesOn m₁ m₂ a k r v halive hprog hm h₁ h₂ hr =>
    obtain ⟨-, hdid, rfl⟩ := unique_split (f := Did.p) (hl.symm.trans hm) rfl h₁ h₂
    obtain rfl : d.a = a := congrArg Did.a hdid
    obtain rfl : d.r = r := congrArg Did.r hdid
    exact ⟨halive, ⟨_, hprog⟩, hr, h₂⟩

omit [DecidableEq ι] in
/-- Who exists does not go out of existence. -/
theorem Course.born_of (h : Course S s t l q) (hq : s.life q ≠ .unborn) : t.life q ≠ .unborn := by
  cases h with
  | rests _ _ hlife =>
    rcases hlife with heq | ⟨-, halive⟩ | hdead
    · exact heq ▸ hq
    · exact halive.not_unborn
    · exact hdead ▸ nofun
  | born _ _ hunborn => exact absurd hunborn hq
  | goesOn _ _ _ _ _ _ _ _ hready => exact Life.ne_unborn hready
  | traps _ _ _ hready | resumes _ _ _ hready | again _ _ _ hready => exact Life.ne_unborn hready

end Sys

end Kaya.Phase3
