import Kaya.Phase2.Machine
import Kaya.Phase3.Proofs.DiskInv

/-!
# One caller at a time on disk 0

Between the P and the V of a call of `diskIO` nobody else touches the disk, so the heads are
where the call sought them and a status is that of the caller's own command.
-/

namespace Kaya.Phase3

open Lib

variable {ι : Type} [DecidableEq ι]

def Act.WritesDisk : Act → Prop
  | .setCommand reg _ | .setData0 reg _ | .setData1 reg _ => reg = Sys.disk0Reg
  | _ => False

/-- The first command since a P on the disk, before and after the action. -/
def Act.seek : Act → Option Word → Option Word
  | .passeren x, o => if x = disk0sem then none else o
  | .setCommand reg v, o => if reg = Sys.disk0Reg then some (o.getD v) else o
  | _, o => o

/-- The first command of `p` since its P on the disk. -/
def sought (p : ι) : List (Did ι Act Word View) → Option Word
  | [] => none
  | d :: log => if d.p = p then d.a.seek (sought p log) else sought p log

/-- What the log and the trace of a run say about the disk. -/
structure DiskSafe (s : Sys ι) : Prop where
  /-- Only the process between its P and its V writes to the disk. -/
  exclusive : ∀ d log, d :: log <:+ s.log → d.a.WritesDisk →
    ∀ p, Holds disk0sem p log ↔ p = d.p
  /-- The first command of a call seeks; at the next one the heads are where it sought. -/
  positioned : ∀ d log v, d :: log <:+ s.log → d.a = .setCommand Sys.disk0Reg v →
    sought d.p log = none ∧ opOf v = SEEKCYL ∨ ∃ w, sought d.p log = some w ∧ d.x.cyl = cylOf w
  /-- A status is that of a command of the process that gets it. -/
  own : ∀ d tr l n u, .did d :: tr <:+ s.trace → d.a = .waitio l n u → OnDisk0 l n u →
    ∃ tr', tr = .done d.r :: tr' ∧ pending tr' = some d.p

/-! ## What the rules say about a log -/

/-- The first command of the call is `o`. -/
def Stage.Seeks : Stage → Option Word → Prop
  | .owned _, o => o = none
  | .seeking w, o | .positioned w _, o | .loaded w _, o | .moving w, o => o = some w
  | _, _ => True

section Step

variable {g : Stage} {a : Act} {r : Word} {x : View}

theorem next_seeks {o : Option Word} (hmay : diskRules.may g a) (h : g.Seeks o) :
    (diskRules.next g a r x).Seeks (a.seek o) := by
  cases a with
  | passeren y =>
    simp only [diskRules, Act.seek]
    split_ifs
    · rfl
    · exact h
  | verhogen y =>
    simp only [diskRules, Act.seek]
    split_ifs
    · exact trivial
    · exact h
  | waitio l d u =>
    simp only [diskRules, Act.seek]
    split_ifs
    · cases g with
      | seeking w =>
        simp only [Stage.answered]
        split_ifs
        · exact h
        · exact trivial
      | moving w =>
        simp only [Stage.answered]
        split_ifs <;> exact trivial
      | _ => exact h
    · exact h
  | setCommand reg v =>
    simp only [diskRules, Act.seek] at hmay ⊢
    split_ifs at hmay ⊢
    · rcases hmay with ⟨rfl, -⟩ | ⟨w, rfl⟩
      · obtain rfl : o = none := h
        rfl
      · obtain rfl : o = some w := h
        rfl
    · exact h
  | setData0 reg v =>
    simp only [diskRules, Act.seek] at hmay ⊢
    split_ifs at hmay ⊢
    · obtain ⟨w, b, rfl⟩ := hmay
      exact h
    · exact h
  | setSTATUS status => cases g <;> exact h
  | _ => exact h

theorem Act.WritesDisk.may (hw : a.WritesDisk) (hmay : diskRules.may g a) : g ≠ .out := by
  rintro rfl
  cases a with
  | setCommand reg v =>
    obtain rfl : reg = Sys.disk0Reg := hw
    simp [diskRules] at hmay
  | setData0 reg v =>
    obtain rfl : reg = Sys.disk0Reg := hw
    simp [diskRules] at hmay
  | setData1 reg v => exact hmay.1 hw
  | _ => exact hw

end Step

namespace Sys

variable {p : ι} {log : List (Did ι Act Word View)} {d : Did ι Act Word View} {s : Sys ι}

theorem stage_seeks (h : DiskAllowed log) (p : ι) : (stage log p).Seeks (sought p log) := by
  induction log with
  | nil => exact trivial
  | cons d log ih =>
    obtain ⟨hmay, hlog⟩ := h
    rw [sought]
    by_cases hp : d.p = p
    · subst hp
      rw [stage_cons_self rfl, if_pos rfl]
      exact next_seeks hmay (ih hlog)
    · rw [stage_cons_of_ne hp, if_neg hp]
      exact ih hlog

theorem exclusive_of_log (hallowed : DiskAllowed log) (hex : Exclusive disk0sem log)
    {log' : List (Did ι Act Word View)} (hsuf : d :: log' <:+ log) (hw : d.a.WritesDisk) (p : ι) :
    Holds disk0sem p log' ↔ p = d.p := by
  obtain ⟨l, rfl⟩ := hsuf
  obtain ⟨hmay, hallowed'⟩ := hallowed.suffix
  have hd : Holds disk0sem d.p log' := (holds_iff hallowed' d.p).mpr (Act.WritesDisk.may hw hmay)
  constructor
  · exact fun hp => hex.suffix.2.unique hp hd
  · rintro rfl
    exact hd

theorem positioned_of_log (hallowed : DiskAllowed log) (hadm : DiskAdmitted log)
    {log' : List (Did ι Act Word View)} {v : Word} (hsuf : d :: log' <:+ log)
    (ha : d.a = .setCommand disk0Reg v) :
    sought d.p log' = none ∧ opOf v = SEEKCYL ∨
      ∃ w, sought d.p log' = some w ∧ d.x.cyl = cylOf w := by
  obtain ⟨l, rfl⟩ := hsuf
  obtain ⟨hmay, hallowed'⟩ := hallowed.suffix
  have hseeks := stage_seeks hallowed' d.p
  have hadm := hadm.suffix.1
  change diskRules.may (stage log' d.p) d.a at hmay
  change diskRules.admits (stage log' d.p) d.a d.r d.x at hadm
  rw [ha] at hmay hadm
  simp only [diskRules, if_true] at hmay hadm
  rcases hmay with ⟨hg, hop⟩ | ⟨w, hg⟩
  · rw [hg] at hseeks
    exact .inl ⟨hseeks, hop⟩
  · rw [hg] at hseeks
    exact .inr ⟨w, hseeks, hadm trivial w true hg⟩

theorem DiskTrace.safe (h : s.DiskTrace) : DiskSafe s where
  exclusive d log hsuf hw p := exclusive_of_log h.allowed h.exclusive hsuf hw p
  positioned d log v hsuf ha := positioned_of_log h.allowed h.admitted hsuf ha
  own d tr l n u hsuf ha hon := by
    obtain ⟨tr', htr'⟩ := hsuf
    have hown := h.own
    rw [← htr'] at hown
    refine hown.suffix.1 ?_
    rw [ha]
    exact hon

end Sys

variable {K : Layout} {junk : Word} {start : ι → Prog} {child : Word → ι} {root : ι → Bool}

theorem Sys.Reaches.diskSafe (hstart : ∀ p, DiskClient (start p)) {init : Sys ι → Prop}
    (hinit : ∀ s, init s → s.Fresh ∧ ∀ p, s.life p = .ready → DiskClient (s.task p).prog)
    {h : List (Sys ι × Event ι)}
    {s : Sys ι} (hrun : Reaches (support K junk start child root) init h s) : DiskSafe s := by
  have hS : (support K junk start child root).Obeys (fun _ => diskRules) (fun _ => .out)
      fun _ => .out := support_obeys K hstart
  refine (hrun.diskTrace hS fun s hs => ⟨(hinit s hs).1, ?_⟩).1.safe
  exact (hinit s hs).1.live fun p hp => ((hinit s hs).2 p hp).follows.mono fun _ _ _ => trivial

/-- In every run of processes that use disk 0 by `diskIO` alone, one call at a time has the
disk. -/
theorem diskIO_excludes (hstart : ∀ p, DiskClient (start p)) {h : List (Sys ι × Event ι)}
    {s : Sys ι}
    (hrun : Sys.Reaches (support K junk start child root)
      (fun s => s.Fresh ∧ ∀ p, s.life p = .ready → DiskClient (s.task p).prog) h s) : DiskSafe s :=
  hrun.diskSafe hstart fun _ hs => hs

def twoCallers : Sys Bool where
  task p :=
    { prog := diskIO 0 (if p then 1 else 2) 0 disk0sem 0 DISKDMABUFFER WRITEBLK
      status := INTERON >>> 2
      entryHi := 0
      new := fun _ => none
      old := fun _ => ⟨.done (), 0, 0⟩ }
  life _ := .ready
  running := none
  sem x := .start x.first x.first_nonneg
  dev _ := .zero
  tables := .init
  disk := ⟨0, 0, none, fun _ _ _ _ => 0⟩
  tlb _ _ := none
  ram _ _ := 0
  trace := []

/-- The first caller waits for its seek, the other one for the semaphore. -/
def seekEvents : List (Event Bool) :=
  [.dispatch true, .step 0, .dispatch false, .step 0, .dispatch true, .step 0, .step 0, .step 0,
    .step 0, .diskInt READY]

theorem diskIO_excludes_two : DiskSafe (seekEvents.foldl
    (Sys.step (support .sample 0 (fun _ => uProcInit) (fun _ => true) fun _ => false))
      twoCallers) := by
  have hfresh : twoCallers.Fresh :=
    ⟨fun _ => .inr rfl, rfl, fun _ => rfl, fun _ _ => rfl, fun _ => rfl, fun _ => rfl, rfl, rfl,
      rfl, rfl⟩
  have hclient : ∀ p, twoCallers.life p = .ready → DiskClient (twoCallers.task p).prog :=
    fun _ _ => .call
  have hstart : Sys.Reaches (support .sample 0 (fun _ => uProcInit) (fun _ => true) fun _ => false)
      (fun s => s.Fresh ∧ ∀ p, s.life p = .ready → DiskClient (s.task p).prog) [] twoCallers :=
    .start ⟨hfresh, hclient⟩
  have hok : AllOk (Sys.step (support .sample 0 (fun _ => uProcInit) (fun _ => true)
      fun _ => false)) Sys.Can twoCallers seekEvents := by
    have hhalt : ∀ s : Sys Bool, s.life true ≠ .dead → ¬ s.Halted := fun s hs hh => hs (hh.dead _)
    refine ⟨⟨rfl, hhalt _ nofun, nofun⟩, ⟨true, rfl, id⟩, ⟨rfl, hhalt _ nofun, ?_⟩,
      ⟨false, rfl, id⟩, ⟨rfl, hhalt _ nofun, nofun⟩, ⟨true, rfl, id⟩, ⟨true, rfl, id⟩,
      ⟨true, rfl, id⟩, ⟨true, rfl, id⟩, ⟨nofun, hhalt _ nofun, nofun⟩, trivial⟩
    intro p hp
    obtain rfl : true = p := Option.some.inj hp
    exact (rfl : (INTERON >>> 2) &&& 1 = 1)
  obtain ⟨h, hrun⟩ := hstart.events seekEvents hok
  exact diskIO_excludes (fun _ => uProcInit_client) hrun

/-- Also in every run of Kaya. -/
theorem kaya_diskSafe {h : List (Sys Word × Event Word)} {s : Sys Word}
    (hrun : Sys.Reaches (kaya K junk) Sys.Booted h s) : DiskSafe s := by
  refine hrun.diskSafe (fun _ => uProcInit_client) fun s hs => ⟨hs.toFresh, fun p hp => ?_⟩
  rw [hs.prog hp]
  exact test_client

end Kaya.Phase3
