import Kaya.Phase2.Proofs.Sound

/-!
# What `main` leaves

The first process is the head of the free list: the entry of `pcbArr` that
`initPcbs` freed last.
-/

namespace Kaya

open Lib

variable {K : Layout}

theorem clearSemDevs_run (is : List Nat) (s : Nucleus) :
    clearSemDevs K is s = .ok () { s with
      mem := is.foldl (fun m i => Function.update m (K.semDev (BitVec.ofNat 32 i)) 0) s.mem } := by
  induction is generalizing s with
  | nil => rfl
  | cons i is ih =>
      have hstore : storeInt (K.semDev (BitVec.ofNat 32 i)) 0 s =
        .ok () { s with mem := Function.update s.mem (K.semDev (BitVec.ofNat 32 i)) 0 } := rfl
      rw [clearSemDevs, bind_ok hstore, ih]
      rfl

theorem payload_reset {s : Phase1 Pcb Semd} (h : ∀ p, IsReset s p) : s.pcb = Payload.reset := by
  obtain ⟨lk, pS, pSemAdd, pTime, o₁, o₂, o₃, n₁, n₂, n₃⟩ := s
  simp only [Payload.reset, Payload.mk.injEq]
  exact ⟨funext fun p => (h p).state, funext fun p => (h p).semAdd, funext fun p => (h p).time,
    funext fun p => (h p).areas.1, funext fun p => (h p).areas.2.1,
    funext fun p => (h p).areas.2.2.1, funext fun p => (h p).areas.2.2.2.1,
    funext fun p => (h p).areas.2.2.2.2.1, funext fun p => (h p).areas.2.2.2.2.2⟩

theorem clear_reset (p : Pcb) : Payload.clear Payload.reset p = Payload.reset := by
  simp [Payload.clear, Payload.reset]

def Lists.init : Lists :=
  ⟨(List.finRange MAXPROC).reverse, [], fun _ => [], fun _ => []⟩

theorem init_spec (s : Nucleus) :
    ∃ s' lk, phase1 (initPcbs (List.finRange MAXPROC)) s = .ok () s' ∧
      phase1 (initASL (List.finRange (MAXPROC + 2))) s' =
        .ok () { s with lk := lk, pcb := Payload.reset } ∧
      Shape { lk with readyQue := none } Lists.init := by
  obtain ⟨t, hrun, hchain, hreset⟩ :=
    initPcbs_spec (⟨s.lk.toLinks, s.pcb⟩ : Phase1 Pcb Semd) (List.nodup_finRange MAXPROC)
  obtain ⟨sn, sa, sq, act, fr, hrun', hasl⟩ :=
    initASL_spec t (List.nodup_finRange (MAXPROC + 2)) (List.mem_finRange) (by decide)
  have hall : ∀ p, IsReset t p := fun p => hreset p (List.mem_finRange p)
  have hpcb : t.pcb = Payload.reset := payload_reset hall
  let t' := t.resemd sn sa sq act fr
  refine ⟨{ s with lk.toLinks := t.lk, pcb := t.pcb }, { t'.lk with readyQue := s.lk.readyQue },
    ?_, ?_, ⟨hchain, rfl, hasl⟩, ?_, ?_⟩
  · rw [phase1_run, hrun]
  · have hrun₂ : initASL (List.finRange (MAXPROC + 2)) ⟨t.lk, t.pcb⟩ = .ok () t' := hrun'
    rw [phase1_run, hrun₂, ← hpcb]
    rfl
  · constructor
    · intro q
      exact (hall q).child
    · intro p q
      simp [Lists.init, t', Phase1.resemd, (hall p).prnt]
  · intro p _
    exact (hall p).sib

/-- `main` leaves the nucleus as the scheduler leaves it after its first call. -/
theorem boot_represents (K : Layout) (s : Nucleus) :
    ∃ lk, boot K s = ⟨(Abs.first K s).schedule.nuc.withLk lk, (Abs.first K s).schedule.cpu⟩ ∧
      Shape lk (Abs.first K s).schedule.nuc.lk := by
  let s₀ : Nucleus := { s with
    sysNew := newArea K K.sysCallHandler s.sysNew
    pgmNew := newArea K K.progTrapHandler s.pgmNew
    tlbNew := newArea K K.tlbTrapHandler s.tlbNew
    intNew := newArea K K.ioTrapHandler s.intNew }
  obtain ⟨s₁, lk₁, h₁, h₂, hshape₁⟩ := init_spec s₀
  -- the first process leaves the free list
  let p : Pcb := Abs.firstPcb
  have hfree : (List.finRange MAXPROC).reverse = p :: (List.finRange MAXPROC).reverse.tail := by
    decide
  have hap : Apart Lists.init := by
    constructor <;> simp [Lists.init, QueuesDisjoint]
  have hap₂ : Apart { Lists.init with free := (List.finRange MAXPROC).reverse.tail } := by
    constructor <;> simp [Lists.init, QueuesDisjoint]
  have hout : Lists.Out { Lists.init with free := (List.finRange MAXPROC).reverse.tail } p := by
    refine ⟨?_, by simp [Lists.init], by simp [Lists.init]⟩
    have hnd : (List.finRange MAXPROC).reverse.Nodup :=
      List.nodup_reverse.mpr (List.nodup_finRange MAXPROC)
    rw [hfree] at hnd
    exact (List.nodup_cons.mp hnd).1
  let lk₂ : Ptrs := Ptrs.acquire { lk₁ with readyQue := none } p
  have hq₂ := hshape₁.queues.acquire hap hfree
  have hprnt : lk₁.pPrnt p = none := by
    cases hq : lk₁.pPrnt p with
    | none => rfl
    | some q => exact absurd ((hshape₁.trees.forest.prnt p q).mp hq) (by simp [Lists.init])
  have ht₂ : Trees lk₂.toLinks Lists.init.kids :=
    (hshape₁.trees.unlinkTree hprnt rfl).congr ⟨rfl, rfl, rfl⟩
  let b : Abs := { Abs.first K s with
    procCnt := 0, startTOD := s.startTOD, intervalTmr := s.intervalTmr, reads := s.reads
    trace := s.trace }
  obtain ⟨lk₃, hins, hq₃, ht₃, -⟩ := insertReady_spec (s := b.withLk lk₂) hq₂ hap₂ hout
  have hshape₃ : Shape lk₃ (Abs.first K s).lk := ⟨hq₃, ht₂.congr ht₃⟩
  have hap₃ : Apart (Abs.first K s).lk := by
    constructor
    · simp only [Abs.first]
      decide
    all_goals simp [Abs.first, QueuesDisjoint]
  obtain ⟨lk₄, hsch, hshape₄⟩ := scheduler_refines hap₃ (le_refl 0) lk₃ hshape₃
  refine ⟨lk₄, ?_, hshape₄⟩
  have hhead : ({ lk₁ with readyQue := none } : Ptrs).pcbFree = some p := by
    have hf := hshape₁.queues.free
    rw [Lists.init, hfree] at hf
    exact hf.1
  have hmain : main K s = .error (Abs.first K s).schedule.cpu
      ((Abs.first K s).schedule.nuc.withLk lk₄) := by
    let s₂ : Nucleus := b.withLk { lk₁ with readyQue := none }
    have halloc : phase1 allocPcb { s₂ with pcb := Payload.reset } =
        .ok (some p) { s₂ with lk := lk₂, pcb := Payload.reset } := by
      rw [allocPcb_run hhead]
      simp only [clear_reset, lk₂, s₂, NucleusOf.withLk]
    rw [main, bind_ok (modify_run _ _), bind_ok h₁, bind_ok h₂, bind_ok (modify_run _ _),
      bind_ok (clearSemDevs_run _ _)]
    refine (bind_ok halloc).trans ?_
    have hget : getPS (some p) { s₂ with lk := lk₂, pcb := Payload.reset } =
      .ok resetState { s₂ with lk := lk₂, pcb := Payload.reset } := rfl
    refine (bind_ok hget).trans ((bind_ok (setPS_run _ _ _)).trans ((bind_ok hins).trans ?_))
    exact hsch
  rw [boot, Machine.enter, hmain]

theorem clear_of_ne {w : Word} (is : List Nat) (mem : Word → Word)
    (hne : ∀ i ∈ is, w ≠ K.semDev (BitVec.ofNat 32 i)) :
    is.foldl (fun m i => Function.update m (K.semDev (BitVec.ofNat 32 i)) 0) mem w = mem w := by
  induction is generalizing mem with
  | nil => rfl
  | cons i is ih =>
      rw [List.foldl_cons, ih _ (fun j hj => hne j (by simp [hj]))]
      exact Function.update_of_ne (hne i (by simp)) _ _

/-- `main` clears the entries of `semDevArray` and no other word. -/
theorem first_mem_of_not_dev {w : Word} (s : Nucleus) (hw : ¬ K.IsDev w) :
    (Abs.first K s).mem w = s.mem w := by
  apply clear_of_ne
  rintro i hi rfl
  have hlt : i < DEVICECNT := List.mem_range.mp hi
  have hcnt : DEVICECNT = 49 := rfl
  apply hw
  apply Layout.isDev_semDev
  rw [BitVec.toNat_ofNat, Nat.mod_eq_of_lt (by omega)]
  exact hlt

theorem first_mem_dev {i : Word} (s : Nucleus) (hi : i.toNat < DEVICECNT) :
    (Abs.first K s).mem (K.semDev i) = 0 := by
  have hclear : ∀ (is : List Nat) (mem : Word → Word), i.toNat ∈ is ∨ mem (K.semDev i) = 0 →
      is.foldl (fun m i => Function.update m (K.semDev (BitVec.ofNat 32 i)) 0) mem
        (K.semDev i) = 0 := by
    intro is
    induction is with
    | nil =>
        rintro mem (hmem | hmem)
        · simp at hmem
        · exact hmem
    | cons j js ih =>
        intro mem hmem
        apply ih
        by_cases hj : K.semDev i = K.semDev (BitVec.ofNat 32 j)
        · right
          rw [hj]
          exact Function.update_self ..
        · rcases hmem with hmem | hmem
          · rcases List.mem_cons.mp hmem with heq | hmem
            · rw [← heq, BitVec.ofNat_toNat, BitVec.setWidth_eq] at hj
              exact absurd rfl hj
            · exact .inl hmem
          · exact .inr ((Function.update_of_ne hj _ _).trans hmem)
  exact hclear _ _ (.inl (List.mem_range.mpr hi))

theorem first_placed (K : Layout) (s : Nucleus) : Placed K (Abs.first K s)
    (fun p => if p = Abs.firstPcb then .ready else .free) := by
  have hfree : ∀ p : Pcb, p ∈ (List.finRange MAXPROC).reverse.tail ↔ p ≠ Abs.firstPcb := by
    decide
  constructor
  case spot =>
    intro p
    by_cases hp : p = Abs.firstPcb
    · rw [if_pos hp]
      refine ⟨?_, ?_, ?_, ?_⟩
      case refine_1 => exact (hfree p).trans (by simp [hp])
      all_goals simp [Abs.first, hp]
    · rw [if_neg hp]
      refine ⟨?_, ?_, ?_, ?_⟩
      case refine_1 => exact (hfree p).trans (by simp [hp])
      all_goals simp [Abs.first, hp]
  case semAdd =>
    intro p
    by_cases hp : p = Abs.firstPcb
    · rw [if_pos hp]
      rfl
    · rw [if_neg hp]
      rfl
  case addr =>
    intro p w hp
    split_ifs at hp
  case procCnt =>
    show (1 : Int) = _
    decide
  case sftBlkCnt =>
    show (0 : Int) = _
    rw [eq_comm, count_eq_zero]
    intro p
    by_cases hp : p = Abs.firstPcb
    · rw [if_pos hp]
      exact id
    · rw [if_neg hp]
      exact id

theorem first_sound (K : Layout) (s : Nucleus) : Sound K (Abs.first K s).schedule := by
  apply schedule_sound (first_placed K s)
  · refine ⟨⟨fun _ => 0, ?_⟩, ?_, ?_⟩ <;> simp [Abs.first]
  · exact List.nodup_singleton _
  · rfl

end Kaya
