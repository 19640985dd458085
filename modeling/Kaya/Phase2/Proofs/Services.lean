import Kaya.Phase2.Proofs.Kill

/-!
# System calls and traps over the lists
-/

namespace Kaya

open Lib

variable {K : Layout} {a : Abs} {place : Pcb → Place} {p : Pcb} {w : Word}

/-! ## Dying -/

theorem die_runs (h : Placed K a place) (hfam : Family a.lk) (hcur : a.currentProc = some p)
    (hlast : a.lk.VictimsLast p) {lk : Ptrs} (hshape : Shape lk a.lk) :
    ∃ lk₁ lk₂, terminateprocess K (a.withLk lk).currentProc (a.withLk lk) =
        .ok () ((a.kill K p).withLk lk₁) ∧
      scheduler ((a.kill K p).withLk lk₁) =
        .error (a.die K p).cpu ((a.die K p).nuc.withLk lk₂) ∧
      Shape lk₂ (a.die K p).nuc.lk := by
  obtain ⟨lk₁, hkill, hshape₁⟩ := terminateprocess_runs h hfam hcur hlast lk hshape
  obtain ⟨place', h'⟩ := h.kill (victims h hfam hshape.trees.forest.uniqueParents hcur) hcur
  obtain ⟨lk₂, hsch, hshape₂⟩ := scheduler_refines h'.apart h'.sftBlkCnt_nonneg lk₁ hshape₁
  have hcur' : (a.withLk lk).currentProc = some p := hcur
  rw [hcur']
  exact ⟨lk₁, lk₂, hkill, hsch, hshape₂⟩

/-! ## Passing up -/

theorem pUoDHelper_refines (h : Placed K a place) (hfam : Family a.lk)
    (hcur : a.currentProc = some p) (new old : Word) (hlast : new = NULL → a.lk.VictimsLast p)
    (trap : Nucleus → State) {st : State} (htrap : ∀ lk, trap (a.withLk lk) = st) :
    Refines (pUoDHelper K new old trap) a (a.passUp K p new old st) := by
  intro lk hshape
  by_cases hnew : new = NULL
  · obtain ⟨lk₁, lk₂, hkill, hsch, hshape₂⟩ := die_runs h hfam hcur (hlast hnew) hshape
    rw [Abs.passUp_null hnew]
    refine ⟨lk₂, ?_, hshape₂⟩
    simp only [pUoDHelper, if_pos hnew, bind_run, get_run, hkill, hsch]
  · rw [Abs.passUp_of_ne hnew]
    refine ⟨lk, ?_, hshape⟩
    simp only [pUoDHelper, if_neg hnew, bind_run, modify_run, get_run, htrap, copyState_eq,
      LDST, throw_run]
    rfl

theorem progTrap_refines (h : Placed K a place) (hfam : Family a.lk)
    (hcur : a.currentProc = some p) (hlast : a.pcb.pNewPgm p = NULL → a.lk.VictimsLast p) :
    Refines (progTrapHandler K) a (a.progTrap K p) := by
  intro lk hshape
  obtain ⟨lk', hrun, hshape'⟩ := pUoDHelper_refines h hfam hcur (a.pcb.pNewPgm p)
    (a.pcb.pOldPgm p) hlast (·.pgmOld) (fun _ => rfl) lk hshape
  have hcur' : (a.withLk lk).currentProc = some p := hcur
  refine ⟨lk', ?_, hshape'⟩
  rw [Abs.progTrap, ← hrun]
  simp only [progTrapHandler, passUpOrDie, bind_run, get_run, hcur', deref, pure_run]
  rfl

theorem tlbTrap_refines (h : Placed K a place) (hfam : Family a.lk)
    (hcur : a.currentProc = some p) (hlast : a.pcb.pNewTlb p = NULL → a.lk.VictimsLast p) :
    Refines (tlbTrapHandler K) a (a.tlbTrap K p) := by
  intro lk hshape
  obtain ⟨lk', hrun, hshape'⟩ := pUoDHelper_refines h hfam hcur (a.pcb.pNewTlb p)
    (a.pcb.pOldTlb p) hlast (·.tlbOld) (fun _ => rfl) lk hshape
  have hcur' : (a.withLk lk).currentProc = some p := hcur
  refine ⟨lk', ?_, hshape'⟩
  rw [Abs.tlbTrap, ← hrun]
  simp only [tlbTrapHandler, passUpOrDie, bind_run, get_run, hcur', deref, pure_run]
  rfl

theorem passUpSys_refines (h : Placed K a place) (hfam : Family a.lk)
    (hcur : a.currentProc = some p) (hlast : a.pcb.pNewSys p = NULL → a.lk.VictimsLast p) :
    Refines (passUpOrDie K SYSTRAP) a
      (a.passUp K p (a.pcb.pNewSys p) (a.pcb.pOldSys p) a.sysOld) := by
  intro lk hshape
  obtain ⟨lk', hrun, hshape'⟩ := pUoDHelper_refines h hfam hcur (a.pcb.pNewSys p)
    (a.pcb.pOldSys p) hlast (·.sysOld) (fun _ => rfl) lk hshape
  have hcur' : (a.withLk lk).currentProc = some p := hcur
  refine ⟨lk', ?_, hshape'⟩
  rw [← hrun]
  simp only [passUpOrDie, bind_run, get_run, hcur', deref, pure_run]
  rfl

/-! ## The other services -/

theorem getcputime_refines (hcur : a.currentProc = some p) :
    Refines getcputime a (a.getcputime p) := by
  intro lk hshape
  refine ⟨lk, ?_, hshape⟩
  simp [getcputime, STCK, getPTime, deref, setSysOld, LDST, NucleusOf.withLk, hcur,
    Abs.getcputime, Abs.cpuTime]

theorem setAreas_run (hcur : a.currentProc = some p) (newArea : Payload Pcb → Pcb → Word)
    (set : Payload Pcb → Pcb → Word → Word → Payload Pcb) (lk : Ptrs) :
    setAreas newArea set (a.withLk lk) =
      if newArea a.pcb p = NULL then
        .error (.ldst a.sysOld)
          (({ a with pcb := set a.pcb p a.sysOld.a2 a.sysOld.a3 } : Abs).withLk lk)
      else .ok () (a.withLk lk) := by
  by_cases hnew : newArea a.pcb p = NULL
  · simp [setAreas, deref, LDST, NucleusOf.withLk, hcur, hnew]
  · simp [setAreas, deref, NucleusOf.withLk, hcur, hnew]

theorem spectrapvec_refines (h : Placed K a place) (hfam : Family a.lk)
    (hcur : a.currentProc = some p)
    (hlast : a.pcb.SpecKills a.sysOld p → a.lk.VictimsLast p) :
    Refines (spectrapvec K) a (a.spectrapvec K p) := by
  intro lk hshape
  have hsys : (a.withLk lk).sysOld = a.sysOld := rfl
  have hpt : PROGTRAP ≠ TLBTRAP := by decide
  have hst : SYSTRAP ≠ TLBTRAP := by decide
  have hsp : SYSTRAP ≠ PROGTRAP := by decide
  by_cases hkill : a.pcb.SpecKills a.sysOld p
  · obtain ⟨lk₁, lk₂, hterm, hsch, hshape₂⟩ := die_runs h hfam hcur (hlast hkill) hshape
    obtain ⟨h₁, h₂, h₃⟩ := hkill
    have hdie : a.spectrapvec K p = a.die K p := by
      simp only [Abs.spectrapvec, if_neg h₁, if_neg h₂, if_neg h₃]
    rw [hdie]
    refine ⟨lk₂, ?_, hshape₂⟩
    rw [not_and] at h₁ h₂ h₃
    by_cases ht : a.sysOld.a1 = TLBTRAP
    · simp only [spectrapvec, bind_run, get_run, hsys, ite_run, if_pos ht, setAreas_run hcur,
        if_neg (h₁ ht), hterm, hsch]
    · by_cases hp : a.sysOld.a1 = PROGTRAP
      · simp only [spectrapvec, bind_run, get_run, hsys, ite_run, if_neg ht, if_pos hp,
          setAreas_run hcur, if_neg (h₂ hp), hterm, hsch]
      · by_cases hs : a.sysOld.a1 = SYSTRAP
        · simp only [spectrapvec, bind_run, get_run, hsys, ite_run, if_neg ht, if_neg hp,
            if_pos hs, setAreas_run hcur, if_neg (h₃ hs), hterm, hsch]
        · simp only [spectrapvec, bind_run, get_run, hsys, ite_run, if_neg ht, if_neg hp,
            if_neg hs, hterm, hsch]
  · by_cases h₁ : a.sysOld.a1 = TLBTRAP ∧ a.pcb.pNewTlb p = NULL
    · refine ⟨lk, ?_, by simpa only [Abs.spectrapvec, if_pos h₁] using hshape⟩
      simp only [spectrapvec, bind_run, get_run, hsys, ite_run, if_pos h₁.1, setAreas_run hcur,
        if_pos h₁.2, Abs.spectrapvec, if_pos h₁]
    · by_cases h₂ : a.sysOld.a1 = PROGTRAP ∧ a.pcb.pNewPgm p = NULL
      · refine ⟨lk, ?_, by simpa only [Abs.spectrapvec, if_neg h₁, if_pos h₂] using hshape⟩
        have ht : a.sysOld.a1 ≠ TLBTRAP := by rw [h₂.1]; exact hpt
        simp only [spectrapvec, bind_run, get_run, hsys, ite_run, if_neg ht, if_pos h₂.1,
          setAreas_run hcur, if_pos h₂.2, Abs.spectrapvec, if_neg h₁, if_pos h₂]
      · have h₃ : a.sysOld.a1 = SYSTRAP ∧ a.pcb.pNewSys p = NULL := by
          by_contra h₃
          exact hkill ⟨h₁, h₂, h₃⟩
        refine ⟨lk, ?_, by
          simpa only [Abs.spectrapvec, if_neg h₁, if_neg h₂, if_pos h₃] using hshape⟩
        have ht : a.sysOld.a1 ≠ TLBTRAP := by rw [h₃.1]; exact hst
        have hp : a.sysOld.a1 ≠ PROGTRAP := by rw [h₃.1]; exact hsp
        simp only [spectrapvec, bind_run, get_run, hsys, ite_run, if_neg ht, if_neg hp,
          if_pos h₃.1, setAreas_run hcur, if_pos h₃.2, Abs.spectrapvec, if_neg h₁, if_neg h₂,
          if_pos h₃]

theorem waitio_run (s : Nucleus) :
    waitio K s =
      (if s.sysOld.a1 < DISKINT then do
        terminateprocess K (← get).currentProc
        scheduler
        waitSemDev (K.semDev (waitioIndex s.sysOld.a1 s.sysOld.a2 s.sysOld.a3))
      else waitSemDev (K.semDev (waitioIndex s.sysOld.a1 s.sysOld.a2 s.sysOld.a3))) s := rfl

theorem waitio_refines (h : Placed K a place) (hfam : Family a.lk) (hcur : a.currentProc = some p)
    (hslot : ¬ a.sysOld.a1 < DISKINT →
      (waitioIndex a.sysOld.a1 a.sysOld.a2 a.sysOld.a3).toNat < DEVICECNT)
    (hlast : a.sysOld.a1 < DISKINT → a.lk.VictimsLast p) :
    Refines (waitio K) a (if a.sysOld.a1 < DISKINT then a.die K p
      else a.waitDev p (K.semDev (waitioIndex a.sysOld.a1 a.sysOld.a2 a.sysOld.a3))) := by
  intro lk hshape
  by_cases hline : a.sysOld.a1 < DISKINT
  · obtain ⟨lk₁, lk₂, hterm, hsch, hshape₂⟩ := die_runs h hfam hcur (hlast hline) hshape
    have hline' : (a.withLk lk).sysOld.a1 < DISKINT := hline
    rw [if_pos hline]
    refine ⟨lk₂, ?_, hshape₂⟩
    rw [waitio_run, if_pos hline', bind_ok (get_run _), bind_ok hterm, bind_error hsch]
  · obtain ⟨lk', hrun, hshape'⟩ :=
      waitSemDev_refines h hcur (Layout.isDev_semDev (hslot hline)) lk hshape
    have hline' : ¬ (a.withLk lk).sysOld.a1 < DISKINT := hline
    rw [if_neg hline]
    refine ⟨lk', ?_, hshape'⟩
    rw [waitio_run, if_neg hline']
    exact hrun

/-! ## `sysCallHandler` -/

theorem sysSwitch_refines (h : Placed K a place) (hfam : Family a.lk)
    (hcur : a.currentProc = some p)
    (hsem : a.sysOld.a0 = VERHOGEN ∨ a.sysOld.a0 = PASSEREN → K.UserWord a.sysOld.a1)
    (hslot : a.sysOld.a0 = WAITIO → ¬ a.sysOld.a1 < DISKINT →
      (waitioIndex a.sysOld.a1 a.sysOld.a2 a.sysOld.a3).toNat < DEVICECNT)
    (hlast : a.pcb.SwitchKills a.sysOld p → a.lk.VictimsLast p) :
    Refines (sysSwitch K a.sysOld.a0) a (a.sysSwitch K p a.sysOld.a0) := by
  unfold sysSwitch Abs.sysSwitch
  split_ifs with h1 h2 h3 h4 h5 h6 h7 h8 h9
  · exact createprocess_refines h hfam hcur
  · intro lk hshape
    obtain ⟨lk₁, lk₂, hterm, hsch, hshape₂⟩ := die_runs h hfam hcur (hlast (.inl h2)) hshape
    refine ⟨lk₂, ?_, hshape₂⟩
    rw [bind_ok (get_run _), bind_ok hterm, hsch]
  · exact V_refines h (hsem (.inl h3)).semAddr
  · exact P_refines h hcur (hsem (.inr h4)).semAddr (hsem (.inr h4)).2.2
  · exact spectrapvec_refines h hfam hcur (fun hk => hlast (.inr (.inl ⟨h5, hk⟩)))
  · exact getcputime_refines hcur
  · exact waitSemDev_refines h hcur Layout.isDev_clock
  · have hrun := waitio_refines h hfam hcur (hslot h8)
      (fun hline => hlast (.inr (.inr (.inl ⟨h8, hline⟩))))
    rwa [if_pos h9] at hrun
  · have hrun := waitio_refines h hfam hcur (hslot h8)
      (fun hline => hlast (.inr (.inr (.inl ⟨h8, hline⟩))))
    rwa [if_neg h9] at hrun
  · apply passUpSys_refines h hfam hcur
    intro hnew
    refine hlast (.inr (.inr (.inr ⟨?_, hnew⟩)))
    intro hrange
    simp only [CREATEPROCESS, TERMINATEPROCESS, VERHOGEN, PASSEREN, SPECTRAPVEC, GETCPUTIME,
      WAITCLOCK, WAITIO] at *
    bv_omega

theorem sysCallHandler_run (s : Nucleus) :
    sysCallHandler K s =
      (if s.sysOld.Privileged then do
        modify fun s : Nucleus => { s with pgmOld := s.sysOld }
        modify fun s : Nucleus => { s with pgmOld := s.pgmOld.reserved }
        progTrapHandler K
        setSysOld (← get).sysOld.advance
        sysSwitch K s.sysOld.a0
      else do
        setSysOld (← get).sysOld.advance
        sysSwitch K s.sysOld.a0) s := rfl

theorem sysCall_refines (h : Placed K a place) (hfam : Family a.lk) (hcur : a.currentProc = some p)
    (hsem : a.sysOld.a0 = VERHOGEN ∨ a.sysOld.a0 = PASSEREN → ¬ a.sysOld.Privileged →
      K.UserWord a.sysOld.a1)
    (hslot : a.sysOld.a0 = WAITIO → ¬ a.sysOld.Privileged → ¬ a.sysOld.a1 < DISKINT →
      (waitioIndex a.sysOld.a1 a.sysOld.a2 a.sysOld.a3).toNat < DEVICECNT)
    (hpriv : a.sysOld.Privileged → a.pcb.pNewPgm p = NULL → a.lk.VictimsLast p)
    (hlast : ¬ a.sysOld.Privileged → a.pcb.SwitchKills a.sysOld p → a.lk.VictimsLast p) :
    Refines (sysCallHandler K) a (a.sysCall K p) := by
  intro lk hshape
  by_cases hp : a.sysOld.Privileged
  · have hp' : (a.withLk lk).sysOld.Privileged := hp
    let b : Abs := { a with pgmOld := a.sysOld.reserved }
    have hb : Placed K b place := h.congr rfl rfl rfl rfl rfl rfl rfl
    obtain ⟨lk', hrun, hshape'⟩ := progTrap_refines hb hfam hcur (hpriv hp) lk hshape
    have hcall : a.sysCall K p = b.progTrap K p := by
      rw [Abs.sysCall, if_pos hp]
    rw [hcall]
    refine ⟨lk', ?_, hshape'⟩
    rw [sysCallHandler_run, if_pos hp', bind_ok (modify_run _ _), bind_ok (modify_run _ _)]
    exact bind_error hrun
  · have hp' : ¬ (a.withLk lk).sysOld.Privileged := hp
    let b : Abs := { a with sysOld := a.sysOld.advance }
    have hb : Placed K b place := h.congr rfl rfl rfl rfl rfl rfl rfl
    obtain ⟨lk', hrun, hshape'⟩ := sysSwitch_refines hb hfam hcur (fun hc => hsem hc hp)
      (fun hc => hslot hc hp) (hlast hp) lk hshape
    have hcall : a.sysCall K p = b.sysSwitch K p a.sysOld.a0 := by
      rw [Abs.sysCall, if_neg hp]
    rw [hcall]
    refine ⟨lk', ?_, hshape'⟩
    rw [sysCallHandler_run, if_neg hp', bind_ok (get_run _), setSysOld, bind_ok (modify_run _ _)]
    exact hrun

end Kaya
