import Kaya.Phase3.Proofs.Ledger

/-!
# The processes under the rules for pages

What holds of a task, by what its process is about, and that whatever the process does keeps it.
-/

namespace Kaya.Phase3

open Lib Lib.Program

namespace Job

def phase : Job → Option Phase
  | pool _ _ ph => some ph
  | _ => none

def Lives : Job → Prop
  | settling _ | idle | fault _ => True
  | pool _ _ ph => ph ≠ .freeing
  | _ => False

def Gone : Job → Prop
  | pool _ _ ph => ph = .freeing
  | ended => True
  | _ => False

def Lacks : Job → Trap → Prop
  | born, _ | taping, _ => True
  | settling n, trap => n ≤ trap.number
  | _, _ => False

def Early : Job → Prop
  | born | taping => True
  | _ => False

variable {K : Layout} {p : Word} {j : Job} {g : Stage} {x : View} {a : Act}

theorem may_ended (h : Job.May K p .ended g a) : a = .verhogen .masterSem := by
  cases a with
  | verhogen y =>
    simp only [May, MayRelease, reduceCtorEq, ne_eq, not_true_eq_false, ite_self] at h
    split_ifs at h with h1 h2
    rw [h2]
  | waitio l d u =>
    simp only [May, ne_eq, not_true_eq_false, and_false, reduceCtorEq, or_self] at h
  | spectrapvec => cases h.2.2
  | getSTATUS | setData1 | getData1 => exact absurd rfl h
  | setSTATUS | setCommand | setData0 => exact absurd rfl h.1
  | getENTRYHI =>
    simp only [May, reduceCtorEq, or_self, and_false, exists_false] at h
  | TLBCLR | tables =>
    simp only [May, reduceCtorEq, false_and, exists_false] at h
  | passeren y =>
    simp only [May, MayCall, reduceCtorEq, exists_false, or_false, ite_self] at h
  | createprocess => exact h.elim
  | load => cases h

theorem pool_phase {t : Tables} {b : Bool} {ph : Phase} : (pool t b ph).phase ≠ none := nofun

theorem next_phase : (j.next g x a).phase ≠ none ↔ a.held .swapPoolSem (j.phase ≠ none) := by
  have hmap : ∀ f, (j.map f).phase ≠ none ↔ j.phase ≠ none := by
    intro f
    cases j with
    | pool => exact iff_of_true pool_phase pool_phase
    | _ => exact Iff.rfl
  cases a with
  | passeren y =>
    simp only [next, Act.held]
    split_ifs with h1 h2
    · refine iff_of_true ?_ (.inl h1)
      cases j <;> exact pool_phase
    · exact (hmap _).trans (or_iff_right h1).symm
    · exact (or_iff_right h1).symm
  | verhogen y =>
    simp only [next, Act.held]
    split_ifs with h1
    · refine iff_of_false ?_ fun h => h.1 h1
      cases j with
      | pool t b ph => cases ph <;> exact fun h => h rfl
      | _ => exact fun h => h rfl
    · exact (and_iff_right h1).symm
  | waitio l d u =>
    simp only [next, Act.held]
    split_ifs
    · cases g with
      | moving w => exact hmap _
      | _ => exact Iff.rfl
    · exact Iff.rfl
  | spectrapvec trap new =>
    cases j with
    | settling n =>
      simp only [next, Act.held]
      split_ifs <;> exact Iff.rfl
    | _ => exact Iff.rfl
  | setSTATUS => cases j <;> exact Iff.rfl
  | getENTRYHI => cases j <;> exact Iff.rfl
  | TLBCLR => exact hmap _
  | tables f =>
    cases j with
    | pool => exact iff_of_true pool_phase pool_phase
    | _ => exact Iff.rfl
  | _ => exact Iff.rfl

theorem next_lacks (trap trap' : Trap) (area : NewArea) :
    ((settling trap.number).next g x (.spectrapvec trap area)).Lacks trap' ↔
      trap' ≠ trap ∧ (settling trap.number).Lacks trap' := by
  cases trap <;> cases trap' <;> simp [next, Lacks, Trap.number]

theorem next_ended (h : Job.May K p j g a) (hj : j = .ended) : j.next g x a = .ended := by
  subst hj
  rw [may_ended h]
  rfl

/-- Where a job may lead, the vectors aside. -/
inductive Goes : Job → Job → Prop
  | stay (j : Job) : Goes j j
  | shut (j : Job) (b : Bool) : Goes j (j.setShut b)
  | tape : Goes .born .taping
  | settle : Goes .taping (.settling 0)
  | serve (t : Tables) (v : Option Word) : Goes (.fault v) (.pool t false (.searching v))
  | free (t : Tables) : Goes .idle (.pool t false .freeing)
  | pool (t t' : Tables) (b : Bool) (ph ph' : Phase) : (ph' = .freeing ↔ ph = .freeing) →
      Goes (.pool t b ph) (.pool t' b ph')
  | release (t : Tables) (b : Bool) (ph : Phase) : ph ≠ .freeing → Goes (.pool t b ph) .idle
  | finish (t : Tables) (b : Bool) : Goes (.pool t b .freeing) .ended

theorem goes_map {f : Phase → Phase} (hf : ∀ ph, f ph = .freeing ↔ ph = .freeing) :
    Goes j (j.map f) := by
  cases j with
  | pool t b ph => exact .pool t t b ph (f ph) (hf ph)
  | _ => exact .stay _

theorem goes_next (h : Job.May K p j g a) (ha : ∀ trap new, a ≠ .spectrapvec trap new) :
    Goes j (j.next g x a) := by
  have hcall : ∀ ph, Phase.onCall ph = .freeing ↔ ph = .freeing := by
    intro ph
    cases ph with
    | searching v => cases v <;> exact iff_of_false nofun nofun
    | _ => exact Iff.rfl
  have hmove : ∀ ph, Phase.onMove ph = .freeing ↔ ph = .freeing := by
    intro ph
    cases ph <;> first | exact Iff.rfl | exact iff_of_false nofun nofun
  have hflush : ∀ ph, Phase.onFlush ph = .freeing ↔ ph = .freeing := by
    intro ph
    cases ph <;> first | exact Iff.rfl | exact iff_of_false nofun nofun
  cases a with
  | passeren y =>
    simp only [May, next] at h ⊢
    split_ifs at h ⊢
    · rcases h with rfl | ⟨v, rfl⟩
      · exact .free _
      · exact .serve _ v
    · exact goes_map hcall
    · exact .stay j
  | verhogen y =>
    simp only [May, next] at h ⊢
    by_cases hy : y = .swapPoolSem
    · rw [if_pos hy] at h ⊢
      cases j with
      | pool t b ph =>
        by_cases hfree : ph = .freeing
        · subst hfree
          exact .finish t b
        · have hidle : (pool t b ph).release = .idle := by
            cases ph <;> first | rfl | exact absurd rfl hfree
          rw [hidle]
          exact .release t b ph hfree
      | _ => exact h.elim
    · rw [if_neg hy]
      exact .stay j
  | waitio l d u =>
    simp only [next]
    split_ifs
    · cases g with
      | moving w => exact goes_map hmove
      | _ => exact .stay j
    · exact .stay j
  | spectrapvec trap new => exact absurd rfl (ha trap new)
  | setSTATUS status => exact .shut j _
  | getENTRYHI =>
    cases j with
    | born => exact .tape
    | taping => exact .settle
    | _ => exact .stay _
  | TLBCLR => exact goes_map hflush
  | tables f =>
    cases j with
    | pool t b ph =>
      refine .pool t _ b ph _ ?_
      cases ph with
      | searching v =>
        cases v with
        | none => exact Iff.rfl
        | some v =>
          simp only [Phase.onTables]
          split_ifs <;> simp
      | arrived v k =>
        simp only [Phase.onTables]
        split_ifs <;> simp
      | _ => exact Iff.rfl
    | _ => exact .stay _
  | _ => exact .stay j

namespace Goes

variable {j' : Job}

theorem lacks (h : Goes j j') (trap : Trap) : j'.Lacks trap ↔ j.Lacks trap := by
  cases h with
  | stay => exact Iff.rfl
  | shut b => cases j <;> exact Iff.rfl
  | settle => exact iff_of_true (Nat.zero_le _) trivial
  | _ => exact Iff.rfl

theorem early (h : Goes j j') (hj : j'.Early) : j.Early := by
  cases h with
  | stay => exact hj
  | shut b => cases j <;> exact hj
  | tape => exact trivial
  | _ => exact hj.elim

theorem born (h : Goes j j') (hj : j' = .born) : j = .born := by
  cases h with
  | stay => exact hj
  | shut b =>
    cases j with
    | born => rfl
    | _ => nomatch hj
  | _ => nomatch hj

/-- Who begins to live settles. -/
theorem lives (h : Goes j j') (hj : j'.Lives) : j.Lives ∨ j = .taping := by
  cases h with
  | stay => exact .inl hj
  | shut b => cases j <;> exact .inl hj
  | settle => exact .inr rfl
  | pool t t' b ph ph' hph => exact .inl fun hf => hj (hph.mpr hf)
  | release t b ph hne => exact .inl hne
  | free => exact .inl trivial
  | serve => exact .inl trivial
  | _ => exact hj.elim

end Goes

theorem next_early (h : Job.May K p j g a) (hj : (j.next g x a).Early) : j.Early := by
  by_cases ha : ∃ trap new, a = .spectrapvec trap new
  · obtain ⟨trap, new, rfl⟩ := ha
    obtain ⟨-, -, rfl⟩ := h
    cases trap <;> exact hj.elim
  · exact (goes_next h fun trap new heq => ha ⟨trap, new, heq⟩).early hj

/-- Who begins to live asks for its number. -/
theorem next_lives (h : Job.May K p j g a) (hj : (j.next g x a).Lives) :
    j.Lives ∨ j = .taping ∧ a = .getENTRYHI := by
  by_cases ha : ∃ trap new, a = .spectrapvec trap new
  · obtain ⟨trap, new, rfl⟩ := ha
    obtain ⟨-, -, rfl⟩ := h
    exact .inl trivial
  · refine ((goes_next h fun trap new heq => ha ⟨trap, new, heq⟩).lives hj).imp_right ?_
    rintro rfl
    refine ⟨rfl, ?_⟩
    cases a with
    | getENTRYHI => rfl
    | spectrapvec trap new => exact absurd ⟨trap, new, rfl⟩ ha
    | passeren y =>
      simp only [next] at hj
      split_ifs at hj
      · exact absurd rfl hj
      · exact hj.elim
      · exact hj.elim
    | verhogen y =>
      simp only [next] at hj
      split_ifs at hj <;> exact hj.elim
    | waitio l d u =>
      simp only [next] at hj
      split_ifs at hj
      · cases g <;> exact hj.elim
      · exact hj.elim
    | _ => exact hj.elim

end Job

/-! ## Actions that have nothing to do with pages -/

def Act.Plain : Act → Prop
  | .passeren y => y ≠ .swapPoolSem ∧ y ≠ disk0sem
  | .verhogen y => y ≠ .swapPoolSem
  | .waitio l d u => ¬ OnDisk0 l d u
  | .setCommand reg _ | .setData0 reg _ => reg ≠ Sys.disk0Reg
  | .createprocess _ _ | .TLBCLR | .tables _ => False
  | _ => True

namespace Job

variable {K : Layout} {p : Word} {j j' : Job} {g : Stage} {x : View} {a : Act}

/-- Where a job leads that keeps the pages as they are. -/
inductive Mild : Job → Job → Prop
  | stay (j : Job) : Mild j j
  | shut (j : Job) (b : Bool) : Mild j (j.setShut b)
  | tape : Mild .born .taping
  | settle : Mild .taping (.settling 0)
  | vector (n : Nat) : Mild (.settling n) (.settling (n + 1))
  | ready (n : Nat) : Mild (.settling n) .idle

theorem mild_next (ha : a.Plain) : Mild j (j.next g x a) := by
  cases a with
  | passeren y =>
    simp only [next, if_neg ha.1, if_neg ha.2]
    exact .stay j
  | verhogen y =>
    simp only [next, if_neg (show ¬ y = .swapPoolSem from ha)]
    exact .stay j
  | waitio l d u =>
    simp only [next, if_neg (show ¬ OnDisk0 l d u from ha)]
    exact .stay j
  | setSTATUS status => exact .shut j _
  | spectrapvec trap new =>
    cases j with
    | settling n =>
      simp only [next]
      split_ifs
      · exact .ready n
      · exact .vector n
    | _ => exact .stay _
  | getENTRYHI =>
    cases j with
    | born => exact .tape
    | taping => exact .settle
    | _ => exact .stay _
  | createprocess | TLBCLR | tables => exact ha.elim
  | _ => exact .stay j

namespace Mild

theorem phase (h : Mild j j') : j'.phase = j.phase := by
  cases h with
  | shut b => cases j <;> rfl
  | _ => rfl

theorem lives (h : Mild j j') (hj : j.Lives) : j'.Lives := by
  cases h with
  | stay => exact hj
  | shut b => cases j <;> exact hj
  | tape => exact hj.elim
  | settle => exact hj.elim
  | _ => exact trivial

theorem gone (h : Mild j j') (hj : j.Gone) : j'.Gone := by
  cases h with
  | stay => exact hj
  | shut b => cases j <;> exact hj
  | _ => exact hj.elim

theorem fault (h : Mild j j') {v : Option Word} (hj : j' = .fault v) : j = .fault v := by
  cases h with
  | stay => exact hj
  | shut b =>
    cases j with
    | fault => exact hj
    | _ => nomatch hj
  | _ => nomatch hj

end Mild

/-- The holder of `swapPoolSem` after such an action. -/
theorem plain_pool (ha : a.Plain) {t : Tables} {b : Bool} {ph : Phase}
    (hj : j.next g x a = .pool t b ph) :
    j = .pool t b ph ∧ (∀ status, a.onStatus status = status) ∨
      ∃ status b', a = .setSTATUS status ∧ b = decide (status &&& 1 = 0) ∧ j = .pool t b' ph := by
  cases a with
  | passeren y =>
    simp only [next, if_neg ha.1, if_neg ha.2] at hj
    exact .inl ⟨hj, fun _ => rfl⟩
  | verhogen y =>
    simp only [next, if_neg (show ¬ y = .swapPoolSem from ha)] at hj
    exact .inl ⟨hj, fun _ => rfl⟩
  | waitio l d u =>
    simp only [next, if_neg (show ¬ OnDisk0 l d u from ha)] at hj
    exact .inl ⟨hj, fun _ => rfl⟩
  | setSTATUS status =>
    cases j with
    | pool t' b' ph' =>
      cases hj
      exact .inr ⟨status, b', rfl, rfl, rfl⟩
    | _ => nomatch hj
  | spectrapvec trap new =>
    cases j with
    | settling n =>
      simp only [next] at hj
      split_ifs at hj
    | pool => exact .inl ⟨hj, fun _ => rfl⟩
    | _ => nomatch hj
  | getENTRYHI =>
    cases j with
    | pool => exact .inl ⟨hj, fun _ => rfl⟩
    | _ => nomatch hj
  | createprocess | TLBCLR | tables => exact ha.elim
  | _ => exact .inl ⟨hj, fun _ => rfl⟩

end Job

/-- Where such an action may stand in a call of `diskIO`. -/
theorem Act.Plain.stage {a : Act} {g : Stage} {r : Word} {x : View} (ha : a.Plain)
    (hmay : diskRules.may g a) : (diskRules.next g a r x).Quiet ∨ a = .getSTATUS ∨
      ∃ status, a = .setSTATUS status := by
  cases a with
  | passeren y =>
    simp only [diskRules, if_neg ha.2] at hmay ⊢
    exact .inl hmay
  | verhogen y =>
    simp only [diskRules] at hmay ⊢
    split_ifs at hmay ⊢
    · exact .inl (.inl rfl)
    · exact .inl hmay
  | waitio l d u =>
    simp only [diskRules, if_neg (show ¬ OnDisk0 l d u from ha)] at hmay ⊢
    exact .inl hmay
  | setCommand reg v | setData0 reg v =>
    simp only [diskRules, if_neg (show ¬ reg = Sys.disk0Reg from ha)] at hmay ⊢
    exact .inl hmay
  | spectrapvec trap new => exact .inl (.inl hmay.1)
  | setData1 reg v => exact .inl hmay.2
  | load virtAddr => exact .inl (.inl hmay)
  | getSTATUS => exact .inr (.inl rfl)
  | setSTATUS status => exact .inr (.inr ⟨status, rfl⟩)
  | createprocess | TLBCLR | tables => exact ha.elim
  | _ => exact .inl hmay

/-! ## Tasks -/

/-- What holds of the task of process `p`. -/
structure Abides (K : Layout) (p : Word) (j : Job) (g : Stage) (t : Task) : Prop where
  prog : Follows (pageRules K p) t.prog (j, g) fun _ s => s = (.idle, .out)
  old : ∀ trap, Follows (pageRules K p) (t.old trap).prog (.idle, .out) fun _ s => s = (.idle, .out)
  asid : asidOf t.entryHi = p ∨ t.prog = .done ()
  oldAsid : ∀ trap, asidOf (t.old trap).entryHi = p ∨ (t.old trap).prog = .done ()
  new : ∀ trap area, t.new trap = some area → area.sPc = trap.entry ∧ asidOf area.sAsid = p
  lacks : j ≠ .ended → ∀ trap, t.new trap = none ↔ j.Lacks trap
  born : j = .born → t.prog = uProcInit
  taping : j = .taping → ∃ x : SupM Unit, t.prog = (x >>= fun _ => afterTape p) ∧
    x.Only (· ≠ .getENTRYHI) fun _ => True

section Only

theorem disableInts_noEntryHi (b : Bool) :
    (disableInts b).Only (· ≠ .getENTRYHI) fun _ => True := by
  cases b <;> exact ⟨nofun, fun _ => ⟨nofun, fun _ => trivial⟩⟩

theorem diskIO_noEntryHi (sector cyl head : Word) (sem : Sem) (diskNum memBuf command : Word) :
    ( diskIO sector cyl head sem diskNum memBuf command).Only (· ≠ .getENTRYHI) fun _ => True := by
  refine ⟨nofun, fun _ => (disableInts_noEntryHi true).bind fun _ =>
    ⟨nofun, fun _ => ⟨nofun, fun _ => ?_⟩⟩⟩
  refine (disableInts_noEntryHi false).bind fun _ => .ite (fun _ => trivial) fun _ => ?_
  refine (disableInts_noEntryHi true).bind fun _ =>
    ⟨nofun, fun _ => ⟨nofun, fun _ => ⟨nofun, fun _ => ?_⟩⟩⟩
  exact (disableInts_noEntryHi false).bind fun _ => .ite (fun _ => trivial) fun _ =>
    ⟨nofun, fun _ => trivial⟩

theorem tapeToDisk_noEntryHi (asid i : Word) :
    (tapeToDisk asid i).Only (· ≠ .getENTRYHI) fun _ => True := by
  have htape : (onTape (getDeviceReg TAPEINT (asid - 1))).Only (· ≠ .getENTRYHI) fun _ => True := by
    refine ⟨nofun, fun _ => ?_⟩
    exact .ite (fun _ => trivial) fun _ => ⟨nofun, fun _ => trivial⟩
  refine htape.bind fun more => ?_
  cases more with
  | false => exact trivial
  | true =>
    refine ⟨nofun, fun _ => ⟨nofun, fun _ => ⟨nofun, fun _ => ?_⟩⟩⟩
    exact .ite (fun _ => trivial) fun _ => (diskIO_noEntryHi ..).bind fun _ => trivial

end Only

namespace Abides

variable {K : Layout} {p : Word} {j j' : Job} {g : Stage} {t : Task} {a : Act} {k : Word → Prog}
  {r : Word} {x : View} {trap : Trap} {area : NewArea} {prog rest : Prog}

theorem may (h : Abides K p j g t) (hprog : t.prog = .act a k) : j.May K p g a := by
  have hfollows := h.prog
  rw [hprog] at hfollows
  exact hfollows.1

theorem leave {l : Leave} (h : Abides K p j g t) (hprog : t.prog = .leave l) :
    (pageRules K p).leave (j, g) l := by
  have hfollows := h.prog
  rw [hprog] at hfollows
  exact hfollows

/-- Where `tapeToDisk` returned the tape is on the disk. -/
theorem eq_taping (h : Abides K p j g t) (hprog : t.prog = afterTape p) : j = .taping := by
  have hasid : asidOf t.entryHi = p := h.asid.resolve_right fun hdone => nomatch hprog.symm.trans hdone
  have hfollows := h.prog
  rw [hprog] at hfollows
  obtain ⟨-, -, hj⟩ := (hfollows.2 t.entryHi ⟨.init, 0⟩ hasid).1
  have hmay : j.May K p g .getENTRYHI := hfollows.1
  rcases hmay with (rfl | rfl | rfl) | ⟨n, hn, rfl⟩
  · nomatch hj
  · rfl
  · nomatch hj
  · injection hj with hj
    exact absurd hj hn

/-- The number is asked for after `tapeToDisk`. -/
theorem eq_afterTape (h : Abides K p .taping g t) (hprog : t.prog = .act .getENTRYHI k) :
    t.prog = afterTape p := by
  obtain ⟨y, hy, honly⟩ := h.taping rfl
  rw [hprog] at hy
  cases y with
  | done u => exact hprog.trans hy
  | leave l => nomatch hy
  | act a' k' =>
    injection hy with h1
    exact absurd h1.symm honly.1

theorem answer (h : Abides K p j g t) (hprog : t.prog = .act a k)
    (ha : ∀ trap new, a ≠ .spectrapvec trap new) (hadm : (pageRules K p).admits (j, g) a r x)
    (status : Word) :
    Abides K p (j.next g x a) (diskRules.next g a r x) { t with prog := k r, status := status } := by
  have hmay := h.may hprog
  have hgoes := Job.goes_next (x := x) hmay ha
  have hfollows := h.prog
  rw [hprog] at hfollows
  have hstart : j = .born → a = .getENTRYHI ∧ k = fun r => uProcInitFrom (asidOf r) 0 := by
    intro hj
    have hinit := (h.born hj).symm.trans hprog
    injection hinit with h1 h2
    exact ⟨h1.symm, h2.symm⟩
  constructor
  case prog => exact hfollows.2 r x hadm
  case old => exact h.old
  case asid =>
    refine .inl (h.asid.resolve_right fun hdone => ?_)
    rw [hprog] at hdone
    nomatch hdone
  case oldAsid => exact h.oldAsid
  case new => exact h.new
  case lacks =>
    intro hj trap
    rw [hgoes.lacks]
    exact h.lacks (fun he => hj (Job.next_ended hmay he)) trap
  case born =>
    intro hj
    obtain rfl := hgoes.born hj
    rw [(hstart rfl).1] at hj
    nomatch hj
  case taping =>
    intro hj
    have hearly : j.Early := hgoes.early (hj ▸ trivial)
    cases j with
    | born =>
      obtain ⟨rfl, rfl⟩ := hstart rfl
      have hasid : asidOf r = p := hadm
      refine ⟨tapeToDisk p 0, ?_, tapeToDisk_noEntryHi p 0⟩
      change uProcInitFrom (asidOf r) 0 = uProcInitFrom p 0
      rw [hasid]
    | taping =>
      obtain ⟨y, hy, honly⟩ := h.taping rfl
      rw [hprog] at hy
      cases y with
      | done u =>
        injection hy with h1
        rw [h1] at hj
        nomatch hj
      | leave l => nomatch hy
      | act a' k' =>
        injection hy with h1 h2
        subst h2
        exact ⟨k' r, rfl, honly.2 r⟩
    | _ => exact hearly.elim

theorem vector (h : Abides K p j g t) (hprog : t.prog = .act (.spectrapvec trap area) k) :
    Abides K p (j.next g x (.spectrapvec trap area)) (diskRules.next g (.spectrapvec trap area) r x)
      { t with prog := k r, new := Function.update t.new trap (some area) } := by
  have hfollows := h.prog
  rw [hprog] at hfollows
  obtain ⟨hpc, hasid, rfl⟩ : j.May K p g (.spectrapvec trap area) := hfollows.1
  have hlacks := h.lacks nofun
  constructor
  case prog => exact hfollows.2 r x trivial
  case old => exact h.old
  case asid =>
    refine .inl (h.asid.resolve_right fun hdone => ?_)
    rw [hprog] at hdone
    nomatch hdone
  case oldAsid => exact h.oldAsid
  case new =>
    intro trap' area' harea
    have harea : Function.update t.new trap (some area) trap' = some area' := harea
    by_cases htrap : trap' = trap
    · rw [htrap, Function.update_self] at harea
      obtain rfl := Option.some.inj harea
      exact htrap ▸ ⟨hpc, hasid⟩
    · rw [Function.update_of_ne htrap] at harea
      exact h.new trap' area' harea
  case lacks =>
    intro _ trap'
    rw [Job.next_lacks]
    change Function.update t.new trap (some area) trap' = none ↔ _
    by_cases htrap : trap' = trap
    · rw [htrap, Function.update_self]
      exact iff_of_false nofun fun hne => hne.1 rfl
    · rw [Function.update_of_ne htrap, hlacks trap']
      exact (and_iff_right htrap).symm
  case born => cases trap <;> exact nofun
  case taping => cases trap <;> exact nofun

theorem ldst (h : Abides K p .idle .out t) (trap : Trap) :
    Abides K p .idle .out { t with
      prog := (t.old trap).prog, status := (t.old trap).status, entryHi := (t.old trap).entryHi } where
  prog := h.old trap
  old := h.old
  asid := h.oldAsid trap
  oldAsid := h.oldAsid
  new := h.new
  lacks := h.lacks
  born := nofun
  taping := nofun

/-- A trap where the process may be interrupted. -/
theorem passUp (h : Abides K p .idle .out t) (hj : j' = .idle ∨ ∃ v, j' = .fault v)
    (harea : t.new trap = some area)
    (hprog : Follows (pageRules K p) prog (j', .out) fun _ s => s = (.idle, .out))
    (hrest : rest = t.prog ∨ rest = .done ()) (status : Word) :
    Abides K p j' .out { t with
      prog := prog, status := status, entryHi := area.sAsid
      old := Function.update t.old trap ⟨rest, t.status, t.entryHi⟩ } where
  prog := hprog
  old trap' := by
    by_cases htrap : trap' = trap
    · subst htrap
      simp only [Function.update_self]
      rcases hrest with rfl | rfl
      · exact h.prog
      · rfl
    · simp only [Function.update_of_ne htrap]
      exact h.old trap'
  asid := .inl (h.new trap area harea).2
  oldAsid trap' := by
    by_cases htrap : trap' = trap
    · subst htrap
      simp only [Function.update_self]
      exact hrest.elim (fun heq => heq ▸ h.asid) .inr
    · simp only [Function.update_of_ne htrap]
      exact h.oldAsid trap'
  new := h.new
  lacks _ trap' := by
    refine (h.lacks nofun trap').trans ?_
    rcases hj with rfl | ⟨v, rfl⟩ <;> exact Iff.rfl
  born hb := by rcases hj with rfl | ⟨v, rfl⟩ <;> nomatch hb
  taping hb := by rcases hj with rfl | ⟨v, rfl⟩ <;> nomatch hb

theorem again (h : Abides K p .taping .out t) (hp : p < 64) (hasid : asidOf t.entryHi = p) (i : Word) :
    Abides K p .taping .out { t with prog := uProcInitFrom p i } where
  prog := uProcInitFrom_pages hp i
  old := h.old
  asid := .inl hasid
  oldAsid := h.oldAsid
  new := h.new
  lacks := h.lacks
  born := nofun
  taping _ := ⟨tapeToDisk p i, rfl, tapeToDisk_noEntryHi p i⟩

theorem start (hp : p < 64) (hprog : t.prog = uProcInit) (hasid : asidOf t.entryHi = p)
    (hnew : t.new = fun _ => none) (hold : ∀ trap, (t.old trap).prog = .done ()) :
    Abides K p .born .out t where
  prog := by
    rw [hprog]
    exact uProcInit_pages hp
  old trap := by
    rw [hold]
    rfl
  asid := .inl hasid
  oldAsid trap := .inr (hold trap)
  new trap area harea := by
    rw [hnew] at harea
    nomatch harea
  lacks _ trap := by
    rw [hnew]
    exact iff_of_true rfl trivial
  born _ := hprog
  taping := nofun

end Abides

end Kaya.Phase3
