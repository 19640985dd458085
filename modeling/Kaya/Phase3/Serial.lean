import Kaya.Phase3.Ends
import Kaya.Phase3.Proofs.DeviceInv
import Kaya.Phase3.Proofs.SerialRules

/-!
# The tables section by section

However the processes are interleaved, the page tables and the swap pool are what the sections on
`swapPoolSem` make of them one after the other, and frames are given out in turn.
-/

namespace Kaya.Phase3

open Lib Lib.Program Lib.Sections

variable {s t : Sys Word} {p q : Word} {K : Layout} {junk : Word} {d : Did Word Act Word View}
  {l log : List (Did Word Act Word View)} {h : List (Sys Word × Event Word)}

/-- The sections on `swapPoolSem`. -/
def poolSections : Sections Act Tables where
  enters := Act.isP .swapPoolSem
  exits := Act.isV .swapPoolSem
  effect := Act.onTables

/-- The tables after transactions of processes, the newest first. -/
def serialTables (K : Layout) (zs : List (Word × Txn)) : Tables :=
  serial .init (Txn.apply K) zs

def Txn.serves : Txn → Bool
  | .serve _ _ => true
  | _ => false

/-- How many page faults were served. -/
def served (zs : List (Word × Txn)) : Nat := zs.countP fun z => z.2.serves

/-- The frame for a page fault when `k` were served before. -/
def turnOf (k : Nat) : Word := BitVec.ofNat 32 (k % POOLSIZE)

/-- The sections of the log that ended are the transactions `zs`, the newest first.  A page stays
in its frame until it is the turn of the frame again or the process ends. -/
structure Serialized (K : Layout) (log : List (Did Word Act Word View)) (zs : List (Word × Txn)) :
    Prop where
  order : zs.map Prod.fst = (log.filter fun d => d.a.isV .swapPoolSem).map Did.p
  inside : ∀ p, Holds .swapPoolSem p log → tablesOf log =
    (poolSections.own p log).foldr Act.onTables (serialTables K zs)
  outside : (∀ p, ¬ Holds .swapPoolSem p log) → tablesOf log = serialTables K zs
  inTurn : (∀ p, ¬ Holds .swapPoolSem p log) → ∀ ys p segment page zs',
    zs = ys ++ (p, .serve segment page) :: zs' → served ys < POOLSIZE → (p, .free) ∉ ys →
      (tablesOf log).swapPool (turnOf (served zs')) =
        ⟨p, segment, page, .entry (p - 1) (clip page)⟩

/-! ## Frames in turn -/

theorem turnOf_ne {m n : Nat} (hlt : m < n) (hsoon : n < m + POOLSIZE) : turnOf n ≠ turnOf m := by
  have hsize : POOLSIZE = 4 := rfl
  intro heq
  have hmod := congrArg BitVec.toNat heq
  simp only [turnOf, BitVec.toNat_ofNat, hsize] at hmod
  omega

theorem served_serve (p segment page : Word) (zs : List (Word × Txn)) :
    served ((p, .serve segment page) :: zs) = served zs + 1 :=
  List.countP_cons_of_pos (by rfl)

theorem nextFrame_eq {t : Tables} {k : Nat} (ht : t.frameNo = turnOf (k + 3)) :
    t.nextFrame = turnOf k := by
  have hsize : POOLSIZE = 4 := rfl
  have hzero : (0 : Word).toNat = 0 := rfl
  have hone : (1 : Word).toNat = 1 := rfl
  unfold Tables.nextFrame
  rw [ht]
  apply BitVec.eq_of_toNat_eq
  split_ifs with hwrap
  · have hmod := congrArg BitVec.toNat hwrap
    simp only [turnOf, hsize, hone, BitVec.toNat_add, BitVec.toNat_ofNat] at hmod
    simp only [turnOf, hsize, hzero, BitVec.toNat_ofNat]
    omega
  · have hmod : (turnOf (k + 3) + 1).toNat ≠ (BitVec.ofNat 32 POOLSIZE).toNat := fun h =>
      hwrap (BitVec.eq_of_toNat_eq h)
    simp only [turnOf, hsize, hone, BitVec.toNat_add, BitVec.toNat_ofNat] at hmod ⊢
    omega

theorem serialTables_frameNo (zs : List (Word × Txn)) :
    (serialTables K zs).frameNo = turnOf (served zs + 3) := by
  induction zs with
  | nil => rfl
  | cons z zs ih =>
    obtain ⟨p, τ⟩ := z
    cases τ with
    | serve segment page =>
      change ((serialTables K zs).bringIn K p segment page (clip page)
        (serialTables K zs).nextFrame).frameNo = _
      rw [Tables.bringIn_frameNo, nextFrame_eq ih, served_serve, turnOf, turnOf, Nat.add_assoc]
      exact congrArg _ (Nat.add_mod_right _ _).symm
    | free => exact ih
    | refuse => exact ih

theorem serialTables_inTurn (ys : List (Word × Txn)) {segment page : Word} {zs : List (Word × Txn)}
    (hsoon : served ys < POOLSIZE) (hfree : (p, .free) ∉ ys) :
    (serialTables K (ys ++ (p, .serve segment page) :: zs)).swapPool (turnOf (served zs)) =
      ⟨p, segment, page, .entry (p - 1) (clip page)⟩ := by
  induction ys with
  | nil =>
    change ((serialTables K zs).bringIn K p segment page (clip page)
      (serialTables K zs).nextFrame).swapPool _ = _
    rw [Tables.bringIn_swapPool, nextFrame_eq (serialTables_frameNo zs), Function.update_self]
  | cons y ys ih =>
    obtain ⟨q, τ⟩ := y
    obtain ⟨hne, hrestFree⟩ := not_or.mp (List.mem_cons.not.mp hfree)
    generalize hrest : ys ++ (p, Txn.serve segment page) :: zs = rest at ih
    cases τ with
    | serve segment' page' =>
      have hcount : served rest = served ys + (served zs + 1) := by
        rw [← hrest, ← served_serve p segment page]
        exact List.countP_append ..
      rw [served_serve] at hsoon
      have hother : turnOf (served zs) ≠ turnOf (served rest) :=
        (turnOf_ne (by omega) (by omega)).symm
      rw [List.cons_append, hrest]
      change ((serialTables K rest).bringIn K q segment' page' (clip page')
        (serialTables K rest).nextFrame).swapPool _ = _
      rw [Tables.bringIn_swapPool, nextFrame_eq (serialTables_frameNo rest),
        Function.update_of_ne hother]
      exact ih (by omega) hrestFree
    | free =>
      have ih := ih hsoon hrestFree
      have hqp : q ≠ p := fun heq => hne (by rw [heq])
      rw [List.cons_append, hrest]
      change ((serialTables K rest).clear q frames).swapPool _ = _
      simp only [Tables.clear, ih]
      exact if_neg fun h => hqp h.2.symm
    | refuse =>
      rw [List.cons_append, hrest]
      exact ih hsoon hrestFree

/-! ## The log -/

namespace Sys

theorem pool_after (log : List (Did Word Act Word View)) :
    poolSections.after .init log = tablesOf log := by
  induction log with
  | nil => rfl
  | cons d log ih => exact congrArg d.a.onTables ih

theorem isP_iff {x : Sem} {a : Act} : a.isP x = true ↔ a = .passeren x := by
  cases a <;> simp [Act.isP]

theorem isV_iff {x : Sem} {a : Act} : a.isV x = true ↔ a = .verhogen x := by
  cases a <;> simp [Act.isV]

theorem pool_inside : poolSections.Inside p log ↔ Holds .swapPoolSem p log := by
  induction log with
  | nil => exact Iff.rfl
  | cons d log ih =>
    by_cases hp : d.p = p
    swap
    · rw [inside_cons_of_ne hp, holds_cons_of_ne hp, ih]
    rw [inside_cons_self hp, Holds, if_pos hp, ih]
    cases hact : d.a with
    | passeren x | verhogen x => simp [poolSections, Act.isP, Act.isV, Act.held]
    | _ => simp [poolSections, Act.isP, Act.isV, Act.held]

theorem pool_bracketed (h : TablesAllowed log) (hex : Exclusive .swapPoolSem log) :
    poolSections.Bracketed log := by
  induction log with
  | nil => exact trivial
  | cons d log ih =>
    refine ⟨fun ha q => ?_, fun ha => ?_, ?_, ih h.2 hex.2⟩
    · rw [pool_inside]
      have hfirst := hex.1
      rw [isP_iff.mp ha] at hfirst
      exact hfirst rfl q
    · have hmay := h.1
      rw [isV_iff.mp ha] at hmay
      exact pool_inside.mpr (guarded_swapPool d.p log h.2 hmay)
    · exact (writer_holds h).imp_left pool_inside.mpr

/-- What the entries of a log tell of the tables, and of the number of a process. -/
def Told : List (Did Word Act Word View) → Prop
  | [] => True
  | d :: log =>
      d.x.tables = tablesOf (d :: log) ∧ (∀ f, d.a = .tables f → d.r = (f (tablesOf log)).1) ∧
        (d.a = .getENTRYHI → asidOf d.r = d.p) ∧ Told log

theorem Told.append (h : Told log) (hl : ∀ l₁ d l₂, l = l₁ ++ d :: l₂ →
    d.x.tables = tablesOf (d :: (l₂ ++ log)) ∧
      (∀ f, d.a = .tables f → d.r = (f (tablesOf (l₂ ++ log))).1) ∧
      (d.a = .getENTRYHI → asidOf d.r = d.p)) : Told (l ++ log) := by
  induction l with
  | nil => exact h
  | cons d l ih =>
    obtain ⟨hx, hf, he⟩ := hl [] d l rfl
    exact ⟨hx, hf, he, ih fun l₁ e l₂ heq => hl (d :: l₁) e l₂ (congrArg _ heq)⟩

theorem Told.suffix (h : Told (l ++ log)) : Told log := by
  induction l with
  | nil => exact h
  | cons d l ih => exact ih h.2.2.2

/-- In its section a process knows the tables: those that it found, and those that are. -/
theorem ghost_serial (hallowed : TablesAllowed log) (hex : Exclusive .swapPoolSem log)
    (htold : Told log) (p : Word) :
    ghost (fun p => serialRules K p) (fun _ => none) p log =
      if Holds .swapPoolSem p log then some (poolSections.found .init p log, tablesOf log)
      else none := by
  induction log with
  | nil => exact (if_neg id).symm
  | cons d log ih =>
    have ih := ih hallowed.2 hex.2 htold.2.2.2
    by_cases hp : d.p = p
    swap
    · rw [ghost_cons_of_ne hp, ih, if_congr (holds_cons_of_ne hp) rfl rfl]
      split_ifs with hheld
      · have hstill : tablesOf (d :: log) = tablesOf log :=
          ((writer_holds hallowed).resolve_left fun hd => hp (hex.2.unique hd hheld)) _
        rw [hstill, found_of_not fun hnew => hp hnew.1]
      · rfl
    rw [ghost_cons_self hp, ih]
    -- an action that is neither a P nor a V, and does nothing to the tables
    have hquiet : d.a.Away .swapPoolSem → (∀ t, d.a.onTables t = t) →
        (if Holds .swapPoolSem p (d :: log) then
          some (poolSections.found .init p (d :: log), tablesOf (d :: log)) else none) =
        if Holds .swapPoolSem p log then some (poolSections.found .init p log, tablesOf log)
        else none := by
      intro haway hstill
      rw [if_congr (holds_cons_away haway) rfl rfl, found_of_not, tablesOf, hstill]
      rintro ⟨-, ha⟩
      rw [isP_iff.mp ha] at haway
      exact haway rfl
    cases hact : d.a with
    | passeren x =>
      by_cases hx : x = .swapPoolSem
      · subst hx
        have hholds : Holds .swapPoolSem p (d :: log) := by
          rw [Holds, if_pos hp, hact]
          exact .inl rfl
        have hx : d.x.tables = tablesOf log := by
          rw [htold.1, tablesOf, hact]
          rfl
        rw [serial_enters, if_pos hholds, found_of_enters hp (isP_iff.mpr hact), pool_after,
          tablesOf, hact, hx]
        rfl
      · rw [hquiet (hact ▸ hx) (hact ▸ fun _ => rfl)]
        exact if_neg hx
    | verhogen x =>
      by_cases hx : x = .swapPoolSem
      · subst hx
        have hout : ¬ Holds .swapPoolSem p (d :: log) := by
          rw [Holds, if_pos hp, hact]
          exact fun hheld => hheld.1 rfl
        rw [if_neg hout, serial_leaves]
      · rw [hquiet (hact ▸ hx) (hact ▸ fun _ => rfl)]
        exact if_neg hx
    | tables f =>
      rw [if_congr (holds_cons_away (hact ▸ trivial)) rfl rfl, found_of_not, tablesOf, hact]
      · split_ifs <;> rfl
      · rintro ⟨-, ha⟩
        exact Act.noConfusion (hact.symm.trans (isP_iff.mp ha))
    | _ => rw [hquiet (hact ▸ trivial) (hact ▸ fun _ => rfl)]; rfl

/-- The answers are possible. -/
theorem admitted_serial (hallowed : TablesAllowed log) (hex : Exclusive .swapPoolSem log)
    (htold : Told log) : Admitted (fun p => serialRules K p) (fun _ => none) log := by
  induction log with
  | nil => exact trivial
  | cons d log ih =>
    obtain ⟨-, hf, he, hrest⟩ := htold
    refine ⟨?_, ih hallowed.2 hex.2 hrest⟩
    rw [ghost_serial hallowed.2 hex.2 hrest]
    cases hact : d.a with
    | getENTRYHI => exact he hact
    | tables f =>
      intro t₀ t hghost
      split_ifs at hghost with hheld
      obtain ⟨-, rfl⟩ := Prod.mk.inj (Option.some.inj hghost)
      exact hf f hact
    | _ => exact trivial

theorem tablesOf_waits (hl : ∀ d ∈ l, d.a.Waits) : tablesOf (l ++ log) = tablesOf log := by
  induction l with
  | nil => rfl
  | cons d l ih =>
    rw [List.forall_mem_cons] at hl
    rw [List.cons_append, tablesOf, (waits_quiet hl.1).2.2.tables]
    exact ih hl.2

/-- The log of the next state tells of the tables too. -/
theorem OwnDevices.told (h : s.OwnDevices) (hrep : s.Replayed) (htold : Told s.log)
    (hc : Courses (kaya K junk) s t) : Told t.log := by
  obtain ⟨l, hlog, hcourse, hentries⟩ := hc
  rw [hlog]
  refine htold.append fun l₁ d l₂ hl => ?_
  obtain ⟨halive, ⟨k, hprog⟩, hr, -⟩ := (hcourse d.p).entry hl
  have hd : d ∈ l := hl ▸ List.mem_append_right _ List.mem_cons_self
  have htables : tablesOf (l₂ ++ s.log) = s.tables := by
    rw [hrep]
    rcases hentries.few with hone | hwaits
    · obtain rfl : l₂ = [] := by
        rw [hl, List.length_append, List.length_cons] at hone
        exact List.eq_nil_of_length_eq_zero (by omega)
      rfl
    · exact tablesOf_waits fun e he =>
        hwaits e (hl ▸ List.mem_append_right _ (List.mem_cons_of_mem _ he))
  refine ⟨?_, fun f ha => ?_, fun ha => ?_⟩
  · rw [tablesOf, htables]
    exact hentries.tables d hd
  · rw [htables]
    exact hentries.read d hd f ha
  · have horder := h.may halive hprog
    have hp : d.p ≠ 0 := by
      intro hp
      rw [Act.Orderly, if_pos hp, ha] at horder
      exact horder
    rw [hr ha]
    exact (h.minds d.p hp halive).asid

/-- What the sections of a run are. -/
structure SerialRun (K : Layout) (s : Sys Word) : Prop where
  told : Told s.log
  allowed : Allowed (fun p => serialRules K p) (fun _ => none) s.log

theorem Reaches.serialRun (hrun : Reaches (kaya K junk) Booted h s) :
    s.SerialRun K ∧
      (s.Halted ∨ s.Live (fun p => serialRules K p) (fun _ => none) fun _ => none) := by
  induction hrun with
  | @start s hs =>
    have hlive : s.Live (fun p => serialRules K p) (fun _ => none) fun _ => none := by
      refine hs.toFresh.live fun p hp => ?_
      rw [hs.prog hp]
      exact test_serial
    refine ⟨⟨?_, hlive.keeps.allowed⟩, .inr hlive⟩
    rw [hs.toFresh.log_eq]
    exact trivial
  | @next h s e hrun hcan ih =>
    obtain ⟨hserial, hhalt | hlive⟩ := ih
    · obtain ⟨hhalt', htrace, -⟩ := hhalt.step (S := kaya K junk) hcan
      have hlog : (s.step (kaya K junk) e).log = s.log := log_congr htrace
      exact ⟨⟨hlog ▸ hserial.told, hlog ▸ hserial.allowed⟩, .inl hhalt'⟩
    · have hcourses := hlive.sane.courses (S := kaya K junk) hcan
      have htold := (Reaches.ownDevices hrun).told (Reaches.kaya_tableRun hrun).replayed
        hserial.told hcourses
      have htab := Reaches.kaya_tableRun (.next hrun hcan)
      have hadm : Admitted (fun p => serialRules K p) (fun _ => none)
          (s.step (kaya K junk) e).log := admitted_serial htab.allowed htab.exclusive htold
      rcases hlive.step (kaya_serial K junk) hcan hadm with hlive' | ⟨hhalt, hsame⟩
      · exact ⟨⟨htold, hlive'.keeps.allowed⟩, .inr hlive'⟩
      · exact ⟨⟨htold, hsame ▸ hserial.allowed⟩, .inl hhalt⟩

/-- A section that ended is a transaction of its process. -/
theorem Reaches.atomic (hrun : Reaches (kaya K junk) Booted h s) :
    Bracketed.Atomic poolSections .init (Txn.apply K) s.log := by
  have htab := Reaches.kaya_tableRun hrun
  obtain ⟨hserial, -⟩ := Reaches.serialRun hrun
  rintro d log ⟨l, hlog⟩ hexits
  have hact : d.a = .verhogen .swapPoolSem := isV_iff.mp hexits
  have hallowed : TablesAllowed (d :: log) := Allowed.suffix (hlog ▸ htab.allowed)
  have hex : Exclusive .swapPoolSem (d :: log) := Exclusive.suffix (hlog ▸ htab.exclusive)
  have htold : Told (d :: log) := Told.suffix (hlog ▸ hserial.told)
  have hmay : Allowed (fun p => serialRules K p) (fun _ => none) (d :: log) :=
    Allowed.suffix (hlog ▸ hserial.allowed)
  have hghost := ghost_serial (K := K) hallowed.2 hex.2 htold.2.2.2 d.p
  obtain ⟨t, τ, hsection⟩ : ∃ t τ, ghost (fun p => serialRules K p) (fun _ => none) d.p log =
      some (t, Txn.apply K d.p τ t) := by
    have hmay := hmay.1
    rw [hact] at hmay
    exact hmay rfl
  rw [hsection] at hghost
  split_ifs at hghost with hheld
  obtain ⟨hfound, hnow⟩ := Prod.mk.inj (Option.some.inj hghost)
  refine ⟨τ, ?_⟩
  rw [pool_after, tablesOf, hact, ← hfound, hnow]
  rfl

end Sys

/-- However processes are interleaved, the tables are those of the sections one after the other,
in the order in which they end, now and at every moment before. -/
theorem tables_serialized (hrun : Sys.Reaches (kaya K junk) Sys.Booted h s) :
    s.tables = tablesOf s.log ∧ ∃ zs : List (Word × Txn), ∀ l log, s.log = l ++ log →
      Serialized K log (zs.drop (releases .swapPoolSem l)) := by
  have htab := hrun.kaya_tableRun
  have hbracketed := Sys.pool_bracketed htab.allowed htab.exclusive
  obtain ⟨zs, hall⟩ := hbracketed.serial (Sys.Reaches.atomic hrun)
  refine ⟨htab.replayed, zs, fun l log hlog => ?_⟩
  have hzs := hall l log hlog
  have hout : (∀ p, ¬ Holds .swapPoolSem p log) →
      tablesOf log = serialTables K (zs.drop (releases .swapPoolSem l)) := by
    intro hnone
    rw [← Sys.pool_after]
    exact hzs.outside fun p hp => hnone p (Sys.pool_inside.mp hp)
  refine ⟨hzs.order, fun p hp => ?_, hout, ?_⟩
  · have hin := Sys.pool_inside.mpr hp
    have hlog' : poolSections.Bracketed log := Bracketed.suffix (hlog ▸ hbracketed)
    rw [← Sys.pool_after, hlog'.after_own hin, hzs.inside p hin]
    rfl
  · intro hnone ys p segment page zs' hsplit hsoon hfree
    rw [hout hnone, hsplit]
    exact serialTables_inTurn ys hsoon hfree

theorem tables_serialized_normal : (runOf normalEnd).tables = tablesOf (runOf normalEnd).log ∧
    ∃ zs : List (Word × Txn), ∀ l log, (runOf normalEnd).log = l ++ log →
      Serialized .sample log (zs.drop (releases .swapPoolSem l)) := by
  obtain ⟨h, hrun⟩ := runOf_reaches normalEnd (by decide +kernel)
  exact tables_serialized hrun

end Kaya.Phase3
