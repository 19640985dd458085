import Kaya.Phase2.ClockTick
import Kaya.Phase2.Termination
import Kaya.Phase2.WaitIO

/-!
# What becomes of the queues when a process tree dies

`outProcQ` and `outBlocked` find a process only at the tail of its queue.  Where every victim of
`terminateprocess` stands there at its turn, the queues, the semaphores and the counters are
left as if the victims had never been in them.
-/

namespace Kaya

open Lib

variable {K : Layout} {a : Abs} {place : Pcb → Place} {l : Lists} {m : Machine}
  {h : List (Machine × Event)} {p q : Pcb} {w : Word} {vs : List Pcb}

/-- From `s` with the lists `l` to `s'` with the lists `l'` the process `p` and those below it
die, and for the others nothing changes. -/
structure Buried (K : Layout) (p : Pcb) (s : Nucleus) (l : Lists) (s' : Nucleus) (l' : Lists) :
    Prop where
  before : Shape s.lk l
  after : Shape s'.lk l'
  victims : ∀ v, v ∈ l.descendants p ++ [p] ↔ Below l.kids v p
  once : (l.descendants p ++ [p]).Nodup
  /-- No freed PCB is linked in a queue. -/
  unlinked : ∀ q ∈ l'.free, q ∉ l'.ready ∧ ∀ w, q ∉ l'.blocked w
  free : ∀ q, q ∈ l'.free ↔ q ∈ l.free ∨ Below l.kids q p
  /-- The survivors keep their queues and their order. -/
  ready : l'.ready = l.ready.filter (· ∉ l.descendants p)
  blocked : ∀ w, l'.blocked w = (l.blocked w).filter (· ∉ l.descendants p)
  semaphore : ∀ w, ¬ K.IsDev w → s'.mem w =
    s.mem w + BitVec.ofNat 32 ((l.blocked w).countP (· ∈ l.descendants p))
  device : ∀ w, K.IsDev w → s'.mem w = s.mem w
  sftBlkCnt : s'.sftBlkCnt =
    s.sftBlkCnt - (l.descendants p).countP fun v => K.IsDev (s.pcb.pSemAdd v)
  procCnt : s'.procCnt = s.procCnt - (l.descendants p ++ [p]).length
  currentProc : s'.currentProc = none

/-! ## The counters -/

theorem foldl_reap_procCnt (vs : List Pcb) (a : Abs) :
    (vs.foldl (Abs.reap K) a).procCnt = a.procCnt - vs.length := by
  induction vs generalizing a with
  | nil => simp
  | cons v vs ih =>
    have hone : (a.reap K v).procCnt = a.procCnt - 1 := rfl
    rw [List.foldl_cons, ih, hone, List.length_cons]
    omega

/-- Killed waits for devices and the clock are no longer counted. -/
theorem foldl_reap_sftBlkCnt (hnd : vs.Nodup) (a : Abs) :
    (vs.foldl (Abs.reap K) a).sftBlkCnt =
      a.sftBlkCnt - vs.countP fun v => K.IsDev (a.pcb.pSemAdd v) := by
  induction vs generalizing a with
  | nil => simp
  | cons v vs ih =>
    obtain ⟨hv, hnd⟩ := List.nodup_cons.mp hnd
    have hrest : (vs.countP fun u => K.IsDev ((a.reap K v).pcb.pSemAdd u)) =
        vs.countP fun u => K.IsDev (a.pcb.pSemAdd u) := by
      apply List.countP_congr
      intro u hu
      have hne : u ≠ v := fun heq => hv (heq ▸ hu)
      have hsem : (a.reap K v).pcb.pSemAdd u = a.pcb.pSemAdd u := Function.update_of_ne hne _ _
      rw [hsem]
    have hone : (a.reap K v).sftBlkCnt =
        if K.IsDev (a.pcb.pSemAdd v) then a.sftBlkCnt - 1 else a.sftBlkCnt := rfl
    rw [List.foldl_cons, ih hnd, hrest, hone, List.countP_cons]
    by_cases hdev : K.IsDev (a.pcb.pSemAdd v)
    · rw [if_pos hdev, if_pos (decide_eq_true hdev)]
      omega
    · rw [if_neg hdev, if_neg (by simpa using hdev)]
      omega

/-- The victims that wait for `w` are those in its queue. -/
theorem Placed.countP_waiters (hpl : Placed K a place) (hnd : vs.Nodup)
    (hblocked : (a.lk.blocked w).Nodup) (hw : w ≠ NULL) :
    (vs.countP fun v => a.pcb.pSemAdd v = w) = (a.lk.blocked w).countP (· ∈ vs) := by
  have hmem : ∀ v, a.pcb.pSemAdd v = w ↔ v ∈ a.lk.blocked w := by
    intro v
    rw [hpl.semAdd v, (hpl.spot v).blocked w]
    cases place v <;> simp [Place.semAdd, hw.symm]
  rw [List.countP_eq_length_filter, List.countP_eq_length_filter]
  apply List.Perm.length_eq
  rw [List.perm_ext_iff_of_nodup (hnd.filter _) (hblocked.filter _)]
  intro v
  simp [List.mem_filter, hmem, and_comm]

/-! ## The whole tree -/

theorem Placed.unlinked (hpl : Placed K a place) (hq : q ∈ a.lk.free) :
    q ∉ a.lk.ready ∧ ∀ w, q ∉ a.lk.blocked w := by
  have hfree : place q = .free := (hpl.spot q).free.mp hq
  constructor
  · intro hr
    have hplace := (hpl.spot q).ready.mp hr
    rw [hfree] at hplace
    exact absurd hplace (by simp)
  · intro w hb
    have hplace := ((hpl.spot q).blocked w).mp hb
    rw [hfree] at hplace
    exact absurd hplace (by simp)

theorem terminateprocess_buried {s : Nucleus} (hshape : Shape s.lk l) (hinv : Inv K (s.withLk l))
    (hcur : s.currentProc = some p) (hlast : l.VictimsLast p) :
    ∃ s' l', terminateprocess K (some p) s = .ok () s' ∧ Buried K p s l s' l' := by
  let a : Abs := s.withLk l
  obtain ⟨place, hpl⟩ := hinv.placed
  have hv : Victims a place p (l.descendants p) :=
    victims hpl hinv.family hshape.trees.forest.uniqueParents hcur
  obtain ⟨lk', hrun, hshape'⟩ := terminateprocess_runs hpl hinv.family hcur hlast s.lk hshape
  obtain ⟨place', hpl'⟩ := hpl.kill hv hcur
  have hbelow : ∀ v, v ∈ l.descendants p ++ [p] ↔ Below l.kids v p := by
    intro v
    rw [List.mem_append, List.mem_singleton, hv.order.mem_iff, below_iff]
    rfl
  have hfree : (a.kill K p).lk.free = p :: ((l.descendants p).reverse ++ l.free) := by
    rw [Abs.kill_eq]
    exact congrArg (p :: ·) (foldl_reap_free _ _)
  have hmem : ∀ w, (a.kill K p).mem w = if w ≠ NULL ∧ ¬ K.IsDev w then
      s.mem w + BitVec.ofNat 32 ((l.descendants p).countP fun v => s.pcb.pSemAdd v = w)
      else s.mem w := by
    intro w
    rw [Abs.kill_eq]
    exact foldl_reap_mem hv.nodup (a.prune p) w
  refine ⟨_, (a.kill K p).lk, hrun, ?_⟩
  constructor
  case before => exact hshape
  case after => exact hshape'
  case victims => exact hbelow
  case once =>
    rw [nodup_concat]
    exact ⟨hv.notMem, hv.nodup⟩
  case unlinked => exact fun q hq => hpl'.unlinked hq
  case free =>
    intro q
    rw [hfree, ← hbelow, List.mem_cons, List.mem_append, List.mem_append, List.mem_reverse,
      List.mem_singleton]
    tauto
  case ready => exact foldl_reap_ready _ _
  case blocked => exact fun w => foldl_reap_blocked _ _ w
  case semaphore =>
    intro w hdev
    show (a.kill K p).mem w = _
    rw [hmem w]
    by_cases hw : w = NULL
    · -- nobody waits for `NULL`
      have hnone : l.blocked w = [] := by
        apply List.eq_nil_iff_forall_not_mem.mpr
        intro v hb
        exact (hpl.addr v w (((hpl.spot v).blocked w).mp hb)).2 hw
      rw [if_neg fun hor => hor.1 hw, hnone, List.countP_nil]
      exact (BitVec.add_zero _).symm
    · have hcount := hpl.countP_waiters hv.nodup (hshape.queues.nodups_blocked w) hw
      rw [if_pos ⟨hw, hdev⟩]
      exact congrArg (fun n => s.mem w + BitVec.ofNat 32 n) hcount
  case device =>
    intro w hdev
    show (a.kill K p).mem w = _
    rw [hmem w, if_neg fun hor => hor.2 hdev]
  case sftBlkCnt =>
    show (a.kill K p).sftBlkCnt = _
    rw [Abs.kill_eq]
    exact foldl_reap_sftBlkCnt hv.nodup (a.prune p)
  case procCnt =>
    have hcnt := foldl_reap_procCnt (K := K) (l.descendants p) (a.prune p)
    show (a.kill K p).procCnt = _
    rw [Abs.kill_eq]
    show ((l.descendants p).foldl (Abs.reap K) (a.prune p)).procCnt - 1 = _
    have hprune : (a.prune p).procCnt = s.procCnt := rfl
    rw [hcnt, hprune, List.length_append, List.length_singleton]
    omega
  case currentProc =>
    show (a.kill K p).currentProc = none
    rw [Abs.kill_eq]
    rfl

def Machine.entered (m : Machine) (sysOld pgmOld tlbOld : State) : Nucleus :=
  { m.nuc with sysOld := sysOld, pgmOld := pgmOld, tlbOld := tlbOld }

/-- In every state of a run in which `terminateprocess` has found its victims, it leaves the
queues without them if it finds them again. -/
theorem terminateprocess_buries (hrun : Reaches K (Machine.Admits K) h m)
    (hcur : m.nuc.currentProc = some p) (hshape : Shape m.nuc.lk l) (hlast : l.VictimsLast p)
    (sysOld pgmOld tlbOld : State) :
    ∃ s' l', terminateprocess K (some p) (m.entered sysOld pgmOld tlbOld) = .ok () s' ∧
      Buried K p (m.entered sysOld pgmOld tlbOld) l s' l' := by
  obtain ⟨l₀, hholds⟩ := hrun.holds fun _ _ he => he
  obtain rfl := hshape.unique hholds.shape
  obtain ⟨place, hpl⟩ := hholds.sound.inv.placed
  have hinv : Inv K ((m.entered sysOld pgmOld tlbOld).withLk l) :=
    ⟨⟨place, hpl.congr rfl rfl rfl rfl rfl rfl rfl⟩, hholds.sound.inv.family⟩
  exact terminateprocess_buried (s := m.entered sysOld pgmOld tlbOld) hshape hinv hcur hlast

/-! ## A child at the tail, and one at the head -/

/-- The first process and its child, which is the only ready process. -/
theorem terminateprocess_buries_child : ∃ l s' l',
    terminateprocess .sample (some Abs.firstPcb)
      ((Machine.step .sample (boot .sample .sample)
        (.syscall (.call CREATEPROCESS 0 0 0))).entered resetState resetState resetState) =
        .ok () s' ∧
      Buried .sample Abs.firstPcb
        ((Machine.step .sample (boot .sample .sample)
          (.syscall (.call CREATEPROCESS 0 0 0))).entered resetState resetState resetState)
        l s' l' := by
  have hcreate : (boot .sample .sample).Plain .sample (.syscall (.call CREATEPROCESS 0 0 0)) := by
    refine ⟨⟨_, boot_cpu _ _⟩, ?_⟩
    constructor
    case user => decide
    case call => exact .inl rfl
    all_goals exact fun h => absurd h (by decide)
  have hrun : Reaches .sample (Machine.Admits .sample) _ _ :=
    .next (.start ⟨.sample, rfl, rfl⟩) hcreate.admits
  obtain ⟨l, hholds, hcur, hready, hkids⟩ := sample_create
  have hvs : l.descendants Abs.firstPcb = [secondPcb] := by
    rw [Lists.descendants, hkids]
    decide
  have hlast : l.VictimsLast Abs.firstPcb := by
    obtain ⟨place, hpl⟩ := hholds.sound.inv.placed
    have hsecond : secondPcb ∈ l.ready := by
      simp [hready]
    constructor
    · rw [hvs, hready]
      simp
    · intro w
      have hnot : secondPcb ∉ l.blocked w := hpl.apart.readyBlocked secondPcb hsecond w
      rw [hvs, List.filter_cons_of_neg (by simpa using hnot)]
      exact List.nil_suffix
  obtain ⟨s', l', hdone, hburied⟩ :=
    terminateprocess_buries hrun hcur hholds.shape hlast resetState resetState resetState
  exact ⟨l, s', l', hdone, hburied⟩

def thirdPcb : Pcb := ⟨17, by decide⟩

/-- A child is ready in front of its grandparent when its parent is about to end. -/
def victimFirstRun : List (Machine × Event) × Machine :=
  replay (Machine.step .sample) ([], boot .sample .sample) (reused.take 9)

/-- The child's PCB is free and still linked in the ready queue. -/
theorem terminateprocess_keeps_victim :
    Reaches .sample (fun m e => m.cpu.Takes e) victimFirstRun.1 victimFirstRun.2 ∧
      victimFirstRun.2.nuc.currentProc = some secondPcb ∧
      ¬ ∃ l s' l', terminateprocess .sample (some secondPcb) victimFirstRun.2.nuc = .ok () s' ∧
        Buried .sample secondPcb victimFirstRun.2.nuc l s' l' := by
  have hstart : Reaches .sample (fun m e => m.cpu.Takes e) [] (boot .sample .sample) :=
    .start ⟨.sample, rfl, rfl⟩
  refine ⟨hstart.replay (reused.take 9) (by decide +kernel), by decide +kernel, ?_⟩
  rintro ⟨l, s', l', hrun, hburied⟩
  have hend : endState (terminateprocess .sample (some secondPcb)) victimFirstRun.2.nuc = s' := by
    rw [endState, hrun]
  have hfree : s'.lk.pcbFree = some secondPcb := by
    rw [← hend]
    decide +kernel
  have hnext : s'.lk.pNext secondPcb = some thirdPcb := by
    rw [← hend]
    decide +kernel
  have htail : s'.lk.readyQue = some Abs.firstPcb := by
    rw [← hend]
    decide +kernel
  have hhead : s'.lk.pNext Abs.firstPcb = some thirdPcb := by
    rw [← hend]
    decide +kernel
  have hmem : thirdPcb ∈ l'.free := by
    have hchain := hburied.after.queues.free
    rw [hfree] at hchain
    cases hlist : l'.free with
    | nil =>
      rw [hlist] at hchain
      exact absurd hchain (by simp)
    | cons q qs =>
      rw [hlist] at hchain
      obtain ⟨hq, hrest⟩ := hchain
      obtain rfl : secondPcb = q := Option.some.inj hq
      rw [hnext] at hrest
      cases qs with
      | nil => exact absurd hrest (by simp)
      | cons r rs =>
        obtain rfl : thirdPcb = r := Option.some.inj hrest.1
        simp
  have hqueue := hburied.after.queues.ready
  rw [htail] at hqueue
  cases hlist : l'.ready with
  | nil =>
    rw [hlist] at hqueue
    obtain ⟨z, hz, -⟩ := hqueue
    exact absurd hz (by simp)
  | cons q qs =>
    rw [hlist] at hqueue
    obtain rfl : thirdPcb = q := Option.some.inj (hhead.symm.trans hqueue.next_tail)
    exact (hburied.unlinked thirdPcb hmem).1 (by simp [hlist])

end Kaya
