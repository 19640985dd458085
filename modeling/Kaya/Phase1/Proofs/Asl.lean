import Kaya.Phase1.Asl
import Kaya.Phase1.Proofs.Queue
import Kaya.Lib.Chain

/-!
# The active semaphore list

`IsAsl lk Q` says that the descriptors represent the map `Q` from semaphore
addresses to queues: the active ones are sorted between the sentinels, each
other active one carries the non-empty queue of its address, and the rest are
free.  Every function of `asl.c` then acts on `Q`.
-/

namespace Kaya

open Lib

variable {π δ : Type}

/-- Everything but queue links of nodes in `q` and descriptors is the same. -/
structure QueueStep (q : π → Prop) (lk lk' : Links π δ) : Prop where
  prnt : lk'.pPrnt = lk.pPrnt
  child : lk'.pChild = lk.pChild
  sib : lk'.pSib = lk.pSib
  pcbFree : lk'.pcbFree = lk.pcbFree
  agree : AgreeOn (fun u => ¬ q u) lk.pNext lk'.pNext lk.pPrev lk'.pPrev

/-- The key by which descriptors are sorted. -/
def Links.key (lk : Links π δ) (d : δ) : Nat := (lk.sSemAdd d).toNat

/-- The descriptors in `act` and `free` represent `Q`. -/
structure AslShape (lk : Links π δ) (Q : Word → List π) (act free : List δ) :
    Prop where
  active : Chain lk.sNext lk.semdActive act
  unused : Chain lk.sNext lk.semdFree free
  all : ∀ d, d ∈ act ∨ d ∈ free
  disj : ∀ d ∈ act, d ∉ free
  sorted : act.Pairwise (fun d e => lk.key d < lk.key e)
  first : ∃ d ∈ act, lk.sSemAdd d = MININT
  last : ∃ d ∈ act, lk.sSemAdd d = MAXINT
  queue : ∀ d ∈ act, lk.sSemAdd d ≠ MININT → lk.sSemAdd d ≠ MAXINT →
    Q (lk.sSemAdd d) ≠ [] ∧
      IsQueue lk.pNext lk.pPrev (lk.sProcQ d) (Q (lk.sSemAdd d))
  keys : ∀ a, Q a ≠ [] → a ≠ MININT ∧ a ≠ MAXINT ∧
    ∃ d ∈ act, lk.sSemAdd d = a

def IsAsl (lk : Links π δ) (Q : Word → List π) : Prop :=
  ∃ act free, AslShape lk Q act free

/-- No PCB is in the queues of two semaphores. -/
def QueuesDisjoint (Q : Word → List π) : Prop :=
  ∀ a b p, p ∈ Q a → p ∈ Q b → a = b

/-- The active descriptors, in the order of their links, and the free ones. -/
structure Lined (lk : Links π δ) (act free : List δ) : Prop where
  active : Chain lk.sNext lk.semdActive act
  unused : Chain lk.sNext lk.semdFree free

theorem AslShape.lined {lk : Links π δ} {Q : Word → List π} {act free : List δ}
    (h : AslShape lk Q act free) : Lined lk act free := ⟨h.active, h.unused⟩

/-- The descriptors represent at most one map from addresses to queues. -/
theorem IsAsl.unique {lk : Links π δ} {Q Q' : Word → List π} (h : IsAsl lk Q) (h' : IsAsl lk Q') :
    Q = Q' := by
  have hone : ∀ {Q Q' : Word → List π} {a : Word}, IsAsl lk Q → IsAsl lk Q' → Q a ≠ [] →
      Q a = Q' a := by
    rintro Q Q' a ⟨act, free, h⟩ ⟨act', free', h'⟩ ha
    obtain rfl := h.active.unique h'.active
    obtain ⟨hmin, hmax, d, hd, rfl⟩ := h.keys a ha
    exact IsQueue.unique (h.queue d hd hmin hmax).2 (h'.queue d hd hmin hmax).2
  funext a
  by_cases ha : Q a = []
  · by_contra hne
    have ha' : Q' a ≠ [] := fun hnil => hne (ha.trans hnil.symm)
    exact hne (hone h' h ha').symm
  · exact hone h h' ha

theorem Lined.unique {lk : Links π δ} {act free act' free' : List δ} (h : Lined lk act free)
    (h' : Lined lk act' free') : act = act' ∧ free = free' :=
  ⟨h.active.unique h'.active, h.unused.unique h'.unused⟩

/-- From `lk` to `lk'` the descriptor of `a` goes from its place in the active list to the
front of the free list if `gone`, and the other descriptors stay where they are. -/
def Released (lk lk' : Links π δ) (a : Word) (gone : Prop) : Prop :=
  ∃ act free act' free', Lined lk act free ∧ Lined lk' act' free' ∧
    (∀ d ∈ act', lk'.sSemAdd d = lk.sSemAdd d) ∧ (¬ gone → act' = act ∧ free' = free) ∧
    (gone → ∃ pre e post, lk.sSemAdd e = a ∧ act = pre ++ e :: post ∧ act' = pre ++ post ∧
      free' = e :: free)

theorem Released.keep {lk lk' : Links π δ} {act free : List δ} (h : Lined lk act free)
    (h' : Lined lk' act free) (hadd : lk'.sSemAdd = lk.sSemAdd) (a : Word) :
    Released lk lk' a False :=
  ⟨act, free, act, free, h, h', fun d _ => congrFun hadd d, fun _ => ⟨rfl, rfl⟩, False.elim⟩

theorem Released.trans {lk lk₁ lk₂ : Links π δ} {a : Word} {g g' : Prop}
    (h : Released lk lk₁ a g) (h' : Released lk₁ lk₂ a g') (hone : ¬ g ∨ ¬ g') :
    Released lk lk₂ a (g ∨ g') := by
  obtain ⟨act, free, act₁, free₁, hl, hl₁, hadd, hkeep, hgone⟩ := h
  obtain ⟨act₁', free₁', act₂, free₂, hl₁', hl₂, hadd', hkeep', hgone'⟩ := h'
  obtain ⟨rfl, rfl⟩ := hl₁.unique hl₁'
  -- a descriptor that is active in the end was active in the middle
  have hmid : ∀ d ∈ act₂, d ∈ act₁ := by
    intro d hd
    by_cases hg' : g'
    · obtain ⟨pre, e, post, -, rfl, rfl, -⟩ := hgone' hg'
      simp only [List.mem_append, List.mem_cons] at hd ⊢
      tauto
    · rwa [← (hkeep' hg').1]
  refine ⟨act, free, act₂, free₂, hl, hl₂, fun d hd => ?_, ?_, ?_⟩
  · rw [hadd' d hd, hadd d (hmid d hd)]
  · intro hnot
    obtain ⟨hg, hg'⟩ := not_or.mp hnot
    obtain ⟨rfl, rfl⟩ := hkeep hg
    exact hkeep' hg'
  · intro hor
    by_cases hg : g
    · obtain ⟨rfl, rfl⟩ := hkeep' (hone.resolve_left (not_not_intro hg))
      exact hgone hg
    · obtain ⟨rfl, rfl⟩ := hkeep hg
      obtain ⟨pre, e, post, he, hact, hrest⟩ := hgone' (hor.resolve_left hg)
      refine ⟨pre, e, post, ?_, hact, hrest⟩
      rw [← hadd e (by rw [hact]; simp), he]

/-- An address that can have a descriptor of its own. -/
def SemAddr (a : Word) : Prop := a ≠ MININT ∧ a ≠ MAXINT

theorem toNat_le_MAXINT (a : Word) : a.toNat ≤ MAXINT.toNat := by
  have hmax : MAXINT.toNat = 2 ^ 32 - 1 := rfl
  have := a.isLt
  omega

namespace AslShape

variable {lk : Links π δ} {Q : Word → List π} {act free : List δ}

theorem semAdd_inj (h : AslShape lk Q act free) {d e : δ} (hd : d ∈ act)
    (he : e ∈ act) (heq : lk.sSemAdd d = lk.sSemAdd e) : d = e := by
  by_contra hne
  have hkey : lk.key d = lk.key e := by simp [Links.key, heq]
  rcases List.Pairwise.forall_of_forall_of_flip
    (R := fun d e => lk.key d = lk.key e → d = e)
    (fun x _ _ => rfl) (h.sorted.imp (fun hlt heq => by omega))
    (h.sorted.imp (fun hlt heq => by omega)) hd he hkey with rfl
  exact hne rfl

/-- Where the search for `a` ends. -/
theorem split (h : AslShape lk Q act free) {a : Word} (ha : a ≠ MININT) :
    ∃ pre d e post, act = pre ++ d :: e :: post ∧
      (∀ x ∈ pre ++ [d], lk.key x < a.toNat) ∧
      ∀ x ∈ e :: post, a.toNat ≤ lk.key x := by
  apply exists_split_of_sorted h.sorted
  · obtain ⟨d, hd, hkey⟩ := h.first
    refine ⟨d, hd, ?_⟩
    rw [Links.key, hkey]
    have : a.toNat ≠ 0 := fun h0 => ha (BitVec.eq_of_toNat_eq h0)
    change 0 < a.toNat
    omega
  · obtain ⟨d, hd, hkey⟩ := h.last
    refine ⟨d, hd, ?_⟩
    rw [Links.key, hkey]
    exact toNat_le_MAXINT a

/-- The descriptor at the place of `a` carries `a` exactly when `a` has waiters. -/
theorem key_eq_iff (h : AslShape lk Q act free) {a : Word} (ha : SemAddr a)
    {pre post : List δ} {d e : δ} (hact : act = pre ++ d :: e :: post)
    (hlt : ∀ x ∈ pre ++ [d], lk.key x < a.toNat)
    (hge : ∀ x ∈ e :: post, a.toNat ≤ lk.key x) :
    lk.sSemAdd e = a ↔ Q a ≠ [] := by
  constructor
  · rintro rfl
    exact (h.queue e (by simp [hact]) ha.1 ha.2).1
  · intro hQ
    obtain ⟨-, -, x, hx, hxa⟩ := h.keys a hQ
    have hkx : lk.key x = a.toNat := by rw [Links.key, hxa]
    have hx' : x ∈ pre ++ [d] ∨ x ∈ e :: post := by
      rw [hact] at hx
      simp only [List.mem_append, List.mem_cons] at hx ⊢
      tauto
    rcases hx' with hx' | hx'
    · have := hlt x hx'
      omega
    · -- `e` is the least of `e :: post`, so it is `x`
      rcases List.mem_cons.mp hx' with rfl | hpost
      · exact hxa
      · have hs := h.sorted
        rw [hact, List.pairwise_append] at hs
        have hex := (List.pairwise_cons.mp
          (List.pairwise_cons.mp hs.2.1).2).1 x hpost
        have hea := hge e (by simp)
        omega

theorem next_eq (h : AslShape lk Q act free) {pre post : List δ} {d e : δ}
    (hact : act = pre ++ d :: e :: post) : lk.sNext d = some e := by
  have hc := h.active
  rw [hact] at hc
  exact hc.drop_left.1

theorem nodup_queue (h : AslShape lk Q act free) (a : Word) : (Q a).Nodup := by
  by_cases hQ : Q a = []
  · rw [hQ]
    exact List.nodup_nil
  · obtain ⟨hmin, hmax, d, hd, rfl⟩ := h.keys a hQ
    exact (h.queue d hd hmin hmax).2.nodup

/-- A queue of an active address is exchanged for another non-empty one. -/
theorem requeue [DecidableEq δ] (h : AslShape lk Q act free) {e : δ} {a : Word}
    (he : e ∈ act) (hkey : lk.sSemAdd e = a) {next prev : π → Option π}
    {tp : Option π} {l : List π} (hl : l ≠ []) (hq : IsQueue next prev tp l)
    (hother : ∀ b, b ≠ a →
      AgreeOn (· ∈ Q b) lk.pNext next lk.pPrev prev) (ha : SemAddr a) :
    AslShape { lk with
      pNext := next, pPrev := prev
      sProcQ := Function.update lk.sProcQ e tp } (Function.update Q a l)
      act free where
  active := h.active
  unused := h.unused
  all := h.all
  disj := h.disj
  sorted := h.sorted
  first := h.first
  last := h.last
  queue := by
    intro d hd hmin hmax
    by_cases hde : d = e
    · subst hde
      simp only [hkey, Function.update_self]
      exact ⟨hl, hq⟩
    · have hda : lk.sSemAdd d ≠ a := fun heq =>
        hde (h.semAdd_inj hd he (heq.trans hkey.symm))
      simp only [Function.update_of_ne hda, Function.update_of_ne hde]
      obtain ⟨hne, hqd⟩ := h.queue d hd hmin hmax
      exact ⟨hne, hqd.congr (hother _ hda)⟩
  keys := by
    intro b hb
    by_cases hba : b = a
    · subst hba
      exact ⟨ha.1, ha.2, e, he, hkey⟩
    · rw [Function.update_of_ne hba] at hb
      exact h.keys b hb

/-- The queue of `a` becomes empty: its descriptor `e` returns to the free
list. -/
theorem release [DecidableEq δ] (h : AslShape lk Q act free)
    {pre post : List δ} {d e : δ} {a : Word} (hact : act = pre ++ d :: e :: post)
    (hkey : lk.sSemAdd e = a) (ha : SemAddr a) {next prev : π → Option π}
    (hother : ∀ b, b ≠ a →
      AgreeOn (· ∈ Q b) lk.pNext next lk.pPrev prev) :
    AslShape { lk with
      pNext := next, pPrev := prev
      sNext := Function.update (Function.update lk.sNext d (lk.sNext e)) e
        lk.semdFree
      sSemAdd := Function.update lk.sSemAdd e NULL
      sProcQ := Function.update lk.sProcQ e none
      semdFree := some e } (Function.update Q a [])
      (pre ++ d :: post) (e :: free) := by
  have hc := h.active
  have hnd := hc.nodup
  rw [hact] at hc hnd
  have heact : e ∈ act := by simp [hact]
  have hdact : d ∈ act := by simp [hact]
  have hdfree : d ∉ free := h.disj d hdact
  have hefree : e ∉ free := h.disj e heact
  have hnd' : (pre ++ d :: post).Nodup ∧ e ∉ pre ++ d :: post := by
    simp only [List.nodup_append, List.nodup_cons, List.mem_cons, not_or,
      List.mem_append] at hnd ⊢
    grind
  have hmem : ∀ x, x ∈ pre ++ d :: post → x ∈ act ∧ x ≠ e := by
    intro x hx
    refine ⟨by rw [hact]; simp at hx ⊢; tauto, ?_⟩
    rintro rfl
    exact hnd'.2 hx
  have hkeep : ∀ x, x ∈ act → x ≠ e → x ∈ pre ++ d :: post := by
    intro x hx hxe
    rw [hact] at hx
    simp at hx ⊢
    tauto
  constructor
  case active =>
    exact hc.remove_after.update_of_notMem hnd'.2
  case unused =>
    refine ⟨rfl, ?_⟩
    simp only [Function.update_self]
    exact (h.unused.update_of_notMem hdfree).update_of_notMem hefree
  case all =>
    intro x
    by_cases hxe : x = e
    · simp [hxe]
    · rcases h.all x with hx | hx
      · exact Or.inl (hkeep x hx hxe)
      · exact Or.inr (by simp [hx])
  case disj =>
    intro x hx hxf
    rcases List.mem_cons.mp hxf with rfl | hxf
    · exact hnd'.2 hx
    · exact h.disj x (hmem x hx).1 hxf
  case sorted =>
    have hsub : (pre ++ d :: post).Sublist act := by
      rw [hact]
      simp
    refine (h.sorted.sublist hsub).imp_of_mem ?_
    intro x y hx hy hlt
    simpa [Links.key, Function.update_of_ne (hmem x hx).2,
      Function.update_of_ne (hmem y hy).2] using hlt
  case first =>
    obtain ⟨x, hx, hxk⟩ := h.first
    have hxe : x ≠ e := by
      rintro rfl
      exact ha.1 (hkey.symm.trans hxk)
    exact ⟨x, hkeep x hx hxe, by simp [Function.update_of_ne hxe, hxk]⟩
  case last =>
    obtain ⟨x, hx, hxk⟩ := h.last
    have hxe : x ≠ e := by
      rintro rfl
      exact ha.2 (hkey.symm.trans hxk)
    exact ⟨x, hkeep x hx hxe, by simp [Function.update_of_ne hxe, hxk]⟩
  case queue =>
    intro x hx hmin hmax
    obtain ⟨hxact, hxe⟩ := hmem x hx
    simp only [Function.update_of_ne hxe] at hmin hmax ⊢
    have hxa : lk.sSemAdd x ≠ a := fun heq =>
      hxe (h.semAdd_inj hxact heact (heq.trans hkey.symm))
    rw [Function.update_of_ne hxa]
    obtain ⟨hne, hq⟩ := h.queue x hxact hmin hmax
    exact ⟨hne, hq.congr (hother _ hxa)⟩
  case keys =>
    intro b hb
    by_cases hba : b = a
    · simp [hba] at hb
    · rw [Function.update_of_ne hba] at hb
      obtain ⟨h0, h1, x, hx, hxb⟩ := h.keys b hb
      have hxe : x ≠ e := by
        rintro rfl
        exact hba (hxb.symm.trans hkey)
      exact ⟨h0, h1, x, hkeep x hx hxe, by simp [Function.update_of_ne hxe, hxb]⟩

/-- `a` gets its first waiter and, at its place behind `d`, the first free
descriptor `f`. -/
theorem acquire [DecidableEq δ] {f : δ} {fs : List δ}
    (h : AslShape lk Q act (f :: fs)) {pre post : List δ} {d e : δ} {a : Word}
    (hact : act = pre ++ d :: e :: post) (ha : SemAddr a)
    (hlt : ∀ x ∈ pre ++ [d], lk.key x < a.toNat)
    (hgt : ∀ x ∈ e :: post, a.toNat < lk.key x) {next prev : π → Option π}
    {tp : Option π} {l : List π} (hl : l ≠ []) (hq : IsQueue next prev tp l)
    (hother : ∀ b, b ≠ a →
      AgreeOn (· ∈ Q b) lk.pNext next lk.pPrev prev) :
    AslShape { lk with
      pNext := next, pPrev := prev
      sNext := Function.update (Function.update lk.sNext f (some e)) d (some f)
      sSemAdd := Function.update lk.sSemAdd f a
      sProcQ := Function.update lk.sProcQ f tp
      semdFree := lk.sNext f } (Function.update Q a l)
      (pre ++ d :: f :: e :: post) fs := by
  have hnext := h.next_eq hact
  have hdact : d ∈ act := by simp [hact]
  have hfact : f ∉ act := fun hf => h.disj f hf (by simp)
  have hffs : f ∉ fs := (List.nodup_cons.mp h.unused.nodup).1
  have hdfs : d ∉ fs := fun hd => h.disj d hdact (by simp [hd])
  have hne : ∀ x ∈ act, x ≠ f := fun x hx heq => hfact (heq ▸ hx)
  have hold : ∀ x, x ∈ pre ++ d :: f :: e :: post ↔ x = f ∨ x ∈ act := by
    intro x
    rw [hact]
    simp
    tauto
  constructor
  case active =>
    have hc := h.active
    rw [hact] at hc
    have hins := hc.insert_after (b := f) (by rw [← hact]; exact hfact)
    rwa [hnext] at hins
  case unused =>
    exact (h.unused.2.update_of_notMem hffs).update_of_notMem hdfs
  case all =>
    intro x
    rw [hold]
    rcases h.all x with hx | hx
    · exact Or.inl (Or.inr hx)
    · rcases List.mem_cons.mp hx with rfl | hx
      · exact Or.inl (Or.inl rfl)
      · exact Or.inr hx
  case disj =>
    intro x hx hxf
    rcases (hold x).mp hx with rfl | hx
    · exact hffs hxf
    · exact h.disj x hx (by simp [hxf])
  case sorted =>
    let key := fun x => (Function.update lk.sSemAdd f a x).toNat
    change List.Pairwise (fun x y => key x < key y) _
    have hkf : key f = a.toNat := by simp [key]
    have hkact : ∀ x ∈ act, key x = lk.key x := by
      intro x hx
      simp [key, Links.key, Function.update_of_ne (hne x hx)]
    have hs : act.Pairwise (fun x y => key x < key y) := by
      refine h.sorted.imp_of_mem ?_
      intro x y hx hy hxy
      rwa [hkact x hx, hkact y hy]
    have hsplit : act = (pre ++ [d]) ++ e :: post := by simp [hact]
    rw [hsplit, List.pairwise_append] at hs
    rw [show pre ++ d :: f :: e :: post = (pre ++ [d]) ++ f :: e :: post by simp]
    refine List.pairwise_append.mpr
      ⟨hs.1, List.pairwise_cons.mpr ⟨?_, hs.2.1⟩, ?_⟩
    · intro y hy
      have hyact : y ∈ act := by rw [hsplit]; exact List.mem_append_right _ hy
      rw [hkf, hkact y hyact]
      exact hgt y hy
    · intro x hx y hy
      rcases List.mem_cons.mp hy with rfl | hy
      · have hxact : x ∈ act := by rw [hsplit]; exact List.mem_append_left _ hx
        rw [hkf, hkact x hxact]
        exact hlt x hx
      · exact hs.2.2 x hx y hy
  case first =>
    obtain ⟨x, hx, hxk⟩ := h.first
    exact ⟨x, (hold x).mpr (Or.inr hx),
      by simp [Function.update_of_ne (hne x hx), hxk]⟩
  case last =>
    obtain ⟨x, hx, hxk⟩ := h.last
    exact ⟨x, (hold x).mpr (Or.inr hx),
      by simp [Function.update_of_ne (hne x hx), hxk]⟩
  case queue =>
    intro x hx hmin hmax
    rcases (hold x).mp hx with rfl | hx
    · simp only [Function.update_self]
      exact ⟨hl, hq⟩
    · simp only [Function.update_of_ne (hne x hx)] at hmin hmax ⊢
      have hxa : lk.sSemAdd x ≠ a := by
        intro heq
        have hkx : lk.key x = a.toNat := by simp [Links.key, heq]
        rw [hact] at hx
        have hx' : x ∈ pre ++ [d] ∨ x ∈ e :: post := by
          simp at hx ⊢
          tauto
        rcases hx' with hx' | hx'
        · have := hlt x hx'
          omega
        · have := hgt x hx'
          omega
      rw [Function.update_of_ne hxa]
      obtain ⟨hQ, hqx⟩ := h.queue x hx hmin hmax
      exact ⟨hQ, hqx.congr (hother _ hxa)⟩
  case keys =>
    intro b hb
    by_cases hba : b = a
    · subst hba
      exact ⟨ha.1, ha.2, f, (hold f).mpr (Or.inl rfl), by simp⟩
    · rw [Function.update_of_ne hba] at hb
      obtain ⟨h0, h1, x, hx, hxb⟩ := h.keys b hb
      exact ⟨h0, h1, x, (hold x).mpr (Or.inr hx),
        by simp [Function.update_of_ne (hne x hx), hxb]⟩

end AslShape

/-! ## Searching -/

theorem findASemdLoop_eq {s : Phase1 π δ} {a : Word} {pre post : List δ}
    {d e c : δ} {n : Nat}
    (hc : Chain s.lk.sNext (some c) (pre ++ d :: e :: post))
    (hlt : ∀ x ∈ pre ++ [d], s.lk.key x < a.toNat)
    (hge : a.toNat ≤ s.lk.key e) (hn : pre.length < n) :
    findASemdLoop a n (some c) s = .ok (some d) s := by
  induction pre generalizing c n with
  | nil =>
      obtain ⟨n, rfl⟩ := Nat.exists_eq_succ_of_ne_zero (Nat.ne_of_gt hn)
      obtain rfl : c = d := by simpa using hc.1
      have hnext : s.lk.sNext c = some e := hc.2.1
      have hnlt : ¬ s.lk.sSemAdd e < a := by
        rw [BitVec.lt_def]
        exact not_lt.mpr hge
      simp [findASemdLoop, getSNext, getSSemAdd, deref, hnext, hnlt]
  | cons x pre ih =>
      obtain ⟨n, rfl⟩ := Nat.exists_eq_succ_of_ne_zero
        (Nat.ne_of_gt (Nat.zero_lt_of_lt hn))
      obtain rfl : c = x := by simpa using hc.1
      obtain ⟨y, hy⟩ : ∃ y, s.lk.sNext c = some y := by
        cases pre with
        | nil => exact ⟨d, hc.2.1⟩
        | cons y pre => exact ⟨y, hc.2.1⟩
      have hylt : s.lk.sSemAdd y < a := by
        rw [BitVec.lt_def]
        apply hlt y
        have hhead := hc.2.eq_head?
        rw [hy] at hhead
        cases pre <;> simp_all
      have hrec := ih (c := y) (n := n) (hy ▸ hc.2)
        (fun z hz => hlt z (by simp at hz ⊢; tauto))
        (by simp at hn; omega)
      simp [findASemdLoop, getSNext, getSSemAdd, deref, hy, hylt, hrec]

theorem findASemd_eq [Fintype δ] {s : Phase1 π δ} {Q : Word → List π} {act free : List δ}
    (h : AslShape s.lk Q act free) {a : Word} {pre post : List δ} {d e : δ}
    (hact : act = pre ++ d :: e :: post)
    (hlt : ∀ x ∈ pre ++ [d], s.lk.key x < a.toNat)
    (hge : ∀ x ∈ e :: post, a.toNat ≤ s.lk.key x) :
    findASemd a s = .ok (some d) s := by
  have hc := h.active
  have hlen : act.length ≤ Fintype.card δ := hc.nodup.length_le_card
  rw [hact] at hc hlen
  obtain ⟨c, hc0⟩ : ∃ c, s.lk.semdActive = some c := by
    rw [hc.eq_head?]
    cases pre <;> simp
  rw [hc0] at hc
  simp only [List.length_append, List.length_cons] at hlen
  have hloop := findASemdLoop_eq (n := Fintype.card δ + 1) hc hlt
    (hge e (by simp)) (by omega)
  simp [findASemd, hc0, hloop]

/-! ## The operations -/

section Operations

variable [DecidableEq π] [DecidableEq δ] [Fintype δ]

omit [DecidableEq π] in
/-- While some PCB is in no queue, a descriptor is free: every active one but
the sentinels has a waiter of its own. -/
theorem IsAsl.room [Fintype π] {lk : Links π δ} {Q : Word → List π}
    (h : IsAsl lk Q) (hdis : QueuesDisjoint Q) {p : π} (hp : ∀ b, p ∉ Q b)
    (hcard : Fintype.card π + 2 ≤ Fintype.card δ) : lk.semdFree ≠ none := by
  obtain ⟨act, free, h⟩ := h
  intro hnone
  obtain rfl : free = [] := h.unused.none_iff.mp hnone
  have hall : ∀ d, d ∈ act := fun d => by simpa using h.all d
  obtain ⟨lo, -, hlo⟩ := h.first
  obtain ⟨hi, -, hhi⟩ := h.last
  let inner := act.filter fun d =>
    lk.sSemAdd d ≠ MININT ∧ lk.sSemAdd d ≠ MAXINT
  have hinner : ∀ d ∈ inner, d ∈ act ∧
      lk.sSemAdd d ≠ MININT ∧ lk.sSemAdd d ≠ MAXINT := by
    intro d hd
    simpa [inner] using hd
  -- all descriptors are active, and at most two of them are sentinels
  have hδ : Fintype.card δ ≤ inner.length + 2 := by
    have hsub : act ⊆ lo :: hi :: inner := by
      intro d hd
      by_cases hdlo : lk.sSemAdd d = MININT
      · simp [h.semAdd_inj hd (hall lo) (hdlo.trans hlo.symm)]
      · by_cases hdhi : lk.sSemAdd d = MAXINT
        · simp [h.semAdd_inj hd (hall hi) (hdhi.trans hhi.symm)]
        · simp [inner, hd, hdlo, hdhi]
    have hlen := (h.active.nodup.subperm hsub).length_le
    have huniv : Fintype.card δ = act.length := by
      rw [← List.toFinset_card_of_nodup h.active.nodup, ← Finset.card_univ]
      congr 1
      ext d
      simp [hall d]
    simpa [huniv] using hlen
  -- distinct descriptors have distinct first waiters, none of which is `p`
  have hπ : inner.length + 1 ≤ Fintype.card π := by
    let waiter : δ → π := fun d => (Q (lk.sSemAdd d)).head?.getD p
    have hwaiter : ∀ d ∈ inner, waiter d ∈ Q (lk.sSemAdd d) := by
      intro d hd
      obtain ⟨hact, hmin, hmax⟩ := hinner d hd
      have hne := (h.queue d hact hmin hmax).1
      simp only [waiter]
      cases hQ : Q (lk.sSemAdd d) with
      | nil => exact absurd hQ hne
      | cons q qs => simp
    have hnd : (p :: inner.map waiter).Nodup := by
      refine List.nodup_cons.mpr ⟨?_, ?_⟩
      · rintro hmem
        obtain ⟨d, hd, hdp⟩ := List.mem_map.mp hmem
        exact hp _ (hdp ▸ hwaiter d hd)
      · refine (h.active.nodup.filter _).map_on ?_
        intro d hd e he heq
        have hQe := hwaiter e he
        rw [← heq] at hQe
        exact h.semAdd_inj (hinner d hd).1 (hinner e he).1
          (hdis _ _ _ (hwaiter d hd) hQe)
    have hlen := hnd.length_le_card
    simpa using hlen
  omega

theorem insertBlocked_spec {s : Phase1 π δ} {Q : Word → List π}
    (h : IsAsl s.lk Q) (hdis : QueuesDisjoint Q) {a : Word} (ha : SemAddr a)
    {p : π} (hp : ∀ b, p ∉ Q b) (hroom : Q a = [] → s.lk.semdFree ≠ none) :
    ∃ lk, insertBlocked a (some p) s = .ok false
        ⟨lk, { s.pcb with pSemAdd := Function.update s.pcb.pSemAdd p a }⟩ ∧
      IsAsl lk (Function.update Q a (Q a ++ [p])) ∧
      QueueStep (fun u => u ∈ Q a ∨ u = p) s.lk lk := by
  obtain ⟨act, free, h⟩ := h
  obtain ⟨pre, d, e, post, hact, hlt, hge⟩ := h.split ha.1
  have hfind := findASemd_eq h hact hlt hge
  have hnext := h.next_eq hact
  have hiff := h.key_eq_iff ha hact hlt hge
  have heact : e ∈ act := by simp [hact]
  let s₁ : Phase1 π δ :=
    ⟨s.lk, { s.pcb with pSemAdd := Function.update s.pcb.pSemAdd p a }⟩
  by_cases hkey : s.lk.sSemAdd e = a
  · -- the semaphore is active
    have hqe := (h.queue e heact (hkey ▸ ha.1) (hkey ▸ ha.2)).2
    rw [hkey] at hqe
    obtain ⟨next, prev, hins, hq, hagree⟩ :=
      insertProcQ_spec (s := s₁) hqe (hp a)
    have hother : ∀ b, b ≠ a →
        AgreeOn (· ∈ Q b) s.lk.pNext next s.lk.pPrev prev := by
      intro b hb u hu
      exact hagree u ⟨fun hua => hb (hdis b a u hu hua),
        fun hup => hp b (hup ▸ hu)⟩
    refine ⟨_, ?_, ⟨act, free,
      h.requeue heact hkey (by simp) hq hother ha⟩, ⟨rfl, rfl, rfl, rfl, ?_⟩⟩
    · simp [insertBlocked, hfind, getSNext, getSSemAdd, getSProcQ, setSProcQ,
        setPSemAdd, deref, hnext, hkey, s₁, hins, Phase1.relink]
    · intro u hu
      exact hagree u (not_or.mp hu)
  · -- a new descriptor is inserted in front of `e`
    have hQ : Q a = [] := by
      by_contra hne
      exact hkey (hiff.mpr hne)
    cases free with
    | nil => exact absurd h.unused (hroom hQ)
    | cons f fs =>
        have hfree := h.unused.1
        have hfe : f ≠ e := by
          rintro rfl
          exact h.disj f heact (by simp)
        have hfd : f ≠ d := by
          rintro rfl
          exact h.disj f (by simp [hact]) (by simp)
        have hgt : ∀ x ∈ e :: post, a.toNat < s.lk.key x := by
          have hea : a.toNat ≠ s.lk.key e := fun heq =>
            hkey (BitVec.eq_of_toNat_eq heq.symm)
          intro x hx
          have hex : s.lk.key e ≤ s.lk.key x := by
            rcases List.mem_cons.mp hx with rfl | hpost
            · exact le_rfl
            · have hs := h.sorted
              rw [hact, List.pairwise_append] at hs
              exact le_of_lt ((List.pairwise_cons.mp
                (List.pairwise_cons.mp hs.2.1).2).1 x hpost)
          have := hge e (by simp)
          omega
        have hother : ∀ b, b ≠ a → AgreeOn (· ∈ Q b)
            s.lk.pNext (Function.update s.lk.pNext p (some p))
            s.lk.pPrev (Function.update s.lk.pPrev p (some p)) := by
          intro b _ u hu
          have hup : u ≠ p := fun heq => hp b (heq ▸ hu)
          exact ⟨Function.update_of_ne hup _ _, Function.update_of_ne hup _ _⟩
        have hshape := h.acquire hact ha hlt hgt (l := [p]) (by simp)
          (IsQueue.singleton p) hother
        simp only [hQ, List.nil_append]
        refine ⟨_, ?_, ⟨_, _, hshape⟩, ⟨rfl, rfl, rfl, rfl, ?_⟩⟩
        · have hae : a ≠ s.lk.sSemAdd e := Ne.symm hkey
          have hdf : d ≠ f := Ne.symm hfd
          simp [insertBlocked, hfind, getSNext, getSSemAdd, getSProcQ,
            setSProcQ, setPSemAdd, deref, hnext, hae, hfree, allocSemd,
            setSemdFree, setSNext, setSSemAdd, mkEmptyProcQ,
            insertProcQ_none, Phase1.relink]
        · intro u hu
          have hup : u ≠ p := (not_or.mp hu).2
          exact ⟨Function.update_of_ne hup _ _, Function.update_of_ne hup _ _⟩

omit [DecidableEq π] [DecidableEq δ] in
theorem findASemd_inactive {s : Phase1 π δ} {Q : Word → List π} (h : IsAsl s.lk Q)
    {a : Word} (ha : SemAddr a) (hQ : Q a = []) :
    ∃ d e, findASemd a s = .ok (some d) s ∧ s.lk.sNext d = some e ∧ s.lk.sSemAdd e ≠ a := by
  obtain ⟨act, free, h⟩ := h
  obtain ⟨pre, d, e, post, hact, hlt, hge⟩ := h.split ha.1
  refine ⟨d, e, findASemd_eq h hact hlt hge, h.next_eq hact, ?_⟩
  intro heq
  exact (h.key_eq_iff ha hact hlt hge).mp heq hQ

theorem insertBlocked_null {s : Phase1 π δ} {Q : Word → List π} (h : IsAsl s.lk Q)
    {a : Word} (ha : SemAddr a) : insertBlocked a none s = .ok true s := by
  obtain ⟨act, free, h⟩ := h
  obtain ⟨pre, d, e, post, hact, hlt, hge⟩ := h.split ha.1
  simp [insertBlocked, findASemd_eq h hact hlt hge, getSNext, deref]

theorem insertBlocked_full {s : Phase1 π δ} {Q : Word → List π} (h : IsAsl s.lk Q)
    {a : Word} (ha : SemAddr a) (hQ : Q a = []) (hfull : s.lk.semdFree = none)
    (p : π) : insertBlocked a (some p) s = .ok true s := by
  obtain ⟨d, e, hfind, hnext, hkey⟩ := findASemd_inactive h ha hQ
  have hae : a ≠ s.lk.sSemAdd e := Ne.symm hkey
  simp [insertBlocked, hfind, getSNext, getSSemAdd, deref, hnext, hae, hfull]

theorem removeBlocked_nil {s : Phase1 π δ} {Q : Word → List π}
    (h : IsAsl s.lk Q) {a : Word} (ha : SemAddr a) (hQ : Q a = []) :
    removeBlocked a s = .ok none s := by
  obtain ⟨d, e, hfind, hnext, hkey⟩ := findASemd_inactive h ha hQ
  simp [removeBlocked, hfind, getSNext, getSSemAdd, deref, hnext, hkey]

theorem removeBlocked_spec {s : Phase1 π δ} {Q : Word → List π}
    (h : IsAsl s.lk Q) (hdis : QueuesDisjoint Q) {a : Word} (ha : SemAddr a)
    {p : π} {ps : List π} (hQ : Q a = p :: ps) :
    ∃ lk, removeBlocked a s = .ok (some p)
        ⟨lk, { s.pcb with pSemAdd := Function.update s.pcb.pSemAdd p NULL }⟩ ∧
      IsAsl lk (Function.update Q a ps) ∧
      lk.pNext p = none ∧ lk.pPrev p = none ∧
      QueueStep (· ∈ Q a) s.lk lk ∧ Released s.lk lk a (ps = []) := by
  obtain ⟨act, free, h⟩ := h
  obtain ⟨pre, d, e, post, hact, hlt, hge⟩ := h.split ha.1
  have hfind := findASemd_eq h hact hlt hge
  have hnext := h.next_eq hact
  have hkey : s.lk.sSemAdd e = a :=
    (h.key_eq_iff ha hact hlt hge).mpr (by simp [hQ])
  have heact : e ∈ act := by simp [hact]
  have hqe := (h.queue e heact (hkey ▸ ha.1) (hkey ▸ ha.2)).2
  rw [hkey, hQ] at hqe
  obtain ⟨tp, next, prev, hrem, hq, hnp, hpp, hagree⟩ := removeProcQ_spec hqe
  have hother : ∀ b, b ≠ a →
      AgreeOn (· ∈ Q b) s.lk.pNext next s.lk.pPrev prev := by
    intro b hb u hu
    exact hagree u (fun hua => hb (hdis b a u hu (hQ ▸ hua)))
  by_cases hps : ps = []
  · subst hps
    obtain rfl : tp = none := hq.eq_nil_iff.mpr rfl
    have hrel := h.release hact hkey ha hother
    refine ⟨_, ?_, ⟨_, _, hrel⟩, hnp, hpp, ⟨rfl, rfl, rfl, rfl, ?_⟩, _, _, _, _, h.lined,
      hrel.lined, ?_, fun hne => absurd rfl hne, ?_⟩
    · simp [removeBlocked, hfind, getSNext, getSSemAdd, getSProcQ, setSProcQ,
        setSNext, setSSemAdd, setSemdFree, setPSemAdd, deref, hnext, hkey, hrem,
        emptyProcQ, freeSemd, mkEmptyProcQ, Phase1.relink]
    · intro u hu
      exact hagree u (hQ ▸ hu)
    · intro x hx
      refine Function.update_of_ne ?_ _ _
      rintro rfl
      exact hrel.disj x hx List.mem_cons_self
    · exact fun _ => ⟨pre ++ [d], e, post, hkey, by simp [hact], by simp, rfl⟩
  · have htp : tp ≠ none := fun heq => hps (hq.eq_nil_iff.mp heq)
    have hreq := h.requeue heact hkey hps hq hother ha
    refine ⟨_, ?_, ⟨_, _, hreq⟩, hnp, hpp, ⟨rfl, rfl, rfl, rfl, ?_⟩, _, _, _, _, h.lined,
      hreq.lined, fun _ _ => rfl, fun _ => ⟨rfl, rfl⟩, fun hnil => absurd hnil hps⟩
    · simp [removeBlocked, hfind, getSNext, getSSemAdd, getSProcQ, setSProcQ,
        setPSemAdd, deref, hnext, hkey, hrem, emptyProcQ, htp, Phase1.relink]
    · intro u hu
      exact hagree u (hQ ▸ hu)

omit [DecidableEq δ] in
theorem headBlocked_spec {s : Phase1 π δ} {Q : Word → List π}
    (h : IsAsl s.lk Q) {a : Word} (ha : SemAddr a) :
    headBlocked a s = .ok (Q a).head? s := by
  obtain ⟨act, free, h⟩ := h
  obtain ⟨pre, d, e, post, hact, hlt, hge⟩ := h.split ha.1
  have hfind := findASemd_eq h hact hlt hge
  have hnext := h.next_eq hact
  have hiff := h.key_eq_iff ha hact hlt hge
  by_cases hkey : s.lk.sSemAdd e = a
  · have hqe := (h.queue e (by simp [hact]) (hkey ▸ ha.1) (hkey ▸ ha.2)).2
    rw [hkey] at hqe
    simp [headBlocked, hfind, getSNext, getSSemAdd, getSProcQ, deref, hnext,
      hkey, headProcQ_spec hqe]
  · have hQ : Q a = [] := by
      by_contra hne
      exact hkey (hiff.mpr hne)
    have hae : a ≠ s.lk.sSemAdd e := Ne.symm hkey
    simp [headBlocked, hfind, getSNext, getSSemAdd, deref, hnext, hae, hQ]

section OutBlocked

variable [Fintype π]

theorem outBlocked_null {s : Phase1 π δ} {p : π}
    (h : s.pcb.pSemAdd p = NULL) : outBlocked (some p) s = .ok none s := by
  simp [outBlocked, getPSemAdd, deref, h]

theorem outBlocked_inactive {s : Phase1 π δ} {Q : Word → List π}
    (h : IsAsl s.lk Q) {p : π} (ha : s.pcb.pSemAdd p ≠ MININT)
    (hQ : Q (s.pcb.pSemAdd p) = []) : outBlocked (some p) s = .ok none s := by
  by_cases hnull : s.pcb.pSemAdd p = NULL
  · exact outBlocked_null hnull
  · obtain ⟨d, e, hfind, hnext, hkey⟩ := findASemd_inactive h ⟨ha, hnull⟩ hQ
    simp [outBlocked, getPSemAdd, hnull, hfind, getSNext, getSSemAdd, deref,
      hnext, hkey]

/-- How a removal from the queue of `a` that leaves `l` moves descriptors: the
one of `a` becomes free when `l` is empty. -/
def Recycled (lk : Links π δ) (a : Word) (l : List π) (act free act' free' : List δ) :
    Prop :=
  if l = [] then
    ∃ pre e post, lk.sSemAdd e = a ∧ act = pre ++ e :: post ∧
      act' = pre ++ post ∧ free' = e :: free
  else act' = act ∧ free' = free

theorem AslShape.outBlocked_tail {s : Phase1 π δ} {Q : Word → List π}
    {act free : List δ} (h : AslShape s.lk Q act free) (hdis : QueuesDisjoint Q)
    {a : Word} (ha : SemAddr a) {p : π} {ps : List π} (hQ : Q a = ps ++ [p])
    (hp : s.pcb.pSemAdd p = a) :
    ∃ lk act' free', outBlocked (some p) s = .ok (some p)
        ⟨lk, { s.pcb with pSemAdd := Function.update s.pcb.pSemAdd p NULL }⟩ ∧
      AslShape lk (Function.update Q a ps) act' free' ∧
      Recycled s.lk a ps act free act' free' ∧
      lk.pNext p = none ∧ lk.pPrev p = none ∧
      QueueStep (· ∈ Q a) s.lk lk := by
  obtain ⟨pre, d, e, post, hact, hlt, hge⟩ := h.split ha.1
  have hfind := findASemd_eq h hact hlt hge
  have hnext := h.next_eq hact
  have hkey : s.lk.sSemAdd e = a :=
    (h.key_eq_iff ha hact hlt hge).mpr (by simp [hQ])
  have heact : e ∈ act := by simp [hact]
  have hqe := (h.queue e heact (hkey ▸ ha.1) (hkey ▸ ha.2)).2
  rw [hkey, hQ] at hqe
  have htail : s.lk.sProcQ e = some p := by
    rw [hqe.eq_getLast?]
    simp
  rw [htail] at hqe
  obtain ⟨tp, next, prev, hout, hq, hnp, hpp, hagree⟩ := outProcQ_spec hqe
  have hother : ∀ b, b ≠ a →
      AgreeOn (· ∈ Q b) s.lk.pNext next s.lk.pPrev prev := by
    intro b hb u hu
    exact hagree u (fun hua => hb (hdis b a u hu (hQ ▸ hua)))
  have hanull : a ≠ NULL := ha.2
  by_cases hps : ps = []
  · subst hps
    obtain rfl : tp = none := hq.eq_nil_iff.mpr rfl
    refine ⟨_, _, _, ?_, h.release hact hkey ha hother, ?_, hnp, hpp,
      ⟨rfl, rfl, rfl, rfl, ?_⟩⟩
    · simp [outBlocked, getPSemAdd, hp, hanull, hfind, getSNext, getSSemAdd,
        getSProcQ, setSProcQ, setSNext, setSSemAdd, setSemdFree, setPSemAdd,
        deref, hnext, hkey, htail, hout, emptyProcQ, freeSemd, mkEmptyProcQ,
        Phase1.relink]
    · rw [Recycled, if_pos rfl]
      exact ⟨pre ++ [d], e, post, hkey, by simp [hact], by simp, rfl⟩
    · intro u hu
      exact hagree u (hQ ▸ hu)
  · have htp : tp ≠ none := fun heq => hps (hq.eq_nil_iff.mp heq)
    refine ⟨_, _, _, ?_, h.requeue heact hkey hps hq hother ha, ?_, hnp, hpp,
      ⟨rfl, rfl, rfl, rfl, ?_⟩⟩
    · simp [outBlocked, getPSemAdd, hp, hanull, hfind, getSNext, getSSemAdd,
        getSProcQ, setSProcQ, setPSemAdd, deref, hnext, hkey, htail, hout,
        emptyProcQ, htp, Phase1.relink]
    · rw [Recycled, if_neg hps]
      exact ⟨rfl, rfl⟩
    · intro u hu
      exact hagree u (hQ ▸ hu)

theorem outBlocked_tail {s : Phase1 π δ} {Q : Word → List π}
    (h : IsAsl s.lk Q) (hdis : QueuesDisjoint Q) {a : Word} (ha : SemAddr a)
    {p : π} {ps : List π} (hQ : Q a = ps ++ [p]) (hp : s.pcb.pSemAdd p = a) :
    ∃ lk, outBlocked (some p) s = .ok (some p)
        ⟨lk, { s.pcb with pSemAdd := Function.update s.pcb.pSemAdd p NULL }⟩ ∧
      IsAsl lk (Function.update Q a ps) ∧
      lk.pNext p = none ∧ lk.pPrev p = none ∧
      QueueStep (· ∈ Q a) s.lk lk := by
  obtain ⟨act, free, h⟩ := h
  obtain ⟨lk, act', free', hrun, hshape, -, hrest⟩ :=
    h.outBlocked_tail hdis ha hQ hp
  exact ⟨lk, hrun, ⟨act', free', hshape⟩, hrest⟩

/-- For a process that is not the tail of the queue it names, `outProcQ` returns
`NULL`, and `outBlocked` writes through it. -/
theorem outBlocked_fault {s : Phase1 π δ} {Q : Word → List π}
    (h : IsAsl s.lk Q) {a : Word} (ha : SemAddr a) {p z : π} {ps : List π}
    (hQ : Q a = ps ++ [z]) (hz : p ≠ z) (hp : s.pcb.pSemAdd p = a) :
    ∃ s', outBlocked (some p) s = .error .fault s' := by
  obtain ⟨act, free, h⟩ := h
  obtain ⟨pre, d, e, post, hact, hlt, hge⟩ := h.split ha.1
  have hfind := findASemd_eq h hact hlt hge
  have hnext := h.next_eq hact
  have hkey : s.lk.sSemAdd e = a :=
    (h.key_eq_iff ha hact hlt hge).mpr (by simp [hQ])
  have hqe := (h.queue e (by simp [hact]) (hkey ▸ ha.1) (hkey ▸ ha.2)).2
  rw [hkey, hQ] at hqe
  have htail : s.lk.sProcQ e = some z := by
    rw [hqe.eq_getLast?]
    simp
  have hanull : a ≠ NULL := ha.2
  simp [outBlocked, getPSemAdd, hp, hanull, hfind, getSNext, getSSemAdd,
    getSProcQ, setSProcQ, setPSemAdd, deref, hnext, hkey, htail,
    outProcQ_ne _ hz, emptyProcQ]

end OutBlocked

end Operations

end Kaya
