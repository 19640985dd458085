import Mathlib.Data.Fintype.Basic
import Mathlib.Data.Fintype.Card
import Mathlib.Data.Finset.Lattice.Fold
import Mathlib.Logic.Relation

/-!
# Forests given by child lists

`kids q` lists the children of `q`.  `Postorder` describes the order in which a
recursive walk that visits children first leaves the nodes below a list of
siblings; `postorder` computes it.
-/

namespace Kaya.Lib

variable {α : Type}

def IsChild (kids : α → List α) (x q : α) : Prop := x ∈ kids q

/-- `q` is `x` or above it. -/
def Below (kids : α → List α) : α → α → Prop :=
  Relation.ReflTransGen (IsChild kids)

/-- No node is among its own descendants: depths grow along child lists. -/
def Acyclic (kids : α → List α) : Prop :=
  ∃ depth : α → Nat, ∀ x q, x ∈ kids q → depth q < depth x

/-- Every node has at most one parent and is listed once. -/
structure UniqueParents (kids : α → List α) : Prop where
  unique : ∀ x q r, x ∈ kids q → x ∈ kids r → q = r
  nodup : ∀ q, (kids q).Nodup

variable {kids kids' : α → List α} {x q r c d : α} {cs vs ws : List α}

namespace Acyclic

theorem mono (h : Acyclic kids) (hk : ∀ q, ∀ x ∈ kids' q, x ∈ kids q) :
    Acyclic kids' := by
  obtain ⟨depth, hd⟩ := h
  exact ⟨depth, fun x q hx => hd x q (hk q x hx)⟩

/-- A new leaf closes no cycle. -/
theorem insert [DecidableEq α] (h : Acyclic kids) (hleaf : kids x = [])
    (hnew : ∀ q, x ∉ kids q) (hne : x ≠ q) :
    Acyclic (Function.update kids q (x :: kids q)) := by
  obtain ⟨depth, hd⟩ := h
  refine ⟨Function.update depth x (depth q + 1), ?_⟩
  intro y r hy
  have hr : r ≠ x := by
    rintro rfl
    rw [Function.update_of_ne hne, hleaf] at hy
    simp at hy
  rw [Function.update_of_ne hr]
  by_cases hyx : y = x
  · subst hyx
    rw [Function.update_self]
    by_cases hrq : r = q
    · subst hrq
      omega
    · rw [Function.update_of_ne hrq] at hy
      exact absurd hy (hnew r)
  · rw [Function.update_of_ne hyx]
    apply hd
    by_cases hrq : r = q
    · subst hrq
      simpa [hyx] using hy
    · rwa [Function.update_of_ne hrq] at hy

theorem lt_of_below {depth : α → Nat} (hd : ∀ x q, x ∈ kids q → depth q < depth x)
    (h : Below kids x q) : depth q ≤ depth x := by
  induction h with
  | refl => exact le_rfl
  | tail _ hstep ih => exact (hd _ _ hstep).le.trans ih

/-- What is below a child is not above it. -/
theorem not_below (h : Acyclic kids) (hc : c ∈ kids q) : ¬ Below kids q c := by
  obtain ⟨depth, hd⟩ := h
  intro hbelow
  have hle := lt_of_below hd hbelow
  have hlt := hd c q hc
  omega

end Acyclic

/-- Two siblings have no common descendant. -/
theorem UniqueParents.siblings (h : UniqueParents kids) (hac : Acyclic kids)
    (hc : c ∈ kids q) (hd : d ∈ kids q) (hxc : Below kids x c)
    (hxd : Below kids x d) : c = d := by
  have huniq : Relator.RightUnique (IsChild kids) :=
    fun x q r hq hr => h.unique x q r hq hr
  -- a proper ancestor of a sibling is above their parent
  have habove : ∀ {c d}, c ∈ kids q → d ∈ kids q → Below kids c d → c = d := by
    intro c d hc hd hcd
    rcases Relation.ReflTransGen.cases_head hcd with heq | ⟨r, hcr, hrd⟩
    · exact heq
    · obtain rfl : r = q := h.unique c r q hcr hc
      exact absurd hrd (hac.not_below hd)
  rcases Relation.ReflTransGen.total_of_right_unique huniq hxc hxd with hcd | hdc
  · exact habove hc hd hcd
  · exact (habove hd hc hdc).symm

/-- A node below `q` is `q` or below a child of it. -/
theorem below_iff : Below kids x q ↔ (∃ c ∈ kids q, Below kids x c) ∨ x = q := by
  constructor
  · intro h
    rcases Relation.ReflTransGen.cases_tail h with heq | ⟨c, hxc, hcq⟩
    · exact .inr heq.symm
    · exact .inl ⟨c, hcq, hxc⟩
  · rintro (⟨c, hc, hxc⟩ | rfl)
    · exact hxc.tail hc
    · exact .refl

/-! ## Walking a forest, children first -/

/-- `vs` are the nodes at or below `cs`, each after the nodes below it. -/
inductive Postorder (kids : α → List α) : List α → List α → Prop
  | nil : Postorder kids [] []
  | cons {c : α} {cs vs ws : List α} : Postorder kids (kids c) vs →
      Postorder kids cs ws → Postorder kids (c :: cs) (vs ++ c :: ws)

/-- The nodes at or below `q`; `n` bounds the height. -/
def postorder (kids : α → List α) : Nat → α → List α
  | 0, _ => []
  | n + 1, q => (kids q).flatMap (postorder kids n) ++ [q]

namespace Postorder

theorem mem_iff (h : Postorder kids cs vs) :
    x ∈ vs ↔ ∃ c ∈ cs, Below kids x c := by
  induction h with
  | nil => simp
  | @cons c cs vs ws _ _ ihc ihs =>
      have hhead : x ∈ vs ∨ x = c ↔ Below kids x c := by rw [ihc, below_iff]
      rw [List.mem_append, List.mem_cons, ← or_assoc, hhead, ihs]
      simp

theorem nodup (h : Postorder kids cs vs) (hu : UniqueParents kids)
    (hac : Acyclic kids) (hcs : ∀ c ∈ cs, c ∈ kids q) (hnd : cs.Nodup) :
    vs.Nodup := by
  induction h generalizing q with
  | nil => exact List.nodup_nil
  | @cons c cs vs ws hc hs ihc ihs =>
      obtain ⟨hccs, hndcs⟩ := List.nodup_cons.mp hnd
      have hcq : c ∈ kids q := hcs c (by simp)
      have hvs : vs.Nodup := ihc (fun d hd => hd) (hu.nodup c)
      have hws : ws.Nodup :=
        ihs (fun d hd => hcs d (List.mem_cons_of_mem c hd)) hndcs
      -- a node below `c` and below a later sibling would make them equal
      have hsib : ∀ x, Below kids x c → x ∉ ws := by
        intro x hxc hx
        obtain ⟨d, hd, hxd⟩ := hs.mem_iff.mp hx
        have heq := hu.siblings hac hcq (hcs d (List.mem_cons_of_mem c hd)) hxc hxd
        exact hccs (heq ▸ hd)
      have hcvs : c ∉ vs := by
        intro hcv
        obtain ⟨d, hd, hcd⟩ := hc.mem_iff.mp hcv
        exact hac.not_below hd hcd
      rw [List.nodup_append]
      refine ⟨hvs, List.nodup_cons.mpr ⟨hsib c .refl, hws⟩, ?_⟩
      intro x hx y hy hxy
      subst hxy
      rcases List.mem_cons.mp hy with rfl | hy
      · exact hcvs hx
      · obtain ⟨d, hd, hxd⟩ := hc.mem_iff.mp hx
        exact hsib x (hxd.tail hd) hy

/-- A node comes after its children. -/
theorem children_first (h : Postorder kids cs vs) {pre post : List α}
    (hvs : vs = pre ++ q :: post) (hx : x ∈ kids q) : x ∈ pre := by
  induction h generalizing pre post with
  | nil => simp at hvs
  | @cons c cs vs ws hc _ ihc ihs =>
      rcases List.append_eq_append_iff.mp hvs with ⟨as, hpre, hrest⟩ | ⟨bs, hvs', hrest⟩
      · subst hpre
        cases as with
        | nil =>
            -- `q` is `c`, whose children are walked first
            simp only [List.nil_append, List.cons.injEq] at hrest
            rw [← hrest.1] at hx
            rw [List.append_nil]
            exact hc.mem_iff.mpr ⟨x, hx, .refl⟩
        | cons a as =>
            simp only [List.cons_append, List.cons.injEq] at hrest
            have := ihs hrest.2
            simp [this]
      · cases bs with
        | nil =>
            simp only [List.nil_append, List.cons.injEq] at hrest
            rw [hrest.1] at hx
            rw [List.append_nil] at hvs'
            rw [← hvs']
            exact hc.mem_iff.mpr ⟨x, hx, .refl⟩
        | cons b bs =>
            simp only [List.cons_append, List.cons.injEq] at hrest
            obtain ⟨rfl, -⟩ := hrest
            exact ihc hvs'

theorem eq_postorder (h : Postorder kids cs vs) {n : Nat} (hn : vs.length ≤ n) :
    cs.flatMap (postorder kids n) = vs := by
  induction h generalizing n with
  | nil => rfl
  | @cons c cs vs ws _ _ ihc ihs =>
      simp only [List.length_append, List.length_cons] at hn
      obtain ⟨m, rfl⟩ : ∃ m, n = m + 1 := ⟨n - 1, by omega⟩
      rw [List.flatMap_cons, postorder, ihc (by omega), ihs (by omega)]
      simp

end Postorder

/-- Every node of a finite forest has a walk. -/
theorem Acyclic.exists_postorder [Fintype α] (h : Acyclic kids) (cs : List α) :
    ∃ vs, Postorder kids cs vs := by
  obtain ⟨depth, hd⟩ := h
  -- heights are bounded by the greatest depth
  have hheight : ∀ n, ∀ q, Finset.univ.sup depth - depth q < n →
      ∃ vs, Postorder kids (kids q) vs := by
    intro n
    induction n with
    | zero => intro q hq; omega
    | succ n ih =>
        intro q hq
        have hsub : ∀ cs : List α, (∀ c ∈ cs, c ∈ kids q) →
            ∃ vs, Postorder kids cs vs := by
          intro cs
          induction cs with
          | nil => exact fun _ => ⟨[], .nil⟩
          | cons c cs ihcs =>
              intro hcs
              have hlt := hd c q (hcs c (by simp))
              have hle : depth c ≤ Finset.univ.sup depth :=
                Finset.le_sup (Finset.mem_univ c)
              obtain ⟨vs, hvs⟩ := ih c (by omega)
              obtain ⟨ws, hws⟩ := ihcs (fun d hd => hcs d (by simp [hd]))
              exact ⟨_, .cons hvs hws⟩
        exact hsub (kids q) (fun c hc => hc)
  induction cs with
  | nil => exact ⟨[], .nil⟩
  | cons c cs ih =>
      obtain ⟨vs, hvs⟩ := hheight _ c (Nat.lt_succ_self _)
      obtain ⟨ws, hws⟩ := ih
      exact ⟨_, .cons hvs hws⟩

/-- What `postorder` computes below a node, when its bound is not reached. -/
theorem Acyclic.postorder_spec [Fintype α] (h : Acyclic kids)
    (hu : UniqueParents kids) (q : α) :
    Postorder kids (kids q)
      ((kids q).flatMap (postorder kids (Fintype.card α))) := by
  obtain ⟨vs, hvs⟩ := h.exists_postorder (kids q)
  have hnd := hvs.nodup hu h (fun c hc => hc) (hu.nodup q)
  rw [hvs.eq_postorder hnd.length_le_card]
  exact hvs

end Kaya.Lib
