import Kaya.Lib.Triple
import Kaya.Phase1.Asl

/-!
# What phase 1 leaves alone

Whatever its pointers look like, code of phase 1 that does not return has faulted or is in a
loop: it never loads a state.  Only `freePcb` and `allocPcb` touch `p_time`.
-/

namespace Kaya

open Lib

variable {π δ α β γ : Type}

def Stop.Lost (c : Stop) : Prop := c = .fault ∨ c = .loop

def Keeps (f : Payload π → γ) (x : Phase1M π δ α) : Prop :=
  Within (fun s t => f t.pcb = f s.pcb) (fun e s t => e.Lost ∧ f t.pcb = f s.pcb) x

def Harmless (x : Phase1M π δ α) : Prop := Keeps Payload.pTime x

/-- `f` tells nothing of `p_semAdd`. -/
def SemBlind (f : Payload π → γ) : Prop := ∀ c v, f { c with pSemAdd := v } = f c

variable {f : Payload π → γ}

namespace Keeps

variable {x y : Phase1M π δ α}

theorem pure (a : α) : Keeps f (pure a : Phase1M π δ α) := fun _ => rfl

theorem of_get : Keeps f (get : Phase1M π δ _) := fun _ => rfl

theorem of_modify {g : Phase1 π δ → Phase1 π δ} (hg : ∀ s, f (g s).pcb = f s.pcb) :
    Keeps f (modify g : Phase1M π δ PUnit) := Within.modify hg

theorem loop : Keeps f (throw .loop : Phase1M π δ α) := Within.throw fun _ => ⟨.inr rfl, rfl⟩

theorem ite {c : Prop} [Decidable c] (hx : Keeps f x) (hy : Keeps f y) :
    Keeps f (if c then x else y) := Within.ite hx hy

theorem bind (hx : Keeps f x) {g : α → Phase1M π δ β} (hg : ∀ a, Keeps f (g a)) :
    Keeps f (x >>= g) :=
  Within.bind (fun _ _ _ h h' => h'.trans h) (fun _ _ _ _ h h' => ⟨h'.1, h'.2.trans h⟩) hx hg

theorem of_deref (p : Option α) : Keeps f (deref p : Phase1M π δ α) := by
  cases p with
  | none => exact Within.throw fun _ => ⟨.inl rfl, rfl⟩
  | some p => exact pure p

/-- Every `get` of a field has this form. -/
theorem read (p : Option α) (g : α → Phase1 π δ → β) :
    Keeps f (do let p ← deref p; return g p (← get)) :=
  (of_deref p).bind fun _ => of_get.bind fun _ => pure _

/-- Every `set` of a link field has this form, and every `set` of another field the next. -/
theorem link (p : Option α) (g : α → Phase1 π δ → Links π δ) :
    Keeps f (do let p ← deref p; modify fun s : Phase1 π δ => { s with lk := g p s }) :=
  (of_deref p).bind fun _ => of_modify fun _ => rfl

theorem write (p : Option α) {g : α → Phase1 π δ → Phase1 π δ}
    (hg : ∀ a s, f (g a s).pcb = f s.pcb) :
    Keeps f (do let p ← deref p; modify (g p)) :=
  (of_deref p).bind fun p => of_modify (hg p)

end Keeps

/-! ## Queues -/

section Queues

variable [DecidableEq π]

theorem setPSemAdd_keeps (hf : SemBlind f) (p : Option π) (v : Word) :
    Keeps f (setPSemAdd p v : Phase1M π δ _) := .write _ fun _ _ => hf ..

theorem setPS_keeps (hf : ∀ c v, f { c with pS := v } = f c) (p : Option π) (v : State) :
    Keeps f (setPS p v : Phase1M π δ _) := .write _ fun _ _ => hf ..

theorem insertProcQ_keeps (tp p : Option π) :
    Keeps f (insertProcQ tp p : Phase1M π δ _) := by
  unfold insertProcQ
  apply Keeps.ite
  · exact .bind (.link _ _) fun _ => .bind (.link _ _) fun _ => .pure _
  · refine .bind (.read _ _) fun _ => .bind (.link _ _) fun _ => ?_
    refine .bind (.link _ _) fun _ => .bind (.link _ _) fun _ => ?_
    exact .bind (.read _ _) fun _ => .bind (.link _ _) fun _ => .pure _

theorem removeProcQ_keeps (tp : Option π) :
    Keeps f (removeProcQ tp : Phase1M π δ _) := by
  unfold removeProcQ
  refine .ite (.pure _) (.bind (.read _ _) fun _ => ?_)
  apply Keeps.ite
  · exact .bind (.link _ _) fun _ => .bind (.link _ _) fun _ => .pure _
  · refine .bind (.read _ _) fun _ => .bind (.read _ _) fun _ => ?_
    refine .bind (.read _ _) fun _ => .bind (.link _ _) fun _ => ?_
    refine .bind (.read _ _) fun _ => .bind (.link _ _) fun _ => ?_
    exact .bind (.link _ _) fun _ => .bind (.link _ _) fun _ => .pure _

theorem outProcQLoop_keeps (tp p : Option π) (fuel : Nat) (current : Option π) :
    Keeps f (outProcQLoop tp p fuel current : Phase1M π δ _) := by
  induction fuel generalizing current with
  | zero => exact .loop
  | succ fuel ih =>
      unfold outProcQLoop
      refine .ite (.pure _) (.ite ?_ (.ite (.pure _) (.bind (.read _ _) fun _ => ih _)))
      refine .bind (.read _ _) fun _ => .bind (.read _ _) fun _ => .bind (.link _ _) fun _ => ?_
      refine .bind (.read _ _) fun _ => .bind (.read _ _) fun _ => .bind (.link _ _) fun _ => ?_
      exact .bind (.link _ _) fun _ => .bind (.link _ _) fun _ => .pure _

theorem outProcQ_keeps [Fintype π] (tp p : Option π) :
    Keeps f (outProcQ tp p : Phase1M π δ _) := by
  unfold outProcQ
  refine .ite (.pure _) (.bind (.read _ _) fun _ => .ite ?_ (.bind (.read _ _) fun _ => ?_))
  · exact .bind (.link _ _) fun _ => .bind (.link _ _) fun _ => .pure _
  · refine .ite ?_ (outProcQLoop_keeps _ _ _ _)
    refine .bind (.read _ _) fun _ => .bind (.read _ _) fun _ => .bind (.link _ _) fun _ => ?_
    refine .bind (.read _ _) fun _ => .bind (.read _ _) fun _ => .bind (.link _ _) fun _ => ?_
    refine .bind (.read _ _) fun _ => .bind (.link _ _) fun _ => ?_
    exact .bind (.link _ _) fun _ => .pure _

theorem headProcQ_keeps (tp : Option π) : Keeps f (headProcQ tp : Phase1M π δ _) := by
  unfold headProcQ
  exact .ite (.pure _) (.bind (.read _ _) fun _ => .ite (.pure _) (.read _ _))

end Queues

/-! ## The active semaphore list -/

section Asl

variable [DecidableEq π] [DecidableEq δ] [Fintype δ]

omit [DecidableEq π] [DecidableEq δ] [Fintype δ] in
theorem findASemdLoop_keeps (i : Word) (fuel : Nat) (s : Option δ) :
    Keeps f (findASemdLoop i fuel s : Phase1M π δ _) := by
  induction fuel generalizing s with
  | zero => exact .loop
  | succ fuel ih =>
      unfold findASemdLoop
      refine .bind (.read _ _) fun _ => .bind (.read _ _) fun _ => ?_
      exact .ite (.bind (.read _ _) fun _ => ih _) (.pure _)

omit [DecidableEq π] [DecidableEq δ] in
theorem findASemd_keeps (i : Word) : Keeps f (findASemd i : Phase1M π δ _) :=
  .bind .of_get fun _ => findASemdLoop_keeps _ _ _

omit [DecidableEq π] [DecidableEq δ] [Fintype δ] in
theorem setSemdFree_keeps (v : Option δ) : Keeps f (setSemdFree v : Phase1M π δ _) :=
  .of_modify fun _ => rfl

omit [DecidableEq π] [Fintype δ] in
theorem freeSemd_keeps (s : Option δ) : Keeps f (freeSemd s : Phase1M π δ _) := by
  unfold freeSemd
  refine .bind (.link _ _) fun _ => .bind (.link _ _) fun _ => .bind .of_get fun _ => ?_
  exact .bind (.link _ _) fun _ => setSemdFree_keeps _

omit [DecidableEq π] [Fintype δ] in
theorem allocSemd_keeps (i : Word) : Keeps f (allocSemd i : Phase1M π δ _) := by
  unfold allocSemd
  refine .bind .of_get fun _ => .ite (.pure _) (.bind (.read _ _) fun _ => ?_)
  refine .bind (setSemdFree_keeps _) fun _ => .bind (.link _ _) fun _ => ?_
  exact .bind (.link _ _) fun _ => .bind (.link _ _) fun _ => .pure _

theorem insertBlocked_keeps (hf : SemBlind f) (w : Word) (p : Option π) :
    Keeps f (insertBlocked w p : Phase1M π δ _) := by
  unfold insertBlocked
  refine .bind (findASemd_keeps w) fun _ => .bind (.read _ _) fun _ => .ite (.pure _) ?_
  refine .bind (.read _ _) fun _ => .ite ?_ (.bind .of_get fun _ => .ite (.pure _) ?_)
  · refine .bind (setPSemAdd_keeps hf p w) fun _ => .bind (.read _ _) fun _ => ?_
    refine .bind (insertProcQ_keeps _ _) fun _ => .bind (.link _ _) fun _ => .pure _
  · refine .bind (setPSemAdd_keeps hf p w) fun _ => .bind (allocSemd_keeps w) fun _ => ?_
    refine .bind (.link _ _) fun _ => .bind (.link _ _) fun _ => .bind (.link _ _) fun _ => ?_
    refine .bind (.read _ _) fun _ => .bind (insertProcQ_keeps _ _) fun _ => ?_
    exact .bind (.link _ _) fun _ => .pure _

omit [DecidableEq δ] in
theorem headBlocked_keeps (w : Word) : Keeps f (headBlocked w : Phase1M π δ _) := by
  unfold headBlocked
  refine .bind (findASemd_keeps w) fun _ => .bind (.read _ _) fun _ => ?_
  refine .bind (.read _ _) fun _ => .ite ?_ (.pure _)
  exact .bind (.read _ _) fun _ => headProcQ_keeps _

omit [Fintype δ] in
/-- The end of `removeBlocked` and `outBlocked`: a descriptor whose queue is empty is freed. -/
theorem release_keeps (hf : SemBlind f) (sPrev sCurrent : Option δ) (p tp : Option π) :
    Keeps f (do
      setSProcQ sCurrent tp
      if emptyProcQ (← getSProcQ sCurrent) then
        setSNext sPrev (← getSNext sCurrent)
        freeSemd sCurrent
      setPSemAdd p NULL
      return p : Phase1M π δ _) := by
  refine .bind (.link _ _) fun _ => .bind (.read _ _) fun _ => .ite ?_ ?_
  · refine .bind (.read _ _) fun _ => .bind (.link _ _) fun _ => ?_
    refine .bind (freeSemd_keeps _) fun _ => ?_
    exact .bind (setPSemAdd_keeps hf _ _) fun _ => .pure _
  · exact .bind (setPSemAdd_keeps hf _ _) fun _ => .pure _

theorem removeBlocked_keeps (hf : SemBlind f) (w : Word) : Keeps f (removeBlocked w : Phase1M π δ _) := by
  unfold removeBlocked
  refine .bind (findASemd_keeps w) fun _ => .bind (.read _ _) fun _ => ?_
  refine .bind (.read _ _) fun _ => .ite ?_ (.pure _)
  exact .bind (.read _ _) fun _ => .bind (removeProcQ_keeps _) fun r =>
    release_keeps hf _ _ r.1 r.2

theorem outBlocked_keeps [Fintype π] (hf : SemBlind f) (p : Option π) :
    Keeps f (outBlocked p : Phase1M π δ _) := by
  unfold outBlocked
  refine .bind (.read _ _) fun w => .ite (.pure _) ?_
  refine .bind (findASemd_keeps w) fun _ => .bind (.read _ _) fun _ => ?_
  refine .bind (.read _ _) fun _ => .ite ?_ (.pure _)
  exact .bind (.read _ _) fun _ => .bind (outProcQ_keeps _ _) fun r =>
    release_keeps hf _ _ r.1 r.2

end Asl

/-! ## The process tree -/

section Tree

variable [DecidableEq π]

omit [DecidableEq π] in
theorem emptyChild_keeps (p : Option π) : Keeps f (emptyChild p : Phase1M π δ _) :=
  .bind (.read _ _) fun _ => .ite (.pure _) (.pure _)

theorem insertChild_keeps (prnt p : Option π) :
    Keeps f (insertChild prnt p : Phase1M π δ _) := by
  unfold insertChild
  refine .ite (.pure _) (.bind (.read _ _) fun _ => .ite ?_ ?_)
  · refine .bind (.read _ _) fun _ => .bind (.link _ _) fun _ => ?_
    exact .bind (.link _ _) fun _ => .link _ _
  · exact .bind (.link _ _) fun _ => .link _ _

theorem removeChild_keeps (p : Option π) : Keeps f (removeChild p : Phase1M π δ _) := by
  unfold removeChild
  refine .bind (.read _ _) fun _ => .ite (.pure _) (.bind (.read _ _) fun _ => ?_)
  refine .bind (.read _ _) fun _ => .ite ?_ ?_
  · refine .bind (.read _ _) fun _ => .bind (.link _ _) fun _ => ?_
    exact .bind (.link _ _) fun _ => .pure _
  · exact .bind (.link _ _) fun _ => .bind (.link _ _) fun _ => .pure _

theorem outChildLoop_keeps (p : Option π) (fuel : Nat) (current : Option π) :
    Keeps f (outChildLoop p fuel current : Phase1M π δ _) := by
  induction fuel generalizing current with
  | zero => exact .loop
  | succ fuel ih =>
      unfold outChildLoop
      exact .bind (.read _ _) fun _ => .ite (.bind (.read _ _) fun _ => ih _) (.pure _)

theorem outChild_keeps [Fintype π] (p : Option π) :
    Keeps f (outChild p : Phase1M π δ _) := by
  unfold outChild
  refine .bind (.read _ _) fun _ => .ite (.pure _) (.bind (.read _ _) fun _ => ?_)
  refine .bind (.read _ _) fun _ => .ite ?_ ?_
  · refine .bind (.read _ _) fun _ => .ite ?_ (.bind (.read _ _) fun _ => ?_)
    · exact .bind (.link _ _) fun _ => .bind (.link _ _) fun _ => .pure _
    · exact .bind (.link _ _) fun _ => .bind (.link _ _) fun _ => .pure _
  · refine .bind (.read _ _) fun _ => .bind (outChildLoop_keeps _ _ _) fun _ => ?_
    refine .bind (.read _ _) fun _ => .ite (.bind (.read _ _) fun _ => ?_) ?_
    · exact .bind (.link _ _) fun _ => .bind (.link _ _) fun _ => .pure _
    · exact .bind (.link _ _) fun _ => .bind (.link _ _) fun _ => .pure _

end Tree

end Kaya
