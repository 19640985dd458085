import Mathlib.Data.List.Forall2

/-!
# Runs of a transition system

`Run init step ok h s`: from a state in `init` the events of `h`, each allowed
by `ok` in the state it met, lead to `s`.  The history `h` keeps each event
with the state it met, the newest first.
-/

namespace Kaya.Lib

variable {σ τ ε : Type}

inductive Run (init : σ → Prop) (step : σ → ε → σ) (ok : σ → ε → Prop) :
    List (σ × ε) → σ → Prop
  | start {s : σ} : init s → Run init step ok [] s
  | next {h : List (σ × ε)} {s : σ} {e : ε} : Run init step ok h s → ok s e →
      Run init step ok ((s, e) :: h) (step s e)

namespace Run

variable {init init' : σ → Prop} {step : σ → ε → σ} {ok ok' : σ → ε → Prop}
  {h h' : List (σ × ε)} {s s' : σ}

/-- What holds at the start and is kept by every step holds in every state
reached. -/
theorem invariant {I : σ → Prop} (hrun : Run init step ok h s)
    (hinit : ∀ s, init s → I s)
    (hstep : ∀ s e, I s → ok s e → I (step s e)) : I s := by
  induction hrun with
  | start hs => exact hinit _ hs
  | next _ hok ih => exact hstep _ _ ih hok

/-- The same for what speaks about the history. -/
theorem history {I : List (σ × ε) → σ → Prop} (hrun : Run init step ok h s)
    (hinit : ∀ s, init s → I [] s)
    (hstep : ∀ h s e, Run init step ok h s → I h s → ok s e →
      I ((s, e) :: h) (step s e)) : I h s := by
  induction hrun with
  | start hs => exact hinit _ hs
  | next hrun hok ih => exact hstep _ _ _ hrun ih hok

theorem of_init (hinit : ∀ s, init s → init' s) (hrun : Run init step ok h s) :
    Run init' step ok h s := by
  induction hrun with
  | start hs => exact .start (hinit _ hs)
  | next _ hok ih => exact ih.next hok

theorem allowed (hrun : Run init step ok h s) : ∀ x ∈ h, ok x.1 x.2 := by
  induction hrun with
  | start => exact fun x hx => absurd hx List.not_mem_nil
  | next _ hok ih =>
    rw [List.forall_mem_cons]
    exact ⟨hok, ih⟩

/-- A run passes through the state between two parts of its history. -/
theorem split (hrun : Run init step ok (h' ++ h) s) :
    ∃ s₁, Run init step ok h s₁ ∧ Run (· = s₁) step ok h' s := by
  induction h' generalizing s with
  | nil => exact ⟨s, hrun, .start rfl⟩
  | cons x h' ih =>
    cases hrun with
    | next hrun hok =>
      obtain ⟨s₁, hfirst, hrest⟩ := ih hrun
      exact ⟨s₁, hfirst, hrest.next hok⟩

end Run

/-- Each event of the list is allowed in the state that the ones before it lead to. -/
def AllOk (step : σ → ε → σ) (ok : σ → ε → Prop) : σ → List ε → Prop
  | _, [] => True
  | s, e :: es => ok s e ∧ AllOk step ok (step s e) es

instance AllOk.decidable {step : σ → ε → σ} {ok : σ → ε → Prop} [∀ s e, Decidable (ok s e)] :
    ∀ s es, Decidable (AllOk step ok s es)
  | _, [] => isTrue trivial
  | s, e :: es => @instDecidableAnd _ _ _ (decidable (step s e) es)

theorem AllOk.mono {step : σ → ε → σ} {ok ok' : σ → ε → Prop} (hok : ∀ s e, ok s e → ok' s e)
    {s : σ} {es : List ε} (hes : AllOk step ok s es) : AllOk step ok' s es := by
  induction es generalizing s with
  | nil => exact trivial
  | cons e es ih => exact ⟨hok s e hes.1, ih hes.2⟩

def replay (step : σ → ε → σ) : List (σ × ε) × σ → List ε → List (σ × ε) × σ
  | r, [] => r
  | (h, s), e :: es => replay step ((s, e) :: h, step s e) es

theorem replay_snd (step : σ → ε → σ) (h : List (σ × ε)) (s : σ) (es : List ε) :
    (replay step (h, s) es).2 = es.foldl step s := by
  induction es generalizing h s with
  | nil => rfl
  | cons e es ih => exact ih ((s, e) :: h) (step s e)

theorem Run.replay {init : σ → Prop} {step : σ → ε → σ} {ok : σ → ε → Prop}
    {h : List (σ × ε)} {s : σ} (hrun : Run init step ok h s) (es : List ε)
    (hes : AllOk step ok s es) :
    Run init step ok (Lib.replay step (h, s) es).1 (Lib.replay step (h, s) es).2 := by
  induction es generalizing h s with
  | nil => exact hrun
  | cons e es ih => exact ih (hrun.next hes.1) hes.2

theorem AllOk.replay {step : σ → ε → σ} {ok : σ → ε → Prop} {h : List (σ × ε)} {s : σ}
    {es : List ε} (hes : AllOk step ok s es) (hh : ∀ x ∈ h, ok x.1 x.2) :
    ∀ x ∈ (Lib.replay step (h, s) es).1, ok x.1 x.2 := by
  induction es generalizing h s with
  | nil => exact hh
  | cons e es ih =>
    refine ih hes.2 ?_
    rw [List.forall_mem_cons]
    exact ⟨hes.1, hh⟩

theorem Run.events {init : σ → Prop} {step : σ → ε → σ} {ok : σ → ε → Prop}
    {h : List (σ × ε)} {s : σ} (hrun : Run init step ok h s) (es : List ε)
    (hes : AllOk step ok s es) : ∃ h', Run init step ok h' (es.foldl step s) :=
  ⟨_, replay_snd step h s es ▸ hrun.replay es hes⟩

end Kaya.Lib
