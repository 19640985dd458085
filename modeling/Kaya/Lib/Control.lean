import Mathlib.Init

/-!
# Programs that return or stop

`EStateM ε σ α` is a program on a state `σ` that either returns a value or
stops with an `ε`, keeping the state it reached.  The lemmas here run a program
on a state: the simp set evaluates one step, `bind_ok` and `bind_error` use
facts about a part.
-/

namespace Kaya.Lib

variable {ε σ τ α β : Type}

/-! ## Running one step -/

@[simp] theorem pure_run (a : α) (s : σ) :
    (pure a : EStateM ε σ α) s = .ok a s := rfl

@[simp] theorem throw_run (e : ε) (s : σ) :
    (throw e : EStateM ε σ α) s = .error e s := rfl

@[simp] theorem get_run (s : σ) : (get : EStateM ε σ σ) s = .ok s s := rfl

@[simp] theorem modify_run (f : σ → σ) (s : σ) :
    (modify f : EStateM ε σ PUnit) s = .ok ⟨⟩ (f s) := rfl

@[simp] theorem modifyGet_run (f : σ → α × σ) (s : σ) :
    (modifyGet f : EStateM ε σ α) s = .ok (f s).1 (f s).2 := rfl

@[simp] theorem bind_run (x : EStateM ε σ α) (f : α → EStateM ε σ β) (s : σ) :
    (x >>= f) s = match x s with
      | .ok a s' => f a s'
      | .error e s' => .error e s' := rfl

@[simp] theorem map_run (f : α → β) (x : EStateM ε σ α) (s : σ) :
    (f <$> x) s = match x s with
      | .ok a s' => .ok (f a) s'
      | .error e s' => .error e s' := rfl

@[simp] theorem discard_run (x : EStateM ε σ α) (s : σ) :
    (discard x) s = match x s with
      | .ok _ s' => .ok ⟨⟩ s'
      | .error e s' => .error e s' := rfl

@[simp] theorem ite_run (c : Prop) [Decidable c] (x y : EStateM ε σ α) (s : σ) :
    (if c then x else y) s = if c then x s else y s := by
  split <;> rfl

/-! ## Running a part -/

theorem bind_ok {x : EStateM ε σ α} {f : α → EStateM ε σ β} {s s' : σ} {a : α}
    (h : x s = .ok a s') : (x >>= f) s = f a s' := by
  rw [bind_run, h]

theorem bind_error {x : EStateM ε σ α} {f : α → EStateM ε σ β} {s s' : σ}
    {e : ε} (h : x s = .error e s') : (x >>= f) s = .error e s' := by
  rw [bind_run, h]

def endState (x : EStateM ε σ α) (s : σ) : σ :=
  match x s with
  | .ok _ t => t
  | .error _ t => t

/-- A program that ends with one that stops. -/
theorem bind_stops (x : EStateM ε σ α) {f : α → EStateM ε σ β}
    (hf : ∀ a s, ∃ e t, f a s = .error e t) (s : σ) : ∃ e t, (x >>= f) s = .error e t := by
  rw [bind_run]
  cases x s with
  | ok a t => exact hf a t
  | error e t => exact ⟨e, t, rfl⟩

/-- Run a program on one part of a larger state. -/
def zoom (view : τ → σ) (put : τ → σ → τ) (x : EStateM ε σ α) :
    EStateM ε τ α := fun t =>
  match x (view t) with
  | .ok a s => .ok a (put t s)
  | .error e s => .error e (put t s)

theorem zoom_ok {view : τ → σ} {put : τ → σ → τ} {x : EStateM ε σ α} {t : τ}
    {a : α} {s : σ} (h : x (view t) = .ok a s) :
    zoom view put x t = .ok a (put t s) := by
  simp only [zoom, h]

theorem zoom_error {view : τ → σ} {put : τ → σ → τ} {x : EStateM ε σ α}
    {t : τ} {e : ε} {s : σ} (h : x (view t) = .error e s) :
    zoom view put x t = .error e (put t s) := by
  simp only [zoom, h]

end Kaya.Lib
