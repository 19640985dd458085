import Kaya.Lib.Control

/-!
# What a program keeps

Two ways to say what a program does wherever it returns or stops.  `Triple P x Q E` has a
precondition, a postcondition and one for the errors; `Within R E x` relates the state after `x`
to the state before it.
-/

namespace Kaya.Lib

variable {ε σ τ α β : Type}

def Triple (P : σ → Prop) (x : EStateM ε σ α) (Q : α → σ → Prop) (E : ε → σ → Prop) : Prop :=
  ∀ s, P s → match x s with
    | .ok a t => Q a t
    | .error e t => E e t

def Within (R : σ → σ → Prop) (E : ε → σ → σ → Prop) (x : EStateM ε σ α) : Prop :=
  ∀ s, match x s with
    | .ok _ t => R s t
    | .error e t => E e s t

namespace Triple

variable {P P' : σ → Prop} {Q Q' : α → σ → Prop} {E : ε → σ → Prop} {x y : EStateM ε σ α}

theorem trivial : Triple P x (fun _ _ => True) (fun _ _ => True) := by
  intro s _
  cases x s <;> exact True.intro

theorem pure {a : α} (h : ∀ s, P s → Q a s) : Triple P (pure a : EStateM ε σ α) Q E := h

theorem throw {e : ε} (h : ∀ s, P s → E e s) : Triple P (throw e : EStateM ε σ α) Q E := h

theorem modify {f : σ → σ} {Q : PUnit → σ → Prop} (h : ∀ s, P s → Q ⟨⟩ (f s)) :
    Triple P (modify f : EStateM ε σ PUnit) Q E := h

theorem bind {R : β → σ → Prop} {f : α → EStateM ε σ β} (hx : Triple P x Q E)
    (hf : ∀ a, Triple (Q a) (f a) R E) : Triple P (x >>= f) R E := by
  intro s hs
  have hxs := hx s hs
  rw [bind_run]
  cases hrun : x s with
  | error e t =>
      rw [hrun] at hxs
      exact hxs
  | ok a t =>
      rw [hrun] at hxs
      exact hf a t hxs

/-- A program that starts by reading the state. -/
theorem get_bind {f : σ → EStateM ε σ α} (h : ∀ s, P s → Triple (· = s) (f s) Q E) :
    Triple P (get >>= f) Q E := fun s hs => h s hs s rfl

theorem ite {c : Prop} [Decidable c] (hx : c → Triple P x Q E) (hy : ¬ c → Triple P y Q E) :
    Triple P (if c then x else y) Q E := by
  split
  · exact hx ‹c›
  · exact hy ‹¬ c›

theorem weaken (h : Triple P x Q E) (hP : ∀ s, P' s → P s) (hQ : ∀ a s, Q a s → Q' a s) :
    Triple P' x Q' E := by
  intro s hs
  have hxs := h s (hP s hs)
  cases hrun : x s with
  | error e t =>
      rw [hrun] at hxs
      exact hxs
  | ok a t =>
      rw [hrun] at hxs
      exact hQ a t hxs

end Triple

namespace Within

variable {R : σ → σ → Prop} {E : ε → σ → σ → Prop} {x y : EStateM ε σ α}

theorem throw {e : ε} (he : ∀ s, E e s s) : Within R E (throw e : EStateM ε σ α) := he

theorem modify {f : σ → σ} (hf : ∀ s, R s (f s)) :
    Within R E (modify f : EStateM ε σ PUnit) := hf

theorem pure (hrefl : ∀ s, R s s) (a : α) : Within R E (pure a : EStateM ε σ α) := hrefl

theorem get (hrefl : ∀ s, R s s) : Within R E (get : EStateM ε σ σ) := hrefl

theorem bind (htrans : ∀ s t u, R s t → R t u → R s u)
    (herr : ∀ e s t u, R s t → E e t u → E e s u) (hx : Within R E x)
    {f : α → EStateM ε σ β} (hf : ∀ a, Within R E (f a)) : Within R E (x >>= f) := by
  intro s
  have hxs := hx s
  rw [bind_run]
  cases hrun : x s with
  | error e t =>
      rw [hrun] at hxs
      exact hxs
  | ok a t =>
      rw [hrun] at hxs
      have hft := hf a t
      show match f a t with
        | .ok _ u => R s u
        | .error e u => E e s u
      cases hrun' : f a t with
      | error e u =>
          rw [hrun'] at hft
          exact herr e s t u hxs hft
      | ok b u =>
          rw [hrun'] at hft
          exact htrans s t u hxs hft

theorem ite {c : Prop} [Decidable c] (hx : Within R E x) (hy : Within R E y) :
    Within R E (if c then x else y) := by
  split
  · exact hx
  · exact hy

/-- A program on a part of the state, seen from the whole of it. -/
theorem zoom {S : τ → τ → Prop} {F : ε → τ → τ → Prop} {view : τ → σ} {put : τ → σ → τ}
    (hx : Within R E x) (hput : ∀ t s, R (view t) s → S t (put t s))
    (herr : ∀ e t s, E e (view t) s → F e t (put t s)) : Within S F (Lib.zoom view put x) := by
  intro t
  have hxs := hx (view t)
  cases hrun : x (view t) with
  | error e s =>
      rw [hrun] at hxs
      rw [zoom_error hrun]
      exact herr e t s hxs
  | ok a s =>
      rw [hrun] at hxs
      rw [zoom_ok hrun]
      exact hput t s hxs

/-- The same relation for returning and for stopping. -/
theorem endState (hx : Within R (fun _ => R) x) (s : σ) : R s (Lib.endState x s) := by
  have hxs := hx s
  rw [Lib.endState]
  cases hrun : x s with
  | error e t =>
      rw [hrun] at hxs
      exact hxs
  | ok a t =>
      rw [hrun] at hxs
      exact hxs

theorem of_endState (hx : ∀ s, R s (Lib.endState x s)) : Within R (fun _ => R) x := by
  intro s
  have hxs := hx s
  rw [Lib.endState] at hxs
  cases hrun : x s with
  | error e t =>
      rw [hrun] at hxs
      exact hxs
  | ok a t =>
      rw [hrun] at hxs
      exact hxs

/-- What the relation keeps is a pre- and postcondition. -/
theorem triple {P : σ → Prop} {F : ε → σ → Prop} (hx : Within R E x)
    (hR : ∀ s t, R s t → P s → P t) (hE : ∀ e s t, E e s t → P s → F e t) :
    Triple P x (fun _ => P) F := by
  intro s hs
  have hxs := hx s
  cases hrun : x s with
  | error e t =>
      rw [hrun] at hxs
      exact hE e s t hxs hs
  | ok a t =>
      rw [hrun] at hxs
      exact hR s t hxs hs

end Within

end Kaya.Lib
