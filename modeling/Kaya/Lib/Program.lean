import Mathlib.Init

/-!
# Programs of concurrent processes

A `Program` performs actions, each with an answer, and then returns a value or hands control
over for good.  Other processes may run between any two actions, so a program is known by the
actions alone.

A `Discipline` gives a process a ghost state: what it may do in it, which answers it may get
and the ghost state after one.  `Follows D x s Q` says that `x`, started in ghost state `s`,
keeps to the discipline whatever it is answered, and that `Q` holds where it returns.
-/

namespace Kaya.Lib

variable {A R L X S α β : Type}

inductive Program (A R L α : Type) : Type
  | done (a : α)
  | leave (l : L)
  | act (a : A) (k : R → Program A R L α)

namespace Program

protected def bind : Program A R L α → (α → Program A R L β) → Program A R L β
  | done a, f => f a
  | leave l, _ => leave l
  | act a k, f => act a fun r => (k r).bind f

instance : Monad (Program A R L) where
  pure := done
  bind := Program.bind

def perform (a : A) : Program A R L R := act a done

def issue (a : A) : Program A R L Unit := act a fun _ => done ()

@[simp] theorem pure_eq (a : α) : (pure a : Program A R L α) = done a := rfl

@[simp] theorem done_bind (a : α) (f : α → Program A R L β) : (done a >>= f) = f a := rfl

@[simp] theorem leave_bind (l : L) (f : α → Program A R L β) :
    ((leave l : Program A R L α) >>= f) = leave l := rfl

@[simp] theorem act_bind (a : A) (k : R → Program A R L α) (f : α → Program A R L β) :
    (act a k >>= f) = act a fun r => k r >>= f := rfl

@[simp] theorem perform_bind (a : A) (f : R → Program A R L β) :
    (perform a >>= f) = act a f := rfl

@[simp] theorem issue_bind (a : A) (f : Unit → Program A R L β) :
    (issue a >>= f) = act a fun _ => f () := rfl

theorem bind_done (x : Program A R L α) : (x >>= done) = x := by
  induction x with
  | done a => rfl
  | leave l => rfl
  | act a k ih => exact congrArg (act a) (funext ih)

theorem bind_assoc {γ : Type} (x : Program A R L α) (f : α → Program A R L β)
    (g : β → Program A R L γ) : ((x >>= f) >>= g) = x >>= fun a => f a >>= g := by
  induction x with
  | done a => rfl
  | leave l => rfl
  | act a k ih => exact congrArg (act a) (funext ih)

end Program

structure Discipline (A R L X S : Type) where
  /-- The action is allowed. -/
  may : S → A → Prop
  /-- The answer is possible, in a system that looks like `x`. -/
  admits : S → A → R → X → Prop
  next : S → A → R → X → S
  /-- Control may be handed over. -/
  leave : S → L → Prop

open Program

variable {D : Discipline A R L X S} {s : S} {Q Q' : α → S → Prop}

def Follows (D : Discipline A R L X S) : Program A R L α → S → (α → S → Prop) → Prop
  | .done a, s, Q => Q a s
  | .leave l, s, _ => D.leave s l
  | .act a k, s, Q => D.may s a ∧ ∀ r x, D.admits s a r x → Follows D (k r) (D.next s a r x) Q

@[simp] theorem follows_done (a : α) : Follows D (done a) s Q ↔ Q a s := Iff.rfl

@[simp] theorem follows_leave (l : L) :
    Follows D (leave l : Program A R L α) s Q ↔ D.leave s l := Iff.rfl

@[simp] theorem follows_act (a : A) (k : R → Program A R L α) :
    Follows D (act a k) s Q ↔
      D.may s a ∧ ∀ r x, D.admits s a r x → Follows D (k r) (D.next s a r x) Q :=
  Iff.rfl

theorem follows_bind (x : Program A R L α) (f : α → Program A R L β) {Q : β → S → Prop} :
    Follows D (x >>= f) s Q ↔ Follows D x s fun a s' => Follows D (f a) s' Q := by
  induction x generalizing s with
  | done a => exact Iff.rfl
  | leave l => exact Iff.rfl
  | act a k ih =>
    apply and_congr_right
    intro _
    exact forall_congr' fun r => forall_congr' fun x => imp_congr_right fun _ => ih r

namespace Follows

theorem mono {x : Program A R L α} (h : Follows D x s Q) (hQ : ∀ a s', Q a s' → Q' a s') :
    Follows D x s Q' := by
  induction x generalizing s with
  | done a => exact hQ a s h
  | leave l => exact h
  | act a k ih => exact ⟨h.1, fun r x hr => ih r (h.2 r x hr)⟩

theorem bind {x : Program A R L α} {f : α → Program A R L β} {Q : β → S → Prop}
    {P : α → S → Prop} (hx : Follows D x s P) (hf : ∀ a s', P a s' → Follows D (f a) s' Q) :
    Follows D (x >>= f) s Q :=
  (follows_bind x f).mpr (hx.mono hf)

theorem issue {a : A} {f : Unit → Program A R L β} {Q : β → S → Prop} (hmay : D.may s a)
    (h : ∀ r x, D.admits s a r x → Follows D (f ()) (D.next s a r x) Q) :
    Follows D (issue a >>= f) s Q := ⟨hmay, h⟩

theorem perform {a : A} {f : R → Program A R L β} {Q : β → S → Prop} (hmay : D.may s a)
    (h : ∀ r x, D.admits s a r x → Follows D (f r) (D.next s a r x) Q) :
    Follows D (perform a >>= f) s Q := ⟨hmay, h⟩

theorem leaveIf {c : Prop} [Decidable c] {l : L} {f : Unit → Program A R L β}
    {Q : β → S → Prop} (hleave : c → D.leave s l) (h : ¬ c → Follows D (f ()) s Q) :
    Follows D (if c then Program.leave l >>= f else f ()) s Q := by
  split
  · exact hleave ‹c›
  · exact h ‹¬ c›

theorem ite {c : Prop} [Decidable c] {x y : Program A R L α} (hx : c → Follows D x s Q)
    (hy : ¬ c → Follows D y s Q) : Follows D (if c then x else y) s Q := by
  split
  · exact hx ‹c›
  · exact hy ‹¬ c›

end Follows

/-- Every action and every way of leaving is one of a kind. -/
def Program.Only (P : A → Prop) (P' : L → Prop) : Program A R L α → Prop
  | .done _ => True
  | .leave l => P' l
  | .act a k => P a ∧ ∀ r, (k r).Only P P'

namespace Program.Only

variable {P : A → Prop} {P' : L → Prop} {x : Program A R L α}

theorem bind {f : α → Program A R L β} (hx : x.Only P P') (hf : ∀ a, (f a).Only P P') :
    (x >>= f).Only P P' := by
  induction x with
  | done a => exact hf a
  | leave l => exact hx
  | act a k ih => exact ⟨hx.1, fun r => ih r (hx.2 r)⟩

theorem ite {c : Prop} [Decidable c] {y : Program A R L α} (hx : c → x.Only P P')
    (hy : ¬ c → y.Only P P') : (if c then x else y).Only P P' := by
  split
  · exact hx ‹c›
  · exact hy ‹¬ c›

theorem and {G : A → Prop} {G' : L → Prop} (hx : x.Only P P') (hx' : x.Only G G') :
    x.Only (fun a => P a ∧ G a) fun l => P' l ∧ G' l := by
  induction x with
  | done a => exact trivial
  | leave l => exact ⟨hx, hx'⟩
  | act a k ih => exact ⟨⟨hx.1, hx'.1⟩, fun r => ih r (hx.2 r) (hx'.2 r)⟩

/-- Actions that are allowed and change nothing keep to a discipline. -/
theorem follows (hx : x.Only P P')
    (hact : ∀ a, P a → D.may s a ∧ ∀ r x, D.admits s a r x → D.next s a r x = s)
    (hleave : ∀ l, P' l → D.leave s l) : Follows D x s fun _ s' => s' = s := by
  induction x with
  | done a => rfl
  | leave l => exact hleave l hx
  | act a k ih =>
    obtain ⟨hmay, hnext⟩ := hact a hx.1
    refine ⟨hmay, fun r y hr => ?_⟩
    rw [hnext r y hr]
    exact ih r (hx.2 r)

end Program.Only

/-! ## Steps -/

/-- Possible answers take the program from one point to another. -/
inductive Steps (D : Discipline A R L X S) :
    Program A R L α → S → Program A R L α → S → Prop
  | refl (x : Program A R L α) (s : S) : Steps D x s x s
  | act {a : A} {k : R → Program A R L α} {s s' : S} {y : Program A R L α} {r : R} {v : X} :
      D.admits s a r v → Steps D (k r) (D.next s a r v) y s' → Steps D (.act a k) s y s'

namespace Steps

variable {x y z : Program A R L α} {s' s'' : S}

theorem trans (h : Steps D x s y s') (h' : Steps D y s' z s'') : Steps D x s z s'' := by
  induction h with
  | refl => exact h'
  | act hr _ ih => exact .act hr (ih h')

theorem bind (h : Steps D x s y s') (f : α → Program A R L β) :
    Steps D (x >>= f) s (y >>= f) s' := by
  induction h with
  | refl => exact .refl ..
  | act hr _ ih => exact .act hr ih

/-- What is demanded of those who hand over does not matter. -/
theorem withLeave (h : Steps D x s y s') (E : S → L → Prop) :
    Steps { D with leave := E } x s y s' := by
  induction h with
  | refl => exact .refl ..
  | act hr _ ih => exact .act hr ih

end Steps

/-- A program that keeps to a discipline does so all along. -/
theorem Follows.steps {x y : Program A R L α} {s' : S} (h : Follows D x s Q)
    (hxy : Steps D x s y s') : Follows D y s' Q := by
  induction hxy with
  | refl => exact h
  | act hr _ ih => exact ih (h.2 _ _ hr)

/-- From every state possible answers lead to the end of the program. -/
def Program.Returns (D : Discipline A R L X S) (x : Program A R L α) : Prop :=
  ∀ s, ∃ a s', Steps D x s (done a) s'

namespace Program.Returns

variable {x : Program A R L α}

theorem done (a : α) : (Program.done a : Program A R L α).Returns D := fun s => ⟨a, s, .refl ..⟩

theorem act {a : A} {k : R → Program A R L α}
    (h : ∀ s, ∃ r v, D.admits s a r v ∧ (k r).Returns D) : (Program.act a k).Returns D := by
  intro s
  obtain ⟨r, v, hr, hk⟩ := h s
  obtain ⟨b, s', hsteps⟩ := hk (D.next s a r v)
  exact ⟨b, s', .act hr hsteps⟩

theorem bind {f : α → Program A R L β} (hx : x.Returns D) (hf : ∀ a, (f a).Returns D) :
    (x >>= f).Returns D := by
  intro s
  obtain ⟨a, s', hsteps⟩ := hx s
  obtain ⟨b, s'', hsteps'⟩ := hf a s'
  exact ⟨b, s'', (hsteps.bind f).trans hsteps'⟩

theorem ite {c : Prop} [Decidable c] {y : Program A R L α} (hx : c → x.Returns D)
    (hy : ¬ c → y.Returns D) : (if c then x else y).Returns D := by
  split
  · exact hx ‹c›
  · exact hy ‹¬ c›

end Program.Returns

/-! ## Logs -/

/-- An entry of a log: `p` performed `a` and was answered `r` in a system that looks like `x`. -/
structure Did (ι A R X : Type) where
  p : ι
  a : A
  r : R
  x : X

variable {ι : Type} [DecidableEq ι]

/-- The ghost state of `p` after a log, the newest entry first. -/
def ghost (D : ι → Discipline A R L X S) (c : ι → S) (p : ι) : List (Did ι A R X) → S
  | [] => c p
  | d :: log => if d.p = p then (D p).next (ghost D c p log) d.a d.r d.x else ghost D c p log

def Allowed (D : ι → Discipline A R L X S) (c : ι → S) : List (Did ι A R X) → Prop
  | [] => True
  | d :: log => (D d.p).may (ghost D c d.p log) d.a ∧ Allowed D c log

def Admitted (D : ι → Discipline A R L X S) (c : ι → S) : List (Did ι A R X) → Prop
  | [] => True
  | d :: log => (D d.p).admits (ghost D c d.p log) d.a d.r d.x ∧ Admitted D c log

section Log

variable {D : ι → Discipline A R L X S} {c : ι → S} {p : ι} {d : Did ι A R X}
  {log log' : List (Did ι A R X)}

@[simp] theorem ghost_nil : ghost D c p [] = c p := rfl

theorem ghost_cons_self (hp : d.p = p) :
    ghost D c p (d :: log) = (D p).next (ghost D c p log) d.a d.r d.x := if_pos hp

theorem ghost_cons_of_ne (hp : d.p ≠ p) : ghost D c p (d :: log) = ghost D c p log := if_neg hp

/-- Entries of others do not matter. -/
theorem ghost_append_of_ne (h : ∀ d ∈ log', d.p ≠ p) : ghost D c p (log' ++ log) = ghost D c p log := by
  induction log' with
  | nil => rfl
  | cons d log' ih =>
    rw [List.forall_mem_cons] at h
    rw [List.cons_append, ghost_cons_of_ne h.1]
    exact ih h.2

theorem ghost_append_entry {l₁ l₂ : List (Did ι A R X)} (h₁ : ∀ e ∈ l₁, e.p ≠ d.p)
    (h₂ : ∀ e ∈ l₂, e.p ≠ d.p) :
    ghost D c d.p (l₁ ++ d :: l₂ ++ log) = (D d.p).next (ghost D c d.p log) d.a d.r d.x := by
  rw [List.append_assoc, ghost_append_of_ne h₁, List.cons_append, ghost_cons_self rfl,
    ghost_append_of_ne h₂]

/-- A process without entries is where it started. -/
theorem ghost_eq_of_forall_ne (h : ∀ d ∈ log, d.p ≠ p) : ghost D c p log = c p := by
  induction log with
  | nil => rfl
  | cons d log ih =>
    rw [List.forall_mem_cons] at h
    rw [ghost_cons_of_ne h.1]
    exact ih h.2

theorem Allowed.suffix (h : Allowed D c (log' ++ log)) : Allowed D c log := by
  induction log' with
  | nil => exact h
  | cons d log' ih => exact ih h.2

theorem Admitted.suffix (h : Admitted D c (log' ++ log)) : Admitted D c log := by
  induction log' with
  | nil => exact h
  | cons d log' ih => exact ih h.2

end Log

end Kaya.Lib
