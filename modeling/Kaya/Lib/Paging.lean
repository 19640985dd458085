import Mathlib.Logic.Function.Basic
import Mathlib.Tactic.SplitIfs

/-!
# Pages in frames and in a backing store

A page is in one of a few frames or in the backing store.  Moving it from one to the other does
not change what it contains, as long as no two pages share a frame.
-/

namespace Kaya.Lib.Paging

variable {P F C : Type}

/-- What a page contains, if `home` says which frame it is in, if any. -/
def contents (home : P → Option F) (frame : F → C) (back : P → C) (x : P) : C :=
  match home x with
  | some f => frame f
  | none => back x

/-- No two pages share a frame. -/
def Unshared (home : P → Option F) : Prop := ∀ x y f, home x = some f → home y = some f → x = y

def Unused (home : P → Option F) (f : F) : Prop := ∀ x, home x ≠ some f

variable {home : P → Option F} {frame : F → C} {back : P → C} {x : P} {f : F} {c : C}

theorem contents_of_home (h : home x = some f) : contents home frame back x = frame f := by
  rw [contents, h]

theorem contents_of_back (h : home x = none) : contents home frame back x = back x := by
  rw [contents, h]

/-- Only what the backing store holds for the page matters. -/
theorem contents_congr {back' : P → C} (h : back' x = back x) :
    contents home frame back' x = contents home frame back x := by
  unfold contents
  rw [h]

section Frames

variable [DecidableEq F]

theorem contents_scratch (h : Unused home f) :
    contents home (Function.update frame f c) back = contents home frame back := by
  funext x
  cases hx : home x with
  | none => rw [contents_of_back hx, contents_of_back hx]
  | some g =>
    have hgf : g ≠ f := fun heq => h x (heq ▸ hx)
    rw [contents_of_home hx, contents_of_home hx, Function.update_of_ne hgf]

theorem contents_store [DecidableEq P] (hunshared : Unshared home) (h : home x = some f) :
    contents home (Function.update frame f c) back =
      Function.update (contents home frame back) x c := by
  funext y
  by_cases hyx : y = x
  · subst hyx
    rw [Function.update_self, contents_of_home h, Function.update_self]
  · rw [Function.update_of_ne hyx]
    cases hy : home y with
    | none => rw [contents_of_back hy, contents_of_back hy]
    | some g =>
      have hgf : g ≠ f := by
        rintro rfl
        exact hyx (hunshared y x g hy h)
      rw [contents_of_home hy, contents_of_home hy, Function.update_of_ne hgf]

end Frames

section Pages

variable [DecidableEq P]

theorem contents_writeBack (h : home x = some f) :
    contents (Function.update home x none) frame (Function.update back x (frame f)) =
      contents home frame back := by
  funext y
  by_cases hyx : y = x
  · subst hyx
    rw [contents_of_back (Function.update_self ..), contents_of_home h, Function.update_self]
  · unfold contents
    simp only [Function.update_of_ne hyx]

theorem contents_bringIn (h : home x = none) (hframe : frame f = back x) :
    contents (Function.update home x (some f)) frame back = contents home frame back := by
  funext y
  by_cases hyx : y = x
  · subst hyx
    rw [contents_of_home (Function.update_self ..), contents_of_back h, hframe]
  · unfold contents
    simp only [Function.update_of_ne hyx]

theorem update_none {y : P} (h : Function.update home x none y = some f) :
    y ≠ x ∧ home y = some f := by
  by_cases hyx : y = x
  · subst hyx
    rw [Function.update_self] at h
    nomatch h
  · rw [Function.update_of_ne hyx] at h
    exact ⟨hyx, h⟩

theorem Unshared.writeBack (h : Unshared home) (x : P) : Unshared (Function.update home x none) :=
  fun y z f hy hz => h y z f (update_none hy).2 (update_none hz).2

theorem Unshared.bringIn (h : Unshared home) (hf : Unused home f) (x : P) :
    Unshared (Function.update home x (some f)) := by
  intro y z g hy hz
  by_cases hyx : y = x <;> by_cases hzx : z = x
  · rw [hyx, hzx]
  · subst hyx
    rw [Function.update_self] at hy
    rw [Function.update_of_ne hzx, ← hy] at hz
    exact absurd hz (hf z)
  · subst hzx
    rw [Function.update_self] at hz
    rw [Function.update_of_ne hyx, ← hz] at hy
    exact absurd hy (hf y)
  · rw [Function.update_of_ne hyx] at hy
    rw [Function.update_of_ne hzx] at hz
    exact h y z g hy hz

theorem Unshared.unused (h : Unshared home) (hx : home x = some f) :
    Unused (Function.update home x none) f :=
  fun y hy => (update_none hy).1 (h y x f (update_none hy).2 hx)

theorem Unused.writeBack (h : Unused home f) (x : P) : Unused (Function.update home x none) f :=
  fun y hy => h y (update_none hy).2

end Pages

section Forget

variable {gone : P → Prop} [DecidablePred gone]

def forget (home : P → Option F) (gone : P → Prop) [DecidablePred gone] (x : P) : Option F :=
  if gone x then none else home x

theorem forget_eq_some : forget home gone x = some f ↔ ¬ gone x ∧ home x = some f := by
  unfold forget
  split_ifs with hx
  · exact iff_of_false id fun h => h.1 hx
  · exact (and_iff_right hx).symm

theorem Unshared.forget (h : Unshared home) : Unshared (Paging.forget home gone) :=
  fun x y f hx hy => h x y f (forget_eq_some.mp hx).2 (forget_eq_some.mp hy).2

theorem Unused.forget (h : Unused home f) : Unused (Paging.forget home gone) f :=
  fun x hx => h x (forget_eq_some.mp hx).2

theorem contents_forget (hx : ¬ gone x) :
    contents (forget home gone) frame back x = contents home frame back x := by
  rw [contents, contents, forget, if_neg hx]

end Forget

end Kaya.Lib.Paging
