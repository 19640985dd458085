import Kaya.Phase2.Proofs.Services

/-!
# State areas in memory

An area is 35 words.  What is copied into it can be read back, and every other word stays.
-/

namespace Kaya

open Lib

variable {K : Layout}

/-! ## Areas -/

def InArea (a w : Word) : Prop := ∃ i, i < 35 ∧ w = a + 4 * BitVec.ofNat 32 i

theorem area_inj {a : Word} {i j : Nat} (hi : i < 35) (hj : j < 35)
    (h : a + 4 * BitVec.ofNat 32 i = a + 4 * BitVec.ofNat 32 j) : i = j := by
  have hmul : (4 * BitVec.ofNat 32 i).toNat = (4 * BitVec.ofNat 32 j).toNat := by
    rw [(BitVec.add_right_inj a).mp h]
  rw [BitVec.toNat_mul, BitVec.toNat_mul, BitVec.toNat_ofNat, BitVec.toNat_ofNat] at hmul
  have h4 : (4 : Word).toNat = 4 := rfl
  rw [h4] at hmul
  omega

theorem storeState_of_not_inArea {mem : Word → Word} {a w : Word} (st : State)
    (hw : ¬ InArea a w) : storeState mem a st w = mem w := by
  have hfold : ∀ n, n ≤ 35 → (List.range n).foldl
      (fun m i => Function.update m (a + 4 * BitVec.ofNat 32 i) (st.word i)) mem w = mem w := by
    intro n hn
    induction n with
    | zero => rfl
    | succ n ih =>
        have hne : w ≠ a + 4 * BitVec.ofNat 32 n := fun heq => hw ⟨n, hn, heq⟩
        rw [List.range_succ, List.foldl_append, List.foldl_cons, List.foldl_nil,
          Function.update_of_ne hne, ih (by omega)]
  exact hfold 35 le_rfl

theorem storeState_word (mem : Word → Word) (a : Word) (st : State) {i : Nat} (hi : i < 35) :
    storeState mem a st (a + 4 * BitVec.ofNat 32 i) = st.word i := by
  have hfold : ∀ n, i < n → n ≤ 35 → (List.range n).foldl
      (fun m i => Function.update m (a + 4 * BitVec.ofNat 32 i) (st.word i)) mem
        (a + 4 * BitVec.ofNat 32 i) = st.word i := by
    intro n hin hn
    induction n with
    | zero => omega
    | succ n ih =>
        rw [List.range_succ, List.foldl_append, List.foldl_cons, List.foldl_nil]
        by_cases heq : i = n
        · subst heq
          rw [Function.update_self]
        · have hne : a + 4 * BitVec.ofNat 32 i ≠ a + 4 * BitVec.ofNat 32 n :=
            fun h => heq (area_inj hi (by omega) h)
          rw [Function.update_of_ne hne, ih (by omega) (by omega)]
  exact hfold 35 hi le_rfl

/-- The copy can be read back. -/
theorem stateAt_storeState (mem : Word → Word) (a : Word) (st : State) :
    stateAt (storeState mem a st) a = st := by
  have hword : ∀ i, i < 35 → storeState mem a st (a + 4 * BitVec.ofNat 32 i) = st.word i :=
    fun i hi => storeState_word mem a st hi
  apply State.ext
  · have h0 := hword 0 (by omega)
    rw [show a + 4 * BitVec.ofNat 32 0 = a from BitVec.add_zero a] at h0
    exact h0
  · exact hword 1 (by omega)
  · exact hword 2 (by omega)
  · exact hword 3 (by omega)
  · funext i
    have hadd : a + 16 + 4 * BitVec.ofNat 32 i = a + 4 * BitVec.ofNat 32 (i + 4) := by
      bv_omega
    have hreg : st.word (i + 4) = st.sReg i := by
      simp [State.word]
    show storeState mem a st (a + 16 + 4 * BitVec.ofNat 32 i) = st.sReg i
    rw [hadd, hword (i + 4) (by omega), hreg]

end Kaya
