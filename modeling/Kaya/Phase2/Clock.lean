import Kaya.Phase2.Abstract
import Mathlib.Tactic.Linarith

/-!
# Reading the clock

`STCK` divides the low word of the time of day by the timescale before two readings are
subtracted, all in signed 32-bit arithmetic.  So the difference of two readings is the time
between them as long as the counter does not go from `0x7FFFFFFF` to `0x80000000` in between.
-/

namespace Kaya

/-- `STCK`: both registers are read as `cpu_t`, and the quotient is cut off towards 0. -/
def stck (todLo timescale : Word) : Int := todLo.toInt.tdiv timescale.toInt

def cpuSub (now start : Int) : Int := (now - start).bmod (2 ^ 32)

/-- The difference of the readings at `todLo` and `e` ticks later. -/
def quantumTime (todLo timescale : Word) (e : Nat) : Int :=
  cpuSub (stck (todLo + BitVec.ofNat 32 e) timescale) (stck todLo timescale)

/-- `d` is not negative and within 1 of the fraction `e / s`. -/
def Measures (d e s : Int) : Prop := 0 ≤ d ∧ |d * s - e| ≤ s

/-- `d` is not negative and within 1 of the quotient of `e` by `s`, a whole number. -/
def MeasuresUnits (d e s : Int) : Prop := 0 ≤ d ∧ |d - e / s| ≤ 1

/-- The counter reads `a`, and goes from `0x7FFFFFFF` to `0x80000000` within `e` ticks. -/
def Overflows (a e : Int) : Prop := 2 ^ 31 ≤ a + e

def BothZero (a e s : Int) : Prop := a < s ∧ 2 ^ 32 - (a + e) < s

/-- What two readings lose on the two sides of 0 is at most one unit. -/
def Rounds (a e s : Int) : Prop := a < 0 → 0 ≤ a + e → -a % s + (a + e) % s ≤ s

instance (a e : Int) : Decidable (Overflows a e) := inferInstanceAs (Decidable (_ ≤ _))

/-! ## The difference of two quotients -/

section Difference

variable {a d e s : Int}

theorem tdiv_of_neg (ha : a < 0) : a.tdiv s = -(-a / s) := by
  have hneg : a.tdiv s = -((-a).tdiv s) := by rw [Int.neg_tdiv, neg_neg]
  rw [hneg, Int.tdiv_eq_ediv_of_nonneg (by omega)]

theorem lt_of_ediv_eq_zero (hs : 0 < s) (h : a / s = 0) : a < s := by
  have hdiv := Int.mul_ediv_add_emod a s
  rw [h, mul_zero, zero_add] at hdiv
  rw [← hdiv]
  exact Int.emod_lt_of_pos a hs

theorem bmod_of_small (h : -2 ^ 31 ≤ d) (h' : d < 2 ^ 31) : d.bmod (2 ^ 32) = d :=
  Int.bmod_eq_of_le (by omega) (by omega)

/-- Off by less than two units below or one above is within 1 of the whole quotient. -/
theorem measuresUnits_of_bounds (hs : 0 < s) (hd : 0 ≤ d) (hlo : -(2 * s) < d * s - e)
    (hhi : d * s - e < s) : MeasuresUnits d e s := by
  have hdiv := Int.mul_ediv_add_emod e s
  have hr := Int.emod_nonneg e hs.ne'
  have hr' := Int.emod_lt_of_pos e hs
  refine ⟨hd, ?_⟩
  rw [abs_le]
  constructor
  · by_contra hlt
    have hle : (d - e / s) * s ≤ -2 * s := mul_le_mul_of_nonneg_right (by omega) hs.le
    linarith [sub_mul d (e / s) s, mul_comm s (e / s)]
  · by_contra hgt
    have hle : 2 * s ≤ (d - e / s) * s := mul_le_mul_of_nonneg_right (by omega) hs.le
    linarith [sub_mul d (e / s) s, mul_comm s (e / s)]

theorem quotients_same (a : Int) (he : 0 ≤ e) (hs : 0 < s) :
    0 ≤ (a + e) / s - a / s ∧ |((a + e) / s - a / s) * s - e| < s := by
  have h₁ := Int.mul_ediv_add_emod a s
  have h₂ := Int.mul_ediv_add_emod (a + e) s
  have hr₁ := Int.emod_nonneg a hs.ne'
  have hr₁' := Int.emod_lt_of_pos a hs
  have hr₂ := Int.emod_nonneg (a + e) hs.ne'
  have hr₂' := Int.emod_lt_of_pos (a + e) hs
  refine ⟨Int.sub_nonneg_of_le (Int.ediv_le_ediv hs (by omega)), ?_⟩
  rw [abs_lt]
  constructor <;>
    linarith [sub_mul ((a + e) / s) (a / s) s, mul_comm s (a / s), mul_comm s ((a + e) / s)]

theorem quotients_cross (s a e : Int) :
    ((a + e) / s + -a / s) * s - e = -(-a % s + (a + e) % s) := by
  have h₁ := Int.mul_ediv_add_emod (-a) s
  have h₂ := Int.mul_ediv_add_emod (a + e) s
  linarith [add_mul ((a + e) / s) (-a / s) s, mul_comm s (-a / s), mul_comm s ((a + e) / s)]

theorem cpuSub_of_bounds {x y : Int} (hs : 0 < s) (he : 0 ≤ e) (he' : e < 2 ^ 31)
    (hd : 0 ≤ x - y) (hhi : (x - y) * s - e < s) : cpuSub x y = x - y := by
  have hle : x - y ≤ e := by
    by_contra hlt
    have hmul : e * s ≤ (x - y - 1) * s := mul_le_mul_of_nonneg_right (by omega) hs.le
    have hes : e ≤ e * s := le_mul_of_one_le_right he hs
    linarith [sub_mul (x - y) 1 s]
  exact bmod_of_small (by omega) (by omega)

/-- While the counter does not overflow the difference is right up to what the two quotients
lose. -/
theorem difference_in_range (he : 0 ≤ e) (he' : e < 2 ^ 31) (hs : 0 < s) :
    0 ≤ cpuSub ((a + e).tdiv s) (a.tdiv s) ∧
      cpuSub ((a + e).tdiv s) (a.tdiv s) * s - e < s ∧
      -(2 * s) < cpuSub ((a + e).tdiv s) (a.tdiv s) * s - e ∧
      (-s ≤ cpuSub ((a + e).tdiv s) (a.tdiv s) * s - e ↔ Rounds a e s) := by
  -- it is enough to bound the difference before it is cut off to 32 bits
  have hcut : ∀ d : Int, (a + e).tdiv s - a.tdiv s = d → 0 ≤ d → d * s - e < s →
      cpuSub ((a + e).tdiv s) (a.tdiv s) = d := by
    rintro d rfl hd hhi
    exact cpuSub_of_bounds hs he he' hd hhi
  by_cases hside : 0 ≤ a ∨ a + e < 0
  · have hround : Rounds a e s := fun hneg hpos => by omega
    obtain ⟨d, hd, hd₀, habs⟩ : ∃ d, (a + e).tdiv s - a.tdiv s = d ∧ 0 ≤ d ∧ |d * s - e| < s := by
      rcases hside with ha | ha
      · refine ⟨_, ?_, quotients_same a he hs⟩
        rw [Int.tdiv_eq_ediv_of_nonneg (by omega), Int.tdiv_eq_ediv_of_nonneg ha]
      · refine ⟨_, ?_, quotients_same (-(a + e)) he hs⟩
        have hback : -(a + e) + e = -a := by omega
        rw [tdiv_of_neg ha, tdiv_of_neg (by omega : a < 0), hback]
        omega
    rw [abs_lt] at habs
    rw [hcut d hd hd₀ habs.2]
    exact ⟨hd₀, habs.2, by omega, fun _ => hround, fun _ => by omega⟩
  · have ha : a < 0 := by omega
    have hae : 0 ≤ a + e := by omega
    have hd : (a + e).tdiv s - a.tdiv s = (a + e) / s + -a / s := by
      rw [Int.tdiv_eq_ediv_of_nonneg hae, tdiv_of_neg ha]
      omega
    have hcross := quotients_cross s a e
    have hr₁ := Int.emod_nonneg (-a) hs.ne'
    have hr₁' := Int.emod_lt_of_pos (-a) hs
    have hr₂ := Int.emod_nonneg (a + e) hs.ne'
    have hr₂' := Int.emod_lt_of_pos (a + e) hs
    have hq₁ : 0 ≤ -a / s := Int.ediv_nonneg (by omega) hs.le
    have hq₂ : 0 ≤ (a + e) / s := Int.ediv_nonneg hae hs.le
    rw [hcut _ hd (by omega) (by omega), hcross]
    refine ⟨by omega, by omega, by omega, ?_⟩
    constructor
    · exact fun h _ _ => by omega
    · exact fun h => by have := h ha hae; omega

/-- An overflow with a timescale of at least 2 leaves the difference negative or 0. -/
theorem difference_overflow (ha : a < 2 ^ 31) (he' : e < 2 ^ 31) (hover : Overflows a e)
    (hs : 2 ≤ s) :
    cpuSub ((a + e - 2 ^ 32).tdiv s) (a.tdiv s) = -((2 ^ 32 - (a + e)) / s + a / s) := by
  have hover' : 2 ^ 31 ≤ a + e := hover
  have hback : -(a + e - 2 ^ 32) = 2 ^ 32 - (a + e) := by omega
  have hq₁ : 0 ≤ (2 ^ 32 - (a + e)) / s := Int.ediv_nonneg (by omega) (by omega)
  have hq₂ : 0 ≤ a / s := Int.ediv_nonneg (by omega) (by omega)
  have hr₁ := Int.emod_nonneg (2 ^ 32 - (a + e)) (by omega : s ≠ 0)
  have hr₂ := Int.emod_nonneg a (by omega : s ≠ 0)
  have hm₁ := Int.mul_ediv_add_emod (2 ^ 32 - (a + e)) s
  have hm₂ := Int.mul_ediv_add_emod a s
  have hle₁ : 2 * ((2 ^ 32 - (a + e)) / s) ≤ s * ((2 ^ 32 - (a + e)) / s) :=
    mul_le_mul_of_nonneg_right hs hq₁
  have hle₂ : 2 * (a / s) ≤ s * (a / s) := mul_le_mul_of_nonneg_right hs hq₂
  rw [cpuSub, tdiv_of_neg (by omega : a + e - 2 ^ 32 < 0),
    Int.tdiv_eq_ediv_of_nonneg (by omega : 0 ≤ a), hback]
  have hd : -((2 ^ 32 - (a + e)) / s) - a / s = -((2 ^ 32 - (a + e)) / s + a / s) := by omega
  rw [hd]
  exact bmod_of_small (by linarith) (by omega)

end Difference

/-! ## Two readings -/

theorem toInt_ticks (todLo : Word) {e : Nat} (he : e < 2 ^ 31) :
    (todLo + BitVec.ofNat 32 e).toInt =
      if Overflows todLo.toInt e then todLo.toInt + e - 2 ^ 32 else todLo.toInt + e := by
  have hlo := todLo.le_toInt
  have hhi := todLo.toInt_lt
  have he' : (BitVec.ofNat 32 e).toInt = e := by
    rw [BitVec.toInt_ofNat']
    exact Int.bmod_eq_of_le (by omega) (by omega)
  rw [BitVec.toInt_add, he', Int.bmod_def]
  unfold Overflows
  split_ifs <;> omega

theorem Measures.units {d e s : Int} (hs : 0 < s) (h : Measures d e s) (hlt : d * s - e < s) :
    MeasuresUnits d e s := by
  have habs := abs_le.mp h.2
  exact measuresUnits_of_bounds hs h.1 (by omega) hlt

/-- When the difference of two readings is not negative and within 1 of the time between
them: for the fraction, and for whole units. -/
theorem quantumTime_measures_iff (todLo timescale : Word) (hs : 0 < timescale.toInt) (e : Nat)
    (he : e < 2 ^ 31) :
    (Measures (quantumTime todLo timescale e) e timescale.toInt ↔
      timescale.toInt = 1 ∨
        ¬ Overflows todLo.toInt e ∧ Rounds todLo.toInt e timescale.toInt ∨
        BothZero todLo.toInt e timescale.toInt ∧ e ≤ timescale.toInt) ∧
    (MeasuresUnits (quantumTime todLo timescale e) e timescale.toInt ↔
      timescale.toInt = 1 ∨ ¬ Overflows todLo.toInt e ∨
        BothZero todLo.toInt e timescale.toInt) := by
  have hlo := todLo.le_toInt
  have hhi := todLo.toInt_lt
  have hts := timescale.toInt_lt
  have hdiff : quantumTime todLo timescale e = cpuSub
      ((if Overflows todLo.toInt e then todLo.toInt + e - 2 ^ 32 else todLo.toInt + e).tdiv
        timescale.toInt) (todLo.toInt.tdiv timescale.toInt) := by
    rw [quantumTime, stck, stck, toInt_ticks todLo he]
  rw [hdiff]
  generalize todLo.toInt = a at *
  generalize timescale.toInt = s at *
  by_cases hover : Overflows a e
  · have hover' : 2 ^ 31 ≤ a + e := hover
    rw [if_pos hover]
    rcases (by omega : s = 1 ∨ 2 ≤ s) with rfl | h2
    · have hd : cpuSub ((a + e - 2 ^ 32).tdiv 1) (a.tdiv 1) = e := by
        rw [Int.tdiv_one, Int.tdiv_one, cpuSub, Int.bmod_def]
        split_ifs <;> omega
      rw [hd]
      have hm : Measures e e 1 := ⟨by omega, by simp⟩
      exact ⟨iff_of_true hm (.inl rfl), iff_of_true (hm.units hs (by omega)) (.inl rfl)⟩
    · rw [difference_overflow (by omega) (by omega) hover h2]
      have hq₁ : 0 ≤ (2 ^ 32 - (a + e)) / s := Int.ediv_nonneg (by omega) (by omega)
      have hq₂ : 0 ≤ a / s := Int.ediv_nonneg (by omega) (by omega)
      have hzero : 0 ≤ -((2 ^ 32 - (a + e)) / s + a / s) ↔ BothZero a e s := by
        constructor
        · intro h
          exact ⟨lt_of_ediv_eq_zero hs (by omega), lt_of_ediv_eq_zero hs (by omega)⟩
        · rintro ⟨h₂, h₁⟩
          rw [Int.ediv_eq_zero_of_lt (by omega) h₁, Int.ediv_eq_zero_of_lt (by omega) h₂]
          omega
      have hd : 0 ≤ -((2 ^ 32 - (a + e)) / s + a / s) →
          -((2 ^ 32 - (a + e)) / s + a / s) = 0 := fun h => by omega
      have hne : s ≠ 1 := by omega
      constructor
      · constructor
        · intro h
          have hes := h.2
          rw [hd h.1, zero_mul, zero_sub, abs_neg, abs_of_nonneg (by omega)] at hes
          exact .inr (.inr ⟨hzero.mp h.1, hes⟩)
        · rintro (h | ⟨h, -⟩ | ⟨h, hes⟩)
          · exact absurd h hne
          · exact absurd hover h
          · have hnn := hzero.mpr h
            refine ⟨hnn, ?_⟩
            rw [hd hnn, zero_mul, zero_sub, abs_neg, abs_of_nonneg (by omega)]
            exact hes
      · constructor
        · exact fun h => .inr (.inr (hzero.mp h.1))
        · rintro (h | h | h)
          · exact absurd h hne
          · exact absurd hover h
          · have hnn := hzero.mpr h
            -- both distances to the overflow are below `s`, so `e` is below `2 * s`
            have hbelow : e < 2 * s := by
              have h₁ := h.1
              have h₂ := h.2
              omega
            rw [hd hnn]
            exact measuresUnits_of_bounds hs le_rfl (by omega) (by omega)
  · have hover' : ¬ 2 ^ 31 ≤ a + e := hover
    rw [if_neg hover]
    obtain ⟨hd, hlt, hgt, hround⟩ := difference_in_range (a := a) (e := e) (by omega) (by omega) hs
    have hboth : ¬ BothZero a e s := fun h => by
      have h₂ := h.2
      omega
    constructor
    · constructor
      · intro h
        have habs := abs_le.mp h.2
        exact .inr (.inl ⟨hover, hround.mp habs.1⟩)
      · intro h
        have hr : Rounds a e s := by
          rcases h with rfl | h | h
          · intro _ _
            omega
          · exact h.2
          · exact absurd h.1 hboth
        exact ⟨hd, abs_le.mpr ⟨hround.mpr hr, hlt.le⟩⟩
    · exact iff_of_true (measuresUnits_of_bounds hs hd hgt hlt) (.inr (.inl hover))

/-- A process dispatched ten ticks before the counter passes 0. -/
theorem quantumTime_measures_iff_zero :
    (Measures (quantumTime 0xFFFFFFF6 5 20) 20 5 ↔
      (5 : Word).toInt = 1 ∨
        ¬ Overflows (0xFFFFFFF6 : Word).toInt 20 ∧ Rounds (0xFFFFFFF6 : Word).toInt 20 5 ∨
        BothZero (0xFFFFFFF6 : Word).toInt 20 5 ∧ (20 : Int) ≤ 5) ∧
    (MeasuresUnits (quantumTime 0xFFFFFFF6 5 20) 20 5 ↔
      (5 : Word).toInt = 1 ∨ ¬ Overflows (0xFFFFFFF6 : Word).toInt 20 ∨
        BothZero (0xFFFFFFF6 : Word).toInt 20 5) :=
  quantumTime_measures_iff 0xFFFFFFF6 5 (by decide) 20 (by decide)

/-- Twenty ticks from `0x7FFFFFF6` on are charged as a negative time. -/
theorem quantumTime_negative :
    ¬ ∀ (todLo timescale : Word) (e : Nat), 0 < timescale.toInt → e < 2 ^ 31 →
      MeasuresUnits (quantumTime todLo timescale e) e timescale.toInt := by
  intro h
  have hneg : quantumTime 0x7FFFFFF6 2 20 < 0 := by decide
  have hpos := (h 0x7FFFFFF6 2 20 (by decide) (by decide)).1
  omega

/-! ## What the nucleus charges -/

section Charges

variable {a : Abs} {p : Pcb} {w todLo timescale : Word} {e : Nat}

theorem charge_bmod (time now start io : Int) :
    (time + ((now - start) - io)).bmod (2 ^ 32) =
      (time + cpuSub now start - io).bmod (2 ^ 32) := by
  have hcut : time + cpuSub now start - io = cpuSub now start + (time - io) := by omega
  rw [hcut, cpuSub, Int.bmod_add_bmod]
  congr 1
  omega

/-- A process that waits is charged the difference of the two readings. -/
theorem block_charges (hstart : a.startTOD = stck todLo timescale)
    (hnow : a.tod a.reads = stck (todLo + BitVec.ofNat 32 e) timescale) (soft : Int) :
    ((a.block soft p w).pcb.pTime p).bmod (2 ^ 32) =
      (a.pcb.pTime p + quantumTime todLo timescale e - a.ioProcTime).bmod (2 ^ 32) := by
  have htime : (a.block soft p w).pcb.pTime p =
      a.pcb.pTime p + ((a.tod a.reads - a.startTOD) - a.ioProcTime) := by
    simp [Abs.block]
  rw [htime, hstart, hnow, charge_bmod]
  rfl

/-- So is one whose quantum is over. -/
theorem preempt_charges (hcur : a.currentProc = some p)
    (hstart : a.startTOD = stck todLo timescale) {timeStart timeEnd : Int}
    (hend : timeEnd = stck (todLo + BitVec.ofNat 32 e) timescale) :
    ((a.preempt timeStart timeEnd).pcb.pTime p).bmod (2 ^ 32) =
      (a.pcb.pTime p + quantumTime todLo timescale e -
        (a.ioProcTime + (timeEnd - timeStart))).bmod (2 ^ 32) := by
  have htime : (a.preempt timeStart timeEnd).pcb.pTime p =
      a.pcb.pTime p + ((timeEnd - a.startTOD) - (a.ioProcTime + (timeEnd - timeStart))) := by
    simp [Abs.preempt, hcur]
  rw [htime, charge_bmod, hstart]
  subst hend
  rfl

end Charges

end Kaya
