import Deferral.Decimal.Double
import Mathlib.Algebra.Group.Nat.Defs
import Mathlib.Tactic.Common

/-!
# Whole numbers among the doubles

Rounding keeps the order of whole numbers: of two of them the greater one has a double of no less
rank (`Double.rank_ofInt_mono`), though the two doubles may be the same.  No whole number becomes a
NaN.
-/

namespace Deferral

namespace Double

/-! ## 1. Words -/

theorem bits_ofParts {magnitude : Nat} (h : magnitude < 2 ^ 63) (negative : Bool) :
    (ofParts negative magnitude).bits.toNat =
      if negative then 2 ^ 63 + magnitude else magnitude := by
  show (UInt64.ofNat (if negative then 2 ^ 63 + magnitude else magnitude)).toNat = _
  rw [UInt64.toNat_ofNat']
  apply Nat.mod_eq_of_lt
  split <;> omega

theorem magnitude_ofParts {magnitude : Nat} (h : magnitude < 2 ^ 63) (negative : Bool) :
    (ofParts negative magnitude).magnitude = magnitude := by
  show (ofParts negative magnitude).bits.toNat % 2 ^ 63 = magnitude
  rw [bits_ofParts h]
  split <;> omega

theorem rank_ofParts {magnitude : Nat} (h : magnitude < 2 ^ 63) (negative : Bool) :
    (ofParts negative magnitude).rank =
      if negative then -(magnitude : Int) else magnitude := by
  have hsign : (ofParts negative magnitude).negative = negative := by
    show decide (2 ^ 63 ≤ (ofParts negative magnitude).bits.toNat) = negative
    rw [bits_ofParts h]
    cases negative with
    | true => simp
    | false => simpa using h
  rw [rank, hsign, magnitude_ofParts h]

/-! ## 2. Division to the nearest whole number -/

/-- Rounding takes the quotient or the number above it. -/
theorem divideToEven_bounds (num den : Nat) :
    num / den ≤ divideToEven num den ∧ divideToEven num den ≤ num / den + 1 := by
  simp only [divideToEven]
  split
  · omega
  · split
    · omega
    · split <;> omega

theorem divideToEven_mono {num num' : Nat} (den : Nat) (h : num ≤ num') :
    divideToEven num den ≤ divideToEven num' den := by
  have hquotient : num / den ≤ num' / den := Nat.div_le_div_right h
  by_cases hsame : num / den = num' / den
  · -- With one quotient, the remainders decide.
    have hrest : num % den ≤ num' % den := by
      have hnum := Nat.div_add_mod num den
      have hnum' := Nat.div_add_mod num' den
      rw [hsame] at hnum
      omega
    simp only [divideToEven, hsame]
    repeat' split
    all_goals omega
  · have hbelow := (divideToEven_bounds num den).2
    have habove := (divideToEven_bounds num' den).1
    omega

/-- What lies between two whole numbers is rounded to a number between them. -/
theorem divideToEven_between {num den low high : Nat} (hden : 0 < den) (hlow : low * den ≤ num)
    (hhigh : num < high * den) :
    low ≤ divideToEven num den ∧ divideToEven num den ≤ high := by
  have hbounds := divideToEven_bounds num den
  have hle : low ≤ num / den := (Nat.le_div_iff_mul_le hden).mpr hlow
  have hlt : num / den < high := (Nat.div_lt_iff_lt_mul hden).mpr hhigh
  omega

/-! ## 3. Whole numbers -/

/-- The significand of the double nearest to a positive whole number, with 53 binary digits unless
it has been rounded up to the next power of two. -/
def wholeSignificand (num : Nat) : Nat :=
  divideToEven (num * 2 ^ (52 - num.log2)) (2 ^ (num.log2 - 52))

def wholeMagnitude (num : Nat) : Nat :=
  if num = 0 then 0
  else min infinityMagnitude ((num.log2 + 1022) * 2 ^ 52 + wholeSignificand num)

theorem binaryExponent_whole {num : Nat} (h : num ≠ 0) : binaryExponent num 1 = num.log2 := by
  have hone : (1 : Nat).log2 = 0 := by decide
  have hself : 2 ^ num.log2 ≤ num := Nat.log2_self_le h
  simp [binaryExponent, hone, hself]

theorem ofRatio_whole (negative : Bool) (num : Nat) :
    ofRatio negative num 1 = ofParts negative (wholeMagnitude num) := by
  by_cases h : num = 0
  · rw [ofRatio, wholeMagnitude, if_pos h, if_pos h]
  · have hscale : max (binaryExponent num 1 - 52) (-1074) = (num.log2 : Int) - 52 := by
      rw [binaryExponent_whole h]
      omega
    have hshift : (-((num.log2 : Int) - 52)).toNat = 52 - num.log2 := by omega
    have hdrop : ((num.log2 : Int) - 52).toNat = num.log2 - 52 := by omega
    have hplace : ((num.log2 : Int) - 52 + 1074).toNat = num.log2 + 1022 := by omega
    rw [ofRatio, wholeMagnitude, if_neg h, if_neg h]
    simp only [hscale, hshift, hdrop, hplace, Nat.one_mul]
    rfl

theorem wholeMagnitude_le (num : Nat) : wholeMagnitude num ≤ infinityMagnitude := by
  rw [wholeMagnitude]
  split
  · exact Nat.zero_le _
  · exact Nat.min_le_left _ _

/-- The significand has its highest digit in one place, whichever number it comes from. -/
theorem wholeSignificand_bounds {num : Nat} (h : num ≠ 0) :
    2 ^ 52 ≤ wholeSignificand num ∧ wholeSignificand num ≤ 2 ^ 53 := by
  have hlow : 2 ^ num.log2 ≤ num := Nat.log2_self_le h
  have hhigh : num < 2 ^ (num.log2 + 1) := Nat.lt_log2_self
  have hplace : 2 ^ 52 * 2 ^ (num.log2 - 52) = 2 ^ num.log2 * 2 ^ (52 - num.log2) := by
    rw [← Nat.pow_add, ← Nat.pow_add]
    congr 1
    omega
  apply divideToEven_between (Nat.two_pow_pos _)
  · rw [hplace]
    exact Nat.mul_le_mul_right _ hlow
  · calc num * 2 ^ (52 - num.log2)
        < 2 ^ (num.log2 + 1) * 2 ^ (52 - num.log2) :=
          Nat.mul_lt_mul_of_pos_right hhigh (Nat.two_pow_pos _)
      _ = 2 ^ 53 * 2 ^ (num.log2 - 52) := by
          rw [Nat.pow_succ, Nat.mul_right_comm, ← hplace, Nat.mul_right_comm, ← Nat.pow_succ]

theorem wholeMagnitude_mono {num num' : Nat} (h : num ≤ num') :
    wholeMagnitude num ≤ wholeMagnitude num' := by
  by_cases hzero : num = 0
  · rw [wholeMagnitude, if_pos hzero]
    exact Nat.zero_le _
  · have hzero' : num' ≠ 0 := by omega
    rw [wholeMagnitude, wholeMagnitude, if_neg hzero, if_neg hzero']
    refine Nat.le_min.mpr ⟨Nat.min_le_left _ _, Nat.le_trans (Nat.min_le_right _ _) ?_⟩
    have hlog : num.log2 ≤ num'.log2 :=
      (Nat.le_log2 hzero').mpr (Nat.le_trans (Nat.log2_self_le hzero) h)
    by_cases hsame : num.log2 = num'.log2
    · -- Both are rounded to the same place.
      have hsignificand : wholeSignificand num ≤ wholeSignificand num' := by
        rw [wholeSignificand, wholeSignificand, hsame]
        exact divideToEven_mono _ (Nat.mul_le_mul_right _ h)
      rw [hsame]
      exact Nat.add_le_add_left hsignificand _
    · -- Between them lies a power of two, which is a double.
      have hplace : num.log2 + 1022 + 1 ≤ num'.log2 + 1022 := by omega
      calc (num.log2 + 1022) * 2 ^ 52 + wholeSignificand num
          ≤ (num.log2 + 1022) * 2 ^ 52 + (2 ^ 52 + 2 ^ 52) :=
            Nat.add_le_add_left (wholeSignificand_bounds hzero).2 _
        _ = (num.log2 + 1022 + 1) * 2 ^ 52 + 2 ^ 52 := by
            rw [Nat.add_mul (num.log2 + 1022) 1, Nat.one_mul, Nat.add_assoc]
        _ ≤ (num'.log2 + 1022) * 2 ^ 52 + wholeSignificand num' :=
            Nat.add_le_add (Nat.mul_le_mul_right _ hplace) (wholeSignificand_bounds hzero').1

/-! ## 4. The theorem -/

theorem wholeMagnitude_lt (num : Nat) : wholeMagnitude num < 2 ^ 63 :=
  Nat.lt_of_le_of_lt (wholeMagnitude_le num) (by decide)

theorem isNaN_ofInt (n : Int) : (ofInt n).isNaN = false := by
  rw [ofInt, ofRatio_whole, isNaN, magnitude_ofParts (wholeMagnitude_lt _)]
  exact decide_eq_false (Nat.not_lt.mpr (wholeMagnitude_le _))

theorem rank_ofInt (n : Int) :
    (ofInt n).rank =
      if n < 0 then -(wholeMagnitude n.natAbs : Int) else wholeMagnitude n.natAbs := by
  rw [ofInt, ofRatio_whole, rank_ofParts (wholeMagnitude_lt _)]
  by_cases h : n < 0 <;> simp [h]

/-- Rounding to doubles keeps the order of whole numbers. -/
theorem rank_ofInt_mono {a b : Int} (h : a ≤ b) : (ofInt a).rank ≤ (ofInt b).rank := by
  rw [rank_ofInt, rank_ofInt]
  by_cases ha : a < 0
  · by_cases hb : b < 0
    · have hmono := wholeMagnitude_mono (show b.natAbs ≤ a.natAbs by omega)
      rw [if_pos ha, if_pos hb]
      omega
    · rw [if_pos ha, if_neg hb]
      omega
  · have hmono := wholeMagnitude_mono (show a.natAbs ≤ b.natAbs by omega)
    rw [if_neg ha, if_neg (show ¬ b < 0 by omega)]
    omega

end Double

end Deferral
