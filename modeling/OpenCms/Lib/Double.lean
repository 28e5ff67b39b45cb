import Mathlib.Algebra.Order.Floor.Ring
import Mathlib.Data.Int.Log
import Mathlib.Data.Rat.Floor
import Mathlib.Tactic.Linarith
import Mathlib.Tactic.Positivity

/-!
# Doubles

The result of an operation on doubles is the exact result, rounded to one: to a whole number of
less than 53 bits times a power of two, the nearest one, and the even one of two. The exponents
have no end upwards here, so that nothing overflows.

Rounding keeps the order (`OpenCms.roundDouble_mono`) and leaves a double as it is
(`OpenCms.roundDouble_roundDouble`).
-/

namespace OpenCms

/-- The nearest whole number, the even one of two. -/
def roundEven (x : ℚ) : ℤ :=
  if 2 * Int.fract x < 1 then ⌊x⌋
  else if 1 < 2 * Int.fract x then ⌊x⌋ + 1
  else if ⌊x⌋ % 2 = 0 then ⌊x⌋
  else ⌊x⌋ + 1

def placeExponent (x : ℚ) : ℤ := max (Int.log 2 |x| - 52) (-1074)

def roundDouble (x : ℚ) : ℚ := roundEven (x / 2 ^ placeExponent x) * 2 ^ placeExponent x

variable {x y : ℚ} {n m e k : ℤ}

/-! ### Whole numbers -/

theorem floor_le_roundEven (x : ℚ) : ⌊x⌋ ≤ roundEven x := by
  unfold roundEven
  split_ifs <;> omega

theorem roundEven_le_floor (x : ℚ) : roundEven x ≤ ⌊x⌋ + 1 := by
  unfold roundEven
  split_ifs <;> omega

theorem roundEven_mono (h : x ≤ y) : roundEven x ≤ roundEven y := by
  rcases (Int.floor_le_floor h).eq_or_lt with heq | hlt
  · have hfract : Int.fract x ≤ Int.fract y := by
      rw [Int.fract, Int.fract, heq]
      linarith
    unfold roundEven
    rw [heq]
    split_ifs <;> first | omega | linarith
  · exact (roundEven_le_floor x).trans ((Int.add_one_le_of_lt hlt).trans (floor_le_roundEven y))

@[simp] theorem roundEven_intCast (n : ℤ) : roundEven n = n := by
  simp [roundEven]

theorem log_lt_iff (hx : x ≠ 0) : Int.log 2 |x| < k ↔ |x| < 2 ^ k :=
  (Int.lt_zpow_iff_log_lt one_lt_two (abs_pos.mpr hx)).symm.trans (by norm_cast)

theorem zpow_log_le (hx : x ≠ 0) : 2 ^ Int.log 2 |x| ≤ |x| := by
  exact_mod_cast Int.zpow_log_le_self one_lt_two (abs_pos.mpr hx)

/-! ### Multiples of a place -/

theorem two_zpow_pos (e : ℤ) : (0 : ℚ) < 2 ^ e := zpow_pos (by norm_num) e

theorem zpow_eq_mul (h : e ≤ k) : (2 : ℚ) ^ k = (2 ^ (k - e).toNat : ℤ) * 2 ^ e := by
  have hpow : (2 : ℚ) ^ (k - e).toNat = 2 ^ (k - e) := by
    rw [← zpow_natCast, Int.toNat_of_nonneg (by omega)]
  rw [Int.cast_pow, Int.cast_ofNat, hpow, ← zpow_add₀ (by norm_num), sub_add_cancel]

theorem le_roundDouble (h : n * 2 ^ placeExponent x ≤ x) :
    n * 2 ^ placeExponent x ≤ roundDouble x := by
  refine mul_le_mul_of_nonneg_right ?_ (two_zpow_pos _).le
  rw [Int.cast_le, ← roundEven_intCast n]
  exact roundEven_mono ((le_div_iff₀ (two_zpow_pos _)).mpr h)

theorem roundDouble_le (h : x ≤ n * 2 ^ placeExponent x) :
    roundDouble x ≤ n * 2 ^ placeExponent x := by
  refine mul_le_mul_of_nonneg_right ?_ (two_zpow_pos _).le
  rw [Int.cast_le, ← roundEven_intCast n]
  exact roundEven_mono ((div_le_iff₀ (two_zpow_pos _)).mpr h)

/-- A number of the last place of a number is left as it is. -/
theorem roundDouble_of_eq (h : x = n * 2 ^ placeExponent x) : roundDouble x = x :=
  le_antisymm ((roundDouble_le h.le).trans h.ge) (h.le.trans (le_roundDouble h.ge))

/-! ### Order -/

@[simp] theorem roundDouble_zero : roundDouble 0 = 0 := by
  rw [roundDouble, zero_div, ← Int.cast_zero, roundEven_intCast, Int.cast_zero, zero_mul]

/-- If the place of a number is behind that of another one, a power of two is between them. -/
theorem zpow_of_placeExponent_lt (hx : x ≠ 0) (hy : y ≠ 0)
    (h : placeExponent x < placeExponent y) :
    |x| < 2 ^ Int.log 2 |y| ∧ 2 ^ Int.log 2 |y| ≤ |y| ∧
      placeExponent x ≤ Int.log 2 |y| ∧ placeExponent y ≤ Int.log 2 |y| := by
  unfold placeExponent at *
  exact ⟨(log_lt_iff hx).mp (by omega), zpow_log_le hy, by omega, by omega⟩

theorem roundDouble_mono (h : x ≤ y) : roundDouble x ≤ roundDouble y := by
  rcases eq_or_ne x 0 with rfl | hx0
  · have hle := @le_roundDouble y 0
    rw [Int.cast_zero, zero_mul] at hle
    rw [roundDouble_zero]
    exact hle h
  rcases eq_or_ne y 0 with rfl | hy0
  · have hle := @roundDouble_le x 0
    rw [Int.cast_zero, zero_mul] at hle
    rw [roundDouble_zero]
    exact hle h
  rcases lt_trichotomy (placeExponent x) (placeExponent y) with hlt | heq | hlt
  · obtain ⟨hx, hy, hplace, hplace'⟩ := zpow_of_placeExponent_lt hx0 hy0 hlt
    have hpos : 2 ^ Int.log 2 |y| ≤ y := by
      rcases le_abs.mp hy with hy | hy
      · exact hy
      · linarith [neg_abs_le x]
    rw [zpow_eq_mul hplace] at hx
    have hle := roundDouble_le ((le_abs_self x).trans hx.le)
    rw [← zpow_eq_mul hplace, zpow_eq_mul hplace'] at hle
    rw [zpow_eq_mul hplace'] at hpos
    exact hle.trans (le_roundDouble hpos)
  · unfold roundDouble
    rw [heq]
    refine mul_le_mul_of_nonneg_right (Int.cast_le.mpr (roundEven_mono ?_)) (two_zpow_pos _).le
    exact div_le_div_of_nonneg_right h (two_zpow_pos _).le
  · obtain ⟨hy, hx, hplace, hplace'⟩ := zpow_of_placeExponent_lt hy0 hx0 hlt
    have hneg : x ≤ -2 ^ Int.log 2 |x| := by
      rcases le_abs.mp hx with hx | hx
      · linarith [le_abs_self y]
      · linarith
    have hge : -2 ^ Int.log 2 |x| ≤ y := by linarith [neg_abs_le y]
    rw [zpow_eq_mul hplace, ← neg_mul, ← Int.cast_neg] at hge
    rw [zpow_eq_mul hplace', ← neg_mul, ← Int.cast_neg] at hneg
    have hle := le_roundDouble hge
    rw [Int.cast_neg, neg_mul, ← zpow_eq_mul hplace, zpow_eq_mul hplace', ← neg_mul,
      ← Int.cast_neg] at hle
    exact (roundDouble_le hneg).trans hle

/-! ### Doubles -/

theorem roundDouble_double (hm : |m| < 2 ^ 53) (he : -1074 ≤ e) :
    roundDouble (m * 2 ^ e) = m * 2 ^ e := by
  rcases eq_or_ne m 0 with rfl | hzero
  · simp
  have hlt : |(m * 2 ^ e : ℚ)| < 2 ^ (e + 53) := by
    rw [abs_mul, abs_of_pos (two_zpow_pos e), add_comm, zpow_add₀ (by norm_num)]
    refine mul_lt_mul_of_pos_right ?_ (two_zpow_pos e)
    exact_mod_cast hm
  have hne : (m * 2 ^ e : ℚ) ≠ 0 := mul_ne_zero (Int.cast_ne_zero.mpr hzero) (two_zpow_pos e).ne'
  have hlog := (log_lt_iff hne).mpr hlt
  have hplace : placeExponent (m * 2 ^ e) ≤ e := by
    unfold placeExponent
    omega
  have hmul : (m * 2 ^ e : ℚ) =
      (m * 2 ^ (e - placeExponent (m * 2 ^ e)).toNat : ℤ) * 2 ^ placeExponent (m * 2 ^ e) := by
    rw [Int.cast_mul, mul_assoc, ← zpow_eq_mul hplace]
  exact roundDouble_of_eq hmul

theorem abs_roundEven_le (x : ℚ) : |roundEven (x / 2 ^ placeExponent x)| ≤ 2 ^ 53 := by
  have hlt : |x| < 2 ^ (placeExponent x + 53) := by
    have hsucc : |x| < 2 ^ (Int.log 2 |x| + 1) := by
      exact_mod_cast Int.lt_zpow_succ_log_self one_lt_two |x|
    refine hsucc.trans_le (zpow_le_zpow_right₀ (by norm_num) ?_)
    unfold placeExponent
    omega
  rw [zpow_add₀ (by norm_num), mul_comm] at hlt
  obtain ⟨hneg, hpos⟩ := abs_lt.mp hlt
  have hge := roundEven_mono (x := ((-2 ^ 53 : ℤ) : ℚ)) (y := x / 2 ^ placeExponent x) (by
    rw [le_div_iff₀ (two_zpow_pos _)]
    push_cast
    linarith)
  have hle := roundEven_mono (x := x / 2 ^ placeExponent x) (y := ((2 ^ 53 : ℤ) : ℚ)) (by
    rw [div_le_iff₀ (two_zpow_pos _)]
    push_cast
    linarith)
  rw [roundEven_intCast] at hge hle
  exact abs_le.mpr ⟨by omega, hle⟩

theorem roundDouble_eq_double (x : ℚ) :
    ∃ m e : ℤ, |m| < 2 ^ 53 ∧ -1074 ≤ e ∧ roundDouble x = m * 2 ^ e := by
  have hplace : -1074 ≤ placeExponent x := le_max_right _ _
  rcases (abs_roundEven_le x).lt_or_eq with hlt | heq
  · exact ⟨_, _, hlt, hplace, rfl⟩
  · have hdouble : (2 : ℚ) ^ (placeExponent x + 1) = 2 ^ placeExponent x * 2 :=
      zpow_add_one₀ (by norm_num) _
    rcases abs_eq (by norm_num) |>.mp heq with heq | heq
    · refine ⟨2 ^ 52, placeExponent x + 1, by norm_num, by omega, ?_⟩
      rw [roundDouble, heq, hdouble]
      push_cast
      ring
    · refine ⟨-2 ^ 52, placeExponent x + 1, by norm_num, by omega, ?_⟩
      rw [roundDouble, heq, hdouble]
      push_cast
      ring

@[simp] theorem roundDouble_roundDouble (x : ℚ) : roundDouble (roundDouble x) = roundDouble x := by
  obtain ⟨m, e, hm, he, heq⟩ := roundDouble_eq_double x
  rw [heq, roundDouble_double hm he]

/-- Whole numbers of less than 53 bits are doubles. -/
theorem roundDouble_intCast (h : |n| < 2 ^ 53) : roundDouble n = n := by
  have hdouble := roundDouble_double h (show (-1074 : ℤ) ≤ 0 by norm_num)
  rwa [zpow_zero, mul_one] at hdouble

theorem roundDouble_le_natCast {n : ℕ} (hn : n < 2 ^ 53) (h : x ≤ n) : roundDouble x ≤ n := by
  have hround := @roundDouble_intCast n (by rw [Nat.abs_cast]; exact_mod_cast hn)
  rw [Int.cast_natCast] at hround
  exact (roundDouble_mono h).trans hround.le

theorem natCast_le_roundDouble {n : ℕ} (hn : n < 2 ^ 53) (h : n ≤ x) : n ≤ roundDouble x := by
  have hround := @roundDouble_intCast n (by rw [Nat.abs_cast]; exact_mod_cast hn)
  rw [Int.cast_natCast] at hround
  exact hround.ge.trans (roundDouble_mono h)

end OpenCms
