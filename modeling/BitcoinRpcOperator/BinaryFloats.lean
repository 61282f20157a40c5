import Mathlib.Algebra.Order.Floor.Ring
import Mathlib.Data.Int.Log
import Mathlib.Data.Rat.Floor
import Mathlib.Tactic.Linarith
import Mathlib.Tactic.Positivity
import Mathlib.Tactic.Ring

/-!
# Numbers of binary64

Floating point numbers as the rational numbers they stand for, without signed zeros and without
values that are no numbers. An operation gives the exact result rounded to the nearest number with 53
binary digits, of two that are equally near to the one with an even last digit.
-/

namespace BitcoinRpcOperator.BinaryFloats

/-- The nearest integer, and the even one between two. -/
def nearestEven (x : ℚ) : ℤ :=
  if x - ⌊x⌋ < 1 / 2 ∨ x - ⌊x⌋ = 1 / 2 ∧ ⌊x⌋ % 2 = 0 then ⌊x⌋ else ⌊x⌋ + 1

theorem abs_nearestEven_sub_le (x : ℚ) : |(nearestEven x : ℚ) - x| ≤ 1 / 2 := by
  have hlow := Int.floor_le x
  have hhigh := Int.lt_floor_add_one x
  rw [nearestEven, abs_le]
  split_ifs with h
  · have hhalf : x - ⌊x⌋ ≤ 1 / 2 := h.elim le_of_lt fun h => h.1.le
    constructor <;> linarith
  · have hhalf : 1 / 2 ≤ x - ⌊x⌋ := not_lt.1 fun hlt => h (.inl hlt)
    push_cast
    constructor <;> linarith

@[simp] theorem nearestEven_intCast (n : ℤ) : nearestEven n = n := by simp [nearestEven]

theorem abs_nearestEven_le {x : ℚ} {n : ℤ} (h : |x| < n) : |nearestEven x| ≤ n := by
  have hhalf := abs_nearestEven_sub_le x
  have hbound : |(nearestEven x : ℚ)| < n + 1 := by
    have htriangle := abs_sub_abs_le_abs_sub (nearestEven x : ℚ) x
    linarith
  have hcast : |nearestEven x| < n + 1 := by exact_mod_cast hbound
  omega

/-- The exponent of the last digit of a number as large as `x`. -/
def lastPlace (x : ℚ) : ℤ := max (Int.log 2 |x| - 52) (-1074)

/-- The nearest number of 53 binary digits. -/
def round64 (x : ℚ) : ℚ := nearestEven (x / 2 ^ lastPlace x) * 2 ^ lastPlace x

/-- A finite number of binary64. -/
def IsFloat64 (x : ℚ) : Prop := |x| < 2 ^ 1024 ∧ ∃ m e : ℤ, |m| < 2 ^ 53 ∧ -1074 ≤ e ∧ x = m * 2 ^ e

theorem zpow_pos' (e : ℤ) : (0 : ℚ) < 2 ^ e := zpow_pos (by norm_num) e

theorem lt_zpow_lastPlace (x : ℚ) : |x / 2 ^ lastPlace x| < (2 ^ 53 : ℤ) := by
  have hlog : |x| < 2 ^ (Int.log 2 |x| + 1) := by
    simpa using Int.lt_zpow_succ_log_self (b := 2) (by norm_num) |x|
  have hle : Int.log 2 |x| + 1 ≤ 53 + lastPlace x := by
    have := le_max_left (Int.log 2 |x| - 52) (-1074)
    rw [lastPlace]
    omega
  have hpow : (2 : ℚ) ^ (Int.log 2 |x| + 1) ≤ 2 ^ 53 * 2 ^ lastPlace x := by
    rw [← zpow_natCast (2 : ℚ) 53, ← zpow_add₀ (by norm_num)]
    exact zpow_le_zpow_right₀ (by norm_num) (by exact_mod_cast hle)
  rw [abs_div, abs_of_pos (zpow_pos' _), div_lt_iff₀ (zpow_pos' _)]
  push_cast
  exact hlog.trans_le hpow

theorem round64_digits (x : ℚ) : ∃ m e : ℤ, |m| < 2 ^ 53 ∧ -1074 ≤ e ∧ round64 x = m * 2 ^ e := by
  have hplace : -1074 ≤ lastPlace x := le_max_right _ _
  rcases (abs_nearestEven_le (lt_zpow_lastPlace x)).lt_or_eq with hlt | heq
  · exact ⟨_, _, hlt, hplace, rfl⟩
  · rcases eq_or_eq_neg_of_abs_eq heq with h | h
    · refine ⟨2 ^ 52, lastPlace x + 1, by norm_num, by omega, ?_⟩
      rw [round64, h, zpow_add₀ (by norm_num)]
      push_cast
      ring
    · refine ⟨-2 ^ 52, lastPlace x + 1, by norm_num, by omega, ?_⟩
      rw [round64, h, zpow_add₀ (by norm_num)]
      push_cast
      ring

/-- A number that has the digits is its own rounding. -/
theorem round64_of_isFloat64 {x : ℚ} (h : IsFloat64 x) : round64 x = x := by
  obtain ⟨-, m, e, hm, he, rfl⟩ := h
  rcases eq_or_ne m 0 with rfl | hne
  · simp [round64, nearestEven]
  have habs : |(m : ℚ) * 2 ^ e| = |(m : ℚ)| * 2 ^ e := by rw [abs_mul, abs_of_pos (zpow_pos' e)]
  have hpos : 0 < |(m : ℚ) * 2 ^ e| := abs_pos.2 (mul_ne_zero (Int.cast_ne_zero.2 hne) (zpow_pos' e).ne')
  have hlog : Int.log 2 |(m : ℚ) * 2 ^ e| < 53 + e := by
    rw [← Int.lt_zpow_iff_log_lt (by norm_num) hpos, habs]
    push_cast
    rw [zpow_add₀ (by norm_num)]
    have hm' : |(m : ℚ)| < 2 ^ (53 : ℤ) := by exact_mod_cast hm
    exact mul_lt_mul_of_pos_right hm' (zpow_pos' e)
  have hplace : lastPlace ((m : ℚ) * 2 ^ e) ≤ e := max_le (by omega) he
  obtain ⟨k, hk⟩ := Int.eq_ofNat_of_zero_le (sub_nonneg.2 hplace)
  have hdigits : (m : ℚ) * 2 ^ e / 2 ^ lastPlace ((m : ℚ) * 2 ^ e) = ((m * 2 ^ k : ℤ) : ℚ) := by
    rw [mul_div_assoc, ← zpow_sub₀ (by norm_num), hk]
    push_cast
    rw [zpow_natCast]
  rw [round64, hdigits, nearestEven_intCast, ← hdigits, div_mul_cancel₀ _ (zpow_pos' _).ne']

/-- Zero, or not so small that digits are lost. -/
def IsNormal (x : ℚ) : Prop := x = 0 ∨ 2 ^ (-1022 : ℤ) ≤ |x|

/-- `x` is `y` but for a relative error. -/
def Within (ε x y : ℚ) : Prop := |x - y| ≤ ε * |y|

theorem round64_within {x : ℚ} (h : IsNormal x) : Within (2 ^ (-53 : ℤ)) (round64 x) x := by
  rcases h with rfl | h
  · simp [Within, round64, nearestEven]
  have hpos : 0 < |x| := (zpow_pos' _).trans_le h
  have hlog : (-1022 : ℤ) ≤ Int.log 2 |x| := by
    rw [← Int.zpow_le_iff_le_log (by norm_num) hpos]
    exact_mod_cast h
  have hplace : lastPlace x = Int.log 2 |x| - 52 := max_eq_left (by omega)
  have hle : (2 : ℚ) ^ Int.log 2 |x| ≤ |x| := by simpa using Int.zpow_log_le_self (b := 2) (by norm_num) hpos
  have herror : round64 x - x = (nearestEven (x / 2 ^ lastPlace x) - x / 2 ^ lastPlace x) * 2 ^ lastPlace x := by
    rw [round64, sub_mul, div_mul_cancel₀ _ (zpow_pos' _).ne']
  rw [Within, herror, abs_mul, abs_of_pos (zpow_pos' (lastPlace x))]
  calc |(nearestEven (x / 2 ^ lastPlace x) : ℚ) - x / 2 ^ lastPlace x| * 2 ^ lastPlace x
      ≤ 1 / 2 * 2 ^ lastPlace x := mul_le_mul_of_nonneg_right (abs_nearestEven_sub_le _) (zpow_pos' _).le
    _ = 2 ^ (-53 : ℤ) * 2 ^ Int.log 2 |x| := by
        rw [hplace, zpow_sub₀ (by norm_num)]
        norm_num
        ring
    _ ≤ 2 ^ (-53 : ℤ) * |x| := mul_le_mul_of_nonneg_left hle (zpow_pos' _).le

theorem Within.trans {ε δ x y z : ℚ} (hε : 0 ≤ ε) (hxy : Within ε x y) (hyz : Within δ y z) :
    Within (ε + δ + ε * δ) x z := by
  have hy : |y| ≤ (1 + δ) * |z| := by
    have htriangle := abs_sub_abs_le_abs_sub y z
    rw [Within] at hyz
    linarith
  calc |x - z| ≤ |x - y| + |y - z| := abs_sub_le x y z
    _ ≤ ε * |y| + δ * |z| := add_le_add hxy hyz
    _ ≤ ε * ((1 + δ) * |z|) + δ * |z| := by gcongr
    _ = (ε + δ + ε * δ) * |z| := by ring

theorem Within.mul_right {ε x y : ℚ} (h : Within ε x y) (k : ℚ) : Within ε (x * k) (y * k) := by
  rw [Within, ← sub_mul, abs_mul, abs_mul, ← mul_assoc]
  exact mul_le_mul_of_nonneg_right h (abs_nonneg k)

theorem Within.mono {ε δ x y : ℚ} (h : Within ε x y) (hle : ε ≤ δ) : Within δ x y :=
  le_trans (show |x - y| ≤ ε * |y| from h) (mul_le_mul_of_nonneg_right hle (abs_nonneg y))

theorem Within.abs_le {ε x y : ℚ} (h : Within ε x y) : |x| ≤ (1 + ε) * |y| := by
  have htriangle := abs_sub_abs_le_abs_sub x y
  rw [Within] at h
  linarith

theorem Within.le_abs {ε x y : ℚ} (h : Within ε x y) : (1 - ε) * |y| ≤ |x| := by
  have htriangle := abs_sub_abs_le_abs_sub y x
  rw [Within, abs_sub_comm] at h
  linarith

/-- A number of binary64, or an overflow. -/
inductive Float64 where
  | finite (value : ℚ) (isFloat : IsFloat64 value)
  | infinite

namespace Float64

def ofRat (x : ℚ) : Float64 :=
  if h : |round64 x| < 2 ^ 1024 then .finite (round64 x) ⟨h, round64_digits x⟩ else .infinite

/-- An operation that leaves an infinite number infinite. -/
def map (f : ℚ → ℚ) : Float64 → Float64
  | finite x _ => ofRat (f x)
  | infinite => infinite

theorem ofRat_finite {x : ℚ} (hnormal : IsNormal x) (hbound : |x| < 2 ^ 1023) :
    ∃ h, ofRat x = .finite (round64 x) h := by
  have hle := (round64_within hnormal).abs_le
  have hsmall : (1 + 2 ^ (-53 : ℤ) : ℚ) ≤ 2 := by norm_num
  have hdouble : |round64 x| ≤ 2 * |x| := hle.trans (mul_le_mul_of_nonneg_right hsmall (abs_nonneg x))
  have hlt : |round64 x| < 2 ^ 1024 := by
    have hpow : (2 : ℚ) ^ 1024 = 2 * 2 ^ 1023 := by rw [← pow_succ']
    rw [hpow]
    exact hdouble.trans_lt (mul_lt_mul_of_pos_left hbound two_pos)
  exact ⟨⟨hlt, round64_digits x⟩, dif_pos hlt⟩

end Float64

end BitcoinRpcOperator.BinaryFloats
