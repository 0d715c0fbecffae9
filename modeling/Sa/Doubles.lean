import Mathlib.Data.Int.Log
import Mathlib.Data.Rat.Floor
import Mathlib.Tactic.Linarith
import Mathlib.Tactic.NormNum
import Mathlib.Tactic.Positivity
import Mathlib.Tactic.FieldSimp
import Sa.CStrings

/-!
# Doubles and their texts

The binary64 values that `strtod` can return on a run of number characters and
the `snprintf` formats `%lld` and `%g`, computed on exact rationals. No NaN
arises here, and the two zeros compare and print alike, so one zero is kept.
-/

namespace Sa.Doubles
open Sa.CStrings

/-- `q` is a finite binary64 value: a mantissa of at most 53 bits times a power
    of two in range. -/
def Representable (q : ℚ) : Prop :=
  ∃ m e : ℤ, |m| ≤ 2 ^ 53 ∧ -1074 ≤ e ∧ q = m * 2 ^ e ∧ |q| < 2 ^ 1024

inductive Double where
  | finite (q : {q : ℚ // Representable q})
  | inf (negative : Bool)
  deriving DecidableEq

/-- `x` rounded to the nearest integer, ties to even. -/
def roundHalfEven (x : ℚ) : ℤ :=
  let f := ⌊x⌋
  let r := x - f
  if r < 1 / 2 then f else if 1 / 2 < r then f + 1 else if f % 2 = 0 then f else f + 1

/-- The exponent of the last mantissa bit of the double nearest to `q`. -/
def ulpExponent (q : ℚ) : ℤ := max (Int.log 2 |q| - 52) (-1074)

theorem roundHalfEven_near (x : ℚ) : |(roundHalfEven x : ℚ) - x| ≤ 1 / 2 := by
  have low := Int.floor_le x
  have high := Int.lt_floor_add_one x
  unfold roundHalfEven
  simp only
  rw [abs_le]
  split_ifs <;> push_cast <;> constructor <;> linarith

@[simp] theorem roundHalfEven_intCast (z : ℤ) : roundHalfEven z = z := by
  simp [roundHalfEven]

theorem abs_roundHalfEven_le {x : ℚ} {n : ℤ} (bound : |x| ≤ n) : |roundHalfEven x| ≤ n := by
  have near := abs_le.mp (roundHalfEven_near x)
  have within := abs_le.mp bound
  have above : (roundHalfEven x : ℚ) < n + 1 := by linarith
  have below : (-n - 1 : ℚ) < roundHalfEven x := by linarith
  rw [abs_le]
  constructor
  · have : -n - 1 < roundHalfEven x := by exact_mod_cast below
    omega
  · have : roundHalfEven x < n + 1 := by exact_mod_cast above
    omega

private theorem two_zpow_pos (e : ℤ) : (0 : ℚ) < 2 ^ e := zpow_pos (by norm_num) e

/-- In units of its last place a number has at most 53 bits. -/
theorem abs_div_ulp_le (q : ℚ) : |q / 2 ^ ulpExponent q| ≤ (2 ^ 53 : ℤ) := by
  have upper := Int.lt_zpow_succ_log_self (b := 2) (by norm_num) |q|
  have units := two_zpow_pos (ulpExponent q)
  rw [abs_div, abs_of_pos units, div_le_iff₀ units]
  push_cast at upper ⊢
  calc |q| ≤ 2 ^ (Int.log 2 |q| + 1) := upper.le
    _ ≤ 2 ^ (53 + ulpExponent q) := by
        apply zpow_le_zpow_right₀ (by norm_num)
        unfold ulpExponent
        omega
    _ = 2 ^ 53 * 2 ^ ulpExponent q := by rw [zpow_add₀ (by norm_num)]; norm_cast

/-- The conversion of an exact value: to nearest, ties to even, overflow to infinity. -/
def roundDouble (q : ℚ) : Double :=
  let v := roundHalfEven (q / 2 ^ ulpExponent q) * (2 : ℚ) ^ ulpExponent q
  if small : |v| < 2 ^ 1024 then
    .finite ⟨v, _, _, abs_roundHalfEven_le (abs_div_ulp_le q), le_max_right _ _, rfl, small⟩
  else .inf (q < 0)

private theorem whole_units {q : ℚ} {m e u : ℤ} (value : q = m * 2 ^ e) (below : u ≤ e) :
    ∃ z : ℤ, q / 2 ^ u = z := by
  obtain ⟨k, rfl⟩ := Int.le.dest below
  refine ⟨m * 2 ^ k, ?_⟩
  rw [value, mul_div_assoc, ← zpow_sub₀ (by norm_num), add_sub_cancel_left, zpow_natCast]
  push_cast
  rfl

/-- A representable value is a whole number of units in its last place. -/
theorem representable_whole {q : ℚ} (rep : Representable q) : ∃ z : ℤ, q / 2 ^ ulpExponent q = z := by
  obtain ⟨m, e, bits, least, value, _⟩ := rep
  by_cases zero : q = 0
  · exact ⟨0, by simp [zero]⟩
  have positive : 0 < |q| := abs_pos.mpr zero
  have size : |q| = |m| * 2 ^ e := by
    rw [value, abs_mul, abs_of_pos (two_zpow_pos e)]; push_cast; rfl
  rcases lt_or_eq_of_le bits with below | full
  · have short : |q| < 2 ^ (53 + e) := by
      have bits' : (|m| : ℚ) < 2 ^ (53 : ℤ) := by exact_mod_cast below
      rw [size, zpow_add₀ (by norm_num)]
      exact mul_lt_mul_of_pos_right (by simpa using bits') (two_zpow_pos e)
    have logBound : Int.log 2 |q| < 53 + e := (Int.lt_zpow_iff_log_lt (by norm_num) positive).mp (by exact_mod_cast short)
    exact whole_units value (by unfold ulpExponent; omega)
  · -- The mantissa `2 ^ 53` is the one that needs the next exponent.
    have power : |q| = 2 ^ (53 + e) := by
      rw [size, full, zpow_add₀ (by norm_num)]; norm_cast
    have logIs : Int.log 2 |q| = 53 + e := by
      rw [power]; exact_mod_cast Int.log_zpow (R := ℚ) (b := 2) (by norm_num) (53 + e)
    have half : ∃ h : ℤ, m = h * 2 := by
      rcases (abs_eq (by norm_num)).mp full with plus | minus
      · exact ⟨2 ^ 52, by rw [plus]; norm_num⟩
      · exact ⟨-2 ^ 52, by rw [minus]; norm_num⟩
    obtain ⟨h, doubled⟩ := half
    have value' : q = h * 2 ^ (e + 1) := by
      rw [value, doubled, zpow_add₀ (by norm_num)]; push_cast; ring
    exact whole_units value' (by unfold ulpExponent; omega)

/-- A representable value is its own rounding. -/
theorem roundDouble_representable {q : ℚ} (rep : Representable q) : roundDouble q = .finite ⟨q, rep⟩ := by
  obtain ⟨z, units⟩ := representable_whole rep
  have fixed : roundHalfEven (q / 2 ^ ulpExponent q) * (2 : ℚ) ^ ulpExponent q = q := by
    rw [units, roundHalfEven_intCast, ← units]
    exact div_mul_cancel₀ q (two_zpow_pos _).ne'
  have small : |q| < 2 ^ 1024 := rep.choose_spec.choose_spec.2.2.2
  unfold roundDouble
  simp only [fixed, small, dite_true]

theorem representable_int {z : ℤ} (bits : |z| ≤ 2 ^ 53) : Representable z := by
  refine ⟨z, 0, bits, by norm_num, by simp, ?_⟩
  have : (|z| : ℚ) ≤ 2 ^ 53 := by exact_mod_cast bits
  calc |(z : ℚ)| ≤ 2 ^ 53 := this
    _ < 2 ^ 1024 := pow_lt_pow_right₀ (by norm_num) (by norm_num)

/-- The double of an integer that fits 53 bits. -/
def ofInt (z : ℤ) (bits : |z| ≤ 2 ^ 53) : Double := .finite ⟨z, representable_int bits⟩

end Sa.Doubles
