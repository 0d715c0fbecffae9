import Sa.PrinterGrammar

/-!
# Numbers that are stored and sent back

A number of a tool's input is parsed into a double and printed again with every
later request. Integers are printed as they are, other numbers with six digits.
-/

namespace Sa.NumbersKept
open Sa.CStrings Sa.Doubles Sa.NumberTexts Sa.Tinyjson Sa.JsonGrammar Sa.DecimalTexts Sa.Parser Sa.Printer

/-- The number has at most `n` significant digits. -/
def Significant (n : ℕ) (q : ℚ) : Prop := ∃ m e : ℤ, |m| < 10 ^ n ∧ q = m * 10 ^ e

/-- Zero, or between `10 ^ -15` and `10 ^ 15`. -/
def Moderate (q : ℚ) : Prop := q = 0 ∨ 10 ^ (-15 : ℤ) ≤ |q| ∧ |q| ≤ 10 ^ (15 : ℤ)

/-- The text is parsed as a number, and what is printed of the node denotes the same one. -/
def Kept (n : Bytes) : Prop :=
  ∃ d, cj_parse_number n = some (.number d, []) ∧ decimalValue (cj_print_value (.number d)) = decimalValue n

/-- `%g` with exact values for doubles. -/
def exact_g (q : ℚ) : Bytes :=
  if q = 0 then [48]
  else
    let (k, x) := sixDigits |q|
    if q < 0 then 45 :: digitsText k x else digitsText k x

/-- Printing with exact values for doubles. -/
def print_exact (q : ℚ) : Bytes := if q = ((q.num.tdiv q.den : ℤ) : ℚ) then fmt_lld (q.num.tdiv q.den) else exact_g q

/-- The same with an exact value in the node. -/
def KeptExactly (n : Bytes) : Prop := decimalValue (print_exact (decimalValue n)) = decimalValue n

theorem fmt_g_finite (q : {q : ℚ // Representable q}) : fmt_g (.finite q) = exact_g q.val := rfl

/-- A double is within half a unit of its last place. -/
theorem roundDouble_near {q : ℚ} (low : 10 ^ (-15 : ℤ) ≤ |q|) (high : |q| ≤ 10 ^ (15 : ℤ)) :
    ∃ d, roundDouble q = .finite d ∧ |d.val - q| ≤ |q| / 2 ^ 53 := by
  have positive : 0 < |q| := lt_of_lt_of_le (by positivity) low
  have bound : |q| ≤ largest := high.trans (le_trans (by norm_num) llong_le_largest)
  obtain ⟨d, rounded⟩ := roundDouble_finite bound
  refine ⟨d, rounded, ?_⟩
  have value : d.val = roundHalfEven (q / 2 ^ ulpExponent q) * (2 : ℚ) ^ ulpExponent q := by
    unfold roundDouble at rounded
    simp only at rounded
    split at rounded
    · cases rounded
      rfl
    · cases rounded
  have below := Int.zpow_log_le_self (b := 2) (by norm_num) positive
  have log : -50 ≤ Int.log 2 |q| := by
    apply (Int.zpow_le_iff_le_log (b := 2) (by norm_num) positive).mp
    exact le_trans (by norm_num) low
  have units : ulpExponent q = Int.log 2 |q| - 52 := by
    unfold ulpExponent
    omega
  have unit : (0 : ℚ) < 2 ^ ulpExponent q := zpow_pos (by norm_num) _
  have near := roundHalfEven_near (q / 2 ^ ulpExponent q)
  have apart : d.val - q = (roundHalfEven (q / 2 ^ ulpExponent q) - q / 2 ^ ulpExponent q) * 2 ^ ulpExponent q := by
    rw [value, sub_mul, div_mul_cancel₀ _ unit.ne']
  rw [apart, abs_mul, abs_of_pos unit]
  push_cast at below
  calc |(roundHalfEven (q / 2 ^ ulpExponent q) : ℚ) - q / 2 ^ ulpExponent q| * 2 ^ ulpExponent q
      ≤ 1 / 2 * 2 ^ ulpExponent q := mul_le_mul_of_nonneg_right near unit.le
    _ = 2 ^ Int.log 2 |q| / 2 ^ 53 := by
        rw [units, zpow_sub₀ (by norm_num)]
        norm_num
        ring
    _ ≤ |q| / 2 ^ 53 := by
        apply div_le_div_of_nonneg_right below
        positivity

/-- An integer that is near enough is what is rounded to. -/
theorem roundHalfEven_unique {x : ℚ} {n : ℤ} (near : |x - n| < 1 / 2) : roundHalfEven x = n := by
  have rounded := abs_le.mp (roundHalfEven_near x)
  have within := abs_lt.mp near
  have above : (roundHalfEven x : ℚ) < n + 1 := by linarith
  have below : (n - 1 : ℚ) < roundHalfEven x := by linarith
  have above' : roundHalfEven x < n + 1 := by exact_mod_cast above
  have below' : n - 1 < roundHalfEven x := by exact_mod_cast below
  omega

/-- A number of at most six digits in the form of `sixDigits`. -/
theorem six_normal {q : ℚ} (few : Significant 6 q) (nonzero : q ≠ 0) :
    ∃ (k : ℕ) (x : ℤ), 10 ^ 5 ≤ k ∧ k < 10 ^ 6 ∧ |q| = k * 10 ^ (x - 5) := by
  obtain ⟨m, e, digits, rfl⟩ := few
  have unit : (0 : ℚ) < 10 ^ e := zpow_pos (by norm_num) e
  have some : m ≠ 0 := by
    rintro rfl
    simp at nonzero
  have size : |(m : ℚ) * 10 ^ e| = (m.natAbs : ℚ) * 10 ^ e := by
    rw [abs_mul, abs_of_pos unit, ← Int.cast_abs, Int.abs_eq_natAbs]
    rfl
  have positive : 0 < |(m : ℚ) * 10 ^ e| := abs_pos.mpr nonzero
  have low := Int.zpow_log_le_self (b := 10) (by norm_num) positive
  have high := Int.lt_zpow_succ_log_self (b := 10) (by norm_num) |(m : ℚ) * 10 ^ e|
  push_cast at low high
  have fits : Int.log 10 |(m : ℚ) * 10 ^ e| - 5 ≤ e := by
    have bound : |(m : ℚ) * 10 ^ e| < ((10 : ℕ) : ℚ) ^ (6 + e) := by
      have small : (m.natAbs : ℚ) < 10 ^ 6 := by
        rw [Int.abs_eq_natAbs] at digits
        exact_mod_cast digits
      rw [size]
      push_cast
      rw [zpow_add₀ (by norm_num)]
      exact mul_lt_mul_of_pos_right (by exact_mod_cast small) unit
    have log := (Int.lt_zpow_iff_log_lt (b := 10) (by norm_num) positive).mp bound
    omega
  generalize Int.log 10 |(m : ℚ) * 10 ^ e| = x at low high fits
  obtain ⟨j, rfl⟩ : ∃ j : ℕ, e = x - 5 + j := ⟨(e - (x - 5)).toNat, by omega⟩
  have whole : |(m : ℚ) * 10 ^ (x - 5 + j)| = ((m.natAbs * 10 ^ j : ℕ) : ℚ) * 10 ^ (x - 5) := by
    rw [size, zpow_add₀ (by norm_num), zpow_natCast]
    push_cast
    ring
  have step : (0 : ℚ) < 10 ^ (x - 5) := zpow_pos (by norm_num) _
  rw [whole] at low high
  refine ⟨m.natAbs * 10 ^ j, x, ?_, ?_, whole⟩
  · have scaled : ((10 ^ 5 : ℕ) : ℚ) * 10 ^ (x - 5) ≤ ((m.natAbs * 10 ^ j : ℕ) : ℚ) * 10 ^ (x - 5) := by
      calc ((10 ^ 5 : ℕ) : ℚ) * 10 ^ (x - 5) = 10 ^ x := by
            rw [show x = 5 + (x - 5) by ring, zpow_add₀ (by norm_num)]; norm_num
        _ ≤ _ := low
    exact_mod_cast le_of_mul_le_mul_right scaled step
  · have scaled : ((m.natAbs * 10 ^ j : ℕ) : ℚ) * 10 ^ (x - 5) < ((10 ^ 6 : ℕ) : ℚ) * 10 ^ (x - 5) := by
      calc ((m.natAbs * 10 ^ j : ℕ) : ℚ) * 10 ^ (x - 5) < 10 ^ (x + 1) := high
        _ = _ := by rw [show x + 1 = 6 + (x - 5) by ring, zpow_add₀ (by norm_num)]; norm_num
    exact_mod_cast lt_of_mul_lt_mul_right scaled step.le

/-- Near a number of six digits, six digits give that number. -/
theorem sixDigits_near {a b : ℚ} {k : ℕ} {x : ℤ} (low : 10 ^ 5 ≤ k) (high : k < 10 ^ 6) (value : a = k * 10 ^ (x - 5))
    (near : |b - a| ≤ a / 2 ^ 53) : ((sixDigits b).1 : ℚ) * 10 ^ ((sixDigits b).2 - 5) = a := by
  have unit : (0 : ℚ) < 10 ^ (x - 5) := zpow_pos (by norm_num) _
  have low' : (10 ^ 5 : ℚ) ≤ k := by exact_mod_cast low
  have high' : (k : ℚ) ≤ 10 ^ 6 - 1 := by
    have : (k : ℚ) + 1 ≤ 10 ^ 6 := by exact_mod_cast high
    linarith
  obtain ⟨r, scaled⟩ : ∃ r : ℚ, b = r * 10 ^ (x - 5) := ⟨b / 10 ^ (x - 5), (div_mul_cancel₀ b unit.ne').symm⟩
  have close : |r - k| ≤ k / 2 ^ 53 := by
    have apart : b - a = (r - k) * 10 ^ (x - 5) := by rw [scaled, value, sub_mul]
    rw [apart, abs_mul, abs_of_pos unit, value, mul_div_right_comm] at near
    exact le_of_mul_le_mul_right near unit
  have within := abs_le.mp close
  have tiny : (k : ℚ) / 2 ^ 53 < 1 / 20 := by
    rw [div_lt_iff₀ (by positivity)]
    linarith
  have positive : 0 < b := by
    rw [scaled]
    exact mul_pos (by linarith) unit
  have split : ∀ i : ℤ, (10 : ℚ) ^ (x + i) = 10 ^ (i + 5) * 10 ^ (x - 5) := by
    intro i
    rw [← zpow_add₀ (by norm_num)]
    congr 1
    ring
  have below : b < 10 ^ (x + 1) := by
    rw [scaled, split 1]
    exact mul_lt_mul_of_pos_right (by norm_num; linarith) unit
  by_cases inside : (10 : ℚ) ^ x ≤ b
  · have log : Int.log 10 b = x := by
      apply le_antisymm
      · have bound := (Int.lt_zpow_iff_log_lt (b := 10) (x := x + 1) (by norm_num) positive).mp (by exact_mod_cast below)
        omega
      · exact (Int.zpow_le_iff_le_log (b := 10) (by norm_num) positive).mp (by exact_mod_cast inside)
    have rounded : roundHalfEven (b / 10 ^ (x - 5)) = (k : ℤ) := by
      apply roundHalfEven_unique
      rw [scaled, mul_div_cancel_right₀ _ unit.ne']
      push_cast
      linarith
    unfold sixDigits
    simp only [log, rounded, Int.toNat_natCast]
    rw [if_neg (by omega), value]
  · -- Only below a power of ten does the rounding leave the decade.
    rw [not_le] at inside
    have small : r < 10 ^ 5 := by
      have bound := inside
      have power := split 0
      rw [add_zero] at power
      rw [scaled, power] at bound
      have less := lt_of_mul_lt_mul_right bound unit.le
      norm_num at less
      linarith
    have least : k = 10 ^ 5 := by
      have upper : (k : ℚ) < 10 ^ 5 + 1 := by linarith
      have upper' : k < 10 ^ 5 + 1 := by exact_mod_cast upper
      omega
    have log : Int.log 10 b = x - 1 := by
      apply le_antisymm
      · have bound := (Int.lt_zpow_iff_log_lt (b := 10) (x := x) (by norm_num) positive).mp (by exact_mod_cast inside)
        omega
      · apply (Int.zpow_le_iff_le_log (b := 10) (by norm_num) positive).mp
        have power := split (-1)
        push_cast
        rw [scaled, sub_eq_add_neg, power]
        exact mul_le_mul_of_nonneg_right (by norm_num; linarith) unit.le
    have tenth : (10 : ℚ) ^ (x - 1 - 5) * 10 = 10 ^ (x - 5) := by
      rw [← zpow_add_one₀ (by norm_num)]
      congr 1
      ring
    have rounded : roundHalfEven (b / 10 ^ (x - 1 - 5)) = (10 ^ 6 : ℤ) := by
      apply roundHalfEven_unique
      have unit' : (0 : ℚ) < 10 ^ (x - 1 - 5) := zpow_pos (by norm_num) _
      have value' : b / 10 ^ (x - 1 - 5) = 10 * r := by
        rw [scaled, ← tenth]
        field_simp
      rw [value', abs_lt]
      rw [least] at within tiny
      push_cast at within tiny ⊢
      constructor <;> linarith
    have carry : (10 ^ 6 : ℤ).toNat = 10 ^ 6 := rfl
    have next : x - 1 + 1 = x := by ring
    unfold sixDigits
    simp only [log, rounded, carry, if_true, next]
    rw [value, least]

/-- The value of what `%g` writes. -/
theorem exact_g_value {q : ℚ} (nonzero : q ≠ 0) (least : (2 : ℚ) ^ (-1074 : ℤ) ≤ |q|) (most : |q| < 2 ^ 1024) :
    decimalValue (exact_g q) =
      if q < 0 then -(((sixDigits |q|).1 : ℚ) * 10 ^ ((sixDigits |q|).2 - 5))
      else (sixDigits |q|).1 * 10 ^ ((sixDigits |q|).2 - 5) := by
  obtain ⟨low, high, -⟩ := sixDigits_spec least most
  obtain ⟨ip, fp, ep, text, int, frac, exp, value⟩ := digitsText_spec low high (sixDigits |q|).2
  have whole : exact_g q = (if decide (q < 0) then [45] else []) ++ ip ++ fp ++ ep := by
    unfold exact_g
    simp only [nonzero, if_false]
    by_cases negative : q < 0 <;> simp [negative, text]
  rw [whole, decimalValue_number _ int frac exp, ← value]
  by_cases negative : q < 0 <;> simp [numberValue, negative]

/-- What `%g` writes has at most six digits. -/
theorem exact_g_significant {q : ℚ} (nonzero : q ≠ 0) (least : (2 : ℚ) ^ (-1074 : ℤ) ≤ |q|) (most : |q| < 2 ^ 1024) :
    Significant 6 (decimalValue (exact_g q)) := by
  obtain ⟨-, high, -⟩ := sixDigits_spec least most
  rw [exact_g_value nonzero least most]
  split_ifs
  · refine ⟨-((sixDigits |q|).1 : ℤ), _, ?_, by push_cast; rw [neg_mul]⟩
    rw [abs_neg, Nat.abs_cast]
    exact_mod_cast high
  · refine ⟨((sixDigits |q|).1 : ℤ), _, ?_, by push_cast; rfl⟩
    rw [Nat.abs_cast]
    exact_mod_cast high

/-- Near a number that is not zero `%g` writes that number just when it has at most six digits. -/
theorem exact_g_near {q b : ℚ} (low : 10 ^ (-15 : ℤ) ≤ |q|) (high : |q| ≤ 10 ^ (15 : ℤ)) (near : |b - q| ≤ |q| / 2 ^ 53) :
    decimalValue (exact_g b) = q ↔ Significant 6 q := by
  have positive : 0 < |q| := lt_of_lt_of_le (by positivity) low
  have nonzero : q ≠ 0 := abs_pos.mp positive
  have half : |q| / 2 ^ 53 ≤ |q| / 2 := by
    apply div_le_div_of_nonneg_left positive.le (by norm_num)
    norm_num
  have sizes := abs_le.mp ((abs_abs_sub_abs_le_abs_sub b q).trans near)
  have nonzero' : b ≠ 0 := by
    rintro rfl
    rw [abs_zero] at sizes
    linarith [sizes.1]
  have least : (2 : ℚ) ^ (-1074 : ℤ) ≤ |b| := by
    have tiny : (2 : ℚ) ^ (-1074 : ℤ) ≤ 10 ^ (-15 : ℤ) / 2 := by decide +kernel
    have lower : |q| / 2 ≤ |b| := by linarith only [half, sizes.1]
    exact tiny.trans ((div_le_div_of_nonneg_right low (by norm_num)).trans lower)
  have most : |b| < 2 ^ 1024 := by
    have large : (2 : ℚ) * 10 ^ (15 : ℤ) < 2 ^ 1024 := by decide +kernel
    have upper : |b| ≤ 2 * |q| := by linarith only [half, sizes.2, positive]
    exact lt_of_le_of_lt (upper.trans (mul_le_mul_of_nonneg_left high (by norm_num))) large
  constructor
  · intro same
    rw [← same]
    exact exact_g_significant nonzero' least most
  · intro few
    obtain ⟨k, x, least', most', value⟩ := six_normal few nonzero
    have kept := sixDigits_near least' most' value ((abs_abs_sub_abs_le_abs_sub b q).trans near)
    have within := abs_le.mp near
    rw [exact_g_value nonzero' least most, kept]
    rcases lt_or_gt_of_ne nonzero with negative | positive'
    · rw [abs_of_neg negative] at within half ⊢
      rw [if_pos (by linarith [within.2]), neg_neg]
    · rw [abs_of_pos positive'] at within half ⊢
      rw [if_neg (by linarith [within.1])]

/-- The only integer near a number with few digits is that number. -/
theorem whole_near {q : ℚ} (few : Significant 15 q) (high : |q| ≤ 10 ^ (15 : ℤ)) {z : ℤ} (near : |(z : ℚ) - q| ≤ |q| / 2 ^ 53) :
    q = z := by
  obtain ⟨m, e, digits, rfl⟩ := few
  rcases le_or_gt 0 e with whole | fraction
  · obtain ⟨j, rfl⟩ := Int.eq_ofNat_of_zero_le whole
    have integer : (m : ℚ) * 10 ^ (j : ℤ) = ((m * 10 ^ j : ℤ) : ℚ) := by
      push_cast
      rw [zpow_natCast]
    rw [integer] at near high ⊢
    have close : |((z - m * 10 ^ j : ℤ) : ℚ)| < 1 := by
      push_cast at near high ⊢
      refine lt_of_le_of_lt near ?_
      rw [div_lt_iff₀ (by positivity)]
      exact lt_of_le_of_lt high (by norm_num)
    have equal : z - m * 10 ^ j = 0 := Int.abs_lt_one_iff.mp (by exact_mod_cast close)
    congr 1
    omega
  · obtain ⟨j, rfl⟩ : ∃ j : ℕ, e = -j := ⟨(-e).toNat, by omega⟩
    have power : (0 : ℚ) < 10 ^ j := by positivity
    have value : (m : ℚ) * 10 ^ (-(j : ℤ)) = m / 10 ^ j := by rw [zpow_neg, zpow_natCast, div_eq_mul_inv]
    rw [value] at near ⊢
    -- In units of the last digit both are integers less than one apart.
    have close : |((z * 10 ^ j - m : ℤ) : ℚ)| < 1 := by
      have scaled : ((z * 10 ^ j - m : ℤ) : ℚ) = (z - m / 10 ^ j) * 10 ^ j := by
        push_cast
        field_simp
      have size : |(m : ℚ)| < 10 ^ 15 := by exact_mod_cast digits
      rw [scaled, abs_mul, abs_of_pos power]
      calc |(z : ℚ) - m / 10 ^ j| * 10 ^ j ≤ |(m : ℚ) / 10 ^ j| / 2 ^ 53 * 10 ^ j :=
            mul_le_mul_of_nonneg_right near power.le
        _ = |(m : ℚ)| / 2 ^ 53 := by
            rw [abs_div, abs_of_pos power]
            field_simp
        _ < 1 := by
            rw [div_lt_iff₀ (by positivity)]
            exact lt_trans size (by norm_num)
    have equal : z * 10 ^ j - m = 0 := Int.abs_lt_one_iff.mp (by exact_mod_cast close)
    have same : m = z * 10 ^ j := by omega
    rw [same]
    push_cast
    field_simp

/-- The integer part is no larger. -/
theorem natAbs_tdiv_le (q : ℚ) : ((q.num.tdiv q.den).natAbs : ℚ) ≤ |q| := by
  have den : (0 : ℚ) < q.den := by exact_mod_cast q.den_pos
  have size : |q| = q.num.natAbs / q.den := by
    conv_lhs => rw [← Rat.num_div_den q]
    rw [abs_div, Nat.abs_cast, ← Int.cast_abs, Int.abs_eq_natAbs]
    rfl
  have parts : (q.num.tdiv q.den).natAbs = q.num.natAbs / q.den := by
    rw [Int.natAbs_tdiv]
    rfl
  rw [parts, size, le_div_iff₀ den]
  exact_mod_cast Nat.div_mul_le_self _ _

/-- Of a double that is not too large the integer part is kept. -/
theorem to_llong_moderate {d : {q : ℚ // Representable q}} (bound : |d.val| ≤ 2 ^ 53) :
    to_llong (.finite d) = d.val.num.tdiv d.val.den ∧ |to_llong (.finite d)| ≤ 2 ^ 53 := by
  have size : (d.val.num.tdiv d.val.den).natAbs ≤ 2 ^ 53 := by exact_mod_cast (natAbs_tdiv_le d.val).trans bound
  have kept : to_llong (.finite d) = d.val.num.tdiv d.val.den := by
    unfold to_llong
    simp only
    rw [if_pos (by omega)]
  refine ⟨kept, ?_⟩
  rw [kept, Int.abs_eq_natAbs]
  exact_mod_cast size

/-- What is printed of a double that is not too large is what is printed of its exact value. -/
theorem print_moderate {d : {q : ℚ // Representable q}} (bound : |d.val| ≤ 2 ^ 53) :
    cj_print_number (.finite d) = print_exact d.val := by
  obtain ⟨kept, bits⟩ := to_llong_moderate bound
  rw [kept] at bits
  have rounded : roundDouble ((d.val.num.tdiv d.val.den : ℤ) : ℚ) = .finite ⟨_, representable_int bits⟩ :=
    roundDouble_representable (representable_int bits)
  have same : (Double.finite d = roundDouble ((d.val.num.tdiv d.val.den : ℤ) : ℚ)) ↔
    d.val = ((d.val.num.tdiv d.val.den : ℤ) : ℚ) := by
    rw [rounded, Double.finite.injEq, Subtype.ext_iff]
  unfold cj_print_number print_exact
  rw [fmt_g_finite, kept]
  exact if_congr same rfl rfl

theorem whole_tdiv (z : ℤ) : ((z : ℚ).num.tdiv (z : ℚ).den : ℤ) = z := by simp

/-- What is printed near a number with few digits denotes it just when it is an integer or
    has six digits. -/
theorem print_exact_near {q b : ℚ} (few : Significant 15 q) (moderate : Moderate q) (near : |b - q| ≤ |q| / 2 ^ 53)
    (exact : (∃ z : ℤ, q = z) → b = q) : decimalValue (print_exact b) = q ↔ (∃ z : ℤ, q = z) ∨ Significant 6 q := by
  by_cases whole : ∃ z : ℤ, q = z
  · refine iff_of_true ?_ (Or.inl whole)
    rw [exact whole]
    obtain ⟨z, rfl⟩ := whole
    rw [print_exact, whole_tdiv, if_pos rfl, decimalValue_fmt_lld]
  · have nonzero : q ≠ 0 := fun zero => whole ⟨0, by simp [zero]⟩
    obtain ⟨low, high⟩ := moderate.resolve_left nonzero
    have broken : b ≠ ((b.num.tdiv b.den : ℤ) : ℚ) := by
      intro integer
      rw [integer] at near
      exact whole ⟨_, whole_near few high near⟩
    rw [print_exact, if_neg broken, exact_g_near low high near]
    exact (or_iff_right whole).symm

theorem parse_literal {n : Bytes} (literal : Number n) (short : n.length < 64) :
    cj_parse_number n = some (.number (strtod n), []) := by
  obtain ⟨all, d, ds, rfl, -⟩ := number_like literal
  have taken : (d :: ds).takeWhile isNumberChar = d :: ds := List.takeWhile_eq_self_iff.mpr all
  have rest : (d :: ds).dropWhile isNumberChar = [] := List.dropWhile_eq_nil_iff.mpr all
  rw [cj_parse_number, taken, rest, if_neg (List.cons_ne_nil d ds), if_neg (by omega)]

/-- The double of a number with few digits: an integer is itself, and others are near. -/
theorem double_near {q : ℚ} (moderate : Moderate q) : ∃ d : {q : ℚ // Representable q}, roundDouble q = .finite d ∧
    |d.val - q| ≤ |q| / 2 ^ 53 ∧ |d.val| ≤ 2 ^ 53 ∧ ((∃ z : ℤ, q = z) → d.val = q) := by
  have high : |q| ≤ 10 ^ (15 : ℤ) := by
    rcases moderate with rfl | ⟨-, high⟩
    · norm_num
    · exact high
  have integer : (∃ z : ℤ, q = z) → ∃ rep : Representable q, roundDouble q = .finite ⟨q, rep⟩ := by
    rintro ⟨z, rfl⟩
    have bits : |z| ≤ 2 ^ 53 := by
      have bound : |(z : ℚ)| ≤ 2 ^ 53 := high.trans (by norm_num)
      exact_mod_cast bound
    exact ⟨representable_int bits, roundDouble_representable (representable_int bits)⟩
  by_cases zero : q = 0
  · obtain ⟨rep, rounded⟩ := integer ⟨0, by simp [zero]⟩
    exact ⟨⟨q, rep⟩, rounded, by simp [zero], by simp [zero], fun _ => rfl⟩
  · obtain ⟨low, -⟩ := moderate.resolve_left zero
    obtain ⟨d, rounded, near⟩ := roundDouble_near low high
    refine ⟨d, rounded, near, ?_, ?_⟩
    · have sizes := (abs_le.mp ((abs_abs_sub_abs_le_abs_sub d.val q).trans near)).2
      have half : |q| / 2 ^ 53 ≤ |q| := div_le_self (abs_nonneg q) (by norm_num)
      have upper : |d.val| ≤ 2 * |q| := by linarith only [sizes, half]
      exact upper.trans ((mul_le_mul_of_nonneg_left high (by norm_num)).trans (by norm_num))
    · intro whole
      obtain ⟨rep, rounded'⟩ := integer whole
      rw [rounded, Double.finite.injEq] at rounded'
      rw [rounded']

/-- A number of at most 15 digits is kept just when it is an integer or has at most six digits,
    with the doubles of the program as with exact values. -/
theorem numbers_kept_iff (n : Bytes) (literal : Number n) (short : n.length < 64) (few : Significant 15 (decimalValue n))
    (moderate : Moderate (decimalValue n)) :
    (Kept n ↔ (∃ z : ℤ, decimalValue n = z) ∨ Significant 6 (decimalValue n)) ∧
      (KeptExactly n ↔ (∃ z : ℤ, decimalValue n = z) ∨ Significant 6 (decimalValue n)) := by
  constructor
  · obtain ⟨d, rounded, near, bound, exact⟩ := double_near moderate
    have parsed := parse_literal literal short
    rw [strtod_eq, rounded] at parsed
    rw [← print_exact_near few moderate near exact]
    unfold Kept
    rw [parsed]
    constructor
    · rintro ⟨_, ⟨rfl⟩, same⟩
      rwa [cj_print_value, print_moderate bound] at same
    · intro same
      exact ⟨_, rfl, by rwa [cj_print_value, print_moderate bound]⟩
  · have zero : |decimalValue n - decimalValue n| ≤ |decimalValue n| / 2 ^ 53 := by
      rw [sub_self, abs_zero]
      positivity
    exact print_exact_near few moderate zero fun _ => rfl

/-- A number of seven digits. -/
def sevenDigits : Bytes := lit "0.1234567"

theorem sevenDigits_parts : sevenDigits = (if false then [45] else []) ++ lit "0" ++ lit ".1234567" ++ [] := by decide +kernel

theorem sevenDigits_value : decimalValue sevenDigits = 1234567 / 10 ^ 7 := by decide +kernel

theorem sevenDigits_literal : Number sevenDigits ∧ sevenDigits.length < 64 ∧ Significant 15 (decimalValue sevenDigits) ∧
    Moderate (decimalValue sevenDigits) := by
  refine ⟨⟨_, _, _, _, sevenDigits_parts, .inl rfl, .inl rfl,
    .inr ⟨lit "1234567", rfl, by decide, by unfold Digits; decide +kernel⟩, .inl rfl⟩,
    by decide, ⟨1234567, -7, by norm_num, ?_⟩, .inr ?_⟩
  · rw [sevenDigits_value]
    norm_num
  · rw [sevenDigits_value]
    norm_num

theorem numbers_kept_seven : (Number sevenDigits ∧ sevenDigits.length < 64 ∧ Significant 15 (decimalValue sevenDigits) ∧
    Moderate (decimalValue sevenDigits)) ∧
    ((Kept sevenDigits ↔ (∃ z : ℤ, decimalValue sevenDigits = z) ∨ Significant 6 (decimalValue sevenDigits)) ∧
      (KeptExactly sevenDigits ↔ (∃ z : ℤ, decimalValue sevenDigits = z) ∨ Significant 6 (decimalValue sevenDigits))) :=
  ⟨sevenDigits_literal, numbers_kept_iff sevenDigits sevenDigits_literal.1 sevenDigits_literal.2.1 sevenDigits_literal.2.2.1
    sevenDigits_literal.2.2.2⟩

/-- It comes back as 0.123457. -/
theorem digits_lost :
    (¬∀ n, Number n → n.length < 64 → Significant 15 (decimalValue n) → Moderate (decimalValue n) → Kept n) ∧
      ¬∀ n, Number n → n.length < 64 → Significant 15 (decimalValue n) → Moderate (decimalValue n) → KeptExactly n := by
  obtain ⟨literal, short, few, moderate⟩ := sevenDigits_literal
  constructor
  · intro kept
    obtain ⟨d, parsed, same⟩ := kept sevenDigits literal short few moderate
    rw [parse_literal literal short] at parsed
    cases parsed
    have other : decimalValue (cj_print_value (.number (strtod sevenDigits))) ≠ decimalValue sevenDigits := by decide +kernel
    exact other same
  · intro kept
    have other : ¬KeptExactly sevenDigits := by
      unfold KeptExactly
      decide +kernel
    exact other (kept sevenDigits literal short few moderate)

end Sa.NumbersKept
