import Sa.JsonTexts
import Sa.NumberTexts

/-!
# What the number formats write

Both formats write numbers of the JSON grammar that fit the parser's buffer, and
`strtod` reads them back: `%lld` to the integer itself, `%g` to a finite value.
-/

namespace Sa.DecimalTexts
open Sa.CStrings Sa.Doubles Sa.NumberTexts Sa.JsonGrammar

private theorem digit_byte : ∀ d : Fin 10, (Nat.digitChar d).toUInt8 = UInt8.ofNat (48 + d) := by decide

theorem natText_small {n : ℕ} (small : n < 10) : natText n = [UInt8.ofNat (48 + n)] := by
  rw [natText, Nat.toDigits_of_lt_base small, List.map_singleton, digit_byte ⟨n, small⟩]

theorem natText_step {n : ℕ} (large : 10 ≤ n) : natText n = natText (n / 10) ++ [UInt8.ofNat (48 + n % 10)] := by
  rw [natText, Nat.toDigits_of_base_le (by norm_num) large, List.map_append, List.map_singleton,
    digit_byte ⟨n % 10, Nat.mod_lt _ (by norm_num)⟩]
  rfl

private theorem isdigit_ofNat {d : ℕ} (small : d < 10) : isdigit (UInt8.ofNat (48 + d)) = true := by
  have := (by decide : ∀ d : Fin 10, isdigit (UInt8.ofNat (48 + d)) = true) ⟨d, small⟩
  exact this

private theorem digitsValue_digit {d : ℕ} (small : d < 10) : digitsValue [UInt8.ofNat (48 + d)] = d := by
  simp [digitsValue]
  omega

theorem natText_digits (n : ℕ) : Digits (natText n) := by
  induction n using Nat.strongRecOn with
  | _ n ih =>
    intro b member
    by_cases small : n < 10
    · rw [natText_small small, List.mem_singleton] at member
      rw [member]
      exact isdigit_ofNat small
    · rw [natText_step (by omega)] at member
      rcases List.mem_append.mp member with first | last
      · exact ih (n / 10) (by omega) b first
      · rw [List.mem_singleton] at last
        rw [last]
        exact isdigit_ofNat (Nat.mod_lt _ (by norm_num))

theorem natText_ne_nil (n : ℕ) : natText n ≠ [] := by
  by_cases small : n < 10
  · simp [natText_small small]
  · simp [natText_step (by omega : 10 ≤ n)]

theorem digitsValue_append (a b : Bytes) : digitsValue (a ++ b) = digitsValue a * 10 ^ b.length + digitsValue b := by
  induction b using List.reverseRecOn with
  | nil => simp [digitsValue]
  | append_singleton b x ih =>
    have last : ∀ s : Bytes, digitsValue (s ++ [x]) = 10 * digitsValue s + (x.toNat - 48) := by simp [digitsValue]
    rw [← List.append_assoc, last, last, ih, List.length_append, List.length_singleton, pow_succ]
    ring

@[simp] theorem digitsValue_natText (n : ℕ) : digitsValue (natText n) = n := by
  induction n using Nat.strongRecOn with
  | _ n ih =>
    by_cases small : n < 10
    · rw [natText_small small, digitsValue_digit small]
    · rw [natText_step (by omega), digitsValue_append, ih (n / 10) (by omega),
        digitsValue_digit (Nat.mod_lt n (by norm_num)), List.length_singleton]
      omega

theorem length_natText_le {n k : ℕ} (positive : 0 < k) (bound : n < 10 ^ k) : (natText n).length ≤ k := by
  rw [natText, List.length_map]
  exact (Nat.length_toDigits_le_iff (by norm_num) positive).mpr bound

theorem length_natText_eq {n k : ℕ} (low : 10 ^ k ≤ n) (bound : n < 10 ^ (k + 1)) : (natText n).length = k + 1 := by
  have upper := length_natText_le (Nat.succ_pos k) bound
  by_contra other
  have shorter : (natText n).length ≤ k := by omega
  have positive : 0 < k := by
    have := List.length_pos_of_ne_nil (natText_ne_nil n)
    omega
  rw [natText, List.length_map, Nat.length_toDigits_le_iff (by norm_num) positive] at shorter
  omega

/-- No leading zero, cut anywhere. -/
theorem take_natText_intPart (n : ℕ) {m : ℕ} (some : 0 < m) : IntPart ((natText n).take m) := by
  by_cases zero : n = 0
  · subst zero
    left
    rw [natText_small (by norm_num), List.take_of_length_le (by simp; omega)]
    rfl
  right
  have head : ∃ d ds, natText n = d :: ds ∧ d ≠ 48 := by
    induction n using Nat.strongRecOn with
    | _ n ih =>
      by_cases small : n < 10
      · refine ⟨_, _, natText_small small, ?_⟩
        have := (by decide : ∀ d : Fin 10, d.val ≠ 0 → UInt8.ofNat (48 + d) ≠ 48) ⟨n, small⟩ zero
        exact this
      · obtain ⟨d, ds, text, nonzero⟩ := ih (n / 10) (by omega) (by omega)
        exact ⟨d, ds ++ [UInt8.ofNat (48 + n % 10)], by rw [natText_step (by omega), text]; rfl, nonzero⟩
  obtain ⟨d, ds, text, nonzero⟩ := head
  have digits := natText_digits n
  rw [text] at digits ⊢
  obtain ⟨m, rfl⟩ : ∃ k, m = k + 1 := ⟨m - 1, by omega⟩
  rw [List.take_succ_cons]
  exact ⟨d, ds.take m, rfl, nonzero, digits d (by simp), fun b i => digits b (by simp [List.mem_of_mem_take i])⟩

theorem natText_intPart (n : ℕ) : IntPart (natText n) := by
  have whole := take_natText_intPart n (List.length_pos_of_ne_nil (natText_ne_nil n))
  rwa [List.take_length] at whole

/-! ### Reading a number of the grammar -/

private theorem digit_plain : ∀ b : UInt8, isdigit b = true →
    isspace b = false ∧ b ≠ 45 ∧ b ≠ 43 ∧ b ≠ 46 ∧ b ≠ 101 ∧ b ≠ 69 := by decide +kernel

private theorem takeWhile_digits {ds s : Bytes} (digits : Digits ds) (stop : ∀ b ∈ s.head?, isdigit b = false) :
    (ds ++ s).takeWhile isdigit = ds ∧ (ds ++ s).dropWhile isdigit = s := by
  rw [List.takeWhile_append_of_pos digits, List.dropWhile_append_of_pos digits]
  cases s with
  | nil => simp
  | cons b s =>
    have : isdigit b = false := stop b rfl
    simp [this]

theorem intPart_digits {ip : Bytes} (int : IntPart ip) : ip ≠ [] ∧ Digits ip := by
  rcases int with rfl | ⟨d, ds, rfl, -, digit, digits⟩
  · exact ⟨by simp, by simp [Digits]; rfl⟩
  · refine ⟨by simp, fun b member => ?_⟩
    rcases List.mem_cons.mp member with rfl | rest
    · exact digit
    · exact digits b rest

private theorem expPart_head {ep : Bytes} (exp : ExpPart ep) : ∀ b ∈ ep.head?, isdigit b = false ∧ b ≠ 46 := by
  rcases exp with rfl | ⟨e, sign, ds, rfl, mark, -⟩
  · simp
  · intro b head
    cases head
    rcases mark with rfl | rfl <;> exact ⟨rfl, by decide⟩

/-- A fraction as `strtod` splits it off. -/
def fractionDigits (fp : Bytes) : Bytes := fp.drop 1

theorem mantissaPart_number {ip fp ep : Bytes} (int : IntPart ip) (frac : FracPart fp) (exp : ExpPart ep) :
    mantissaPart (ip ++ fp ++ ep) = (ip, fractionDigits fp, ep) := by
  obtain ⟨-, digits⟩ := intPart_digits int
  have head := expPart_head exp
  rcases frac with rfl | ⟨ds, rfl, -, fraction⟩
  · obtain ⟨taken, dropped⟩ := takeWhile_digits (s := ep) digits (fun b i => (head b i).1)
    simp only [mantissaPart, List.append_nil, taken, dropped]
    split
    · exact absurd rfl (head 46 rfl).2
    · rfl
  · obtain ⟨taken, dropped⟩ := takeWhile_digits (s := 46 :: (ds ++ ep)) digits (by intro b i; cases i; rfl)
    obtain ⟨taken', dropped'⟩ := takeWhile_digits (s := ep) fraction (fun b i => (head b i).1)
    simp only [mantissaPart, List.append_assoc, List.cons_append, taken, dropped, taken', dropped', fractionDigits,
      List.drop_succ_cons, List.drop_zero]

/-- The value that a number denotes. -/
def numberValue (negative : Bool) (ip fp ep : Bytes) : ℚ :=
  let q : ℚ := digitsValue (ip ++ fractionDigits fp) * 10 ^ (exponentPart ep - (fractionDigits fp).length)
  if negative then -q else q

/-- The exact value of the decimal constant that `strtod` finds in a text. -/
def decimalValue (s : Bytes) : ℚ :=
  let (negative, s) := signOf (s.dropWhile isspace)
  let (ip, fp, s) := mantissaPart s
  if ip = [] ∧ fp = [] then 0
  else
    let q : ℚ := digitsValue (ip ++ fp) * 10 ^ (exponentPart s - fp.length)
    if negative then -q else q

theorem strtod_eq (s : Bytes) : strtod s = roundDouble (decimalValue s) := by
  unfold strtod decimalValue
  simp only
  split_ifs <;> rfl

theorem decimalValue_number {ip fp ep : Bytes} (negative : Bool) (int : IntPart ip) (frac : FracPart fp) (exp : ExpPart ep) :
    decimalValue ((if negative then [45] else []) ++ ip ++ fp ++ ep) = numberValue negative ip fp ep := by
  obtain ⟨some, digits⟩ := intPart_digits int
  obtain ⟨d, ds, rfl⟩ := List.exists_cons_of_ne_nil some
  obtain ⟨space, noMinus, noPlus, -⟩ := digit_plain d (digits d (by simp))
  have split := mantissaPart_number int frac exp
  have sign : signOf (((if negative then [45] else []) ++ (d :: ds) ++ fp ++ ep).dropWhile isspace) =
      (negative, (d :: ds) ++ fp ++ ep) := by
    cases negative with
    | true => rfl
    | false =>
      simp only [Bool.false_eq_true, if_false, List.nil_append, List.cons_append, List.dropWhile_cons, space]
      rw [signOf]
      · exact fun s same => noMinus (List.cons.inj same).1
      · exact fun s same => noPlus (List.cons.inj same).1
  unfold decimalValue
  simp only [sign, split]
  rw [if_neg (by simp)]
  rfl

theorem strtod_number {ip fp ep : Bytes} (negative : Bool) (int : IntPart ip) (frac : FracPart fp) (exp : ExpPart ep) :
    strtod ((if negative then [45] else []) ++ ip ++ fp ++ ep) = roundDouble (numberValue negative ip fp ep) := by
  rw [strtod_eq, decimalValue_number negative int frac exp]

theorem fmt_lld_eq (z : ℤ) :
    fmt_lld z = (if decide (z < 0) then [45] else []) ++ natText z.natAbs ++ [] ++ [] := by
  by_cases negative : z < 0 <;> simp [fmt_lld, negative]

theorem decimalValue_fmt_lld (z : ℤ) : decimalValue (fmt_lld z) = z := by
  rw [fmt_lld_eq, decimalValue_number _ (natText_intPart _) (.inl rfl) (.inl rfl)]
  by_cases negative : z < 0
  · have size : |(z : ℚ)| = -z := abs_of_neg (by exact_mod_cast negative)
    simp [numberValue, fractionDigits, exponentPart, negative, size]
  · have size : |(z : ℚ)| = z := abs_of_nonneg (by exact_mod_cast not_lt.mp negative)
    simp [numberValue, fractionDigits, exponentPart, negative, size]

theorem strtod_fmt_lld (z : ℤ) : strtod (fmt_lld z) = roundDouble z := by
  rw [strtod_eq, decimalValue_fmt_lld]

theorem fmt_lld_number (z : ℤ) : Number (fmt_lld z) := by
  refine ⟨_, _, _, _, fmt_lld_eq z, ?_, natText_intPart _, .inl rfl, .inl rfl⟩
  by_cases negative : z < 0 <;> simp [negative]

theorem length_fmt_lld_le {z : ℤ} (bound : z.natAbs < 10 ^ 19) : (fmt_lld z).length ≤ 20 := by
  have digits := length_natText_le (by norm_num) bound
  unfold fmt_lld
  split <;> simp <;> omega

/-! ### `%g` -/

theorem rdropWhile_zeros (ds : Bytes) : ∃ j, ds = ds.rdropWhile (· == 48) ++ List.replicate j 48 := by
  induction ds using List.reverseRecOn with
  | nil => exact ⟨0, by simp⟩
  | append_singleton ds d ih =>
    by_cases zero : d = 48
    · obtain ⟨j, split⟩ := ih
      refine ⟨j + 1, ?_⟩
      rw [List.rdropWhile_concat_pos _ _ _ (by simp [zero]), List.replicate_succ', ← List.append_assoc, ← split, zero]
    · exact ⟨0, by rw [List.rdropWhile_concat_neg _ _ _ (by simp [zero])]; simp⟩

theorem digitsValue_zeros (a : Bytes) (j : ℕ) : digitsValue (a ++ List.replicate j 48) = digitsValue a * 10 ^ j := by
  have zeros : digitsValue (List.replicate j 48) = 0 := by
    induction j with
    | zero => rfl
    | succ j ih => rw [List.replicate_succ', digitsValue_append, ih]; simp [digitsValue]
  rw [digitsValue_append, zeros, List.length_replicate, Nat.add_zero]

theorem fractionText_fracPart {ds : Bytes} (digits : Digits ds) : FracPart (fractionText ds) := by
  obtain ⟨j, split⟩ := rdropWhile_zeros ds
  unfold fractionText
  simp only
  split_ifs with none
  · exact .inl rfl
  · refine .inr ⟨_, rfl, none, fun b member => digits b ?_⟩
    rw [split]
    exact List.mem_append_left _ member

/-- Trailing zeros of a fraction do not count. -/
theorem fractionText_value (ip ds : Bytes) (e : ℤ) :
    (digitsValue (ip ++ fractionDigits (fractionText ds)) : ℚ) * 10 ^ (e - (fractionDigits (fractionText ds)).length) =
      digitsValue (ip ++ ds) * 10 ^ (e - ds.length) := by
  obtain ⟨j, split⟩ := rdropWhile_zeros ds
  have kept : fractionDigits (fractionText ds) = ds.rdropWhile (· == 48) := by
    unfold fractionText fractionDigits
    simp only
    split_ifs with none
    · rw [none]; rfl
    · rfl
  rw [kept]
  generalize ds.rdropWhile (· == 48) = kept at split
  subst split
  rw [← List.append_assoc, digitsValue_zeros, List.length_append, List.length_replicate]
  push_cast
  rw [mul_assoc, ← zpow_natCast, ← zpow_add₀ (by norm_num)]
  congr 2
  ring

theorem exponentDigits_digits (n : ℕ) : exponentDigits n ≠ [] ∧ Digits (exponentDigits n) := by
  unfold exponentDigits
  split
  · refine ⟨by simp, fun b member => ?_⟩
    rcases List.mem_cons.mp member with rfl | rest
    · rfl
    · exact natText_digits _ b rest
  · exact ⟨natText_ne_nil n, natText_digits n⟩

theorem digitsValue_exponentDigits (n : ℕ) : digitsValue (exponentDigits n) = n := by
  unfold exponentDigits
  split
  · rw [← List.singleton_append, digitsValue_append, digitsValue_natText]
    simp [digitsValue]
  · exact digitsValue_natText n

theorem exponentText_expPart (x : ℤ) : ExpPart (exponentText x) := by
  obtain ⟨some, digits⟩ := exponentDigits_digits x.natAbs
  refine .inr ⟨101, [if x < 0 then 45 else 43], _, rfl, .inl rfl, ?_, some, digits⟩
  split <;> simp

theorem exponentPart_exponentText (x : ℤ) : exponentPart (exponentText x) = x := by
  have whole : (exponentDigits x.natAbs).takeWhile isdigit = exponentDigits x.natAbs :=
    List.takeWhile_eq_self_iff.mpr (exponentDigits_digits _).2
  by_cases negative : x < 0
  · simp [exponentText, exponentPart, signOf, negative, whole, digitsValue_exponentDigits, abs_of_neg]
  · simp [exponentText, exponentPart, signOf, negative, whole, digitsValue_exponentDigits, abs_of_nonneg (not_lt.mp negative)]

/-- The three shapes of `%g` spell the digits times a power of ten. -/
theorem digitsText_spec {k : ℕ} (low : 10 ^ 5 ≤ k) (high : k < 10 ^ 6) (x : ℤ) :
    ∃ ip fp ep, digitsText k x = ip ++ fp ++ ep ∧ IntPart ip ∧ FracPart fp ∧ ExpPart ep ∧
      numberValue false ip fp ep = k * 10 ^ (x - 5) := by
  have six : (natText k).length = 6 := length_natText_eq low high
  have digits := natText_digits k
  have dropped : ∀ m, Digits ((natText k).drop m) := fun m b i => digits b (List.mem_of_mem_drop i)
  unfold digitsText
  simp only
  split_ifs with exponent inside
  · refine ⟨_, _, _, rfl, take_natText_intPart k one_pos, fractionText_fracPart (dropped 1), exponentText_expPart x, ?_⟩
    unfold numberValue
    simp only [Bool.false_eq_true, if_false]
    rw [fractionText_value, List.take_append_drop, digitsValue_natText, exponentPart_exponentText, List.length_drop, six]
    norm_num
  · refine ⟨_, _, [], (List.append_nil _).symm, take_natText_intPart k (Nat.succ_pos _),
      fractionText_fracPart (dropped _), .inl rfl, ?_⟩
    unfold numberValue
    simp only [Bool.false_eq_true, if_false]
    rw [fractionText_value, List.take_append_drop, digitsValue_natText, List.length_drop, six]
    congr 2
    simp only [exponentPart]
    omega
  · have zeros : Digits (List.replicate (-x - 1).toNat 48 ++ natText k) := by
      intro b member
      rcases List.mem_append.mp member with zero | digit
      · rw [List.eq_of_mem_replicate zero]; rfl
      · exact digits b digit
    refine ⟨[48], _, [], by simp, .inl rfl, fractionText_fracPart zeros, .inl rfl, ?_⟩
    unfold numberValue
    simp only [Bool.false_eq_true, if_false]
    have value : digitsValue ([48] ++ (List.replicate (-x - 1).toNat 48 ++ natText k)) = k := by
      have nothing : digitsValue ([48] ++ List.replicate (-x - 1).toNat 48) = 0 := by
        rw [digitsValue_zeros]
        simp [digitsValue]
      rw [← List.append_assoc, digitsValue_append, nothing, digitsValue_natText, zero_mul, zero_add]
    rw [fractionText_value, value, List.length_append, List.length_replicate, six]
    congr 2
    simp only [exponentPart]
    omega

/-- The largest value with six digits below `2 ^ 1024`. -/
def largest : ℚ := 179769 * 10 ^ 303

private theorem largest_below : largest < 2 ^ (1024 : ℤ) := by decide +kernel
private theorem largest_room : largest + 1 / 2 * 2 ^ (971 : ℤ) < 2 ^ 1024 := by decide +kernel
private theorem decimal_most : (2 : ℚ) ^ 1024 < (179769 + 1 / 2) * 10 ^ (303 : ℤ) := by decide +kernel
private theorem decimal_bound : (2 : ℚ) ^ 1024 < 10 ^ (309 : ℤ) := by decide +kernel
private theorem decimal_least : (10 : ℚ) ^ (-324 : ℤ) ≤ 2 ^ (-1074 : ℤ) := by decide +kernel
/-- Every `long long` is within range. -/
theorem llong_le_largest : (10 : ℚ) ^ 19 ≤ largest := by decide +kernel
private theorem largest_power : (10 : ℚ) ^ 6 * 10 ^ (302 : ℤ) ≤ largest := by decide +kernel

/-- Values up to the largest stay finite. -/
theorem roundDouble_finite {q : ℚ} (bound : |q| ≤ largest) : ∃ v, roundDouble q = .finite v := by
  have units : ulpExponent q ≤ 971 := by
    unfold ulpExponent
    rcases eq_or_ne q 0 with rfl | nonzero
    · simp
    have below := lt_of_le_of_lt bound largest_below
    have := (Int.lt_zpow_iff_log_lt (b := 2) (x := 1024) (by norm_num) (abs_pos.mpr nonzero)).mp (by exact_mod_cast below)
    omega
  have unit : (0 : ℚ) < 2 ^ ulpExponent q := zpow_pos (by norm_num) _
  have unitBound : (2 : ℚ) ^ ulpExponent q ≤ 2 ^ (971 : ℤ) := zpow_le_zpow_right₀ (by norm_num) units
  have near := roundHalfEven_near (q / 2 ^ ulpExponent q)
  -- The rounding moves the value by half a unit at most.
  have moved : |roundHalfEven (q / 2 ^ ulpExponent q) * (2 : ℚ) ^ ulpExponent q - q| ≤ 1 / 2 * 2 ^ ulpExponent q := by
    have scaled : roundHalfEven (q / 2 ^ ulpExponent q) * (2 : ℚ) ^ ulpExponent q - q =
        (roundHalfEven (q / 2 ^ ulpExponent q) - q / 2 ^ ulpExponent q) * 2 ^ ulpExponent q := by
      field_simp
    rw [scaled, abs_mul, abs_of_pos unit]
    exact mul_le_mul_of_nonneg_right near unit.le
  have small : |roundHalfEven (q / 2 ^ ulpExponent q) * (2 : ℚ) ^ ulpExponent q| < 2 ^ 1024 := by
    have split := abs_sub_abs_le_abs_sub (roundHalfEven (q / 2 ^ ulpExponent q) * (2 : ℚ) ^ ulpExponent q) q
    exact lt_of_le_of_lt (by linarith) largest_room
  unfold roundDouble
  simp only [small, dite_true]
  exact ⟨_, rfl⟩

theorem roundHalfEven_le {x : ℚ} {n : ℤ} (bound : x < n + 1 / 2) : roundHalfEven x ≤ n := by
  have near := abs_le.mp (roundHalfEven_near x)
  have : (roundHalfEven x : ℚ) < n + 1 := by linarith
  exact_mod_cast Int.lt_add_one_iff.mp (by exact_mod_cast this)

theorem le_roundHalfEven {x : ℚ} {n : ℤ} (bound : n ≤ x) : n ≤ roundHalfEven x := by
  have near := abs_le.mp (roundHalfEven_near x)
  have : (n : ℚ) - 1 < roundHalfEven x := by linarith
  have : n - 1 < roundHalfEven x := by exact_mod_cast this
  omega

theorem sixDigits_spec {q : ℚ} (least : (2 : ℚ) ^ (-1074 : ℤ) ≤ q) (most : q < 2 ^ 1024) :
    10 ^ 5 ≤ (sixDigits q).1 ∧ (sixDigits q).1 < 10 ^ 6 ∧ -324 ≤ (sixDigits q).2 ∧ (sixDigits q).2 ≤ 309 ∧
      ((sixDigits q).1 : ℚ) * 10 ^ ((sixDigits q).2 - 5) ≤ largest := by
  have positive : 0 < q := lt_of_lt_of_le (zpow_pos (by norm_num) _) least
  have low := Int.zpow_log_le_self (b := 10) (by norm_num) positive
  have high := Int.lt_zpow_succ_log_self (b := 10) (by norm_num) q
  have logHigh : Int.log 10 q ≤ 308 := by
    have := (Int.lt_zpow_iff_log_lt (b := 10) (x := 309) (by norm_num) positive).mp
      (lt_trans most decimal_bound)
    omega
  have logLow : -324 ≤ Int.log 10 q :=
    (Int.zpow_le_iff_le_log (b := 10) (by norm_num) positive).mp (le_trans decimal_least least)
  push_cast at low high
  unfold sixDigits
  simp only
  generalize Int.log 10 q = x at low high logHigh logLow
  have unit : (0 : ℚ) < 10 ^ (x - 5) := zpow_pos (by norm_num) _
  have scaledLow : ((10 ^ 5 : ℤ) : ℚ) ≤ q / 10 ^ (x - 5) := by
    rw [le_div_iff₀ unit]
    calc ((10 ^ 5 : ℤ) : ℚ) * 10 ^ (x - 5) = 10 ^ x := by
          rw [show x = 5 + (x - 5) by ring, zpow_add₀ (by norm_num)]; norm_num
      _ ≤ q := low
  have scaledHigh : q / 10 ^ (x - 5) < 10 ^ 6 := by
    rw [div_lt_iff₀ unit]
    calc q < 10 ^ (x + 1) := high
      _ = 10 ^ 6 * 10 ^ (x - 5) := by rw [show x + 1 = 6 + (x - 5) by ring, zpow_add₀ (by norm_num)]; norm_num
  have roundLow := le_roundHalfEven scaledLow
  have roundHigh : roundHalfEven (q / 10 ^ (x - 5)) ≤ 10 ^ 6 := roundHalfEven_le (by push_cast; linarith)
  -- Below the last decade the power bounds the value, in it the largest double does.
  have bounded : (roundHalfEven (q / 10 ^ (x - 5)) : ℚ) * 10 ^ (x - 5) ≤ largest := by
    by_cases last : x = 308
    · subst last
      have below : q / 10 ^ ((308 : ℤ) - 5) < (179769 : ℤ) + 1 / 2 := by
        rw [div_lt_iff₀ unit]
        exact lt_trans most decimal_most
      have digits : (roundHalfEven (q / 10 ^ ((308 : ℤ) - 5)) : ℚ) ≤ 179769 := by exact_mod_cast roundHalfEven_le below
      exact mul_le_mul_of_nonneg_right digits unit.le
    · have digits : (roundHalfEven (q / 10 ^ (x - 5)) : ℚ) ≤ 10 ^ 6 := by exact_mod_cast roundHigh
      have power : (10 : ℚ) ^ (x - 5) ≤ 10 ^ (302 : ℤ) := zpow_le_zpow_right₀ (by norm_num) (by omega)
      calc (roundHalfEven (q / 10 ^ (x - 5)) : ℚ) * 10 ^ (x - 5) ≤ 10 ^ 6 * 10 ^ (302 : ℤ) :=
            mul_le_mul digits power unit.le (by norm_num)
        _ ≤ largest := largest_power
  generalize roundHalfEven (q / 10 ^ (x - 5)) = r at roundLow roundHigh bounded
  have whole : ((r.toNat : ℤ) : ℚ) = r := by exact_mod_cast Int.toNat_of_nonneg (by omega)
  split_ifs with carry
  · refine ⟨le_rfl, by norm_num, by omega, by omega, ?_⟩
    have million : r = 10 ^ 6 := by omega
    rw [million] at bounded
    convert bounded using 1
    push_cast
    rw [show x + 1 - 5 = (x - 5) + 1 by ring, zpow_add₀ (by norm_num)]
    ring
  · refine ⟨by omega, by omega, by omega, by omega, ?_⟩
    have : (r.toNat : ℚ) = r := by exact_mod_cast whole
    simpa [this] using bounded

theorem representable_least {q : ℚ} (rep : Representable q) (nonzero : q ≠ 0) : (2 : ℚ) ^ (-1074 : ℤ) ≤ |q| := by
  obtain ⟨m, e, -, least, value, -⟩ := rep
  have unit : (0 : ℚ) < 2 ^ e := zpow_pos (by norm_num) e
  have some : m ≠ 0 := by rintro rfl; simp [value] at nonzero
  have one : (1 : ℚ) ≤ |(m : ℚ)| := by exact_mod_cast Int.one_le_abs some
  calc (2 : ℚ) ^ (-1074 : ℤ) ≤ 2 ^ e := zpow_le_zpow_right₀ (by norm_num) least
    _ ≤ |(m : ℚ)| * 2 ^ e := le_mul_of_one_le_left unit.le one
    _ = |q| := by rw [value, abs_mul, abs_of_pos unit]

theorem length_fractionText_le (ds : Bytes) : (fractionText ds).length ≤ ds.length + 1 := by
  obtain ⟨j, split⟩ := rdropWhile_zeros ds
  have kept : (ds.rdropWhile (· == 48)).length ≤ ds.length := by
    conv_rhs => rw [split]
    simp
  unfold fractionText
  simp only
  split
  · simp
  · simpa using kept

theorem length_digitsText_le {k : ℕ} {x : ℤ} (low : 10 ^ 5 ≤ k) (high : k < 10 ^ 6) (least : -324 ≤ x) (most : x ≤ 309) :
    (digitsText k x).length ≤ 20 := by
  have six : (natText k).length = 6 := length_natText_eq low high
  have exponent : (exponentText x).length ≤ 6 := by
    have three := length_natText_le (n := x.natAbs) (k := 3) (by norm_num) (by omega)
    simp only [exponentText, exponentDigits, List.length_cons]
    split <;> simp <;> omega
  unfold digitsText
  simp only
  split_ifs
  · have := length_fractionText_le ((natText k).drop 1)
    simp only [List.length_append, List.length_take, List.length_drop, six] at this ⊢
    omega
  · have := length_fractionText_le ((natText k).drop (x.toNat + 1))
    simp only [List.length_append, List.length_take, List.length_drop, six] at this ⊢
    omega
  · have := length_fractionText_le (List.replicate (-x - 1).toNat 48 ++ natText k)
    simp only [List.length_append, List.length_cons, List.length_replicate, six] at this ⊢
    omega

/-- `%g` of a finite value: a number of the grammar, short, and finite when read back. -/
theorem fmt_g_spec (q : {q : ℚ // Representable q}) :
    Number (fmt_g (.finite q)) ∧ (fmt_g (.finite q)).length ≤ 21 ∧ ∃ v, strtod (fmt_g (.finite q)) = .finite v := by
  by_cases zero : q.val = 0
  · have text : fmt_g (.finite q) = (if false then [45] else []) ++ [48] ++ [] ++ [] := by simp [fmt_g, zero]
    rw [text, strtod_number false (.inl rfl) (.inl rfl) (.inl rfl)]
    refine ⟨⟨_, _, _, _, rfl, .inl rfl, .inl rfl, .inl rfl, .inl rfl⟩, by simp, roundDouble_finite ?_⟩
    simp [numberValue, digitsValue, fractionDigits, largest]
  have rep := q.property
  have most : |q.val| < 2 ^ 1024 := by
    obtain ⟨_, _, _, _, _, small⟩ := rep
    exact small
  obtain ⟨low, high, least, upper, bound⟩ := sixDigits_spec (representable_least rep zero) most
  obtain ⟨ip, fp, ep, text, int, frac, exp, value⟩ := digitsText_spec low high (sixDigits |q.val|).2
  have length := length_digitsText_le low high least upper
  have whole : fmt_g (.finite q) = (if decide (q.val < 0) then [45] else []) ++ ip ++ fp ++ ep := by
    unfold fmt_g
    simp only [zero, if_false]
    by_cases negative : q.val < 0 <;> simp [negative, text]
  have size : |numberValue (decide (q.val < 0)) ip fp ep| ≤ largest := by
    have same : |numberValue (decide (q.val < 0)) ip fp ep| = |numberValue false ip fp ep| := by
      by_cases negative : q.val < 0 <;> simp [numberValue, negative]
    rw [same, value, abs_of_nonneg (mul_nonneg (Nat.cast_nonneg _) (zpow_nonneg (by norm_num) _))]
    exact bound
  refine ⟨⟨_, _, _, _, whole, ?_, int, frac, exp⟩, ?_, ?_⟩
  · by_cases negative : q.val < 0 <;> simp [negative]
  · rw [text] at length
    rw [whole]
    by_cases negative : q.val < 0 <;> simp [negative] at length ⊢ <;> omega
  · rw [whole, strtod_number _ int frac exp]
    exact roundDouble_finite size

theorem number_like {n : Bytes} (number : Number n) : NumberLike n := by
  obtain ⟨sign, ip, fp, ep, rfl, minus, int, frac, exp⟩ := number
  obtain ⟨some, digits⟩ := intPart_digits int
  have digit : ∀ {ds : Bytes}, Digits ds → ∀ b ∈ ds, isNumChar b = true := fun all b i => by simp [isNumChar, all b i]
  constructor
  · intro b member
    simp only [List.mem_append] at member
    rcases member with ((inSign | inInt) | inFrac) | inExp
    · rcases minus with rfl | rfl
      · cases inSign
      · rw [List.mem_singleton.mp inSign]; rfl
    · exact digit digits b inInt
    · rcases frac with rfl | ⟨ds, rfl, -, fraction⟩
      · cases inFrac
      · rcases List.mem_cons.mp inFrac with rfl | rest
        · rfl
        · exact digit fraction b rest
    · rcases exp with rfl | ⟨e, s, ds, rfl, mark, sign', -, digits'⟩
      · cases inExp
      · rcases List.mem_cons.mp inExp with rfl | rest
        · rcases mark with rfl | rfl <;> rfl
        · rcases List.mem_append.mp rest with inSign | inDigits
          · rcases sign' with rfl | rfl | rfl
            · cases inSign
            · rw [List.mem_singleton.mp inSign]; rfl
            · rw [List.mem_singleton.mp inSign]; rfl
          · exact digit digits' b inDigits
  · rcases minus with rfl | rfl
    · obtain ⟨d, ds, rfl⟩ := List.exists_cons_of_ne_nil some
      exact ⟨d, _, rfl, .inr (digits d (by simp))⟩
    · exact ⟨45, _, rfl, .inl rfl⟩

end Sa.DecimalTexts
