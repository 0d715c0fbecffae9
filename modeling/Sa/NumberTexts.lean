import Mathlib.Data.List.DropRight
import Mathlib.Tactic.IntervalCases
import Sa.Doubles

/-!
# Number texts

`strtod` on a run of number characters, and what `snprintf` writes for `%lld`
and `%g`.
-/

namespace Sa.NumberTexts
open Sa.CStrings Sa.Doubles

/-- An optional sign and what follows it. -/
def signOf : Bytes → Bool × Bytes
  | 45 :: s => (true, s)
  | 43 :: s => (false, s)
  | s => (false, s)

def digitsValue (ds : Bytes) : ℕ := ds.foldl (fun n b => 10 * n + (b.toNat - 48)) 0

/-- The exponent at the head of a text; an `e` without digits is not one. -/
def exponentPart : Bytes → ℤ
  | [] => 0
  | c :: s =>
    if c = 101 ∨ c = 69 then
      let (negative, s) := signOf s
      let n := digitsValue (s.takeWhile isdigit)
      if negative then -n else n
    else 0

/-- The digits before and after the point, and what follows them. -/
def mantissaPart (s : Bytes) : Bytes × Bytes × Bytes :=
  let ip := s.takeWhile isdigit
  match s.dropWhile isdigit with
  | 46 :: t => (ip, t.takeWhile isdigit, t.dropWhile isdigit)
  | t => (ip, [], t)

/-- `strtod(s, NULL)` in the C locale: the longest prefix that is a decimal
    constant, correctly rounded, zero when there is none. Hexadecimal constants,
    `inf` and `nan` are left out: their letters are no number characters. -/
def strtod (s : Bytes) : Double :=
  let (negative, s) := signOf (s.dropWhile isspace)
  let (ip, fp, s) := mantissaPart s
  if ip = [] ∧ fp = [] then roundDouble 0
  else
    let q : ℚ := digitsValue (ip ++ fp) * 10 ^ (exponentPart s - fp.length)
    roundDouble (if negative then -q else q)

def natText (n : ℕ) : Bytes := (Nat.toDigits 10 n).map Char.toUInt8

/-- `%lld`. -/
def fmt_lld (z : ℤ) : Bytes := if z < 0 then 45 :: natText z.natAbs else natText z.natAbs

/-- The six significant digits of a positive value and its decimal exponent. -/
def sixDigits (q : ℚ) : ℕ × ℤ :=
  let x := Int.log 10 q
  let k := (roundHalfEven (q / 10 ^ (x - 5))).toNat
  if k = 10 ^ 6 then (10 ^ 5, x + 1) else (k, x)

/-- A fraction without its trailing zeros, and no point when nothing is left. -/
def fractionText (ds : Bytes) : Bytes :=
  let kept := ds.rdropWhile (· == 48)
  if kept = [] then [] else 46 :: kept

/-- At least two digits. -/
def exponentDigits (n : ℕ) : Bytes := if n < 10 then 48 :: natText n else natText n

/-- The exponent of `%e`. -/
def exponentText (x : ℤ) : Bytes := 101 :: (if x < 0 then 45 else 43) :: exponentDigits x.natAbs

/-- `%g` of a positive value with the digits `k` and the decimal exponent `x`. -/
def digitsText (k : ℕ) (x : ℤ) : Bytes :=
  let ds := natText k
  if x < -4 ∨ 6 ≤ x then ds.take 1 ++ fractionText (ds.drop 1) ++ exponentText x
  else if 0 ≤ x then ds.take (x.toNat + 1) ++ fractionText (ds.drop (x.toNat + 1))
  else 48 :: fractionText (List.replicate (-x - 1).toNat 48 ++ ds)

/-- `%g`. -/
def fmt_g : Double → Bytes
  | .inf negative => if negative then lit "-inf" else lit "inf"
  | .finite q =>
    if q.val = 0 then [48]
    else
      let (k, x) := sixDigits |q.val|
      if q.val < 0 then 45 :: digitsText k x else digitsText k x

/-- `(long long)d`. Out of range the conversion is undefined in C; x86-64 gives
    the least value. -/
def to_llong : Double → ℤ
  | .finite q =>
    let z := q.val.num.tdiv q.val.den
    if -2 ^ 63 ≤ z ∧ z < 2 ^ 63 then z else -2 ^ 63
  | .inf _ => -2 ^ 63

/-- `(int)d`, with x86-64's least value out of range. -/
def to_int : Double → ℤ
  | .finite q =>
    let z := q.val.num.tdiv q.val.den
    if -2 ^ 31 ≤ z ∧ z < 2 ^ 31 then z else -2 ^ 31
  | .inf _ => -2 ^ 31

example : fmt_g (strtod (lit "999999.5")) = lit "1e+06" := by decide +kernel
example : fmt_g (strtod (lit "1e999")) = lit "inf" := by decide +kernel
example : strtod (lit "9007199254740993") = strtod (lit "9007199254740992") := by decide +kernel

end Sa.NumberTexts
