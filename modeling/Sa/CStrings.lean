import Mathlib.Data.List.Basic
import Mathlib.Data.List.Infix
import Mathlib.Data.List.TakeWhile

/-!
# Bytes and C strings

Memory as lists of bytes. A C string is what a `char *` denotes for the library
functions that stop at a NUL: its bytes contain none, and `cstr` reads one from
a buffer.
-/

namespace Sa.CStrings

abbrev Bytes := List UInt8

/-- The bytes of an ASCII literal. -/
def lit (s : String) : Bytes := s.toList.map fun c => c.toUInt8

/-- A byte string without a NUL. -/
abbrev CString := {b : Bytes // 0 ∉ b}

private theorem takeWhile_nulFree (b : Bytes) : 0 ∉ b.takeWhile (· != 0) := by
  intro member
  have nonzero := List.mem_takeWhile_imp member
  simp at nonzero

/-- What a function taking `const char *` sees of a buffer. -/
def cstr (b : Bytes) : CString := ⟨b.takeWhile (· != 0), takeWhile_nulFree b⟩

/-- The C string of a literal. -/
def cs (s : String) : CString := cstr (lit s)

theorem cstr_of_nulFree {b : Bytes} (free : 0 ∉ b) : (cstr b).val = b := by
  simp only [cstr, List.takeWhile_eq_self_iff]
  intro x member
  have nonzero : x ≠ 0 := fun zero => free (zero ▸ member)
  simpa using nonzero

@[simp] theorem cstr_val (s : CString) : cstr s.val = s := Subtype.ext (cstr_of_nulFree s.property)

/-- `strncpy(dst, s, size - 1); dst[size - 1] = 0`. -/
def strncpy (size : Nat) (s : CString) : CString :=
  ⟨s.val.take (size - 1), fun member => s.property (List.mem_of_mem_take member)⟩

/-- `strstr(s, needle) != NULL`. -/
def strstr (s needle : CString) : Bool := decide (needle.val <:+: s.val)

/-- `isspace` in the C locale. -/
def isspace (b : UInt8) : Bool := b == 32 || (9 ≤ b && b ≤ 13)

/-- A space or a tab. -/
def isBlank (b : UInt8) : Bool := b == 32 || b == 9

/-- `isdigit`. -/
def isdigit (b : UInt8) : Bool := 48 ≤ b && b ≤ 57

/-- The value of a hexadecimal digit of either case. -/
def hexVal (b : UInt8) : Option Nat :=
  if 48 ≤ b ∧ b ≤ 57 then some (b.toNat - 48)
  else if 97 ≤ b ∧ b ≤ 102 then some (b.toNat - 97 + 10)
  else if 65 ≤ b ∧ b ≤ 70 then some (b.toNat - 65 + 10)
  else none

theorem hexVal_lt {b : UInt8} {n : Nat} (digit : hexVal b = some n) : n < 16 := by
  have upper := b.toNat_lt
  simp only [hexVal, UInt8.le_iff_toNat_le] at digit
  split_ifs at digit <;> simp at digit <;> simp_all <;> omega

end Sa.CStrings
