import Mathlib.Data.List.Basic
import Sa.CStrings

/-!
# UTF-8

Byte strings that encode Unicode scalar values. An ASCII byte stands for itself
and splits a text into parts that are valid on their own, so escaping the ASCII
bytes of a text keeps what it is.
-/

namespace Sa.Unicode
open Sa.CStrings

/-- The encoding of a sequence of scalar values. -/
def utf8 (cs : List Char) : Bytes := cs.flatMap String.utf8EncodeChar

def Utf8 (bs : Bytes) : Prop := ∃ cs, bs = utf8 cs

/-- A byte of its own, or bytes above ASCII. -/
theorem encode_cases (c : Char) :
    (∃ b : UInt8, String.utf8EncodeChar c = [b] ∧ b < 0x80 ∧ b.toNat = c.toNat) ∨
      (String.utf8EncodeChar c ≠ [] ∧ 0x80 ≤ c.toNat ∧ ∀ b ∈ String.utf8EncodeChar c, 0x80 ≤ b) := by
  have same : c.val.toNat = c.toNat := rfl
  unfold String.utf8EncodeChar
  simp only [same]
  split_ifs with one two three
  · refine .inl ⟨_, rfl, ?_, ?_⟩
    · rw [UInt8.lt_iff_toNat_lt]
      simp
      omega
    · simp
      omega
  all_goals
    refine .inr ⟨by simp, by omega, ?_⟩
    simp [UInt8.le_iff_toNat_le]
    omega

theorem toNat_ofNat {n : Nat} (valid : n.isValidChar) : (Char.ofNat n).toNat = n := by
  rw [Char.ofNat, dif_pos valid]
  rfl

/-- The encoding of an ASCII character. -/
theorem encode_ascii {b : UInt8} (ascii : b < 0x80) : String.utf8EncodeChar (Char.ofNat b.toNat) = [b] := by
  have small : b.toNat < 128 := by simpa [UInt8.lt_iff_toNat_lt] using ascii
  have valid : b.toNat.isValidChar := .inl (by omega)
  have value : (Char.ofNat b.toNat).val.toNat = b.toNat := toNat_ofNat valid
  unfold String.utf8EncodeChar
  simp only [value]
  rw [if_pos (by omega)]
  simp

theorem utf8_nil : Utf8 [] := ⟨[], rfl⟩

theorem utf8_append {x y : Bytes} (left : Utf8 x) (right : Utf8 y) : Utf8 (x ++ y) := by
  obtain ⟨cs, rfl⟩ := left
  obtain ⟨ds, rfl⟩ := right
  exact ⟨cs ++ ds, by simp [utf8]⟩

theorem utf8_ascii {bs : Bytes} (ascii : ∀ b ∈ bs, b < 0x80) : Utf8 bs := by
  induction bs with
  | nil => exact utf8_nil
  | cons b bs ih =>
    have head : Utf8 [b] := ⟨[Char.ofNat b.toNat], by simp [utf8, encode_ascii (ascii b (by simp))]⟩
    exact utf8_append (x := [b]) head (ih fun c member => ascii c (by simp [member]))

/-- An ASCII byte ends one encoding and begins another. -/
theorem utf8_split {x y : Bytes} {b : UInt8} (ascii : b < 0x80) : Utf8 (x ++ b :: y) ↔ Utf8 x ∧ Utf8 y := by
  constructor
  · rintro ⟨cs, text⟩
    induction cs generalizing x with
    | nil => simp [utf8] at text
    | cons c cs ih =>
      rw [utf8, List.flatMap_cons] at text
      rcases List.append_eq_append_iff.mp text with ⟨a, whole, rest⟩ | ⟨a, whole, rest⟩
      · cases a with
        | nil =>
          obtain ⟨-, right⟩ := ih (x := []) (by simpa [utf8] using rest)
          exact ⟨⟨[c], by simpa [utf8] using whole.symm⟩, right⟩
        | cons d a =>
          simp only [List.cons_append, List.cons.injEq] at rest
          obtain ⟨rfl, rest⟩ := rest
          -- The byte lies in the first character, so it is the whole of it.
          rcases encode_cases c with ⟨d, one, -, -⟩ | ⟨-, -, high⟩
          · rw [one] at whole
            have alone : x = [] ∧ a = [] := by
              cases x with
              | nil => exact ⟨rfl, by simpa using (List.cons.inj whole).2.symm⟩
              | cons z x => simp at whole
            obtain ⟨rfl, rfl⟩ := alone
            exact ⟨utf8_nil, cs, by simpa [utf8] using rest⟩
          · have above := high b (by rw [whole]; simp)
            rw [UInt8.lt_iff_toNat_lt] at ascii
            rw [UInt8.le_iff_toNat_le] at above
            omega
      · obtain ⟨left, right⟩ := ih rest.symm
        refine ⟨?_, right⟩
        rw [whole]
        exact utf8_append ⟨[c], by simp [utf8]⟩ left
  · rintro ⟨left, right⟩
    have head : Utf8 [b] := utf8_ascii (by simpa using ascii)
    simpa using utf8_append left (utf8_append head right)

/-- Replacing every ASCII byte by ASCII bytes keeps what is valid and what is not. -/
theorem utf8_escape {f : UInt8 → Bytes} (high : ∀ b, 0x80 ≤ b → f b = [b])
    (low : ∀ b, b < 0x80 → f b ≠ [] ∧ ∀ c ∈ f b, c < 0x80) (s : Bytes) : Utf8 (s.flatMap f) ↔ Utf8 s := by
  -- The bytes since the last ASCII byte stay together.
  suffices since : ∀ h, Utf8 (h ++ s.flatMap f) ↔ Utf8 (h ++ s) by simpa using since []
  induction s with
  | nil => intro h; rfl
  | cons b s ih =>
    intro h
    rw [List.flatMap_cons]
    by_cases ascii : b < 0x80
    · obtain ⟨some, escaped⟩ := low b ascii
      rw [utf8_split ascii]
      obtain ⟨c, cs, text⟩ := List.exists_cons_of_ne_nil some
      rw [text] at escaped ⊢
      have rest : ∀ cs : Bytes, (∀ c ∈ cs, c < 0x80) → (Utf8 (cs ++ s.flatMap f) ↔ Utf8 s) := by
        intro cs
        induction cs with
        | nil => intro _; simpa using ih []
        | cons d cs later =>
          intro all
          have split := utf8_split (x := []) (y := cs ++ s.flatMap f) (all d (by simp))
          rw [List.nil_append] at split
          rw [List.cons_append, split, later fun c member => all c (by simp [member])]
          simp [utf8_nil]
      rw [List.cons_append, utf8_split (escaped c (by simp)), rest cs fun d member => escaped d (by simp [member])]
    · have above : 0x80 ≤ b := by
        rw [UInt8.lt_iff_toNat_lt] at ascii
        rw [UInt8.le_iff_toNat_le]
        omega
      have step := ih (h ++ [b])
      rw [high b above]
      simpa using step

/-- ASCII text in front or behind does not matter. -/
theorem utf8_ascii_append {a x : Bytes} (ascii : ∀ b ∈ a, b < 0x80) : Utf8 (a ++ x) ↔ Utf8 x := by
  induction a with
  | nil => rfl
  | cons b a ih =>
    have split := utf8_split (x := []) (y := a ++ x) (ascii b (by simp))
    rw [List.nil_append] at split
    rw [List.cons_append, split, ih fun c member => ascii c (by simp [member])]
    simp [utf8_nil]

theorem utf8_cons {b : UInt8} {x : Bytes} (ascii : b < 0x80) : Utf8 (b :: x) ↔ Utf8 x :=
  utf8_ascii_append (a := [b]) (by simpa using ascii)

theorem utf8_concat {b : UInt8} {x : Bytes} (ascii : b < 0x80) : Utf8 (x ++ [b]) ↔ Utf8 x := by
  rw [utf8_split ascii]
  simp [utf8_nil]

/-- A byte that goes on a character. -/
def isContinuation (b : UInt8) : Bool := 0x80 ≤ b && b < 0xC0

/-- How many bytes a first byte announces. -/
def announced (b : UInt8) : ℕ := if b < 0x80 then 0 else if b < 0xE0 then 1 else if b < 0xF0 then 2 else 3

/-- What stands here does not go on a character. -/
def Between (s : Bytes) : Prop := ∀ b ∈ s.head?, isContinuation b = false

theorem between_ascii {b : UInt8} (ascii : b < 0x80) (s : Bytes) : Between (b :: s) := by
  intro c head
  have same : c = b := by simpa using head.symm
  have low : b.toNat < 128 := by simpa [UInt8.lt_iff_toNat_lt] using ascii
  simp [same, isContinuation, UInt8.le_iff_toNat_le]
  omega

/-- The first byte of an encoding begins it, and the others go it on. -/
theorem encode_bytes (c : Char) : ∃ b t, String.utf8EncodeChar c = b :: t ∧ isContinuation b = false ∧
    (∀ x ∈ t, isContinuation x = true) ∧ t.length = announced b := by
  have same : c.val.toNat = c.toNat := rfl
  have small : c.toNat < 0x110000 := by
    rcases c.valid with low | ⟨-, high⟩
    · exact low.trans (by decide)
    · exact high
  unfold String.utf8EncodeChar
  simp only [same]
  split_ifs with one two three <;> refine ⟨_, _, rfl, ?_, ?_, ?_⟩ <;>
    simp [isContinuation, announced, UInt8.lt_iff_toNat_lt, UInt8.le_iff_toNat_le]
  all_goals first | omega | (split_ifs <;> omega)

/-- A valid text begins with a character. -/
theorem between_valid {s : Bytes} (valid : Utf8 s) : Between s := by
  obtain ⟨cs, rfl⟩ := valid
  intro b head
  cases cs with
  | nil => simp [utf8] at head
  | cons c cs =>
    obtain ⟨b', t, bytes, starts, -, -⟩ := encode_bytes c
    have same : b = b' := by simpa [utf8, bytes] using head.symm
    rw [same, starts]

/-- What follows a valid front of a valid text is valid. -/
theorem utf8_rest {x y : Bytes} (front : Utf8 x) (whole : Utf8 (x ++ y)) : Utf8 y := by
  obtain ⟨cs, rfl⟩ := front
  induction cs with
  | nil => exact whole
  | cons c cs ih =>
    obtain ⟨ds, text⟩ := whole
    obtain ⟨b, t, bytes, -, -, length⟩ := encode_bytes c
    cases ds with
    | nil => simp [utf8, bytes] at text
    | cons d ds =>
      -- The first byte tells the length of the character, so both texts begin with the same one.
      obtain ⟨b', t', bytes', -, -, length'⟩ := encode_bytes d
      simp only [utf8, List.flatMap_cons, bytes, bytes', List.cons_append, List.cons.injEq, List.append_assoc] at text
      obtain ⟨rfl, text⟩ := text
      exact ih ⟨ds, (List.append_inj text (length.trans length'.symm)).2⟩

/-- A text is cut into two just where no character goes on. -/
theorem utf8_cut {x y : Bytes} (whole : Utf8 (x ++ y)) : Utf8 x ↔ Between y := by
  constructor
  · exact fun front => between_valid (utf8_rest front whole)
  · intro between
    obtain ⟨ds, text⟩ := whole
    induction ds generalizing x with
    | nil =>
      have none : x ++ y = [] := text
      rw [(List.append_eq_nil_iff.mp none).1]
      exact utf8_nil
    | cons d ds ih =>
      obtain ⟨b, t, bytes, -, inside, -⟩ := encode_bytes d
      rw [utf8, List.flatMap_cons] at text
      rcases List.append_eq_append_iff.mp text with ⟨a, first, rest⟩ | ⟨a, first, rest⟩
      · -- The cut is in the first character, so before or after all of it.
        cases x with
        | nil => exact utf8_nil
        | cons b' x =>
          cases a with
          | nil => exact ⟨[d], by simpa [utf8] using first.symm⟩
          | cons c a =>
            rw [bytes] at first
            have goes : isContinuation c = true := inside c (by rw [(List.cons.inj first).2]; simp)
            have stops := between c (by simp [rest])
            rw [goes] at stops
            cases stops
      · rw [first]
        exact utf8_append ⟨[d], by simp [utf8]⟩ (ih rest.symm)

end Sa.Unicode
