import Sa.ParserGrammar
import Sa.Unicode

/-!
# What a string literal is decoded to

A literal as the RFC composes it, of characters and escapes, with the scalar
values it denotes. The parser decodes everything but the two escapes that its
output cannot stand for: pairs of surrogates and U+0000 (`decodes_iff`).
-/

namespace Sa.StringDecoding
open Sa.CStrings Sa.JsonGrammar Sa.Parser Sa.ParserGrammar Sa.Unicode

/-- Four hexadecimal digits of either case. -/
structure HexDigits where
  d₁ : UInt8
  d₂ : UInt8
  d₃ : UInt8
  d₄ : UInt8
  digits : (hexVal d₁).isSome ∧ (hexVal d₂).isSome ∧ (hexVal d₃).isSome ∧ (hexVal d₄).isSome

def HexDigits.bytes (h : HexDigits) : Bytes := [h.d₁, h.d₂, h.d₃, h.d₄]
def HexDigits.value (h : HexDigits) : Nat :=
  ((hexVal h.d₁).getD 0 * 16 + (hexVal h.d₂).getD 0) * 256 + ((hexVal h.d₃).getD 0 * 16 + (hexVal h.d₄).getD 0)

inductive ShortEscape where
  | quotationMark | reverseSolidus | solidus | backspace | formFeed | lineFeed | carriageReturn | tab

def ShortEscape.letter : ShortEscape → UInt8
  | .quotationMark => 34
  | .reverseSolidus => 92
  | .solidus => 47
  | .backspace => 98
  | .formFeed => 102
  | .lineFeed => 110
  | .carriageReturn => 114
  | .tab => 116

def ShortEscape.char : ShortEscape → Char
  | .quotationMark => '\x22'
  | .reverseSolidus => '\x5C'
  | .solidus => '\x2F'
  | .backspace => '\x08'
  | .formFeed => '\x0C'
  | .lineFeed => '\x0A'
  | .carriageReturn => '\x0D'
  | .tab => '\x09'

/-- One character of a literal, written as itself or as an escape. -/
inductive Piece where
  | raw (c : {c : Char // c.toNat ≠ 34 ∧ c.toNat ≠ 92 ∧ 32 ≤ c.toNat})
  | short (escape : ShortEscape)
  | unicode (h : {h : HexDigits // h.value.isValidChar})
  | pair (high : {h : HexDigits // 0xD800 ≤ h.value ∧ h.value ≤ 0xDBFF})
      (low : {h : HexDigits // 0xDC00 ≤ h.value ∧ h.value ≤ 0xDFFF})

def Piece.text : Piece → Bytes
  | .raw c => String.utf8EncodeChar c
  | .short escape => [92, escape.letter]
  | .unicode h => 92 :: 117 :: h.val.bytes
  | .pair high low => 92 :: 117 :: (high.val.bytes ++ 92 :: 117 :: low.val.bytes)

/-- The scalar value that the piece denotes. -/
def Piece.char : Piece → Char
  | .raw c => c
  | .short escape => escape.char
  | .unicode h => Char.ofNat h.val.value
  | .pair high low => Char.ofNat (0x10000 + (high.val.value - 0xD800) * 0x400 + (low.val.value - 0xDC00))

/-- Neither a pair of surrogates nor `\u0000`. -/
def Piece.Plain : Piece → Prop
  | .unicode h => h.val.value ≠ 0
  | .pair _ _ => False
  | _ => True

/-- The bytes that the parser puts out for a piece. -/
def Piece.decoded : Piece → Bytes
  | .pair high low => encodeUtf8 high.val.value ++ encodeUtf8 low.val.value
  | p => String.utf8EncodeChar p.char

private theorem shift_or (a : Nat) {b : Nat} (digit : b < 16) : a <<< 4 ||| b = a * 16 + b := by
  rw [← Nat.shiftLeft_add_eq_or_of_lt (by simpa using digit), Nat.shiftLeft_eq]

theorem codepoint_value (h : HexDigits) : codepoint h.d₁ h.d₂ h.d₃ h.d₄ = some h.value := by
  obtain ⟨some₁, some₂, some₃, some₄⟩ := h.digits
  obtain ⟨a, v₁⟩ := Option.isSome_iff_exists.mp some₁
  obtain ⟨b, v₂⟩ := Option.isSome_iff_exists.mp some₂
  obtain ⟨c, v₃⟩ := Option.isSome_iff_exists.mp some₃
  obtain ⟨d, v₄⟩ := Option.isSome_iff_exists.mp some₄
  simp only [codepoint, HexDigits.value, v₁, v₂, v₃, v₄, Option.getD_some, shift_or _ (hexVal_lt v₁),
    shift_or _ (hexVal_lt v₂), shift_or _ (hexVal_lt v₃), shift_or _ (hexVal_lt v₄), Option.some.injEq]
  ring

theorem value_lt (h : HexDigits) : h.value < 0x10000 := by
  have bound : ∀ b : UInt8, (hexVal b).getD 0 < 16 := by
    intro b
    cases digit : hexVal b with
    | none => simp
    | some n => simpa using hexVal_lt digit
  have b₁ := bound h.d₁
  have b₂ := bound h.d₂
  have b₃ := bound h.d₃
  have b₄ := bound h.d₄
  unfold HexDigits.value
  omega

private theorem or_C0 : ∀ m : Fin 64, 0xC0 ||| m.val = m.val + 0xC0 := by decide
private theorem or_E0 : ∀ m : Fin 16, 0xE0 ||| m.val = m.val + 0xE0 := by decide
private theorem or_80 : ∀ m : Fin 64, 0x80 ||| m.val = m.val + 0x80 := by decide

private theorem low_bits (n : Nat) : 0x80 ||| n &&& 0x3F = n % 64 + 0x80 := by
  rw [show (0x3F : Nat) = 2 ^ 6 - 1 by rfl, Nat.and_two_pow_sub_one_eq_mod]
  exact or_80 ⟨n % 64, Nat.mod_lt _ (by norm_num)⟩

/-- Within sixteen bits the parser's encoding is UTF-8's. -/
theorem encodeUtf8_eq {c : Char} (small : c.toNat < 0x10000) : encodeUtf8 c.toNat = String.utf8EncodeChar c := by
  have same : c.val.toNat = c.toNat := rfl
  generalize c.toNat = n at small same
  unfold encodeUtf8 String.utf8EncodeChar
  simp only [same]
  by_cases one : n < 0x80
  · rw [if_pos one, if_pos (show n ≤ 0x7f by omega)]
  rw [if_neg one, if_neg (show ¬n ≤ 0x7f by omega)]
  by_cases two : n < 0x800
  · rw [if_pos two, if_pos (show n ≤ 0x7ff by omega), low_bits, Nat.shiftRight_eq_div_pow, or_C0 ⟨n / 2 ^ 6, by omega⟩,
      Nat.mod_eq_of_lt (a := n / 64) (by omega)]
  · rw [if_neg two, if_neg (show ¬n ≤ 0x7ff by omega), if_pos (show n ≤ 0xffff by omega), low_bits, low_bits, Nat.shiftRight_eq_div_pow,
      Nat.shiftRight_eq_div_pow, or_E0 ⟨n / 2 ^ 12, by omega⟩, Nat.mod_eq_of_lt (a := n / 4096) (by omega)]

private theorem stringLoop_raws {bs : Bytes} (plain : ∀ b ∈ bs, b ≠ 34 ∧ b ≠ 92) (s : Bytes) :
    stringLoop (bs ++ s) = (stringLoop s).map fun (out, s) => (bs ++ out, s) := by
  induction bs with
  | nil => simp
  | cons b bs ih =>
    obtain ⟨noQuote, noSlash⟩ := plain b (by simp)
    rw [List.cons_append, stringLoop_raw _ noQuote noSlash, ih fun c member => plain c (by simp [member])]
    cases stringLoop s <;> rfl

private theorem raw_bytes (c : {c : Char // c.toNat ≠ 34 ∧ c.toNat ≠ 92 ∧ 32 ≤ c.toNat}) :
    ∀ b ∈ String.utf8EncodeChar c.val, b ≠ 34 ∧ b ≠ 92 := by
  obtain ⟨c, noQuote, noSlash, -⟩ := c
  intro b member
  rcases encode_cases c with ⟨d, one, -, value⟩ | ⟨-, -, high⟩
  · rw [one, List.mem_singleton] at member
    subst member
    constructor <;> rintro rfl
    · exact noQuote value.symm
    · exact noSlash value.symm
  · have above := high b member
    constructor <;> rintro rfl <;> simp at above

private theorem stringLoop_unicode (h : HexDigits) (s : Bytes) :
    stringLoop (92 :: 117 :: (h.bytes ++ s)) = (stringLoop s).map fun (out, s) => (encodeUtf8 h.value ++ out, s) := by
  simp only [HexDigits.bytes, List.cons_append, List.nil_append, stringLoop, codepoint_value]

theorem stringLoop_piece (p : Piece) (s : Bytes) :
    stringLoop (p.text ++ s) = (stringLoop s).map fun (out, s) => (p.decoded ++ out, s) := by
  cases p with
  | raw c => exact stringLoop_raws (raw_bytes c) s
  | short escape =>
    cases escape <;> exact stringLoop_short s rfl
  | unicode h =>
    have value : (Char.ofNat h.val.value).toNat = h.val.value := toNat_ofNat h.property
    have encoding := encodeUtf8_eq (c := Char.ofNat h.val.value) (by rw [value]; exact value_lt h.val)
    rw [value] at encoding
    rw [Piece.text, List.cons_append, List.cons_append, stringLoop_unicode, encoding]
    rfl
  | pair high low =>
    simp only [Piece.text, List.cons_append, List.append_assoc, stringLoop_unicode, Piece.decoded]
    cases stringLoop s <;> simp

theorem parse_pieces (ps : List Piece) (r : Bytes) :
    cj_parse_string_raw (quoted (ps.flatMap Piece.text) ++ r) = some (ps.flatMap Piece.decoded, r) := by
  have loop : stringLoop (ps.flatMap Piece.text ++ 34 :: r) = some (ps.flatMap Piece.decoded, r) := by
    induction ps with
    | nil => simp [stringLoop]
    | cons p ps ih => rw [List.flatMap_cons, List.append_assoc, stringLoop_piece, ih]; rfl
  have text : quoted (ps.flatMap Piece.text) ++ r = 34 :: (ps.flatMap Piece.text ++ 34 :: r) := by simp [quoted]
  rw [text]
  exact loop

private theorem encode_nulFree {c : Char} (some : c.toNat ≠ 0) : 0 ∉ String.utf8EncodeChar c := by
  intro member
  rcases encode_cases c with ⟨d, one, -, value⟩ | ⟨-, -, high⟩
  · rw [one, List.mem_singleton] at member
    subst member
    exact some value.symm
  · have above := high 0 member
    simp at above

theorem plain_char {p : Piece} (plain : p.Plain) : p.char.toNat ≠ 0 ∧ p.decoded = String.utf8EncodeChar p.char := by
  cases p with
  | raw c =>
    have := c.property.2.2
    exact ⟨by simp only [Piece.char]; omega, rfl⟩
  | short escape => cases escape <;> exact ⟨by decide, rfl⟩
  | unicode h =>
    refine ⟨?_, rfl⟩
    rw [Piece.char, toNat_ofNat h.property]
    exact plain
  | pair high low => cases plain

/-- The first byte that the parser puts out for a surrogate. -/
private theorem surrogate_head {n : Nat} (low : 0xD800 ≤ n) (high : n ≤ 0xDFFF) : ∃ t, encodeUtf8 n = 0xED :: t := by
  have three : encodeUtf8 n =
      [UInt8.ofNat (0xE0 ||| n >>> 12), UInt8.ofNat (0x80 ||| n >>> 6 &&& 0x3F), UInt8.ofNat (0x80 ||| n &&& 0x3F)] := by
    unfold encodeUtf8
    rw [if_neg (by omega), if_neg (by omega)]
  rw [three, Nat.shiftRight_eq_div_pow n 12, show n / 2 ^ 12 = 13 by omega]
  exact ⟨_, rfl⟩

/-- A character above the sixteen bits begins with another byte. -/
private theorem encode_four {c : Char} (large : 0x10000 ≤ c.toNat) : ∃ b t, String.utf8EncodeChar c = b :: t ∧ 0xF0 ≤ b := by
  have same : c.val.toNat = c.toNat := rfl
  unfold String.utf8EncodeChar
  simp only [same]
  rw [if_neg (by omega), if_neg (by omega), if_neg (by omega)]
  refine ⟨_, _, rfl, ?_⟩
  simp [UInt8.le_iff_toNat_le]
  omega

/-- The decoded C string is the UTF-8 of what the literal denotes exactly when
    the literal has neither a pair of surrogates nor a `\u0000`. The literal is
    accepted, and left just after its closing quote, in any case. -/
theorem decodes_iff (ps : List Piece) (r : Bytes) :
    (∃ out, cj_parse_string_raw (quoted (ps.flatMap Piece.text) ++ r) = some (out, r) ∧
        (cstr out).val = utf8 (ps.map Piece.char)) ↔ ∀ p ∈ ps, p.Plain := by
  have reduced : (∃ out, cj_parse_string_raw (quoted (ps.flatMap Piece.text) ++ r) = some (out, r) ∧
      (cstr out).val = utf8 (ps.map Piece.char)) ↔
        (ps.flatMap Piece.decoded).takeWhile (· != 0) = utf8 (ps.map Piece.char) := by
    rw [parse_pieces]
    simp [cstr]
  rw [reduced]
  clear reduced
  induction ps with
  | nil => simp [utf8]
  | cons p ps ih =>
    have spec : utf8 ((p :: ps).map Piece.char) = String.utf8EncodeChar p.char ++ utf8 (ps.map Piece.char) := by
      simp [utf8]
    rw [List.flatMap_cons, spec, List.forall_mem_cons]
    by_cases plain : p.Plain
    · obtain ⟨some, decoded⟩ := plain_char plain
      have free : ∀ b ∈ String.utf8EncodeChar p.char, (b != 0) = true := by
        intro b member
        have : b ≠ 0 := by rintro rfl; exact encode_nulFree some member
        simpa using this
      rw [decoded, List.takeWhile_append_of_pos free, List.append_cancel_left_eq]
      simpa [plain] using ih
    · simp only [plain, false_and, iff_false]
      intro same
      cases p with
      | raw c => exact plain trivial
      | short escape => exact plain trivial
      | unicode h =>
        have zero : h.val.value = 0 := by
          by_contra some
          exact plain some
        simp [Piece.decoded, Piece.char, zero, String.utf8EncodeChar] at same
      | pair high low =>
        obtain ⟨t, first⟩ := surrogate_head (n := high.val.value) high.property.1 (by have := high.property.2; omega)
        have scalar : (0x10000 + (high.val.value - 0xD800) * 0x400 + (low.val.value - 0xDC00)).isValidChar := by
          have := high.property
          have := low.property
          exact .inr ⟨by omega, by omega⟩
        obtain ⟨b, t', four, above⟩ := encode_four (c := Piece.char (.pair high low)) (by
          rw [Piece.char, toNat_ofNat scalar]
          omega)
        rw [four, Piece.decoded, first] at same
        simp only [List.cons_append] at same
        rw [List.takeWhile_cons_of_pos (by decide)] at same
        have head := (List.cons.inj same).1
        rw [← head] at above
        exact absurd above (by decide)

/-- U+1F600 as a pair of escapes comes out as six bytes that are no UTF-8. -/
theorem pair_not_decoded : ¬ ∀ (ps : List Piece) (r : Bytes),
    ∃ out, cj_parse_string_raw (quoted (ps.flatMap Piece.text) ++ r) = some (out, r) ∧
      (cstr out).val = utf8 (ps.map Piece.char) := by
  intro decodes
  let high : HexDigits := ⟨100, 56, 51, 100, by decide⟩
  let low : HexDigits := ⟨100, 101, 48, 48, by decide⟩
  obtain ⟨out, read, same⟩ := decodes [.pair ⟨high, by decide⟩ ⟨low, by decide⟩] []
  have decoded := (Prod.mk.inj (Option.some.inj ((parse_pieces _ _).symm.trans read))).1
  subst decoded
  exact absurd same (by decide +kernel)

end Sa.StringDecoding
