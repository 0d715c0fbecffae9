import Mathlib.Data.FinEnum
import Mathlib.Data.List.DropRight
import Sa.Http
import Sa.Occurrences

/-!
# Response headers

`http_read_headers` takes a header block and no byte of the body, and reads the
length line by line, but it looks for `chunked` in all that follows a
`Transfer-Encoding` line and in lower case only (`headers_exact`).
-/

namespace Sa.Headers
open Sa.CStrings Sa.NumberTexts Sa.Http Sa.Occurrences

/-- Bytes that can stand within one line of a header. -/
structure Plain (l : Bytes) : Prop where
  free : 0 ∉ l
  whole : ¬[13, 10] <:+: l

/-- The value of a line whose name is `name` in upper or lower case. -/
def valueOf (name l : Bytes) : Option Bytes :=
  if 58 ∈ l ∧ (l.takeWhile (· != 58)).map toLower = name then some ((l.dropWhile (· != 58)).drop 1) else none

/-- One of the codings of a value is `chunked` in upper or lower case. -/
def NamesChunked (value : Bytes) : Prop :=
  ∃ coding ∈ value.splitOn 44, ((coding.dropWhile isBlank).rdropWhile isBlank).map toLower = lit "chunked"

/-- A value of decimal digits between blanks, within a `long`. -/
def LengthText (value : Bytes) : Prop :=
  ∃ before ds after, value = before ++ ds ++ after ∧ before.all isBlank ∧ after.all isBlank ∧ ds ≠ [] ∧
    ds.all isdigit ∧ digitsOf 10 ds ≤ LONG_MAX

/-- The number that a `Content-Length` line gives. -/
def contentLength (l : Bytes) : Option ℕ :=
  (valueOf (lit "content-length") l).map fun value => digitsOf 10 ((value.dropWhile isBlank).takeWhile isdigit)

/-- The number in the last line that gives one, and `clen` without such a line. -/
def lastLength (clen : ℤ) (fields : List Bytes) : ℤ := ((fields.filterMap contentLength).getLast?).elim clen fun n => n

/-- The value of a `Transfer-Encoding` line itself names `chunked`. -/
def ChunkedNamed (fields : List Bytes) : Prop :=
  ∃ l ∈ fields, ∃ value ∈ valueOf (lit "transfer-encoding") l, NamesChunked value

instance (value : Bytes) : Decidable (NamesChunked value) :=
  inferInstanceAs (Decidable (∃ coding ∈ value.splitOn 44, _))

instance (fields : List Bytes) : Decidable (ChunkedNamed fields) :=
  inferInstanceAs (Decidable (∃ l ∈ fields, ∃ value ∈ valueOf (lit "transfer-encoding") l, NamesChunked value))

/-- The letters `chunked` in lower case stand anywhere in a `Transfer-Encoding` line
    or in a line after one. -/
def ChunkedFollows (fields : List Bytes) : Prop :=
  ∃ l rest, l :: rest <:+ fields ∧ (valueOf (lit "transfer-encoding") l).isSome ∧
    ∃ l' ∈ l :: rest, lit "chunked" <:+: l'

def statusLine (minor : UInt8) (code reason : Bytes) : Bytes := lit "HTTP/1." ++ minor :: 32 :: (code ++ reason)

/-- Lines with their ends, and the empty line. -/
def blockText (lines : List Bytes) : Bytes := lines.flatMap (fun l => l ++ [13, 10]) ++ [13, 10]

/-- A status line and any header lines, of fewer bytes than the buffer has. -/
structure HeaderBlock where
  minor : UInt8
  code : Bytes
  reason : Bytes
  fields : List Bytes
  minor_digit : isdigit minor
  code_length : code.length = 3
  code_digits : code.all isdigit
  reason_apart : ∀ b ∈ reason.head?, isdigit b = false
  reason_plain : Plain reason
  fields_plain : ∀ l ∈ fields, l ≠ [] ∧ Plain l
  fields_length : ∀ l ∈ fields, ∀ value ∈ valueOf (lit "content-length") l, LengthText value
  short : (blockText (statusLine minor code reason :: fields)).length < 8192

def HeaderBlock.lines (b : HeaderBlock) : List Bytes := statusLine b.minor b.code b.reason :: b.fields

def HeaderBlock.text (b : HeaderBlock) : Bytes := blockText b.lines

def HeaderBlock.status (b : HeaderBlock) : ℤ := digitsOf 10 b.code

/-- The block is taken whole and nothing of the body, and it is read line by line. -/
def HeadersExact (b : HeaderBlock) (body : Bytes) (io : Io) : Prop :=
  ∃ (chunked : Bool) (io' : Io),
    http_read_headers io 8192 = some ((b.status, chunked, lastLength (-1) b.fields), io') ∧
      (chunked = true ↔ ChunkedNamed b.fields) ∧ io'.data = body

theorem splitLine_line {l : Bytes} (whole : ¬[13, 10] <:+: l) (s : Bytes) :
    splitLine (l ++ 13 :: 10 :: s) = some (l, s) := by
  induction l with
  | nil => rfl
  | cons c l ih =>
    have rest := ih fun infix' => whole (infix'.trans (List.suffix_cons c l).isInfix)
    rw [List.cons_append, splitLine.eq_2]
    · rw [rest]
      rfl
    · intro t first second
      rcases l with _ | ⟨d, l⟩
      · simp at second
      · simp only [List.cons_append, List.cons.injEq] at second
        obtain ⟨rfl, -⟩ := second
        exact whole ⟨[], l, by simp [first]⟩

/-- A word without line ends stands in one of the lines. -/
theorem infix_blockText (word : Bytes) (some : word ≠ []) (cr : 13 ∉ word) (lf : 10 ∉ word) (lines : List Bytes) :
    word <:+: blockText lines ↔ ∃ l ∈ lines, word <:+: l := by
  induction lines with
  | nil =>
    simp only [List.not_mem_nil, false_and, exists_false, iff_false]
    intro stands
    obtain ⟨c, word, rfl⟩ := List.exists_cons_of_ne_nil some
    have member : c ∈ blockText [] := stands.subset (by simp)
    simp only [blockText, List.flatMap_nil, List.nil_append, List.mem_cons, List.not_mem_nil, or_false] at member
    rcases member with rfl | rfl
    · simp at cr
    · simp at lf
  | cons l lines ih =>
    have text : blockText (l :: lines) = l ++ 13 :: ([] ++ 10 :: blockText lines) := by simp [blockText]
    rw [text, infix_around cr, infix_around lf, ih]
    simp [some]

theorem blockText_cons (l : Bytes) (lines : List Bytes) : blockText (l :: lines) = l ++ 13 :: 10 :: blockText lines := by
  simp [blockText]

/-- The empty line stands at the end of a block and nowhere else. -/
theorem blank_line_last {lines : List Bytes} (plain : ∀ l ∈ lines, l ≠ [] ∧ ¬[13, 10] <:+: l) {p q : Bytes}
    (same : p ++ 13 :: 10 :: 13 :: 10 :: q = blockText lines) : q = [] := by
  induction lines generalizing p with
  | nil =>
    have size := congrArg List.length same
    simp [blockText] at size
    omega
  | cons l lines ih =>
    rw [blockText_cons] at same
    rcases pair_cases (by decide) (plain l (by simp)).2 same with ⟨-, next⟩ | ⟨p', -, next⟩
    · cases lines with
      | nil => simpa [blockText] using next
      | cons l' lines =>
        have nonempty := (plain l' (by simp)).1
        rw [blockText_cons, ← List.nil_append (13 :: _)] at next
        rcases pair_cases (by decide) (plain l' (by simp)).2 next with ⟨empty, -⟩ | ⟨p', start, -⟩
        · exact absurd empty.symm nonempty
        · simp at start
    · exact ih (fun l member => plain l (by simp [member])) next

theorem toLower_colon (b : UInt8) : toLower b = 58 ↔ b = 58 := by
  have all : ∀ b : UInt8, toLower b = 58 ↔ b = 58 := by decide +kernel
  exact all b

theorem take_name {name : Bytes} (apart : 58 ∉ name) (cr : 13 ∉ name) (l s : Bytes) :
    ((l ++ 13 :: s).take (name.length + 1)).map toLower = name ++ [58] ↔
      58 ∈ l ∧ (l.takeWhile (· != 58)).map toLower = name := by
  induction name generalizing l with
  | nil =>
    cases l with
    | nil => simp [toLower]
    | cons b l => by_cases colon : b = 58 <;> simp [colon, toLower_colon]
  | cons n name ih =>
    simp only [List.mem_cons, not_or] at apart cr
    cases l with
    | nil => simpa [toLower] using fun same : (13 : UInt8) = n => absurd same cr.1
    | cons b l =>
      have rest := ih apart.2 cr.2 l
      by_cases colon : b = 58
      · subst colon
        simpa [toLower] using fun same : (58 : UInt8) = n => absurd same apart.1
      · have before : 58 ≠ b := fun same => colon same.symm
        have head : ((b :: l ++ 13 :: s).take (name.length + 1 + 1)).map toLower = n :: name ++ [58] ↔
            toLower b = n ∧ ((l ++ 13 :: s).take (name.length + 1)).map toLower = name ++ [58] := by
          simp only [List.cons_append, List.take_succ_cons, List.map_cons, List.cons.injEq]
        rw [List.length_cons, head, rest]
        simp [colon, before, and_left_comm]

/-- The comparison with a name and its colon sees the name and the colon only. -/
theorem startsNoCase_line (name : Bytes) (apart : 58 ∉ name) (cr : 13 ∉ name) (l s : Bytes) :
    startsNoCase (name ++ [58]) (l ++ 13 :: s) = (valueOf name l).isSome := by
  have taken := take_name apart cr l s
  unfold startsNoCase valueOf
  rw [List.length_append, List.length_singleton]
  by_cases named : 58 ∈ l ∧ (l.takeWhile (· != 58)).map toLower = name
  · simp [named, taken.mpr named]
  · have other := fun same => named (taken.mp same)
    simp only [if_neg named, Option.isSome_none, beq_eq_false_iff_ne, ne_eq]
    exact other

theorem valueOf_drop {name l value : Bytes} (found : valueOf name l = some value) :
    name.length + 1 ≤ l.length ∧ l.drop (name.length + 1) = value := by
  unfold valueOf at found
  split_ifs at found with named
  obtain ⟨colon, same⟩ := named
  have size : (l.takeWhile (· != 58)).length = name.length := by rw [← same, List.length_map]
  have dropped : l.drop name.length = l.dropWhile (· != 58) := by
    conv_lhs => rw [← List.takeWhile_append_dropWhile (p := (· != 58)) (l := l), ← size, List.drop_left]
  have after : l.drop (name.length + 1) = value := by
    rw [← Option.some.inj found, ← List.drop_drop, dropped]
  have some : l.dropWhile (· != 58) ≠ [] := by
    rw [ne_eq, List.dropWhile_eq_nil_iff]
    intro all
    simpa using all 58 colon
  have positive := List.length_pos_of_ne_nil some
  rw [← dropped, List.length_drop] at positive
  exact ⟨by omega, after⟩

theorem isBlank_space {b : UInt8} (blank : isBlank b) : isspace b = true ∧ isdigit b = false := by
  have all : ∀ b : UInt8, isBlank b → isspace b = true ∧ isdigit b = false := by decide +kernel
  exact all b blank

theorem isdigit_plain {b : UInt8} (digit : isdigit b) : isspace b = false ∧ isBlank b = false ∧ b ≠ 45 ∧ b ≠ 43 := by
  have all : ∀ b : UInt8, isdigit b → isspace b = false ∧ isBlank b = false ∧ b ≠ 45 ∧ b ≠ 43 := by decide +kernel
  exact all b digit

theorem signOf_digit {d : UInt8} (digit : isdigit d) (s : Bytes) : signOf (d :: s) = (false, d :: s) := by
  have plain := isdigit_plain digit
  unfold signOf
  split
  · next same => exact absurd (List.cons.inj same).1 plain.2.2.1
  · next same => exact absurd (List.cons.inj same).1 plain.2.2.2
  · rfl

theorem takeWhile_digits {ds after : Bytes} (digits : ds.all isdigit) (apart : ∀ b ∈ after.head?, isdigit b = false) :
    (ds ++ after).takeWhile isdigit = ds ∧ (ds ++ after).dropWhile isdigit = after := by
  have all : ∀ b ∈ ds, isdigit b = true := by simpa using digits
  rw [List.takeWhile_append_of_pos all, List.dropWhile_append_of_pos all]
  cases after with
  | nil => simp
  | cons b after =>
    have stop := apart b rfl
    simp [stop]

/-- A number between blanks is read as its digits, up to the largest `long`. -/
theorem strtol10_digits (before : Bytes) {ds after : Bytes} (blanks : before.all isspace) (some : ds ≠ []) (digits : ds.all isdigit)
    (apart : ∀ b ∈ after.head?, isdigit b = false) :
    strtol10 (before ++ (ds ++ after)) = min LONG_MAX (digitsOf 10 ds) := by
  obtain ⟨d, ds, rfl⟩ := List.exists_cons_of_ne_nil some
  have digit : isdigit d := by
    simp only [List.all_cons, Bool.and_eq_true] at digits
    exact digits.1
  have spaces : (before ++ (d :: ds ++ after)).dropWhile isspace = d :: ds ++ after := by
    rw [List.dropWhile_append_of_pos (by simpa using blanks), List.cons_append,
      List.dropWhile_cons_of_neg (by simp [(isdigit_plain digit).1])]
  have low : LONG_MIN ≤ min LONG_MAX (digitsOf 10 (d :: ds) : ℤ) := by
    simp only [LONG_MIN, LONG_MAX]
    omega
  have taken := (takeWhile_digits digits apart).1
  unfold strtol10
  rw [spaces, List.cons_append, signOf_digit digit, ← List.cons_append]
  simp only [taken, Bool.false_eq_true, if_false]
  exact max_eq_right low

/-- `%d` takes the digits of a number. -/
theorem scanInt_digits (before : Bytes) {ds : Bytes} (after : Bytes) (blanks : before.all isspace) (some : ds ≠ []) (digits : ds.all isdigit)
    (apart : ∀ b ∈ after.head?, isdigit b = false) :
    scanInt (before ++ (ds ++ after)) = Option.some (asInt (min LONG_MAX (digitsOf 10 ds)), after) := by
  have value := strtol10_digits [] (by simp) some digits apart
  have taken := takeWhile_digits digits apart
  obtain ⟨d, ds, rfl⟩ := List.exists_cons_of_ne_nil some
  have digit : isdigit d := by
    simp only [List.all_cons, Bool.and_eq_true] at digits
    exact digits.1
  have spaces : (before ++ (d :: ds ++ after)).dropWhile isspace = d :: ds ++ after := by
    rw [List.dropWhile_append_of_pos (by simpa using blanks), List.cons_append,
      List.dropWhile_cons_of_neg (by simp [(isdigit_plain digit).1])]
  have unsigned : signOf (d :: ds ++ after) = (false, d :: ds ++ after) := signOf_digit digit _
  rw [List.nil_append] at value
  simp only [scanInt, spaces, unsigned, value, taken, reduceCtorEq, if_false]

theorem digitsOf_three {code : Bytes} (three : code.length = 3) (digits : code.all isdigit) : digitsOf 10 code < 1000 := by
  have small : ∀ b : UInt8, isdigit b → (hexVal b).getD 0 ≤ 9 := by decide +kernel
  obtain ⟨a, b, c, rfl⟩ := List.length_eq_three.mp three
  simp only [List.all_cons, List.all_nil, Bool.and_true, Bool.and_eq_true] at digits
  have first := small a digits.1
  have second := small b digits.2.1
  have third := small c digits.2.2
  simp only [digitsOf, List.foldl_cons, List.foldl_nil]
  omega

/-- `sscanf` finds the status of a status line. -/
theorem scanStatus_line {minor : UInt8} {code reason : Bytes} (digit : isdigit minor) (three : code.length = 3)
    (digits : code.all isdigit) (apart : ∀ b ∈ reason.head?, isdigit b = false) (s : Bytes) :
    scanStatus (statusLine minor code reason ++ 13 :: s) = some ((digitsOf 10 code : ℕ) : ℤ) := by
  have small := digitsOf_three three digits
  have some : code ≠ [] := List.ne_nil_of_length_pos (by omega)
  have text : statusLine minor code reason ++ 13 :: s = lit "HTTP/1." ++ ([] ++ ([minor] ++ ([32] ++ (code ++ (reason ++ 13 :: s))))) := by
    simp [statusLine]
  have after : ∀ b ∈ (reason ++ 13 :: s).head?, isdigit b = false := by
    cases reason with
    | nil => simp [isdigit]
    | cons b reason => simpa using apart b rfl
  have dropped : (lit "HTTP/1." ++ ([] ++ ([minor] ++ ([32] ++ (code ++ (reason ++ 13 :: s)))))).drop 7 =
      [] ++ ([minor] ++ ([32] ++ (code ++ (reason ++ 13 :: s)))) := rfl
  have version := scanInt_digits [] ([32] ++ (code ++ (reason ++ 13 :: s))) (by simp) (List.cons_ne_nil minor [])
    (by simpa using digit) (by simp [isdigit])
  have status := scanInt_digits [32] (reason ++ 13 :: s) (by decide) some digits after
  have whole : asInt (min LONG_MAX (digitsOf 10 code)) = (digitsOf 10 code : ℕ) := by
    simp only [asInt, LONG_MAX]
    omega
  unfold scanStatus
  rw [text, if_pos (List.prefix_append _ _), dropped, version]
  simp only [status, whole, Option.map_some]

/-! ### The scan -/

theorem lastLength_cons (clen : ℤ) (l : Bytes) (fields : List Bytes) :
    lastLength clen (l :: fields) = lastLength ((contentLength l).elim clen fun n => n) fields := by
  unfold lastLength
  cases found : contentLength l with
  | none => simp [found]
  | some n =>
    rw [List.filterMap_cons_some found, List.getLast?_cons]
    cases (fields.filterMap contentLength).getLast? <;> rfl

theorem chunkedFollows_cons (l : Bytes) (fields : List Bytes) :
    ChunkedFollows (l :: fields) ↔
      ((valueOf (lit "transfer-encoding") l).isSome ∧ ∃ l' ∈ l :: fields, lit "chunked" <:+: l') ∨ ChunkedFollows fields := by
  unfold ChunkedFollows
  constructor
  · rintro ⟨l₀, rest, tail, named, stands⟩
    rcases List.suffix_cons_iff.mp tail with same | tail
    · cases same
      exact .inl ⟨named, stands⟩
    · exact .inr ⟨l₀, rest, tail, named, stands⟩
  · rintro (⟨named, stands⟩ | ⟨l₀, rest, tail, named, stands⟩)
    · exact ⟨l, fields, List.suffix_refl _, named, stands⟩
    · exact ⟨l₀, rest, tail.trans (List.suffix_cons _ _), named, stands⟩

theorem valueOf_unique {name name' l : Bytes} (named : (valueOf name l).isSome) (other : name' ≠ name) :
    valueOf name' l = none := by
  unfold valueOf at named ⊢
  by_cases same : 58 ∈ l ∧ (l.takeWhile (· != 58)).map toLower = name
  · rw [if_neg]
    rintro ⟨-, same'⟩
    exact other (same'.symm.trans same.2)
  · simp [same] at named

/-- A line that gives a length gives the number that is read. -/
theorem strtol10_length {l : Bytes} (length : ∀ value ∈ valueOf (lit "content-length") l, LengthText value)
    (named : (valueOf (lit "content-length") l).isSome) (s : Bytes) :
    ∃ n : ℕ, contentLength l = some n ∧ strtol10 ((l ++ 13 :: s).drop 15) = n := by
  obtain ⟨value, found⟩ := Option.isSome_iff_exists.mp named
  obtain ⟨before, ds, after, rfl, blanks, trail, some, digits, fits⟩ := length value found
  obtain ⟨(size : 15 ≤ l.length), (dropped : l.drop 15 = _)⟩ := valueOf_drop found
  have trailing : ∀ b ∈ after.head?, isdigit b = false := by
    cases after with
    | nil => simp
    | cons b after =>
      simp only [List.all_cons, Bool.and_eq_true] at trail
      simpa using (isBlank_space trail.1).2
  have apart : ∀ b ∈ (after ++ 13 :: s).head?, isdigit b = false := by
    cases after with
    | nil => simp [isdigit]
    | cons b after => simpa using trailing b rfl
  have spaces : before.all isspace := by
    rw [List.all_eq_true] at blanks ⊢
    exact fun b member => (isBlank_space (blanks b member)).1
  have read := strtol10_digits before spaces some digits apart
  have stripped : (before ++ ds ++ after).dropWhile isBlank = ds ++ after := by
    obtain ⟨d, ds, rfl⟩ := List.exists_cons_of_ne_nil some
    simp only [List.all_cons, Bool.and_eq_true] at digits
    rw [List.append_assoc, List.dropWhile_append_of_pos (by simpa using blanks), List.cons_append,
      List.dropWhile_cons_of_neg (by simp [(isdigit_plain digits.1).2.1])]
  refine ⟨digitsOf 10 ds, ?_, ?_⟩
  · rw [contentLength, found, Option.map_some, stripped, (takeWhile_digits digits trailing).1]
  · rw [List.drop_append_of_le_length size, dropped, List.append_assoc, List.append_assoc, read, min_eq_right fits]

/-- The scan of a block's lines. -/
theorem scanHeaders_lines (lines : List Bytes) : ∀ (fuel : ℕ) (chunked : Bool) (clen : ℤ), lines.length < fuel →
    (∀ l ∈ lines, ¬[13, 10] <:+: l) → (∀ l ∈ lines, ∀ value ∈ valueOf (lit "content-length") l, LengthText value) →
    ∃ chunked', scanHeaders fuel (blockText lines) (chunked, clen) = (chunked', lastLength clen lines) ∧
      (chunked' = true ↔ chunked = true ∨ ChunkedFollows lines) := by
  induction lines with
  | nil =>
    intro fuel chunked clen enough _ _
    obtain ⟨fuel, rfl⟩ : ∃ f, fuel = f + 1 := ⟨fuel - 1, by simp at enough; omega⟩
    refine ⟨chunked, ?_, by simp [ChunkedFollows]⟩
    have last : ∀ found, scanHeaders fuel [] found = found := by
      intro found
      cases fuel <;> rfl
    exact last (chunked, clen)
  | cons l lines ih =>
    intro fuel chunked clen enough whole length
    obtain ⟨fuel, rfl⟩ : ∃ f, fuel = f + 1 := ⟨fuel - 1, by simp at enough; omega⟩
    have coding : startsNoCase (lit "transfer-encoding:") (blockText (l :: lines)) = (valueOf (lit "transfer-encoding") l).isSome := by
      rw [blockText_cons]
      exact startsNoCase_line (lit "transfer-encoding") (by decide) (by decide) l _
    have size : startsNoCase (lit "content-length:") (blockText (l :: lines)) = (valueOf (lit "content-length") l).isSome := by
      rw [blockText_cons]
      exact startsNoCase_line (lit "content-length") (by decide) (by decide) l _
    have rest := fun chunked clen => ih fuel chunked clen (by simp at enough; omega)
      (fun l member => whole l (by simp [member])) (fun l member => length l (by simp [member]))
    rw [scanHeaders, coding, size, lastLength_cons]
    simp only [chunkedFollows_cons]
    rw [blockText_cons, splitLine_line (whole l (by simp)), ← blockText_cons]
    by_cases coded : (valueOf (lit "transfer-encoding") l).isSome = true
    · have none : contentLength l = none := by
        rw [contentLength, valueOf_unique coded (by decide), Option.map_none]
      obtain ⟨chunked', scan, follows⟩ := rest (chunked || decide (lit "chunked" <:+: blockText (l :: lines))) clen
      refine ⟨chunked', by simpa only [coded, if_true, none, Option.elim_none] using scan, ?_⟩
      have stands := infix_blockText (lit "chunked") (by decide) (by decide) (by decide) (l :: lines)
      rw [follows, Bool.or_eq_true, decide_eq_true_iff, stands, or_assoc]
      simp only [coded, true_and]
    · by_cases sized : (valueOf (lit "content-length") l).isSome = true
      · obtain ⟨n, given, read⟩ := strtol10_length (length l (by simp)) sized (10 :: blockText lines)
        obtain ⟨chunked', scan, follows⟩ := rest chunked n
        refine ⟨chunked', ?_, by simpa only [coded, Bool.false_eq_true, false_and, false_or] using follows⟩
        rw [← blockText_cons] at read
        simpa only [coded, sized, if_true, Bool.false_eq_true, if_false, read, given, Option.elim_some] using scan
      · have none : contentLength l = none := by
          rw [contentLength, Option.not_isSome_iff_eq_none.mp sized, Option.map_none]
        obtain ⟨chunked', scan, follows⟩ := rest chunked clen
        refine ⟨chunked', ?_, by simpa only [coded, Bool.false_eq_true, false_and, false_or] using follows⟩
        simpa only [coded, sized, Bool.false_eq_true, if_false, none, Option.elim_none] using scan

theorem isdigit_byte {b : UInt8} (digit : isdigit b) : b ≠ 0 ∧ b ≠ 13 := by
  have all : ∀ b : UInt8, isdigit b → b ≠ 0 ∧ b ≠ 13 := by decide +kernel
  exact all b digit

theorem status_plain (b : HeaderBlock) : Plain (statusLine b.minor b.code b.reason) := by
  have code : ∀ d ∈ b.code, d ≠ 0 ∧ d ≠ 13 := fun d member => isdigit_byte (List.all_eq_true.mp b.code_digits d member)
  have minor := isdigit_byte b.minor_digit
  have text : statusLine b.minor b.code b.reason = (lit "HTTP/1." ++ [b.minor, 32] ++ b.code) ++ b.reason := by
    simp [statusLine]
  have first : ∀ c ∈ lit "HTTP/1." ++ [b.minor, 32] ++ b.code, c ≠ 0 ∧ c ≠ 13 := by
    intro c member
    simp only [List.mem_append, List.mem_cons, List.not_mem_nil, or_false] at member
    rcases member with (name | rfl | rfl) | digit
    · have all : ∀ c ∈ lit "HTTP/1.", c ≠ 0 ∧ c ≠ 13 := by decide +kernel
      exact all c name
    · exact minor
    · decide
    · exact code c digit
  rw [text]
  constructor
  · intro member
    rcases List.mem_append.mp member with before | reason
    · exact (first 0 before).1 rfl
    · exact b.reason_plain.free reason
  · exact fun stands => b.reason_plain.whole (pair_after (fun member => (first 13 member).2 rfl) stands)

theorem valueOf_status (b : HeaderBlock) {c : UInt8} {name : Bytes} (other : c ≠ 104) :
    valueOf (c :: name) (statusLine b.minor b.code b.reason) = none := by
  unfold valueOf
  rw [if_neg]
  rintro ⟨-, same⟩
  have start : statusLine b.minor b.code b.reason = 72 :: (lit "TTP/1." ++ b.minor :: 32 :: (b.code ++ b.reason)) := rfl
  rw [start, List.takeWhile_cons_of_pos (by decide), List.map_cons] at same
  exact other (List.cons.inj same).1.symm

theorem lines_plain (b : HeaderBlock) : ∀ l ∈ b.lines, l ≠ [] ∧ Plain l := by
  intro l member
  rcases List.mem_cons.mp member with rfl | field
  · exact ⟨by simp [statusLine, lit], status_plain b⟩
  · exact b.fields_plain l field

theorem lines_length (b : HeaderBlock) : ∀ l ∈ b.lines, ∀ value ∈ valueOf (lit "content-length") l, LengthText value := by
  intro l member
  rcases List.mem_cons.mp member with rfl | field
  · have none : valueOf (lit "content-length") (statusLine b.minor b.code b.reason) = none :=
      valueOf_status b (by decide)
    intro value found
    exact absurd (none.symm.trans found) (by simp)
  · exact b.fields_length l field

theorem blockText_free {lines : List Bytes} (free : ∀ l ∈ lines, 0 ∉ l) : 0 ∉ blockText lines := by
  simp only [blockText, List.mem_append, List.mem_flatMap, List.mem_cons, List.not_mem_nil, or_false]
  rintro (⟨l, member, line | cr | lf⟩ | cr | lf)
  · exact free l member line
  all_goals simp_all

theorem blockText_ends (lines : List Bytes) (some : lines ≠ []) : [13, 10, 13, 10] <:+ blockText lines := by
  obtain ⟨ls, l, rfl⟩ := (List.eq_nil_or_concat lines).resolve_left some
  exact ⟨ls.flatMap (fun l => l ++ [13, 10]) ++ l, by simp [blockText]⟩

theorem length_lines_lt (lines : List Bytes) : lines.length < (blockText lines).length := by
  induction lines with
  | nil => simp [blockText]
  | cons l lines ih =>
    rw [blockText_cons]
    simp only [List.length_append, List.length_cons]
    omega

/-- A block is taken whole, its status and its length are read right, and so is
    whether `chunked` follows a `Transfer-Encoding` line. -/
theorem headers_taken (b : HeaderBlock) (body : Bytes) (cuts : List ℕ) (sigs : List Bool) (g_interrupt : Bool) :
    ∃ (chunked : Bool) (io' : Io),
      http_read_headers ⟨b.text ++ body, cuts, sigs, g_interrupt⟩ 8192 =
          some ((b.status, chunked, lastLength (-1) b.fields), io') ∧
        (chunked = true ↔ ChunkedFollows b.fields) ∧ io'.data = body := by
  have plain := lines_plain b
  have whole : ∀ l ∈ b.lines, ¬[13, 10] <:+: l := fun l member => (plain l member).2.whole
  have ends := blockText_ends b.lines (by simp [HeaderBlock.lines])
  have short : b.text.length < 8192 := b.short
  obtain ⟨cuts', taken⟩ := read_until [13, 10, 13, 10] readHeaderBlock (fun _ _ _ => rfl) b.text 8191 [] body
    ⟨b.text ++ body, cuts, sigs, g_interrupt⟩ rfl
    (by rintro none; rw [← HeaderBlock.text, none] at ends; simp at ends) (by omega) ends
    (fun p q same => blank_line_last (fun l member => ⟨(plain l member).1, whole l member⟩) (by simpa [HeaderBlock.text] using same.symm))
  obtain ⟨chunked, scan, follows⟩ := scanHeaders_lines b.lines b.text.length false (-1) (length_lines_lt b.lines) whole
    (lines_length b)
  have coding : valueOf (lit "transfer-encoding") (statusLine b.minor b.code b.reason) = none :=
    valueOf_status b (by decide)
  have size : valueOf (lit "content-length") (statusLine b.minor b.code b.reason) = none := valueOf_status b (by decide)
  have free : (cstr ([] ++ b.text)).val = blockText b.lines :=
    cstr_of_nulFree (blockText_free fun l member => (plain l member).2.free)
  refine ⟨chunked, ⟨body, cuts', sigs, g_interrupt⟩, ?_, ?_, rfl⟩
  · have status := scanStatus_line b.minor_digit b.code_length b.code_digits b.reason_apart (10 :: blockText b.fields)
    rw [← blockText_cons] at status
    have found : scanStatus (blockText b.lines) = some b.status := status
    simp only [http_read_headers, taken, free, found]
    rw [HeaderBlock.text] at scan
    rw [scan, HeaderBlock.lines, lastLength_cons, contentLength, size]
    rfl
  · rw [follows, HeaderBlock.lines, chunkedFollows_cons, coding]
    simp

/-- A block is read exactly when the letters `chunked` follow a `Transfer-Encoding`
    line just where one of these lines names the coding. -/
theorem headers_exact (b : HeaderBlock) (body : Bytes) (cuts : List ℕ) (sigs : List Bool) (g_interrupt : Bool) :
    HeadersExact b body ⟨b.text ++ body, cuts, sigs, g_interrupt⟩ ↔ (ChunkedFollows b.fields ↔ ChunkedNamed b.fields) := by
  obtain ⟨chunked, io', read, follows, rest⟩ := headers_taken b body cuts sigs g_interrupt
  constructor
  · rintro ⟨chunked', io'', read', named, -⟩
    rw [read] at read'
    cases read'
    exact follows.symm.trans named
  · exact fun same => ⟨chunked, io', read, follows.trans same, rest⟩

/-- A reply of `200 OK` without a length. -/
def okBlock (fields : List Bytes) (plain : ∀ l ∈ fields, l ≠ [] ∧ 0 ∉ l ∧ ¬[13, 10] <:+: l)
    (none : ∀ l ∈ fields, valueOf (lit "content-length") l = none)
    (short : (blockText (statusLine 49 (lit "200") (lit " OK") :: fields)).length < 8192) : HeaderBlock where
  minor := 49
  code := lit "200"
  reason := lit " OK"
  fields := fields
  minor_digit := rfl
  code_length := rfl
  code_digits := rfl
  reason_apart := by decide +kernel
  reason_plain := ⟨by decide +kernel, by decide +kernel⟩
  fields_plain := fun l member => ⟨(plain l member).1, (plain l member).2.1, (plain l member).2.2⟩
  fields_length := fun l member value found => absurd ((none l member).symm.trans found) (by simp)
  short := short

/-- A coding and a note on chunks. -/
def notedBlock : HeaderBlock :=
  okBlock [lit "Transfer-Encoding: gzip", lit "X-Note: chunked"] (by decide +kernel) (by decide +kernel) (by decide +kernel)

/-- The coding in capital letters. -/
def capitalBlock : HeaderBlock :=
  okBlock [lit "Transfer-Encoding: Chunked"] (by decide +kernel) (by decide +kernel) (by decide +kernel)

/-- The note makes the body chunked, and the capital letter makes it not. -/
theorem headers_inexact :
    ¬HeadersExact notedBlock [] ⟨notedBlock.text ++ [], [], [], false⟩ ∧
      ¬HeadersExact capitalBlock [] ⟨capitalBlock.text ++ [], [], [], false⟩ := by
  constructor
  · rintro ⟨chunked, io', read, named, -⟩
    obtain ⟨chunked', io'', read', follows, -⟩ := headers_taken notedBlock [] [] [] false
    rw [read] at read'
    cases read'
    have noted : ChunkedFollows notedBlock.fields :=
      ⟨_, _, List.suffix_refl _, by decide +kernel, lit "X-Note: chunked", by decide +kernel, by decide +kernel⟩
    exact absurd (named.mp (follows.mpr noted)) (by decide +kernel)
  · rintro ⟨chunked, io', read, named, -⟩
    obtain ⟨chunked', io'', read', follows, -⟩ := headers_taken capitalBlock [] [] [] false
    rw [read] at read'
    cases read'
    obtain ⟨l, rest, tail, -, l', member, stands⟩ := follows.mp (named.mpr (by decide +kernel))
    have inside : l' ∈ capitalBlock.fields := tail.subset member
    rw [List.mem_singleton.mp inside] at stands
    exact absurd stands (by decide +kernel)

end Sa.Headers
