import Sa.ReadFile

/-!
# Paging through a file

Reading on from the offset that each page's hint gives. The hint of a page that ends
with the last line names that line once more, so every line is read once exactly
when the limit does not divide the number of lines (`pages_each_once`).
-/

namespace Sa.Paging
open Sa.CStrings Sa.NumberTexts Sa.DecimalTexts Sa.Occurrences Sa.Editing Sa.ReadFile

/-- Reading from an offset on: a page without a hint is the last, and after one with a
    hint comes the page that the hint tells to read. The pages without their hints. -/
inductive Paged (read : ℕ → Bytes) (limit : ℕ) : ℕ → List Bytes → Prop
  | last {offset : ℕ} : (∀ body lineno, read offset ≠ body ++ limitHint limit lineno) → Paged read limit offset [read offset]
  | more {offset lineno : ℕ} {body : Bytes} {pages : List Bytes} : read offset = body ++ limitHint limit lineno →
      Paged read limit lineno pages → Paged read limit offset (body :: pages)

def readPage (path : CString) (file : Bytes) (limit offset : ℕ) : Bytes := read_file_tool path offset limit (.ok file)

/-- Paging ends, the pages together are the numbered lines, and those before the last
    page, which carry a hint, are not all of them. -/
def EachLineOnce (path : CString) (file : Bytes) (limit : ℕ) : Prop :=
  ∃ pages, Paged (readPage path file limit) limit 1 pages ∧ pages.flatten = numbered 1 (linesOf file) ∧
    ∀ first rest, pages = first ++ rest → rest ≠ [] → first.flatten ≠ numbered 1 (linesOf file)

theorem hintRest_inj {limit a b : ℕ} (same : hintRest limit a = hintRest limit b) : a = b := by
  have digits := List.append_cancel_left (List.append_cancel_right same)
  rw [← digitsValue_natText a, digits, digitsValue_natText]

/-- The text of a page tells its lines and its hint. -/
theorem hint_split {file body : Bytes} {offset : ℤ} {k limit a b : ℕ}
    (same : body ++ limitHint limit a = pageText file offset k ++ limitHint limit b) : body = pageText file offset k ∧ a = b := by
  rw [limitHint_eq, limitHint_eq] at same
  rcases pair_cases (by decide) (pageText_unmarked file offset k) same with ⟨lines, rest⟩ | ⟨p, -, rest⟩
  · exact ⟨lines, hintRest_inj rest⟩
  · exact absurd rfl (hintRest_plain limit b 91 (by simp [← rest])).2

theorem no_hint {file : Bytes} (offset : ℤ) (k limit : ℕ) (body : Bytes) (lineno : ℕ) :
    pageText file offset k ≠ body ++ limitHint limit lineno := by
  intro same
  refine pageText_unmarked file offset k ⟨body, hintRest limit lineno, ?_⟩
  rw [same, limitHint_eq]
  simp

section
variable (path : CString) {file : Bytes} {limit : ℕ}

theorem firstLine_succ (m : ℕ) : firstLine ((m + 1 : ℕ) : ℤ) = m + 1 := by
  unfold firstLine
  omega

theorem linesFrom_succ (m : ℕ) : linesFrom file ((m + 1 : ℕ) : ℤ) = (linesOf file).drop m := by
  rw [linesFrom, firstLine_succ, Nat.add_sub_cancel]

theorem pageText_succ (m k : ℕ) : pageText file ((m + 1 : ℕ) : ℤ) k = numbered (m + 1) (((linesOf file).drop m).take k) := by
  rw [pageText, firstLine_succ, linesFrom_succ]

/-- A page of a file that goes on has the limit's number of lines and a hint; the last
    page has none unless it is full. -/
theorem readPage_text (free : 0 ∉ file) (positive : 1 ≤ limit) {m : ℕ} (inside : m < (linesOf file).length)
    (small : (pageText file ((m + 1 : ℕ) : ℤ) limit).length ≤ MAX_BYTES) :
    readPage path file limit (m + 1) =
      if (linesOf file).length - m < limit then numbered (m + 1) ((linesOf file).drop m)
      else pageText file ((m + 1 : ℕ) : ℤ) limit ++
        limitHint limit (m + limit + if limit < (linesOf file).length - m then 1 else 0 : ℕ) := by
  have bound : lineLimit (limit : ℤ) = limit := by
    unfold lineLimit
    split_ifs <;> omega
  have left : ((linesOf file).drop m).length = (linesOf file).length - m := List.length_drop
  obtain ⟨k, taken, room, within, -, ends⟩ := read_file_text path ((m + 1 : ℕ) : ℤ) limit free
    (by rw [firstLine_succ]; omega)
  rw [bound] at room ends
  rw [linesFrom_succ, left] at within ends
  rw [firstLine_succ, Nat.add_sub_cancel] at ends
  have shorter : (pageText file ((m + 1 : ℕ) : ℤ) k).length ≤ (pageText file ((m + 1 : ℕ) : ℤ) limit).length := by
    rw [pageText_succ, pageText_succ, ← List.take_append_drop k (((linesOf file).drop m).take limit), List.take_take,
      Nat.min_eq_left room, numbered_append, List.length_append]
    omega
  rcases ends with ⟨capped, -⟩ | ⟨-, last, text⟩
  · omega
  · rw [readPage, text]
    by_cases short : (linesOf file).length - m < limit
    · have all : k = (linesOf file).length - m := by omega
      rw [if_pos short, if_neg (by omega), List.append_nil, pageText_succ, all, ← left, List.take_length]
    · have full : k = limit := by omega
      rw [if_neg short, full, if_pos rfl]

/-- No page is empty, also without its hint. -/
theorem paged_some (free : 0 ∉ file) {m : ℕ} (inside : m < (linesOf file).length) {pages : List Bytes}
    (paged : Paged (readPage path file limit) limit (m + 1) pages) : pages.flatten ≠ [] := by
  obtain ⟨k, taken, -, within, -, ends⟩ := read_file_text path ((m + 1 : ℕ) : ℤ) limit free (by rw [firstLine_succ]; omega)
  obtain ⟨tail, text⟩ : ∃ tail, readPage path file limit (m + 1) = pageText file ((m + 1 : ℕ) : ℤ) k ++ tail := by
    rcases ends with ⟨-, text⟩ | ⟨-, -, text⟩
    · exact ⟨_, text⟩
    · exact ⟨_, text⟩
  obtain ⟨b, t, head, newline⟩ : ∃ b t, pageText file ((m + 1 : ℕ) : ℤ) k = b :: t ∧ b ≠ 10 := by
    have some : (linesFrom file ((m + 1 : ℕ) : ℤ)).take k ≠ [] := List.ne_nil_of_length_pos (by rw [List.length_take]; omega)
    obtain ⟨line, lines, more⟩ := List.exists_cons_of_ne_nil some
    obtain ⟨b, t, number⟩ := List.exists_cons_of_ne_nil (numberPrefix_ne_nil (firstLine ((m + 1 : ℕ) : ℤ)))
    refine ⟨b, _, by rw [pageText, more, numbered, number]; rfl, ?_⟩
    exact (numberPrefix_plain (firstLine ((m + 1 : ℕ) : ℤ)) b (by rw [number]; simp)).2.1
  cases paged with
  | last _ =>
    rw [text, head]
    simp
  | @more _ lineno body pages same _ =>
    rw [text, head, limitHint_eq] at same
    intro none
    rw [List.flatten_cons, List.append_eq_nil_iff] at none
    rw [none.1] at same
    exact newline (List.cons.inj same).1

theorem page_then_rest {m : ℕ} (full : limit ≤ (linesOf file).length - m) :
    numbered (m + 1) ((linesOf file).drop m) =
      pageText file ((m + 1 : ℕ) : ℤ) limit ++ numbered (m + limit + 1) ((linesOf file).drop (m + limit)) := by
  have size : (((linesOf file).drop m).take limit).length = limit := by
    rw [List.length_take, List.length_drop]
    omega
  have next : m + 1 + limit = m + limit + 1 := by omega
  rw [pageText_succ, ← List.drop_drop, ← next]
  conv_lhs => rw [← List.take_append_drop limit ((linesOf file).drop m), numbered_append, size]

/-- From a multiple of the limit on the pages are the lines that are left, if the limit
    does not divide the number of lines. -/
theorem paged_lines (free : 0 ∉ file) (positive : 1 ≤ limit)
    (small : ∀ i, (pageText file ((i * limit + 1 : ℕ) : ℤ) limit).length ≤ MAX_BYTES) (apart : ¬limit ∣ (linesOf file).length)
    (n : ℕ) : ∀ i, (linesOf file).length - i * limit ≤ n → i * limit < (linesOf file).length →
    ∃ pages, Paged (readPage path file limit) limit (i * limit + 1) pages ∧
      pages.flatten = numbered (i * limit + 1) ((linesOf file).drop (i * limit)) ∧
      ∀ first rest, pages = first ++ rest → rest ≠ [] →
        first.flatten.length < (numbered (i * limit + 1) ((linesOf file).drop (i * limit))).length := by
  induction n with
  | zero => intro i left inside; omega
  | succ n ih =>
    intro i left inside
    have text := readPage_text path free positive inside (small i)
    have some : (linesOf file).drop (i * limit) ≠ [] := by
      rw [ne_eq, List.drop_eq_nil_iff]
      omega
    have whole := List.length_pos_of_ne_nil (numbered_ne_nil (i * limit + 1) some)
    by_cases short : (linesOf file).length - i * limit < limit
    · rw [if_pos short] at text
      have all : pageText file ((i * limit + 1 : ℕ) : ℤ) ((linesOf file).length - i * limit) =
          numbered (i * limit + 1) ((linesOf file).drop (i * limit)) := by
        rw [pageText_succ, ← List.length_drop, List.take_length]
      refine ⟨[readPage path file limit (i * limit + 1)], .last fun body lineno => ?_, by simp [text], ?_⟩
      · rw [text, ← all]
        exact no_hint _ _ _ _ _
      · intro first rest split more
        cases first with
        | nil => simpa using whole
        | cons page first =>
          simp only [List.cons_append, List.cons.injEq, List.nil_eq, List.append_eq_nil_iff] at split
          exact absurd split.2.2 more
    · have further : limit < (linesOf file).length - i * limit := by
        rcases Nat.lt_or_ge limit ((linesOf file).length - i * limit) with less | same
        · exact less
        · exact absurd ⟨i + 1, by rw [Nat.mul_succ, Nat.mul_comm limit i]; omega⟩ apart
      have next : (i + 1) * limit = i * limit + limit := Nat.succ_mul i limit
      obtain ⟨pages, paged, same, shorter⟩ := ih (i + 1) (by omega) (by omega)
      rw [if_neg short, if_pos further, ← next] at text
      have split := @page_then_rest file limit (i * limit) (le_of_lt further)
      rw [← next] at split
      refine ⟨pageText file ((i * limit + 1 : ℕ) : ℤ) limit :: pages, .more text paged, by rw [List.flatten_cons, same, split], ?_⟩
      intro first rest parts more
      cases first with
      | nil => simpa using whole
      | cons page first =>
        obtain ⟨rfl, later⟩ := List.cons.inj parts
        have fewer := shorter first rest later more
        rw [split, List.flatten_cons, List.length_append, List.length_append]
        omega

/-- If it does, the last lines are read twice, however the reading ends. -/
theorem paged_twice (free : 0 ∉ file) (positive : 1 ≤ limit)
    (small : ∀ i, (pageText file ((i * limit + 1 : ℕ) : ℤ) limit).length ≤ MAX_BYTES) (divides : limit ∣ (linesOf file).length)
    (n : ℕ) : ∀ i, (linesOf file).length - i * limit ≤ n → i * limit < (linesOf file).length → ∀ pages,
    Paged (readPage path file limit) limit (i * limit + 1) pages →
      (numbered (i * limit + 1) ((linesOf file).drop (i * limit))).length < pages.flatten.length := by
  induction n with
  | zero => intro i left inside; omega
  | succ n ih =>
    intro i left inside pages paged
    have text := readPage_text path free positive inside (small i)
    obtain ⟨q, size⟩ := divides
    have full : limit ≤ (linesOf file).length - i * limit := by
      have more : i < q := by
        rw [size, Nat.mul_comm] at inside
        exact Nat.lt_of_mul_lt_mul_left inside
      have step := Nat.mul_le_mul_left limit more
      rw [Nat.mul_succ, Nat.mul_comm limit i] at step
      omega
    have split := page_then_rest full
    rw [if_neg (by omega)] at text
    cases paged with
    | last none => exact absurd text (none _ _)
    | @more _ lineno body pages same paged =>
      obtain ⟨rfl, rfl⟩ := hint_split (same.symm.trans text)
      have next : (i + 1) * limit = i * limit + limit := Nat.succ_mul i limit
      rw [split, List.flatten_cons, List.length_append, List.length_append]
      by_cases further : limit < (linesOf file).length - i * limit
      · rw [if_pos further, ← next] at paged
        have rest := ih (i + 1) (by omega) (by omega) pages paged
        rw [next] at rest
        omega
      · have last : i * limit + limit = (linesOf file).length := by omega
        rw [if_neg further, Nat.add_zero, last] at paged
        obtain ⟨m, count⟩ : ∃ m, (linesOf file).length = m + 1 := ⟨(linesOf file).length - 1, by omega⟩
        rw [count] at paged
        have some := List.length_pos_of_ne_nil (paged_some path free (by omega) paged)
        rw [last, List.drop_length, numbered, List.length_nil]
        omega

end

/-- Paging reads every line once and ends, exactly where the limit does not divide
    the number of lines. -/
theorem pages_each_once (path : CString) (file : Bytes) (limit : ℕ) (some : file ≠ []) (free : 0 ∉ file)
    (positive : 1 ≤ limit) (small : ∀ i, (pageText file ((i * limit + 1 : ℕ) : ℤ) limit).length ≤ MAX_BYTES) :
    EachLineOnce path file limit ↔ ¬limit ∣ (linesOf file).length := by
  have inside := List.length_pos_of_ne_nil (linesOf_ne_nil some)
  constructor
  · rintro ⟨pages, paged, whole, -⟩ divides
    have twice := paged_twice path free positive small divides (linesOf file).length 0 (by omega) (by omega) pages
      (by simpa using paged)
    rw [whole] at twice
    simp at twice
  · intro apart
    obtain ⟨pages, paged, whole, shorter⟩ := paged_lines path free positive small apart (linesOf file).length 0
      (by omega) (by omega)
    simp only [Nat.zero_mul, Nat.zero_add, List.drop_zero] at paged whole shorter
    refine ⟨pages, paged, whole, fun first rest split more same => ?_⟩
    have less := shorter first rest split more
    rw [same] at less
    exact Nat.lt_irrefl _ less

/-- Behind the last line the pages are empty. -/
theorem small_pages {file : Bytes} {limit n : ℕ} (all : (linesOf file).length ≤ n * limit)
    (few : ∀ i < n, (pageText file ((i * limit + 1 : ℕ) : ℤ) limit).length ≤ MAX_BYTES) (i : ℕ) :
    (pageText file ((i * limit + 1 : ℕ) : ℤ) limit).length ≤ MAX_BYTES := by
  by_cases within : i < n
  · exact few i within
  · have past : (linesOf file).length ≤ i * limit := all.trans (Nat.mul_le_mul_right limit (Nat.le_of_not_lt within))
    rw [pageText_succ, List.drop_eq_nil_of_le past, List.take_nil, numbered]
    exact Nat.zero_le _

/-- Three lines on two pages. -/
theorem pages_each_once_three : EachLineOnce (cs "f") (lit "a\nb\nc") 2 ↔ ¬2 ∣ (linesOf (lit "a\nb\nc")).length :=
  pages_each_once (cs "f") (lit "a\nb\nc") 2 (by decide) (by decide) (by decide)
    (@small_pages (lit "a\nb\nc") 2 2 (by decide) (by decide +kernel))

/-- The hint after both lines of a file tells to read the second again. -/
theorem page_repeated : ¬EachLineOnce (cs "f") (lit "a\nb") 2 := by
  rintro ⟨pages, paged, whole, -⟩
  have small := @small_pages (lit "a\nb") 2 1 (by decide) (by decide +kernel)
  have twice := paged_twice (cs "f") (by decide) (by decide) small (by decide) 2 0 (by decide) (by decide) pages paged
  rw [whole] at twice
  simp at twice

end Sa.Paging
