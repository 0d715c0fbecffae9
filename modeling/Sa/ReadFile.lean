import Sa.DecimalTexts
import Sa.Editing

/-!
# Reading a file

`read_file_tool`: numbered lines from an offset up to a limit or to 256 KB.
-/

namespace Sa.ReadFile
open Sa.CStrings Sa.NumberTexts Sa.DecimalTexts Sa.Occurrences Sa.Editing

/-- The lines `getline` returns, each with its newline; `line` is what is read of the next one. -/
def getlines (line : Bytes) : Bytes → List Bytes
  | [] => if line = [] then [] else [line]
  | c :: s => if c = 10 then (line ++ [c]) :: getlines [] s else getlines (line ++ [c]) s

abbrev MAX_BYTES : Nat := 256 * 1024

/-- `%6ld` and a tab. -/
def numberPrefix (lineno : Nat) : Bytes :=
  List.replicate (6 - (natText lineno).length) 32 ++ natText lineno ++ [9]

/-- The bytes of a string literal in memory. -/
def literal (s : String) : Bytes := lit s ++ [0]

/-- `buf_append`. -/
def buf_append (out s : Bytes) (n : Nat) : Bytes := out ++ s.take n

structure read_t where
  out : Bytes
  lineno : Nat
  lines_read : Nat
  total : Nat

/-- The loop over the lines; `none` for a line with a NUL. -/
def readLoop (offset limit : Int) : List Bytes → read_t → Option read_t
  | [], st => some st
  | line :: lines, st =>
    if 0 ∈ line then none
    else
      let st := { st with lineno := st.lineno + 1 }
      if st.lineno < offset then readLoop offset limit lines st
      else if limit ≤ st.lines_read then some st
      else
        let pfx := numberPrefix st.lineno
        let st := { st with
          out := buf_append (buf_append st.out pfx pfx.length) line line.length
          lines_read := st.lines_read + 1
          total := st.total + pfx.length + line.length }
        if MAX_BYTES < st.total then
          some { st with out := buf_append st.out (literal "\n[truncated: 256KB cap reached]\n") 33 }
        else readLoop offset limit lines st

/-- The hint after as many lines as the limit allows; `t` has room for any two `long`s. -/
def limitHint (limit : Int) (lineno : Nat) : Bytes :=
  lit "\n[limit " ++ fmt_lld limit ++ lit " reached; use offset=" ++ natText lineno ++ lit " to continue]\n"

/-- `read_file_tool` on a file, or with the text of the error on opening it. -/
def read_file_tool (path : CString) (offset limit : Int) (file : Except CString Bytes) : Bytes :=
  let limit := if limit ≤ 0 then 2000 else limit
  let offset := if offset < 1 then 1 else offset
  match file with
  | .error strerror => snprintf 512 (lit "error: cannot open " ++ path.val ++ lit ": " ++ strerror.val)
  | .ok file =>
    match readLoop offset limit (getlines [] file) ⟨[], 0, 0, 0⟩ with
    | none => lit "error: binary file (NUL byte detected); use shell for binary reads"
    | some st =>
      if st.lines_read = 0 then
        if st.lineno = 0 then lit "(empty file)"
        else
          lit "error: offset " ++ fmt_lld offset ++ lit " beyond end (file has " ++ natText st.lineno ++ lit " lines)"
      else if st.lines_read = limit then
        let t := limitHint limit st.lineno
        (cstr (buf_append st.out t t.length)).val
      else (cstr st.out).val

/-- The lines of a file, each with its newline. -/
def linesOf (file : Bytes) : List Bytes := getlines [] file

/-- The lines from number `n` on with their numbers. -/
def numbered (n : ℕ) : List Bytes → Bytes
  | [] => []
  | line :: lines => numberPrefix n ++ line ++ numbered (n + 1) lines

/-- The first line that is returned. -/
def firstLine (offset : ℤ) : ℕ := (max offset 1).toNat

/-- The limit in effect. -/
def lineLimit (limit : ℤ) : ℕ := if limit ≤ 0 then 2000 else limit.toNat

/-- The lines from the first that is returned on. -/
def linesFrom (file : Bytes) (offset : ℤ) : List Bytes := (linesOf file).drop (firstLine offset - 1)

/-- The text of `k` lines. -/
def pageText (file : Bytes) (offset : ℤ) (k : ℕ) : Bytes := numbered (firstLine offset) ((linesFrom file offset).take k)

def truncatedNotice : Bytes := lit "\n[truncated: 256KB cap reached]\n"

theorem flatten_getlines (file : Bytes) : ∀ line, (getlines line file).flatten = line ++ file := by
  induction file with
  | nil =>
    intro line
    rw [getlines]
    split_ifs with empty <;> simp [empty]
  | cons c file ih =>
    intro line
    rw [getlines]
    split_ifs
    · simp [ih]
    · simp [ih]

theorem getlines_plain (file : Bytes) : ∀ line, 10 ∉ line → ∀ l ∈ getlines line file, l ≠ [] ∧ 10 ∉ l.dropLast := by
  induction file with
  | nil =>
    intro line plain l member
    rw [getlines] at member
    split_ifs at member with empty
    · simp at member
    · obtain rfl := List.mem_singleton.mp member
      exact ⟨empty, fun inside => plain (List.mem_of_mem_dropLast inside)⟩
  | cons c file ih =>
    intro line plain l member
    rw [getlines] at member
    split_ifs at member with newline
    · rcases List.mem_cons.mp member with rfl | later
      · exact ⟨by simp, by simpa using plain⟩
      · exact ih [] (by simp) l later
    · exact ih (line ++ [c]) (by simpa using ⟨plain, Ne.symm newline⟩) l member

/-- A line is not empty and has a newline at its end only. -/
theorem linesOf_plain {file l : Bytes} (member : l ∈ linesOf file) : l ≠ [] ∧ 10 ∉ l.dropLast :=
  getlines_plain file [] (by simp) l member

theorem linesOf_free {file : Bytes} (free : 0 ∉ file) : ∀ l ∈ linesOf file, 0 ∉ l := by
  intro l member inside
  refine free ?_
  rw [← List.nil_append file, ← flatten_getlines file []]
  exact List.mem_flatten.mpr ⟨l, member, inside⟩

theorem linesOf_ne_nil {file : Bytes} (some : file ≠ []) : linesOf file ≠ [] := by
  intro none
  have flat := flatten_getlines file []
  rw [← linesOf, none] at flat
  exact some (by simpa using flat.symm)

theorem numberPrefix_bytes (n : ℕ) : ∀ b ∈ numberPrefix n, b = 32 ∨ isdigit b = true ∨ b = 9 := by
  intro b member
  simp only [numberPrefix, List.mem_append, List.mem_singleton] at member
  rcases member with (blank | digit) | tab
  · exact .inl (List.eq_of_mem_replicate blank)
  · exact .inr (.inl (natText_digits n b digit))
  · exact .inr (.inr tab)

theorem numberPrefix_plain (n : ℕ) : ∀ b ∈ numberPrefix n, b ≠ 0 ∧ b ≠ 10 ∧ b ≠ 91 := by
  have all : ∀ b : UInt8, b = 32 ∨ isdigit b = true ∨ b = 9 → b ≠ 0 ∧ b ≠ 10 ∧ b ≠ 91 := by decide +kernel
  exact fun b member => all b (numberPrefix_bytes n b member)

theorem numberPrefix_ne_nil (n : ℕ) : numberPrefix n ≠ [] := by simp [numberPrefix]

theorem numbered_head (n : ℕ) (lines : List Bytes) : ∀ b ∈ (numbered n lines).head?, b ≠ 91 := by
  intro b first
  cases lines with
  | nil => cases first
  | cons line lines =>
    obtain ⟨c, rest, whole⟩ := List.exists_cons_of_ne_nil (numberPrefix_ne_nil n)
    simp only [numbered, whole, List.cons_append, List.head?_cons, Option.mem_some_iff] at first
    exact (numberPrefix_plain n b (by simp [whole, first])).2.2

/-- A newline within numbered text is followed by a line's number. -/
theorem numbered_unmarked (n : ℕ) (lines : List Bytes) (plain : ∀ l ∈ lines, 10 ∉ l.dropLast) :
    ¬[10, 91] <:+: numbered n lines := by
  induction lines generalizing n with
  | nil => simp [numbered]
  | cons line lines ih =>
    intro stands
    rcases pair_append (numbered_head (n + 1) lines) stands with first | rest
    · have inside := pair_after (fun member => (numberPrefix_plain n 10 member).2.1 rfl) first
      obtain ⟨s, t, same⟩ := inside
      refine plain line (by simp) ?_
      rw [← same]
      simp
    · exact ih (n + 1) (fun l member => plain l (by simp [member])) rest

theorem numbered_free (n : ℕ) (lines : List Bytes) (free : ∀ l ∈ lines, 0 ∉ l) : 0 ∉ numbered n lines := by
  induction lines generalizing n with
  | nil => simp [numbered]
  | cons line lines ih =>
    simp only [numbered, List.mem_append, not_or]
    exact ⟨⟨fun member => (numberPrefix_plain n 0 member).1 rfl, free line (by simp)⟩,
      ih (n + 1) fun l member => free l (by simp [member])⟩

theorem numbered_append (n : ℕ) (a b : List Bytes) : numbered n (a ++ b) = numbered n a ++ numbered (n + a.length) b := by
  induction a generalizing n with
  | nil => simp [numbered]
  | cons line a ih =>
    have next : n + 1 + a.length = n + (line :: a).length := by
      rw [List.length_cons]
      omega
    simp only [List.cons_append, numbered, ih, next, List.append_assoc]

theorem numbered_ne_nil (n : ℕ) {lines : List Bytes} (some : lines ≠ []) : numbered n lines ≠ [] := by
  obtain ⟨line, lines, rfl⟩ := List.exists_cons_of_ne_nil some
  simp [numbered, numberPrefix_ne_nil]

/-- More lines make a longer text. -/
theorem length_numbered_lt (n : ℕ) (lines : List Bytes) {j k : ℕ} (less : j < k) (within : k ≤ lines.length) :
    (numbered n (lines.take j)).length < (numbered n (lines.take k)).length := by
  have split : lines.take k = lines.take j ++ (lines.drop j).take (k - j) := by
    rw [← List.take_add]
    congr 1
    omega
  have some : (lines.drop j).take (k - j) ≠ [] := by
    refine List.ne_nil_of_length_pos ?_
    rw [List.length_take, List.length_drop]
    omega
  have positive := List.length_pos_of_ne_nil (numbered_ne_nil (n + (lines.take j).length) some)
  rw [split, numbered_append, List.length_append]
  omega

/-- The text tells how many lines it has. -/
theorem numbered_take_inj (n : ℕ) (lines : List Bytes) {j k : ℕ} (first : j ≤ lines.length) (second : k ≤ lines.length)
    (same : numbered n (lines.take j) = numbered n (lines.take k)) : j = k := by
  have lengths := congrArg List.length same
  rcases Nat.lt_trichotomy j k with less | equal | more
  · have := length_numbered_lt n lines less second
    omega
  · exact equal
  · have := length_numbered_lt n lines more first
    omega

/-! ### The loop -/

theorem readLoop_skip (offset limit : ℤ) (lines : List Bytes) : ∀ (m : ℕ) (st : read_t), (∀ l ∈ lines, 0 ∉ l) →
    m ≤ lines.length → (st.lineno + m : ℤ) < offset →
    readLoop offset limit lines st = readLoop offset limit (lines.drop m) { st with lineno := st.lineno + m } := by
  induction lines with
  | nil =>
    intro m st _ within _
    obtain rfl : m = 0 := by simpa using within
    rfl
  | cons line lines ih =>
    intro m st free within before
    cases m with
    | zero => rfl
    | succ m =>
      have earlier : ((st.lineno + 1 : ℕ) : ℤ) < offset := by
        push_cast at before ⊢
        omega
      rw [readLoop, if_neg (free line (by simp))]
      simp only [earlier, if_true]
      rw [ih m _ (fun l member => free l (by simp [member])) (by simpa using within) (by push_cast at before ⊢; omega)]
      simp only [List.drop_succ_cons, Nat.add_assoc, Nat.add_comm 1 m]

/-- What the loop makes of `k` lines that it returns. -/
def read_t.took (st : read_t) (lines : List Bytes) (k ahead : ℕ) (notice : Bytes) : read_t :=
  ⟨st.out ++ numbered (st.lineno + 1) (lines.take k) ++ notice, st.lineno + k + ahead, st.lines_read + k,
    st.total + (numbered (st.lineno + 1) (lines.take k)).length⟩

theorem numbered_cons_length (n : ℕ) (line : Bytes) (lines : List Bytes) (k : ℕ) :
    (numbered n ((line :: lines).take (k + 1))).length =
      (numberPrefix n).length + line.length + (numbered (n + 1) (lines.take k)).length := by
  rw [List.take_succ_cons, numbered, List.length_append, List.length_append]

/-- A line, and `k` more from the state after it. -/
theorem took_cons (st : read_t) (line : Bytes) (lines : List Bytes) (k ahead : ℕ) (notice : Bytes) :
    read_t.took ⟨st.out ++ numberPrefix (st.lineno + 1) ++ line, st.lineno + 1, st.lines_read + 1,
      st.total + (numberPrefix (st.lineno + 1)).length + line.length⟩ lines k ahead notice =
      st.took (line :: lines) (k + 1) ahead notice := by
  simp only [read_t.took, numbered_cons_length, read_t.mk.injEq]
  exact ⟨by simp [numbered], by omega, by omega, by omega⟩

/-- From the offset on the loop returns lines until the limit is reached, which it
    notices one line later, or the cap is passed, or the file ends. -/
theorem readLoop_lines (offset : ℤ) (limit : ℕ) (lines : List Bytes) : ∀ st : read_t, (∀ l ∈ lines, 0 ∉ l) →
    offset ≤ (st.lineno + 1 : ℕ) → st.lines_read ≤ limit → st.total ≤ MAX_BYTES →
    ∃ k ≤ lines.length, st.lines_read + k ≤ limit ∧
      (∀ j < k, st.total + (numbered (st.lineno + 1) (lines.take j)).length ≤ MAX_BYTES) ∧
      ((MAX_BYTES < st.total + (numbered (st.lineno + 1) (lines.take k)).length ∧
          readLoop offset limit lines st = some (st.took lines k 0 (truncatedNotice ++ [0]))) ∨
        (st.total + (numbered (st.lineno + 1) (lines.take k)).length ≤ MAX_BYTES ∧
          (k = lines.length ∨ st.lines_read + k = limit) ∧
          readLoop offset limit lines st = some (st.took lines k (if k < lines.length then 1 else 0) []))) := by
  induction lines with
  | nil =>
    intro st _ _ room small
    exact ⟨0, by simp, by omega, by simp, .inr ⟨by simpa [numbered] using small, .inl rfl, by simp [readLoop, read_t.took, numbered]⟩⟩
  | cons line lines ih =>
    intro st free reached room small
    have first : ¬(((st.lineno + 1 : ℕ) : ℤ) < offset) := by omega
    rw [readLoop, if_neg (free line (by simp))]
    simp only [if_neg first]
    by_cases full : (limit : ℤ) ≤ st.lines_read
    · refine ⟨0, by simp, by omega, by simp, .inr ⟨by simpa [numbered] using small, .inr (by omega), ?_⟩⟩
      simp [full, read_t.took, numbered]
    simp only [if_neg full, buf_append, List.take_length]
    have one : numbered (st.lineno + 1) [line] = numberPrefix (st.lineno + 1) ++ line := by simp [numbered]
    have size : (numbered (st.lineno + 1) [line]).length = (numberPrefix (st.lineno + 1)).length + line.length := by
      rw [one, List.length_append]
    by_cases cap : MAX_BYTES < st.total + (numberPrefix (st.lineno + 1)).length + line.length
    · refine ⟨1, by simp, by omega, fun j less => ?_, .inl ⟨?_, ?_⟩⟩
      · obtain rfl : j = 0 := by omega
        simpa [numbered] using small
      · rw [List.take_succ_cons, List.take_zero, size]
        omega
      · have notice : (literal "\n[truncated: 256KB cap reached]\n").take 33 = truncatedNotice ++ [0] := by decide +kernel
        rw [if_pos cap, notice, read_t.took, List.take_succ_cons, List.take_zero, size, one]
        simp [Nat.add_assoc]
    · rw [if_neg cap]
      obtain ⟨k, within, room', least, ends⟩ := ih ⟨st.out ++ numberPrefix (st.lineno + 1) ++ line, st.lineno + 1,
        st.lines_read + 1, st.total + (numberPrefix (st.lineno + 1)).length + line.length⟩
        (fun l member => free l (by simp [member])) (by simp only; omega) (by simp only; omega) (by simp only; omega)
      refine ⟨k + 1, by simpa using within, by simp only at room'; omega, fun j less => ?_, ?_⟩
      · cases j with
        | zero => simpa [numbered] using small
        | succ j =>
          have each := least j (by omega)
          rw [numbered_cons_length]
          simp only at each
          omega
      · rcases ends with ⟨over', loop⟩ | ⟨under, last, loop⟩
        · refine .inl ⟨?_, by rw [loop, took_cons]⟩
          rw [numbered_cons_length]
          simp only at over'
          omega
        · refine .inr ⟨?_, ?_, ?_⟩
          · rw [numbered_cons_length]
            simp only at under
            omega
          · simp only [List.length_cons] at last ⊢
            omega
          · rw [loop, took_cons, List.length_cons]
            simp only [Nat.add_lt_add_iff_right]

theorem firstLine_pos (offset : ℤ) : 0 < firstLine offset := by
  unfold firstLine
  omega

theorem lineLimit_pos (limit : ℤ) : 0 < lineLimit limit := by
  unfold lineLimit
  split_ifs <;> omega

theorem pageText_free {file : Bytes} (free : 0 ∉ file) (offset : ℤ) (k : ℕ) : 0 ∉ pageText file offset k :=
  numbered_free _ _ fun l member => linesOf_free free l (List.mem_of_mem_drop (List.mem_of_mem_take member))

theorem pageText_unmarked (file : Bytes) (offset : ℤ) (k : ℕ) : ¬[10, 91] <:+: pageText file offset k :=
  numbered_unmarked _ _ fun _ member => (linesOf_plain (List.mem_of_mem_drop (List.mem_of_mem_take member))).2

/-- What comes after the `[` of the hint. -/
def hintRest (limit lineno : ℕ) : Bytes :=
  lit "limit " ++ natText limit ++ lit " reached; use offset=" ++ natText lineno ++ lit " to continue]\n"

theorem limitHint_eq (limit lineno : ℕ) : limitHint limit lineno = 10 :: 91 :: hintRest limit lineno := by
  have text : fmt_lld limit = natText limit := by
    rw [fmt_lld, if_neg (by omega), Int.natAbs_natCast]
  rw [limitHint, text]
  rfl

theorem hintRest_plain (limit lineno : ℕ) : ∀ b ∈ hintRest limit lineno, b ≠ 0 ∧ b ≠ 91 := by
  have digits : ∀ n, ∀ b ∈ natText n, b ≠ 0 ∧ b ≠ 91 := by
    have all : ∀ b : UInt8, isdigit b = true → b ≠ 0 ∧ b ≠ 91 := by decide +kernel
    exact fun n b member => all b (natText_digits n b member)
  have words : ∀ b ∈ lit "limit " ++ lit " reached; use offset=" ++ lit " to continue]\n", b ≠ 0 ∧ b ≠ 91 := by decide +kernel
  intro b member
  simp only [hintRest, List.mem_append] at member words
  rcases member with (((word | digit) | word) | digit) | word
  · exact words b (.inl (.inl word))
  · exact digits limit b digit
  · exact words b (.inl (.inr word))
  · exact digits lineno b digit
  · exact words b (.inr word)

theorem limitHint_free (limit lineno : ℕ) : 0 ∉ limitHint limit lineno := by
  rw [limitHint_eq]
  simpa using fun member => (hintRest_plain limit lineno 0 member).1 rfl

theorem lineLimit_cast (limit : ℤ) : (if limit ≤ 0 then 2000 else limit) = (lineLimit limit : ℤ) := by
  unfold lineLimit
  split_ifs
  · rfl
  · omega

theorem firstLine_cast (offset : ℤ) : (if offset < 1 then 1 else offset) = (firstLine offset : ℤ) := by
  unfold firstLine
  split_ifs <;> omega

/-- A NUL ends what is copied. -/
theorem cstr_cut {b : Bytes} (free : 0 ∉ b) (rest : Bytes) : (cstr (b ++ 0 :: rest)).val = b := by
  have all : ∀ c ∈ b, (c != 0) = true := by
    intro c member
    have other : c ≠ 0 := fun zero => free (zero ▸ member)
    simpa using other
  change (b ++ 0 :: rest).takeWhile (· != 0) = b
  rw [List.takeWhile_append_of_pos all]
  simp

theorem truncatedNotice_free : 0 ∉ truncatedNotice := by decide +kernel

/-- What is returned after a loop that returned lines. -/
theorem read_file_ran (path : CString) (offset limit : ℤ) (file : Bytes) {st : read_t}
    (run : readLoop (firstLine offset) (lineLimit limit) (linesOf file) ⟨[], 0, 0, 0⟩ = some st) (taken : st.lines_read ≠ 0) :
    read_file_tool path offset limit (.ok file) =
      (cstr (st.out ++ if st.lines_read = lineLimit limit then limitHint (lineLimit limit) st.lineno else [])).val := by
  rw [linesOf] at run
  simp only [read_file_tool, lineLimit_cast, firstLine_cast, run, if_neg taken, buf_append, List.take_length, Nat.cast_inj]
  by_cases full : st.lines_read = lineLimit limit
  · simp only [if_pos full]
  · simp only [if_neg full, List.append_nil]

/-- A call that returns lines: how many, why no more, and the text. -/
theorem read_file_text (path : CString) (offset limit : ℤ) {file : Bytes} (free : 0 ∉ file)
    (inside : firstLine offset ≤ (linesOf file).length) :
    ∃ k, 0 < k ∧ k ≤ lineLimit limit ∧ k ≤ (linesFrom file offset).length ∧
      (∀ j < k, (pageText file offset j).length ≤ MAX_BYTES) ∧
      ((MAX_BYTES < (pageText file offset k).length ∧
          read_file_tool path offset limit (.ok file) = pageText file offset k ++ truncatedNotice) ∨
        ((pageText file offset k).length ≤ MAX_BYTES ∧
          (k = (linesFrom file offset).length ∨ k = lineLimit limit) ∧
          read_file_tool path offset limit (.ok file) = pageText file offset k ++
            if k = lineLimit limit then limitHint (lineLimit limit)
              (firstLine offset - 1 + k + if k < (linesFrom file offset).length then 1 else 0 : ℕ)
            else [])) := by
  have positive := firstLine_pos offset
  have limited := lineLimit_pos limit
  have lines := linesOf_free free
  obtain ⟨k, within, room, least, ends⟩ := readLoop_lines (firstLine offset) (lineLimit limit) (linesFrom file offset)
    ⟨[], firstLine offset - 1, 0, 0⟩ (fun l member => lines l (List.mem_of_mem_drop member)) (by simp only; omega)
    (by simp only; omega) (by simp only; omega)
  have next : firstLine offset - 1 + 1 = firstLine offset := by omega
  have body : numbered (firstLine offset) ((linesFrom file offset).take k) = pageText file offset k := rfl
  simp only [next, Nat.zero_add, read_t.took, List.nil_append, body, List.append_nil] at room least ends
  have rest : 0 < (linesFrom file offset).length := by
    rw [linesFrom, List.length_drop]
    omega
  have taken : 0 < k := by
    rcases Nat.eq_zero_or_pos k with rfl | taken
    · rcases ends with ⟨capped, -⟩ | ⟨-, last, -⟩
      · simp [pageText, numbered] at capped
      · omega
    · exact taken
  have skip := readLoop_skip (firstLine offset) (lineLimit limit) (linesOf file) (firstLine offset - 1) ⟨[], 0, 0, 0⟩ lines
    (by omega) (by simp only; omega)
  simp only [Nat.zero_add] at skip
  have plain := pageText_free free offset k
  refine ⟨k, taken, room, within, least, ?_⟩
  rcases ends with ⟨capped, loop⟩ | ⟨small, last, loop⟩
  · refine .inl ⟨capped, ?_⟩
    rw [read_file_ran path offset limit file (skip.trans loop) (Nat.ne_of_gt taken)]
    simp only [List.append_assoc, List.cons_append, List.nil_append]
    rw [← List.append_assoc]
    refine cstr_cut ?_ _
    rw [List.mem_append, not_or]
    exact ⟨plain, truncatedNotice_free⟩
  · refine .inr ⟨small, last, ?_⟩
    rw [read_file_ran path offset limit file (skip.trans loop) (Nat.ne_of_gt taken)]
    refine cstr_of_nulFree ?_
    by_cases full : k = lineLimit limit
    · simp only [if_pos full, List.mem_append, not_or]
      exact ⟨plain, limitHint_free _ _⟩
    · simpa only [if_neg full, List.append_nil] using plain

/-- The text is some lines from the first on, each with its number, and notices; if the
    file goes on after them, the notice of each limit that was met is there. -/
def Shown (file : Bytes) (offset limit : ℤ) (text : Bytes) : Prop :=
  ∃ k cap hint, 0 < k ∧ k ≤ (linesFrom file offset).length ∧ text = pageText file offset k ++ (cap ++ hint) ∧
    (cap = [] ∨ cap = truncatedNotice) ∧ (hint = [] ∨ ∃ lineno, hint = limitHint (lineLimit limit) lineno) ∧
    (k < (linesFrom file offset).length →
      (k = lineLimit limit → hint ≠ []) ∧ (MAX_BYTES < (pageText file offset k).length → cap ≠ []))

/-- The cap is passed on the last line that the limit allows, and the file goes on. -/
def BothMet (file : Bytes) (offset limit : ℤ) : Prop :=
  lineLimit limit < (linesFrom file offset).length ∧ MAX_BYTES < (pageText file offset (lineLimit limit)).length ∧
    (pageText file offset (lineLimit limit - 1)).length ≤ MAX_BYTES

/-- What follows the lines of a page begins with the mark of a notice, so the text
    tells where the lines end. -/
theorem page_split {file : Bytes} {offset : ℤ} {j k : ℕ} {s t : Bytes} (first : j ≤ (linesFrom file offset).length)
    (second : k ≤ (linesFrom file offset).length) (plain : 91 ∉ t)
    (same : pageText file offset j ++ s = pageText file offset k ++ 10 :: 91 :: t) (marked : s = [] ∨ ∃ r, s = 10 :: 91 :: r) :
    j = k ∧ s = 10 :: 91 :: t := by
  rcases marked with rfl | ⟨r, rfl⟩
  · refine absurd ?_ (pageText_unmarked file offset j)
    rw [List.append_nil] at same
    exact ⟨pageText file offset k, t, by rw [same]; simp⟩
  · rcases pair_cases (by decide) (pageText_unmarked file offset k) same with ⟨lines, rest⟩ | ⟨p, -, rest⟩
    · exact ⟨numbered_take_inj _ _ first second lines, by rw [rest]⟩
    · exact absurd (by simp [← rest]) plain

/-- Where both limits are met the hint is lost behind the NUL of the notice. -/
theorem both_hidden (path : CString) {offset limit : ℤ} {file : Bytes} (free : 0 ∉ file)
    (inside : firstLine offset ≤ (linesOf file).length) (both : BothMet file offset limit) :
    ¬Shown file offset limit (read_file_tool path offset limit (.ok file)) := by
  obtain ⟨more, large, small⟩ := both
  obtain ⟨k, taken, room, within, least, ends⟩ := read_file_text path offset limit free inside
  have full : k = lineLimit limit := by
    rcases Nat.lt_or_ge k (lineLimit limit) with fewer | enough
    · rcases ends with ⟨capped, -⟩ | ⟨-, last, -⟩
      · rcases Nat.lt_or_ge k (lineLimit limit - 1) with less | same
        · have shorter := length_numbered_lt (firstLine offset) (linesFrom file offset) less (by omega)
          simp only [pageText] at capped small
          omega
        · obtain rfl : k = lineLimit limit - 1 := by omega
          omega
      · omega
    · omega
  subst full
  rcases ends with ⟨-, text⟩ | ⟨under, -⟩
  · rw [text]
    rintro ⟨j, cap, hint, -, first, same, caps, hints, further⟩
    obtain ⟨t, notice, plain⟩ : ∃ t, truncatedNotice = 10 :: 91 :: t ∧ 91 ∉ t := ⟨_, rfl, by decide +kernel⟩
    have marked : cap ++ hint = [] ∨ ∃ r, cap ++ hint = 10 :: 91 :: r := by
      rcases caps with rfl | rfl
      · rcases hints with rfl | ⟨lineno, rfl⟩
        · exact .inl rfl
        · exact .inr ⟨_, by rw [List.nil_append, limitHint_eq]⟩
      · exact .inr ⟨_, by rw [notice]; rfl⟩
    rw [notice] at same
    obtain ⟨lines, rest⟩ := page_split first within plain same.symm marked
    have shown := (further (by omega)).1 lines
    rcases caps with rfl | rfl
    · rcases hints with rfl | ⟨lineno, rfl⟩
      · exact shown rfl
      · rw [List.nil_append, ← notice, limitHint_eq] at rest
        have third : some 108 = (truncatedNotice.drop 2).head? := congrArg (fun s : Bytes => (s.drop 2).head?) rest
        exact absurd third (by decide)
    · rw [← notice] at rest
      exact shown (List.append_right_eq_self.mp rest)
  · omega

/-- A page shows what it should unless both limits are met on one line. -/
theorem read_file_shown (path : CString) (offset limit : ℤ) (file : Bytes) (free : 0 ∉ file)
    (inside : firstLine offset ≤ (linesOf file).length) :
    Shown file offset limit (read_file_tool path offset limit (.ok file)) ↔ ¬BothMet file offset limit := by
  constructor
  · exact fun shown both => both_hidden path free inside both shown
  · intro apart
    obtain ⟨k, taken, room, within, least, ends⟩ := read_file_text path offset limit free inside
    rcases ends with ⟨capped, text⟩ | ⟨small, last, text⟩
    · refine ⟨k, truncatedNotice, [], taken, within, by rw [text, List.append_nil], .inr rfl, .inl rfl, fun more => ⟨?_, ?_⟩⟩
      · rintro rfl
        exact absurd ⟨more, capped, least _ (by omega)⟩ apart
      · exact fun _ => by decide
    · refine ⟨k, [], _, taken, within, by rw [text, List.nil_append], .inl rfl, ?_, fun more => ⟨?_, ?_⟩⟩
      · by_cases full : k = lineLimit limit
        · rw [if_pos full]
          exact .inr ⟨_, rfl⟩
        · rw [if_neg full]
          exact .inl rfl
      · intro full
        rw [if_pos full, limitHint_eq]
        simp
      · exact fun capped => by omega

theorem read_file_shown_two : Shown (lit "a\nb") 1 1 (read_file_tool (cs "f") 1 1 (.ok (lit "a\nb"))) ↔
    ¬BothMet (lit "a\nb") 1 1 :=
  read_file_shown (cs "f") 1 1 (lit "a\nb") (by decide) (by decide)

theorem getlines_newline (t : Bytes) : ∀ (line s : Bytes), 10 ∉ t →
    getlines line (t ++ 10 :: s) = (line ++ t ++ [10]) :: getlines [] s := by
  induction t with
  | nil =>
    intro line s _
    simp [getlines]
  | cons c t ih =>
    intro line s plain
    simp only [List.mem_cons, not_or] at plain
    rw [List.cons_append, getlines, if_neg (Ne.symm plain.1), ih (line ++ [c]) s plain.2]
    simp

theorem linesOf_two {t : Bytes} (plain : 10 ∉ t) : linesOf (t ++ 10 :: lit "y") = [t ++ [10], lit "y"] := by
  rw [linesOf, getlines_newline t [] _ plain]
  rfl

/-- With the limit 1 the hint after a line that passes the cap is not seen. -/
theorem long_line_hidden (path : CString) {t : Bytes} (plain : 10 ∉ t) (free : 0 ∉ t) (long : MAX_BYTES ≤ t.length) :
    ¬Shown (t ++ 10 :: lit "y") 1 1 (read_file_tool path 1 1 (.ok (t ++ 10 :: lit "y"))) := by
  have rest : linesFrom (t ++ 10 :: lit "y") 1 = [t ++ [10], lit "y"] := by
    rw [linesFrom, linesOf_two plain]
    rfl
  have one : lineLimit 1 = 1 := rfl
  have text : pageText (t ++ 10 :: lit "y") 1 1 = numberPrefix 1 ++ (t ++ [10]) ++ [] := by
    rw [pageText, rest]
    rfl
  refine both_hidden path ?_ ?_ ⟨?_, ?_, ?_⟩
  · have last : lit "y" = [121] := rfl
    simp [last, free]
  · simp [linesOf_two plain, firstLine]
  · simp [rest, one]
  · rw [one, text]
    simp only [List.length_append, List.length_singleton]
    omega
  · simp [pageText, one, numbered]

theorem read_file_hidden :
    ¬Shown (List.replicate MAX_BYTES 120 ++ 10 :: lit "y") 1 1
      (read_file_tool (cs "f") 1 1 (.ok (List.replicate MAX_BYTES 120 ++ 10 :: lit "y"))) :=
  long_line_hidden (cs "f") (by simp) (by simp) (by rw [List.length_replicate])

end Sa.ReadFile
