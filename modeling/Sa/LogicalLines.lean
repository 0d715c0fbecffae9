import Sa.ReadFile
import Sa.Skills

/-!
# The lines of front matter

`parse_frontmatter` reads pieces of at most 2047 bytes, so a line that is longer comes
to it as several. It goes by the lines of the file just when it ends before the second
piece of one (`front_matter_logical`).
-/

namespace Sa.LogicalLines
open Sa.CStrings Sa.Skills Sa.ReadFile

/-- The bytes of a line that fit into `line`. -/
abbrev window : ℕ := 2047

/-- The same loop over the lines of the file. -/
def byLines (file : Bytes) (sk : skill_t) : ℤ × skill_t := (scan (start sk) (getlines [] file)).result

/-- The pieces that the loop takes for lines, with the one it breaks at. -/
def handled : Scan → List Bytes → List Bytes
  | _, [] => []
  | st, line :: lines =>
    line :: match step st (cstr line) with
      | some st => handled st lines
      | none => []

/-- What stands before a piece is nothing or ends with a newline. -/
def AtLineStarts (pieces : List Bytes) : Prop :=
  ∀ before piece after, pieces = before ++ piece :: after → ∀ b ∈ before.flatten.getLast?, b = 10

/-- The result is that of the lines, and no place inside a line is taken for the start of one. -/
def Logical (file : Bytes) (sk : skill_t) : Prop :=
  parse_frontmatter (some file) sk = byLines file sk ∧ AtLineStarts (handled (start sk) (fgets 2048 [] file))

/-- The lines up to the one that ends the loop fit, or the first that does not ends it with what
    fits, where the lines from there on store nothing more. -/
def Fits : Scan → List Bytes → Prop
  | _, [] => True
  | st, line :: lines =>
    if line.length ≤ window then
      match step st (cstr line) with
      | some st => Fits st lines
      | none => True
    else step st (cstr (line.take window)) = none ∧ (scan st (line :: lines)).result = st.result

theorem fgets_line {l : Bytes} (one : 10 ∉ l) {size : ℕ} (line s : Bytes) (room : line.length + l.length + 2 ≤ size) :
    fgets size line (l ++ 10 :: s) = (line ++ l ++ [10]) :: fgets size [] s := by
  induction l generalizing line with
  | nil => simp [fgets]
  | cons c l ih =>
    simp only [List.mem_cons, not_or, List.length_cons] at one room
    rw [List.cons_append, fgets, if_neg (by
      rintro (newline | full)
      · exact one.1 newline.symm
      · omega), ih one.2 _ (by simp; omega)]
    simp

theorem fgets_full {l : Bytes} (one : 10 ∉ l) (some : l ≠ []) {size : ℕ} (line s : Bytes) (full : line.length + l.length + 1 = size) :
    fgets size line (l ++ s) = (line ++ l) :: fgets size [] s := by
  induction l generalizing line with
  | nil => exact absurd rfl some
  | cons c l ih =>
    simp only [List.mem_cons, not_or, List.length_cons] at one full
    rw [List.cons_append, fgets]
    cases l with
    | nil => rw [if_pos (.inr (by simpa using full)), List.nil_append]
    | cons d l =>
      simp only [List.length_cons] at full
      rw [if_neg (by
        rintro (newline | ended)
        · exact one.1 newline.symm
        · omega), ih one.2 (by simp) _ (by simp; omega)]
      simp

theorem fgets_end {l : Bytes} (one : 10 ∉ l) {size : ℕ} (line : Bytes) (some : line ++ l ≠ [])
    (room : line.length + l.length + 2 ≤ size) : fgets size line l = [line ++ l] := by
  induction l generalizing line with
  | nil =>
    rw [List.append_nil] at some ⊢
    rw [fgets, if_neg some]
  | cons c l ih =>
    simp only [List.mem_cons, not_or, List.length_cons] at one room
    rw [fgets, if_neg (by
      rintro (newline | full)
      · exact one.1 newline.symm
      · omega), ih one.2 _ (by simp) (by simp; omega)]
    simp

theorem fgets_some {size : ℕ} {s : Bytes} (some : s ≠ []) (line : Bytes) : fgets size line s ≠ [] := by
  induction s generalizing line with
  | nil => exact absurd rfl some
  | cons c s ih =>
    rw [fgets]
    split_ifs
    · simp
    · cases s with
      | nil => simp [fgets]
      | cons d s => exact ih (by simp) _

theorem getlines_end {l : Bytes} (one : 10 ∉ l) (some : l ≠ []) : getlines [] l = [l] := by
  have read : ∀ line, line ++ l ≠ [] → getlines line l = [line ++ l] := by
    induction l with
    | nil =>
      intro line some
      rw [List.append_nil] at some ⊢
      rw [getlines, if_neg some]
    | cons c l ih =>
      intro line _
      simp only [List.mem_cons, not_or] at one
      rw [getlines, if_neg (Ne.symm one.1)]
      cases l with
      | nil => simp [getlines]
      | cons d l =>
        rw [ih one.2 (by simp) _ (by simp)]
        simp
  exact read [] some

/-- A file is empty, or one line without its newline, or a line and the rest. -/
theorem lines_cases (s : Bytes) : s = [] ∨ (10 ∉ s ∧ s ≠ []) ∨ ∃ l rest, 10 ∉ l ∧ s = l ++ 10 :: rest := by
  by_cases newline : 10 ∈ s
  · obtain ⟨l, rest, whole, one⟩ := List.eq_append_cons_of_mem newline
    exact .inr (.inr ⟨l, rest, one, whole⟩)
  · rcases List.eq_nil_or_concat s with empty | ⟨t, c, whole⟩
    · exact .inl empty
    · exact .inr (.inl ⟨newline, by simp [whole]⟩)

theorem scan_cons (st : Scan) (line : Bytes) (lines : List Bytes) :
    scan st (line :: lines) = match step st (cstr line) with
      | some st => scan st lines
      | none => st := rfl

theorem atLineStarts_nil : AtLineStarts [] := by
  intro before piece after split
  simp at split

/-- The first piece stands at the start. -/
theorem atLineStarts_one (piece : Bytes) : AtLineStarts [piece] := by
  intro before piece' after split
  cases before with
  | nil => simp
  | cons l before => simp at split

/-- After a piece with its newline the others are pieces of the rest. -/
theorem atLineStarts_line (l : Bytes) (pieces : List Bytes) : AtLineStarts ((l ++ [10]) :: pieces) ↔ AtLineStarts pieces := by
  have last : ∀ before : List Bytes, (((l ++ [10]) :: before).flatten).getLast? = (before.flatten.getLast?).or (some 10) := by
    intro before
    rw [List.flatten_cons, List.getLast?_append]
    simp
  constructor
  · intro starts before piece after split b member
    apply starts ((l ++ [10]) :: before) piece after (by rw [split, List.cons_append])
    rw [last, Option.mem_def.mp member]
    rfl
  · intro starts before piece after split b member
    cases before with
    | nil => simp at member
    | cons first before =>
      obtain ⟨rfl, rest⟩ := List.cons.inj split
      rw [last] at member
      cases ended : before.flatten.getLast? with
      | none =>
        rw [ended] at member
        exact (Option.some.inj member).symm
      | some c =>
        rw [ended] at member
        cases member
        exact starts before piece after rest b ended

/-- After a piece without a newline the next one stands inside a line. -/
theorem atLineStarts_inside {w piece : Bytes} (one : 10 ∉ w) (some : w ≠ []) (pieces : List Bytes) :
    ¬AtLineStarts (w :: piece :: pieces) := by
  intro starts
  have newline := starts [w] piece pieces rfl _ (by simpa using List.getLast?_eq_some_getLast some)
  exact one (newline ▸ List.getLast_mem some)

/-- The loop takes a line that fits as the line algorithm does. -/
theorem handled_fits {st : Scan} {l : Bytes} {pieces lines : List Bytes} :
    ((scan st ((l ++ [10]) :: pieces)).result = (scan st ((l ++ [10]) :: lines)).result ∧
        AtLineStarts (handled st ((l ++ [10]) :: pieces))) ↔
      ∀ st', step st (cstr (l ++ [10])) = some st' →
        (scan st' pieces).result = (scan st' lines).result ∧ AtLineStarts (handled st' pieces) := by
  rw [scan_cons, scan_cons, handled]
  cases step st (cstr (l ++ [10])) with
  | none => simp [atLineStarts_one]
  | some st' => simp [atLineStarts_line]

/-- Of a line that does not fit the loop takes the beginning, and goes on inside the line unless it ends there. -/
theorem handled_cut {st : Scan} {w : Bytes} (one : 10 ∉ w) (some : w ≠ []) {pieces lines : List Bytes} (more : pieces ≠ []) :
    ((scan st (w :: pieces)).result = (scan st lines).result ∧ AtLineStarts (handled st (w :: pieces))) ↔
      step st (cstr w) = none ∧ (scan st lines).result = st.result := by
  rw [scan_cons, handled]
  obtain ⟨piece, pieces, rfl⟩ := List.exists_cons_of_ne_nil more
  cases step st (cstr w) with
  | none =>
    simp only [atLineStarts_one, and_true, true_and]
    exact eq_comm
  | some st' =>
    simp [handled, atLineStarts_inside one some]

/-- A line that fits, last in the file or not. -/
theorem fits_short (st : Scan) {line : Bytes} (short : line.length ≤ window) (lines : List Bytes) :
    Fits st (line :: lines) ↔ ∀ st', step st (cstr line) = some st' → Fits st' lines := by
  rw [Fits, if_pos short]
  cases step st (cstr line) <;> simp

theorem fits_long (st : Scan) {line : Bytes} (long : window < line.length) (lines : List Bytes) :
    Fits st (line :: lines) ↔ step st (cstr (line.take window)) = none ∧ (scan st (line :: lines)).result = st.result := by
  rw [Fits, if_neg (by omega)]

/-- A file whose first line does not fit is read as the beginning of that line and the rest. -/
theorem scan_long (st : Scan) {line s : Bytes} (prefix' : line.take window <+: s) (one : 10 ∉ line.take window)
    (long : window < line.length) (more : window < s.length) (lines : List Bytes) :
    ((scan st (fgets 2048 [] s)).result = (scan st (line :: lines)).result ∧ AtLineStarts (handled st (fgets 2048 [] s))) ↔
      Fits st (line :: lines) := by
  have length : (line.take window).length = window := by
    rw [List.length_take]
    omega
  have some : line.take window ≠ [] := by
    intro empty
    rw [empty] at length
    cases length
  obtain ⟨rest, rfl⟩ := prefix'
  have left : rest ≠ [] := by
    rintro rfl
    simp at more
  rw [fgets_full one some [] rest (by rw [length]; rfl), fits_long st long, List.nil_append]
  exact handled_cut one some (fgets_some left [])

/-- The result and the places are those of the lines just when the lines fit, from any state of the loop. -/
theorem scan_fgets (s : Bytes) : ∀ st, ((scan st (fgets 2048 [] s)).result = (scan st (getlines [] s)).result ∧
      AtLineStarts (handled st (fgets 2048 [] s))) ↔ Fits st (getlines [] s) := by
  induction size : s.length using Nat.strong_induction_on generalizing s with
  | _ n ih =>
    intro st
    have bytes : window = 2047 := rfl
    rcases lines_cases s with rfl | ⟨one, some⟩ | ⟨l, rest, one, rfl⟩
    · simp [fgets, getlines, handled, Fits, atLineStarts_nil]
    · rw [getlines_end one some]
      rcases Nat.lt_trichotomy s.length window with short | full | long
      · rw [fgets_end one [] some (by simp; omega), fits_short st short.le]
        cases found : step st (cstr s) <;> simp [handled, found, Fits, atLineStarts_one]
      · have whole : fgets 2048 [] (s ++ []) = [] ++ s :: fgets 2048 [] [] := fgets_full one some [] [] (by simp [full])
        rw [List.append_nil] at whole
        rw [whole, fits_short st full.le]
        cases found : step st (cstr s) <;> simp [handled, found, Fits, fgets, atLineStarts_one]
      · exact scan_long st (List.take_prefix _ _) (fun member => one (List.mem_of_mem_take member)) long long []
    · rw [getlines_newline l [] rest one, List.nil_append]
      have line : (l ++ [10]).length = l.length + 1 := by simp
      by_cases short : l.length + 1 ≤ window
      · rw [fgets_line one [] rest (by simp; omega), List.nil_append, handled_fits, fits_short st (line.trans_le short)]
        refine forall_congr' fun st' => imp_congr_right fun _ => ?_
        exact ih rest.length (by simp at size; omega) rest rfl st'
      · have cut : (l ++ [10]).take window = l.take window := List.take_append_of_le_length (by omega)
        refine scan_long st ?_ ?_ (by omega) (by simp; omega) _
        · rw [cut]
          exact (List.take_prefix _ _).trans (List.prefix_append _ _)
        · rw [cut]
          exact fun member => one (List.mem_of_mem_take member)

/-- `parse_frontmatter` goes by the lines of the file just when those it comes to fit, but for
    one at which it ends. -/
theorem front_matter_logical (file : Bytes) (sk : skill_t) : Logical file sk ↔ Fits (start sk) (getlines [] file) :=
  scan_fgets file (start sk)

/-- A line whose 2048th byte begins another key. -/
def cutLine : Bytes := List.replicate window 98 ++ lit "name: c"

def cutFile : Bytes := lit "---\nname: a\n" ++ cutLine

theorem fgets_cutFile : fgets 2048 [] cutFile = [lit "---\n", lit "name: a\n", List.replicate window 98, lit "name: c"] := by
  have first : cutFile = lit "---" ++ 10 :: (lit "name: a" ++ 10 :: cutLine) := by
    rw [cutFile]
    rfl
  rw [first, fgets_line (by decide) [] _ (by decide), fgets_line (by decide) [] _ (by decide), cutLine,
    fgets_full (by simp [List.mem_replicate]) (by simp) [] _ (by simp), fgets_end (by decide) [] (by decide) (by decide)]
  rfl

theorem getlines_cutFile : getlines [] cutFile = [lit "---\n", lit "name: a\n", cutLine] := by
  have first : cutFile = lit "---" ++ 10 :: (lit "name: a" ++ 10 :: cutLine) := by
    rw [cutFile]
    rfl
  have one : 10 ∉ cutLine := by
    simp only [cutLine, List.mem_append, List.mem_replicate, not_or]
    exact ⟨by simp, by decide⟩
  rw [first, getlines_newline _ [] _ (by decide), getlines_newline _ [] _ (by decide), getlines_end one (by simp [cutLine, lit])]
  rfl

theorem front_matter_cut : ¬∀ (file : Bytes) (sk : skill_t), 0 ∉ file → parse_frontmatter (some file) sk = byLines file sk := by
  intro same
  have read := same cutFile ⟨cs "", cs "", cs ""⟩ (by decide +kernel)
  rw [parse_frontmatter, byLines, fgets_cutFile, getlines_cutFile] at read
  revert read
  decide +kernel

end Sa.LogicalLines
