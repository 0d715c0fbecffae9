import Sa.Folding
import Sa.FrontMatter
import Sa.RulePaths

/-!
# Block scalars

A name or a description that front matter gives as a block scalar. It is kept whole
when no blank line without an indent stands between its lines, none of them reads `---`,
none is between quotes, and no later line is taken for its key (`block_scalar_kept`).
-/

namespace Sa.BlockScalars
open Sa.CStrings Sa.Rules Sa.RulePaths Sa.Skills Sa.LogicalLines Sa.FrontMatter Sa.Folding

/-- The indentation digit and the chomping sign after `>` or `|`, in either order. -/
def Indicators (s : Bytes) : Prop :=
  ∃ digit sign : Bytes, (digit = [] ∨ ∃ d, 49 ≤ d ∧ d ≤ 57 ∧ digit = [d]) ∧ (sign = [] ∨ sign = [43] ∨ sign = [45]) ∧
    (s = digit ++ sign ∨ s = sign ++ digit)

/-- A skill file whose front matter gives a field as a block scalar. -/
structure BlockFile where
  opening : Bytes
  before : List Bytes
  field : SkillField
  gap : Bytes
  fold : Bool
  indicators : Bytes
  tail : Bytes
  lines : List Bytes
  rest : Bytes
  opening_blank : LineBytes opening ∧ bare opening = []
  before_other : ∀ l ∈ before, LineBytes l ∧ ∀ t, l = lit "---" ++ t → bare t ≠ []
  gap_blank : gap ≠ [] ∧ gap.all isBlank
  indicators_form : Indicators indicators
  tail_ends : LineTail tail
  lines_block : ∀ l ∈ lines, LineBytes l ∧ (bare l = [] ∨ l.head?.any isBlank = true)
  rest_next : ∃ b ∈ rest.head?, isEnd b = false

namespace BlockFile

variable (b : BlockFile)

/-- The lines before the key. -/
def front : List Bytes := (lit "---" ++ b.opening) :: b.before

/-- The line of the key. -/
def header : Bytes := b.field.key.val ++ 58 :: (b.gap ++ (if b.fold then 62 else 124) :: (b.indicators ++ b.tail))

end BlockFile

/-- Lines with their newlines. -/
def text (lines : List Bytes) : Bytes := lines.flatMap fun l => l ++ [10]

def BlockFile.file (b : BlockFile) : Bytes := text b.front ++ text [b.header] ++ text b.lines ++ b.rest

/-- The loop goes over the block to what follows it, and takes nothing but blank lines of it for keys. -/
def Passed (b : BlockFile) (sk : skill_t) : Prop :=
  ∃ before key after, run (start sk) (fgets 2048 [] (text b.front)) = some before ∧
    run before (fgets 2048 [] (text [b.header])) = some key ∧
    run key (fgets 2048 [] (text b.lines)) = some after ∧
    ∀ l ∈ keyLines key (fgets 2048 [] (text b.lines)), bare l = []

/-- The file without the lines of the block. -/
def BlockFile.emptied (b : BlockFile) : Bytes := text b.front ++ text [b.header] ++ b.rest

/-- The loop passes over the block; the field it stores is a prefix of the joined lines, all of them with
    two bytes to spare; and the other field is what it is without the block. -/
structure Kept (b : BlockFile) (sk : skill_t) : Prop where
  passed : Passed b sk
  prefixed : (b.field.get (parse_frontmatter (some b.file) sk).2).val <+: joined b.fold b.lines
  whole : (joined b.fold b.lines).length + 2 ≤ b.field.size →
    (b.field.get (parse_frontmatter (some b.file) sk).2).val = joined b.fold b.lines
  others : ∀ other ≠ b.field,
    other.get (parse_frontmatter (some b.file) sk).2 = other.get (parse_frontmatter (some b.emptied) sk).2

/-- The line of the key and those of the block come to the loop whole. -/
def Short (b : BlockFile) : Prop := ∀ l ∈ b.header :: b.lines, l.length < window

instance (b : BlockFile) : Decidable (Short b) := inferInstanceAs (Decidable (∀ l ∈ _, _))

/-- What is needed for the loop to get through the block. -/
structure Whole (b : BlockFile) : Prop where
  /-- No line before the key, and no piece of one, is taken for the end of the front matter. -/
  front : ∀ piece ∈ fgets 2048 [] (text b.before), trim (cstr piece) ≠ cs "---"
  /-- There is nothing after `>` or `|`, or a sign first. -/
  style : b.indicators = [] ∧ bare b.tail = [] ∨ ∃ c ∈ b.indicators.head?, c = 43 ∨ c = 45
  /-- Nor is a line of the block taken for that end. -/
  inside : ∀ l ∈ b.lines, unquote (bare l) ≠ lit "---"
  /-- After a line without an indent there are only blank ones. -/
  gaps : ∀ between l after, b.lines = between ++ l :: after → l.head?.any isBlank = false → ∀ m ∈ after, bare m = []

/-- No line after the block in which the loop looks for a key has that of the field. -/
def Once (b : BlockFile) : Prop := ∀ l ∈ keyLines outside (fgets 2048 [] b.rest), given (trim (cstr l)) ≠ some b.field

instance (b : BlockFile) : Decidable (Once b) := inferInstanceAs (Decidable (∀ l ∈ _, _))

/-- No line for which there is room in the field is between quotes. -/
def Unquoted (b : BlockFile) : Prop :=
  ∀ between l after, b.lines = between ++ l :: after → bare l ≠ [] → Room b.field.size (joined b.fold between) →
    unquote (bare l) = bare l

/-- A line as the loop gets it. -/
def piece (l : Bytes) : CString := cstr (l ++ [10])

theorem piece_val {l : Bytes} (line : LineBytes l) : (piece l).val = l ++ [10] :=
  cstr_of_nulFree fun member => (List.mem_append.mp member).elim line.1 (by simp)

theorem trim_piece {l : Bytes} (line : LineBytes l) : (trim (piece l)).val = unquote (bare l) := by
  change unquote (bare (piece l).val) = unquote (bare l)
  rw [piece_val line, bare_newline]

theorem indent_piece {l : Bytes} (line : LineBytes l) : (piece l).val.head?.any isBlank = l.head?.any isBlank := by
  rw [piece_val line]
  cases l with
  | nil => rfl
  | cons c l => rfl

theorem trim_eq {l : Bytes} (line : LineBytes l) (t : CString) : trim (piece l) = t ↔ unquote (bare l) = t.val := by
  rw [Subtype.ext_iff, trim_piece line]

theorem trim_blank {l : Bytes} (line : LineBytes l) : trim (piece l) = cs "" ↔ unquote (bare l) = [] := trim_eq line _

/-- What a line of a block adds to its field. -/
def takeLine (size : ℕ) (fold : Bool) (dst : CString) (l : Bytes) : CString :=
  if trim (piece l) ≠ cs "" then append_fold size dst (trim (piece l)) fold else dst

theorem takeLine_val {l : Bytes} (line : LineBytes l) (size : ℕ) (fold : Bool) (dst : CString) :
    (takeLine size fold dst l).val = taken size fold dst.val l := by
  unfold takeLine taken
  by_cases empty : unquote (bare l) = []
  · rw [if_neg (not_not.mpr ((trim_blank line).mpr empty)), if_pos empty]
  · rw [if_pos fun same => empty ((trim_blank line).mp same), if_neg empty, ← trim_piece line]
    rfl

theorem step_block {st : Scan} (in_fm : st.in_fm = true) {field : SkillField} {fold : Bool} (cont : st.cont = some (field, fold))
    {l : Bytes} (line : LineBytes l) (indented : l.head?.any isBlank = true) (other : unquote (bare l) ≠ lit "---") :
    step st (piece l) = some { st with sk := field.set (takeLine field.size fold (field.get st.sk) l) st.sk } := by
  have t : trim (piece l) ≠ cs "---" := fun same => other ((trim_eq line _).mp same)
  have indent : (piece l).val.head?.any isBlank = true := (indent_piece line).trans indented
  unfold step takeLine
  simp only [in_fm, t, cont, indent, Bool.true_eq_false, if_false]
  split_ifs
  · simp
  · rw [SkillField.set_get, ← cont, ← in_fm]

theorem step_key {st : Scan} (in_fm : st.in_fm = true) {l : Bytes} (line : LineBytes l)
    (outside : st.cont = none ∨ l.head?.any isBlank = false) (other : unquote (bare l) ≠ lit "---") :
    step st (piece l) = some (keyLine st (trim (piece l))) := by
  have t : trim (piece l) ≠ cs "---" := fun same => other ((trim_eq line _).mp same)
  have indent : (piece l).val.head?.any isBlank = l.head?.any isBlank := indent_piece line
  unfold step
  simp only [in_fm, t, indent, Bool.true_eq_false, if_false]
  rcases outside with none | start
  · simp [none]
  · cases st.cont <;> simp [start]

theorem readsKey_eq {st : Scan} (in_fm : st.in_fm = true) {l : Bytes} (line : LineBytes l)
    (outside : st.cont = none ∨ l.head?.any isBlank = false) (other : unquote (bare l) ≠ lit "---") :
    readsKey st (piece l) = true := by
  have t : trim (piece l) ≠ cs "---" := fun same => other ((trim_eq line _).mp same)
  have indent : (piece l).val.head?.any isBlank = l.head?.any isBlank := indent_piece line
  rw [readsKey, in_fm, indent]
  rcases outside with none | start
  · simp [none, t]
  · simp [start, t]

/-! ### Lines of a block -/

/-- The lines as the loop gets them. -/
def pieces (lines : List Bytes) : List Bytes := lines.map fun l => l ++ [10]

theorem run_cons (st : Scan) (l : Bytes) (lines : List Bytes) :
    run st (pieces (l :: lines)) = (step st (piece l)).bind fun st' => run st' (pieces lines) := by
  rw [pieces, List.map_cons, run, piece]
  cases step st (cstr (l ++ [10])) <;> rfl

theorem keyLines_cons (st : Scan) (l : Bytes) (lines : List Bytes) :
    keyLines st (pieces (l :: lines)) = (if readsKey st (piece l) then [l ++ [10]] else []) ++
      ((step st (piece l)).map fun st' => keyLines st' (pieces lines)).getD [] := by
  rw [pieces, List.map_cons, keyLines, piece]
  cases step st (cstr (l ++ [10])) <;> rfl

theorem marker_blank {l : Bytes} (blank : bare l = []) : unquote (bare l) ≠ lit "---" := by
  rw [blank]
  decide

/-- Blank lines change nothing but whether the block goes on. -/
theorem run_blanks {lines : List Bytes} (line : ∀ l ∈ lines, LineBytes l) (blank : ∀ l ∈ lines, bare l = []) :
    ∀ st : Scan, st.in_fm = true → ∃ cont, run st (pieces lines) = some { st with cont := cont } := by
  induction lines with
  | nil => exact fun st _ => ⟨st.cont, rfl⟩
  | cons l lines ih =>
    intro st in_fm
    have first := line l (by simp)
    have blank' := blank l (by simp)
    have t : trim (piece l) = cs "" := (trim_blank first).mpr (by rw [blank', unquote_nil])
    obtain ⟨cont, next⟩ : ∃ cont, step st (piece l) = some { st with cont := cont } := by
      cases found : st.cont with
      | none => exact ⟨none, by rw [step_key in_fm first (.inl found) (marker_blank blank'), keyLine_blank st t]⟩
      | some target =>
        by_cases indented : l.head?.any isBlank = true
        · refine ⟨some target, ?_⟩
          rw [step_block in_fm found first indented (marker_blank blank'), takeLine, if_neg (not_not.mpr t), SkillField.set_get,
            ← found]
        · exact ⟨none, by rw [step_key in_fm first (.inr (by simpa using indented)) (marker_blank blank'), keyLine_blank st t]⟩
    obtain ⟨cont', rest⟩ := ih (fun l member => line l (by simp [member])) (fun l member => blank l (by simp [member]))
      { st with cont := cont } in_fm
    exact ⟨cont', by rw [run_cons, next, Option.bind_some, rest]⟩

theorem foldl_blanks (size : ℕ) (fold : Bool) {lines : List Bytes} (line : ∀ l ∈ lines, LineBytes l)
    (blank : ∀ l ∈ lines, bare l = []) (dst : CString) : lines.foldl (takeLine size fold) dst = dst := by
  induction lines with
  | nil => rfl
  | cons l lines ih =>
    have same : takeLine size fold dst l = dst :=
      Subtype.ext (by rw [takeLine_val (line l (by simp)), taken_blank size fold dst.val (blank l (by simp))])
    rw [List.foldl_cons, same]
    exact ih (fun l member => line l (by simp [member])) fun l member => blank l (by simp [member])

theorem foldl_val (size : ℕ) (fold : Bool) {lines : List Bytes} (line : ∀ l ∈ lines, LineBytes l) :
    ∀ dst : CString, (lines.foldl (takeLine size fold) dst).val = lines.foldl (taken size fold) dst.val := by
  induction lines with
  | nil => exact fun _ => rfl
  | cons l lines ih =>
    intro dst
    rw [List.foldl_cons, List.foldl_cons, ih fun l member => line l (by simp [member]), takeLine_val (line l (by simp))]

/-- A block, with the field it goes on in. -/
theorem run_block {field : SkillField} {fold : Bool} {lines : List Bytes}
    (block : ∀ l ∈ lines, LineBytes l ∧ (bare l = [] ∨ l.head?.any isBlank = true))
    (inside : ∀ l ∈ lines, unquote (bare l) ≠ lit "---")
    (gaps : ∀ between l after, lines = between ++ l :: after → l.head?.any isBlank = false → ∀ m ∈ after, bare m = []) :
    ∀ st : Scan, st.in_fm = true → st.cont = some (field, fold) →
      (∃ cont, run st (pieces lines) = some ⟨st.in_fm, st.saw_header, cont,
        field.set (lines.foldl (takeLine field.size fold) (field.get st.sk)) st.sk⟩) ∧
      ∀ l ∈ keyLines st (pieces lines), bare l = [] := by
  induction lines with
  | nil =>
    intro st in_fm cont
    refine ⟨⟨st.cont, ?_⟩, by simp [pieces, keyLines]⟩
    rw [List.foldl_nil, SkillField.set_get]
    rfl
  | cons l lines ih =>
    intro st in_fm cont
    obtain ⟨first, kind⟩ := block l (by simp)
    have other := inside l (by simp)
    by_cases indented : l.head?.any isBlank = true
    · have next := step_block in_fm cont first indented other
      have reads : readsKey st (piece l) = false := by
        rw [readsKey, cont, indent_piece first, indented]
        simp
      obtain ⟨⟨cont', rest⟩, keys⟩ := ih (fun l member => block l (by simp [member])) (fun l member => inside l (by simp [member]))
        (fun between l' after split => gaps (l :: between) l' after (by rw [split, List.cons_append]))
        { st with sk := field.set (takeLine field.size fold (field.get st.sk) l) st.sk } in_fm cont
      constructor
      · refine ⟨cont', ?_⟩
        rw [run_cons, next, Option.bind_some, rest]
        simp
      · rw [keyLines_cons, next, reads]
        simpa using keys
    · have blank : bare l = [] := kind.resolve_right indented
      have start : l.head?.any isBlank = false := by simpa using indented
      have rest := gaps [] l lines rfl start
      have all : ∀ m ∈ l :: lines, bare m = [] := by
        intro m member
        rcases List.mem_cons.mp member with rfl | later
        · exact blank
        · exact rest m later
      have line : ∀ m ∈ l :: lines, LineBytes m := fun m member => (block m member).1
      constructor
      · obtain ⟨cont', went⟩ := run_blanks line all st in_fm
        refine ⟨cont', ?_⟩
        rw [went, foldl_blanks field.size fold line all, SkillField.set_get]
      · intro m member
        obtain ⟨m', inside', rfl⟩ := List.mem_map.mp (keyLines_subset st _ member)
        rw [bare_newline]
        exact all m' inside'

/-! ### The line of the key -/

theorem key_bytes (field : SkillField) : ∀ c ∈ field.key.val, isBlank c = false ∧ c ≠ 58 ∧ c ≠ 0 ∧ c ≠ 10 ∧ c ≠ 34 ∧ c ≠ 39 ∧ c ≠ 45 := by
  cases field <;> decide +kernel

theorem key_some (field : SkillField) : field.key.val ≠ [] := by
  cases field <;> decide +kernel

theorem target_key (field : SkillField) : target (trim (cstr field.key.val)) = some field := by
  cases field <;> decide +kernel

theorem isEnd_style (fold : Bool) : isEnd (if fold then 62 else 124) = false := by
  cases fold <;> rfl

/-- What stands after `>` or `|`, without blanks at its end. -/
def BlockFile.styleRest (b : BlockFile) : Bytes := (b.indicators ++ b.tail).rdropWhile isEnd

theorem bare_header (b : BlockFile) :
    bare b.header = b.field.key.val ++ 58 :: (b.gap ++ (if b.fold then 62 else 124) :: b.styleRest) := by
  obtain ⟨c, key, whole⟩ := List.exists_cons_of_ne_nil (key_some b.field)
  have plain : isBlank c = false := (key_bytes b.field c (by simp [whole])).1
  have start : b.header.dropWhile isBlank = b.header := by
    rw [BlockFile.header, whole, List.cons_append, List.dropWhile_cons_of_neg (by simp [plain])]
  have split : b.header = (b.field.key.val ++ 58 :: b.gap) ++ (if b.fold then 62 else 124) :: (b.indicators ++ b.tail) := by
    simp [BlockFile.header]
  rw [bare, start, split, rdropWhile_append_cons _ (isEnd_style b.fold)]
  simp [BlockFile.styleRest]

theorem lineBytes_header (b : BlockFile) : LineBytes b.header := by
  have key : LineBytes b.field.key.val :=
    ⟨fun member => (key_bytes b.field 0 member).2.2.1 rfl, fun member => (key_bytes b.field 10 member).2.2.2.1 rfl⟩
  have colon : LineBytes [58] := ⟨by decide, by decide⟩
  have sign : LineBytes [if b.fold then 62 else 124] := by
    cases b.fold <;> exact ⟨by decide, by decide⟩
  have indicators : LineBytes b.indicators := by
    obtain ⟨digit, chomp, digit', chomp', either⟩ := b.indicators_form
    have left : LineBytes digit := by
      rcases digit' with rfl | ⟨d, low, -, rfl⟩
      · exact ⟨by simp, by simp⟩
      · constructor
        · intro member
          rw [← List.mem_singleton.mp member] at low
          exact absurd low (by decide)
        · intro member
          rw [← List.mem_singleton.mp member] at low
          exact absurd low (by decide)
    have right : LineBytes chomp := by
      rcases chomp' with rfl | rfl | rfl <;> exact ⟨by decide, by decide⟩
    rcases either with same | same
    · rw [same]
      exact left.append right
    · rw [same]
      exact right.append left
  have parts := key.append (colon.append ((lineBytes_blank b.gap_blank.2).append
    (sign.append (indicators.append b.tail_ends.gap.line))))
  exact parts

theorem unquote_plain {s : Bytes} (plain : ∀ c ∈ s.head?, c ≠ 34 ∧ c ≠ 39) : unquote s = s := by
  refine if_neg ?_
  rintro ⟨-, ⟨double, -⟩ | ⟨single, -⟩⟩
  · exact (plain 34 double).1 rfl
  · exact (plain 39 single).2 rfl

theorem trim_header (b : BlockFile) :
    (trim (piece b.header)).val = b.field.key.val ++ 58 :: (b.gap ++ (if b.fold then 62 else 124) :: b.styleRest) := by
  rw [trim_piece (lineBytes_header b), unquote_plain, bare_header]
  intro c head
  obtain ⟨d, key, whole⟩ := List.exists_cons_of_ne_nil (key_some b.field)
  rw [bare_header, whole] at head
  cases head
  exact (key_bytes b.field _ (by rw [whole]; exact List.mem_cons_self)).2.2.2.2.imp id And.left

theorem header_other (b : BlockFile) : unquote (bare b.header) ≠ lit "---" := by
  intro same
  obtain ⟨d, key, whole⟩ := List.exists_cons_of_ne_nil (key_some b.field)
  rw [← trim_piece (lineBytes_header b), trim_header, whole] at same
  have dash : d = 45 := (List.cons.inj same).1
  exact (key_bytes b.field d (by simp [whole])).2.2.2.2.2.2 dash

theorem header_start (b : BlockFile) : b.header.head?.any isBlank = false := by
  obtain ⟨d, key, whole⟩ := List.exists_cons_of_ne_nil (key_some b.field)
  rw [BlockFile.header, whole, List.cons_append, List.head?_cons, Option.any_some]
  exact (key_bytes b.field d (by simp [whole])).1

/-- The value of the key. -/
theorem trim_value (b : BlockFile) : (trim (cstr (b.gap ++ (if b.fold then 62 else 124) :: b.styleRest))).val =
    (if b.fold then 62 else 124) :: b.styleRest := by
  have free : 0 ∉ b.gap ++ (if b.fold then 62 else 124) :: b.styleRest := by
    have whole := (trim (piece b.header)).property
    rw [trim_header] at whole
    exact fun member => whole (List.mem_append_right _ (List.mem_cons_of_mem _ member))
  change unquote (bare (cstr _).val) = _
  have blank : ∀ c ∈ b.gap, isBlank c = true := List.all_eq_true.mp b.gap_blank.2
  have sign : isBlank (if b.fold then 62 else 124) = false := by cases b.fold <;> rfl
  have value : bare (b.gap ++ (if b.fold then 62 else 124) :: b.styleRest) = (if b.fold then 62 else 124) :: b.styleRest := by
    rw [bare, List.dropWhile_append_of_pos blank, List.dropWhile_cons_of_neg (by simp [sign])]
    have rest := rdropWhile_append_cons [] (isEnd_style b.fold) b.styleRest
    rw [List.nil_append, List.nil_append] at rest
    rw [rest, BlockFile.styleRest, List.rdropWhile_idempotent]
  rw [cstr_of_nulFree free, value, unquote_plain]
  intro c head
  cases head
  cases b.fold <;> exact ⟨by decide, by decide⟩

/-- What the loop looks for after `>` or `|`. -/
def signFirst (s : Bytes) : Bool := s.head?.all fun d => d == 45 || d == 43

theorem keyLine_header (b : BlockFile) (st : Scan) : keyLine st (trim (piece b.header)) =
    if signFirst b.styleRest then ⟨st.in_fm, st.saw_header, some (b.field, b.fold), b.field.set (cs "") st.sk⟩
    else ⟨st.in_fm, st.saw_header, none, b.field.set (strncpy b.field.size
      (trim (cstr (b.gap ++ (if b.fold then 62 else 124) :: b.styleRest)))) st.sk⟩ := by
  have before : ∀ c ∈ b.field.key.val, (c != 58) = true := fun c member => by simpa using (key_bytes b.field c member).2.1
  have value : (trim (piece b.header)).val.dropWhile (· != 58) =
      58 :: (b.gap ++ (if b.fold then 62 else 124) :: b.styleRest) := by
    rw [trim_header, List.dropWhile_append_of_pos before]
    rfl
  have key : (trim (piece b.header)).val.takeWhile (· != 58) = b.field.key.val := by
    rw [trim_header, List.takeWhile_append_of_pos before]
    simp
  have style : blockStyle ((if b.fold then 62 else 124) :: b.styleRest) = if signFirst b.styleRest then some b.fold else none := by
    cases b.fold <;> rfl
  rw [keyLine]
  simp only [value, key, target_key, trim_value, style]
  split_ifs <;> rfl

theorem indicators_byte {s : Bytes} (form : Indicators s) : ∀ c ∈ s, isEnd c = false := by
  have digits : ∀ d : UInt8, 49 ≤ d → d ≤ 57 → isEnd d = false := by decide +kernel
  obtain ⟨digit, sign, digit', sign', either⟩ := form
  intro c member
  have inside : c ∈ digit ∨ c ∈ sign := by
    rcases either with same | same
    · rwa [same, List.mem_append] at member
    · rw [same, List.mem_append] at member
      exact member.symm
  rcases inside with first | second
  · rcases digit' with rfl | ⟨d, low, high, rfl⟩
    · cases first
    · rw [List.mem_singleton.mp first]
      exact digits d low high
  · rcases sign' with rfl | rfl | rfl
    · cases second
    · rw [List.mem_singleton.mp second]
      rfl
    · rw [List.mem_singleton.mp second]
      rfl

/-- The loop takes the value for a block scalar just when nothing or a sign comes first. -/
theorem signFirst_iff (b : BlockFile) : signFirst b.styleRest = true ↔
    b.indicators = [] ∧ bare b.tail = [] ∨ ∃ c ∈ b.indicators.head?, c = 43 ∨ c = 45 := by
  cases form : b.indicators with
  | cons c indicators =>
    have stays : isEnd c = false := indicators_byte b.indicators_form c (by simp [form])
    have rest := rdropWhile_append_cons [] stays (indicators ++ b.tail)
    rw [List.nil_append, List.nil_append] at rest
    rw [BlockFile.styleRest, form, List.cons_append, rest]
    simp [signFirst, or_comm]
  | nil =>
    rw [BlockFile.styleRest, form, List.nil_append]
    simp only [true_and, List.head?_nil, Option.not_mem_none, false_and, exists_false, or_false]
    have split := List.takeWhile_append_dropWhile (p := isBlank) (l := b.tail)
    have blanks : ∀ c ∈ b.tail.takeWhile isBlank, isBlank c = true := fun c member => List.mem_takeWhile_imp member
    by_cases nothing : bare b.tail = []
    · rw [ends_of_blank nothing]
      exact ⟨fun _ => nothing, fun _ => rfl⟩
    · -- There is a comment, and a blank before it.
      have comment : ∃ t, b.tail.dropWhile isBlank = 35 :: t := by
        rcases b.tail_ends.gap.nothing with none | cr | comment
        · exact absurd (by rw [bare, none]; rfl) nothing
        · exact absurd (by rw [bare, cr]; rfl) nothing
        · exact List.head?_eq_some_iff.mp comment
      obtain ⟨t, comment⟩ := comment
      rw [comment] at split
      have apart := b.tail_ends.apart
      rw [← split] at apart
      obtain ⟨c, w, some⟩ : ∃ c w, b.tail.takeWhile isBlank = c :: w := by
        refine List.exists_cons_of_ne_nil ?_
        intro none
        rw [none] at apart
        exact apart rfl
      have blank := blanks c (by simp [some])
      rw [some] at split
      rw [← split, rdropWhile_append_cons _ (by rfl)]
      refine ⟨fun sign => ?_, fun none => absurd (split ▸ none) nothing⟩
      have signs : ∀ c : UInt8, (c == 45 || c == 43) = true → isBlank c = false := by decide +kernel
      rw [signs c sign] at blank
      cases blank

theorem run_inside {lines : List Bytes} (line : ∀ l ∈ lines, LineBytes l) (st : Scan) (in_fm : st.in_fm = true) :
    (∃ st', run st (pieces lines) = some st') ↔ ∀ l ∈ lines, unquote (bare l) ≠ lit "---" := by
  rw [run_ends st in_fm, pieces, List.forall_mem_map]
  exact forall₂_congr fun l member => (trim_eq (line l member) _).not

theorem lineBytes_opening (b : BlockFile) : LineBytes (lit "---" ++ b.opening) :=
  LineBytes.append ⟨by decide, by decide⟩ b.opening_blank.1

/-- A line of three dashes, with blanks behind it. -/
theorem trim_dashes {blanks : Bytes} (free : 0 ∉ blanks) (ends : ∀ c ∈ blanks, isEnd c = true) :
    trim (cstr (lit "---" ++ blanks)) = cs "---" := by
  have marker : bare (lit "---" ++ blanks) = lit "---" := by
    have rest := rdropWhile_append_cons [45, 45] (rfl : isEnd 45 = false) blanks
    rw [List.rdropWhile_eq_nil_iff.mpr ends] at rest
    exact rest
  refine Subtype.ext ?_
  change unquote (bare (cstr (lit "---" ++ blanks)).val) = lit "---"
  rw [cstr_of_nulFree fun member => (List.mem_append.mp member).elim (by decide +kernel) free, marker]
  rfl

/-- The first line, also where it comes in pieces. -/
theorem fgets_opening (b : BlockFile) : ∃ blanks more, fgets 2048 [] (lit "---" ++ b.opening ++ [10]) = (lit "---" ++ blanks) :: more ∧
    0 ∉ blanks ∧ (∀ c ∈ blanks, isEnd c = true) ∧ ∀ p ∈ more, ∀ c ∈ p, isEnd c = true := by
  have line := lineBytes_opening b
  have ends : ∀ c ∈ b.opening ++ [10], isEnd c = true := by
    intro c member
    rcases List.mem_append.mp member with inside | last
    · exact List.rdropWhile_eq_nil_iff.mp (ends_of_blank b.opening_blank.2) c inside
    · rw [List.mem_singleton.mp last]
      rfl
  have free : 0 ∉ b.opening ++ [10] := fun member => (List.mem_append.mp member).elim b.opening_blank.1.1 (by decide)
  by_cases room : (lit "---" ++ b.opening).length + 2 ≤ 2048
  · refine ⟨b.opening ++ [10], [], ?_, free, ends, by simp⟩
    rw [fgets_line line.2 [] [] (by simpa using room)]
    simp [fgets]
  · have dashes : (lit "---").length = 3 := by decide +kernel
    have long : 2044 ≤ b.opening.length := by
      rw [List.length_append, dashes] at room
      omega
    have split : lit "---" ++ b.opening ++ [10] = (lit "---" ++ b.opening.take 2044) ++ (b.opening.drop 2044 ++ [10]) := by
      rw [List.append_assoc, List.append_assoc, ← List.append_assoc (b.opening.take _), List.take_append_drop]
    have first : 10 ∉ lit "---" ++ b.opening.take 2044 := fun member => (List.mem_append.mp member).elim (by decide +kernel)
      fun inside => b.opening_blank.1.2 (List.mem_of_mem_take inside)
    refine ⟨b.opening.take 2044, fgets 2048 [] (b.opening.drop 2044 ++ [10]), ?_, ?_, ?_, ?_⟩
    · have some : lit "---" ++ b.opening.take 2044 ≠ [] := List.ne_nil_of_length_pos (by rw [List.length_append, dashes]; omega)
      rw [split, fgets_full first some [] _ (by simp [dashes, List.length_take, long])]
      rfl
    · exact fun member => b.opening_blank.1.1 (List.mem_of_mem_take member)
    · exact fun c member => ends c (List.mem_append_left _ (List.mem_of_mem_take member))
    · intro p member c inside
      rcases List.mem_append.mp ((fgets_subset 2048 _ [] p member c inside).resolve_left (by simp)) with before | last
      · exact ends c (List.mem_append_left _ (List.mem_of_mem_drop before))
      · exact ends c (List.mem_append_right _ last)

/-- The front matter is opened by its first line. -/
theorem run_front (b : BlockFile) (sk : skill_t) :
    ((∃ st, run (start sk) (fgets 2048 [] (text b.front)) = some st) ↔
        ∀ p ∈ fgets 2048 [] (text b.before), trim (cstr p) ≠ cs "---") ∧
      ∀ st, run (start sk) (fgets 2048 [] (text b.front)) = some st → st.in_fm = true := by
  obtain ⟨blanks, more, first, free, ends, rest⟩ := fgets_opening b
  have opened : run (start sk) (fgets 2048 [] (text b.front)) =
      run { start sk with in_fm := true, saw_header := true } (fgets 2048 [] (text b.before)) := by
    have lines : text b.front = (lit "---" ++ b.opening) ++ 10 :: text b.before := by simp [text, BlockFile.front]
    have dashes := trim_dashes free ends
    have next : step (start sk) (cstr (lit "---" ++ blanks)) = some { start sk with in_fm := true, saw_header := true } := by
      simp [step, start, dashes]
    rw [lines, fgets_append, first, List.cons_append, run, next]
    simp only
    rw [run_append, run_nothing rest rfl rfl]
    rfl
  rw [opened]
  exact ⟨run_ends _ rfl, fun st went => run_in_fm rfl went⟩

theorem text_cons (l : Bytes) (lines : List Bytes) (rest : Bytes) : text (l :: lines) ++ rest = l ++ 10 :: (text lines ++ rest) := by
  simp [text]

theorem fgets_text {lines : List Bytes} (line : ∀ l ∈ lines, LineBytes l) (short : ∀ l ∈ lines, l.length < window) :
    fgets 2048 [] (text lines) = pieces lines := by
  have bytes : window = 2047 := rfl
  induction lines with
  | nil => rfl
  | cons l lines ih =>
    have whole := text_cons l lines []
    have room := short l (by simp)
    rw [List.append_nil, List.append_nil] at whole
    rw [whole, fgets_line (line l (by simp)).2 [] _ (by simp; omega),
      ih (fun l member => line l (by simp [member])) fun l member => short l (by simp [member])]
    rfl

theorem fgets_text_append (size : ℕ) (lines : List Bytes) (rest : Bytes) :
    fgets size [] (text lines ++ rest) = fgets size [] (text lines) ++ fgets size [] rest := by
  induction lines with
  | nil => rfl
  | cons l lines ih =>
    have whole := text_cons l lines []
    rw [List.append_nil, List.append_nil] at whole
    rw [text_cons, whole, fgets_append, fgets_append size l (text lines), ih, List.append_assoc]

/-- After the block the loop goes on with the rest. -/
theorem parse_rest (b : BlockFile) {sk : skill_t} {before key after : Scan}
    (front : run (start sk) (fgets 2048 [] (text b.front)) = some before)
    (header : run before (fgets 2048 [] (text [b.header])) = some key)
    (block : run key (fgets 2048 [] (text b.lines)) = some after) :
    parse_frontmatter (some b.file) sk = (scan after (fgets 2048 [] b.rest)).result := by
  rw [parse_frontmatter, BlockFile.file]
  simp only [List.append_assoc]
  rw [fgets_text_append, fgets_text_append, fgets_text_append, scan_run front, scan_run header, scan_run block]

/-- The rest begins without an indent. -/
theorem rest_pieces (b : BlockFile) : ∃ p ps, fgets 2048 [] b.rest = p :: ps ∧ (cstr p).val.head?.any isBlank = false := by
  obtain ⟨c, head, other⟩ := b.rest_next
  obtain ⟨s, rest⟩ := List.head?_eq_some_iff.mp head
  have plain : isBlank c = false := by
    rw [isEnd, Bool.or_eq_false_iff, Bool.or_eq_false_iff] at other
    exact other.1.1
  have some : fgets 2048 [] b.rest ≠ [] := fgets_some (by simp [rest]) []
  obtain ⟨p, ps, pieces⟩ := List.exists_cons_of_ne_nil some
  obtain ⟨u, rfl⟩ : [c] <+: p := by
    have first := pieces
    rw [rest, fgets, List.nil_append] at first
    split_ifs at first
    · rw [← (List.cons.inj first).1]
    · exact fgets_start s [c] p (by rw [first]; rfl)
  refine ⟨_, ps, pieces, ?_⟩
  change ((c :: u).takeWhile (· != 0)).head?.any isBlank = false
  rw [List.takeWhile_cons]
  split_ifs
  · simpa using plain
  · rfl

theorem scan_rest (b : BlockFile) {st : Scan} (in_fm : st.in_fm = true) :
    (scan st (fgets 2048 [] b.rest)).sk = (scan { st with cont := none } (fgets 2048 [] b.rest)).sk := by
  obtain ⟨p, ps, pieces, start⟩ := rest_pieces b
  rw [pieces]
  exact scan_outside in_fm start ps

/-- What follows the block leaves the field as it is. -/
theorem rest_keeps {b : BlockFile} (once : Once b) {st : Scan} (in_fm : st.in_fm = true) :
    b.field.get (scan st (fgets 2048 [] b.rest)).sk = b.field.get st.sk := by
  have alike : Alike (fun _ => False) { st with cont := none } outside := ⟨in_fm, rfl, fun _ none => none.elim⟩
  rw [scan_rest b in_fm]
  have others : ∀ l ∈ keyLines { st with cont := none } (fgets 2048 [] b.rest), given (trim (cstr l)) ≠ some b.field := by
    rw [keyLines_alike _ alike]
    exact once
  exact scan_keeps _ in_fm (by simp) others

/-- It makes the same of the other field whatever the field holds. -/
theorem rest_others (b : BlockFile) {st st' : Scan} (in_fm : st.in_fm = true) (in_fm' : st'.in_fm = true)
    (same : ∀ other ≠ b.field, other.get st.sk = other.get st'.sk) : ∀ other ≠ b.field,
      other.get (scan st (fgets 2048 [] b.rest)).sk = other.get (scan st' (fgets 2048 [] b.rest)).sk := by
  have alike : Alike (· ≠ b.field) { st with cont := none } { st' with cont := none } := ⟨in_fm.trans in_fm'.symm, rfl, same⟩
  rw [scan_rest b in_fm, scan_rest b in_fm']
  exact (scan_alike _ alike).same

theorem parse_emptied (b : BlockFile) {sk : skill_t} {before key : Scan}
    (front : run (start sk) (fgets 2048 [] (text b.front)) = some before)
    (header : run before (fgets 2048 [] (text [b.header])) = some key) :
    parse_frontmatter (some b.emptied) sk = (scan key (fgets 2048 [] b.rest)).result := by
  rw [parse_frontmatter, BlockFile.emptied]
  simp only [List.append_assoc]
  rw [fgets_text_append, fgets_text_append, scan_run front, scan_run header]

/-! ### Blocks that are kept -/

theorem lineBytes_block (b : BlockFile) : ∀ l ∈ b.lines, LineBytes l := fun l member => (b.lines_block l member).1

theorem Short.pieces {b : BlockFile} (short : Short b) :
    fgets 2048 [] (text [b.header]) = pieces [b.header] ∧ fgets 2048 [] (text b.lines) = pieces b.lines := by
  refine ⟨fgets_text ?_ ?_, fgets_text (lineBytes_block b) fun l member => short l (by simp [member])⟩
  · intro l member
    rw [List.mem_singleton.mp member]
    exact lineBytes_header b
  · intro l member
    exact short l (by simp [List.mem_singleton.mp member])

theorem run_header (b : BlockFile) {st : Scan} (in_fm : st.in_fm = true) :
    run st (pieces [b.header]) = some (keyLine st (trim (piece b.header))) := by
  rw [run_cons, step_key in_fm (lineBytes_header b) (.inr (header_start b)) (header_other b)]
  rfl

theorem size_large (field : SkillField) : 2 < field.size := by
  cases field <;> decide

theorem holds_nil (size : ℕ) : Holds size [] [] := ⟨List.prefix_rfl, .inl rfl⟩

/-- The state after a block that the loop goes through. -/
theorem run_kept (b : BlockFile) {before : Scan} (in_fm : before.in_fm = true) (style : signFirst b.styleRest = true)
    (inside : ∀ l ∈ b.lines, unquote (bare l) ≠ lit "---")
    (gaps : ∀ between l after, b.lines = between ++ l :: after → l.head?.any isBlank = false → ∀ m ∈ after, bare m = []) :
    ∃ key after, run before (pieces [b.header]) = some key ∧ run key (pieces b.lines) = some after ∧
      (∀ l ∈ keyLines key (pieces b.lines), bare l = []) ∧
      (b.field.get after.sk).val = b.lines.foldl (taken b.field.size b.fold) [] ∧
      ∀ other ≠ b.field, other.get after.sk = other.get key.sk := by
  have header := keyLine_header b before
  rw [if_pos style] at header
  obtain ⟨⟨cont, went⟩, keys⟩ := run_block b.lines_block inside gaps
    ⟨before.in_fm, before.saw_header, some (b.field, b.fold), b.field.set (cs "") before.sk⟩ in_fm rfl
  refine ⟨_, _, run_header b in_fm, by rw [header]; exact went, by rw [header]; exact keys, ?_, ?_⟩
  · rw [SkillField.get_set, SkillField.get_set, foldl_val _ _ (lineBytes_block b)]
    rfl
  · intro other different
    rw [header, SkillField.get_set_other different]

theorem kept_of_whole {b : BlockFile} (short : Short b) (whole : Whole b) (unquoted : Unquoted b) (once : Once b) (sk : skill_t) :
    Kept b sk := by
  obtain ⟨header, lines⟩ := short.pieces
  obtain ⟨before, opened⟩ := (run_front b sk).1.mpr whole.front
  have in_fm := (run_front b sk).2 before opened
  obtain ⟨key, after, atKey, atEnd, keys, value, others⟩ :=
    run_kept b in_fm ((signFirst_iff b).mpr whole.style) whole.inside whole.gaps
  have holds := foldl_holds (size_large b.field) b.fold b.lines [] [] (holds_nil _) unquoted
  rw [List.nil_append, ← value] at holds
  have in_fm' := run_in_fm in_fm atKey
  have in_fm'' := run_in_fm in_fm' atEnd
  rw [← header] at atKey
  rw [← lines] at atEnd keys
  have stored : b.field.get (parse_frontmatter (some b.file) sk).2 = b.field.get after.sk := by
    rw [parse_rest b opened atKey atEnd]
    exact rest_keeps once in_fm''
  refine ⟨⟨before, key, after, opened, atKey, atEnd, keys⟩, ?_, ?_, ?_⟩
  · rw [stored]
    exact holds.start
  · rw [stored]
    exact holds.fits
  · rw [parse_rest b opened atKey atEnd, parse_emptied b opened atKey]
    exact rest_others b in_fm'' in_fm' others

/-- Without a block to go on, the loop looks for a key in every line that is not blank. -/
theorem run_ended {lines : List Bytes} (line : ∀ l ∈ lines, LineBytes l) : ∀ st st' : Scan, st.in_fm = true → st.cont = none →
    run st (pieces lines) = some st' → (∀ l ∈ keyLines st (pieces lines), bare l = []) →
    (∀ l ∈ lines, bare l = []) ∧ st' = st := by
  induction lines with
  | nil =>
    intro st st' _ _ went _
    cases went
    exact ⟨by simp, rfl⟩
  | cons l lines ih =>
    intro st st' in_fm ended went keys
    have first := line l (by simp)
    have other : unquote (bare l) ≠ lit "---" := (run_inside line st in_fm).mp ⟨st', went⟩ l (by simp)
    have next := step_key in_fm first (.inl ended) other
    rw [keyLines_cons, if_pos (readsKey_eq in_fm first (.inl ended) other), next] at keys
    have blank : bare l = [] := by
      rw [← bare_newline]
      exact keys _ (by simp)
    have same : keyLine st (trim (piece l)) = st := by
      rw [keyLine_blank st ((trim_blank first).mpr (by rw [blank, unquote_nil])), ← ended]
    rw [same] at next keys
    rw [run_cons, next, Option.bind_some] at went
    obtain ⟨rest, final⟩ := ih (fun l member => line l (by simp [member])) st st' in_fm ended went
      fun l member => keys l (List.mem_append_right _ member)
    exact ⟨List.forall_mem_cons.mpr ⟨blank, rest⟩, final⟩

/-- So a line without an indent is the last of a block that is kept, but for blank ones. -/
theorem run_gaps {field : SkillField} {fold : Bool} {lines : List Bytes}
    (block : ∀ l ∈ lines, LineBytes l ∧ (bare l = [] ∨ l.head?.any isBlank = true)) :
    ∀ st st' : Scan, st.in_fm = true → st.cont = some (field, fold) → run st (pieces lines) = some st' →
      (∀ l ∈ keyLines st (pieces lines), bare l = []) →
      ∀ between l after, lines = between ++ l :: after → l.head?.any isBlank = false → ∀ m ∈ after, bare m = [] := by
  induction lines with
  | nil =>
    intro st st' _ _ _ _ between l after split
    simp at split
  | cons l lines ih =>
    intro st st' in_fm cont went keys between l' after split start
    obtain ⟨first, kind⟩ := block l (by simp)
    have line : ∀ m ∈ l :: lines, LineBytes m := fun m member => (block m member).1
    have other : unquote (bare l) ≠ lit "---" := (run_inside line st in_fm).mp ⟨st', went⟩ l (by simp)
    rw [run_cons] at went
    rw [keyLines_cons] at keys
    by_cases indented : l.head?.any isBlank = true
    · have next := step_block in_fm cont first indented other
      rw [next, Option.bind_some] at went
      rw [next] at keys
      cases between with
      | nil =>
        rw [← (List.cons.inj split).1, indented] at start
        cases start
      | cons first' between =>
        exact ih (fun m member => block m (by simp [member]))
          { st with sk := field.set (takeLine field.size fold (field.get st.sk) l) st.sk } st' in_fm cont went
          (fun m member => keys m (List.mem_append_right _ member)) between l' after (List.cons.inj split).2 start
    · have blank := kind.resolve_right indented
      have next := step_key in_fm first (.inr (by simpa using indented)) other
      rw [keyLine_blank st ((trim_blank first).mpr (by rw [blank, unquote_nil]))] at next
      rw [next, Option.bind_some] at went
      rw [next] at keys
      have rest := (run_ended (fun m member => line m (by simp [member])) { st with cont := none } st' in_fm rfl went
        fun m member => keys m (List.mem_append_right _ member)).1
      intro m member
      cases between with
      | nil =>
        rw [(List.cons.inj split).2] at rest
        exact rest m member
      | cons first' between =>
        rw [(List.cons.inj split).2] at rest
        exact rest m (by simp [member])

theorem whole_of_kept {b : BlockFile} (short : Short b) (once : Once b) {sk : skill_t} (kept : Kept b sk) :
    Whole b ∧ ((joined b.fold b.lines).length + 2 ≤ b.field.size → Unquoted b) := by
  obtain ⟨before, key, after, opened, atKey, atEnd, keys⟩ := kept.passed
  have fits := kept.whole
  obtain ⟨header, lines⟩ := short.pieces
  have in_fm := (run_front b sk).2 before opened
  rw [parse_rest b opened atKey atEnd] at fits
  rw [header] at atKey
  rw [lines] at atEnd keys
  have inside := run_in_fm in_fm atKey
  change _ → (b.field.get (scan after (fgets 2048 [] b.rest)).sk).val = _ at fits
  rw [rest_keeps once (run_in_fm inside atEnd)] at fits
  have large := size_large b.field
  rw [run_header b in_fm, Option.some.injEq, keyLine_header] at atKey
  have style : signFirst b.styleRest = true := by
    by_contra other
    rw [if_neg other] at atKey
    obtain ⟨blank, same⟩ := run_ended (lineBytes_block b) key after inside (by rw [← atKey]) atEnd keys
    have none := joined_blanks b.fold blank
    have value := fits (by
      rw [none, List.length_nil]
      omega)
    rw [none, same, ← atKey, SkillField.get_set] at value
    have copied : ((if b.fold then 62 else 124) :: b.styleRest).take (b.field.size - 1) = [] := by
      rw [← trim_value]
      exact value
    rcases List.take_eq_nil_iff.mp copied with none | empty
    · omega
    · cases empty
  rw [if_pos style] at atKey
  have markers := (run_inside (lineBytes_block b) key inside).mp ⟨after, atEnd⟩
  have gaps := run_gaps b.lines_block key after inside (by rw [← atKey]) atEnd keys
  refine ⟨⟨(run_front b sk).1.mp ⟨before, opened⟩, (signFirst_iff b).mp style, markers, gaps⟩, ?_⟩
  obtain ⟨key', after', atKey', atEnd', -, value', -⟩ := run_kept b in_fm style markers gaps
  rw [run_header b in_fm, Option.some.injEq, keyLine_header, if_pos style, atKey] at atKey'
  rw [← atKey', atEnd, Option.some.injEq] at atEnd'
  intro room between l more split some _
  rw [← atEnd', fits room] at value'
  by_contra quoted
  have shorter := (foldl_length b.field.size b.fold b.lines [] [] (Nat.zero_le _)).2
    (.inr ⟨l, by simp [split], quoted⟩)
  rw [List.nil_append, ← value'] at shorter
  exact lt_irrefl _ shorter

/-- A block scalar is kept whole if its lines come to the loop whole, the loop gets through them, none is
    between quotes and no later line gives the field again; for such lines, and where none gives it again, the
    loop has to get through them, and where the text fits none is between quotes. -/
theorem block_scalar_kept (b : BlockFile) (sk : skill_t) : (Short b ∧ Whole b ∧ Unquoted b ∧ Once b → Kept b sk) ∧
    (Short b → Once b → Kept b sk → Whole b ∧ ((joined b.fold b.lines).length + 2 ≤ b.field.size → Unquoted b)) :=
  ⟨fun ⟨short, whole, unquoted, once⟩ => kept_of_whole short whole unquoted once sk,
    fun short once kept => whole_of_kept short once kept⟩

/-- A block of indented lines, with blank ones at its end in any form. -/
theorem gaps_of_indented (lines blanks : List Bytes) (indented : ∀ l ∈ lines, l.head?.any isBlank = true)
    (blank : ∀ l ∈ blanks, bare l = []) : ∀ between l after, lines ++ blanks = between ++ l :: after →
      l.head?.any isBlank = false → ∀ m ∈ after, bare m = [] := by
  intro between l after split start m member
  rcases List.append_eq_append_iff.mp split with ⟨more, -, rest⟩ | ⟨more, whole, rest⟩
  · exact blank m (by simp [rest, member])
  · cases more with
    | nil =>
      rw [List.nil_append] at rest
      exact blank m (by simp [← rest, member])
    | cons first more =>
      rw [← (List.cons.inj rest).1] at whole
      rw [indented l (by simp [whole])] at start
      cases start

/-- A skill with a description of these lines. -/
def describedFile (lines : List Bytes) (block : ∀ l ∈ lines, LineBytes l ∧ (bare l = [] ∨ l.head?.any isBlank = true)) :
    BlockFile where
  opening := []
  before := [lit "name: a"]
  field := .description
  gap := lit " "
  fold := true
  indicators := []
  tail := []
  lines := lines
  rest := lit "---\n"
  opening_blank := ⟨⟨by simp, by simp⟩, rfl⟩
  before_other := by
    intro l member
    rw [List.mem_singleton.mp member]
    refine ⟨⟨by decide +kernel, by decide +kernel⟩, ?_⟩
    rintro t same
    cases same
  gap_blank := ⟨by decide +kernel, by decide +kernel⟩
  indicators_form := ⟨[], [], .inl rfl, .inl rfl, .inl rfl⟩
  tail_ends := RulePaths.lineTail_nil
  lines_block := block
  rest_next := ⟨45, rfl, rfl⟩

/-- Two lines, of which one is like a key. -/
def keptFile : BlockFile := describedFile [lit "  x", lit "  name: y", []] (by decide +kernel)

theorem block_scalar_kept_two : Kept keptFile ⟨cs "", cs "", cs ""⟩ := by
  refine (block_scalar_kept keptFile ⟨cs "", cs "", cs ""⟩).1
    ⟨by decide +kernel, ⟨by decide +kernel, .inl ⟨rfl, rfl⟩, by decide +kernel, ?_⟩, ?_, by decide +kernel⟩
  · exact gaps_of_indented [lit "  x", lit "  name: y"] [[]] (by decide +kernel) (by decide +kernel)
  · intro between l after split _ _
    have all : ∀ l ∈ keptFile.lines, unquote (bare l) = bare l := by decide +kernel
    exact all l (by simp [split])

/-- The same with a blank line between them. -/
def gapFile : BlockFile := describedFile [lit "  x", [], lit "  name: y"] (by decide +kernel)

theorem block_scalar_lost : ¬∀ (b : BlockFile) (sk : skill_t), Kept b sk := by
  intro kept
  have short : Short gapFile := by decide +kernel
  have once : Once gapFile := by decide +kernel
  have gaps := (whole_of_kept short once (kept gapFile ⟨cs "", cs "", cs ""⟩)).1.gaps
  exact absurd (gaps [lit "  x"] [] [lit "  name: y"] rfl rfl (lit "  name: y") (by simp)) (by decide +kernel)

/-- The second line of the description becomes the name. -/
example : (parse_frontmatter (some gapFile.file) ⟨cs "", cs "", cs ""⟩).2 = ⟨cs "y", cs "x", cs ""⟩ := by
  decide +kernel

end Sa.BlockScalars
