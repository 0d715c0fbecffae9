import Sa.Session
import Sa.Shell

/-!
# Rules

`parse_rule` reads the globs of a rule file, and `rule_applies` hands each of them to
a shell between single quotes. So a glob is one argument of `find` unless there is
a single quote in it (`glob_is_data`).
-/

namespace Sa.Rules
open Sa.CStrings Sa.Session Sa.Shell

abbrev MAX_RULE_PATHS : ℕ := 8

structure rule_t where
  path : CString
  paths : List CString
  content : CString
  deriving DecidableEq

/-- Quotes and spaces before a glob. -/
def isLeading (b : UInt8) : Bool := b == 32 || b == 34 || b == 39
/-- Quotes, spaces and the `\r` of the line's end after it. -/
def isTrailing (b : UInt8) : Bool := b == 32 || b == 13 || b == 34 || b == 39

/-- What a list item of a line holds. -/
def pathItem (line : Bytes) : Option Bytes :=
  match line.dropWhile isBlank with
  | 45 :: q => some ((q.dropWhile isLeading).reverse.dropWhile isTrailing).reverse
  | _ => none

/-- The loop over the lines of the front matter. -/
def pathLines : Bool → List Bytes → List CString → List CString
  | _, [], paths => paths
  | in_paths, line :: lines, paths =>
    if lit "---" <+: line then paths
    else if (line.head?.any isBlank) = false then pathLines (decide (lit "paths:" <+: line)) lines paths
    else if in_paths then
      match pathItem line with
      | some v =>
        pathLines in_paths lines (if v ≠ [] ∧ paths.length < MAX_RULE_PATHS then paths ++ [cstr (v.take 255)] else paths)
      | none => pathLines in_paths lines paths
    else pathLines in_paths lines paths

/-- `none` where the file cannot be opened. -/
def parse_rule (path : CString) (file : Option Bytes) : Option rule_t :=
  file.map fun bytes =>
    let content := cstr bytes
    let paths :=
      if lit "---" <+: content.val then
        match content.val.dropWhile (· != 10) with
        | [] => []
        | _ :: text => pathLines false (getlines [] text) []
      else []
    ⟨strncpy 1024 path, paths, content⟩

/-- The glob without a leading `**/`. -/
def stripStars (g : CString) : Bytes := if lit "**/" <+: g.val then g.val.drop 3 else g.val

def opening : Bytes := lit "find . -type f -name '"
def closing : Bytes := lit "' -not -path '*/.git/*' -print -quit 2>/dev/null"

/-- The command line, in a buffer of 1024 bytes. -/
def findCommand (g : CString) : Bytes := (opening ++ stripStars g ++ closing).take 1023

/-- The loop over the globs; `answers` says of each `popen` whether it fails and, if
    not, whether something was found. The result, and the commands that were run. -/
def runFinds : (ℕ → Option Bool) → List CString → Bool × List Bytes
  | _, [] => (false, [])
  | answers, g :: paths =>
    if answers 0 = some true then (true, [findCommand g])
    else
      let (found, commands) := runFinds (fun i => answers (i + 1)) paths
      (found, findCommand g :: commands)

def rule_applies (answers : ℕ → Option Bool) (r : rule_t) : Bool × List Bytes :=
  if r.paths = [] then (true, []) else runFinds answers r.paths

def plainWords (words : List String) : List Token := words.map fun w => .word (lit w) true

/-- The tokens before the glob. -/
def firstTokens : List Token := plainWords ["find", ".", "-type", "f", "-name"]
/-- The tokens after it; errors are thrown away. -/
def restTokens : List Token :=
  plainWords ["-not", "-path", "*/.git/*", "-print", "-quit"] ++ [.ioNumber (lit "2"), .op 62, .word (lit "/dev/null") true]

/-- `find` with this argument after `-name`. -/
def findTokens (g : Bytes) : List Token := firstTokens ++ .word g true :: restTokens

theorem foldl_opening :
    opening.foldl step start = ⟨.single, some ⟨[], true, true⟩, firstTokens⟩ := by
  decide +kernel

/-- The closing text without the quote and the blank that it begins with. -/
def closed : Bytes := closing.drop 2

theorem closing_eq : closing = 39 :: 32 :: closed := by decide

theorem finish_closed (tokens : List Token) : finish (closed.foldl step ⟨.plain, none, tokens⟩) = some (tokens ++ restTokens) := by
  have alone : finish (closed.foldl step start) = some restTokens := by decide +kernel
  have before : (⟨.plain, none, tokens⟩ : State) = start.after tokens := by simp [State.after, start]
  rw [before, foldl_after, finish_after, alone]
  rfl

/-! Where the shell is when it comes to the closing text. -/

theorem closing_plain {st : State} (plain : st.mode = .plain) : finish (closing.foldl step st) = none := by
  -- The quote opens another quotation, and the last one is not closed.
  have parts : closing = 39 :: (lit " -not -path " ++ 39 :: (lit "*/.git/*" ++ 39 :: lit " -print -quit 2>/dev/null")) := by
    decide
  have opens : ∀ st : State, st.mode = .plain → ∃ w, step st 39 = ⟨.single, some w, st.tokens⟩ ∧ w.quoted = true := by
    rintro ⟨mode, word, tokens⟩ rfl
    cases word with
    | none => exact ⟨_, rfl, rfl⟩
    | some w => exact ⟨_, rfl, rfl⟩
  obtain ⟨w, first, quoted⟩ := opens st plain
  rw [parts, List.foldl_cons, first, List.foldl_append, foldl_single (by decide) w _ quoted, List.foldl_cons]
  have between := foldl_word (s := lit "*/.git/*") (by decide +kernel)
    (step ⟨.single, some { w with value := w.value ++ lit " -not -path " }, st.tokens⟩ 39) rfl (by simp [step])
  rw [List.foldl_append]
  obtain ⟨w', second, quoted'⟩ := opens _ between.1
  rw [List.foldl_cons, second, foldl_single (by decide) w' _ quoted']
  rfl

theorem closing_single {st : State} (single : st.mode = .single) :
    finish (closing.foldl step st) = some (st.flush.tokens ++ restTokens) := by
  obtain ⟨mode, word, tokens⟩ := st
  subst single
  have two : step (step ⟨.single, word, tokens⟩ 39) 32 = ⟨.plain, none, (⟨.single, word, tokens⟩ : State).flush.tokens⟩ := by
    cases word <;> rfl
  rw [closing_eq, List.foldl_cons, List.foldl_cons, two, finish_closed]

theorem closing_escape {st : State} (escape : st.mode = .escape) :
    finish (closing.foldl step st) = some ((st.add 39 true true).flush.tokens ++ restTokens) := by
  obtain ⟨mode, word, tokens⟩ := st
  subst escape
  have two : step (step ⟨.escape, word, tokens⟩ 39) 32 =
      ⟨.plain, none, ((⟨.escape, word, tokens⟩ : State).add 39 true true).flush.tokens⟩ := by
    cases word <;> rfl
  rw [closing_eq, List.foldl_cons, List.foldl_cons, two, finish_closed]

theorem closing_double {st : State} (double : st.mode = .double) : finish (closing.foldl step st) = none := by
  have still := foldl_double (s := closing) (by decide +kernel) double
  rw [finish, still]

theorem closing_doubleEscape {st : State} (escape : st.mode = .doubleEscape) : finish (closing.foldl step st) = none := by
  have first : (step st 39).mode = .double := by
    rw [step, escape]
    rfl
  have still := foldl_double (s := 32 :: closed) (by decide +kernel) first
  rw [closing_eq, List.foldl_cons, finish, still]

theorem closing_comment {st : State} (comment : st.mode = .comment) :
    finish (closing.foldl step st) = some st.flush.tokens := by
  rw [foldl_comment (by decide) comment, finish, comment]

/-- The line is read as the command just when no quote in the glob ends the word. -/
theorem find_tokens (g : Bytes) : shellTokens (opening ++ g ++ closing) = some (findTokens g) ↔ 39 ∉ g := by
  rw [shellTokens, List.foldl_append, List.foldl_append, foldl_opening]
  constructor
  · intro read quote
    obtain ⟨a, b, rfl, first⟩ := List.eq_append_cons_of_mem quote
    rw [List.foldl_append, foldl_single first _ _ rfl, List.foldl_cons] at read
    have broken : step ⟨.single, some ⟨[] ++ a, true, true⟩, firstTokens⟩ 39 =
        ⟨.plain, some ⟨a, true, true⟩, firstTokens⟩ := rfl
    rw [broken] at read
    have slack := slack_foldl b ⟨.plain, some ⟨a, true, true⟩, firstTokens⟩
      (k := sizes firstTokens + a.length + 1) (Nat.le_refl _)
    revert read slack
    generalize b.foldl step ⟨.plain, some ⟨a, true, true⟩, firstTokens⟩ = st
    intro read slack
    have size : sizes (findTokens (a ++ 39 :: b)) = sizes firstTokens + ((a.length + (b.length + 1)) + sizes restTokens) := by
      rw [findTokens, sizes_append]
      simp [sizes, Token.size]
    cases mode : st.mode with
    | plain =>
      rw [closing_plain mode] at read
      cases read
    | single =>
      rw [closing_single mode] at read
      have same := congrArg sizes (Option.some.inj read)
      rw [sizes_append, sizes_flush, size] at same
      rw [mode, Mode.slack] at slack
      omega
    | double =>
      rw [closing_double mode] at read
      cases read
    | escape =>
      rw [closing_escape mode] at read
      have same := congrArg sizes (Option.some.inj read)
      rw [sizes_append, sizes_flush, add_size, size] at same
      rw [mode, Mode.slack] at slack
      omega
    | doubleEscape =>
      rw [closing_doubleEscape mode] at read
      cases read
    | comment =>
      rw [closing_comment mode] at read
      have same := congrArg sizes (Option.some.inj read)
      rw [sizes_flush, size] at same
      rw [mode, Mode.slack] at slack
      omega
  · intro plain
    rw [foldl_single plain _ _ rfl, closing_single rfl]
    rfl

/-- What holds of every item that is taken holds of the globs. -/
theorem pathLines_all {P : CString → Prop} (lines : List Bytes) : ∀ (in_paths : Bool) (globs : List CString),
    (∀ line ∈ lines, ∀ v, pathItem line = some v → P (cstr (v.take 255))) → (∀ g ∈ globs, P g) →
      ∀ g ∈ pathLines in_paths lines globs, P g := by
  induction lines with
  | nil => exact fun _ _ _ before => before
  | cons line lines ih =>
    intro in_paths globs items before
    have later := fun l (member : l ∈ lines) => items l (List.mem_cons_of_mem _ member)
    rw [pathLines]
    split_ifs
    · exact before
    · exact ih _ globs later before
    · split
      · next v item =>
        refine ih _ _ later ?_
        split_ifs
        · intro g member
          rcases List.mem_append.mp member with old | new
          · exact before g old
          · rw [List.mem_singleton.mp new]
            exact items line (by simp) v item
        · exact before
      · exact ih _ globs later before
    · exact ih _ globs later before

theorem pathLines_short (lines : List Bytes) (in_paths : Bool) (paths : List CString) (short : ∀ g ∈ paths, g.val.length ≤ 255) :
    ∀ g ∈ pathLines in_paths lines paths, g.val.length ≤ 255 :=
  pathLines_all lines in_paths paths (fun _ _ _ _ => (List.takeWhile_prefix _).length_le.trans (List.length_take_le _ _)) short

theorem parse_rule_short {path : CString} {file : Option Bytes} {r : rule_t} (parsed : parse_rule path file = some r) :
    ∀ g ∈ r.paths, g.val.length ≤ 255 := by
  obtain ⟨bytes, -, rfl⟩ := Option.map_eq_some_iff.mp parsed
  simp only
  split_ifs
  · split
    · simp
    · exact pathLines_short _ _ _ (by simp)
  · simp

theorem stripStars_length (g : CString) : (stripStars g).length ≤ g.val.length := by
  unfold stripStars
  split_ifs <;> simp

/-- The stars that are dropped hold no quote. -/
theorem stripStars_quote (g : CString) : 39 ∈ stripStars g ↔ 39 ∈ g.val := by
  unfold stripStars
  split_ifs with stars
  · obtain ⟨rest, whole⟩ := stars
    rw [← whole, List.drop_append_of_le_length (by decide)]
    have none : 39 ∉ lit "**/" := by decide
    simp [none, show (lit "**/").drop 3 = [] from rfl]
  · rfl

theorem findCommand_eq {g : CString} (short : g.val.length ≤ 255) : findCommand g = opening ++ stripStars g ++ closing := by
  have stripped := stripStars_length g
  have before : opening.length = 22 := by decide
  have after : closing.length = 48 := by decide
  refine List.take_of_length_le ?_
  simp only [List.length_append]
  omega

theorem runFinds_commands (paths : List CString) : ∀ answers : ℕ → Option Bool,
    ∀ cmd ∈ (runFinds answers paths).2, ∃ g ∈ paths, cmd = findCommand g := by
  induction paths with
  | nil => intro answers cmd member; cases member
  | cons g paths ih =>
    intro answers cmd member
    rw [runFinds] at member
    by_cases found : answers 0 = some true
    · rw [if_pos found, List.mem_singleton] at member
      exact ⟨g, by simp, member⟩
    · rw [if_neg found] at member
      rcases List.mem_cons.mp member with rfl | later
      · exact ⟨g, by simp, rfl⟩
      · obtain ⟨g', inside, same⟩ := ih _ cmd later
        exact ⟨g', by simp [inside], same⟩

/-- The commands of a rule are those of its globs, and each is read as `find` with
    the glob after `-name` just when there is no single quote in the glob. -/
theorem glob_is_data (path : CString) (file : Bytes) (r : rule_t) (parsed : parse_rule path (some file) = some r) :
    (∀ answers, ∀ cmd ∈ (rule_applies answers r).2, ∃ g ∈ r.paths, cmd = findCommand g) ∧
      ∀ g ∈ r.paths, (shellTokens (findCommand g) = some (findTokens (stripStars g)) ↔ 39 ∉ g.val) := by
  constructor
  · intro answers cmd member
    unfold rule_applies at member
    split_ifs at member
    · cases member
    · exact runFinds_commands r.paths answers cmd member
  · intro g member
    rw [findCommand_eq (parse_rule_short parsed g member), find_tokens, stripStars_quote]

/-- A rule file whose glob runs a command. -/
def injection : Bytes := lit "---\npaths:\n  - a';id;'b\n---\n"

theorem injection_parsed : parse_rule (cs "r.md") (some injection) = some ⟨cs "r.md", [cs "a';id;'b"], cstr injection⟩ := by
  decide +kernel

theorem glob_is_data_injection :
    (∀ answers, ∀ cmd ∈ (rule_applies answers ⟨cs "r.md", [cs "a';id;'b"], cstr injection⟩).2,
        ∃ g ∈ [cs "a';id;'b"], cmd = findCommand g) ∧
      ∀ g ∈ [cs "a';id;'b"], (shellTokens (findCommand g) = some (findTokens (stripStars g)) ↔ 39 ∉ g.val) :=
  glob_is_data (cs "r.md") injection ⟨cs "r.md", [cs "a';id;'b"], cstr injection⟩ injection_parsed

theorem glob_runs :
    ¬∀ (path : CString) (file : Bytes) (r : rule_t), parse_rule path (some file) = some r →
      ∀ g ∈ r.paths, shellTokens (findCommand g) = some (findTokens (stripStars g)) := by
  intro data
  have read := data (cs "r.md") injection ⟨cs "r.md", [cs "a';id;'b"], cstr injection⟩ injection_parsed (cs "a';id;'b") (by simp)
  revert read
  decide +kernel

end Sa.Rules
