import Sa.LogicalLines
import Sa.Chat

/-!
# Prompts from the input

The loop of `main` that reads prompts from the standard input through a buffer of
8192 bytes. A line that does not fit comes to it as several prompts, and what the
commands of a turn read of the input does not come to it at all (`one_prompt_a_line`).
-/

namespace Sa.Prompts
open Sa.CStrings Sa.Tinyjson Sa.Stream Sa.Http Sa.Session Sa.Chat Sa.Skills Sa.LogicalLines

/-- The newline at the end is dropped. -/
def chomp (line : CString) : CString :=
  if line.val.getLast? = some 10 then cstr line.val.dropLast else line

/-- The standard input: what is read ahead of the loop, what is still to be read, and how
    many bytes the next reads deliver. -/
structure Stdin where
  ahead : Bytes
  unread : Bytes
  reads : List ℕ

def Stdin.bytes (stdin : Stdin) : Bytes := stdin.ahead ++ stdin.unread

/-- Something is read where nothing is left of what was read ahead. -/
def Stdin.fill (stdin : Stdin) : Stdin :=
  if stdin.ahead = [] then
    let n := max 1 (stdin.reads.headD 4096)
    ⟨stdin.unread.take n, stdin.unread.drop n, stdin.reads.tail⟩
  else stdin

/-- The loop of `fgets`, with room for so many bytes more behind `line`. -/
def fgetsLoop : ℕ → Bytes → Stdin → Bytes × Stdin
  | 0, line, stdin => (line, stdin)
  | room + 1, line, stdin =>
    let stdin := stdin.fill
    match stdin.ahead with
    | [] => (line, stdin)
    | c :: ahead =>
      let stdin := { stdin with ahead := ahead }
      if c = 10 then (line ++ [c], stdin) else fgetsLoop room (line ++ [c]) stdin

def Stdin.fgets (stdin : Stdin) (size : ℕ) : Option (Bytes × Stdin) :=
  match fgetsLoop (size - 1) [] stdin with
  | ([], _) => none
  | (line, stdin) => some (line, stdin)

/-- What a prompt's turn meets: whether the session file can be opened for the prompt,
    the passes of `chat_turn`, and how much its commands read of what is unread: a shell
    that `run_shell` starts has the same standard input. -/
structure Turn where
  opens : Bool
  world : ℕ → Iteration
  takes : ℕ

/-- The outcome of the loop: the return code, the messages, what happened to the file,
    the user messages that were appended, and the bytes that commands took. -/
structure Outcome where
  rc : Int
  messages : List cJSON
  ops : List FileOp
  asked : List cJSON
  taken : Bytes

/-- The loop; `turns` is what the turns still to come meet. Each pass reads a byte at
    least, so the bytes to come bound the passes. -/
def replLoop : ℕ → (ℕ → Turn) → List cJSON → Stdin → Outcome
  | 0, _, messages, _ => ⟨0, messages, [], [], []⟩
  | fuel + 1, turns, messages, stdin =>
    match stdin.fgets 8192 with
    | none => ⟨0, messages, [], [], []⟩
    | some (piece, stdin) =>
      let line := chomp (cstr piece)
      if line.val.length = 0 then replLoop fuel turns messages stdin
      else
        let user_msg := make_user_msg line
        let ops := session_append (turns 0).opens user_msg
        let (r, messages, more) := chat_turn (turns 0).world (messages ++ [user_msg])
        let taken := stdin.unread.take (turns 0).takes
        if r = 1 then ⟨1, messages, ops ++ more, [user_msg], taken⟩
        else
          let stdin := { stdin with unread := stdin.unread.drop (turns 0).takes }
          let rest := replLoop fuel (fun i => turns (i + 1)) messages stdin
          ⟨rest.rc, rest.messages, ops ++ more ++ rest.ops, user_msg :: rest.asked, taken ++ rest.taken⟩

/-- The loop on a standard input of these bytes, and these reads of it. -/
def readPrompts (turns : ℕ → Turn) (messages : List cJSON) (stdin : CString) (reads : List ℕ) : Outcome :=
  replLoop (stdin.val.length + 1) turns messages ⟨[], stdin.val, reads⟩

/-! ### Lines -/

/-- The lines that are not empty. -/
def filledLines (s : Bytes) : List Bytes := (s.splitOn 10).filter (· ≠ [])

/-- As long as no turn returns 1, the messages of the input are its lines that are not empty. -/
def OnePromptALine (turns : ℕ → Turn) (messages : List cJSON) (stdin : CString) (reads : List ℕ) : Prop :=
  (readPrompts turns messages stdin reads).rc ≠ 1 →
    (readPrompts turns messages stdin reads).asked = (filledLines stdin.val).map fun l => make_user_msg (cstr l)

/-- The texts of the prompts that come of the pieces. -/
def texts (pieces : List Bytes) : List CString :=
  (pieces.map fun piece => chomp (cstr piece)).filter fun line => line.val ≠ []

theorem bytes_fill (stdin : Stdin) : stdin.fill.bytes = stdin.bytes := by
  unfold Stdin.fill Stdin.bytes
  split_ifs with empty
  · simp [empty]
  · rfl

/-- Nothing is read ahead only where there is nothing more. -/
theorem fill_nil {stdin : Stdin} (none : stdin.fill.ahead = []) : stdin.bytes = [] := by
  rw [← bytes_fill]
  unfold Stdin.fill Stdin.bytes at *
  split_ifs at none ⊢ with empty
  · have nothing : stdin.unread = [] := by
      rcases List.take_eq_nil_iff.mp none with zero | nothing
      · omega
      · exact nothing
    simp [nothing]
  · exact absurd none empty

/-- The piece that comes next, in one go with all that is still to come. -/
theorem fgetsLoop_pieces (room : ℕ) : ∀ (line : Bytes) (stdin : Stdin), 0 < room → line ++ stdin.bytes ≠ [] →
    fgets (line.length + room + 1) line stdin.bytes =
      (fgetsLoop room line stdin).1 :: fgets (line.length + room + 1) [] (fgetsLoop room line stdin).2.bytes := by
  induction room with
  | zero => exact fun _ _ positive => absurd positive (Nat.lt_irrefl 0)
  | succ room ih =>
    intro line stdin _ some
    rw [fgetsLoop]
    cases ahead : stdin.fill.ahead with
    | nil =>
      have nothing := fill_nil ahead
      have left : stdin.fill.bytes = [] := by rw [bytes_fill, nothing]
      have filled : line ≠ [] := by simpa [nothing] using some
      simp only [left, nothing, fgets, if_neg filled, if_true]
    | cons c more =>
      have bytes : stdin.bytes = c :: (more ++ stdin.fill.unread) := by
        rw [← bytes_fill, Stdin.bytes, ahead]
        rfl
      rw [bytes, fgets]
      simp only
      by_cases newline : c = 10
      · rw [if_pos (.inl newline), if_pos newline]
        rfl
      rw [if_neg newline]
      by_cases full : room = 0
      · subst full
        rw [if_pos (.inr (by omega))]
        rfl
      · rw [if_neg (not_or.mpr ⟨newline, by omega⟩)]
        have size : line.length + (room + 1) + 1 = (line ++ [c]).length + room + 1 := by
          rw [List.length_append, List.length_singleton]
          omega
        rw [size]
        exact ih (line ++ [c]) { stdin.fill with ahead := more } (by omega) (by simp)

/-- A piece is a part of a line, with its newline if it is the last. -/
theorem fgetsLoop_line (room : ℕ) : ∀ (line : Bytes) (stdin : Stdin), 10 ∉ line →
    line ++ stdin.bytes = (fgetsLoop room line stdin).1 ++ (fgetsLoop room line stdin).2.bytes ∧
      ∃ l, 10 ∉ l ∧ l.length ≤ line.length + room ∧ ((fgetsLoop room line stdin).1 = l ∨ (fgetsLoop room line stdin).1 = l ++ [10]) := by
  induction room with
  | zero => exact fun line stdin one => ⟨rfl, line, one, Nat.le_refl _, .inl rfl⟩
  | succ room ih =>
    intro line stdin one
    rw [fgetsLoop]
    cases ahead : stdin.fill.ahead with
    | nil =>
      refine ⟨?_, line, one, by omega, .inl rfl⟩
      rw [bytes_fill]
    | cons c more =>
      have bytes : stdin.bytes = c :: (more ++ stdin.fill.unread) := by
        rw [← bytes_fill, Stdin.bytes, ahead]
        rfl
      simp only
      by_cases newline : c = 10
      · rw [if_pos newline]
        refine ⟨?_, line, one, by omega, .inr (by rw [newline])⟩
        rw [bytes, List.append_assoc]
        rfl
      · rw [if_neg newline]
        have fresh : 10 ∉ line ++ [c] := by simp [one, Ne.symm newline]
        obtain ⟨split, l, plain, short, text⟩ := ih (line ++ [c]) { stdin.fill with ahead := more } fresh
        refine ⟨?_, l, plain, ?_, text⟩
        · rw [← split, bytes, List.append_assoc]
          rfl
        · rw [List.length_append, List.length_singleton] at short
          omega

/-- There is nothing more, or a piece comes of a line. -/
theorem fgets_cases (stdin : Stdin) : stdin.fgets 8192 = none ∧ stdin.bytes = [] ∨
    ∃ piece rest l, stdin.fgets 8192 = some (piece, rest) ∧ piece ≠ [] ∧ stdin.bytes = piece ++ rest.bytes ∧
      fgets 8192 [] stdin.bytes = piece :: fgets 8192 [] rest.bytes ∧
      10 ∉ l ∧ l.length ≤ 8191 ∧ (piece = l ∨ piece = l ++ [10]) := by
  obtain ⟨split, l, one, short, text⟩ := fgetsLoop_line 8191 [] stdin (by simp)
  have pieces := fgetsLoop_pieces 8191 [] stdin (by decide)
  unfold Stdin.fgets
  revert split text pieces
  rcases fgetsLoop (8192 - 1) [] stdin with ⟨_ | ⟨c, piece⟩, rest⟩ <;> intro split text pieces
  · left
    refine ⟨rfl, ?_⟩
    -- A piece is empty only at the end, or the same pieces would come for ever.
    by_contra some
    have again := pieces (by simpa using some)
    rw [List.nil_append, List.nil_append] at split
    rw [← split] at again
    exact List.cons_ne_self _ _ again.symm
  · right
    rw [List.nil_append] at split
    refine ⟨c :: piece, rest, l, rfl, by simp, split, pieces ?_, one, by simpa using short, text⟩
    rw [List.nil_append, split]
    simp

/-- The bytes that are no newlines. -/
def filled (s : Bytes) : ℕ := s.countP (· != 10)

theorem filled_append (s t : Bytes) : filled (s ++ t) = filled s + filled t := List.countP_append

theorem filled_line {l : Bytes} (one : 10 ∉ l) : filled l = l.length := by
  rw [filled, List.countP_eq_length]
  intro b member
  simp only [bne_iff_ne, ne_eq]
  rintro rfl
  exact one member

theorem chomp_line {l : Bytes} (free : 0 ∉ l) : chomp (cstr (l ++ [10])) = cstr l := by
  have whole : (cstr (l ++ [10])).val = l ++ [10] := cstr_of_nulFree (by simpa using free)
  simp [chomp, whole]

theorem chomp_plain {l : Bytes} (free : 0 ∉ l) (one : 10 ∉ l) : chomp (cstr l) = cstr l := by
  have last : l.getLast? ≠ some 10 := fun same => one (List.mem_of_getLast? same)
  rw [chomp, cstr_of_nulFree free, if_neg last]

/-- What a piece is without its newline. -/
theorem chomp_piece {l piece : Bytes} (free : 0 ∉ piece) (one : 10 ∉ l) (text : piece = l ∨ piece = l ++ [10]) :
    (chomp (cstr piece)).val = l ∧ filled piece = l.length := by
  rcases text with rfl | rfl
  · rw [chomp_plain free one, cstr_of_nulFree free, filled_line one]
    exact ⟨rfl, rfl⟩
  · have free' : 0 ∉ l := fun member => free (List.mem_append_left _ member)
    rw [chomp_line free', cstr_of_nulFree free', filled_append, filled_line one]
    exact ⟨rfl, rfl⟩

/-- The user messages are made of short texts, which hold all that is no newline and that
    no command took; where none took anything they are those of the pieces of the input. -/
theorem replLoop_asked (fuel : ℕ) : ∀ turns messages (stdin : Stdin), stdin.bytes.length < fuel → 0 ∉ stdin.bytes →
    (replLoop fuel turns messages stdin).rc ≠ 1 → ∃ lines : List CString,
      (replLoop fuel turns messages stdin).asked = lines.map make_user_msg ∧ (∀ line ∈ lines, line.val.length ≤ 8191) ∧
      (lines.map fun line => line.val.length).sum + filled (replLoop fuel turns messages stdin).taken = filled stdin.bytes ∧
      ((replLoop fuel turns messages stdin).taken = [] → lines = texts (fgets 8192 [] stdin.bytes)) := by
  induction fuel with
  | zero => exact fun _ _ _ enough => absurd enough (Nat.not_lt_zero _)
  | succ fuel ih =>
    intro turns messages stdin enough free went
    rcases fgets_cases stdin with ⟨ended, nothing⟩ | ⟨piece, rest, l, read, some, split, pieces, one, short, text⟩
    · unfold replLoop
      rw [ended]
      exact ⟨[], rfl, by simp, by simp [nothing, filled], fun _ => by simp [nothing, fgets, texts]⟩
    rw [split, List.mem_append, not_or] at free
    obtain ⟨line, all⟩ := chomp_piece free.1 one text
    have fewer : rest.bytes.length < fuel := by
      have size := congrArg List.length split
      rw [List.length_append] at size
      have positive := List.length_pos_of_ne_nil some
      omega
    unfold replLoop at went ⊢
    rw [read] at went ⊢
    simp only [line] at went ⊢
    by_cases empty : l = []
    · simp only [empty, List.length_nil, if_true] at went ⊢
      obtain ⟨lines, asked, shorts, sum, same⟩ := ih turns messages rest fewer free.2 went
      refine ⟨lines, asked, shorts, ?_, fun none => ?_⟩
      · rw [split, filled_append, all, empty, List.length_nil, Nat.zero_add]
        exact sum
      · rw [pieces, same none]
        simp [texts, line, empty]
    · have length : l.length ≠ 0 := by simpa using empty
      simp only [if_neg length] at went ⊢
      revert went
      obtain ⟨r, messages', more⟩ := chat_turn (turns 0).world (messages ++ [make_user_msg (chomp (cstr piece))])
      intro went
      by_cases stop : r = 1
      · simp [stop] at went
      simp only [if_neg stop] at went ⊢
      -- What the commands leave of the input.
      have left : rest.bytes = rest.ahead ++ rest.unread.take (turns 0).takes ++ rest.unread.drop (turns 0).takes := by
        rw [List.append_assoc, List.take_append_drop]
        rfl
      obtain ⟨lines, asked, shorts, sum, same⟩ := ih (fun i => turns (i + 1)) messages'
        { rest with unread := rest.unread.drop (turns 0).takes } (by
          refine lt_of_le_of_lt ?_ fewer
          rw [left]
          simp only [Stdin.bytes, List.length_append]
          omega) (fun member => free.2 (by
          rw [left]
          rcases List.mem_append.mp member with before | behind
          · exact List.mem_append_left _ (List.mem_append_left _ before)
          · exact List.mem_append_right _ behind)) went
      refine ⟨chomp (cstr piece) :: lines, by rw [asked, List.map_cons], ?_, ?_, fun none => ?_⟩
      · intro t member
        rcases List.mem_cons.mp member with rfl | later
        · rw [line]
          exact short
        · exact shorts t later
      · rw [split, filled_append, left, filled_append, filled_append, all, List.map_cons, List.sum_cons, line, filled_append]
        simp only [Stdin.bytes, filled_append] at sum
        omega
      · rw [List.append_eq_nil_iff] at none
        have whole : ({ rest with unread := rest.unread.drop (turns 0).takes } : Stdin).bytes = rest.bytes := by
          rw [left, none.1, List.append_nil]
          rfl
        rw [pieces, same none.2, whole]
        simp [texts, line, empty]

/-- The loop is `repl` on the prompts that it makes of the input. -/
theorem replLoop_repl (fuel : ℕ) : ∀ turns messages (stdin : Stdin), ∃ prompts : List Prompt,
    (prompts.map fun p => make_user_msg p.text) = (replLoop fuel turns messages stdin).asked ∧
      repl prompts messages = ((replLoop fuel turns messages stdin).rc, (replLoop fuel turns messages stdin).messages,
        (replLoop fuel turns messages stdin).ops) := by
  induction fuel with
  | zero => exact fun _ _ _ => ⟨[], rfl, rfl⟩
  | succ fuel ih =>
    intro turns messages stdin
    unfold replLoop
    cases stdin.fgets 8192 with
    | none => exact ⟨[], rfl, rfl⟩
    | some read =>
      obtain ⟨piece, rest⟩ := read
      simp only
      by_cases empty : (chomp (cstr piece)).val.length = 0
      · simp only [if_pos empty]
        exact ih turns messages rest
      simp only [if_neg empty]
      have named : chomp (cstr piece) ≠ emptyString := by
        intro none
        exact empty (by rw [none]; rfl)
      cases turn : chat_turn (turns 0).world (messages ++ [make_user_msg (chomp (cstr piece))]) with
      | mk r after =>
        obtain ⟨messages', more⟩ := after
        simp only
        by_cases stop : r = 1
        · refine ⟨[⟨chomp (cstr piece), (turns 0).opens, (turns 0).world⟩], by simp [stop], ?_⟩
          simp [repl, ask, named, turn, stop]
        · obtain ⟨prompts, asked, same⟩ := ih (fun i => turns (i + 1)) messages'
            { rest with unread := rest.unread.drop (turns 0).takes }
          refine ⟨⟨chomp (cstr piece), (turns 0).opens, (turns 0).world⟩ :: prompts, ?_, ?_⟩
          · rw [List.map_cons, asked, if_neg stop]
          · simp [repl, ask, named, turn, stop, same]

/-! ### Lines that fit -/

theorem texts_cons {piece l : Bytes} (pieces : List Bytes) (free : 0 ∉ l) (line : chomp (cstr piece) = cstr l) :
    texts (piece :: pieces) = (if l = [] then [] else [cstr l]) ++ texts pieces := by
  have value := cstr_of_nulFree free
  by_cases empty : l = []
  · subst empty
    simp [texts, line, value]
  · simp [texts, line, value, empty]

theorem filledLines_cons {l : Bytes} (one : 10 ∉ l) (rest : Bytes) :
    filledLines (l ++ 10 :: rest) = (if l = [] then [] else [l]) ++ filledLines rest := by
  rw [filledLines, List.splitOn_append_cons_self, List.splitOn_eq_singleton one]
  by_cases empty : l = [] <;> simp [filledLines, empty]

theorem filledLines_end {l : Bytes} (one : 10 ∉ l) : filledLines l = if l = [] then [] else [l] := by
  rw [filledLines, List.splitOn_eq_singleton one]
  by_cases empty : l = [] <;> simp [empty]

/-- The texts are the lines when each fits; one that fills the buffer leaves its newline to
    the next read, which is then an empty line. -/
theorem texts_lines (n : ℕ) : ∀ s : Bytes, s.length ≤ n → 0 ∉ s → (∀ l ∈ s.splitOn 10, l.length ≤ 8191) →
    texts (fgets 8192 [] s) = (filledLines s).map cstr := by
  induction n with
  | zero =>
    intro s short _ _
    rw [List.length_eq_zero_iff.mp (Nat.le_zero.mp short)]
    rfl
  | succ n ih =>
    intro s short free fits
    rcases lines_cases s with rfl | ⟨one, some⟩ | ⟨l, rest, one, rfl⟩
    · rfl
    · have room : s.length ≤ 8191 := fits s (by simp [List.splitOn_eq_singleton one])
      have read : fgets 8192 [] s = [s] := by
        rcases room.lt_or_eq with less | full
        · exact fgets_end one [] some (by simp only [List.length_nil]; omega)
        · have filled : ([] : Bytes).length + s.length + 1 = 8192 := by
            simp only [List.length_nil]
            omega
          have taken := fgets_full one some [] [] filled
          simpa [fgets] using taken
      rw [read, texts_cons [] free (chomp_plain free one), filledLines_end one]
      simp [some, texts]
    · simp only [List.mem_append, List.mem_cons, not_or] at free
      simp only [List.length_append, List.length_cons] at short
      rw [List.splitOn_append_cons_self, List.splitOn_eq_singleton one] at fits
      have room : l.length ≤ 8191 := fits l (by simp)
      have next := ih rest (by omega) free.2.2 fun l' member => fits l' (by simp [member])
      rw [filledLines_cons one]
      rcases room.lt_or_eq with less | full
      · rw [fgets_line one [] rest (by simp only [List.length_nil]; omega), List.nil_append,
          texts_cons _ free.1 (chomp_line free.1), next]
        split_ifs <;> simp
      · have some : l ≠ [] := List.ne_nil_of_length_pos (by omega)
        have left : fgets 8192 [] (10 :: rest) = ([] ++ [10]) :: fgets 8192 [] rest := by simp [fgets]
        have blank := texts_cons (fgets 8192 [] rest) (l := []) (by simp) (chomp_line (by simp))
        rw [fgets_full one some [] _ (by simp only [List.length_nil]; omega), left, List.nil_append,
          texts_cons _ free.1 (chomp_plain free.1 one), blank, next]
        simp [some]

/-- A turn that a signal ends at once. -/
def interrupted : Turn :=
  ⟨false, fun _ => ⟨true, ⟨false, ⟨[], [], [], false⟩⟩, false, false, false, fun _ => ⟨fun s => s, fun s _ _ => s, fun s _ _ => s⟩⟩, 0⟩

theorem interrupted_goes_on (fuel : ℕ) : ∀ messages (stdin : Stdin), (replLoop fuel (fun _ => interrupted) messages stdin).rc ≠ 1 := by
  induction fuel with
  | zero => simp [replLoop]
  | succ fuel ih =>
    intro messages stdin
    have code : ∀ messages, (chat_turn interrupted.world messages).1 = 130 := fun _ => rfl
    unfold replLoop
    cases stdin.fgets 8192 with
    | none => simp
    | some read =>
      simp only
      by_cases empty : (chomp (cstr read.1)).val.length = 0
      · simp only [empty, if_true]
        exact ih messages read.2
      · simp only [if_neg empty, code, Int.reduceEq, if_false]
        exact ih _ _

theorem make_user_msg_injective : Function.Injective make_user_msg := by
  intro s t same
  simpa [make_user_msg] using same

theorem sum_filledLines (n : ℕ) : ∀ s : Bytes, s.length ≤ n → ((filledLines s).map List.length).sum = filled s := by
  induction n with
  | zero =>
    intro s short
    rw [List.length_eq_zero_iff.mp (Nat.le_zero.mp short)]
    rfl
  | succ n ih =>
    intro s short
    rcases lines_cases s with rfl | ⟨one, -⟩ | ⟨l, rest, one, rfl⟩
    · rfl
    · rw [filledLines_end one, filled_line one]
      split_ifs with empty <;> simp [empty]
    · simp only [List.length_append, List.length_cons] at short
      rw [filledLines_cons one, List.map_append, List.sum_append, ih rest (by omega), List.append_cons, filled_append,
        filled_append, filled_line one]
      split_ifs with empty <;> simp [empty, filled]

/-- A line is made of bytes of the text. -/
theorem line_bytes (n : ℕ) : ∀ s : Bytes, s.length ≤ n → ∀ l ∈ s.splitOn 10, ∀ b ∈ l, b ∈ s := by
  induction n with
  | zero =>
    intro s short l member b inside
    rw [List.length_eq_zero_iff.mp (Nat.le_zero.mp short)] at member
    simp_all
  | succ n ih =>
    intro s short l member b inside
    rcases lines_cases s with rfl | ⟨one, -⟩ | ⟨l', rest, one, rfl⟩
    · simp_all
    · rw [List.splitOn_eq_singleton one, List.mem_singleton] at member
      exact member ▸ inside
    · simp only [List.length_append, List.length_cons] at short
      rw [List.splitOn_append_cons_self, List.splitOn_eq_singleton one] at member
      rcases List.mem_cons.mp member with rfl | later
      · exact List.mem_append_left _ inside
      · exact List.mem_append_right _ (List.mem_cons_of_mem _ (ih rest (by omega) l later b inside))

/-- When each line is one prompt, each fits into the buffer, and commands took newlines at most. -/
theorem lines_fit {turns : ℕ → Turn} {messages : List cJSON} {stdin : CString} {reads : List ℕ}
    (went : (readPrompts turns messages stdin reads).rc ≠ 1) (exact : OnePromptALine turns messages stdin reads) :
    (∀ l ∈ stdin.val.splitOn 10, l.length ≤ 8191) ∧ ∀ b ∈ (readPrompts turns messages stdin reads).taken, b = 10 := by
  obtain ⟨lines, asked, shorts, sum, -⟩ := replLoop_asked (stdin.val.length + 1) turns messages ⟨[], stdin.val, reads⟩
    (Nat.lt_succ_self _) stdin.property went
  have whole := exact went
  rw [readPrompts, asked] at whole
  have free : ∀ l ∈ filledLines stdin.val, 0 ∉ l := fun l member nul =>
    stdin.property (line_bytes _ _ le_rfl l (List.mem_filter.mp member).1 0 nul)
  have same : lines = (filledLines stdin.val).map cstr := by
    apply List.map_injective_iff.mpr make_user_msg_injective
    rw [whole, List.map_map]
    rfl
  constructor
  · intro l member
    by_contra long
    have some : l ≠ [] := by
      rintro rfl
      simp at long
    have filled : l ∈ filledLines stdin.val := by simp [filledLines, member, some]
    have short := shorts (cstr l) (same ▸ List.mem_map_of_mem filled)
    rw [cstr_of_nulFree (free l filled)] at short
    exact long short
  · have lengths : (lines.map fun line => line.val.length) = (filledLines stdin.val).map List.length := by
      rw [same, List.map_map]
      refine List.map_congr_left fun l member => ?_
      show (cstr l).val.length = l.length
      rw [cstr_of_nulFree (free l member)]
    have bytes : (⟨[], stdin.val, reads⟩ : Stdin).bytes = stdin.val := rfl
    rw [lengths, bytes, sum_filledLines _ stdin.val le_rfl] at sum
    have nothing : filled (readPrompts turns messages stdin reads).taken = 0 := by
      rw [readPrompts]
      omega
    intro b member
    simpa using List.countP_eq_zero.mp nothing b member

theorem taken_nil (fuel : ℕ) : ∀ (turns : ℕ → Turn) (messages : List cJSON) (stdin : Stdin), (∀ i, (turns i).takes = 0) →
    (replLoop fuel turns messages stdin).taken = [] := by
  induction fuel with
  | zero => exact fun _ _ _ _ => rfl
  | succ fuel ih =>
    intro turns messages stdin untouched
    unfold replLoop
    cases stdin.fgets 8192 with
    | none => rfl
    | some read =>
      obtain ⟨piece, stdin⟩ := read
      simp only [untouched 0, List.take_zero, List.drop_zero, List.nil_append]
      split_ifs
      · exact ih turns messages stdin untouched
      · rfl
      · exact ih _ _ _ fun i => untouched (i + 1)

/-- Each line of the input is one prompt if each fits into the buffer and no command takes any of
    the input; each has to fit, and commands may take newlines at most. -/
theorem one_prompt_a_line (turns : ℕ → Turn) (messages : List cJSON) (stdin : CString) (reads : List ℕ) :
    ((∀ l ∈ stdin.val.splitOn 10, l.length ≤ 8191) ∧ (∀ i, (turns i).takes = 0) → OnePromptALine turns messages stdin reads) ∧
      ((readPrompts turns messages stdin reads).rc ≠ 1 → OnePromptALine turns messages stdin reads →
        (∀ l ∈ stdin.val.splitOn 10, l.length ≤ 8191) ∧ ∀ b ∈ (readPrompts turns messages stdin reads).taken, b = 10) := by
  refine ⟨fun ⟨fits, untouched⟩ went => ?_, lines_fit⟩
  obtain ⟨lines, asked, -, -, same⟩ := replLoop_asked (stdin.val.length + 1) turns messages ⟨[], stdin.val, reads⟩
    (Nat.lt_succ_self _) stdin.property went
  have pieces := same (taken_nil _ turns messages _ untouched)
  have bytes : (⟨[], stdin.val, reads⟩ : Stdin).bytes = stdin.val := rfl
  rw [bytes, texts_lines _ stdin.val le_rfl stdin.property fits] at pieces
  rw [readPrompts, asked, pieces, List.map_map]
  rfl

/-- A line of 8192 bytes is not. -/
theorem long_line_cut : ¬∀ turns messages stdin reads, OnePromptALine turns messages stdin reads := by
  intro exact
  have free : ∀ b ∈ List.replicate 8192 (120 : UInt8), b = 120 := fun b member => List.eq_of_mem_replicate member
  have one : 10 ∉ List.replicate 8192 (120 : UInt8) := fun member => absurd (free 10 member) (by decide)
  have fits := (lines_fit (interrupted_goes_on _ _ _) (exact (fun _ => interrupted) []
    ⟨List.replicate 8192 120, fun member => absurd (free 0 member) (by decide)⟩ [])).1 (List.replicate 8192 120)
    (by rw [List.splitOn_eq_singleton one]; exact List.mem_singleton_self _)
  rw [List.length_replicate] at fits
  exact absurd fits (by decide)

end Sa.Prompts
