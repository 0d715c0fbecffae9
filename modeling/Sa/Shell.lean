import Mathlib.Algebra.GroupWithZero.Nat
import Mathlib.Algebra.Order.Group.Nat
import Sa.CStrings

/-!
# The words of a shell line

How a POSIX shell cuts a line into words and operators and takes the quotes off,
as an automaton over its bytes (`step`). A word is literal when nothing in it asks
for an expansion. What the tokens hold is bounded by the bytes that made them
(`slack_foldl`).
-/

namespace Sa.Shell
open Sa.CStrings

inductive Token where
  | word (value : Bytes) (literal : Bool)
  | ioNumber (digits : Bytes)
  | op (b : UInt8)
  deriving DecidableEq

/-- A word that is being read. -/
structure Word where
  value : Bytes
  literal : Bool
  quoted : Bool
  deriving DecidableEq

/-- `escape` and `doubleEscape` are after a backslash, outside and inside `"`. -/
inductive Mode where
  | plain
  | single
  | double
  | escape
  | doubleEscape
  | comment
  deriving DecidableEq

structure State where
  mode : Mode
  word : Option Word
  tokens : List Token
  deriving DecidableEq

def start : State := ⟨.plain, none, []⟩

/-- The operators' bytes: `&`, `;`, `|`, parentheses, redirections and the newline. -/
def isOperator (b : UInt8) : Bool :=
  b == 38 || b == 59 || b == 124 || b == 40 || b == 41 || b == 60 || b == 62 || b == 10
/-- Parameters, commands and patterns. -/
def isExpansion (b : UInt8) : Bool := b == 36 || b == 96 || b == 42 || b == 63 || b == 91
/-- What a backslash quotes inside `"`. -/
def isDoubleEscaped (b : UInt8) : Bool := b == 36 || b == 96 || b == 34 || b == 92

/-- The byte goes to the word. -/
def State.add (st : State) (b : UInt8) (literal quoted : Bool) : State :=
  match st.word with
  | none => { st with word := some ⟨[b], literal, quoted⟩ }
  | some w => { st with word := some ⟨w.value ++ [b], w.literal && literal, w.quoted || quoted⟩ }

/-- A quote makes a word, even an empty one. -/
def State.quote (st : State) (mode : Mode) : State :=
  match st.word with
  | none => { st with mode := mode, word := some ⟨[], true, true⟩ }
  | some w => { st with mode := mode, word := some { w with quoted := true } }

/-- The word is at its end. -/
def State.flush (st : State) : State :=
  match st.word with
  | none => st
  | some w => { st with word := none, tokens := st.tokens ++ [.word w.value w.literal] }

/-- Digits right before a redirection are its descriptor. -/
def State.operator (st : State) (b : UInt8) : State :=
  match st.word with
  | none => { st with tokens := st.tokens ++ [.op b] }
  | some w =>
    let last := if (b = 60 ∨ b = 62) ∧ w.quoted = false ∧ w.value.all isdigit then Token.ioNumber w.value
      else .word w.value w.literal
    { st with word := none, tokens := st.tokens ++ [last, .op b] }

def step (st : State) (b : UInt8) : State :=
  match st.mode with
  | .plain =>
    if b = 32 ∨ b = 9 then st.flush
    else if b = 39 then st.quote .single
    else if b = 34 then st.quote .double
    else if b = 92 then { st with mode := .escape }
    else if b = 35 ∧ st.word = none then { st with mode := .comment }
    else if isOperator b then st.operator b
    else st.add b (!isExpansion b && !(b == 126 && st.word.isNone)) false
  | .single => if b = 39 then { st with mode := .plain } else st.add b true true
  | .double =>
    if b = 34 then { st with mode := .plain }
    else if b = 92 then { st with mode := .doubleEscape }
    else st.add b (b != 36 && b != 96) true
  | .escape => if b = 10 then { st with mode := .plain } else { st.add b true true with mode := .plain }
  | .doubleEscape =>
    if b = 10 then { st with mode := .double }
    else if isDoubleEscaped b then { st.add b true true with mode := .double }
    else { (st.add 92 true true).add b true true with mode := .double }
  | .comment => if b = 10 then { st with mode := .plain, tokens := st.tokens ++ [.op 10] } else st

/-- The tokens of a line; none when it ends inside a quotation. -/
def finish (st : State) : Option (List Token) :=
  match st.mode with
  | .plain => some st.flush.tokens
  | .comment => some st.flush.tokens
  | _ => none

def shellTokens (line : Bytes) : Option (List Token) := finish (line.foldl step start)

theorem foldl_single {s : Bytes} (plain : 39 ∉ s) (w : Word) (tokens : List Token) (quoted : w.quoted = true) :
    s.foldl step ⟨.single, some w, tokens⟩ = ⟨.single, some { w with value := w.value ++ s }, tokens⟩ := by
  induction s generalizing w with
  | nil => simp
  | cons b s ih =>
    simp only [List.mem_cons, not_or] at plain
    have one : step ⟨.single, some w, tokens⟩ b = ⟨.single, some { w with value := w.value ++ [b] }, tokens⟩ := by
      simp [step, State.add, Ne.symm plain.1, quoted]
    rw [List.foldl_cons, one, ih plain.2 { w with value := w.value ++ [b] } quoted]
    simp

theorem add_mode (st : State) (b : UInt8) (literal quoted : Bool) : (st.add b literal quoted).mode = st.mode := by
  unfold State.add
  split <;> rfl

theorem foldl_double {s : Bytes} (plain : ∀ b ∈ s, b ≠ 34 ∧ b ≠ 92) {st : State} (double : st.mode = .double) :
    (s.foldl step st).mode = .double := by
  induction s generalizing st with
  | nil => exact double
  | cons b s ih =>
    refine ih (fun c member => plain c (by simp [member])) ?_
    have other := plain b (by simp)
    rw [step, double]
    simp only [if_neg other.1, if_neg other.2, add_mode, double]

theorem foldl_comment {s : Bytes} (plain : 10 ∉ s) {st : State} (comment : st.mode = .comment) : s.foldl step st = st := by
  induction s with
  | nil => rfl
  | cons b s ih =>
    simp only [List.mem_cons, not_or] at plain
    have one : step st b = st := by
      rw [step, comment]
      exact if_neg (Ne.symm plain.1)
    rw [List.foldl_cons, one, ih plain.2]

/-- Bytes that only go to the word they stand in. -/
def isOrdinary (b : UInt8) : Bool := !(b == 32 || b == 9 || b == 39 || b == 34 || b == 92 || isOperator b)

theorem foldl_word {s : Bytes} (ordinary : ∀ b ∈ s, isOrdinary b = true) (st : State) (plain : st.mode = .plain)
    (some : st.word ≠ none) : (s.foldl step st).mode = .plain ∧ (s.foldl step st).word ≠ none := by
  induction s generalizing st with
  | nil => exact ⟨plain, some⟩
  | cons b s ih =>
    have one := ordinary b (by simp)
    simp only [isOrdinary, Bool.not_eq_true', Bool.or_eq_false_iff, beq_eq_false_iff_ne] at one
    obtain ⟨⟨⟨⟨⟨space, tab⟩, quote⟩, double⟩, escape⟩, operator⟩ := one
    have added : step st b = st.add b (!isExpansion b && !(b == 126 && st.word.isNone)) false := by
      rw [step, plain]
      simp [space, tab, quote, double, escape, operator, some]
    rw [List.foldl_cons, added]
    refine ih (fun c member => ordinary c (by simp [member])) _ ((add_mode _ _ _ _).trans plain) ?_
    unfold State.add
    split <;> simp

def State.after (before : List Token) (st : State) : State := { st with tokens := before ++ st.tokens }

section
variable (before : List Token) (st : State)

theorem flush_after : (st.after before).flush = st.flush.after before := by
  obtain ⟨mode, word, tokens⟩ := st
  cases word <;> simp [State.after, State.flush]

theorem add_after (b : UInt8) (literal quoted : Bool) :
    (st.after before).add b literal quoted = (st.add b literal quoted).after before := by
  obtain ⟨mode, word, tokens⟩ := st
  cases word <;> rfl

theorem quote_after (mode : Mode) : (st.after before).quote mode = (st.quote mode).after before := by
  obtain ⟨mode, word, tokens⟩ := st
  cases word <;> rfl

theorem operator_after (b : UInt8) : (st.after before).operator b = (st.operator b).after before := by
  obtain ⟨mode, word, tokens⟩ := st
  cases word <;> simp [State.after, State.operator]

theorem step_after (b : UInt8) : step (st.after before) b = (step st b).after before := by
  have mode : (st.after before).mode = st.mode := rfl
  have word : (st.after before).word = st.word := rfl
  have tokens : (st.after before).tokens = before ++ st.tokens := rfl
  rw [step, step, mode]
  cases st.mode with
  | plain =>
    simp only [word]
    split_ifs
    · exact flush_after before st
    · exact quote_after before st .single
    · exact quote_after before st .double
    · rfl
    · rfl
    · exact operator_after before st b
    · exact add_after before st b _ _
  | single =>
    simp only
    split_ifs
    · rfl
    · exact add_after before st b _ _
  | double =>
    simp only
    split_ifs
    · rfl
    · rfl
    · exact add_after before st b _ _
  | escape =>
    simp only [add_after]
    split_ifs <;> rfl
  | doubleEscape =>
    simp only [add_after]
    split_ifs <;> rfl
  | comment =>
    simp only [tokens]
    split_ifs
    · simp [State.after]
    · rfl

theorem finish_after : finish (st.after before) = (finish st).map (before ++ ·) := by
  have mode : (st.after before).mode = st.mode := rfl
  have flush : (st.after before).flush.tokens = before ++ st.flush.tokens := by
    rw [flush_after]
    rfl
  unfold finish
  rw [mode, flush]
  cases st.mode <;> rfl

theorem foldl_after (s : Bytes) : s.foldl step (st.after before) = (s.foldl step st).after before := by
  induction s generalizing st with
  | nil => rfl
  | cons b s ih => rw [List.foldl_cons, List.foldl_cons, step_after, ih]

end

def Token.size : Token → ℕ
  | .word value _ => value.length
  | .ioNumber digits => digits.length
  | .op _ => 1

def sizes (tokens : List Token) : ℕ := (tokens.map Token.size).sum

theorem sizes_append (xs ys : List Token) : sizes (xs ++ ys) = sizes xs + sizes ys := by
  simp [sizes]

/-- The bytes that the tokens and the word hold. -/
def State.size (st : State) : ℕ := sizes st.tokens + (st.word.map fun w => w.value.length).getD 0

/-- How many bytes of a quotation are gone, once one was closed: its quote and, while
    another is open, that one's as well. -/
def Mode.slack : Mode → ℕ
  | .plain => 1
  | .single => 2
  | .double => 1
  | .escape => 2
  | .doubleEscape => 2
  | .comment => 1

section
variable (st : State)

theorem add_size (b : UInt8) (literal quoted : Bool) : (st.add b literal quoted).size = st.size + 1 := by
  obtain ⟨mode, word, tokens⟩ := st
  cases word <;> simp [State.add, State.size, Nat.add_assoc]

theorem quote_size (mode : Mode) : (st.quote mode).size = st.size := by
  obtain ⟨mode, word, tokens⟩ := st
  cases word <;> rfl

theorem flush_mode : st.flush.mode = st.mode := by
  unfold State.flush
  split <;> rfl

theorem quote_mode (mode : Mode) : (st.quote mode).mode = mode := by
  unfold State.quote
  split <;> rfl

theorem operator_mode (b : UInt8) : (st.operator b).mode = st.mode := by
  unfold State.operator
  split <;> rfl

theorem operator_size (b : UInt8) : (st.operator b).size = st.size + 1 := by
  obtain ⟨mode, word, tokens⟩ := st
  cases word with
  | none => simp [State.operator, State.size, sizes, Token.size]
  | some w =>
    simp only [State.operator, State.size, sizes_append]
    split_ifs <;> simp [sizes, Token.size, Nat.add_assoc]

end

theorem sizes_flush (st : State) : sizes st.flush.tokens = st.size := by
  obtain ⟨mode, word, tokens⟩ := st
  cases word <;> simp [State.flush, State.size, sizes, Token.size]

theorem flush_size (st : State) : st.flush.size = st.size := by
  have none : st.flush.word = Option.none := by
    unfold State.flush
    split
    · assumption
    · rfl
  rw [← sizes_flush st, State.size, none]
  rfl

theorem slack_step {st : State} {k : ℕ} (slack : st.size + st.mode.slack ≤ k) (b : UInt8) :
    (step st b).size + (step st b).mode.slack ≤ k + 1 := by
  have bounded : ∀ {st' : State} {mode : Mode}, st'.mode = mode → st'.size + mode.slack ≤ k + 1 →
      st'.size + st'.mode.slack ≤ k + 1 := by
    rintro st' mode rfl size
    exact size
  rw [step]
  cases mode : st.mode with
  | plain =>
    rw [mode, Mode.slack] at slack
    simp only
    split_ifs
    · exact bounded ((flush_mode st).trans mode) (by rw [flush_size, Mode.slack]; omega)
    · exact bounded (quote_mode st .single) (by rw [quote_size, Mode.slack]; omega)
    · exact bounded (quote_mode st .double) (by rw [quote_size, Mode.slack]; omega)
    · exact Nat.succ_le_succ slack
    · exact Nat.le_succ_of_le slack
    · exact bounded ((operator_mode st b).trans mode) (by rw [operator_size, Mode.slack]; omega)
    · exact bounded ((add_mode st b _ _).trans mode) (by rw [add_size, Mode.slack]; omega)
  | single =>
    rw [mode, Mode.slack] at slack
    simp only
    split_ifs
    · exact Nat.le_succ_of_le (Nat.le_of_succ_le slack)
    · exact bounded ((add_mode st b _ _).trans mode) (by rw [add_size, Mode.slack]; omega)
  | double =>
    rw [mode, Mode.slack] at slack
    simp only
    split_ifs
    · exact Nat.le_succ_of_le slack
    · exact Nat.succ_le_succ slack
    · exact bounded ((add_mode st b _ _).trans mode) (by rw [add_size, Mode.slack]; omega)
  | escape =>
    rw [mode, Mode.slack] at slack
    simp only
    split_ifs
    · exact Nat.le_succ_of_le (Nat.le_of_succ_le slack)
    · have size := add_size st b true true
      show (st.add b true true).size + 1 ≤ k + 1
      omega
  | doubleEscape =>
    rw [mode, Mode.slack] at slack
    simp only
    split_ifs
    · exact Nat.le_succ_of_le (Nat.le_of_succ_le slack)
    · have size := add_size st b true true
      show (st.add b true true).size + 1 ≤ k + 1
      omega
    · have size := add_size (st.add 92 true true) b true true
      have first := add_size st 92 true true
      show ((st.add 92 true true).add b true true).size + 1 ≤ k + 1
      omega
  | comment =>
    rw [mode, Mode.slack] at slack
    simp only
    split_ifs
    · have size : ({ st with mode := .plain, tokens := st.tokens ++ [.op 10] } : State).size = st.size + 1 := by
        simp only [State.size, sizes_append]
        simp [sizes, Token.size]
        omega
      show ({ st with mode := .plain, tokens := st.tokens ++ [.op 10] } : State).size + 1 ≤ k + 1
      omega
    · exact bounded mode (by rw [Mode.slack]; omega)

theorem slack_foldl (s : Bytes) (st : State) {k : ℕ} (slack : st.size + st.mode.slack ≤ k) :
    (s.foldl step st).size + (s.foldl step st).mode.slack ≤ k + s.length := by
  induction s generalizing st k with
  | nil => exact slack
  | cons b s ih =>
    have rest := ih _ (slack_step slack b)
    rw [List.foldl_cons, List.length_cons]
    omega

end Sa.Shell
