import Sa.ParserGrammar

/-!
# The cursor of the parser

The parser once more, over the cursor it runs on: `p` counts bytes from the start
of the text and `c->end` is the text's length. A read at or after the end and a
write past a buffer's capacity are faults, and so is a loop or a recursion that
takes more passes than it is given. Every function returns what it read, `none`
for `NULL`, and leaves the cursor; the runs agree with the parser over lists.
-/

namespace Sa.Cursor
open Sa.CStrings Sa.Doubles Sa.NumberTexts Sa.Tinyjson
open Sa.Parser (isSpace shortEscape codepoint encodeUtf8 isNumberChar)

/-- What stops a run that does not return. -/
inductive Fault where
  | read
  | write
  | spent
  deriving DecidableEq, Repr

/-- The bytes a loop has stored, in an allocation of `cap` bytes. -/
structure Buffer where
  cap : Nat
  out : Bytes

/-- The growth test before a write, `ahead` bytes ahead. -/
def Buffer.grow (ahead : Nat) (buf : Buffer) : Buffer :=
  if buf.cap ≤ buf.out.length + ahead then { buf with cap := buf.cap * 2 } else buf

/-- `out[len++] = b`. -/
def Buffer.put (buf : Buffer) (b : UInt8) : Except Fault Buffer :=
  if buf.out.length < buf.cap then .ok { buf with out := buf.out ++ [b] } else .error .write

/-- A caller that returns `NULL` where what it called does. -/
def andThen {α β : Type} (run : Except Fault (Option α × Nat)) (next : α → Nat → Except Fault (Option β × Nat)) :
    Except Fault (Option β × Nat) :=
  run.bind fun
    | (some a, p) => next a p
    | (none, p) => .ok (none, p)

section
variable (text : Bytes)

/-- `*p`. -/
def byteAt (p : Nat) : Except Fault UInt8 :=
  match text[p]? with
  | some b => .ok b
  | none => .error .read

/-- A loop that runs over the bytes of a class. -/
def runOver (isClass : UInt8 → Bool) : Nat → Nat → Except Fault Nat
  | 0, _ => .error .spent
  | n + 1, p =>
    if p < text.length then do
      let b ← byteAt text p
      if isClass b then runOver isClass n (p + 1) else .ok p
    else .ok p

def cj_skip_ws (n p : Nat) : Except Fault Nat := runOver text isSpace n p

/-- The digits of a `\u` escape from `p` on, `i` of them left. -/
def hexLoop : Nat → Nat → Nat → Except Fault (Option Nat)
  | 0, _, cp => .ok (some cp)
  | i + 1, p, cp => do
    let h ← byteAt text p
    match hexVal h with
    | some digit => hexLoop i (p + 1) (cp <<< 4 ||| digit)
    | none => .ok none

/-- The loop of `cj_parse_string_raw` with what follows it. -/
def stringLoop : Nat → Nat → Buffer → Except Fault (Option Bytes × Nat)
  | 0, _, _ => .error .spent
  | n + 1, p, buf =>
    if p < text.length then do
      let ch ← byteAt text p
      if ch = 34 then do
        let _ ← buf.put 0  -- the terminator
        .ok (some buf.out, p + 1)
      else if ch = 92 ∧ p + 1 < text.length then do
        let esc ← byteAt text (p + 1)
        if esc = 117 then
          if text.length - (p + 2) < 4 then .ok (none, p + 2) else do
            match ← hexLoop text 4 (p + 2) 0 with
            | none => .ok (none, p + 2)
            | some cp => do
              let buf ← (encodeUtf8 cp).foldlM Buffer.put (buf.grow 4)
              stringLoop n (p + 6) buf
        else
          match shortEscape esc with
          | none => .ok (none, p + 2)
          | some ch => do
            let buf ← (buf.grow 1).put ch
            stringLoop n (p + 2) buf
      else do
        let buf ← (buf.grow 1).put ch
        stringLoop n (p + 1) buf
    else .ok (none, p)

def cj_parse_string_raw (n p : Nat) : Except Fault (Option Bytes × Nat) :=
  if p < text.length then do
    let b ← byteAt text p
    if b = 34 then stringLoop text n (p + 1) ⟨32, []⟩ else .ok (none, p)
  else .ok (none, p)

def cj_parse_string (n p : Nat) : Except Fault (Option cJSON × Nat) :=
  andThen (cj_parse_string_raw text n p) fun out p => .ok (some (.string (cstr out)), p)

/-- `memcpy(buf, start, n); buf[n] = 0` into a buffer of 64 bytes. -/
def copyNumber (start n : Nat) : Except Fault Bytes :=
  if text.length < start + n then .error .read
  else if 64 < n + 1 then .error .write
  else .ok ((text.drop start).take n)

/-- The cursor after an optional sign. -/
def pastSign (p : Nat) : Except Fault Nat :=
  if p < text.length then do
    let b ← byteAt text p
    .ok (if b = 45 ∨ b = 43 then p + 1 else p)
  else .ok p

def cj_parse_number (n start : Nat) : Except Fault (Option cJSON × Nat) := do
  let p ← pastSign text start
  let p ← runOver text isNumberChar n p
  if p = start then .ok (none, p)
  else if 64 ≤ p - start then .ok (none, p)
  else do
    let buf ← copyNumber text start (p - start)
    .ok (some (.number (strtod buf)), p)

/-- What stands after an element: a comma, and the loop goes on, or `close`. -/
def separator (close : UInt8) (n p : Nat) : Except Fault (Option Bool × Nat) := do
  let p ← cj_skip_ws text n p
  if p < text.length then do
    let b ← byteAt text p
    if b = 44 then .ok (some true, p + 1)
    else if b = close then .ok (some false, p + 1)
    else .ok (none, p)
  else .ok (none, p)

/-- The loop over the elements of an array or an object: `pass` reads one, with
    the separator after it. -/
def passes {α : Type} (pass : Nat → Nat → Except Fault (Option (α × Bool) × Nat)) :
    Nat → Nat → List α → Except Fault (Option (List α) × Nat)
  | 0, _, _ => .error .spent
  | n + 1, p, before =>
    andThen (pass (n + 1) p) fun (a, more) p =>
      if more then passes pass n p (before ++ [a]) else .ok (some (before ++ [a]), p)

/-- A container from its opening bracket on; it may be empty. -/
def container {α : Type} (opening close : UInt8) (pass : Nat → Nat → Except Fault (Option (α × Bool) × Nat))
    (n p : Nat) : Except Fault (Option (List α) × Nat) :=
  if p < text.length then do
    let b ← byteAt text p
    if b = opening then do
      let p ← cj_skip_ws text n (p + 1)
      if p < text.length then do
        let b ← byteAt text p
        if b = close then .ok (some [], p + 1) else passes pass n p []
      else passes pass n p []
    else .ok (none, p)
  else .ok (none, p)

section
variable (cj_parse_value : Nat → Except Fault (Option cJSON × Nat))

/-- One pass of the loop of `cj_parse_array`. -/
def arrayPass (n p : Nat) : Except Fault (Option (cJSON × Bool) × Nat) := do
  let p ← cj_skip_ws text n p
  andThen (cj_parse_value p) fun item p =>
    andThen (separator text 93 n p) fun more p => .ok (some (item, more), p)

def cj_parse_array (n p : Nat) : Except Fault (Option cJSON × Nat) :=
  andThen (container text 91 93 (arrayPass text cj_parse_value) n p) fun items p => .ok (some (.array items), p)

/-- The colon between a key and its value. -/
def colon (n p : Nat) : Except Fault (Option Unit × Nat) := do
  let p ← cj_skip_ws text n p
  if p < text.length then do
    let b ← byteAt text p
    if b = 58 then .ok (some (), p + 1) else .ok (none, p)
  else .ok (none, p)

/-- One pass of the loop of `cj_parse_object`. -/
def objectPass (n p : Nat) : Except Fault (Option ((CString × cJSON) × Bool) × Nat) := do
  let p ← cj_skip_ws text n p
  andThen (cj_parse_string_raw text n p) fun key p =>
    andThen (colon text n p) fun _ p => do
      let p ← cj_skip_ws text n p
      andThen (cj_parse_value p) fun v p =>
        andThen (separator text 125 n p) fun more p => .ok (some ((cstr key, v), more), p)

def cj_parse_object (n p : Nat) : Except Fault (Option cJSON × Nat) :=
  andThen (container text 123 125 (objectPass text cj_parse_value) n p) fun members p =>
    .ok (some (.object members), p)

end

/-- `strncmp` of a literal with the bytes from `p` on. -/
def startsAt : Bytes → Nat → Except Fault Bool
  | [], _ => .ok true
  | w :: word, p => do
    let b ← byteAt text p
    if b = w then startsAt word (p + 1) else .ok false

def literal (word : Bytes) (p : Nat) : Except Fault Bool :=
  if word.length ≤ text.length - p then startsAt text word p else .ok false

/-- The body of `cj_parse_value`, with its recursive calls as an argument. -/
def parseValue (cj_parse_value : Nat → Except Fault (Option cJSON × Nat)) (n p : Nat) :
    Except Fault (Option cJSON × Nat) := do
  let p ← cj_skip_ws text n p
  if p < text.length then do
    let ch ← byteAt text p
    if ch = 34 then cj_parse_string text n p
    else if ch = 123 then cj_parse_object text cj_parse_value n p
    else if ch = 91 then cj_parse_array text cj_parse_value n p
    else if ch = 45 || isdigit ch then cj_parse_number text n p
    else if ← literal text (lit "true") p then .ok (some .true, p + 4)
    else if ← literal text (lit "false") p then .ok (some .false, p + 5)
    else if ← literal text (lit "null") p then .ok (some .null, p + 4)
    else .ok (none, p)
  else .ok (none, p)

/-- `cj_parse_value` where every loop takes at most `n` passes and the calls nest at
    most `n` deep. -/
def cj_parse_value : Nat → Nat → Except Fault (Option cJSON × Nat)
  | 0, _ => .error .spent
  | n + 1, p => parseValue text (cj_parse_value n) (n + 1) p

/-! ### Reading one byte -/

@[simp] theorem ok_bind {α β : Type} (a : α) (next : α → Except Fault β) : (.ok a >>= next) = next a := rfl

variable {text}

theorem byteAt_drop {p : Nat} {b : UInt8} {s : Bytes} (here : text.drop p = b :: s) :
    byteAt text p = .ok b ∧ p < text.length ∧ text.drop (p + 1) = s := by
  have inside : p < text.length := by
    by_contra outside
    rw [List.drop_eq_nil_of_le (by omega)] at here
    cases here
  have split := here
  rw [List.drop_eq_getElem_cons inside] at split
  obtain ⟨rfl, rfl⟩ := List.cons.inj split
  exact ⟨by simp [byteAt, inside], inside, rfl⟩

/-- The cursor stands at the end or before a byte. -/
theorem look {p : Nat} (inside : p ≤ text.length) :
    (p = text.length ∧ text.drop p = []) ∨ ∃ b, p < text.length ∧ byteAt text p = .ok b ∧
      text.drop p = b :: text.drop (p + 1) := by
  rcases Nat.lt_or_eq_of_le inside with before | rfl
  · have here := List.drop_eq_getElem_cons before
    exact .inr ⟨text[p], before, (byteAt_drop here).1, here⟩
  · exact .inl ⟨rfl, List.drop_length⟩

theorem runOver_total (isClass : UInt8 → Bool) {n : Nat} : ∀ {p : Nat}, p ≤ text.length → text.length - p < n →
    ∃ q, runOver text isClass n p = .ok q ∧ p ≤ q ∧ q ≤ text.length ∧ text.drop q = (text.drop p).dropWhile isClass := by
  induction n with
  | zero => intro p _ enough; omega
  | succ n ih =>
    intro p inside enough
    obtain ⟨rfl, atEnd⟩ | ⟨b, before, read, here⟩ := look inside
    · exact ⟨text.length, by simp [runOver], le_rfl, le_rfl, by simp⟩
    cases member : isClass b with
    | true =>
      obtain ⟨q, run, forward, stays, rest⟩ := ih (p := p + 1) (by omega) (by omega)
      refine ⟨q, by simp [runOver, before, read, member, run], by omega, stays, ?_⟩
      rw [rest, here, List.dropWhile_cons_of_pos member]
    | false =>
      refine ⟨p, by simp [runOver, before, read, member], le_rfl, inside, ?_⟩
      rw [here, List.dropWhile_cons_of_neg (by simp [member])]

theorem skip_ws_total {n p : Nat} (inside : p ≤ text.length) (enough : text.length - p < n) :
    ∃ q, cj_skip_ws text n p = .ok q ∧ p ≤ q ∧ q ≤ text.length ∧ text.drop q = Parser.cj_skip_ws (text.drop p) :=
  runOver_total isSpace inside enough

/-- A run from `p` that returns, with the cursor not back and not past the end, and
    further on when something was read. -/
def Ends {α : Type} (text : Bytes) (p : Nat) (run : Except Fault (Option α × Nat)) : Prop :=
  ∃ a q, run = .ok (a, q) ∧ p ≤ q ∧ q ≤ text.length ∧ (a.isSome → p < q)

/-- Such a run that reads what the parser over lists reads from the text at `p`. -/
def Agrees {α : Type} (text : Bytes) (p : Nat) (run : Except Fault (Option α × Nat)) (read : Option (α × Bytes)) : Prop :=
  ∃ a q, run = .ok (a, q) ∧ p ≤ q ∧ q ≤ text.length ∧ (a.isSome → p < q) ∧ read = a.map fun a => (a, text.drop q)

theorem Agrees.ends {α : Type} {p : Nat} {run : Except Fault (Option α × Nat)} {read : Option (α × Bytes)}
    (agrees : Agrees text p run read) : Ends text p run := by
  obtain ⟨a, q, ran, forward, stays, moved, -⟩ := agrees
  exact ⟨a, q, ran, forward, stays, moved⟩

theorem Agrees.fails {α : Type} {p q : Nat} (forward : p ≤ q) (stays : q ≤ text.length) :
    Agrees (α := α) text p (.ok (none, q)) none :=
  ⟨none, q, rfl, forward, stays, by simp, rfl⟩

theorem Agrees.reads {α : Type} {p q : Nat} (a : α) (moved : p < q) (stays : q ≤ text.length) :
    Agrees text p (.ok (some a, q)) (some (a, text.drop q)) :=
  ⟨some a, q, rfl, moved.le, stays, fun _ => moved, rfl⟩

/-- A run that starts further on. -/
theorem Agrees.from_before {α : Type} {p p' : Nat} {run : Except Fault (Option α × Nat)} {read : Option (α × Bytes)}
    (agrees : Agrees text p' run read) (before : p ≤ p') : Agrees text p run read := by
  obtain ⟨a, q, ran, forward, stays, moved, same⟩ := agrees
  exact ⟨a, q, ran, by omega, stays, fun found => by have := moved found; omega, same⟩

theorem Agrees.andThen {α β : Type} {p : Nat} {run : Except Fault (Option α × Nat)} {read : Option (α × Bytes)}
    {next : α → Nat → Except Fault (Option β × Nat)} {next' : α × Bytes → Option (β × Bytes)} (first : Agrees text p run read)
    (rest : ∀ a q, p < q → q ≤ text.length → Agrees text p (next a q) (next' (a, text.drop q))) :
    Agrees text p (andThen run next) (read.bind next') := by
  obtain ⟨a, q, rfl, forward, stays, moved, rfl⟩ := first
  cases a with
  | none => exact .fails forward stays
  | some a => exact rest a q (moved rfl) stays

theorem Agrees.map {α β : Type} {p : Nat} {run : Except Fault (Option α × Nat)} {read : Option (α × Bytes)}
    (agrees : Agrees text p run read) (f : α → β) :
    Agrees text p (Cursor.andThen run fun a q => .ok (some (f a), q)) (read.map fun (a, s) => (f a, s)) := by
  obtain ⟨a, q, rfl, forward, stays, moved, rfl⟩ := agrees
  cases a with
  | none => exact .fails forward stays
  | some a => exact .reads (f a) (moved rfl) stays

/-- A run after the whitespace before it. -/
theorem Agrees.after_space {α : Type} {n p : Nat} {run : Nat → Except Fault (Option α × Nat)} (read : Bytes → Option (α × Bytes))
    (inside : p ≤ text.length) (enough : text.length - p < n)
    (agrees : ∀ q, p ≤ q → q ≤ text.length → Agrees text q (run q) (read (text.drop q))) :
    Agrees text p (cj_skip_ws text n p >>= run) (read (Parser.cj_skip_ws (text.drop p))) := by
  obtain ⟨q, skipped, forward, stays, rest⟩ := skip_ws_total inside enough
  rw [skipped, ok_bind, ← rest]
  exact (agrees q forward stays).from_before forward

/-! ### Strings -/

/-- Room for the terminator. -/
structure Buffer.Fits (buf : Buffer) : Prop where
  least : 32 ≤ buf.cap
  room : buf.out.length < buf.cap

theorem grow_room {buf : Buffer} (fits : buf.Fits) (ahead : Nat) (few : ahead ≤ 4) :
    (buf.grow ahead).out = buf.out ∧ 32 ≤ (buf.grow ahead).cap ∧ buf.out.length + ahead < (buf.grow ahead).cap := by
  obtain ⟨least, room⟩ := fits
  unfold Buffer.grow
  split
  · exact ⟨rfl, by simp only; omega, by simp only; omega⟩
  · exact ⟨rfl, least, by omega⟩

theorem put_all (bs : Bytes) : ∀ (buf : Buffer), 32 ≤ buf.cap → buf.out.length + bs.length < buf.cap →
    ∃ buf' : Buffer, bs.foldlM Buffer.put buf = .ok buf' ∧ buf'.out = buf.out ++ bs ∧ buf'.Fits := by
  induction bs with
  | nil => exact fun buf least room => ⟨buf, rfl, by simp, least, room⟩
  | cons b bs ih =>
    intro buf least room
    have stored : buf.put b = .ok { buf with out := buf.out ++ [b] } := if_pos (by omega)
    obtain ⟨buf', rest, out, fits⟩ := ih { buf with out := buf.out ++ [b] } least (by simp at room ⊢; omega)
    exact ⟨buf', by rw [List.foldlM_cons, stored, ok_bind, rest], by simp [out], fits⟩

theorem encodeUtf8_length (cp : Nat) : (encodeUtf8 cp).length ≤ 3 := by
  unfold encodeUtf8
  split_ifs <;> simp

/-- The byte written after the test one byte ahead. -/
theorem put_one {buf : Buffer} (b : UInt8) (fits : buf.Fits) :
    ∃ buf' : Buffer, (buf.grow 1).put b = .ok buf' ∧ buf'.out = buf.out ++ [b] ∧ buf'.Fits := by
  obtain ⟨same, least, room⟩ := grow_room fits 1 (by omega)
  obtain ⟨buf', stored, out, fits'⟩ := put_all [b] _ least (by simpa [same] using room)
  exact ⟨buf', by simpa using stored, by rw [out, same], fits'⟩

/-- The bytes of a code point, written after the test four bytes ahead. -/
theorem put_encoded {buf : Buffer} (cp : Nat) (fits : buf.Fits) :
    ∃ buf' : Buffer, (encodeUtf8 cp).foldlM Buffer.put (buf.grow 4) = .ok buf' ∧
      buf'.out = buf.out ++ encodeUtf8 cp ∧ buf'.Fits := by
  obtain ⟨same, least, room⟩ := grow_room fits 4 le_rfl
  have short := encodeUtf8_length cp
  obtain ⟨buf', stored, out, fits'⟩ := put_all (encodeUtf8 cp) _ least (by rw [same]; omega)
  exact ⟨buf', stored, by rw [out, same], fits'⟩

theorem hexLoop_four {p : Nat} {h₁ h₂ h₃ h₄ : UInt8} {s : Bytes} (here : text.drop p = h₁ :: h₂ :: h₃ :: h₄ :: s) :
    hexLoop text 4 p 0 = .ok (codepoint h₁ h₂ h₃ h₄) ∧ p + 4 ≤ text.length ∧ text.drop (p + 4) = s := by
  obtain ⟨read₁, -, here₂⟩ := byteAt_drop here
  obtain ⟨read₂, -, here₃⟩ := byteAt_drop here₂
  obtain ⟨read₃, -, here₄⟩ := byteAt_drop here₃
  obtain ⟨read₄, inside, after⟩ := byteAt_drop here₄
  refine ⟨?_, by omega, after⟩
  simp only [hexLoop, read₁, read₂, read₃, read₄, ok_bind, codepoint]
  cases hexVal h₁ <;> cases hexVal h₂ <;> cases hexVal h₃ <;> cases hexVal h₄ <;> rfl

/-- What one pass of the loop does: it fails, it closes the string, or it stores
    some bytes, at most as many as it moves on by, and goes on. -/
inductive Pass (text : Bytes) (p : Nat) (buf : Buffer) : Prop
  | fails (q : Nat) (forward : p ≤ q) (stays : q ≤ text.length)
      (run : ∀ n, stringLoop text (n + 1) p buf = .ok (none, q)) (same : Parser.stringLoop (text.drop p) = none)
  | closes (before : p < text.length) (run : ∀ n, stringLoop text (n + 1) p buf = .ok (some buf.out, p + 1))
      (same : Parser.stringLoop (text.drop p) = some ([], text.drop (p + 1)))
  | goesOn (q : Nat) (added : Bytes) (buf' : Buffer) (moved : p < q) (stays : q ≤ text.length) (few : p + added.length ≤ q)
      (stored : buf'.out = buf.out ++ added) (fits : buf'.Fits)
      (run : ∀ n, stringLoop text (n + 1) p buf = stringLoop text n q buf')
      (same : Parser.stringLoop (text.drop p) = (Parser.stringLoop (text.drop q)).map fun (out, s) => (added ++ out, s))

/-- A byte that stands for itself; a backslash as the last byte is one. -/
theorem pass_raw {p : Nat} {buf : Buffer} {ch : UInt8} {s : Bytes} (fits : buf.Fits) (here : text.drop p = ch :: s)
    (noQuote : ch ≠ 34) (noEscape : ¬ (ch = 92 ∧ p + 1 < text.length)) : Pass text p buf := by
  obtain ⟨read, before, rest⟩ := byteAt_drop here
  obtain ⟨buf', stored, out, fits'⟩ := put_one ch fits
  refine .goesOn (p + 1) [ch] buf' (by omega) before (by simp) out fits'
    (fun n => by simp only [stringLoop, before, read, noQuote, noEscape, stored, ok_bind, if_true, if_false]) ?_
  rw [here, rest]
  by_cases slash : ch = 92
  · have last : s = [] := by
      rw [← rest]
      exact List.drop_eq_nil_of_le (not_lt.mp fun more => noEscape ⟨slash, more⟩)
    subst last slash
    rfl
  · exact ParserGrammar.stringLoop_raw s noQuote slash

/-- A `\\u` escape: four hexadecimal digits and the bytes of their code point. -/
theorem pass_unicode {p : Nat} {buf : Buffer} {s : Bytes} (fits : buf.Fits)
    (here : text.drop p = 92 :: 117 :: s) : Pass text p buf := by
  obtain ⟨read, before, here₁⟩ := byteAt_drop here
  obtain ⟨read₁, before₁, rest⟩ := byteAt_drop here₁
  have length : s.length = text.length - (p + 2) := by rw [← rest, List.length_drop]
  by_cases few : text.length - (p + 2) < 4
  · refine .fails (p + 2) (by omega) before₁ (fun n => by simp [stringLoop, before, before₁, read, read₁, few]) ?_
    rw [here]
    match s, length with
    | [], _ | [_], _ | [_, _], _ | [_, _, _], _ => rfl
    | _ :: _ :: _ :: _ :: _, length => simp at length; omega
  · match s, here, rest, length with
    | [], _, _, length | [_], _, _, length | [_, _], _, _, length | [_, _, _], _, _, length => simp at length; omega
    | h₁ :: h₂ :: h₃ :: h₄ :: s, here, rest, _ =>
      obtain ⟨digits, inside, after⟩ := hexLoop_four rest
      cases value : codepoint h₁ h₂ h₃ h₄ with
      | none =>
        refine .fails (p + 2) (by omega) before₁ (fun n => ?_) (by rw [here, Parser.stringLoop, value])
        simp [stringLoop, before, before₁, read, read₁, few, digits, value]
      | some cp =>
        obtain ⟨buf', stored, out, fits'⟩ := put_encoded cp fits
        have short := encodeUtf8_length cp
        refine .goesOn (p + 6) (encodeUtf8 cp) buf' (by omega) inside (by omega) out fits' (fun n => ?_) ?_
        · simp [stringLoop, before, before₁, read, read₁, few, digits, value, stored]
        · rw [here, Parser.stringLoop, value, ← after]

/-- A backslash with a byte other than `u` after it. -/
theorem pass_short {p : Nat} {buf : Buffer} {esc : UInt8} {s : Bytes} (fits : buf.Fits) (here : text.drop p = 92 :: esc :: s)
    (short : esc ≠ 117) : Pass text p buf := by
  obtain ⟨read, before, here₁⟩ := byteAt_drop here
  obtain ⟨read₁, before₁, rest⟩ := byteAt_drop here₁
  cases escape : shortEscape esc with
  | none =>
    refine .fails (p + 2) (by omega) before₁ (fun n => by simp [stringLoop, before, before₁, read, read₁, short, escape]) ?_
    rw [here]
    unfold Parser.stringLoop
    simp [escape, short]
  | some ch =>
    obtain ⟨buf', stored, out, fits'⟩ := put_one ch fits
    refine .goesOn (p + 2) [ch] buf' (by omega) before₁ (by simp) out fits'
      (fun n => by simp [stringLoop, before, before₁, read, read₁, short, escape, stored]) ?_
    rw [here, ParserGrammar.stringLoop_short s escape]
    exact congrArg _ (congrArg _ rest.symm)

theorem stringLoop_pass {p : Nat} {buf : Buffer} (inside : p ≤ text.length) (fits : buf.Fits) : Pass text p buf := by
  obtain ⟨rfl, atEnd⟩ | ⟨ch, before, read, here⟩ := look inside
  · exact .fails text.length le_rfl le_rfl (fun n => by simp [stringLoop]) (by rw [atEnd]; rfl)
  by_cases quote : ch = 34
  · subst quote
    have terminated : buf.put 0 = .ok { buf with out := buf.out ++ [0] } := if_pos fits.room
    exact .closes before (fun n => by simp [stringLoop, before, read, terminated]) (by rw [here]; rfl)
  by_cases escaped : ch = 92 ∧ p + 1 < text.length
  · obtain ⟨rfl, before₁⟩ := escaped
    obtain ⟨-, nothing⟩ | ⟨esc, -, -, here₁⟩ := look before
    · rw [List.drop_eq_nil_iff] at nothing
      omega
    rw [here₁] at here
    by_cases unicode : esc = 117
    · subst unicode
      exact pass_unicode fits here
    · exact pass_short fits here unicode
  · exact pass_raw fits here quote escaped

theorem stringLoop_agrees {n : Nat} : ∀ {p : Nat} {buf : Buffer}, p ≤ text.length → text.length - p < n → buf.Fits →
    Agrees text p (stringLoop text n p buf) ((Parser.stringLoop (text.drop p)).map fun (out, s) => (buf.out ++ out, s)) := by
  induction n with
  | zero => intro p buf _ enough; omega
  | succ n ih =>
    intro p buf inside enough fits
    cases stringLoop_pass inside fits with
    | fails q forward stays run same =>
      rw [run, same]
      exact .fails forward stays
    | closes before run same =>
      rw [run, same]
      simpa using Agrees.reads buf.out (p.lt_succ_self) before
    | goesOn q added buf' moved stays few stored fits' run same =>
      have rest := (ih stays (by omega) fits').from_before moved.le
      rw [run, same, Option.map_map]
      simpa [stored, Function.comp_def] using rest

theorem string_raw_agrees {n p : Nat} (inside : p ≤ text.length) (enough : text.length - p < n) :
    Agrees text p (cj_parse_string_raw text n p) (Parser.cj_parse_string_raw (text.drop p)) := by
  obtain ⟨rfl, atEnd⟩ | ⟨b, before, read, here⟩ := look inside
  · rw [atEnd]
    simpa [cj_parse_string_raw, Parser.cj_parse_string_raw] using Agrees.fails le_rfl le_rfl
  by_cases quote : b = 34
  · subst quote
    have rest : Agrees text (p + 1) (stringLoop text n (p + 1) ⟨32, []⟩) _ := stringLoop_agrees before (by omega) ⟨le_rfl, by simp⟩
    simpa [cj_parse_string_raw, before, read, here, Parser.cj_parse_string_raw] using rest.from_before (p := p) (by omega)
  · rw [here, Parser.cj_parse_string_raw]
    · simpa [cj_parse_string_raw, before, read, quote] using Agrees.fails le_rfl inside
    · intro t same
      exact quote (List.cons.inj same).1

theorem parse_string_agrees {n p : Nat} (inside : p ≤ text.length) (enough : text.length - p < n) :
    Agrees text p (cj_parse_string text n p) (Parser.cj_parse_string (text.drop p)) :=
  (string_raw_agrees inside enough).map fun out => cJSON.string (cstr out)

/-- A run of the decoder that did not leave its text or its buffer, and that stored at
    most as many bytes as it consumed from `p` on. -/
def Safe (p : Nat) : Except Fault (Option Bytes × Nat) → Prop
  | .ok (some out, q) => p + out.length ≤ q
  | .ok (none, _) => True
  | .error fault => fault = .spent

/-- Each byte in the buffer was paid for by one before the cursor. -/
theorem stringLoop_safe {start n : Nat} : ∀ {p : Nat} {buf : Buffer}, p ≤ text.length → start + buf.out.length ≤ p → buf.Fits →
    Safe start (stringLoop text n p buf) := by
  induction n with
  | zero => exact fun _ _ _ => rfl
  | succ n ih =>
    intro p buf inside paid fits
    cases stringLoop_pass inside fits with
    | fails q forward stays run same =>
      rw [run]
      trivial
    | closes before run same =>
      rw [run]
      exact paid.trans (p.le_succ)
    | goesOn q added buf' moved stays few stored fits' run same =>
      rw [run]
      exact ih stays (by rw [stored, List.length_append]; omega) fits'

/-- The string decoder writes inside its buffer, the terminator included, and what it
    decodes is no longer than what it consumes. -/
theorem string_writes_inside (text : Bytes) (n p : Nat) : Safe p (cj_parse_string_raw text n p) := by
  rcases Nat.lt_or_ge p text.length with before | outside
  · obtain ⟨rfl, -⟩ | ⟨b, -, read, -⟩ := look before.le
    · exact absurd before (lt_irrefl _)
    by_cases quote : b = 34
    · have rest : Safe p (stringLoop text n (p + 1) ⟨32, []⟩) := stringLoop_safe before (by simp) ⟨le_rfl, by simp⟩
      simpa [cj_parse_string_raw, before, read, quote] using rest
    · simp [cj_parse_string_raw, before, read, quote, Safe]
  · rw [cj_parse_string_raw, if_neg (not_lt.mpr outside)]
    trivial

theorem pastSign_total {p : Nat} (inside : p ≤ text.length) :
    ∃ q, pastSign text p = .ok q ∧ p ≤ q ∧ q ≤ text.length ∧
      (text.drop q).dropWhile isNumberChar = (text.drop p).dropWhile isNumberChar := by
  obtain ⟨rfl, atEnd⟩ | ⟨b, before, read, here⟩ := look inside
  · exact ⟨text.length, by simp [pastSign], le_rfl, le_rfl, rfl⟩
  by_cases sign : b = 45 ∨ b = 43
  · refine ⟨p + 1, by simp [pastSign, before, read, sign], by omega, before, ?_⟩
    rw [here, List.dropWhile_cons_of_pos]
    rcases sign with rfl | rfl <;> rfl
  · exact ⟨p, by simp [pastSign, before, read, sign], le_rfl, inside, rfl⟩

theorem parse_number_agrees {n p : Nat} (inside : p ≤ text.length) (enough : text.length - p < n) :
    Agrees text p (cj_parse_number text n p) (Parser.cj_parse_number (text.drop p)) := by
  obtain ⟨p₁, signed, forward₁, stays₁, same₁⟩ := pastSign_total inside
  obtain ⟨q, ran, forward₂, stays, same₂⟩ := runOver_total isNumberChar stays₁ (n := n) (by omega)
  rw [same₁] at same₂
  have split : (text.drop p).takeWhile isNumberChar ++ text.drop q = text.drop p := by
    rw [same₂]
    exact List.takeWhile_append_dropWhile
  have length := congrArg List.length split
  rw [List.length_append, List.length_drop, List.length_drop] at length
  have taken : (text.drop p).take (q - p) = (text.drop p).takeWhile isNumberChar := by
    conv_lhs => rw [← split]
    exact List.take_left' (by omega)
  have opened : cj_parse_number text n p = if q = p then .ok (none, q) else if 64 ≤ q - p then .ok (none, q) else
      copyNumber text p (q - p) >>= fun buf => .ok (some (.number (strtod buf)), q) := by
    simp only [cj_parse_number, signed, ran, ok_bind]
  have empty : (text.drop p).takeWhile isNumberChar = [] ↔ q = p := by
    rw [← List.length_eq_zero_iff]
    omega
  have long : 64 ≤ ((text.drop p).takeWhile isNumberChar).length ↔ 64 ≤ q - p := by omega
  rw [opened, Parser.cj_parse_number]
  simp only [empty, long]
  split_ifs with none' wide
  · exact .fails (by omega) stays
  · exact .fails (by omega) stays
  · have copied : copyNumber text p (q - p) = .ok ((text.drop p).takeWhile isNumberChar) := by
      rw [copyNumber, if_neg (by omega), if_neg (by omega), taken]
    rw [copied, ok_bind, ← same₂]
    exact .reads _ (by omega) stays

theorem startsAt_total (word : Bytes) : ∀ {p : Nat}, word.length ≤ text.length - p →
    startsAt text word p = .ok (decide (word <+: text.drop p)) := by
  induction word with
  | nil => intro p _; simp [startsAt]
  | cons w word ih =>
    intro p enough
    simp only [List.length_cons] at enough
    obtain ⟨rfl, -⟩ | ⟨b, -, read, here⟩ := look (show p ≤ text.length by omega)
    · omega
    by_cases same : b = w
    · simp [startsAt, read, same, here, ih (p := p + 1) (by omega), List.cons_prefix_cons]
    · simp [startsAt, read, same, here, List.cons_prefix_cons, Ne.symm same]

theorem literal_total (word : Bytes) (p : Nat) : literal text word p = .ok (decide (word <+: text.drop p)) := by
  unfold literal
  split
  · rename_i enough
    exact startsAt_total word enough
  · rename_i short
    have apart : ¬ word <+: text.drop p := by
      intro starts
      have := starts.length_le
      rw [List.length_drop] at this
      omega
    simp [apart]

/-- A literal, and what is tried where the text does not go on with it. -/
theorem literal_agrees {p : Nat} (word : Bytes) (v : cJSON) {otherwise : Except Fault (Option cJSON × Nat)}
    {read : Option (cJSON × Bytes)}
    (nonempty : word ≠ []) (inside : p ≤ text.length) (rest : Agrees text p otherwise read) :
    Agrees text p (do if ← literal text word p then .ok (some v, p + word.length) else otherwise)
      (Parser.literal word v (text.drop p) <|> read) := by
  rw [literal_total, ok_bind, Parser.literal]
  by_cases starts : word <+: text.drop p
  · have fits := starts.length_le
    rw [List.length_drop] at fits
    have longer := List.length_pos_of_ne_nil nonempty
    simp only [starts, decide_true, if_true, List.drop_drop, Option.orElse_eq_orElse, Option.orElse_some]
    exact .reads v (by omega) (by omega)
  · simpa [starts] using rest

/-! ### Arrays and objects -/

/-- The separator, read from a list. -/
def afterElement (close : UInt8) (s : Bytes) : Option (Bool × Bytes) :=
  match Parser.cj_skip_ws s with
  | [] => none
  | b :: s => if b = 44 then some (true, s) else if b = close then some (false, s) else none

/-- The colon, read from a list. -/
def afterKey (s : Bytes) : Option (Unit × Bytes) :=
  match Parser.cj_skip_ws s with
  | [] => none
  | b :: s => if b = 58 then some ((), s) else none

/-- The loop over the elements, over lists. -/
def elements {α : Type} (pass : Bytes → Option ((α × Bool) × Bytes)) : Nat → Bytes → Option (List α × Bytes)
  | 0, _ => none
  | fuel + 1, s =>
    (pass s).bind fun ((a, more), s) =>
      if more then (elements pass fuel s).map fun (as, s) => (a :: as, s) else some ([a], s)

/-- A container, read from a list. -/
def contained {α : Type} (opening close : UInt8) (pass : Bytes → Option ((α × Bool) × Bytes)) (s : Bytes) :
    Option (List α × Bytes) :=
  match s with
  | [] => none
  | b :: t =>
    if b = opening then
      match Parser.cj_skip_ws t with
      | [] => elements pass t.length []
      | c :: s => if c = close then some ([], s) else elements pass t.length (c :: s)
    else none

theorem separator_agrees (close : UInt8) {n p : Nat} (inside : p ≤ text.length) (enough : text.length - p < n) :
    Agrees text p (separator text close n p) (afterElement close (text.drop p)) := by
  refine Agrees.after_space (fun s => match s with
    | [] => none
    | b :: s => if b = 44 then some (true, s) else if b = close then some (false, s) else none) inside enough fun q _ stays => ?_
  obtain ⟨rfl, atEnd⟩ | ⟨b, before, read, here⟩ := look stays
  · simpa [atEnd] using Agrees.fails le_rfl le_rfl
  simp only [before, read, here, ok_bind, if_true]
  split_ifs
  · exact .reads true q.lt_succ_self before
  · exact .reads false q.lt_succ_self before
  · exact .fails le_rfl stays

theorem colon_agrees {n p : Nat} (inside : p ≤ text.length) (enough : text.length - p < n) :
    Agrees text p (colon text n p) (afterKey (text.drop p)) := by
  refine Agrees.after_space (fun s => match s with
    | [] => none
    | b :: s => if b = 58 then some ((), s) else none) inside enough fun q _ stays => ?_
  obtain ⟨rfl, atEnd⟩ | ⟨b, before, read, here⟩ := look stays
  · simpa [atEnd] using Agrees.fails le_rfl le_rfl
  simp only [before, read, here, ok_bind, if_true]
  split_ifs
  · exact .reads () q.lt_succ_self before
  · exact .fails le_rfl stays

section
variable {α : Type} {pass : Nat → Nat → Except Fault (Option (α × Bool) × Nat)} {pass' : Bytes → Option ((α × Bool) × Bytes)}
  {start : Nat}
  (reads : ∀ n p, start < p → p ≤ text.length → text.length - p < n → Agrees text p (pass n p) (pass' (text.drop p)))
include reads

/-- Every pass that goes on consumes a byte, so the bytes left bound the passes. -/
theorem passes_agrees {n : Nat} : ∀ {p : Nat} (fuel : Nat) (before : List α), start < p → p ≤ text.length → text.length - p < n →
    text.length - p ≤ fuel →
    Agrees text p (passes pass n p before) ((elements pass' fuel (text.drop p)).map fun (as, s) => (before ++ as, s)) := by
  induction n with
  | zero => intro p fuel before _ _ enough; omega
  | succ n ih =>
    intro p fuel before after inside enough bound
    have first := reads (n + 1) p after inside enough
    cases fuel with
    | zero =>
      -- At the end of the text a pass reads nothing.
      obtain ⟨a, q, run, forward, stays, moved, same⟩ := first
      cases a with
      | none =>
        rw [passes, run]
        exact .fails forward stays
      | some a => have := moved rfl; omega
    | succ fuel =>
      rw [elements, Option.map_bind]
      refine first.andThen fun (a, more) q moved stays => ?_
      cases more with
      | true =>
        have rest := ih fuel (before ++ [a]) (after.trans moved) stays (by omega) (by omega)
        simpa [Function.comp_def] using rest.from_before moved.le
      | false => simpa using Agrees.reads (before ++ [a]) moved stays

theorem container_agrees (opening close : UInt8) {n : Nat} (inside : start ≤ text.length) (enough : text.length - start < n) :
    Agrees text start (container text opening close pass n start) (contained opening close pass' (text.drop start)) := by
  obtain ⟨rfl, atEnd⟩ | ⟨b, before, read, here⟩ := look inside
  · simpa [container, contained, atEnd] using Agrees.fails le_rfl le_rfl
  by_cases opens : b = opening
  · have length : (text.drop (start + 1)).length = text.length - (start + 1) := List.length_drop
    rw [here, contained, if_pos opens, length]
    simp only [container, before, read, opens, ok_bind, if_true]
    refine (Agrees.after_space (fun s => match s with
      | [] => elements pass' (text.length - (start + 1)) []
      | c :: s => if c = close then some ([], s) else elements pass' (text.length - (start + 1)) (c :: s))
      before (by omega) fun q forward stays => ?_).from_before (by omega)
    have loop := passes_agrees reads (n := n) (p := q) (text.length - (start + 1)) [] (by omega) stays
      (by omega) (by omega)
    simp only [List.nil_append, Option.map_id'] at loop
    obtain ⟨rfl, atEnd⟩ | ⟨c, inText, read', here'⟩ := look stays
    · simpa [atEnd] using loop
    · simp only [inText, read', here', ok_bind, if_true]
      rw [here'] at loop
      split_ifs
      · exact .reads [] q.lt_succ_self inText
      · exact loop
  · rw [here, contained, if_neg opens]
    simpa [container, before, read, opens] using Agrees.fails le_rfl inside

end

/-- One pass of each loop, over lists. -/
def arrayPassList (value : Bytes → Option (cJSON × Bytes)) (s : Bytes) : Option ((cJSON × Bool) × Bytes) :=
  (value (Parser.cj_skip_ws s)).bind fun (item, s) => (afterElement 93 s).map fun (more, s) => ((item, more), s)

def objectPassList (value : Bytes → Option (cJSON × Bytes)) (s : Bytes) : Option (((CString × cJSON) × Bool) × Bytes) :=
  (Parser.parseMember value s).bind fun (member, s) => (afterElement 125 s).map fun (more, s) => ((member, more), s)

theorem arrayLoop_elements (value : Bytes → Option (cJSON × Bytes)) (fuel : Nat) :
    Parser.arrayLoop value fuel = elements (arrayPassList value) fuel := by
  induction fuel with
  | zero => rfl
  | succ fuel ih =>
    funext s
    rw [Parser.arrayLoop, elements, arrayPassList, ih]
    cases value (Parser.cj_skip_ws s) with
    | none => rfl
    | some item =>
      obtain ⟨item, s⟩ := item
      simp only [Option.bind_some, afterElement]
      split
      · next rest => rw [rest]; rfl
      · next rest => rw [rest]; rfl
      · next comma bracket =>
        cases after : Parser.cj_skip_ws s with
        | nil => rfl
        | cons b t =>
          have noComma : b ≠ 44 := fun same => comma t (by rw [after, same])
          have noBracket : b ≠ 93 := fun same => bracket t (by rw [after, same])
          simp [noComma, noBracket]

theorem objectLoop_elements (value : Bytes → Option (cJSON × Bytes)) (fuel : Nat) :
    Parser.objectLoop value fuel = elements (objectPassList value) fuel := by
  induction fuel with
  | zero => rfl
  | succ fuel ih =>
    funext s
    rw [Parser.objectLoop, elements, objectPassList, ih]
    cases Parser.parseMember value s with
    | none => rfl
    | some member =>
      obtain ⟨member, s⟩ := member
      simp only [Option.bind_some, afterElement]
      split
      · next rest => rw [rest]; rfl
      · next rest => rw [rest]; rfl
      · next comma brace =>
        cases after : Parser.cj_skip_ws s with
        | nil => rfl
        | cons b t =>
          have noComma : b ≠ 44 := fun same => comma t (by rw [after, same])
          have noBrace : b ≠ 125 := fun same => brace t (by rw [after, same])
          simp [noComma, noBrace]

theorem objectPass_list (value : Bytes → Option (cJSON × Bytes)) (s : Bytes) :
    objectPassList value s = (Parser.cj_parse_string_raw (Parser.cj_skip_ws s)).bind fun (key, s) =>
      (afterKey s).bind fun (_, s) =>
      (value (Parser.cj_skip_ws s)).bind fun (v, s) => (afterElement 125 s).map fun (more, s) => (((cstr key, v), more), s) := by
  rw [objectPassList, Parser.parseMember]
  cases Parser.cj_parse_string_raw (Parser.cj_skip_ws s) with
  | none => rfl
  | some read =>
    obtain ⟨key, s⟩ := read
    simp only [Option.bind_some, afterKey]
    split
    · next t rest =>
      rw [rest]
      simp [Option.bind_map]
    · next noColon =>
      cases rest : Parser.cj_skip_ws s with
      | nil => rfl
      | cons b t =>
        have other : b ≠ 58 := fun same => noColon t (by rw [rest, same])
        simp [other]

theorem parse_array_list (value : Bytes → Option (cJSON × Bytes)) (s : Bytes) :
    Parser.cj_parse_array value s = (contained 91 93 (arrayPassList value) s).map fun (items, s) => (.array items, s) := by
  unfold Parser.cj_parse_array contained
  simp only [arrayLoop_elements]
  split
  · next t =>
    simp only [reduceIte]
    split
    · next rest => rw [rest]; rfl
    · next noBracket =>
      cases rest : Parser.cj_skip_ws t with
      | nil => rfl
      | cons b s =>
        have other : b ≠ 93 := fun same => noBracket s (by rw [rest, same])
        simp [other]
  · next noBracket =>
    cases s with
    | nil => rfl
    | cons b t =>
      have other : b ≠ 91 := fun same => noBracket t (by rw [same])
      simp [other]

theorem parse_object_list (value : Bytes → Option (cJSON × Bytes)) (s : Bytes) :
    Parser.cj_parse_object value s =
      (contained 123 125 (objectPassList value) s).map fun (members, s) => (.object members, s) := by
  unfold Parser.cj_parse_object contained
  simp only [objectLoop_elements]
  split
  · next t =>
    simp only [reduceIte]
    split
    · next rest => rw [rest]; rfl
    · next noBrace =>
      cases rest : Parser.cj_skip_ws t with
      | nil => rfl
      | cons b s =>
        have other : b ≠ 125 := fun same => noBrace s (by rw [rest, same])
        simp [other]
  · next noBrace =>
    cases s with
    | nil => rfl
    | cons b t =>
      have other : b ≠ 123 := fun same => noBrace t (by rw [same])
      simp [other]

theorem arrayPass_agrees {value : Nat → Except Fault (Option cJSON × Nat)} {value' : Bytes → Option (cJSON × Bytes)} {n p : Nat}
    (values : ∀ q, p ≤ q → q ≤ text.length → Agrees text q (value q) (value' (text.drop q)))
    (inside : p ≤ text.length) (enough : text.length - p < n) :
    Agrees text p (arrayPass text value n p) (arrayPassList value' (text.drop p)) := by
  refine Agrees.after_space (fun s => (value' s).bind fun (item, s) => (afterElement 93 s).map fun (more, s) => ((item, more), s))
    inside enough fun q forward stays => ?_
  refine (values q forward stays).andThen fun item q' moved stays' => ?_
  exact ((separator_agrees 93 stays' (by omega)).map fun more => (item, more)).from_before moved.le

theorem objectPass_agrees {value : Nat → Except Fault (Option cJSON × Nat)} {value' : Bytes → Option (cJSON × Bytes)} {n p : Nat}
    (values : ∀ q, p ≤ q → q ≤ text.length → Agrees text q (value q) (value' (text.drop q)))
    (inside : p ≤ text.length) (enough : text.length - p < n) :
    Agrees text p (objectPass text value n p) (objectPassList value' (text.drop p)) := by
  rw [objectPass_list]
  refine Agrees.after_space (fun s => (Parser.cj_parse_string_raw s).bind fun (key, s) => (afterKey s).bind fun (_, s) =>
    (value' (Parser.cj_skip_ws s)).bind fun (v, s) => (afterElement 125 s).map fun (more, s) => (((cstr key, v), more), s))
    inside enough fun q forward stays => ?_
  refine (string_raw_agrees stays (by omega)).andThen fun key q₁ moved₁ stays₁ => ?_
  refine ((colon_agrees stays₁ (by omega)).andThen fun _ q₂ moved₂ stays₂ => ?_).from_before moved₁.le
  refine (Agrees.after_space (fun s => (value' s).bind fun (v, s) =>
    (afterElement 125 s).map fun (more, s) => (((cstr key, v), more), s)) stays₂ (by omega)
    fun q₃ forward₃ stays₃ => ?_).from_before moved₂.le
  refine (values q₃ (by omega) stays₃).andThen fun v q₄ moved₄ stays₄ => ?_
  exact ((separator_agrees 125 stays₄ (by omega)).map fun more => ((cstr key, v), more)).from_before moved₄.le

section
variable {value : Nat → Except Fault (Option cJSON × Nat)} {value' : Bytes → Option (cJSON × Bytes)} {start : Nat}
  (values : ∀ q, start < q → q ≤ text.length → Agrees text q (value q) (value' (text.drop q)))
include values

theorem parse_array_agrees {n : Nat} (inside : start ≤ text.length) (enough : text.length - start < n) :
    Agrees text start (cj_parse_array text value n start) (Parser.cj_parse_array value' (text.drop start)) := by
  rw [parse_array_list]
  exact (container_agrees
    (fun n p after => arrayPass_agrees fun q forward => values q (after.trans_le forward))
    91 93 inside enough).map cJSON.array

theorem parse_object_agrees {n : Nat} (inside : start ≤ text.length) (enough : text.length - start < n) :
    Agrees text start (cj_parse_object text value n start) (Parser.cj_parse_object value' (text.drop start)) := by
  rw [parse_object_list]
  exact (container_agrees
    (fun n p after => objectPass_agrees fun q forward => values q (after.trans_le forward))
    123 125 inside enough).map cJSON.object

theorem parseValue_agrees {n : Nat} (inside : start ≤ text.length) (enough : text.length - start < n) :
    Agrees text start (parseValue text value n start) (Parser.parseValue value' (text.drop start)) := by
  refine Agrees.after_space (fun s => match s with
    | [] => none
    | ch :: t =>
      if ch = 34 then Parser.cj_parse_string (ch :: t)
      else if ch = 123 then Parser.cj_parse_object value' (ch :: t)
      else if ch = 91 then Parser.cj_parse_array value' (ch :: t)
      else if ch = 45 || isdigit ch then Parser.cj_parse_number (ch :: t)
      else Parser.literal (lit "true") .true (ch :: t) <|> Parser.literal (lit "false") .false (ch :: t) <|>
        Parser.literal (lit "null") .null (ch :: t)) inside enough fun q forward stays => ?_
  obtain ⟨rfl, atEnd⟩ | ⟨ch, before, read, here⟩ := look stays
  · simpa [atEnd] using Agrees.fails le_rfl le_rfl
  have inner : ∀ q', q < q' → q' ≤ text.length → Agrees text q' (value q') (value' (text.drop q')) :=
    fun q' after inside => values q' (by omega) inside
  have string := parse_string_agrees stays (n := n) (by omega)
  have object := parse_object_agrees inner stays (n := n) (by omega)
  have array := parse_array_agrees inner stays (n := n) (by omega)
  have number := parse_number_agrees stays (n := n) (by omega)
  have literals := literal_agrees (lit "true") .true (by decide) stays <|
    literal_agrees (lit "false") .false (by decide) stays <|
    literal_agrees (lit "null") .null (by decide) stays (.fails le_rfl stays)
  simp only [before, read, ok_bind, if_true]
  rw [here] at string object array number literals ⊢
  dsimp only
  split_ifs
  · exact string
  · exact object
  · exact array
  · exact number
  · simpa using literals

end

theorem parse_value_agrees {n : Nat} : ∀ {p : Nat}, p ≤ text.length → text.length - p < n →
    Agrees text p (cj_parse_value text n p) (Parser.cj_parse_value (text.drop p)) := by
  induction n with
  | zero => intro p _ enough; omega
  | succ n ih =>
    intro p inside enough
    rw [ParserGrammar.cj_parse_value_eq]
    exact parseValue_agrees (fun q after stays => ih stays (by omega)) inside enough

/-- With more passes than bytes are left, each function of the parser and each pass of
    its loops returns without reading outside the text, and what succeeds has consumed a
    byte: the loops and the recursion run out of text before they run out of passes. -/
theorem parser_ends (text : Bytes) (p n : Nat) (inside : p ≤ text.length) (enough : text.length - p < n) :
    Ends text p (cj_parse_value text n p) ∧
    Ends text p (cj_parse_array text (cj_parse_value text n) n p) ∧
    Ends text p (cj_parse_object text (cj_parse_value text n) n p) ∧
    Ends text p (cj_parse_string_raw text n p) ∧
    Ends text p (cj_parse_number text n p) ∧
    Ends text p (arrayPass text (cj_parse_value text n) n p) ∧
    Ends text p (objectPass text (cj_parse_value text n) n p) := by
  have values : ∀ q, p ≤ q → q ≤ text.length → Agrees text q (cj_parse_value text n q) (Parser.cj_parse_value (text.drop q)) :=
    fun q forward stays => parse_value_agrees stays (by omega)
  have later : ∀ q, p < q → q ≤ text.length → Agrees text q (cj_parse_value text n q) (Parser.cj_parse_value (text.drop q)) :=
    fun q after stays => values q after.le stays
  exact ⟨(values p le_rfl inside).ends, (parse_array_agrees later inside enough).ends,
    (parse_object_agrees later inside enough).ends,
    (string_raw_agrees inside enough).ends, (parse_number_agrees inside enough).ends,
    (arrayPass_agrees values inside enough).ends, (objectPass_agrees values inside enough).ends⟩

/-- An escape that the text cuts off. -/
theorem parser_ends_escape : Ends (lit "[\"\\u12") 0 (cj_parse_value (lit "[\"\\u12") 7 0) ∧
    Ends (lit "[\"\\u12") 0 (cj_parse_array (lit "[\"\\u12") (cj_parse_value (lit "[\"\\u12") 7) 7 0) ∧
    Ends (lit "[\"\\u12") 0 (cj_parse_object (lit "[\"\\u12") (cj_parse_value (lit "[\"\\u12") 7) 7 0) ∧
    Ends (lit "[\"\\u12") 0 (cj_parse_string_raw (lit "[\"\\u12") 7 0) ∧
    Ends (lit "[\"\\u12") 0 (cj_parse_number (lit "[\"\\u12") 7 0) ∧
    Ends (lit "[\"\\u12") 0 (arrayPass (lit "[\"\\u12") (cj_parse_value (lit "[\"\\u12") 7) 7 0) ∧
    Ends (lit "[\"\\u12") 0 (objectPass (lit "[\"\\u12") (cj_parse_value (lit "[\"\\u12") 7) 7 0) :=
  parser_ends (lit "[\"\\u12") 0 7 (by decide) (by decide)

/-- The cursor starts at the text up to its NUL. -/
def cJSON_Parse (text : Bytes) : Except Fault (Option cJSON × Nat) :=
  cj_parse_value (cstr text).val ((cstr text).val.length + 1) 0

/-- The run over the cursor and the parser over lists read the same. -/
theorem cJSON_Parse_reads (text : Bytes) : ∃ p, cJSON_Parse text = .ok (Parser.cJSON_Parse text, p) := by
  have agrees : Agrees (cstr text).val 0 (cJSON_Parse text) _ := parse_value_agrees (Nat.zero_le _) (Nat.lt_succ_self _)
  obtain ⟨a, p, run, -, -, -, same⟩ := agrees
  refine ⟨p, ?_⟩
  rw [List.drop_zero] at same
  rw [Parser.cJSON_Parse, same, Option.map_map]
  cases a <;> exact run

end

end Sa.Cursor
