import Mathlib.Data.FinEnum
import Sa.Http

/-!
# Framing and cutting of a body

The stream's state after a reply depends on the bytes of the body only: taking
it in chunks of any sizes, or whole, in reads of any lengths, is taking it byte
by byte (`body_framing`).
-/

namespace Sa.Framing
open Sa.CStrings Sa.NumberTexts Sa.Tinyjson Sa.Parser Sa.Stream Sa.Http

/-- The body one byte at a time. -/
def feed (st : stream_state_t) (body : Bytes) : stream_state_t := body.foldl (fun st b => on_chunk st [b]) st

/-- The state with another line and other bytes at its head buffer. -/
def reframe (line : Bytes) (dropped : Bool) (head : Bytes) (st : stream_state_t) : stream_state_t :=
  { st with line := line, line_dropped := dropped, raw_head := head }

/-- An event leaves the line and the head buffer alone. -/
theorem handle_event_reframe (line : Bytes) (dropped : Bool) (head : Bytes) (st : stream_state_t) (json_str : Bytes) :
    handle_event (reframe line dropped head st) json_str = reframe line dropped head (handle_event st json_str) := by
  unfold handle_event
  cases cJSON_Parse json_str with
  | none => rfl
  | some evt =>
    cases kind : getString (some evt) "type" with
    | none => simp only [kind]
    | some t =>
      simp only [kind]
      split_ifs
      · unfold contentBlockStart
        cases blockIndex evt <;> rfl
      · unfold contentBlockDelta
        cases blockIndex evt with
        | none => rfl
        | some idx =>
          simp only
          split
          · rfl
          · split_ifs
            · split <;> rfl
            · split <;> rfl
            · rfl
      · unfold messageDelta
        split <;> rfl
      · rfl

theorem handle_event_frame (st : stream_state_t) (json_str : Bytes) :
    handle_event st json_str = reframe st.line st.line_dropped st.raw_head (handle_event st json_str) :=
  handle_event_reframe st.line st.line_dropped st.raw_head st json_str

/-- The state with other bytes at its head buffer. -/
def withHead (head : Bytes) (st : stream_state_t) : stream_state_t := { st with raw_head := head }

theorem handle_event_withHead (head : Bytes) (st : stream_state_t) (json_str : Bytes) :
    handle_event (withHead head st) json_str = withHead head (handle_event st json_str) := by
  rw [handle_event_frame st]
  exact handle_event_reframe st.line st.line_dropped head st json_str

theorem onByte_withHead (head : Bytes) (st : stream_state_t) (c : UInt8) :
    onByte (withHead head st) c = withHead head (onByte st c) := by
  have event := handle_event_withHead head st (eventData st.line)
  unfold onByte
  simp only [withHead] at event ⊢
  rw [event]
  by_cases newline : c = 10
  · by_cases dropped : st.line_dropped
    · simp [newline, dropped]
    by_cases data : 5 < st.line.length ∧ st.line.take 5 = lit "data:"
    · simp [newline, dropped, data]
    · simp [newline, dropped, data]
  · by_cases kept : c ≠ 13
    · by_cases full : MAX_SSE_LINE ≤ st.line.length
      · simp [newline, kept, full]
      · simp [newline, kept, full]
    · simp [newline, kept]

theorem foldl_withHead (head : Bytes) (st : stream_state_t) (ptr : Bytes) :
    ptr.foldl onByte (withHead head st) = withHead head (ptr.foldl onByte st) := by
  induction ptr generalizing st with
  | nil => rfl
  | cons c ptr ih => rw [List.foldl_cons, List.foldl_cons, onByte_withHead, ih]

/-- The head buffer with as many bytes more as fit. -/
def growHead (head ptr : Bytes) : Bytes := head ++ ptr.take (RAW_HEAD - head.length)

theorem growHead_append (head a b : Bytes) : growHead (growHead head a) b = growHead head (a ++ b) := by
  unfold growHead
  rw [List.take_append, List.append_assoc]
  congr 2
  simp only [List.length_append, List.length_take]
  congr 1
  omega

theorem on_chunk_eq (st : stream_state_t) (ptr : Bytes) :
    on_chunk st ptr = withHead (growHead st.raw_head ptr) (ptr.foldl onByte st) := by
  rw [← foldl_withHead]
  rfl

@[simp] theorem on_chunk_nil (st : stream_state_t) : on_chunk st [] = st := by
  simp [on_chunk]

/-- Two pieces are their concatenation. -/
theorem on_chunk_append (st : stream_state_t) (a b : Bytes) : on_chunk st (a ++ b) = on_chunk (on_chunk st a) b := by
  rw [on_chunk_eq st a, on_chunk_eq, on_chunk_eq, foldl_withHead, List.foldl_append, ← growHead_append]
  rfl

theorem feed_eq (st : stream_state_t) (body : Bytes) : feed st body = on_chunk st body := by
  induction body generalizing st with
  | nil => simp [feed]
  | cons b body ih =>
    have step : feed st (b :: body) = feed (on_chunk st [b]) body := rfl
    rw [step, ih, ← on_chunk_append]
    rfl

/-- No signal has arrived and none will. -/
structure Quiet (io : Io) : Prop where
  before : io.g_interrupt = false
  later : ∀ s ∈ io.sigs, s = false

theorem poll_quiet {io : Io} (quiet : Quiet io) : ∃ io', io.poll = (false, io') ∧ io'.data = io.data ∧ Quiet io' := by
  have none : io.sigs.headD false = false := by
    cases signals : io.sigs with
    | nil => rfl
    | cons s sigs => exact quiet.later s (by simp [signals])
  rw [List.headD_eq_head?_getD] at none
  refine ⟨{ io with sigs := io.sigs.tail, g_interrupt := false }, ?_, rfl, rfl, fun s member => ?_⟩
  · simp [Io.poll, quiet.before, none]
  · exact quiet.later s (List.mem_of_mem_tail member)

theorem read_quiet {io : Io} (quiet : Quiet io) (some : io.data ≠ []) (len : Nat) (positive : 0 < len) :
    ∃ k io', 0 < k ∧ k ≤ len ∧ k ≤ io.data.length ∧ br_sslio_read io len = Option.some (io.data.take k, io') ∧
      io'.data = io.data.drop k ∧ Quiet io' := by
  have size : 0 < io.data.length := List.length_pos_of_ne_nil some
  refine ⟨min (readSize len io) io.data.length, { io with data := io.data.drop (readSize len io), cuts := io.cuts.tail },
    ?_, ?_, Nat.min_le_right _ _, ?_, ?_, quiet.before, quiet.later⟩
  · unfold readSize
    omega
  · unfold readSize
    omega
  · simp [br_sslio_read, some, ← List.take_eq_take_min]
  · rcases Nat.le_total (readSize len io) io.data.length with le | le
    · simp [Nat.min_eq_left le]
    · simp [Nat.min_eq_right le, List.drop_eq_nil_of_le le]

/-- The data of a chunk arrive as they are, however the transport cuts them. -/
theorem chunkData_quiet (fuel : Nat) : ∀ (io : Io) (st : stream_state_t) (body rest : Bytes), Quiet io →
    io.data = body ++ rest → body.length < fuel →
    ∃ io', chunkData onChunkOrInterrupt fuel body.length st io = (0, on_chunk st body, io') ∧ io'.data = rest ∧ Quiet io' := by
  induction fuel with
  | zero => intro io st body rest _ _ enough; omega
  | succ fuel ih =>
    intro io st body rest quiet data enough
    rw [chunkData]
    by_cases done : body = []
    · subst done
      exact ⟨io, by simp, by simpa using data, quiet⟩
    have size : 0 < body.length := List.length_pos_of_ne_nil done
    obtain ⟨io₁, poll, data₁, quiet₁⟩ := poll_quiet quiet
    have some : io₁.data ≠ [] := by rw [data₁, data]; simp [done]
    obtain ⟨k, io₂, positive, within, -, read, data₂, quiet₂⟩ := read_quiet quiet₁ some (min body.length 4096) (by omega)
    obtain ⟨io₃, poll', data₃, quiet₃⟩ := poll_quiet quiet₂
    have taken : io₁.data.take k = body.take k := by
      rw [data₁, data, List.take_append_of_le_length (by omega)]
    have dropped : io₃.data = body.drop k ++ rest := by
      rw [data₃, data₂, data₁, data, List.drop_append_of_le_length (by omega)]
    obtain ⟨io', loop, data', quiet'⟩ := ih io₃ (on_chunk st (body.take k)) (body.drop k) rest quiet₃ dropped
      (by rw [List.length_drop]; omega)
    refine ⟨io', ?_, data', quiet'⟩
    rw [if_neg (by omega)]
    simp only [poll, Bool.false_eq_true, if_false, read, onChunkOrInterrupt, poll', taken]
    have left : body.length - (body.take k).length = (body.drop k).length := by
      rw [List.length_take, List.length_drop]
      omega
    rw [left, loop, ← on_chunk_append, List.take_append_drop]

/-! ### Chunk sizes -/

/-- A chunk's size as its sender writes it: lower case, no leading zeros. -/
def hexText (n : ℕ) : Bytes := (Nat.toDigits 16 n).map Char.toUInt8

def hexDigit (d : ℕ) : UInt8 := (Nat.digitChar d).toUInt8

theorem hexText_small {n : ℕ} (small : n < 16) : hexText n = [hexDigit n] := by
  rw [hexText, Nat.toDigits_of_lt_base small]
  rfl

theorem hexText_step {n : ℕ} (large : 16 ≤ n) : hexText n = hexText (n / 16) ++ [hexDigit (n % 16)] := by
  rw [hexText, Nat.toDigits_of_base_le (by omega) large, List.map_append]
  rfl

theorem hexVal_hexDigit {d : ℕ} (small : d < 16) : hexVal (hexDigit d) = some d := by
  have all : ∀ d : Fin 16, hexVal (hexDigit d) = some d.val := by decide
  exact all ⟨d, small⟩

theorem hexText_digits (n : ℕ) : ∀ b ∈ hexText n, (hexVal b).isSome := by
  induction n using Nat.strongRecOn with
  | _ n ih =>
    intro b member
    by_cases small : n < 16
    · rw [hexText_small small, List.mem_singleton] at member
      simp [member, hexVal_hexDigit small]
    · rw [hexText_step (by omega)] at member
      rcases List.mem_append.mp member with first | last
      · exact ih (n / 16) (by omega) b first
      · rw [List.mem_singleton] at last
        simp [last, hexVal_hexDigit (Nat.mod_lt n (by omega : 0 < 16))]

theorem hexText_ne_nil (n : ℕ) : hexText n ≠ [] := by
  simp [hexText, Nat.toDigits_ne_nil]

theorem length_hexText_le {n k : ℕ} (positive : 0 < k) (bound : n < 16 ^ k) : (hexText n).length ≤ k := by
  rw [hexText, List.length_map]
  exact (Nat.length_toDigits_le_iff (by omega) positive).mpr bound

@[simp] theorem digitsOf_hexText (n : ℕ) : digitsOf 16 (hexText n) = n := by
  induction n using Nat.strongRecOn with
  | _ n ih =>
    by_cases small : n < 16
    · simp [hexText_small small, digitsOf, hexVal_hexDigit small]
    · have last := hexVal_hexDigit (Nat.mod_lt n (by omega : 0 < 16))
      have first := ih (n / 16) (by omega)
      unfold digitsOf at first ⊢
      rw [hexText_step (by omega), List.foldl_append, first]
      simp only [List.foldl_cons, List.foldl_nil, last, Option.getD_some]
      omega

/-- What a cut `\r\n` leaves for the next size line. -/
def Leftover (left : Bytes) : Prop := left = [] ∨ left = [10]

theorem hexDigit_plain {b : UInt8} (digit : (hexVal b).isSome) :
    b ≠ 0 ∧ b ≠ 13 ∧ isspace b = false ∧ b ≠ 45 ∧ b ≠ 43 ∧ b ≠ 120 ∧ b ≠ 88 := by
  have all : ∀ b : UInt8, (hexVal b).isSome →
      b ≠ 0 ∧ b ≠ 13 ∧ isspace b = false ∧ b ≠ 45 ∧ b ≠ 43 ∧ b ≠ 120 ∧ b ≠ 88 := by decide +kernel
  exact all b digit

/-- Hexadecimal digits after blanks read as their number, up to the largest `long`. -/
theorem strtol16_digits (left : Bytes) {ds after : Bytes} (blanks : left.all isspace) (some : ds ≠ [])
    (digits : ∀ b ∈ ds, (hexVal b).isSome) (apart : ∀ b ∈ after.head?, hexVal b = none ∧ b ≠ 120 ∧ b ≠ 88) :
    strtol16 (left ++ (ds ++ after)) = min LONG_MAX (digitsOf 16 ds) := by
  obtain ⟨d, ds, rfl⟩ := List.exists_cons_of_ne_nil some
  have plain := hexDigit_plain (digits d (by simp))
  have spaces : (left ++ (d :: ds ++ after)).dropWhile isspace = d :: ds ++ after := by
    rw [List.dropWhile_append_of_pos (by simpa using blanks), List.cons_append,
      List.dropWhile_cons_of_neg (by simp [plain.2.2.1])]
  have unsigned : signOf (d :: ds ++ after) = (false, d :: ds ++ after) := by
    rw [List.cons_append]
    unfold signOf
    split
    · next same => exact absurd (List.cons.inj same).1 plain.2.2.2.1
    · next same => exact absurd (List.cons.inj same).1 plain.2.2.2.2.1
    · rfl
  have unmarked : skipHexMark (d :: ds ++ after) = d :: ds ++ after := by
    rw [List.cons_append]
    unfold skipHexMark
    split
    · next x h t same =>
      have second : (ds ++ after).head? = Option.some x := by rw [(List.cons.inj same).2]; rfl
      have other : x ≠ 120 ∧ x ≠ 88 := by
        cases ds with
        | nil => exact (apart x second).2
        | cons e ds =>
          cases second
          exact (hexDigit_plain (digits x (by simp))).2.2.2.2.2
      rw [if_neg (by simp [other])]
    · rfl
  have whole : (d :: ds ++ after).takeWhile (fun b => (hexVal b).isSome) = d :: ds := by
    rw [List.takeWhile_append_of_pos digits]
    cases after with
    | nil => simp
    | cons b after => simp [(apart b rfl).1]
  have low : LONG_MIN ≤ min LONG_MAX (digitsOf 16 (d :: ds) : ℤ) := by
    simp only [LONG_MIN, LONG_MAX]
    omega
  unfold strtol16
  simp only [spaces, unsigned, unmarked, whole, Bool.false_eq_true, if_false]
  exact max_eq_right low

/-- The size line reads as its number, up to the largest `long`. -/
theorem strtol16_sizeLine {left : Bytes} (before : Leftover left) (n : ℕ) :
    strtol16 (cstr (left ++ hexText n ++ [13, 10])).val = min LONG_MAX n := by
  have digits := hexText_digits n
  have free : 0 ∉ left ++ hexText n ++ [13, 10] := by
    intro member
    simp only [List.mem_append] at member
    rcases member with (first | digit) | crlf
    · rcases before with rfl | rfl <;> simp at first
    · exact (hexDigit_plain (digits 0 digit)).1 rfl
    · simp at crlf
  have blanks : left.all isspace := by rcases before with rfl | rfl <;> decide
  rw [cstr_of_nulFree free, List.append_assoc, strtol16_digits left blanks (hexText_ne_nil n) digits (by simp [hexVal]),
    digitsOf_hexText]

/-- A size line arrives whole when it fits. -/
theorem readSizeLine_quiet (l : Bytes) (room : ℕ) (szline rest : Bytes) (io : Io) (quiet : Quiet io)
    (data : io.data = l ++ 13 :: 10 :: rest) (plain : 13 ∉ szline ++ l) (enough : l.length + 2 ≤ room) :
    ∃ io', readSizeLine room szline io = some (szline ++ l ++ [13, 10], io') ∧ io'.data = rest ∧ Quiet io' := by
  have once : ∀ p q, szline ++ (l ++ [13, 10]) = p ++ [13, 10] ++ q → q = [] := by
    intro p q same
    rw [← List.append_assoc, List.append_assoc p] at same
    rcases List.append_eq_append_iff.mp same with ⟨more, -, tail⟩ | ⟨more, whole, tail⟩
    · have lengths := congrArg List.length tail
      simp only [List.length_append] at lengths
      exact List.eq_nil_of_length_eq_zero (by omega)
    · cases more with
      | nil => simpa using tail
      | cons c more =>
        rw [List.cons_append, List.cons_append] at tail
        refine absurd ?_ plain
        rw [whole, ← (List.cons.inj tail).1]
        simp
  obtain ⟨cuts, read⟩ := read_until [13, 10] readSizeLine (fun _ _ _ => rfl) (l ++ [13, 10]) room szline rest io
    (by simpa using data) (by simp) (by simpa using enough) ⟨szline ++ l, by simp⟩ once
  exact ⟨{ io with data := rest, cuts := cuts }, by simpa using read, rfl, quiet.before, quiet.later⟩

/-! ### Whole bodies -/

/-- A body in chunks. -/
def framed (cs : List Bytes) : Bytes :=
  (cs.flatMap fun c => hexText c.length ++ 13 :: 10 :: c ++ [13, 10]) ++ 48 :: 13 :: 10 :: [13, 10]

theorem framed_nil : framed [] = hexText 0 ++ 13 :: 10 :: [13, 10] := by
  simp [framed, hexText_small, hexDigit]
  decide

theorem framed_cons (c : Bytes) (cs : List Bytes) :
    framed (c :: cs) = hexText c.length ++ 13 :: 10 :: (c ++ 13 :: 10 :: framed cs) := by
  simp [framed]

/-- Sizes that a `long` holds. -/
def FitsLong (n : ℕ) : Prop := (n : Int) ≤ LONG_MAX

theorem sizeLine_quiet {left : Bytes} (before : Leftover left) {n : ℕ} (short : n < 16 ^ 16) {rest : Bytes} {io : Io}
    (quiet : Quiet io) (data : io.data = left ++ (hexText n ++ 13 :: 10 :: rest)) :
    ∃ szline io', readSizeLine 31 [] io = some (szline, io') ∧ strtol16 (cstr szline).val = min LONG_MAX n ∧
      io'.data = rest ∧ Quiet io' := by
  have digits := hexText_digits n
  have short : (hexText n).length ≤ 16 := length_hexText_le (by omega) short
  have small : left.length ≤ 1 := by rcases before with rfl | rfl <;> simp
  have plain : 13 ∉ left ++ hexText n := by
    intro member
    rcases List.mem_append.mp member with first | digit
    · rcases before with rfl | rfl <;> simp at first
    · exact (hexDigit_plain (digits 13 digit)).2.1 rfl
  obtain ⟨io', read, data', quiet'⟩ := readSizeLine_quiet (left ++ hexText n) 31 [] rest io quiet
    (by rw [data, List.append_assoc]) plain (by rw [List.length_append]; omega)
  exact ⟨_, io', read, by rw [List.nil_append, strtol16_sizeLine before], data', quiet'⟩

theorem fitsLong_short {n : ℕ} (fits : FitsLong n) : n < 16 ^ 16 := by
  unfold FitsLong LONG_MAX at fits
  omega

/-- The last chunk ends the body. -/
theorem chunks_end {left : Bytes} (before : Leftover left) (fuel : ℕ) (st : stream_state_t) {io : Io} (quiet : Quiet io)
    (data : io.data = left ++ framed []) : ∃ io', chunks onChunkOrInterrupt (fuel + 1) st io = (0, st, io') := by
  obtain ⟨io₁, poll, data₁, quiet₁⟩ := poll_quiet quiet
  obtain ⟨szline, io₂, read, size, data₂, quiet₂⟩ := sizeLine_quiet before (n := 0) (by norm_num)
    quiet₁ (by rw [data₁, data, framed_nil])
  have zero : strtol16 (cstr szline).val = 0 := by simpa [LONG_MAX] using size
  simp [chunks, poll, read, zero]

/-- The loop over the chunks takes their data in order; `left` is what the read of
    the `\r\n` before it left behind. -/
theorem chunks_quiet (cs : List Bytes) (some : ∀ c ∈ cs, c ≠ []) (fit : ∀ c ∈ cs, FitsLong c.length) :
    ∀ (fuel : ℕ) (left : Bytes) (st : stream_state_t) (io : Io), Leftover left → Quiet io →
    io.data = left ++ framed cs → cs.length < fuel →
    ∃ io', chunks onChunkOrInterrupt fuel st io = (0, on_chunk st cs.flatten, io') := by
  induction cs with
  | nil =>
    intro fuel left st io before quiet data enough
    obtain ⟨fuel, rfl⟩ : ∃ f, fuel = f + 1 := ⟨fuel - 1, by omega⟩
    simpa using chunks_end before fuel st quiet data
  | cons c cs ih =>
    intro fuel left st io before quiet data enough
    obtain ⟨fuel, rfl⟩ : ∃ f, fuel = f + 1 := ⟨fuel - 1, by omega⟩
    have nonempty : 0 < c.length := List.length_pos_of_ne_nil (some c (by simp))
    obtain ⟨io₁, poll, data₁, quiet₁⟩ := poll_quiet quiet
    obtain ⟨szline, io₂, read, size, data₂, quiet₂⟩ := sizeLine_quiet before (fitsLong_short (fit c (by simp))) quiet₁
      (by rw [data₁, data, framed_cons])
    rw [min_eq_right (fit c (by simp))] at size
    obtain ⟨io₃, loop, data₃, quiet₃⟩ := chunkData_quiet (io₂.data.length + 2) io₂ st c _ quiet₂ data₂
      (by rw [data₂]; simp; omega)
    obtain ⟨k, io₄, positive, within, -, trailer, data₄, quiet₄⟩ := read_quiet quiet₃ (by simp [data₃]) 2 (by omega)
    obtain ⟨left', before', data'⟩ : ∃ left', Leftover left' ∧ io₄.data = left' ++ framed cs := by
      rcases (by omega : k = 1 ∨ k = 2) with rfl | rfl
      · exact ⟨[10], .inr rfl, by simp [data₄, data₃]⟩
      · exact ⟨[], .inl rfl, by simp [data₄, data₃]⟩
    obtain ⟨io', rest⟩ := ih (fun d member => some d (by simp [member])) (fun d member => fit d (by simp [member]))
      fuel left' (on_chunk st c) io₄ before' quiet₄ data' (by simp at enough; omega)
    refine ⟨io', ?_⟩
    rw [chunks]
    have more : ¬(c.length : Int) < 0 := by omega
    have unfinished : ¬(c.length : Int) = 0 := by omega
    simp only [poll, Bool.false_eq_true, if_false, read, size, more, unfinished, Int.toNat_natCast, loop, trailer, rest]
    rw [List.flatten_cons, on_chunk_append]

/-- The loop over a body of known length. -/
theorem plainBody_quiet (clen : ℕ) (fuel : ℕ) : ∀ (got : ℕ) (st : stream_state_t) (io : Io), Quiet io →
    got + io.data.length = clen → io.data ≠ [] → io.data.length < fuel →
    ∃ io', plainBody onChunkOrInterrupt fuel clen got st io = (0, on_chunk st io.data, io') := by
  induction fuel with
  | zero => intro got st io _ _ _ enough; omega
  | succ fuel ih =>
    intro got st io quiet total some enough
    obtain ⟨io₁, poll, data₁, quiet₁⟩ := poll_quiet quiet
    obtain ⟨k, io₂, positive, -, inside, read, data₂, quiet₂⟩ := read_quiet quiet₁ (by rwa [data₁]) 4096 (by omega)
    obtain ⟨io₃, poll', data₃, quiet₃⟩ := poll_quiet quiet₂
    rw [data₁] at inside read data₂
    have size : (io.data.take k).length = k := by rw [List.length_take]; omega
    have after : io₃.data = io.data.drop k := by rw [data₃, data₂]
    rw [plainBody]
    simp only [poll, Bool.false_eq_true, if_false, read, onChunkOrInterrupt, poll', size]
    by_cases last : k = io.data.length
    · refine ⟨io₃, ?_⟩
      rw [if_pos (by omega), List.take_of_length_le (by omega)]
    · have more : io.data.drop k ≠ [] := by
        intro none
        rw [List.drop_eq_nil_iff] at none
        omega
      obtain ⟨io', rest⟩ := ih (got + k) (on_chunk st (io.data.take k)) io₃ quiet₃ (by rw [after, List.length_drop]; omega)
        (by rwa [after]) (by rw [after, List.length_drop]; omega)
      refine ⟨io', ?_⟩
      rw [if_neg (by omega), ← Nat.cast_add, rest, after, ← on_chunk_append, List.take_append_drop]

/-- A body whose sizes a `long` holds is taken byte by byte, whether it comes in
    chunks or whole and however the transport cuts it. -/
theorem body_framing (body : Bytes) (some : body ≠ []) (st : stream_state_t) :
    (∀ (cs : List Bytes) (io : Io) (clen : ℤ), cs.flatten = body → (∀ c ∈ cs, c ≠ []) → (∀ c ∈ cs, FitsLong c.length) →
      Quiet io → io.data = framed cs →
      ∃ io', http_stream_body onChunkOrInterrupt true clen st io = (0, feed st body, io')) ∧
    (FitsLong body.length → ∀ io : Io, Quiet io → io.data = body →
      ∃ io', http_stream_body onChunkOrInterrupt false body.length st io = (0, feed st body, io')) := by
  constructor
  · rintro cs io clen rfl nonempty fit quiet data
    have enough : cs.length < io.data.length + 2 := by
      have longer : cs.length ≤ (framed cs).length := by
        clear some fit data
        induction cs with
        | nil => simp
        | cons c cs ih =>
          have := ih fun d member => nonempty d (by simp [member])
          rw [framed_cons]
          simp only [List.length_append, List.length_cons]
          omega
      rw [data]
      omega
    rw [feed_eq]
    exact chunks_quiet cs nonempty fit _ [] st io (.inl rfl) quiet data enough
  · rintro - io quiet rfl
    rw [feed_eq]
    exact plainBody_quiet io.data.length _ 0 st io quiet (by omega) some (by omega)

/-- Reads of one byte, then of two. -/
theorem body_framing_cut :
    (∃ io', http_stream_body onChunkOrInterrupt true (-1) initial ⟨framed [[97], [98, 10]], [1, 1, 1, 1, 2], [], false⟩ =
      (0, feed initial [97, 98, 10], io')) ∧
    ∃ io', http_stream_body onChunkOrInterrupt false 3 initial ⟨[97, 98, 10], [1, 2], [], false⟩ =
      (0, feed initial [97, 98, 10], io') := by
  obtain ⟨chunked, whole⟩ := body_framing [97, 98, 10] (by decide) initial
  exact ⟨chunked [[97], [98, 10]] _ (-1) rfl (by decide) (by simp [FitsLong, LONG_MAX]) ⟨rfl, by simp⟩ rfl,
    whole (by simp [FitsLong, LONG_MAX]) _ ⟨rfl, by simp⟩ rfl⟩

/-- `strtol` gives the largest `long` for a size above it, and the rest of the
    chunk is taken for a trailer and a size line. -/
theorem chunks_overlong (c : Bytes) (size : (c.length : ℤ) = LONG_MAX) (b : UInt8) (fuel : ℕ) (st : stream_state_t)
    (io : Io) (quiet : Quiet io) (data : io.data = framed [c ++ [b]]) :
    ∃ io', chunks onChunkOrInterrupt (fuel + 2) st io = (0, on_chunk st c, io') := by
  have length : (c ++ [b]).length = c.length + 1 := by simp
  have short : (c ++ [b]).length < 16 ^ 16 := by
    unfold LONG_MAX at size
    omega
  obtain ⟨io₁, poll, data₁, quiet₁⟩ := poll_quiet quiet
  obtain ⟨szline, io₂, read, size', data₂, quiet₂⟩ := sizeLine_quiet (.inl rfl) short quiet₁
    (by rw [data₁, data, framed_cons]; rfl)
  rw [min_eq_left (by omega), ← size] at size'
  obtain ⟨io₃, loop, data₃, quiet₃⟩ := chunkData_quiet (io₂.data.length + 2) io₂ st c (b :: 13 :: 10 :: framed []) quiet₂
    (by rw [data₂]; simp) (by rw [data₂, List.length_append]; omega)
  obtain ⟨k, io₄, positive, within, -, trailer, data₄, quiet₄⟩ := read_quiet quiet₃ (by simp [data₃]) 2 (by omega)
  have ends : ∃ io', chunks onChunkOrInterrupt (fuel + 1) (on_chunk st c) io₄ = (0, on_chunk st c, io') := by
    rcases (by omega : k = 1 ∨ k = 2) with rfl | rfl
    · -- The trailer's `\r\n` is an empty size line.
      obtain ⟨io₅, poll', data₅, quiet₅⟩ := poll_quiet quiet₄
      obtain ⟨io₆, read', -, -⟩ := readSizeLine_quiet [] 31 [] (framed []) io₅ quiet₅ (by simp [data₅, data₄, data₃])
        (by simp) (by simp)
      have empty : strtol16 (cstr [13, 10]).val = 0 := by decide
      simp [chunks, poll', read', empty]
    · exact chunks_end (.inr rfl) fuel _ quiet₄ (by simp [data₄, data₃])
  obtain ⟨io', rest⟩ := ends
  refine ⟨io', ?_⟩
  rw [chunks]
  have more : ¬(c.length : ℤ) < 0 := by omega
  have unfinished : ¬(c.length : ℤ) = 0 := by
    unfold LONG_MAX at size
    omega
  simp only [poll, Bool.false_eq_true, if_false, read, size', more, unfinished, Int.toNat_natCast, loop, trailer, rest]

theorem body_overlong (c : Bytes) (size : (c.length : ℤ) = LONG_MAX) (b : UInt8) (clen : ℤ) (st : stream_state_t) (io : Io)
    (quiet : Quiet io) (data : io.data = framed [c ++ [b]]) :
    (http_stream_body onChunkOrInterrupt true clen st io).2.1 = on_chunk st c := by
  obtain ⟨io', cut⟩ := chunks_overlong c size b io.data.length st io quiet data
  rw [http_stream_body, if_pos rfl, cut]

/-- One line of `x`, in one chunk of a byte more than the largest `long`. -/
def overlong : Bytes := List.replicate LONG_MAX.toNat 120 ++ [10]

theorem line_ended (st : stream_state_t) (ptr : Bytes) : (on_chunk st (ptr ++ [10])).line = [] := by
  rw [on_chunk_append, on_chunk_eq]
  unfold onByte
  simp only [List.foldl_cons, List.foldl_nil, if_true, withHead]
  split_ifs <;> rfl

theorem line_pending (n : ℕ) : (on_chunk initial (List.replicate (n + 1) 120)).line ≠ [] := by
  have grows : ∀ (n : ℕ) (st : stream_state_t), st.line ≠ [] → ((List.replicate n 120).foldl onByte st).line ≠ [] := by
    intro n
    induction n with
    | zero => exact fun st some => some
    | succ n ih =>
      intro st some
      refine ih _ ?_
      unfold onByte
      simp only [(by decide : (120 : UInt8) ≠ 10), (by decide : (120 : UInt8) ≠ 13), if_false, ne_eq, not_false_eq_true,
        if_true]
      split_ifs
      · exact some
      · simp
  rw [on_chunk_eq]
  exact grows n (onByte initial 120) (by decide)

theorem framing_overlong :
    (http_stream_body onChunkOrInterrupt true (-1) initial ⟨framed [overlong], [], [], false⟩).2.1 ≠
      feed initial overlong := by
  intro same
  obtain ⟨n, positive⟩ : ∃ n, LONG_MAX.toNat = n + 1 := ⟨LONG_MAX.toNat - 1, rfl⟩
  have size : ((List.replicate LONG_MAX.toNat (120 : UInt8)).length : ℤ) = LONG_MAX := by
    rw [List.length_replicate]
    rfl
  have cut := body_overlong _ size 10 (-1) initial ⟨framed [overlong], [], [], false⟩ ⟨rfl, by simp⟩ (by rw [overlong])
  rw [cut, feed_eq] at same
  have ended := line_ended initial (List.replicate LONG_MAX.toNat 120)
  rw [← overlong, ← same, positive] at ended
  exact line_pending n ended

end Sa.Framing
