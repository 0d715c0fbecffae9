import Sa.Framing

/-!
# Bodies that are not chunked

`http_stream_body` tests the length after a read of up to 4096 bytes and knows no
orderly end of the connection, so a body is delivered whole exactly when its length
is known, is not zero, and some read happens to end with it (`plain_body_delivered`).
-/

namespace Sa.Unchunked
open Sa.CStrings Sa.Http Sa.Framing

/-- A callback that takes every byte and keeps it. -/
def record (got buf : Bytes) (io : Io) : Option Bytes × Io := (some (got ++ buf), io)

/-- `clen` for a reply with or without a `Content-Length`. -/
def clenOf : Option ℕ → ℤ
  | none => -1
  | some n => n

/-- The body that the headers announce. -/
def announced (len : Option ℕ) (data : Bytes) : Bytes :=
  match len with
  | none => data
  | some n => data.take n

/-- The announced body is delivered, no byte more, and the result is `0`. -/
def Delivered (len : Option ℕ) (io : Io) : Prop :=
  ∃ io', http_stream_body record false (clenOf len) [] io = (0, announced len io.data, io')

/-- Where the first `k` reads of 4096 bytes end as the transport cuts them, if there are bytes enough. -/
def readEnd : ℕ → List ℕ → ℕ
  | 0, _ => 0
  | k + 1, cuts => max 1 (min 4096 (cuts.headD 4096)) + readEnd k cuts.tail

/-- Some read ends right after the first `n` bytes. -/
def ReadEndsAt (n : ℕ) (io : Io) : Prop := ∃ k, min (readEnd k io.cuts) io.data.length = n

/-- A read of the loop, by the number of its bytes. -/
theorem read_plain {io : Io} (quiet : Quiet io) (some : io.data ≠ []) :
    ∃ io₁ io₂, io.poll = (false, io₁) ∧
      br_sslio_read io₁ 4096 = Option.some (io.data.take (min (readEnd 1 io.cuts) io.data.length), io₂) ∧
      io₂.data = io.data.drop (min (readEnd 1 io.cuts) io.data.length) ∧ io₂.cuts = io.cuts.tail ∧ Quiet io₂ := by
  obtain ⟨io₁, poll, data₁, quiet₁⟩ := poll_quiet quiet
  have cuts₁ : io₁.cuts = io.cuts := by
    have := congrArg (fun p => p.2.cuts) poll
    simpa [Io.poll] using this.symm
  have size : readSize 4096 io₁ = readEnd 1 io.cuts := by simp [readSize, readEnd, cuts₁]
  have took : br_sslio_read io₁ 4096 = Option.some (io.data.take (readEnd 1 io.cuts),
      { io₁ with data := io.data.drop (readEnd 1 io.cuts), cuts := io.cuts.tail }) := by
    simp only [br_sslio_read, data₁, some, if_false, size, cuts₁]
  refine ⟨io₁, { io₁ with data := io.data.drop (readEnd 1 io.cuts), cuts := io.cuts.tail }, poll,
    by rw [took, ← List.take_eq_take_min], ?_, rfl, quiet₁.before, quiet₁.later⟩
  change io.data.drop (readEnd 1 io.cuts) = _
  rcases Nat.le_total (readEnd 1 io.cuts) io.data.length with within | past
  · rw [Nat.min_eq_left within]
  · rw [Nat.min_eq_right past, List.drop_length, List.drop_eq_nil_of_le past]

theorem readEnd_one_pos (cuts : List ℕ) : 0 < readEnd 1 cuts := by
  simp only [readEnd]
  omega

theorem readEnd_succ (k : ℕ) (cuts : List ℕ) : readEnd (k + 1) cuts = readEnd 1 cuts + readEnd k cuts.tail := rfl

/-- A read that reaches the end of the body must end with it. -/
theorem readEndsAt_reached {io : Io} {n : ℕ} (positive : 0 < n)
    (reached : n ≤ min (readEnd 1 io.cuts) io.data.length) :
    ReadEndsAt n io ↔ min (readEnd 1 io.cuts) io.data.length = n := by
  constructor
  · rintro ⟨k, ends⟩
    cases k with
    | zero => simp [readEnd] at ends; omega
    | succ k =>
      rw [readEnd_succ] at ends
      omega
  · exact fun ends => ⟨1, ends⟩

/-- A read that stays before it leaves the question to the next reads. -/
theorem readEndsAt_short {io io' : Io} {n : ℕ} (short : min (readEnd 1 io.cuts) io.data.length < n)
    (enough : n ≤ io.data.length) (data : io'.data = io.data.drop (min (readEnd 1 io.cuts) io.data.length))
    (cuts : io'.cuts = io.cuts.tail) :
    ReadEndsAt n io ↔ ReadEndsAt (n - min (readEnd 1 io.cuts) io.data.length) io' := by
  have size : io'.data.length = io.data.length - min (readEnd 1 io.cuts) io.data.length := by rw [data, List.length_drop]
  constructor
  · rintro ⟨k, ends⟩
    cases k with
    | zero => simp [readEnd] at ends; omega
    | succ k =>
      rw [readEnd_succ] at ends
      exact ⟨k, by rw [cuts, size]; omega⟩
  · rintro ⟨k, ends⟩
    rw [cuts, size] at ends
    exact ⟨k + 1, by rw [readEnd_succ]; omega⟩

/-- With a length the loop stops rightly only where a read ends. -/
theorem plainBody_length (fuel : ℕ) : ∀ (n : ℕ) (got : Bytes) (io : Io), Quiet io → io.data.length < fuel → 0 < n →
    n ≤ io.data.length →
    ((∃ io', plainBody record fuel (got.length + n) got.length got io = (0, got ++ io.data.take n, io')) ↔
      ReadEndsAt n io) := by
  induction fuel with
  | zero => intro n got io _ enough; omega
  | succ fuel ih =>
    intro n got io quiet enough positive whole
    have some : io.data ≠ [] := List.ne_nil_of_length_pos (by omega)
    obtain ⟨io₁, io₂, poll, read, data₂, cuts₂, quiet₂⟩ := read_plain quiet some
    have first := readEnd_one_pos io.cuts
    rw [plainBody]
    simp only [poll, Bool.false_eq_true, if_false, read, record]
    generalize size : min (readEnd 1 io.cuts) io.data.length = r at *
    have took : (io.data.take r).length = r := by rw [List.length_take]; omega
    rw [took]
    by_cases reached : n ≤ r
    · rw [if_pos (by omega), readEndsAt_reached positive (by rw [size]; exact reached), size]
      constructor
      · rintro ⟨io', same⟩
        have bytes := List.append_cancel_left (congrArg (fun p => p.2.1) same)
        have lengths := congrArg List.length bytes
        simp only [List.length_take] at lengths
        omega
      · rintro rfl
        exact ⟨io₂, rfl⟩
    · rw [if_neg (by omega), readEndsAt_short (by omega) whole (by rw [size]; exact data₂) cuts₂, size]
      have left : io₂.data.length = io.data.length - r := by rw [data₂, List.length_drop]
      have goal : (got.length + n : ℤ) = (got ++ io.data.take r).length + (n - r : ℕ) := by
        rw [List.length_append, took]
        push_cast
        omega
      have total : (got.length + r : ℤ) = (got ++ io.data.take r).length := by
        rw [List.length_append, took]
        push_cast
        rfl
      have bytes : got ++ io.data.take n = got ++ io.data.take r ++ io₂.data.take (n - r) := by
        rw [data₂, List.append_assoc, ← List.take_add]
        congr 2
        omega
      rw [goal, total, bytes]
      exact ih (n - r) (got ++ io.data.take r) io₂ quiet₂ (by omega) (by omega) (by omega)

/-- The length zero is noticed after a read only, which waits for bytes past the body. -/
theorem plainBody_empty (fuel : ℕ) {io : Io} (quiet : Quiet io) {code : ℤ} {got : Bytes} {io' : Io}
    (ends : plainBody record fuel 0 0 [] io = (code, got, io')) : code = -1 ∨ got ≠ [] := by
  cases fuel with
  | zero => cases ends; exact .inl rfl
  | succ fuel =>
    rw [plainBody] at ends
    by_cases none : io.data = []
    · obtain ⟨io₁, poll, data₁, -⟩ := poll_quiet quiet
      have closed : br_sslio_read io₁ 4096 = Option.none := by simp [br_sslio_read, data₁, none]
      simp only [poll, Bool.false_eq_true, if_false, closed] at ends
      cases ends
      exact .inl rfl
    · obtain ⟨io₁, io₂, poll, read, -⟩ := read_plain quiet none
      have reached : (0 : ℤ) ≤ 0 ∧ (0 : ℤ) ≤ 0 + (io.data.take (min (readEnd 1 io.cuts) io.data.length)).length := by
        omega
      simp only [poll, Bool.false_eq_true, if_false, read, record, if_pos reached] at ends
      cases ends
      have first := readEnd_one_pos io.cuts
      have size := List.length_pos_of_ne_nil none
      refine .inr (List.ne_nil_of_length_pos ?_)
      rw [List.nil_append, List.length_take]
      omega

/-- Without a length the loop ends with a failed read only. -/
theorem plainBody_closed (fuel : ℕ) : ∀ (total : ℤ) (got : Bytes) (io : Io), Quiet io →
    (plainBody record fuel (-1) total got io).1 = -1 := by
  induction fuel with
  | zero => exact fun _ _ _ _ => rfl
  | succ fuel ih =>
    intro total got io quiet
    rw [plainBody]
    by_cases none : io.data = []
    · obtain ⟨io₁, poll, data₁, -⟩ := poll_quiet quiet
      have closed : br_sslio_read io₁ 4096 = Option.none := by simp [br_sslio_read, data₁, none]
      simp only [poll, Bool.false_eq_true, if_false, closed]
    · obtain ⟨io₁, io₂, poll, read, -, -, quiet₂⟩ := read_plain quiet none
      simp only [poll, Bool.false_eq_true, if_false, read, record]
      rw [if_neg (by omega)]
      exact ih _ _ io₂ quiet₂

/-- A body is delivered as announced exactly when its length is announced, is not
    zero, and a read ends with its last byte. -/
theorem plain_body_delivered (len : Option ℕ) (io : Io) (quiet : Quiet io) (enough : ∀ n ∈ len, n ≤ io.data.length) :
    Delivered len io ↔ ∃ n ∈ len, 0 < n ∧ ReadEndsAt n io := by
  unfold Delivered http_stream_body
  rw [if_neg (by decide)]
  cases len with
  | none =>
    have closed := plainBody_closed (io.data.length + 2) 0 [] io quiet
    simp only [clenOf, announced, Option.mem_def, reduceCtorEq, false_and, exists_false, iff_false]
    rintro ⟨io', ends⟩
    rw [ends] at closed
    cases closed
  | some n =>
    simp only [clenOf, announced, Option.mem_some_iff, exists_eq_left']
    by_cases empty : n = 0
    · subst empty
      simp only [Nat.lt_irrefl, false_and, iff_false]
      rintro ⟨io', ends⟩
      rcases plainBody_empty _ quiet ends with code | got
      · exact absurd code (by decide)
      · exact got rfl
    · have loop := plainBody_length (io.data.length + 2) n [] io quiet (by omega) (by omega) (enough n rfl)
      simpa [Nat.pos_of_ne_zero empty] using loop

theorem plain_body_delivered_two :
    Delivered (some 2) ⟨lit "ab!", [2], [], false⟩ ↔ ∃ n ∈ some 2, 0 < n ∧ ReadEndsAt n ⟨lit "ab!", [2], [], false⟩ :=
  plain_body_delivered (some 2) ⟨lit "ab!", [2], [], false⟩ ⟨rfl, by simp⟩ (by decide)

/-- Two announced bytes and a third in the same read; an empty body; a body up to the close. -/
theorem plain_body_undelivered :
    ¬Delivered (some 2) ⟨lit "ab!", [], [], false⟩ ∧ ¬Delivered (some 0) ⟨[], [], [], false⟩ ∧
      ¬Delivered none ⟨lit "ab", [], [], false⟩ := by
  have long : (http_stream_body record false 2 [] ⟨lit "ab!", [], [], false⟩).2.1 = lit "ab!" := by decide
  have zero : (http_stream_body record false 0 [] ⟨[], [], [], false⟩).1 = -1 := by decide
  have close : (http_stream_body record false (-1) [] ⟨lit "ab", [], [], false⟩).1 = -1 := by decide
  refine ⟨?_, ?_, ?_⟩
  · rintro ⟨io', ends⟩
    cases long.symm.trans (congrArg (fun p => p.2.1) ends)
  · rintro ⟨io', ends⟩
    cases zero.symm.trans (congrArg Prod.fst ends)
  · rintro ⟨io', ends⟩
    cases close.symm.trans (congrArg Prod.fst ends)

end Sa.Unchunked
