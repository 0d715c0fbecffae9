import Sa.Headers
import Sa.Unchunked

/-!
# What is taken for a chunked body

`http_stream_body` takes for a size line whatever comes up to `\r\n` or up to 31
bytes, reads it with `strtol`, and skips two bytes or one after the data of a chunk
without looking at them. A stream is read properly where its pieces happen to be the
pieces of a proper body (`chunked_proper`).
-/

namespace Sa.Chunked
open Sa.CStrings Sa.Occurrences Sa.Http Sa.Framing Sa.Headers Sa.Unchunked

/-- A size line for `n`: digits, an extension or none, and `\r\n`. -/
structure SizeLine (l : Bytes) (n : ℕ) : Prop where
  parts : ∃ ds ext, l = ds ++ ext ++ [13, 10] ∧ ds ≠ [] ∧ (∀ b ∈ ds, (hexVal b).isSome) ∧ digitsOf 16 ds = n ∧
    (∀ b ∈ ext.head?, b = 59) ∧ ¬[13, 10] <:+: ext

/-- The body of a sequence of chunks ended by one of size zero, with its data. -/
inductive ChunkedBody : Bytes → Bytes → Prop
  | last {l : Bytes} : SizeLine l 0 → ChunkedBody (l ++ [13, 10]) []
  | chunk {l data body payload : Bytes} : SizeLine l data.length → data ≠ [] → ChunkedBody body payload →
      ChunkedBody (l ++ data ++ [13, 10] ++ body) (data ++ payload)

/-- A stream as the transport cuts it, without signals. -/
def streamOf (data : Bytes) (cuts : List ℕ) : Io := ⟨data, cuts, [], false⟩

/-- A result of `0` is that of a proper body, which was taken and whose data were
    delivered, and any other result is `-1`. -/
def EndsProperly (data : Bytes) (cuts : List ℕ) (clen : ℤ) : Prop :=
  let (code, delivered, io') := http_stream_body record true clen [] (streamOf data cuts)
  if code = 0 then ∃ body, data = body ++ io'.data ∧ ChunkedBody body delivered else code = -1

/-- A size line, the bytes taken for data after it, and the bytes skipped. -/
structure Piece where
  line : Bytes
  data : Bytes
  tail : Bytes

def Piece.text (p : Piece) : Bytes := p.line ++ p.data ++ p.tail

/-- A read of two bytes that may fail. -/
def skipTail (io : Io) : Bytes × Io :=
  match br_sslio_read io 2 with
  | none => ([], io)
  | some (tail, io) => (tail, io)

/-- How a stream falls into pieces, up to a size line that `strtol` reads as zero;
    `none` if it breaks off before or a size is negative. -/
def pieces : ℕ → Io → Option (List Piece × Io)
  | 0, _ => none
  | fuel + 1, io =>
    match readSizeLine 31 [] io with
    | none => none
    | some (line, io) =>
      let n := strtol16 (cstr line).val
      if n < 0 then none
      else if n = 0 then some ([⟨line, [], (skipTail io).1⟩], (skipTail io).2)
      else
        match chunkData record (io.data.length + 2) n.toNat [] io with
        | (0, data, io) =>
          match br_sslio_read io 2 with
          | none => none
          | some (tail, io) => (pieces fuel io).map fun (ps, io) => (⟨line, data, tail⟩ :: ps, io)
        | _ => none

/-- Pieces of a proper body, after the bytes `left` of a line end that was cut: every
    size line is one, and `\r\n` follows the data. Between chunks a read may cut it,
    but not at the end. -/
inductive Strict : Bytes → List Piece → Prop
  | last {left l : Bytes} : SizeLine l 0 → Strict left [⟨left ++ l, [], [13, 10]⟩]
  | chunk {left l data tail left' : Bytes} {ps : List Piece} : SizeLine l data.length → data ≠ [] →
      tail ≠ [] → tail ++ left' = [13, 10] → Strict left' ps → Strict left (⟨left ++ l, data, tail⟩ :: ps)

/-- If the stream falls into pieces, they are those of a proper body. -/
def ReadsStrictly (data : Bytes) (cuts : List ℕ) : Prop :=
  ∀ ps io', pieces (data.length + 2) (streamOf data cuts) = some (ps, io') → Strict [] ps

/-- A proper body of lines that the buffer holds and sizes within a `long`. -/
inductive FittingBody : Bytes → Prop
  | last {l : Bytes} : SizeLine l 0 → l.length ≤ 30 → FittingBody (l ++ [13, 10])
  | chunk {l data body : Bytes} : SizeLine l data.length → l.length ≤ 30 → data.length ≤ LONG_MAX → data ≠ [] →
      FittingBody body → FittingBody (l ++ data ++ [13, 10] ++ body)

/-- Without signals a look at `g_interrupt` changes nothing. -/
def Silent (io : Io) : Prop := io.sigs = [] ∧ io.g_interrupt = false

theorem poll_silent {io : Io} (silent : Silent io) : io.poll = (false, io) := by
  obtain ⟨data, cuts, sigs, g⟩ := io
  obtain ⟨rfl, rfl⟩ : sigs = [] ∧ g = false := silent
  rfl

theorem read_text {io io' : Io} {len : ℕ} {buf : Bytes} (read : br_sslio_read io len = some (buf, io')) :
    io.data = buf ++ io'.data ∧ (Silent io → Silent io') := by
  unfold br_sslio_read at read
  split_ifs at read
  cases read
  exact ⟨(List.take_append_drop _ _).symm, fun silent => silent⟩

theorem readSizeLine_text (room : ℕ) : ∀ {szline line : Bytes} {io io' : Io},
    readSizeLine room szline io = some (line, io') → szline ++ io.data = line ++ io'.data ∧ (Silent io → Silent io') := by
  induction room with
  | zero =>
    intro szline line io io' read
    cases read
    exact ⟨rfl, fun silent => silent⟩
  | succ room ih =>
    intro szline line io io' read
    rw [readSizeLine] at read
    cases one : br_sslio_read io 1 with
    | none => simp [one] at read
    | some result =>
      obtain ⟨c, io₁⟩ := result
      obtain ⟨text, kept⟩ := read_text one
      simp only [one] at read
      split_ifs at read
      · cases read
        exact ⟨by rw [text, List.append_assoc], kept⟩
      · obtain ⟨text', kept'⟩ := ih read
        exact ⟨by rw [text, ← text', List.append_assoc], fun silent => kept' (kept silent)⟩

/-- The data of a chunk: what was delivered before does not matter, the bytes taken
    are those delivered, and only a stream that breaks off fails. -/
theorem chunkData_record (fuel : ℕ) : ∀ (n : ℕ) (io : Io), Silent io → io.data.length < fuel →
    ∃ code data io', (∀ got, chunkData record fuel n got io = (code, got ++ data, io')) ∧
      io.data = data ++ io'.data ∧ Silent io' ∧
      (n ≤ io.data.length ∧ code = 0 ∧ data.length = n ∨ io.data.length < n ∧ code = -1) := by
  induction fuel with
  | zero => intro n io _ enough; omega
  | succ fuel ih =>
    intro n io silent enough
    simp only [chunkData, poll_silent silent, Bool.false_eq_true, if_false]
    by_cases done : n = 0
    · subst done
      exact ⟨0, [], io, by simp, by simp, silent, .inl ⟨by omega, rfl, rfl⟩⟩
    simp only [if_neg done]
    cases read : br_sslio_read io (min n 4096) with
    | none =>
      have closed : io.data = [] := by
        unfold br_sslio_read at read
        split_ifs at read with none
        exact none
      exact ⟨-1, [], io, by simp, by simp, silent, .inr ⟨by simp [closed]; omega, rfl⟩⟩
    | some result =>
      obtain ⟨buf, io₁⟩ := result
      obtain ⟨text, kept⟩ := read_text read
      have size := congrArg List.length text
      rw [List.length_append] at size
      have within : 0 < buf.length ∧ buf.length ≤ n := by
        unfold br_sslio_read at read
        split_ifs at read with none
        cases read
        have positive := List.length_pos_of_ne_nil none
        simp only [List.length_take, readSize]
        omega
      obtain ⟨code, data, io', loop, text', silent', outcome⟩ := ih (n - buf.length) io₁ (kept silent) (by omega)
      refine ⟨code, buf ++ data, io', fun got => ?_, by rw [text, text', List.append_assoc], silent', ?_⟩
      · simp only [record, loop, List.append_assoc]
      · rw [List.length_append]
        omega

def datas (ps : List Piece) : Bytes := ps.flatMap Piece.data

def texts (ps : List Piece) : Bytes := ps.flatMap Piece.text

theorem skipTail_text (io : Io) : io.data = (skipTail io).1 ++ (skipTail io).2.data := by
  unfold skipTail
  cases read : br_sslio_read io 2 with
  | none => simp
  | some result => exact (read_text read).1

/-- The loop succeeds on a stream that falls into pieces, with their data, and on no other. -/
theorem chunks_pieces (fuel : ℕ) : ∀ (io : Io), Silent io →
    match pieces fuel io with
    | none => ∀ got, (chunks record fuel got io).1 = -1
    | some (ps, io') => (∀ got, chunks record fuel got io = (0, got ++ datas ps, io')) ∧ io.data = texts ps ++ io'.data := by
  induction fuel with
  | zero => exact fun io _ got => rfl
  | succ fuel ih =>
    intro io silent
    simp only [pieces, chunks, poll_silent silent, Bool.false_eq_true, if_false]
    cases line : readSizeLine 31 [] io with
    | none => simp
    | some result =>
      obtain ⟨szline, io₁⟩ := result
      obtain ⟨text, kept⟩ := readSizeLine_text 31 line
      rw [List.nil_append] at text
      by_cases negative : strtol16 (cstr szline).val < 0
      · simp [negative]
      by_cases zero : strtol16 (cstr szline).val = 0
      · have tail := skipTail_text io₁
        simp only [zero, Int.lt_irrefl, if_true, if_false]
        refine ⟨fun got => ?_, ?_⟩
        · rw [show datas [⟨szline, [], (skipTail io₁).1⟩] = [] from rfl, List.append_nil]
          unfold skipTail
          cases br_sslio_read io₁ 2 <;> rfl
        · rw [text, tail]
          simp [texts, Piece.text]
      obtain ⟨code, data, io₂, loop, text', silent₂, outcome⟩ :=
        chunkData_record (io₁.data.length + 2) (strtol16 (cstr szline).val).toNat io₁ (kept silent) (by omega)
      simp only [negative, zero, if_false, loop, List.nil_append]
      rcases outcome with ⟨-, rfl, -⟩ | ⟨-, rfl⟩
      · cases trailer : br_sslio_read io₂ 2 with
        | none => simp [trailer]
        | some result =>
          obtain ⟨tail, io₃⟩ := result
          obtain ⟨text₃, kept₃⟩ := read_text trailer
          have rest := ih io₃ (kept₃ silent₂)
          cases more : pieces fuel io₃ with
          | none =>
            rw [more] at rest
            simpa [trailer, more] using fun got => rest (got ++ data)
          | some result =>
            obtain ⟨ps, io'⟩ := result
            rw [more] at rest
            simp only [trailer, more, Option.map_some]
            refine ⟨fun got => ?_, ?_⟩
            · simp [rest.1, datas]
            · rw [text, text', text₃, rest.2]
              simp [texts, Piece.text]
      · simp

/-- The strict pieces of a stream are a proper body with their data. -/
theorem strict_body {left : Bytes} {ps : List Piece} (strict : Strict left ps) :
    ∃ body, texts ps = left ++ body ∧ ChunkedBody body (datas ps) := by
  induction strict with
  | @last left l line =>
    exact ⟨l ++ [13, 10], by simp [texts, Piece.text], by simpa [datas] using ChunkedBody.last line⟩
  | @chunk left l data tail left' ps line some _ ends _ ih =>
    obtain ⟨body, text, proper⟩ := ih
    refine ⟨l ++ data ++ [13, 10] ++ body, ?_, by simpa [datas] using ChunkedBody.chunk line some proper⟩
    have rest : texts (⟨left ++ l, data, tail⟩ :: ps) = left ++ l ++ data ++ tail ++ texts ps := by
      simp [texts, Piece.text]
    rw [rest, text, ← ends]
    simp

/-- A line end stands in a size line at its end only. -/
theorem sizeLine_once {left l : Bytes} {n : ℕ} (before : Leftover left) (line : SizeLine l n) :
    [13, 10] <:+ left ++ l ∧ ∀ p q, left ++ l = p ++ 13 :: 10 :: q → q = [] := by
  obtain ⟨ds, ext, rfl, some, digits, -, -, whole⟩ := line.parts
  have free : ¬[13, 10] <:+: left ++ ds ++ ext := by
    intro stands
    refine whole (pair_after ?_ stands)
    rw [List.mem_append, not_or]
    exact ⟨by rcases before with rfl | rfl <;> decide, fun member => (hexDigit_plain (digits 13 member)).2.1 rfl⟩
  refine ⟨⟨left ++ ds ++ ext, by simp⟩, fun p q same => ?_⟩
  have split : p ++ 13 :: 10 :: q = (left ++ ds ++ ext) ++ 13 :: 10 :: [] := by
    rw [← same]
    simp
  rcases pair_cases (by decide) free split with ⟨-, last⟩ | ⟨p', -, last⟩
  · exact last
  · simp at last

/-- A size line reads as its number, up to the largest `long`. -/
theorem sizeLine_value {left l : Bytes} {n : ℕ} (before : Leftover left) (line : SizeLine l n) :
    strtol16 (cstr (left ++ l)).val = min LONG_MAX n := by
  obtain ⟨ds, ext, rfl, some, digits, value, opens, -⟩ := line.parts
  have blanks : left.all isspace := by rcases before with rfl | rfl <;> decide
  have free : ∀ b ∈ left, (b != 0) = true := by rcases before with rfl | rfl <;> simp
  have kept : (cstr (left ++ (ds ++ ext ++ [13, 10]))).val = left ++ (ds ++ (ext ++ [13, 10]).takeWhile (· != 0)) := by
    change (left ++ (ds ++ ext ++ [13, 10])).takeWhile (· != 0) = _
    rw [List.takeWhile_append_of_pos free, List.append_assoc,
      List.takeWhile_append_of_pos fun b member => by simpa using (hexDigit_plain (digits b member)).1]
  have apart : ∀ b ∈ ((ext ++ [13, 10]).takeWhile (· != 0)).head?, hexVal b = none ∧ b ≠ 120 ∧ b ≠ 88 := by
    cases ext with
    | nil => simp [hexVal]
    | cons c ext =>
      obtain rfl := opens c rfl
      simp [hexVal]
  rw [kept, strtol16_digits left blanks some digits apart, value]

/-- A read of two bytes takes `\r\n` or leaves the `\n`. -/
theorem read_crlf {io : Io} {rest : Bytes} (silent : Silent io) (data : io.data = [13, 10] ++ rest) :
    ∃ tail left io', br_sslio_read io 2 = some (tail, io') ∧ tail ≠ [] ∧ tail ++ left = [13, 10] ∧ Leftover left ∧
      io'.data = left ++ rest ∧ Silent io' := by
  have two : readSize 2 io = 1 ∨ readSize 2 io = 2 := by
    unfold readSize
    omega
  rcases two with size | size
  · exact ⟨[13], [10], { io with data := 10 :: rest, cuts := io.cuts.tail }, by simp [br_sslio_read, data, size], by simp,
      rfl, .inr rfl, rfl, silent⟩
  · exact ⟨[13, 10], [], { io with data := rest, cuts := io.cuts.tail }, by simp [br_sslio_read, data, size], by simp,
      rfl, .inl rfl, rfl, silent⟩

/-- The size line of a body that fits is taken whole and read right. -/
theorem sizeLine_taken {left l rest : Bytes} {n : ℕ} {io : Io} (silent : Silent io) (before : Leftover left)
    (line : SizeLine l n) (short : l.length ≤ 30) (data : io.data = left ++ l ++ rest) :
    ∃ io₁, readSizeLine 31 [] io = some (left ++ l, io₁) ∧ io₁.data = rest ∧ Silent io₁ := by
  obtain ⟨ends, once⟩ := sizeLine_once before line
  have some : left ++ l ≠ [] := by
    rintro none
    rw [none] at ends
    simp at ends
  have size : (left ++ l).length ≤ 31 := by
    rw [List.length_append]
    rcases before with rfl | rfl <;> simp <;> omega
  obtain ⟨cuts, read⟩ := read_until [13, 10] readSizeLine (fun _ _ _ => rfl) (left ++ l) 31 [] rest io data some size ends
    fun p q same => once p q (by simpa using same)
  exact ⟨{ io with data := rest, cuts := cuts }, read, rfl, silent⟩

/-- A body that fits falls into strict pieces, unless its last line end is cut. -/
theorem pieces_fitting {body : Bytes} (fits : FittingBody body) : ∀ (fuel : ℕ) (left rest : Bytes) (io io' : Io)
    (ps : List Piece), Silent io → Leftover left → io.data = left ++ body ++ rest → io'.data = rest →
    pieces fuel io = some (ps, io') → Strict left ps := by
  induction fits with
  | @last l line short =>
    intro fuel left rest io io' ps silent before data data' cut
    cases fuel with
    | zero => simp [pieces] at cut
    | succ fuel =>
      have text : io.data = left ++ l ++ ([13, 10] ++ rest) := by
        rw [data]
        simp
      obtain ⟨io₁, read, data₁, silent₁⟩ := sizeLine_taken silent before line short text
      obtain ⟨tail, left', io₂, trailer, -, ends, -, data₂, -⟩ := read_crlf silent₁ data₁
      have skipped : skipTail io₁ = (tail, io₂) := by simp only [skipTail, trailer]
      have value : strtol16 (cstr (left ++ l)).val = 0 := by
        rw [sizeLine_value before line]
        decide
      simp only [pieces, read, value, Int.lt_irrefl, if_false, if_true, skipped] at cut
      cases cut
      have none : left' = [] := by
        rw [data'] at data₂
        exact List.self_eq_append_left.mp data₂
      rw [none, List.append_nil] at ends
      rw [ends]
      exact .last line
  | @chunk l data body line short size some fits ih =>
    intro fuel left rest io io' ps silent before text data' cut
    cases fuel with
    | zero => simp [pieces] at cut
    | succ fuel =>
      have text : io.data = left ++ l ++ (data ++ ([13, 10] ++ (body ++ rest))) := by
        rw [text]
        simp
      obtain ⟨io₁, read, data₁, silent₁⟩ := sizeLine_taken silent before line short text
      have positive := List.length_pos_of_ne_nil some
      have value : strtol16 (cstr (left ++ l)).val = data.length := by
        rw [sizeLine_value before line, min_eq_right size]
      have more : ¬(data.length : ℤ) < 0 := by omega
      have unfinished : ¬(data.length : ℤ) = 0 := by omega
      obtain ⟨code, taken, io₂, loop, split, silent₂, outcome⟩ :=
        chunkData_record (io₁.data.length + 2) data.length io₁ silent₁ (by omega)
      have enough : data.length ≤ io₁.data.length := by
        rw [data₁]
        simp
      obtain ⟨-, rfl, count⟩ := outcome.resolve_right fun broken => by omega
      obtain ⟨rfl, data₂⟩ := List.append_inj (data₁.symm.trans split) count.symm
      obtain ⟨tail, left', io₃, trailer, tailSome, ends, before', data₃, silent₃⟩ := read_crlf silent₂ data₂.symm
      simp only [pieces, read, value, more, unfinished, if_false, Int.toNat_natCast, loop, List.nil_append, trailer] at cut
      obtain ⟨⟨ps', io₄⟩, rest', same⟩ := Option.map_eq_some_iff.mp cut
      cases same
      exact .chunk line some tailSome ends (ih fuel left' rest io₃ _ ps' silent₃ before' (by rw [data₃]; simp) data' rest')

/-- A stream whose pieces are strict is read properly. One that is read properly has
    strict pieces, if no proper body that it begins with has a line longer than the
    buffer or a size that is no `long`. -/
theorem chunked_proper (data : Bytes) (cuts : List ℕ) (clen : ℤ) :
    (ReadsStrictly data cuts → EndsProperly data cuts clen) ∧
      ((∀ body payload, body <+: data → ChunkedBody body payload → FittingBody body) →
        EndsProperly data cuts clen → ReadsStrictly data cuts) := by
  have loop := chunks_pieces (data.length + 2) (streamOf data cuts) ⟨rfl, rfl⟩
  have body : http_stream_body record true clen [] (streamOf data cuts) =
    chunks record (data.length + 2) [] (streamOf data cuts) := rfl
  unfold EndsProperly ReadsStrictly
  rw [body]
  cases cut : pieces (data.length + 2) (streamOf data cuts) with
  | none =>
    rw [cut] at loop
    have failed := loop []
    cases ended : chunks record (data.length + 2) [] (streamOf data cuts) with | mk code result =>
    rw [ended] at failed
    simp only at failed
    subst failed
    exact ⟨fun _ => rfl, fun _ _ ps io' found => by cases found⟩
  | some result =>
    obtain ⟨ps, io'⟩ := result
    rw [cut] at loop
    obtain ⟨taken, text⟩ := loop
    have delivered := taken []
    rw [List.nil_append] at delivered
    simp only [delivered, if_true]
    constructor
    · intro strict
      obtain ⟨body, same, proper⟩ := strict_body (strict ps io' rfl)
      exact ⟨body, by rw [← List.nil_append body, ← same]; exact text, proper⟩
    · rintro fit ⟨body, same, proper⟩ ps' io'' found
      cases found
      exact pieces_fitting (fit body _ ⟨io'.data, same.symm⟩ proper) _ [] _ _ _ _ ⟨rfl, rfl⟩ (.inl rfl) same rfl cut

theorem sizeLine_head {l : Bytes} {n : ℕ} (line : SizeLine l n) : ∃ d t, l = d :: t ∧ (hexVal d).isSome ∧ 3 ≤ l.length := by
  obtain ⟨ds, ext, rfl, some, digits, -⟩ := line.parts
  obtain ⟨d, ds, rfl⟩ := List.exists_cons_of_ne_nil some
  exact ⟨d, ds ++ ext ++ [13, 10], by simp, digits d (by simp), by simp; omega⟩

/-- A proper body begins with a digit and has five bytes at least. -/
theorem chunkedBody_head {body payload : Bytes} (proper : ChunkedBody body payload) :
    ∃ d t, body = d :: t ∧ (hexVal d).isSome ∧ 5 ≤ body.length := by
  cases proper with
  | last line =>
    obtain ⟨d, t, rfl, digit, size⟩ := sizeLine_head line
    exact ⟨d, t ++ [13, 10], rfl, digit, by rw [List.length_append]; simpa using size⟩
  | chunk line some proper =>
    obtain ⟨d, t, rfl, digit, size⟩ := sizeLine_head line
    exact ⟨d, _, by simp only [List.cons_append]; rfl, digit, by simp only [List.length_append, List.length_cons] at *; omega⟩

/-- A line that is no size ends a reply as if it were complete, and so does a last
    chunk without its line end. -/
theorem chunked_improper : ¬EndsProperly (lit "oops\r\nmore") [] (-1) ∧ ¬EndsProperly (lit "0\r\n") [] (-1) := by
  constructor
  · intro ends
    have taken : http_stream_body record true (-1) [] (streamOf (lit "oops\r\nmore") []) =
        (0, [], streamOf (lit "re") []) := by
      decide +kernel
    simp only [EndsProperly, taken, if_true] at ends
    obtain ⟨body, same, proper⟩ := ends
    obtain ⟨d, t, rfl, digit, -⟩ := chunkedBody_head proper
    obtain rfl : 111 = d := (List.cons.inj same).1
    exact absurd digit (by decide)
  · intro ends
    have taken : http_stream_body record true (-1) [] (streamOf (lit "0\r\n") []) = (0, [], streamOf [] []) := by
      decide +kernel
    simp only [EndsProperly, taken, if_true] at ends
    obtain ⟨body, same, proper⟩ := ends
    obtain ⟨d, t, -, -, size⟩ := chunkedBody_head proper
    have length := congrArg List.length same
    simp only [List.length_append, lit, streamOf] at length
    simp at length
    omega

end Sa.Chunked
