import Sa.Clearing
import Sa.Framing
import Sa.Turns

/-!
# Replies that are errors

What `do_turn` makes of a reply whose status is not 200: it goes by the first
bytes that follow the headers, whatever the status is, and takes them as they
come. So every such status can clear tool results (`only_overflow_clears`), and an
error that comes in chunks is not recognized (`error_framing`).
-/

namespace Sa.ErrorReplies
open Sa.CStrings Sa.Tinyjson Sa.JsonGrammar Sa.Parser Sa.Stream Sa.Http Sa.Framing Sa.Session Sa.Chat Sa.SessionFile
open Sa.Clearing Sa.Turns

theorem take_pieces (k room : ℕ) (l : Bytes) :
    (l.take k).take room ++ (l.drop k).take (room - ((l.take k).take room).length) = l.take room := by
  conv_rhs => rw [← List.take_append_drop k l, List.take_append]
  congr 2
  simp only [List.length_take]
  omega

theorem errorHead_eq (fuel : ℕ) : ∀ (room : ℕ) (io : Io), io.data.length < fuel →
    (errorHead fuel room io).1 = io.data.take room := by
  induction fuel with
  | zero => intro room io enough; omega
  | succ fuel ih =>
    intro room io enough
    rw [errorHead]
    by_cases full : room = 0
    · rw [if_pos full, full, List.take_zero]
    rw [if_neg full]
    by_cases ended : io.data = []
    · simp [br_sslio_read, ended]
    have some : 0 < io.data.length := List.length_pos_of_ne_nil ended
    have positive : 0 < readSize 512 io := by
      unfold readSize
      omega
    have rest := ih (room - ((io.data.take (readSize 512 io)).take room).length)
      { io with data := io.data.drop (readSize 512 io), cuts := io.cuts.tail } (by simp only [List.length_drop]; omega)
    simp only [br_sslio_read, if_neg ended, rest]
    exact take_pieces _ _ _

/-- Reading the head leaves the signals as they are. -/
theorem errorHead_poll (fuel : ℕ) : ∀ (room : ℕ) (io : Io), (errorHead fuel room io).2.poll.1 = io.poll.1 := by
  induction fuel with
  | zero => exact fun _ _ => rfl
  | succ fuel ih =>
    intro room io
    rw [errorHead]
    by_cases full : room = 0
    · rw [if_pos full]
    rw [if_neg full]
    by_cases ended : io.data = []
    · simp [br_sslio_read, ended]
    simp only [br_sslio_read, if_neg ended, ih]
    rfl

/-- The reply's headers are read; `io` is what follows them. -/
structure Replied (ex : Exchange) (status : ℤ) (chunked : Bool) (clen : ℤ) (io : Io) : Prop where
  sent : ex.sent = true
  headers : http_read_headers ex.reply 8192 = some ((status, chunked, clen), io)

theorem do_turn_error {ex : Exchange} {status clen : ℤ} {chunked : Bool} {io : Io} (replied : Replied ex status chunked clen io)
    (error : status ≠ 200) (st : stream_state_t) :
    (do_turn ex st).1 = if io.poll.1 then -2 else if status = 0 then -1
      else if contextError (io.data.take (RAW_HEAD - 1)) then -3 else -1 := by
  have head := errorHead_eq (io.data.length + 1) (RAW_HEAD - 1) io (by omega)
  have poll := errorHead_poll (io.data.length + 1) (RAW_HEAD - 1) io
  revert head poll
  unfold do_turn http_post_sse
  simp only [if_pos replied.sent, replied.headers, if_pos error]
  obtain ⟨err_head, io'⟩ := errorHead (io.data.length + 1) (RAW_HEAD - 1) io
  rintro rfl poll
  simp only at poll ⊢
  rw [← poll]
  obtain ⟨interrupt, io''⟩ := io'.poll
  by_cases signal : interrupt = true
  · simp only [if_pos signal]
  · by_cases zero : status = 0
    · simp [signal, zero]
    · simp [signal, zero]

theorem do_turn_overflow {ex : Exchange} {st : stream_state_t} (code : (do_turn ex st).1 = -3) :
    (http_post_sse ex st).status ≠ 200 ∧ ¬((http_post_sse ex st).code < 0 ∧ (http_post_sse ex st).status = 0) := by
  unfold do_turn at code
  simp only [apply_ite Prod.fst] at code
  refine ⟨fun success => ?_, fun unreached => ?_⟩
  · simp only [success, ne_eq, not_true_eq_false, if_false] at code
    split_ifs at code <;> omega
  · simp only [if_pos unreached] at code
    split_ifs at code <;> omega

/-- A turn that is told of a long context has a reply whose first bytes say so, and no
    signal arrives while they are read. -/
theorem overflow_replied {ex : Exchange} {st : stream_state_t} (code : (do_turn ex st).1 = -3) :
    ∃ status chunked clen io, Replied ex status chunked clen io ∧ status ≠ 200 ∧ status ≠ 0 ∧ io.poll.1 = false ∧
      contextError (io.data.take (RAW_HEAD - 1)) = true := by
  obtain ⟨error, reached⟩ := do_turn_overflow code
  unfold http_post_sse at error reached
  by_cases sent : ex.sent = true
  swap
  · simp [sent] at reached
  cases headers : http_read_headers ex.reply 8192 with
  | none => simp [sent, headers] at reached
  | some read =>
    obtain ⟨⟨status, chunked, clen⟩, io⟩ := read
    have replied : Replied ex status chunked clen io := ⟨sent, headers⟩
    have other : status ≠ 200 := by
      rintro rfl
      simp [sent, headers] at error
    rw [do_turn_error replied other] at code
    refine ⟨status, chunked, clen, io, replied, other, ?_, ?_, ?_⟩
    · rintro rfl
      split_ifs at code <;> omega
    · by_contra signal
      rw [if_pos (by simpa using signal)] at code
      omega
    · by_contra plain
      rw [if_neg plain] at code
      split_ifs at code <;> omega

/-- The server rejects the request with a status 400 whose `error.message` contains
    `context`, `token` or `length`. -/
def Overflow (ex : Exchange) : Prop :=
  ∃ chunked clen io, Replied ex 400 chunked clen io ∧ contextError (io.data.take (RAW_HEAD - 1)) = true

/-- It rejects the request with another status. -/
def Rejected (ex : Exchange) : Prop :=
  ∃ status chunked clen io, Replied ex status chunked clen io ∧ status ≠ 200 ∧ status ≠ 400

/-- The messages and the lines of the file stay, and others may be added. -/
def Adds (messages : List cJSON) (after : List cJSON × List FileOp) : Prop :=
  messages <+: after.1 ∧ ∀ op ∈ after.2, ∃ msg, op = .append msg

/-- Of the replies that the iterations of a turn may get, only those about a long context
    are taken for such, a turn without any other than rejections leaves everything as it
    was, and without a reply about a long context nothing is replaced: neither by an
    iteration, nor by the whole turn. -/
structure OnlyOverflowClears (world : ℕ → Iteration) : Prop where
  codes : ∀ i st, (do_turn (world i).exchange st).1 = -3 → Overflow (world i).exchange
  rejected : (∀ i, Rejected (world i).exchange) → ∀ messages, (chat_turn world messages).2 = (messages, [])
  iterations : ∀ i messages, Overflow (world i).exchange ∨ Adds messages (iteration (world i) messages).2
  turn : ∀ messages, (∃ i < MAX_TOOL_ITER, Overflow (world i).exchange) ∨ Adds messages (chat_turn world messages).2

/-- A status other than 400, and 200, with a message about a long context; no signal arrives
    while it is read. -/
def Misread (ex : Exchange) : Prop :=
  ∃ status chunked clen io, Replied ex status chunked clen io ∧ status ≠ 200 ∧ status ≠ 400 ∧ status ≠ 0 ∧
    io.poll.1 = false ∧ contextError (io.data.take (RAW_HEAD - 1)) = true

theorem Replied.unique {ex : Exchange} {status status' clen clen' : ℤ} {chunked chunked' : Bool} {io io' : Io}
    (replied : Replied ex status chunked clen io) (replied' : Replied ex status' chunked' clen' io') :
    status = status' ∧ io = io' := by
  have same := replied.headers.symm.trans replied'.headers
  simp only [Option.some.injEq, Prod.mk.injEq] at same
  exact ⟨same.1.1, same.2⟩

theorem misread_code {ex : Exchange} (misread : Misread ex) (st : stream_state_t) : (do_turn ex st).1 = -3 := by
  obtain ⟨status, chunked, clen, io, replied, error, -, zero, signal, overflow⟩ := misread
  rw [do_turn_error replied error, if_neg (by simp [signal]), if_neg zero, if_pos overflow]

theorem overflow_of_code {ex : Exchange} (plain : ¬Misread ex) {st : stream_state_t} (code : (do_turn ex st).1 = -3) : Overflow ex := by
  obtain ⟨status, chunked, clen, io, replied, error, zero, signal, overflow⟩ := overflow_replied code
  by_cases bad : status = 400
  · exact ⟨chunked, clen, io, bad ▸ replied, overflow⟩
  · exact absurd ⟨status, chunked, clen, io, replied, error, bad, zero, signal, overflow⟩ plain

theorem adds_append (opens : Bool) (messages : List cJSON) (msg : cJSON) :
    Adds messages (messages ++ [msg], session_append opens msg) := by
  refine ⟨List.prefix_append _ _, fun op member => ?_⟩
  unfold session_append at member
  split_ifs at member
  · exact ⟨msg, List.mem_singleton.mp member⟩
  · cases member

theorem Adds.trans {messages messages' messages'' : List cJSON} {ops ops' : List FileOp} (first : Adds messages (messages', ops))
    (second : Adds messages' (messages'', ops')) : Adds messages (messages'', ops ++ ops') :=
  ⟨first.1.trans second.1, fun op member => (List.mem_append.mp member).elim (first.2 op) (second.2 op)⟩

/-- Whatever else happens in an iteration, messages are added at most. -/
theorem iteration_adds {it : Iteration} (other : (do_turn it.exchange initial).1 ≠ -3) (messages : List cJSON) :
    Adds messages (iteration it messages).2 := by
  have kept : Adds messages (messages, []) := ⟨List.prefix_rfl, fun op member => by cases member⟩
  unfold iteration
  by_cases interrupt : it.interrupt = true
  · rw [if_pos interrupt]
    exact kept
  rw [if_neg interrupt]
  revert other
  obtain ⟨r, st, io⟩ := do_turn it.exchange initial
  intro other
  simp only at other ⊢
  rw [if_neg other]
  by_cases interrupted : r = -2
  · rw [if_pos interrupted]
    exact kept
  rw [if_neg interrupted]
  by_cases failed : r < 0
  · rw [if_pos failed]
    exact kept
  rw [if_neg failed]
  cases blocks_to_content st with
  | none => exact kept
  | some content =>
    simp only
    have assist := adds_append it.opensAssist messages (assistantMsg content)
    split_ifs
    · exact assist.trans (adds_append it.opensResults _ (resultsMsg (toolResults it.tools st)))
    · exact assist

theorem chatLoop_adds (fuel : ℕ) : ∀ (world : ℕ → Iteration) (messages : List cJSON),
    (∀ i < fuel, (do_turn (world i).exchange initial).1 ≠ -3) → Adds messages (chatLoop fuel world messages).2 := by
  induction fuel with
  | zero => exact fun _ _ _ => ⟨List.prefix_rfl, fun op member => by cases member⟩
  | succ fuel ih =>
    intro world messages others
    have first := iteration_adds (others 0 (Nat.zero_lt_succ fuel)) messages
    rw [chatLoop]
    revert first
    obtain ⟨next, messages', ops⟩ := iteration (world 0) messages
    intro first
    cases next with
    | some code => exact first
    | none => exact first.trans (ih _ messages' fun i inside => others (i + 1) (Nat.succ_lt_succ inside))

/-- A rejection ends the turn, unless it is taken for one of the request's length. -/
theorem rejected_iteration {it : Iteration} (rejected : Rejected it.exchange) (other : (do_turn it.exchange initial).1 ≠ -3)
    (messages : List cJSON) : ∃ code, iteration it messages = (some code, messages, []) := by
  obtain ⟨status, chunked, clen, io, replied, error, -⟩ := rejected
  have turn := do_turn_error replied error initial
  unfold iteration
  by_cases interrupt : it.interrupt = true
  · exact ⟨130, by rw [if_pos interrupt]⟩
  rw [if_neg interrupt]
  revert other turn
  obtain ⟨r, st, io'⟩ := do_turn it.exchange initial
  intro other turn
  simp only at other turn ⊢
  rw [if_neg other]
  by_cases interrupted : r = -2
  · exact ⟨130, by rw [if_pos interrupted]⟩
  have failed : r < 0 := by
    rw [turn] at interrupted ⊢
    split_ifs <;> simp
  exact ⟨1, by rw [if_neg interrupted, if_pos failed]⟩

/-- Whatever the replies of a turn are, only those about a long context clear tool results
    just when none of another status has a message like theirs. -/
theorem only_overflow_clears (world : ℕ → Iteration) : OnlyOverflowClears world ↔ ∀ i, ¬Misread (world i).exchange := by
  constructor
  · intro only i misread
    obtain ⟨chunked, clen, io, overflow, -⟩ := only.codes i initial (misread_code misread initial)
    obtain ⟨status, chunked', clen', io', replied, -, bad, -⟩ := misread
    exact bad (replied.unique overflow).1
  · intro plain
    have codes : ∀ i st, (do_turn (world i).exchange st).1 = -3 → Overflow (world i).exchange :=
      fun i st code => overflow_of_code (plain i) code
    refine ⟨codes, fun rejected messages => ?_, fun i messages => ?_, fun messages => ?_⟩
    · have other : (do_turn (world 0).exchange initial).1 ≠ -3 := by
        intro code
        obtain ⟨chunked, clen, io, overflow, -⟩ := codes 0 initial code
        obtain ⟨status, chunked', clen', io', replied, -, bad⟩ := rejected 0
        exact bad (replied.unique overflow).1
      obtain ⟨code, stops⟩ := rejected_iteration (rejected 0) other messages
      rw [chat_turn, chatLoop, stops]
    · by_cases code : (do_turn (world i).exchange initial).1 = -3
      · exact .inl (codes i initial code)
      · exact .inr (iteration_adds code messages)
    · by_cases some : ∃ i < MAX_TOOL_ITER, (do_turn (world i).exchange initial).1 = -3
      · obtain ⟨i, inside, code⟩ := some
        exact .inl ⟨i, inside, codes i initial code⟩
      · simp only [not_exists, not_and] at some
        exact .inr (chatLoop_adds MAX_TOOL_ITER world messages some)

/-- A rate limit that counts tokens. -/
def limited : Bytes :=
  lit "HTTP/1.1 429 x\r\n\r\n" ++ lit "\x7b\"error\":\x7b\"message\":\"tokens per minute\"\x7d\x7d"

/-- The result in the first message is cleared. -/
theorem rate_limit_clears : ¬∀ world : ℕ → Iteration, OnlyOverflowClears world := by
  intro only
  have limit : Rejected (answered limited).exchange :=
    ⟨429, false, -1, ⟨lit "\x7b\"error\":\x7b\"message\":\"tokens per minute\"\x7d\x7d", [], [], false⟩,
      ⟨rfl, by decide +kernel⟩, by decide, by decide⟩
  have same := (only fun _ => answered limited).rejected fun _ => limit
  have rewritten : (chat_turn (fun _ => answered limited)
      (resultsMsg [toolResult echo { emptyBlock with type := cs "tool_use" }] :: List.replicate 10 .null)).2.2.isEmpty = false := by
    decide +kernel
  rw [same] at rewritten
  cases rewritten

/-- A body of an error, in chunks or whole. -/
def Sends (ex : Exchange) (status : ℤ) (chunked : Bool) (body : Bytes) : Prop :=
  ∃ clen io, Replied ex status chunked clen io ∧ Quiet io ∧
    if chunked then ∃ cs : List Bytes, cs.flatten = body ∧ (∀ c ∈ cs, c ≠ []) ∧ io.data = framed cs
    else clen = body.length ∧ io.data = body

theorem framed_head (cs : List Bytes) : ∃ b s, framed cs = b :: s ∧ (hexVal b).isSome := by
  have starts : ∃ n s, framed cs = hexText n ++ s := by
    cases cs with
    | nil => exact ⟨0, _, framed_nil⟩
    | cons c cs => exact ⟨c.length, _, framed_cons c cs⟩
  obtain ⟨n, s, text⟩ := starts
  obtain ⟨b, t, head⟩ := List.exists_cons_of_ne_nil (hexText_ne_nil n)
  exact ⟨b, t ++ s, by rw [text, head]; rfl, hexText_digits n b (by simp [head])⟩

private theorem hex_visible : ∀ b : UInt8, (hexVal b).isSome → isWs b = false ∧ b ≠ 123 := by decide +kernel

/-- A size line is not read as an object. -/
theorem contextError_framed (cs : List Bytes) (n : ℕ) : contextError ((framed cs).take (n + 1)) = false := by
  obtain ⟨b, s, text, digit⟩ := framed_head cs
  obtain ⟨visible, other⟩ := hex_visible b digit
  rw [text, List.take_succ_cons]
  unfold contextError
  cases read : cJSON_Parse (b :: s.take n) with
  | none => rfl
  | some v =>
    have line : readLine (b :: s.take n) = some v := by rw [readLine, if_neg (by simp), read]
    have plain := readLine_brace visible other line
    cases v with
    | object members => exact absurd rfl (plain members)
    | _ => rfl

theorem poll_of_quiet {io : Io} (quiet : Quiet io) : io.poll.1 = false := by
  obtain ⟨io', poll, -⟩ := poll_quiet quiet
  rw [poll]

theorem sends_code {ex : Exchange} {status : ℤ} {chunked : Bool} {body : Bytes} (sends : Sends ex status chunked body)
    (error : status ≠ 200) (short : body.length < RAW_HEAD) (st : stream_state_t) :
    (do_turn ex st).1 = if status ≠ 0 ∧ chunked = false ∧ contextError body = true then -3 else -1 := by
  obtain ⟨clen, io, replied, quiet, wire⟩ := sends
  rw [do_turn_error replied error, if_neg (by simp [poll_of_quiet quiet])]
  by_cases zero : status = 0
  · rw [if_pos zero, if_neg fun all => all.1 zero]
  rw [if_neg zero]
  cases chunked with
  | true =>
    obtain ⟨cs, -, -, data⟩ := wire
    have unseen : contextError ((framed cs).take (RAW_HEAD - 1)) = false := contextError_framed cs 4094
    rw [data, unseen, if_neg (by decide), if_neg fun all => absurd all.2.1 (by decide)]
  | false =>
    obtain ⟨-, data⟩ := wire
    rw [data, List.take_of_length_le (by omega)]
    by_cases overflow : contextError body = true
    · rw [if_pos overflow, if_pos ⟨zero, rfl, overflow⟩]
    · rw [if_neg overflow, if_neg fun all => overflow all.2.2]

/-- Two ways of sending an error that fits give the same code when both or neither
    are in chunks, or when the error is none of the request's length; one that is
    comes to be seen only when it is sent whole. -/
theorem error_framing (body : Bytes) (short : body.length < RAW_HEAD) (status : ℤ) (error : status ≠ 200) :
    (∀ ex ex' chunked chunked' st, Sends ex status chunked body → Sends ex' status chunked' body →
      ((do_turn ex st).1 = (do_turn ex' st).1 ↔ chunked = chunked' ∨ status = 0 ∨ contextError body = false)) ∧
    (∀ ex chunked st, Sends ex status chunked body → status = 400 → contextError body = true →
      ((do_turn ex st).1 = -3 ↔ chunked = false)) := by
  constructor
  · intro ex ex' chunked chunked' st sends sends'
    rw [sends_code sends error short, sends_code sends' error short]
    by_cases zero : status = 0
    · simp [zero]
    cases overflow : contextError body with
    | false => simp
    | true => cases chunked <;> cases chunked' <;> simp [zero]
  · intro ex chunked st sends bad overflow
    rw [sends_code sends error short, bad, overflow]
    cases chunked <;> simp

/-! The same error in one chunk and whole. -/

def tooLong : Bytes := lit "\x7b\"error\":\x7b\"message\":\"context\"\x7d\x7d"
def inChunks : Exchange := replyOf (lit "HTTP/1.1 400 x\r\nTransfer-Encoding: chunked\r\n\r\n" ++ framed [tooLong])
def whole : Exchange := replyOf (lit "HTTP/1.1 400 x\r\nContent-Length: 31\r\n\r\n" ++ tooLong)

theorem inChunks_sends : Sends inChunks 400 true tooLong :=
  ⟨-1, ⟨framed [tooLong], [], [], false⟩, ⟨rfl, by decide +kernel⟩, ⟨rfl, by simp⟩, [tooLong], rfl, by decide, rfl⟩

theorem whole_sends : Sends whole 400 false tooLong :=
  ⟨31, ⟨tooLong, [], [], false⟩, ⟨rfl, by decide +kernel⟩, ⟨rfl, by simp⟩, rfl, rfl⟩

theorem error_framing_context :
    ((do_turn inChunks initial).1 = (do_turn whole initial).1 ↔ true = false ∨ (400 : ℤ) = 0 ∨ contextError tooLong = false) ∧
      ((do_turn whole initial).1 = -3 ↔ false = false) := by
  obtain ⟨same, code⟩ := error_framing tooLong (by decide) 400 (by decide)
  exact ⟨same inChunks whole true false initial inChunks_sends whole_sends,
    code whole false initial whole_sends rfl (by decide +kernel)⟩

theorem error_framing_seen :
    ¬∀ (body : Bytes) (status : ℤ) (ex ex' : Exchange) (chunked chunked' : Bool), 0 ∉ body → body.length < RAW_HEAD →
      status ≠ 200 → Sends ex status chunked body → Sends ex' status chunked' body →
      (do_turn ex initial).1 = (do_turn ex' initial).1 := by
  intro same
  have codes := same tooLong 400 inChunks whole true false (by decide) (by decide) (by decide) inChunks_sends whole_sends
  have differ : (do_turn inChunks initial).1 ≠ (do_turn whole initial).1 := by decide +kernel
  exact differ codes

end Sa.ErrorReplies
