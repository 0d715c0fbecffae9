import Sa.Turns

/-!
# Replies that are cut off

`http_post_sse` reports a body that breaks off, but `do_turn` goes by the status
and takes what arrived for the whole reply (`cut_off_taken`). The bounds on the
loops of `Sa.Http` are never met (`chunks_fuel`, `plainBody_fuel`), so a `-1` from
them is the source's.
-/

namespace Sa.CutOff
open Sa.CStrings Sa.Tinyjson Sa.Stream Sa.Http Sa.Session Sa.Chat Sa.Messages Sa.Turns

section
variable {σ : Type} {cb : σ → Bytes → Io → Option σ × Io}

theorem read_shrinks {io io' : Io} {len : ℕ} {buf : Bytes} (read : br_sslio_read io len = some (buf, io')) :
    io'.data.length < io.data.length := by
  unfold br_sslio_read at read
  split_ifs at read with none
  cases read
  have size : 0 < io.data.length := List.length_pos_of_ne_nil none
  have positive : 0 < readSize len io := by
    unfold readSize
    omega
  simp only [List.length_drop]
  omega

theorem readSizeLine_shrinks {room : ℕ} {szline line : Bytes} {io io' : Io}
    (read : readSizeLine (room + 1) szline io = some (line, io')) : io'.data.length < io.data.length := by
  induction room generalizing szline io with
  | zero =>
    rw [readSizeLine] at read
    cases one : br_sslio_read io 1 with
    | none => simp [one] at read
    | some result =>
      obtain ⟨c, io₁⟩ := result
      simp only [one, readSizeLine] at read
      split_ifs at read <;> cases read <;> exact read_shrinks one
  | succ room ih =>
    rw [readSizeLine] at read
    cases one : br_sslio_read io 1 with
    | none => simp [one] at read
    | some result =>
      obtain ⟨c, io₁⟩ := result
      simp only [one] at read
      split_ifs at read
      · cases read
        exact read_shrinks one
      · exact (ih read).trans (read_shrinks one)

theorem poll_data {io io' : Io} {interrupt : Bool} (poll : io.poll = (interrupt, io')) : io'.data = io.data := by
  cases poll
  rfl

variable (reads : ∀ u buf io, (cb u buf io).2.data = io.data)
include reads

theorem callback_data {u : σ} {buf : Bytes} {io io' : Io} {taken : Option σ} (call : cb u buf io = (taken, io')) :
    io'.data = io.data := by
  have same := reads u buf io
  rwa [call] at same

theorem chunkData_fuel (fuel k : ℕ) : ∀ (n : ℕ) (u : σ) (io : Io), io.data.length < fuel →
    chunkData cb (fuel + k) n u io = chunkData cb fuel n u io := by
  induction fuel with
  | zero => intro n u io enough; omega
  | succ fuel ih =>
    intro n u io enough
    rw [Nat.add_right_comm, chunkData, chunkData]
    cases poll : io.poll with | mk interrupt io₀ =>
    cases read : br_sslio_read io₀ (min n 4096) with
    | none => simp only [read]
    | some result =>
      obtain ⟨buf, io₁⟩ := result
      cases call : cb u buf io₁ with | mk taken io₂ =>
      have shrinks := read_shrinks read
      rw [poll_data poll, ← callback_data reads call] at shrinks
      cases taken with
      | none => simp only [read, call]
      | some u => simp only [read, call, ih (n - buf.length) u io₂ (by omega)]

theorem chunkData_data (fuel : ℕ) : ∀ (n : ℕ) (u : σ) (io : Io),
    (chunkData cb fuel n u io).2.2.data.length ≤ io.data.length := by
  induction fuel with
  | zero => exact fun _ _ _ => Nat.le_refl _
  | succ fuel ih =>
    intro n u io
    rw [chunkData]
    cases poll : io.poll with | mk interrupt io₀ =>
    have same := poll_data poll
    by_cases done : n = 0
    · rw [if_pos done]
    rw [if_neg done]
    cases interrupt with
    | true => simp [same]
    | false =>
      cases read : br_sslio_read io₀ (min n 4096) with
      | none => simp [read, same]
      | some result =>
        obtain ⟨buf, io₁⟩ := result
        cases call : cb u buf io₁ with | mk taken io₂ =>
        have shrinks := read_shrinks read
        rw [same, ← callback_data reads call] at shrinks
        cases taken with
        | none =>
          simp only [Bool.false_eq_true, if_false, read, call]
          omega
        | some u =>
          have rest := ih (n - buf.length) u io₂
          simp only [Bool.false_eq_true, if_false, read, call]
          omega

/-- More passes over the chunks change nothing. -/
theorem chunks_fuel (fuel k : ℕ) : ∀ (u : σ) (io : Io), io.data.length < fuel →
    chunks cb (fuel + k) u io = chunks cb fuel u io := by
  induction fuel with
  | zero => intro u io enough; omega
  | succ fuel ih =>
    intro u io enough
    rw [Nat.add_right_comm, chunks, chunks]
    cases poll : io.poll with | mk interrupt io₀ =>
    cases line : readSizeLine 31 [] io₀ with
    | none => simp only [line]
    | some result =>
      obtain ⟨szline, io₁⟩ := result
      have shrinks := readSizeLine_shrinks line
      have least := chunkData_data reads (io₁.data.length + 2) (strtol16 (cstr szline).val).toNat u io₁
      cases loop : chunkData cb (io₁.data.length + 2) (strtol16 (cstr szline).val).toNat u io₁ with | mk code result =>
      obtain ⟨u, io₂⟩ := result
      rw [loop] at least
      simp only at least
      rw [poll_data poll] at shrinks
      simp only [line, loop]
      by_cases whole : code = 0
      · subst whole
        cases trailer : br_sslio_read io₂ 2 with
        | none => simp only [trailer]
        | some result =>
          obtain ⟨tr, io₃⟩ := result
          have last := read_shrinks trailer
          simp only [trailer, ih u io₃ (by omega)]
      · simp

/-- More passes over a body that is not chunked change nothing. -/
theorem plainBody_fuel (fuel k : ℕ) : ∀ (clen got : ℤ) (u : σ) (io : Io), io.data.length < fuel →
    plainBody cb (fuel + k) clen got u io = plainBody cb fuel clen got u io := by
  induction fuel with
  | zero => intro clen got u io enough; omega
  | succ fuel ih =>
    intro clen got u io enough
    rw [Nat.add_right_comm, plainBody, plainBody]
    cases poll : io.poll with | mk interrupt io₀ =>
    cases read : br_sslio_read io₀ 4096 with
    | none => simp only [read]
    | some result =>
      obtain ⟨buf, io₁⟩ := result
      cases call : cb u buf io₁ with | mk taken io₂ =>
      have shrinks := read_shrinks read
      rw [poll_data poll, ← callback_data reads call] at shrinks
      cases taken with
      | none => simp only [read, call]
      | some u => simp only [read, call, ih clen (got + buf.length) u io₂ (by omega)]

end

theorem onChunkOrInterrupt_data (st : stream_state_t) (buf : Bytes) (io : Io) :
    (onChunkOrInterrupt st buf io).2.data = io.data := by
  unfold onChunkOrInterrupt
  cases poll : io.poll with | mk interrupt io' =>
  cases interrupt with
  | true => simpa using poll_data poll
  | false => simpa using poll_data poll

/-- With any more passes the body is read the same way. -/
theorem http_stream_body_fuel (chunked : Bool) (clen : ℤ) (st : stream_state_t) (io : Io) (k : ℕ) :
    http_stream_body onChunkOrInterrupt chunked clen st io =
      if chunked then chunks onChunkOrInterrupt (io.data.length + 2 + k) st io
      else plainBody onChunkOrInterrupt (io.data.length + 2 + k) clen 0 st io := by
  unfold http_stream_body
  rw [chunks_fuel onChunkOrInterrupt_data _ k st io (by omega), plainBody_fuel onChunkOrInterrupt_data _ k clen 0 st io (by omega)]

/-- A reply with status 200 whose body breaks off, without a signal. `st` is what
    arrived of it. -/
structure Breaks (ex : Exchange) (st : stream_state_t) : Prop where
  sent : ex.sent = true
  broken : ∃ chunked clen io io', http_read_headers ex.reply 8192 = some ((200, chunked, clen), io) ∧
    http_stream_body onChunkOrInterrupt chunked clen initial io = (-1, st, io') ∧ io'.poll.1 = false

theorem post_breaks {ex : Exchange} {st : stream_state_t} (breaks : Breaks ex st) :
    ∃ io, http_post_sse ex initial = ⟨-1, 200, st, [], io⟩ ∧ io.poll.1 = false := by
  obtain ⟨sent, chunked, clen, io, io', headers, body, quiet⟩ := breaks
  refine ⟨io', ?_, quiet⟩
  simp [http_post_sse, sent, headers, body]

theorem do_turn_breaks {ex : Exchange} {st : stream_state_t} (breaks : Breaks ex st) :
    ∃ io, do_turn ex initial = (0, st, io) := by
  obtain ⟨io, post, quiet⟩ := post_breaks breaks
  exact ⟨io.poll.2, by simp [do_turn, post, quiet]⟩

/-- What a turn does to the file begins with what its first iteration does. -/
theorem chat_turn_ops (world : ℕ → Iteration) (messages : List cJSON) :
    ∃ more, (chat_turn world messages).2.2 = (iteration (world 0) messages).2.2 ++ more := by
  unfold chat_turn
  rw [chatLoop]
  obtain ⟨next, messages', ops⟩ := iteration (world 0) messages
  cases next with
  | some code => exact ⟨[], by simp⟩
  | none => exact ⟨_, rfl⟩

theorem iteration_breaks {it : Iteration} {st : stream_state_t} (breaks : Breaks it.exchange st)
    (going : it.interrupt = false) {items : List cJSON} (content : contentItems st.active = some items)
    (messages : List cJSON) : ∃ rest more,
      (iteration it messages).2.1 = messages ++ assistantMsg (.array items) :: rest ∧
        (iteration it messages).2.2 = session_append it.opensAssist (assistantMsg (.array items)) ++ more := by
  obtain ⟨io, turn⟩ := do_turn_breaks breaks
  rw [iteration, if_neg (by simp [going]), turn]
  simp only [blocks_to_content, content, Option.map_some]
  by_cases tools : st.active.any isToolUse = true
  · exact ⟨[resultsMsg (toolResults it.tools st)], session_append it.opensResults (resultsMsg (toolResults it.tools st)),
      by simp [tools]⟩
  · exact ⟨[], [], by simp [tools]⟩

/-- Every reply that breaks off is taken for complete: `http_post_sse` fails and
    `do_turn` does not, and if the blocks that arrived have a content, the assistant's
    message goes to the messages and to the session file. -/
theorem cut_off_taken (ex : Exchange) (st : stream_state_t) (breaks : Breaks ex st) :
    (http_post_sse ex initial).code = -1 ∧ (do_turn ex initial).1 = 0 ∧
      ∀ (world : ℕ → Iteration) (messages items : List cJSON), (world 0).interrupt = false → (world 0).exchange = ex →
        contentItems st.active = some items →
        ∃ rest more, (iteration (world 0) messages).2.1 = messages ++ assistantMsg (.array items) :: rest ∧
          (chat_turn world messages).2.2 = session_append (world 0).opensAssist (assistantMsg (.array items)) ++ more := by
  obtain ⟨io, post, -⟩ := post_breaks breaks
  obtain ⟨io', turn⟩ := do_turn_breaks breaks
  refine ⟨by rw [post], by rw [turn], ?_⟩
  rintro world messages items going rfl content
  obtain ⟨rest, first, memory, file⟩ := iteration_breaks breaks going content messages
  obtain ⟨more, ops⟩ := chat_turn_ops world messages
  exact ⟨rest, first ++ more, memory, by rw [ops, file, List.append_assoc]⟩

/-- A chunk of five bytes of which two arrive. -/
def cutBody : Io := ⟨lit "5\r\nab", [], [], false⟩

def cutReply : Exchange :=
  ⟨true, { cutBody with data := lit "HTTP/1.1 200 OK\r\nTransfer-Encoding: chunked\r\n\r\n" ++ cutBody.data }⟩

theorem cutReply_breaks : Breaks cutReply (http_stream_body onChunkOrInterrupt true (-1) initial cutBody).2.1 := by
  have code : (http_stream_body onChunkOrInterrupt true (-1) initial cutBody).1 = -1 := by decide +kernel
  exact ⟨rfl, true, -1, cutBody, _, by decide +kernel, Prod.ext code rfl, by decide +kernel⟩

theorem cut_off_taken_empty :
    (http_post_sse cutReply initial).code = -1 ∧ (do_turn cutReply initial).1 = 0 ∧
      ∃ rest more, (iteration ⟨false, cutReply, true, true, true, fun _ => echo⟩ []).2.1 =
          [] ++ assistantMsg (.array []) :: rest ∧
        (chat_turn (fun _ => ⟨false, cutReply, true, true, true, fun _ => echo⟩) []).2.2 =
          session_append true (assistantMsg (.array [])) ++ more := by
  obtain ⟨post, turn, taken⟩ := cut_off_taken cutReply _ cutReply_breaks
  refine ⟨post, turn, taken (fun _ => ⟨false, cutReply, true, true, true, fun _ => echo⟩) [] [] rfl rfl ?_⟩
  have none : (http_stream_body onChunkOrInterrupt true (-1) initial cutBody).2.1.n = 0 := by decide +kernel
  simp [stream_state_t.active, none, contentItems]

/-- The part of the reply that arrived is taken, though the transport failed. -/
theorem cut_off_accepted : ¬∀ ex st, Breaks ex st → (do_turn ex initial).1 < 0 := by
  intro negative
  have turn := negative _ _ cutReply_breaks
  have zero : (do_turn cutReply initial).1 = 0 := by decide +kernel
  rw [zero] at turn
  exact absurd turn (by decide)

end Sa.CutOff
