import Sa.Framing
import Sa.Lines

/-!
# The lines of a stream

`on_chunk` is a machine of bounded lines (`Sa.Lines`): what it hands to
`handle_event` are the data of the stream's lines, each once and in order, except of
the lines that are too long (`lines_handed`).
-/

namespace Sa.SseLines
open Sa.CStrings Sa.Tinyjson Sa.Parser Sa.Stream Sa.Framing Sa.Lines

/-- What follows the prefix of a line and one space. -/
def data (line : Bytes) : Bytes := if (line.drop 5).head? = some 32 then line.drop 6 else line.drop 5

/-- The data of the stream's lines, without carriage returns, that carry some and are
    not too long. -/
def payloads (body : Bytes) : List Bytes :=
  (((body.splitOn 10).dropLast.map fun line => line.filter (· != 13)).filter fun line =>
    line.length ≤ MAX_SSE_LINE ∧ 5 < line.length ∧ lit "data:" <+: line).map data

/-- The argument of the call that a pass of the loop makes. -/
def handed (st : stream_state_t) (c : UInt8) : Option CString :=
  if c = 10 ∧ st.line_dropped = false ∧ 5 < st.line.length ∧ st.line.take 5 = lit "data:" then
    some (cstr (eventData st.line))
  else none

/-- The arguments of the calls in the loop. -/
def handedChunk (st : stream_state_t) : Bytes → List CString
  | [] => []
  | c :: ptr => (handed st c).toList ++ handedChunk (onByte st c) ptr

/-- The arguments of the calls in one `on_chunk` after the other. -/
def handedChunks (st : stream_state_t) : List Bytes → List CString
  | [] => []
  | ptr :: ptrs => handedChunk st ptr ++ handedChunks (on_chunk st ptr) ptrs

/-- What the events did to the state. -/
def accumulated (st : stream_state_t) : stream_state_t := reframe [] false [] st

/-- How `on_chunk` cuts lines. -/
def sse : Rule UInt8 := ⟨10, (· == 13), MAX_SSE_LINE⟩

def pendingLine (st : stream_state_t) : Pending UInt8 := ⟨st.line, st.line_dropped⟩

def payload (line : Bytes) : Option Bytes :=
  if 5 < line.length ∧ lit "data:" <+: line then some (data line) else none

theorem eventData_eq (line : Bytes) : eventData line = data line := by
  have next : line.drop 6 = (line.drop 5).drop 1 := by simp
  unfold eventData data
  rw [next]
  cases line.drop 5 with
  | nil => rfl
  | cons b p =>
    by_cases space : b = 32
    · subst space
      rfl
    · simp [space]

theorem prefix_iff (line : Bytes) : lit "data:" <+: line ↔ line.take 5 = lit "data:" := by
  rw [List.prefix_iff_eq_take, eq_comm]
  rfl

theorem handed_ended (st : stream_state_t) (c : UInt8) :
    handed st c = ((sse.ended (pendingLine st) c).bind payload).map cstr := by
  unfold handed Rule.ended payload pendingLine sse
  simp only [prefix_iff, eventData_eq]
  by_cases ends : c = 10 ∧ st.line_dropped = false
  · by_cases carries : 5 < st.line.length ∧ st.line.take 5 = lit "data:"
    · simp [ends, carries]
    · simp [ends, carries]
  · rw [if_neg ends, if_neg fun calls => ends ⟨calls.1, calls.2.1⟩]
    rfl

theorem pendingLine_onByte (st : stream_state_t) (c : UInt8) : pendingLine (onByte st c) = sse.step (pendingLine st) c := by
  have event := congrArg stream_state_t.line_dropped (handle_event_frame st (eventData st.line))
  unfold onByte Rule.step pendingLine sse
  by_cases newline : c = 10
  · by_cases dropped : st.line_dropped
    · simp [newline, dropped, Pending.fresh]
    · by_cases carries : 5 < st.line.length ∧ st.line.take 5 = lit "data:"
      · simpa [newline, dropped, carries, Pending.fresh, reframe] using event
      · simp [newline, dropped, carries, Pending.fresh]
  · by_cases skipped : c = 13
    · simp [skipped]
    · by_cases full : MAX_SSE_LINE ≤ st.line.length
      · simp [newline, skipped, full]
      · simp [newline, skipped, full]

theorem handle_event_cstr (st : stream_state_t) (json_str : Bytes) :
    handle_event st (cstr json_str).val = handle_event st json_str := by
  simp [handle_event, cJSON_Parse]

/-- A pass of the loop does what the call it makes does. -/
theorem accumulated_onByte (st : stream_state_t) (c : UInt8) :
    accumulated (onByte st c) = (handed st c).elim (accumulated st) fun s => handle_event (accumulated st) s.val := by
  by_cases newline : c = 10
  · unfold onByte handed
    by_cases dropped : st.line_dropped
    · simp [newline, dropped, accumulated, reframe]
    · by_cases carries : 5 < st.line.length ∧ st.line.take 5 = lit "data:"
      · simp only [newline, dropped, carries, Bool.false_eq_true, if_false, if_true, and_self, Option.elim_some]
        rw [handle_event_cstr, accumulated, accumulated, handle_event_reframe]
        rfl
      · simp [newline, dropped, carries, accumulated, reframe]
  · have none : handed st c = .none := if_neg fun calls => newline calls.1
    rw [none, onByte, if_neg newline]
    split_ifs <;> rfl

theorem handedChunk_eq (ptr : Bytes) : ∀ st,
    handedChunk st ptr = ((sse.delivered (pendingLine st) ptr).filterMap payload).map cstr := by
  induction ptr with
  | nil => intro st; rfl
  | cons c ptr ih =>
    intro st
    rw [handedChunk, ih, handed_ended, pendingLine_onByte, Rule.delivered, List.filterMap_append, List.map_append]
    cases sse.ended (pendingLine st) c with
    | none => rfl
    | some line => cases given : payload line <;> simp [given]

theorem pendingLine_foldl (ptr : Bytes) (st : stream_state_t) :
    pendingLine (ptr.foldl onByte st) = ptr.foldl sse.step (pendingLine st) := by
  induction ptr generalizing st with
  | nil => rfl
  | cons c ptr ih => rw [List.foldl_cons, ih, pendingLine_onByte, List.foldl_cons]

theorem pendingLine_on_chunk (st : stream_state_t) (ptr : Bytes) :
    pendingLine (on_chunk st ptr) = ptr.foldl sse.step (pendingLine st) := by
  rw [← pendingLine_foldl, on_chunk_eq]
  rfl

/-- The calls depend on the bytes only, not on how they are cut. -/
theorem handedChunks_eq (ptrs : List Bytes) : ∀ st,
    handedChunks st ptrs = ((sse.delivered (pendingLine st) ptrs.flatten).filterMap payload).map cstr := by
  induction ptrs with
  | nil => intro st; rfl
  | cons ptr ptrs ih =>
    intro st
    rw [handedChunks, ih, handedChunk_eq, pendingLine_on_chunk, List.flatten_cons, Rule.delivered_append,
      List.filterMap_append, List.map_append]

theorem accumulated_foldl (ptr : Bytes) : ∀ st,
    accumulated (ptr.foldl onByte st) = (handedChunk st ptr).foldl (fun st s => handle_event st s.val) (accumulated st) := by
  induction ptr with
  | nil => intro st; rfl
  | cons c ptr ih =>
    intro st
    rw [List.foldl_cons, ih, handedChunk, List.foldl_append, accumulated_onByte]
    cases handed st c <;> rfl

theorem accumulated_chunks (ptrs : List Bytes) : ∀ st, accumulated (ptrs.foldl on_chunk st) =
    (handedChunks st ptrs).foldl (fun st s => handle_event st s.val) (accumulated st) := by
  induction ptrs with
  | nil => intro st; rfl
  | cons ptr ptrs ih =>
    intro st
    have head : accumulated (on_chunk st ptr) = accumulated (ptr.foldl onByte st) := by
      rw [on_chunk_eq]
      rfl
    rw [List.foldl_cons, ih, handedChunks, List.foldl_append, head, accumulated_foldl]

theorem payloads_eq (body : Bytes) : payloads body = (sse.lines body).filterMap payload := by
  have each : ∀ lines : List Bytes, ((lines.map sse.kept).filter fun line =>
      line.length ≤ MAX_SSE_LINE ∧ 5 < line.length ∧ lit "data:" <+: line).map data =
      (lines.filterMap sse.fitting).filterMap payload := by
    intro lines
    induction lines with
    | nil => rfl
    | cons line lines ih =>
      have cap : sse.cap = MAX_SSE_LINE := rfl
      rw [List.map_cons, List.filterMap_cons, List.filter_cons, Rule.fitting, cap]
      by_cases fits : (sse.kept line).length ≤ MAX_SSE_LINE
      · by_cases carries : 5 < (sse.kept line).length ∧ lit "data:" <+: sse.kept line
        · rw [if_pos fits, if_pos (decide_eq_true ⟨fits, carries⟩), List.map_cons, ih]
          simp [payload, carries]
        · rw [if_pos fits, if_neg fun all => carries (of_decide_eq_true all).2, ih]
          simp [payload, carries]
      · rw [if_neg fits, if_neg fun all => fits (of_decide_eq_true all).1, ih]
  exact each _

/-- The payloads of a stream without NULs have none. -/
theorem payloads_nulFree {body : Bytes} (free : 0 ∉ body) : ∀ p ∈ payloads body, 0 ∉ p := by
  intro p member zero
  rw [payloads_eq, ← Rule.delivered_lines] at member
  obtain ⟨line, inside, given⟩ := List.mem_filterMap.mp member
  obtain ⟨-, rfl⟩ : (5 < line.length ∧ lit "data:" <+: line) ∧ data line = p := by
    simpa [payload] using given
  have of_line : (0 : UInt8) ∈ line := by
    unfold data at zero
    split_ifs at zero
    · exact List.mem_of_mem_drop zero
    · exact List.mem_of_mem_drop zero
  exact free (sse.mem_of_delivered inside of_line)

theorem length_line_le (ptr : Bytes) {p : Pending UInt8} (within : p.line.length ≤ MAX_SSE_LINE) :
    (ptr.foldl sse.step p).line.length ≤ MAX_SSE_LINE := by
  induction ptr generalizing p with
  | nil => exact within
  | cons c ptr ih => exact ih (sse.length_step_le within c)

theorem length_pending_le (ptrs : List Bytes) {st : stream_state_t} (within : st.line.length ≤ MAX_SSE_LINE) :
    (ptrs.foldl on_chunk st).line.length ≤ MAX_SSE_LINE := by
  induction ptrs generalizing st with
  | nil => exact within
  | cons ptr ptrs ih =>
    refine ih ?_
    have held : (on_chunk st ptr).line = (ptr.foldl sse.step (pendingLine st)).line :=
      congrArg Pending.line (pendingLine_on_chunk st ptr)
    rw [held]
    exact length_line_le ptr within

/-- However a stream without NULs is cut, its payloads are handed on, each once and in
    order, and a line that is too long is left out alone. -/
theorem lines_handed (ptrs : List Bytes) (free : 0 ∉ ptrs.flatten) :
    (handedChunks initial ptrs).map Subtype.val = payloads ptrs.flatten ∧
    accumulated (ptrs.foldl on_chunk initial) = (payloads ptrs.flatten).foldl handle_event initial ∧
    (∀ (before : List Bytes) (taken : Bytes),
      (on_chunk (before.foldl on_chunk initial) taken).line.length ≤ MAX_SSE_LINE) ∧
    ∀ line ∈ (ptrs.flatten.splitOn 10).dropLast, (line.filter (· != 13)).length = MAX_SSE_LINE →
      lit "data:" <+: line.filter (· != 13) →
      data (line.filter (· != 13)) ∈ (handedChunks initial ptrs).map Subtype.val := by
  have calls : handedChunks initial ptrs = (payloads ptrs.flatten).map cstr := by
    rw [handedChunks_eq, payloads_eq, ← Rule.delivered_lines]
    rfl
  have values : (handedChunks initial ptrs).map Subtype.val = payloads ptrs.flatten := by
    rw [calls, List.map_map]
    refine (List.map_congr_left fun p member => ?_).trans (List.map_id _)
    exact cstr_of_nulFree (payloads_nulFree free p member)
  refine ⟨values, ?_, ?_, ?_⟩
  · rw [accumulated_chunks, ← values, List.foldl_map]
    rfl
  · intro before taken
    have within : (initial : stream_state_t).line.length ≤ MAX_SSE_LINE := Nat.zero_le _
    simpa using length_pending_le (before ++ [taken]) within
  · intro line inside full starts
    rw [values]
    refine List.mem_map_of_mem (List.mem_filter.mpr ⟨List.mem_map_of_mem inside, decide_eq_true ⟨full.le, ?_, starts⟩⟩)
    rw [full]
    decide

/-- A prefix cut in two and a carriage return. -/
theorem lines_handed_cut : (handedChunks initial [lit "da", lit "ta: x", [13, 10]]).map Subtype.val = [lit "x"] :=
  (lines_handed [lit "da", lit "ta: x", [13, 10]] (by decide)).1.trans (by decide +kernel)

end Sa.SseLines
