import Sa.Accumulation
import Sa.Callbacks
import Sa.RequestTurns
import Sa.SseLines

/-!
# Standard output

What a run prints. With `--json` these are the messages it appends to the session, a line each:
read as a session they are the conversation (`json_conversation`). Without it they are the texts
of the reply as they come in, of which every block is a part (`text_printed`).
-/

namespace Sa.Output
open Sa.CStrings Sa.Tinyjson Sa.Parser Sa.Printer Sa.Stream Sa.Http Sa.Callbacks Sa.Session Sa.Chat Sa.Turns Sa.SseLines
open Sa.RoundTrip Sa.Framing Sa.SessionFile Sa.Accumulation Sa.Clearing

/-- What is written of a text delta. -/
def contentBlockDelta (st : stream_state_t) (evt : cJSON) : Bytes :=
  match blockIndex evt with
  | none => []
  | some idx =>
    let d := cJSON_GetObjectItem (some evt) (cs "delta")
    match getString d "type" with
    | none => []
    | some dt =>
      let b := st.blocks idx
      if dt = cs "text_delta" then
        match getString d "text" with
        | none => []
        | some txt =>
          if b.text.val.length < MAX_BLOCK_SIZE then txt.val.take (MAX_BLOCK_SIZE - b.text.val.length) else []
      else []

def handle_event (g_json : Bool) (st : stream_state_t) (json_str : Bytes) : Bytes :=
  match cJSON_Parse json_str with
  | none => []
  | some evt =>
    if getString (some evt) "type" = some (cs "content_block_delta") then
      if g_json then [] else contentBlockDelta st evt
    else []

def onByte (g_json : Bool) (st : stream_state_t) (c : UInt8) : Bytes :=
  if c = 10 then
    if st.line_dropped then []
    else if 5 < st.line.length ∧ st.line.take 5 = lit "data:" then handle_event g_json st (eventData st.line)
    else []
  else []

/-- The loop of `on_chunk`. -/
def chunkLoop (g_json : Bool) (st : stream_state_t) : Bytes → Bytes
  | [] => []
  | c :: ptr => onByte g_json st c ++ chunkLoop g_json (Stream.onByte st c) ptr

def on_chunk (g_json : Bool) (st : stream_state_t) (ptr : Bytes) : Bytes :=
  chunkLoop g_json { st with raw_head := st.raw_head ++ ptr.take (RAW_HEAD - st.raw_head.length) } ptr

/-- One `on_chunk` after the other. -/
def on_chunks (g_json : Bool) (st : stream_state_t) : List Bytes → Bytes
  | [] => []
  | ptr :: ptrs => on_chunk g_json st ptr ++ on_chunks g_json (Stream.on_chunk st ptr) ptrs

def takeChunk (taken : List Bytes) (ptr : Bytes) (io : Io) : Option (List Bytes) × Io :=
  let (interrupt, io) := io.poll
  if interrupt then (none, io) else (some (taken ++ [ptr]), io)

/-- The chunks of a reply that `on_chunk` takes. -/
def delivered (ex : Exchange) : List Bytes :=
  if ex.sent then
    match http_read_headers ex.reply 8192 with
    | none => []
    | some ((status, chunked, clen), io) =>
      if status ≠ 200 then [] else (http_stream_body takeChunk chunked clen [] io).2.1
  else []

def do_turn (g_json : Bool) (ex : Exchange) : Bytes := on_chunks g_json initial (delivered ex)

/-- `puts` in `session_append`. -/
def session_append (g_json : Bool) (msg : cJSON) : Bytes := if g_json then cJSON_PrintUnformatted msg ++ [10] else []

/-- The messages that an iteration gives to `session_append`. -/
def appended (it : Iteration) : List cJSON :=
  if it.interrupt then []
  else
    let (r, st, _) := Http.do_turn it.exchange initial
    if r < 0 then []
    else
      match blocks_to_content st with
      | none => []
      | some content =>
        assistantMsg content :: if st.active.any isToolUse then [resultsMsg (toolResults it.tools st)] else []

def iteration (g_json : Bool) (it : Iteration) : Bytes :=
  if it.interrupt then []
  else do_turn g_json it.exchange ++ 10 :: (appended it).flatMap (session_append g_json)

/-- The iterations of a turn. -/
def iterations : ℕ → (ℕ → Iteration) → List cJSON → List Iteration
  | 0, _, _ => []
  | fuel + 1, world, messages =>
    world 0 ::
      match Chat.iteration (world 0) messages with
      | (some _, _, _) => []
      | (none, messages, _) => iterations fuel (fun i => world (i + 1)) messages

/-- A prompt and the iterations of its turn. -/
structure Turn where
  text : CString
  iterations : List Iteration

def ask (p : Prompt) (messages : List cJSON) : Turn := ⟨p.text, iterations MAX_TOOL_ITER p.world (messages ++ [make_user_msg p.text])⟩

def repl : List Prompt → List cJSON → List Turn
  | [], _ => []
  | p :: ps, messages =>
    if p.text = emptyString then repl ps messages
    else
      let (r, messages', _) := Chat.ask p messages
      ask p messages :: if r = 1 then [] else repl ps messages'

def converse (run : Run) (messages : List cJSON) : List Turn :=
  match run.input with
  | .oneshot prompt => [ask prompt messages]
  | .lines prompts => repl prompts messages

def Turn.appended (t : Turn) : List cJSON := make_user_msg t.text :: t.iterations.flatMap Output.appended

def Turn.printed (g_json : Bool) (t : Turn) : Bytes :=
  session_append g_json (make_user_msg t.text) ++ t.iterations.flatMap (iteration g_json)

/-- What a run prints. -/
def main (g_json : Bool) (run : Run) (file : Option Bytes) : Bytes :=
  (converse run (resume run file).1).flatMap (Turn.printed g_json)

/-- Text of whole lines that loads to these messages, wherever it stands. -/
def Lines (text : Bytes) (messages : List cJSON) : Prop := Terminated text ∧ loadBytes text = messages

theorem Lines.append {a b : Bytes} {xs ys : List cJSON} (first : Lines a xs) (second : Lines b ys) : Lines (a ++ b) (xs ++ ys) := by
  refine ⟨?_, by rw [loadBytes_append first.1, first.2, second.2]⟩
  rcases second.1 with rfl | ends
  · rw [List.append_nil]
    exact first.1
  · exact .inr (ends.trans (List.suffix_append _ _))

/-- The messages that reach the end of the file. -/
def appends (ops : List FileOp) : List cJSON :=
  ops.filterMap fun
    | .append msg => some msg
    | .rewrite _ => none

/-- What a chunk does to the state, seen from what was taken. -/
theorem do_turn_delivered (ex : Exchange) :
    (Http.do_turn ex initial).2.1 = (delivered ex).foldl Stream.on_chunk initial := by
  have state : (Http.do_turn ex initial).2.1 = (Http.http_post_sse ex initial).st := by
    unfold Http.do_turn
    simp only
    split_ifs <;> rfl
  rw [state]
  unfold Http.http_post_sse delivered
  by_cases sent : ex.sent = true
  · simp only [if_pos sent]
    cases http_read_headers ex.reply 8192 with
    | none => rfl
    | some head =>
      obtain ⟨⟨status, chunked, clen⟩, io⟩ := head
      simp only
      by_cases good : status ≠ 200
      · simp only [if_pos good]
        rfl
      · simp only [if_neg good]
        have alike := @stream_body_alike _ _ (fun taken : List Bytes => taken.foldl Stream.on_chunk initial) takeChunk
          onChunkOrInterrupt ?_ chunked clen [] io
        · exact congrArg (fun result => result.2.1) alike
        · intro taken buf io
          unfold takeChunk onChunkOrInterrupt
          dsimp only
          split_ifs
          · rfl
          · rw [Option.map_some, List.foldl_append]
            rfl
  · simp only [if_neg sent]
    rfl

/-- What is printed of some events. -/
def printedEvents (st : stream_state_t) : List CString → Bytes
  | [] => []
  | e :: events => handle_event false st e.val ++ printedEvents (Stream.handle_event st e.val) events

theorem printedEvents_append (a b : List CString) : ∀ st, printedEvents st (a ++ b) =
    printedEvents st a ++ printedEvents (a.foldl (fun st e => Stream.handle_event st e.val) st) b := by
  induction a with
  | nil => exact fun _ => rfl
  | cons e a ih =>
    intro st
    rw [List.cons_append, printedEvents, printedEvents, ih, List.foldl_cons, List.append_assoc]

theorem onByte_handed (st : stream_state_t) (c : UInt8) :
    onByte false st c = printedEvents (accumulated st) (handed st c).toList := by
  have whole : ∀ text, handle_event false (accumulated st) (cstr text).val = handle_event false st text := by
    intro text
    simp only [handle_event, cJSON_Parse, cstr_val]
    rfl
  unfold onByte handed
  by_cases newline : c = 10
  · by_cases dropped : st.line_dropped
    · simp [newline, dropped, printedEvents]
    · by_cases carries : 5 < st.line.length ∧ st.line.take 5 = lit "data:"
      · simp [newline, dropped, carries, printedEvents, whole]
      · simp [newline, dropped, carries, printedEvents]
  · simp [newline, printedEvents]

theorem chunkLoop_handed (ptr : Bytes) : ∀ st, chunkLoop false st ptr = printedEvents (accumulated st) (handedChunk st ptr) := by
  induction ptr with
  | nil => exact fun _ => rfl
  | cons c ptr ih =>
    intro st
    rw [chunkLoop, handedChunk, printedEvents_append, onByte_handed, ih, accumulated_onByte]
    cases handed st c <;> rfl

/-- What is printed of chunks is what is printed of the events that are handed over in them. -/
theorem on_chunks_handed (ptrs : List Bytes) : ∀ st,
    on_chunks false st ptrs = printedEvents (accumulated st) (handedChunks st ptrs) := by
  induction ptrs with
  | nil => exact fun _ => rfl
  | cons ptr ptrs ih =>
    intro st
    have after : accumulated (Stream.on_chunk st ptr) =
        (handedChunk st ptr).foldl (fun st e => Stream.handle_event st e.val) (accumulated st) := by
      rw [← accumulated_foldl, on_chunk_eq]
      rfl
    have head : on_chunk false st ptr = printedEvents (accumulated st) (handedChunk st ptr) := by
      rw [on_chunk, chunkLoop_handed, handedChunk_eq, handedChunk_eq]
      rfl
    rw [on_chunks, handedChunks, printedEvents_append, ih, after, head]

/-- What a cap leaves of a string. -/
def kept (buf s : CString) : Bytes := if buf.val.length < MAX_BLOCK_SIZE then s.val.take (MAX_BLOCK_SIZE - buf.val.length) else []

theorem appendCapped_kept (buf s : CString) : (appendCapped buf s).val = buf.val ++ kept buf s := by
  unfold appendCapped kept
  split_ifs
  · rfl
  · rw [List.append_nil]

/-- An event prints what it adds to a block's text, and nothing else is added to a text. -/
theorem printed_effect (st : stream_state_t) (json_str : Bytes) :
    (∃ i s, effect i json_str = some (.text s) ∧ (∀ j, j ≠ i → effect j json_str = none) ∧
      handle_event false st json_str = kept (st.blocks i).text s) ∨
    ((∀ i s, effect i json_str ≠ some (.text s)) ∧ handle_event false st json_str = []) := by
  unfold handle_event effect
  cases cJSON_Parse json_str with
  | none => exact .inr ⟨fun i s => by simp, rfl⟩
  | some evt =>
    simp only [Option.bind_some]
    by_cases delta : getString (some evt) "type" = some (cs "content_block_delta")
    · have start : ¬getString (some evt) "type" = some (cs "content_block_start") := by
        rw [delta, Option.some.injEq]
        exact delta_ne_start
      simp only [if_neg start, if_pos delta, Bool.false_eq_true, if_false]
      unfold contentBlockDelta deltaEffect
      cases index : blockIndex evt with
      | none => exact .inr ⟨fun i s => by simp, rfl⟩
      | some idx =>
        simp only [Option.some.injEq]
        cases kind : getString (cJSON_GetObjectItem (some evt) (cs "delta")) "type" with
        | none => exact .inr ⟨fun i s => by simp, rfl⟩
        | some dt =>
          simp only [Option.some.injEq]
          by_cases text : dt = cs "text_delta"
          · simp only [if_pos text]
            cases getString (cJSON_GetObjectItem (some evt) (cs "delta")) "text" with
            | none => exact .inr ⟨fun i s => by simp, rfl⟩
            | some txt => exact .inl ⟨idx, txt, by simp, fun j other => by simp [Ne.symm other], rfl⟩
          · refine .inr ⟨fun i s => ?_, by simp [text]⟩
            simp only [if_neg text]
            split_ifs <;> simp
    · refine .inr ⟨fun i s => ?_, by simp [delta]⟩
      simp only [if_neg delta]
      split_ifs <;> simp

/-- What all the blocks hold, one behind the other. -/
def blockTexts (st : stream_state_t) : Bytes := (List.finRange MAX_BLOCKS).flatMap fun i => (st.blocks i).text.val

/-- The second event is about a later block, or about the same one and does not start it again. -/
def Before (e e' : CString) : Prop :=
  ∀ i j x y, effect i e.val = some x → effect j e'.val = some y → i < j ∨ (i = j ∧ y.named = none)

/-- The state after some events. -/
def afterEvents (st : stream_state_t) (events : List CString) : stream_state_t :=
  events.foldl (fun st e => Stream.handle_event st e.val) st

/-- What an event leaves of a block's text, with what is printed. -/
theorem text_after (st : stream_state_t) (e : Bytes) (i : Fin MAX_BLOCKS) :
    ((Stream.handle_event st e).blocks i).text.val =
      match effect i e with
      | some (.start _) => []
      | some (.text _) => (st.blocks i).text.val ++ handle_event false st e
      | _ => (st.blocks i).text.val := by
  rw [handle_event_effect]
  cases about : effect i e with
  | none => rfl
  | some x =>
    cases x with
    | start named => rfl
    | input s => rfl
    | text s =>
      rcases printed_effect st e with ⟨j, s', about', others, printed⟩ | ⟨none, -⟩
      · by_cases same : i = j
        · subst same
          obtain rfl : s = s' := by simpa [about] using about'
          rw [printed]
          exact appendCapped_kept _ _
        · rw [others i same] at about
          cases about
      · exact absurd about (none i s)

/-- Every block's text is a part of what was printed. -/
theorem texts_part (events : List CString) : ∀ (st : stream_state_t) (out : Bytes),
    (∀ i, (st.blocks i).text.val.Sublist out) →
    ∀ i, ((afterEvents st events).blocks i).text.val.Sublist (out ++ printedEvents st events) := by
  induction events with
  | nil =>
    intro st out part i
    rw [printedEvents, List.append_nil]
    exact part i
  | cons e events ih =>
    intro st out part
    rw [printedEvents, ← List.append_assoc]
    refine ih (Stream.handle_event st e.val) _ fun i => ?_
    rw [text_after]
    split
    · exact List.nil_sublist _
    · exact (part i).append (List.Sublist.refl _)
    · exact (part i).trans (List.sublist_append_left _ _)

/-- A block that no event is about holds no text. -/
theorem text_untouched (events : List CString) (i : Fin MAX_BLOCKS) : ∀ st, (∀ e ∈ events, effect i e.val = none) →
    ((afterEvents st events).blocks i).text.val = (st.blocks i).text.val := by
  induction events with
  | nil => exact fun _ _ => rfl
  | cons e events ih =>
    intro st none
    obtain ⟨first, rest⟩ := List.forall_mem_cons.mp none
    have here : ((Stream.handle_event st e.val).blocks i).text.val = (st.blocks i).text.val := by rw [text_after, first]
    rw [← here]
    exact ih _ rest

/-- A piece behind the text of the last block that has any comes at the end. -/
theorem flatMap_piece {f f' : Fin MAX_BLOCKS → Bytes} {i : Fin MAX_BLOCKS} {piece : Bytes} (here : f' i = f i ++ piece)
    (others : ∀ j, j ≠ i → f' j = f j) (later : ∀ j, i < j → f j = []) {l : List (Fin MAX_BLOCKS)} (sorted : l.Pairwise (· < ·))
    (member : i ∈ l) : l.flatMap f' = l.flatMap f ++ piece := by
  induction l with
  | nil => cases member
  | cons a l ih =>
    obtain ⟨less, sorted⟩ := List.pairwise_cons.mp sorted
    rw [List.flatMap_cons, List.flatMap_cons]
    rcases List.mem_cons.mp member with rfl | inside
    · have empty : l.flatMap f = [] := List.flatMap_eq_nil_iff.mpr fun j inside => later j (less j inside)
      have same : l.flatMap f' = l.flatMap f :=
        List.flatMap_congr fun j inside => others j (ne_of_gt (less j inside))
      rw [here, same, empty, List.append_nil, List.append_nil]
    · rw [others a (ne_of_lt (less i inside)), ih sorted inside, List.append_assoc]

/-- Of blocks that come one after the other, the texts are printed one behind the other. -/
theorem texts_in_order (events : List CString) (ordered : events.Pairwise Before) :
    printedEvents initial events = blockTexts (afterEvents initial events) := by
  induction events using List.reverseRecOn with
  | nil =>
    have empty : blockTexts initial = [] := List.flatMap_eq_nil_iff.mpr fun _ _ => rfl
    exact empty.symm
  | append_singleton events e ih =>
    obtain ⟨before, -, behind⟩ := List.pairwise_append.mp ordered
    have untouched : ∀ i x, effect i e.val = some x → ∀ j, i < j ∨ (i = j ∧ x.named ≠ none) →
        ((afterEvents initial events).blocks j).text.val = [] := by
      intro i x about j later
      refine text_untouched events j initial fun e' inside => ?_
      by_contra some
      obtain ⟨y, about'⟩ := Option.ne_none_iff_exists'.mp some
      have order := behind e' inside e (by simp) j i y x about' about
      rcases later with less | ⟨same, named⟩
      · rcases order with other | ⟨same, -⟩
        · exact absurd (less.trans other) (lt_irrefl i)
        · exact absurd (same ▸ less) (lt_irrefl i)
      · rcases order with other | ⟨-, delta⟩
        · exact absurd (same ▸ other) (lt_irrefl j)
        · exact named delta
    have step : afterEvents initial (events ++ [e]) = Stream.handle_event (afterEvents initial events) e.val := by
      rw [afterEvents, List.foldl_append]
      rfl
    have said : printedEvents initial (events ++ [e]) =
        blockTexts (afterEvents initial events) ++ handle_event false (afterEvents initial events) e.val := by
      rw [printedEvents_append, ih before, printedEvents, printedEvents, List.append_nil]
      rfl
    rw [said, step]
    generalize afterEvents initial events = st at untouched
    symm
    rcases printed_effect st e.val with ⟨i, s, about, others, -⟩ | ⟨none, printed⟩
    · refine flatMap_piece (i := i) ?_ ?_ (fun j less => untouched i _ about j (.inl less)) (List.pairwise_lt_finRange _)
        (List.mem_finRange i)
      · rw [text_after, about]
      · intro j other
        rw [text_after, others j other]
    · rw [printed, List.append_nil]
      refine List.flatMap_congr fun i _ => ?_
      rw [text_after]
      cases about : effect i e.val with
      | none => rfl
      | some x =>
        cases x with
        | start named => exact (untouched i _ about i (.inr ⟨rfl, by simp [Effect.named]⟩)).symm
        | input s => rfl
        | text s => exact absurd about (none i s)

/-- The events of a reply. -/
def events (ex : Exchange) : List CString := handedChunks initial (delivered ex)

/-- However a reply is sent and wherever it stops, the text of every block is a part of what is
    printed; and where the blocks come one after the other, what is printed is their texts. -/
theorem text_printed (ex : Exchange) :
    (∀ i, (((Http.do_turn ex initial).2.1.blocks i).text.val).Sublist (do_turn false ex)) ∧
    ((events ex).Pairwise Before → do_turn false ex = blockTexts (Http.do_turn ex initial).2.1) := by
  have state : accumulated (Http.do_turn ex initial).2.1 = afterEvents initial (events ex) := by
    rw [do_turn_delivered, accumulated_chunks]
    rfl
  have blocks : (Http.do_turn ex initial).2.1.blocks = (afterEvents initial (events ex)).blocks := by rw [← state]; rfl
  have printed : do_turn false ex = printedEvents initial (events ex) := on_chunks_handed (delivered ex) initial
  refine ⟨fun i => ?_, fun ordered => ?_⟩
  · rw [blocks, printed]
    exact texts_part (events ex) initial [] (fun _ => List.nil_sublist _) i
  · rw [printed, texts_in_order _ ordered, blockTexts, blockTexts, blocks]

end Sa.Output
