import Sa.Callbacks
import Sa.NodeParser
import Sa.NodeReading

/-!
# The stream on the nodes

The events of a reply are parsed into memory, read and deleted: an exchange leaves the
memory as it was and the stream's state as the model on trees has it (`do_turn_spec`).
The content of the blocks is built there (`blocks_to_content_spec`).
-/

namespace Sa.NodeStream
open Sa.CStrings Sa.Doubles Sa.NumberTexts Sa.Separation Sa.Programs Sa.Nodes Sa.Ownership Sa.Containers Sa.JsonNodes
open Sa.NodeReading Sa.NodeParser Sa.Stream Sa.Http Sa.Callbacks

/-- `cJSON_IsNumber(item) ? item->valueint : -1`. -/
def intOr (item : Option Addr) : C ℤ := do
  if ← cJSON_IsNumber item then
    match item with
    | none => return -1
    | some item =>
      let number ← node item
      return number.valueint
  else return -1

/-- The event's `index`, if it is one of a block. -/
def blockIndex (n : ℕ) (evt : Addr) : C (Option (Fin MAX_BLOCKS)) := do
  let jidx ← cJSON_GetObjectItem n (some evt) (cs "index")
  let idx ← intOr jidx
  return if inside : 0 ≤ idx ∧ idx < MAX_BLOCKS then some ⟨idx.toNat, by omega⟩ else none

def contentBlockStart (n : ℕ) (st : stream_state_t) (evt : Addr) : C stream_state_t := do
  match ← blockIndex n evt with
  | none => return st
  | some idx =>
    let cb ← cJSON_GetObjectItem n (some evt) (cs "content_block")
    let type ← getString n cb (cs "type")
    let id ← getString n cb (cs "id")
    let name ← getString n cb (cs "name")
    return { st.setBlock idx ⟨field 32 type, field 64 id, field 64 name, emptyString, emptyString⟩ with
      n := if st.n.val < idx.val + 1 then idx.succ else st.n }

def contentBlockDelta (n : ℕ) (st : stream_state_t) (evt : Addr) : C stream_state_t := do
  match ← blockIndex n evt with
  | none => return st
  | some idx =>
    let d ← cJSON_GetObjectItem n (some evt) (cs "delta")
    match ← getString n d (cs "type") with
    | none => return st
    | some dt =>
      let b := st.blocks idx
      if dt = cs "text_delta" then
        match ← getString n d (cs "text") with
        | none => return st
        | some txt => return st.setBlock idx { b with text := appendCapped b.text txt }
      else if dt = cs "input_json_delta" then
        match ← getString n d (cs "partial_json") with
        | none => return st
        | some pj => return st.setBlock idx { b with partial_json := appendCapped b.partial_json pj }
      else return st

def messageDelta (n : ℕ) (st : stream_state_t) (evt : Addr) : C stream_state_t := do
  let d ← cJSON_GetObjectItem n (some evt) (cs "delta")
  match ← getString n d (cs "stop_reason") with
  | none => return st
  | some sr => return { st with stop_reason := strncpy 32 sr }

section
variable (m : Allocator Addr Cell)

def handle_event (n : ℕ) (st : stream_state_t) (json_str : Bytes) : C stream_state_t := do
  match ← cJSON_Parse m n json_str with
  | none => return st
  | some evt =>
    match ← getString n (some evt) (cs "type") with
    | none =>
      cJSON_Delete n (some evt)
      return st
    | some t =>
      let st ←
        if t = cs "content_block_start" then contentBlockStart n st evt
        else if t = cs "content_block_delta" then contentBlockDelta n st evt
        else if t = cs "message_delta" then messageDelta n st evt
        else Pure.pure st
      cJSON_Delete n (some evt)
      return st

def onByte (n : ℕ) (st : stream_state_t) (c : UInt8) : C stream_state_t :=
  if c = 10 then
    if st.line_dropped then return { st with line_dropped := false, line := [] }
    else if 5 < st.line.length ∧ st.line.take 5 = lit "data:" then do
      let st ← handle_event m n st (eventData st.line)
      return { st with line := [] }
    else return { st with line := [] }
  else if c ≠ 13 then
    if MAX_SSE_LINE ≤ st.line.length then return { st with line_dropped := true }
    else return { st with line := st.line ++ [c] }
  else return st

def on_chunk (n : ℕ) (st : stream_state_t) (ptr : Bytes) : C stream_state_t :=
  ptr.foldlM (onByte m n) { st with raw_head := st.raw_head ++ ptr.take (RAW_HEAD - st.raw_head.length) }

/-- The callback with the memory it runs on, which is lost at a fault. -/
def onChunkOrInterrupt (n : ℕ) (run : Option (stream_state_t × Memory)) (ptr : Bytes) (io : Io) :
    Option (Option (stream_state_t × Memory)) × Io :=
  let (interrupt, io) := io.poll
  if interrupt then (none, io) else (some (run.bind fun (st, h) => on_chunk m n st ptr h), io)

def http_post_sse (n : ℕ) (ex : Exchange) (st : stream_state_t) : C Posted := fun h =>
  if ex.sent then
    match http_read_headers ex.reply 8192 with
    | none => some (⟨-1, 0, st, [], ex.reply⟩, h)
    | some ((status, chunked, clen), io) =>
      if status ≠ 200 then
        let (err_head, io) := errorHead (io.data.length + 1) (RAW_HEAD - 1) io
        some (⟨-1, status, st, err_head, io⟩, h)
      else
        let (r, run, io) := http_stream_body (onChunkOrInterrupt m n) chunked clen (some (st, h)) io
        run.map fun (st, h) => (⟨if r = -2 then -2 else if r < 0 then -1 else 0, status, st, [], io⟩, h)
  else some (⟨-1, 0, st, [], ex.reply⟩, h)

def contextError (n : ℕ) (raw_head : Bytes) : C Bool := do
  match ← cJSON_Parse m n raw_head with
  | none => return false
  | some j =>
    let e ← cJSON_GetObjectItem n (some j) (cs "error")
    let message ← getString n e (cs "message")
    cJSON_Delete n (some j)
    match message with
    | none => return false
    | some m => return strstr m (cs "context") || strstr m (cs "token") || strstr m (cs "length")

def do_turn (n : ℕ) (ex : Exchange) (st : stream_state_t) : C (Int × stream_state_t × Io) := do
  let post ← http_post_sse m n ex st
  let (interrupt, io) := post.io.poll
  if interrupt then return (-2, post.st, io)
  else if post.code = -2 then return (-2, post.st, io)
  else if post.code < 0 ∧ post.status = 0 then return (-1, post.st, io)
  else if post.status ≠ 200 then
    let context_err ← contextError m n post.err_head
    return (if context_err then -3 else -1, post.st, io)
  else return (0, post.st, io)

/-- The input of a tool call, when it is there. -/
def toolInput (n : ℕ) (b : block_t) : C (Option Addr) :=
  if 0 < b.partial_json.val.length then cJSON_Parse m n b.partial_json.val else return none

/-- The loop of `blocks_to_content` over the blocks in use. -/
def contentLoop (n : ℕ) (arr : Addr) : List block_t → C (Option Addr)
  | [] => return some arr
  | b :: bs =>
    if b.type = emptyString then contentLoop n arr bs
    else do
      let obj ← cJSON_CreateObject m
      cJSON_AddStringToObject m n (some obj) (cs "type") b.type
      if b.type = cs "text" then
        cJSON_AddStringToObject m n (some obj) (cs "text") b.text
        cJSON_AddItemToArray n (some arr) (some obj)
        contentLoop n arr bs
      else if b.type = cs "tool_use" then
        cJSON_AddStringToObject m n (some obj) (cs "id") b.id
        cJSON_AddStringToObject m n (some obj) (cs "name") b.name
        let input ← toolInput m n b
        let size ← cJSON_GetArraySize n input
        if size = 0 then
          cJSON_Delete n input
          cJSON_Delete n (some obj)
          cJSON_Delete n (some arr)
          return none
        else
          cJSON_AddItemToObject m n (some obj) (cs "input") input
          cJSON_AddItemToArray n (some arr) (some obj)
          contentLoop n arr bs
      else
        cJSON_AddItemToArray n (some arr) (some obj)
        contentLoop n arr bs

def blocks_to_content (n : ℕ) (st : stream_state_t) : C (Option Addr) := do
  let arr ← cJSON_CreateArray m
  contentLoop m n arr st.active

end

/-! ### Events -/

section
variable {h : Memory} {a : Addr} {evt : Tinyjson.cJSON} {p : Option Addr} {v : Option Tinyjson.cJSON}

theorem intOr_reads (refers : Refers h p v) : Reads h (fun _ => intOr p) (Tinyjson.intOr v) := by
  refine Reads.bind (isNumber_reads refers) ?_
  cases v with
  | none => exact Reads.pure
  | some v =>
    cases p with
    | none => exact refers.elim
    | some a =>
      cases v with
      | number d =>
        obtain ⟨k, item, looks, -⟩ := refers
        have value : item.valueint = to_int d := looks.valueint
        refine Reads.bind (reads_node looks.node) ?_
        rw [value]
        exact Reads.pure
      | _ => exact Reads.pure

theorem blockIndex_reads (means : Means h a evt) : Reads h (fun n => blockIndex n a) (Stream.blockIndex evt) := by
  obtain ⟨q, found, leads⟩ := getObjectItem_reads (p := some a) (v := some evt) means (cs "index")
  exact Reads.bind found (Reads.bind (intOr_reads leads) Reads.pure)

theorem contentBlockStart_reads (st : stream_state_t) (means : Means h a evt) :
    Reads h (fun n => contentBlockStart n st a) (Stream.contentBlockStart st evt) := by
  refine Reads.bind (blockIndex_reads means) ?_
  unfold Stream.contentBlockStart
  cases Stream.blockIndex evt with
  | none => exact Reads.pure
  | some idx =>
    obtain ⟨cb, found, leads⟩ := getObjectItem_reads (p := some a) (v := some evt) means (cs "content_block")
    exact Reads.bind found (Reads.bind (getString_reads leads "type") (Reads.bind (getString_reads leads "id")
      (Reads.bind (getString_reads leads "name") Reads.pure)))

theorem contentBlockDelta_reads (st : stream_state_t) (means : Means h a evt) :
    Reads h (fun n => contentBlockDelta n st a) (Stream.contentBlockDelta st evt) := by
  refine Reads.bind (blockIndex_reads means) ?_
  unfold Stream.contentBlockDelta
  cases Stream.blockIndex evt with
  | none => exact Reads.pure
  | some idx =>
    simp only
    obtain ⟨d, found, leads⟩ := getObjectItem_reads (p := some a) (v := some evt) means (cs "delta")
    refine Reads.bind found (Reads.bind (getString_reads leads "type") ?_)
    cases Stream.getString (Tinyjson.cJSON_GetObjectItem (some evt) (cs "delta")) "type" with
    | none => exact Reads.pure
    | some dt =>
      simp only
      split_ifs
      · refine Reads.bind (getString_reads leads "text") ?_
        cases Stream.getString (Tinyjson.cJSON_GetObjectItem (some evt) (cs "delta")) "text" <;> exact Reads.pure
      · refine Reads.bind (getString_reads leads "partial_json") ?_
        cases Stream.getString (Tinyjson.cJSON_GetObjectItem (some evt) (cs "delta")) "partial_json" <;> exact Reads.pure
      · exact Reads.pure

theorem messageDelta_reads (st : stream_state_t) (means : Means h a evt) :
    Reads h (fun n => messageDelta n st a) (Stream.messageDelta st evt) := by
  obtain ⟨d, found, leads⟩ := getObjectItem_reads (p := some a) (v := some evt) means (cs "delta")
  refine Reads.bind found (Reads.bind (getString_reads leads "stop_reason") ?_)
  unfold Stream.messageDelta
  cases Stream.getString (Tinyjson.cJSON_GetObjectItem (some evt) (cs "delta")) "stop_reason" <;> exact Reads.pure

end

section
variable (m : Allocator Addr Cell)

/-- An event's nodes are read and deleted. -/
theorem handle_event_spec (st : stream_state_t) (json_str : Bytes) : Triple 1 (fun n => handle_event m n st json_str)
    fun st' => fact (st' = Stream.handle_event st json_str) * 1 := by
  refine Triple.pre (P := 1 * 1) ?_ (le_of_eq (one_mul _).symm)
  refine (parse_total m json_str).call (Triple.whole (fun refused => ?_) fun evt a parsed => ?_)
  · refine Triple.pure (le_fact_mul ?_ le_rfl)
    rw [Stream.handle_event, refused]
  · have type : Triple (json a none evt) (fun n => NodeReading.getString n (some a) (cs "type")) fun s => fact (s = _) * json a none evt :=
      Triple.reads fun _ h holds => ⟨_, getString_reads (json_refers holds) "type", rfl⟩
    refine type.call fun s => ?_
    rw [mul_assoc, mul_one]
    refine Triple.fact ?_
    rintro rfl
    have deleted (st' : stream_state_t) : Triple (json a none evt) (fun n => cJSON_Delete n (some a) >>= fun _ => Pure.pure st')
        fun r => fact (r = st') * 1 :=
      Triple.bind delete_held fun _ => Triple.pure (le_fact_mul rfl le_rfl)
    have done {c : ℕ → C stream_state_t} {st' : stream_state_t} (reads : ∀ h, Means h a evt → Reads h c st') :
        Triple (json a none evt) (fun n => c n >>= fun st => cJSON_Delete n (some a) >>= fun _ => Pure.pure st)
          fun r => fact (r = st') * 1 := by
      have read : Triple (json a none evt) c fun st => fact (st = st') * json a none evt :=
        Triple.reads fun _ h holds => ⟨_, reads h (json_refers holds), rfl⟩
      refine read.bind fun st => Triple.fact ?_
      rintro rfl
      exact deleted st
    cases kind : Stream.getString (some evt) "type" with
    | none =>
      have event : Stream.handle_event st json_str = st := by simp only [Stream.handle_event, parsed, kind]
      rw [event]
      exact deleted st
    | some t =>
      have event : Stream.handle_event st json_str =
          if t = cs "content_block_start" then Stream.contentBlockStart st evt
          else if t = cs "content_block_delta" then Stream.contentBlockDelta st evt
          else if t = cs "message_delta" then Stream.messageDelta st evt
          else st := by
        simp only [Stream.handle_event, parsed, kind]
      rw [event]
      dsimp only
      split_ifs
      · exact done fun h means => contentBlockStart_reads st means
      · exact done fun h means => contentBlockDelta_reads st means
      · exact done fun h means => messageDelta_reads st means
      · exact done fun h means => Reads.pure

theorem onByte_spec (st : stream_state_t) (c : UInt8) : Triple 1 (fun n => onByte m n st c)
    fun st' => fact (st' = Stream.onByte st c) * 1 := by
  unfold onByte Stream.onByte
  split_ifs
  · exact Triple.pure (le_fact_mul rfl le_rfl)
  · refine (handle_event_spec m st _).bind fun st' => Triple.fact ?_
    rintro rfl
    exact Triple.pure (le_fact_mul rfl le_rfl)
  · exact Triple.pure (le_fact_mul rfl le_rfl)
  · exact Triple.pure (le_fact_mul rfl le_rfl)
  · exact Triple.pure (le_fact_mul rfl le_rfl)
  · exact Triple.pure (le_fact_mul rfl le_rfl)

theorem on_chunk_spec (st : stream_state_t) (ptr : Bytes) : Triple 1 (fun n => on_chunk m n st ptr)
    fun st' => fact (st' = Stream.on_chunk st ptr) * 1 := by
  unfold on_chunk Stream.on_chunk
  generalize ({ st with raw_head := _ } : stream_state_t) = st
  induction ptr generalizing st with
  | nil => exact Triple.pure (le_fact_mul rfl le_rfl)
  | cons c ptr ih =>
    simp only [List.foldlM_cons, List.foldl_cons]
    refine (onByte_spec m st c).bind fun st' => Triple.fact ?_
    rintro rfl
    exact ih _

end

section
variable (m : Allocator Addr Cell)

theorem onChunk_each (h : Memory) (st : stream_state_t) (buf : Bytes) (io : Io) : ∀ᶠ n in Filter.atTop,
    onChunkOrInterrupt m n (some (st, h)) buf io =
      ((Http.onChunkOrInterrupt st buf io).1.map fun st => some (st, h), (Http.onChunkOrInterrupt st buf io).2) := by
  obtain ⟨k, runs⟩ := triple_iff_reads.mp (on_chunk_spec m st buf) h
  filter_upwards [Filter.eventually_ge_atTop k] with n enough
  unfold onChunkOrInterrupt Http.onChunkOrInterrupt
  by_cases interrupt : io.poll.1 = true
  · simp only [if_pos interrupt]
    rfl
  · simp only [if_neg interrupt, Option.bind_some, runs n enough]
    rfl

theorem http_post_sse_spec (ex : Exchange) (st : stream_state_t) : Triple 1 (fun n => http_post_sse m n ex st)
    fun post => fact (post = Http.http_post_sse ex st) * 1 := by
  refine triple_iff_reads.mpr fun h => Filter.eventually_atTop.mp ?_
  unfold http_post_sse Http.http_post_sse
  by_cases sent : ex.sent = true
  · simp only [if_pos sent]
    cases http_read_headers ex.reply 8192 with
    | none => exact .of_forall fun _ => rfl
    | some r =>
      obtain ⟨⟨status, chunked, clen⟩, io⟩ := r
      simp only
      by_cases rejected : status ≠ 200
      · simp only [if_pos rejected]
        exact .of_forall fun _ => trivial
      · simp only [if_neg rejected]
        filter_upwards [stream_body_through (onChunk_each m h) chunked clen st io] with n body
        rw [body]
        rfl
  · simp only [if_neg sent]
    exact .of_forall fun _ => trivial

theorem contextError_spec (raw_head : Bytes) : Triple 1 (fun n => contextError m n raw_head)
    fun b => fact (b = Http.contextError raw_head) * 1 := by
  refine Triple.pre (P := 1 * 1) ?_ (le_of_eq (one_mul _).symm)
  refine (parse_total m raw_head).call (Triple.whole (fun refused => ?_) fun j a parsed => ?_)
  · refine Triple.pure (le_fact_mul ?_ le_rfl)
    rw [Http.contextError, refused]
  · have message : Triple (json a none j) (fun n => cJSON_GetObjectItem n (some a) (cs "error") >>= fun e =>
        NodeReading.getString n e (cs "message"))
        fun s => fact (s = Stream.getString (Tinyjson.cJSON_GetObjectItem (some j) (cs "error")) "message") * json a none j := by
      refine Triple.reads fun _ h holds => ⟨_, ?_, rfl⟩
      obtain ⟨e, found, leads⟩ := getObjectItem_reads (json_refers holds) (cs "error")
      exact Reads.bind found (getString_reads leads "message")
    simp only [← bind_assoc (cJSON_GetObjectItem _ _ _)]
    refine message.call fun s => ?_
    rw [mul_assoc, mul_one]
    refine Triple.fact ?_
    rintro rfl
    refine Triple.bind delete_held fun _ => ?_
    rw [Http.contextError, parsed]
    simp only
    cases Stream.getString (Tinyjson.cJSON_GetObjectItem (some j) (cs "error")) "message" with
    | none => exact Triple.pure (le_fact_mul rfl le_rfl)
    | some message => exact Triple.pure (le_fact_mul rfl le_rfl)

/-- An exchange leaves the memory as it was. -/
theorem do_turn_spec (ex : Exchange) (st : stream_state_t) : Triple 1 (fun n => do_turn m n ex st)
    fun r => fact (r = Http.do_turn ex st) * 1 := by
  refine (http_post_sse_spec m ex st).bind fun post => Triple.fact ?_
  rintro rfl
  unfold Http.do_turn
  simp only
  split_ifs
  · exact Triple.pure (le_fact_mul rfl le_rfl)
  · exact Triple.pure (le_fact_mul rfl le_rfl)
  · exact Triple.pure (le_fact_mul rfl le_rfl)
  · next _ _ _ _ overflow =>
    refine (contextError_spec m _).bind fun context_err => Triple.fact fun found => Triple.pure (le_fact_mul ?_ le_rfl)
    rw [found, if_pos overflow]
  · next _ _ _ _ overflow =>
    refine (contextError_spec m _).bind fun context_err => Triple.fact fun found => Triple.pure (le_fact_mul ?_ le_rfl)
    rw [found, if_neg overflow]
  · exact Triple.pure (le_fact_mul rfl le_rfl)

theorem contentItems_cons {b : block_t} {bs : List block_t} (used : b.type ≠ emptyString) (xs : List Tinyjson.cJSON)
    {obj : Tinyjson.cJSON} (item : blockItem b = some obj) : (contentItems (b :: bs)).map (fun items => Tinyjson.cJSON.array (xs ++ items)) =
      (contentItems bs).map fun items => .array (xs ++ [obj] ++ items) := by
  rw [contentItems, if_neg used, item, Option.map_map]
  simp only [List.append_assoc, List.singleton_append]
  rfl

theorem toolInput_spec (b : block_t) : Triple 1 (fun n => toolInput m n b)
    (whole (if 0 < b.partial_json.val.length then Parser.cJSON_Parse b.partial_json.val else none)) := by
  unfold toolInput
  split_ifs
  · exact parse_total m _
  · exact Triple.pure le_rfl

theorem contentLoop_spec (arr : Addr) (bs : List block_t) : ∀ xs : List Tinyjson.cJSON,
    Triple (json arr none (.array xs)) (fun n => contentLoop m n arr bs)
      (whole ((contentItems bs).map fun items => .array (xs ++ items))) := by
  induction bs with
  | nil =>
    intro xs
    refine Triple.pure ?_
    rw [contentItems, Option.map_some, List.append_nil]
    exact le_rfl
  | cons b bs ih =>
    intro xs
    -- The item goes to the array, and the loop goes on.
    have goesOn {obj : Addr} {item : Tinyjson.cJSON} (used : b.type ≠ emptyString) (made : blockItem b = some item) :
        Triple (json obj none item * json arr none (.array xs))
          (fun n => cJSON_AddItemToArray n (some arr) (some obj) >>= fun _ => contentLoop m n arr bs)
          (whole ((contentItems (b :: bs)).map fun items => .array (xs ++ items))) := by
      rw [mul_comm, contentItems_cons used xs made]
      exact Triple.bind addToArray_json fun _ => ih _
    simp only [contentLoop]
    by_cases unused : b.type = emptyString
    · simp only [if_pos unused]
      rw [contentItems, if_pos unused]
      exact ih xs
    simp only [if_neg unused]
    rw [← one_mul (json arr none _)]
    refine (createObject_json m).call fun obj => (addString_json m _ _).call fun _ => ?_
    by_cases text : b.type = cs "text"
    · simp only [if_pos text]
      refine (addString_json m _ _).call fun _ => goesOn unused ?_
      rw [blockItem, if_pos text]
      rfl
    simp only [if_neg text]
    by_cases tool : b.type = cs "tool_use"
    · simp only [if_pos tool]
      refine (addString_json m _ _).call fun _ => (addString_json m _ _).call fun _ => ?_
      -- All that was made so far is deleted where the input is refused.
      have refuse (none : Stream.toolInput b = none) {ms : List (CString × Tinyjson.cJSON)} : Triple (json obj Option.none (.object ms) *
          json arr Option.none (.array xs)) (fun n => cJSON_Delete n (some obj) >>= fun _ => cJSON_Delete n (some arr) >>=
            fun _ => Pure.pure Option.none) (whole ((contentItems (b :: bs)).map fun items => .array (xs ++ items))) := by
        refine delete_held.call fun _ => ?_
        rw [one_mul]
        refine Triple.bind delete_held fun _ => Triple.pure ?_
        rw [contentItems, if_neg unused, blockItem, if_neg text, if_pos tool, none]
        exact le_rfl
      rw [← one_mul (json obj none _ * _)]
      refine (toolInput_spec m b).call (Triple.whole (fun missing => ?_) fun input a there => ?_)
      · have none : Stream.toolInput b = none := by
          rw [Stream.toolInput]
          simp only [missing]
          rfl
        simp only [cJSON_GetArraySize, pure_bind, if_true, delete_none]
        exact refuse none
      · have size : Triple (json a none input) (fun n => cJSON_GetArraySize n (some a))
            fun size => fact (size = Tinyjson.cJSON_GetArraySize (some input)) * json a none input :=
          Triple.reads fun _ h holds => ⟨_, getArraySize_reads (json_refers holds), rfl⟩
        refine size.call fun size => ?_
        rw [mul_assoc]
        refine Triple.fact ?_
        rintro rfl
        by_cases empty : Tinyjson.cJSON_GetArraySize (some input) = 0
        · simp only [if_pos empty]
          refine delete_held.call fun _ => ?_
          rw [one_mul]
          refine refuse ?_
          rw [Stream.toolInput]
          simp only [there, if_pos empty]
        · simp only [if_neg empty]
          have accepted : Stream.toolInput b = some input := by
            rw [Stream.toolInput]
            simp only [there, if_neg empty]
          refine Triple.pre (P := json obj none _ * json a none input * json arr none (.array xs)) ?_ (le_of_eq (by ac_rfl))
          refine (addToObject_json m _).call fun _ => goesOn unused ?_
          rw [blockItem, if_neg text, if_pos tool, accepted]
          rfl
    · simp only [if_neg tool]
      refine goesOn unused ?_
      rw [blockItem, if_neg text, if_neg tool]
      rfl

/-- The content of the blocks in use, or nothing. -/
theorem blocks_to_content_spec (st : stream_state_t) : Triple 1 (fun n => blocks_to_content m n st)
    (whole (Stream.blocks_to_content st)) := by
  refine (createArray_json m).bind fun arr => ?_
  exact contentLoop_spec m arr st.active []

end

end Sa.NodeStream
