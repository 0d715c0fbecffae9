import Mathlib.Data.List.FinRange
import Mathlib.Logic.Function.Basic
import Sa.Parser

/-!
# The event stream

What a reply accumulates in a `stream_state_t`: `on_chunk` cuts the body into
lines, `handle_event` applies the events in them, and `blocks_to_content` turns
the blocks into the content of the assistant's message. What is written to the
terminal is left out.
-/

namespace Sa.Stream
open Sa.CStrings Sa.Tinyjson Sa.Parser

abbrev MAX_BLOCKS : Nat := 64
abbrev MAX_SSE_LINE : Nat := 1 <<< 20
abbrev MAX_BLOCK_SIZE : Nat := 1 <<< 20
/-- `sizeof st->raw_head`. -/
abbrev RAW_HEAD : Nat := 4096

/-- The buffers only take the bytes of C strings. -/
structure block_t where
  type : CString
  id : CString
  name : CString
  text : CString
  partial_json : CString

def emptyString : CString := ⟨[], by simp⟩

def emptyBlock : block_t := ⟨emptyString, emptyString, emptyString, emptyString, emptyString⟩

/-- `raw_head` holds the bytes written so far; `n` counts the blocks in use. -/
structure stream_state_t where
  blocks : Fin MAX_BLOCKS → block_t
  n : Fin (MAX_BLOCKS + 1)
  line : Bytes
  line_dropped : Bool
  raw_head : Bytes
  stop_reason : CString

def stream_state_t.setBlock (st : stream_state_t) (i : Fin MAX_BLOCKS) (b : block_t) : stream_state_t :=
  { st with blocks := Function.update st.blocks i b }

@[simp] theorem setBlock_self (st : stream_state_t) (i : Fin MAX_BLOCKS) (b : block_t) :
    (st.setBlock i b).blocks i = b := by
  simp [stream_state_t.setBlock]

theorem setBlock_of_ne {i j : Fin MAX_BLOCKS} (other : j ≠ i) (st : stream_state_t) (b : block_t) :
    (st.setBlock i b).blocks j = st.blocks j := by
  simp [stream_state_t.setBlock, other]

@[simp] theorem setBlock_setBlock (st : stream_state_t) (i : Fin MAX_BLOCKS) (b b' : block_t) :
    (st.setBlock i b).setBlock i b' = st.setBlock i b' := by
  simp [stream_state_t.setBlock]

@[simp] theorem setBlock_blocks (st : stream_state_t) (i : Fin MAX_BLOCKS) : st.setBlock i (st.blocks i) = st := by
  simp [stream_state_t.setBlock]

/-- `stream_state_t st = {0}`. -/
def initial : stream_state_t := ⟨fun _ => emptyBlock, 0, [], false, [], emptyString⟩

def getString (item : Option cJSON) (key : String) : Option CString :=
  cJSON_GetStringValue (cJSON_GetObjectItem item (cs key))

/-- The event's `index`, if it is one of a block. -/
def blockIndex (evt : cJSON) : Option (Fin MAX_BLOCKS) :=
  let idx := intOr (cJSON_GetObjectItem (some evt) (cs "index"))
  if inside : 0 ≤ idx ∧ idx < MAX_BLOCKS then some ⟨idx.toNat, by omega⟩ else none

/-- `buf_append` of what fits under the cap. -/
def appendCapped (buf s : CString) : CString :=
  if buf.val.length < MAX_BLOCK_SIZE then
    ⟨buf.val ++ s.val.take (MAX_BLOCK_SIZE - buf.val.length), by
      intro member
      rcases List.mem_append.mp member with first | second
      · exact buf.property first
      · exact s.property (List.mem_of_mem_take second)⟩
  else buf

/-- A member's string in a field of `size` bytes, empty when there is none. -/
def field (size : Nat) (s : Option CString) : CString :=
  match s with
  | some s => strncpy size s
  | none => emptyString

def contentBlockStart (st : stream_state_t) (evt : cJSON) : stream_state_t :=
  match blockIndex evt with
  | none => st
  | some idx =>
    let cb := cJSON_GetObjectItem (some evt) (cs "content_block")
    let b : block_t :=
      { type := field 32 (getString cb "type")
        id := field 64 (getString cb "id")
        name := field 64 (getString cb "name")
        text := emptyString
        partial_json := emptyString }
    { st.setBlock idx b with n := if st.n.val < idx.val + 1 then idx.succ else st.n }

def contentBlockDelta (st : stream_state_t) (evt : cJSON) : stream_state_t :=
  match blockIndex evt with
  | none => st
  | some idx =>
    let d := cJSON_GetObjectItem (some evt) (cs "delta")
    match getString d "type" with
    | none => st
    | some dt =>
      let b := st.blocks idx
      if dt = cs "text_delta" then
        match getString d "text" with
        | none => st
        | some txt => st.setBlock idx { b with text := appendCapped b.text txt }
      else if dt = cs "input_json_delta" then
        match getString d "partial_json" with
        | none => st
        | some pj => st.setBlock idx { b with partial_json := appendCapped b.partial_json pj }
      else st

def messageDelta (st : stream_state_t) (evt : cJSON) : stream_state_t :=
  match getString (cJSON_GetObjectItem (some evt) (cs "delta")) "stop_reason" with
  | none => st
  | some sr => { st with stop_reason := strncpy 32 sr }

theorem delta_ne_start : cs "content_block_delta" ≠ cs "content_block_start" := by decide
theorem input_ne_text : cs "input_json_delta" ≠ cs "text_delta" := by decide

/-- An `error` event is only printed. -/
def handle_event (st : stream_state_t) (json_str : Bytes) : stream_state_t :=
  match cJSON_Parse json_str with
  | none => st
  | some evt =>
    match getString (some evt) "type" with
    | none => st
    | some t =>
      if t = cs "content_block_start" then contentBlockStart st evt
      else if t = cs "content_block_delta" then contentBlockDelta st evt
      else if t = cs "message_delta" then messageDelta st evt
      else st

/-- What follows `data:` in a line, without one space. -/
def eventData (line : Bytes) : Bytes :=
  match line.drop 5 with
  | 32 :: p => p
  | p => p

/-- One pass of the loop of `on_chunk`. -/
def onByte (st : stream_state_t) (c : UInt8) : stream_state_t :=
  if c = 10 then
    if st.line_dropped then { st with line_dropped := false, line := [] }
    else if 5 < st.line.length ∧ st.line.take 5 = lit "data:" then
      { handle_event st (eventData st.line) with line := [] }
    else { st with line := [] }
  else if c ≠ 13 then
    if MAX_SSE_LINE ≤ st.line.length then { st with line_dropped := true }
    else { st with line := st.line ++ [c] }
  else st

/-- `on_chunk` without an interrupt; it takes the whole chunk. -/
def on_chunk (st : stream_state_t) (ptr : Bytes) : stream_state_t :=
  ptr.foldl onByte { st with raw_head := st.raw_head ++ ptr.take (RAW_HEAD - st.raw_head.length) }

/-- The input of a tool call, when it is there and not empty. -/
def toolInput (b : block_t) : Option cJSON :=
  let input := if 0 < b.partial_json.val.length then cJSON_Parse b.partial_json.val else none
  if cJSON_GetArraySize input = 0 then none else input

/-- The content item of a block; none where the source gives up. -/
def blockItem (b : block_t) : Option cJSON :=
  if b.type = cs "text" then some (.object [(cs "type", .string b.type), (cs "text", .string b.text)])
  else if b.type = cs "tool_use" then
    (toolInput b).map fun input =>
      .object [(cs "type", .string b.type), (cs "id", .string b.id), (cs "name", .string b.name), (cs "input", input)]
  else some (.object [(cs "type", .string b.type)])

/-- The blocks in use, in order. -/
def stream_state_t.active (st : stream_state_t) : List block_t :=
  ((List.finRange MAX_BLOCKS).take st.n).map st.blocks

/-- The loop of `blocks_to_content` over the blocks in use. -/
def contentItems : List block_t → Option (List cJSON)
  | [] => some []
  | b :: bs =>
    if b.type = emptyString then contentItems bs
    else
      match blockItem b with
      | none => none
      | some obj => (contentItems bs).map fun items => obj :: items

def blocks_to_content (st : stream_state_t) : Option cJSON := (contentItems st.active).map .array

end Sa.Stream
