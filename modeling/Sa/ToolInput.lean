import Sa.Readings
import Sa.Stream

/-!
# Inputs of tool calls

A block's input only grows while its deltas arrive, and the parser decides an
array or an object by a prefix of the text. So an input that is accepted once is
the input of the call, however much of it still arrives.
-/

namespace Sa.ToolInput
open Sa.CStrings Sa.Tinyjson Sa.Parser Sa.Readings Sa.Stream

/-- The event starts the block anew. -/
def StartsBlock (i : Fin MAX_BLOCKS) (json_str : Bytes) : Prop :=
  ∃ evt, cJSON_Parse json_str = some evt ∧ getString (some evt) "type" = some (cs "content_block_start") ∧
    blockIndex evt = some i

/-- The same block with more in its buffers. -/
structure Grows (b b' : block_t) : Prop where
  type : b'.type = b.type
  id : b'.id = b.id
  name : b'.name = b.name
  text : b.text.val <+: b'.text.val
  partial_json : b.partial_json.val <+: b'.partial_json.val

theorem grows_refl (b : block_t) : Grows b b := ⟨rfl, rfl, rfl, List.prefix_rfl, List.prefix_rfl⟩

theorem grows_trans {b b' b'' : block_t} (first : Grows b b') (second : Grows b' b'') : Grows b b'' :=
  ⟨second.type.trans first.type, second.id.trans first.id, second.name.trans first.name,
    first.text.trans second.text, first.partial_json.trans second.partial_json⟩

theorem prefix_appendCapped (buf s : CString) : buf.val <+: (appendCapped buf s).val := by
  unfold appendCapped
  split
  · exact List.prefix_append _ _
  · exact List.prefix_rfl

theorem contentBlockStart_blocks {st : stream_state_t} {evt : cJSON} {i : Fin MAX_BLOCKS}
    (other : blockIndex evt ≠ some i) : (contentBlockStart st evt).blocks i = st.blocks i := by
  unfold contentBlockStart
  cases index : blockIndex evt with
  | none => rfl
  | some idx =>
    have apart : i ≠ idx := by rintro rfl; exact other index
    exact setBlock_of_ne apart st _

/-- A delta leaves everything as it is, or adds to the block it is for. -/
theorem contentBlockDelta_cases (st : stream_state_t) (evt : cJSON) : contentBlockDelta st evt = st ∨
    ∃ idx b, blockIndex evt = some idx ∧ Grows (st.blocks idx) b ∧ contentBlockDelta st evt = st.setBlock idx b := by
  unfold contentBlockDelta
  cases blockIndex evt with
  | none => exact .inl rfl
  | some idx =>
    simp only
    split
    · exact .inl rfl
    · split_ifs
      · split
        · exact .inl rfl
        · refine .inr ⟨idx, _, rfl, ?_, rfl⟩
          exact ⟨rfl, rfl, rfl, prefix_appendCapped _ _, List.prefix_rfl⟩
      · split
        · exact .inl rfl
        · refine .inr ⟨idx, _, rfl, ?_, rfl⟩
          exact ⟨rfl, rfl, rfl, List.prefix_rfl, prefix_appendCapped _ _⟩
      · exact .inl rfl

theorem contentBlockDelta_grows (st : stream_state_t) (evt : cJSON) (i : Fin MAX_BLOCKS) :
    Grows (st.blocks i) ((contentBlockDelta st evt).blocks i) := by
  rcases contentBlockDelta_cases st evt with same | ⟨idx, b, -, grows, set⟩
  · rw [same]
    exact grows_refl _
  · rw [set]
    by_cases here : i = idx
    · subst here
      simpa using grows
    · rw [setBlock_of_ne here]
      exact grows_refl _

/-- An event starts the block anew, or adds to its buffers. -/
theorem handle_event_block (st : stream_state_t) (json_str : Bytes) (i : Fin MAX_BLOCKS) :
    StartsBlock i json_str ∨ Grows (st.blocks i) ((handle_event st json_str).blocks i) := by
  unfold handle_event
  cases parsed : cJSON_Parse json_str with
  | none => exact .inr (grows_refl _)
  | some evt =>
    cases kind : getString (some evt) "type" with
    | none => right; simp only [kind]; exact grows_refl _
    | some t =>
      simp only [kind]
      split_ifs with start delta
      · by_cases here : blockIndex evt = some i
        · exact .inl ⟨evt, parsed, by rw [kind, start], here⟩
        · right
          rw [contentBlockStart_blocks here]
          exact grows_refl _
      · exact .inr (contentBlockDelta_grows st evt i)
      · right
        unfold messageDelta
        split <;> exact grows_refl _
      · exact .inr (grows_refl _)

theorem events_grow {i : Fin MAX_BLOCKS} {events : List Bytes} (kept : ∀ e ∈ events, ¬StartsBlock i e)
    (st : stream_state_t) : Grows (st.blocks i) ((events.foldl handle_event st).blocks i) := by
  induction events generalizing st with
  | nil => exact grows_refl _
  | cons e events ih =>
    have first := (handle_event_block st e i).resolve_left (kept e (by simp))
    exact grows_trans first (ih (fun e' member => kept e' (by simp [member])) _)

theorem container_of_child {v : cJSON} (some : v.child ≠ []) : isContainer v = true := by
  cases v <;> simp_all [cJSON.child, isContainer]

theorem cJSON_Parse_eq (s : CString) : cJSON_Parse s.val = (cj_parse_value s.val).map Prod.fst := by
  rw [cJSON_Parse, cstr_val]

/-- An accepted input stays what it is while the block grows. -/
theorem toolInput_grows {b b' : block_t} (grows : Grows b b') {input : cJSON} (accepted : toolInput b = some input) :
    toolInput b' = some input := by
  unfold toolInput at accepted
  simp only at accepted
  split_ifs at accepted with someBytes empty
  obtain ⟨rest, whole⟩ := grows.partial_json
  rw [cJSON_Parse_eq] at accepted empty
  obtain ⟨⟨v, r⟩, read, rfl⟩ := Option.map_eq_some_iff.mp accepted
  have children : v.child ≠ [] := by
    intro none
    exact empty (by simp [read, cJSON_GetArraySize, none])
  have later := parse_append read (container_of_child children) rest
  rw [whole] at later
  have size : 0 < b'.partial_json.val.length := by
    rw [← whole, List.length_append]
    omega
  unfold toolInput
  simp only [size, if_true]
  rw [cJSON_Parse_eq, later]
  simp [cJSON_GetArraySize, children]

theorem blockItem_grows {b b' : block_t} (grows : Grows b b') (tool : b.type = cs "tool_use") {obj : cJSON}
    (accepted : blockItem b = some obj) : blockItem b' = some obj := by
  have noText : cs "tool_use" ≠ cs "text" := by decide
  unfold blockItem at accepted ⊢
  rw [grows.type, grows.id, grows.name]
  rw [tool, if_neg noText, if_pos rfl] at accepted ⊢
  obtain ⟨input, read, rfl⟩ := Option.map_eq_some_iff.mp accepted
  rw [toolInput_grows grows read]
  rfl

theorem contentItems_mono {bs bs' : List block_t} (each : List.Forall₂ (fun b b' => b'.type = b.type ∧
    ∀ obj, blockItem b = some obj → blockItem b' = some obj) bs bs') {items : List cJSON}
    (accepted : contentItems bs = some items) : contentItems bs' = some items := by
  induction each generalizing items with
  | nil => exact accepted
  | @cons b b' bs bs' first rest ih =>
    rw [contentItems] at accepted ⊢
    rw [first.1]
    split_ifs at accepted ⊢ with skipped
    · exact ih accepted
    · cases item : blockItem b with
      | none => simp [item] at accepted
      | some obj =>
        simp only [item] at accepted
        obtain ⟨items', later, rfl⟩ := Option.map_eq_some_iff.mp accepted
        simp only [first.2 obj item, ih later, Option.map_some]

/-- An event that adds to the input of one block. -/
def IsInputDelta (i : Fin MAX_BLOCKS) (json_str : Bytes) : Prop :=
  ∃ evt pj, cJSON_Parse json_str = some evt ∧ getString (some evt) "type" = some (cs "content_block_delta") ∧
    blockIndex evt = some i ∧
    getString (cJSON_GetObjectItem (some evt) (cs "delta")) "type" = some (cs "input_json_delta") ∧
    getString (cJSON_GetObjectItem (some evt) (cs "delta")) "partial_json" = some pj

theorem handle_event_input {i : Fin MAX_BLOCKS} {json_str : Bytes} (delta : IsInputDelta i json_str)
    (st : stream_state_t) : ∃ b, Grows (st.blocks i) b ∧
      handle_event st json_str = st.setBlock i b := by
  obtain ⟨evt, pj, parsed, kind, index, inner, text⟩ := delta
  refine ⟨{ st.blocks i with partial_json := appendCapped (st.blocks i).partial_json pj },
    ⟨rfl, rfl, rfl, List.prefix_rfl, prefix_appendCapped _ _⟩, ?_⟩
  unfold handle_event
  simp only [parsed, kind]
  rw [if_neg delta_ne_start, if_pos trivial]
  unfold contentBlockDelta
  simp only [index, inner, text]
  rw [if_neg input_ne_text, if_pos trivial]

theorem inputs_only {i : Fin MAX_BLOCKS} {events : List Bytes} (deltas : ∀ e ∈ events, IsInputDelta i e)
    (st : stream_state_t) : ∃ b, Grows (st.blocks i) b ∧
      events.foldl handle_event st = st.setBlock i b := by
  induction events generalizing st with
  | nil => exact ⟨st.blocks i, grows_refl _, by simp⟩
  | cons e events ih =>
    obtain ⟨b, first, step⟩ := handle_event_input (deltas e (by simp)) st
    obtain ⟨b', second, rest⟩ := ih (fun e' member => deltas e' (by simp [member])) (handle_event st e)
    rw [step] at second rest
    rw [setBlock_self] at second
    exact ⟨b', grows_trans first second, by rw [List.foldl_cons, step, rest, setBlock_setBlock]⟩

/-- The parser decides an array or an object by the text up to its end, and so a
    tool call that is accepted with a part of its deltas is the same call with
    more of them. -/
theorem tool_input_stable :
    (∀ (t : CString) (v : cJSON) (r : Bytes), cj_parse_value t.val = some (v, r) → isContainer v = true →
      ∀ k, (k < t.val.length - r.length → cJSON_Parse (t.val.take k) = none) ∧
        (t.val.length - r.length ≤ k → cJSON_Parse (t.val.take k) = some v)) ∧
    (∀ (st : stream_state_t) (i : Fin MAX_BLOCKS) (events : List Bytes), (∀ e ∈ events, ¬StartsBlock i e) →
      ∀ j m, j ≤ m → ∀ input, toolInput (((events.take j).foldl handle_event st).blocks i) = some input →
        toolInput (((events.take m).foldl handle_event st).blocks i) = some input) ∧
    (∀ (st : stream_state_t) (i : Fin MAX_BLOCKS) (events : List Bytes), (st.blocks i).type = cs "tool_use" →
      (∀ e ∈ events, IsInputDelta i e) → ∀ j m, j ≤ m → ∀ content,
        blocks_to_content ((events.take j).foldl handle_event st) = some content →
          blocks_to_content ((events.take m).foldl handle_event st) = some content) := by
  have later : ∀ (st : stream_state_t) (events : List Bytes) {j m : Nat}, j ≤ m →
      (events.take m).foldl handle_event st =
        ((events.take m).drop j).foldl handle_event ((events.take j).foldl handle_event st) := by
    intro st events j m le
    have split : events.take m = events.take j ++ (events.take m).drop j := by
      conv_lhs => rw [← List.take_append_drop j (events.take m), List.take_take, Nat.min_eq_left le]
    conv_lhs => rw [split, List.foldl_append]
  have inside : ∀ {events : List Bytes} {j m : Nat} {e : Bytes}, e ∈ (events.take m).drop j → e ∈ events :=
    fun member => List.mem_of_mem_take (List.mem_of_mem_drop member)
  refine ⟨?_, ?_, ?_⟩
  · intro t v r read container k
    have free : 0 ∉ t.val.take k := fun member => t.property (List.mem_of_mem_take member)
    rw [cJSON_Parse, cstr_of_nulFree free]
    constructor
    · intro early
      rw [parse_cut read container early]
      rfl
    · intro late
      obtain ⟨r', read'⟩ := parse_extend read container late
      rw [read']
      rfl
  · intro st i events kept j m le input accepted
    rw [later st events le]
    exact toolInput_grows (events_grow (fun e member => kept e (inside member)) _) accepted
  · intro st i events tool deltas j m le content accepted
    obtain ⟨b₀, grows₀, first⟩ := inputs_only (fun e member => deltas e (List.mem_of_mem_take member)) st
    obtain ⟨b, grows, rest⟩ := @inputs_only i ((events.take m).drop j) (fun e member => deltas e (inside member))
      ((events.take j).foldl handle_event st)
    rw [later st events le, rest]
    rw [first] at accepted grows ⊢
    rw [setBlock_self] at grows
    obtain ⟨items, read, rfl⟩ := Option.map_eq_some_iff.mp accepted
    refine Option.map_eq_some_iff.mpr ⟨items, contentItems_mono ?_ read, rfl⟩
    -- Block by block, only the one that grows differs.
    unfold stream_state_t.active
    rw [List.forall₂_map_left_iff, List.forall₂_map_right_iff]
    refine List.forall₂_same.mpr fun k _ => ?_
    by_cases here : k = i
    · subst here
      rw [setBlock_self, setBlock_self]
      exact ⟨grows.type, fun obj => blockItem_grows grows (grows₀.type.trans tool)⟩
    · rw [setBlock_of_ne here, setBlock_of_ne here]
      exact ⟨rfl, fun _ => id⟩

/-- A call of a tool, and an event that adds a whole array to its input. -/
private def started : stream_state_t :=
  { initial.setBlock 0 { emptyBlock with type := cs "tool_use" } with n := ⟨1, by decide⟩ }
private def delta : Bytes :=
  lit "\x7b\"type\":\"content_block_delta\",\"index\":0,\"delta\":\x7b\"type\":\"input_json_delta\",\"partial_json\":\"[[]]\"\x7d\x7d"

/-- What the event is and what is accepted after it. -/
private theorem delta_read :
    ((cJSON_Parse delta).any fun evt =>
      getString (some evt) "type" = some (cs "content_block_delta") ∧ blockIndex evt = some 0 ∧
        getString (cJSON_GetObjectItem (some evt) (cs "delta")) "type" = some (cs "input_json_delta") ∧
        getString (cJSON_GetObjectItem (some evt) (cs "delta")) "partial_json" = some (cs "[[]]")) ∧
    (toolInput (([delta].foldl handle_event started).blocks 0)).isSome ∧
    (blocks_to_content ([delta].foldl handle_event started)).isSome := by decide +kernel

private theorem call_accepted : (toolInput (([delta].foldl handle_event started).blocks 0)).isSome := delta_read.2.1
private theorem content_accepted : (blocks_to_content ([delta].foldl handle_event started)).isSome := delta_read.2.2

theorem tool_input_stable_array :
    cJSON_Parse ((cs "[[]],").val.take 3) = none ∧ cJSON_Parse ((cs "[[]],").val.take 5) = some (.array [.array []]) ∧
      toolInput (([delta, delta].foldl handle_event started).blocks 0) =
        some ((toolInput (([delta].foldl handle_event started).blocks 0)).get call_accepted) ∧
      blocks_to_content ([delta, delta].foldl handle_event started) =
        some ((blocks_to_content ([delta].foldl handle_event started)).get content_accepted) := by
  have isDelta : IsInputDelta 0 delta := by
    obtain ⟨evt, parsed, fields⟩ := (Option.any_eq_true _ _).mp delta_read.1
    exact ⟨evt, cs "[[]]", parsed, of_decide_eq_true fields⟩
  have deltas : ∀ e ∈ [delta, delta], IsInputDelta 0 e := by simpa using isDelta
  have kept : ∀ e ∈ [delta, delta], ¬StartsBlock 0 e := by
    intro e member
    obtain ⟨evt, pj, read, kind, -⟩ := deltas e member
    rintro ⟨evt', read', kind', -⟩
    rw [read] at read'
    cases read'
    rw [kind] at kind'
    exact absurd kind' (by decide)
  have text := tool_input_stable.1 (cs "[[]],") (.array [.array []]) [44] rfl rfl
  refine ⟨(text 3).1 (by decide), (text 5).2 (by decide), ?_, ?_⟩
  · exact tool_input_stable.2.1 started 0 [delta, delta] kept 1 2 (by decide) _ (Option.some_get call_accepted).symm
  · exact tool_input_stable.2.2 started 0 [delta, delta] rfl deltas 1 2 (by decide) _ (Option.some_get content_accepted).symm

end Sa.ToolInput
