import Sa.Readings
import Sa.Stream

/-!
# The content of a reply

Which content arrays `blocks_to_content` lets through. It gives up on a tool call
whose input is missing, malformed or empty, but not on a reply without blocks, on
blocks of other types, or on inputs that are arrays (`content_sendable`).
-/

namespace Sa.Content
open Sa.CStrings Sa.Tinyjson Sa.JsonGrammar Sa.Parser Sa.Readings Sa.Stream

def hasType (item : cJSON) (type : String) : Prop := getString (some item) "type" = some (cs type)

/-- A text with its string, or a tool call whose input is an object with members. -/
def Sendable (item : cJSON) : Prop :=
  hasType item "text" ∧ (∃ text, getString (some item) "text" = some text) ∨
    hasType item "tool_use" ∧ (∃ id, getString (some item) "id" = some id) ∧
      (∃ name, getString (some item) "name" = some name) ∧
      ∃ members, members ≠ [] ∧ cJSON_GetObjectItem (some item) (cs "input") = some (.object members)

/-- A content that the next request can hold. -/
def SendableContent (content : cJSON) : Prop :=
  ∃ items, content = .array items ∧ items ≠ [] ∧ ∀ item ∈ items, Sendable item

/-- A tool call whose input is missing, malformed or empty. -/
def Refused (b : block_t) : Prop :=
  b.type = cs "tool_use" ∧ ∀ input, cJSON_Parse b.partial_json.val = some input → input.child = []

/-- A text, or a tool call whose input is an object with members. -/
def Proper (b : block_t) : Prop :=
  b.type = cs "text" ∨ b.type = cs "tool_use" ∧
    ∃ members, members ≠ [] ∧ cJSON_Parse b.partial_json.val = some (.object members)

private theorem types : cs "tool_use" ≠ cs "text" ∧ cs "tool_use" ≠ emptyString ∧ cs "text" ≠ emptyString := by decide

private theorem keys : cs "type" ≠ cs "text" ∧ cs "type" ≠ cs "id" ∧ cs "type" ≠ cs "name" ∧ cs "type" ≠ cs "input" ∧
    cs "id" ≠ cs "name" ∧ cs "id" ≠ cs "input" ∧ cs "name" ≠ cs "input" := by decide

theorem toolInput_eq (b : block_t) :
    toolInput b = if cJSON_GetArraySize (cJSON_Parse b.partial_json.val) = 0 then none else cJSON_Parse b.partial_json.val := by
  unfold toolInput
  by_cases some : 0 < b.partial_json.val.length
  · simp only [if_pos some]
  · have empty : b.partial_json.val = [] := by simpa using some
    rw [empty]
    rfl

theorem toolInput_none {b : block_t} (tool : b.type = cs "tool_use") : toolInput b = none ↔ Refused b := by
  rw [toolInput_eq]
  unfold Refused cJSON_GetArraySize
  cases cJSON_Parse b.partial_json.val with
  | none => simp [tool]
  | some v => simp [tool]

theorem blockItem_none {b : block_t} : blockItem b = none ↔ Refused b := by
  unfold blockItem
  by_cases text : b.type = cs "text"
  · rw [if_pos text]
    exact iff_of_false (by simp) fun refused => types.1 (refused.1.symm.trans text)
  rw [if_neg text]
  by_cases tool : b.type = cs "tool_use"
  · rw [if_pos tool, Option.map_eq_none_iff, toolInput_none tool]
  · rw [if_neg tool]
    exact iff_of_false (by simp) fun refused => tool refused.1

theorem blockItem_sendable {b : block_t} {item : cJSON} (made : blockItem b = some item) : Sendable item ↔ Proper b := by
  unfold blockItem at made
  by_cases text : b.type = cs "text"
  · rw [if_pos text] at made
    cases made
    refine iff_of_true (.inl ⟨?_, b.text, ?_⟩) (.inl text)
    · simp [hasType, getString, getObjectItem_cons, cJSON_GetStringValue, text]
    · simp [getString, getObjectItem_cons, cJSON_GetStringValue, keys]
  rw [if_neg text] at made
  by_cases tool : b.type = cs "tool_use"
  · rw [if_pos tool] at made
    obtain ⟨input, accepted, rfl⟩ := Option.map_eq_some_iff.mp made
    rw [toolInput_eq] at accepted
    split_ifs at accepted with empty
    simp [Sendable, Proper, hasType, getString, getObjectItem_cons, cJSON_GetStringValue, keys, types, tool, accepted]
  · rw [if_neg tool] at made
    cases made
    simp [Sendable, Proper, hasType, getString, getObjectItem_cons, cJSON_GetStringValue, text, tool]

theorem contentItems_none {bs : List block_t} : contentItems bs = none ↔ ∃ b ∈ bs, Refused b := by
  induction bs with
  | nil => simp [contentItems]
  | cons b bs ih =>
    rw [contentItems]
    by_cases unused : b.type = emptyString
    · have kept : ¬Refused b := fun refused => types.2.1 (refused.1.symm.trans unused)
      rw [if_pos unused, ih]
      simp [kept]
    rw [if_neg unused]
    cases item : blockItem b with
    | none => simp [blockItem_none.mp item]
    | some obj =>
      have kept : ¬Refused b := fun refused => by
        rw [blockItem_none.mpr refused] at item
        cases item
      simp [ih, kept]

/-- Content is refused wherever a tool call's input is malformed, unless a prefix of
    the input is taken for it and no other call is refused. -/
theorem malformed_refused_iff (st : stream_state_t) :
    (∀ b ∈ st.active, b.type = cs "tool_use" → ¬JsonText b.partial_json.val → blocks_to_content st = none) ↔
      (∃ b ∈ st.active, Refused b) ∨ ∀ b ∈ st.active, b.type = cs "tool_use" → ReadStrictly b.partial_json := by
  have refused : blocks_to_content st = none ↔ ∃ b ∈ st.active, Refused b := by
    rw [blocks_to_content, Option.map_eq_none_iff, contentItems_none]
  by_cases none : blocks_to_content st = none
  · exact iff_of_true (fun _ _ _ _ => none) (.inl (refused.mp none))
  rw [or_iff_right fun some => none (refused.mpr some)]
  refine forall₂_congr fun b member => forall_congr' fun tool => ?_
  have parsed : (cJSON_Parse b.partial_json.val).isSome := by
    cases parse : cJSON_Parse b.partial_json.val with
    | some v => rfl
    | none =>
      refine absurd (refused.mpr ⟨b, member, tool, fun input here => ?_⟩) none
      cases parse.symm.trans here
  rw [← sound_iff, forall_prop_of_true parsed]
  exact ⟨fun bad => by_contra fun json => none (bad json), fun json bad => absurd json bad⟩

/-- The items are those of the blocks that have a type. -/
theorem contentItems_some {bs : List block_t} {items : List cJSON} (made : contentItems bs = some items) :
    List.Forall₂ (fun b item => blockItem b = some item) (bs.filter fun b => decide (b.type ≠ emptyString)) items := by
  induction bs generalizing items with
  | nil =>
    cases made
    exact .nil
  | cons b bs ih =>
    rw [contentItems] at made
    by_cases unused : b.type = emptyString
    · rw [if_pos unused] at made
      rw [List.filter_cons_of_neg (by simp [unused])]
      exact ih made
    rw [if_neg unused] at made
    rw [List.filter_cons_of_pos (by simp [unused])]
    cases item : blockItem b with
    | none => simp [item] at made
    | some obj =>
      simp only [item] at made
      obtain ⟨rest, later, rfl⟩ := Option.map_eq_some_iff.mp made
      exact .cons item (ih later)

theorem sendable_iff {bs : List block_t} {items : List cJSON}
    (made : List.Forall₂ (fun b item => blockItem b = some item) bs items) :
    (items ≠ [] ∧ ∀ item ∈ items, Sendable item) ↔ bs ≠ [] ∧ ∀ b ∈ bs, Proper b := by
  refine and_congr ?_ ?_
  · cases made <;> simp
  · induction made with
    | nil => simp
    | cons first _ ih => simp [blockItem_sendable first, ih]

/-- After any events, a content that is let through can be sent just when a call is
    refused, or when there is a block that has a type and all that have are proper. -/
theorem content_sendable (events : List Bytes) :
    let st := events.foldl handle_event initial
    (∀ content, blocks_to_content st = some content → SendableContent content) ↔
      (∃ b ∈ st.active, Refused b) ∨
        (∃ b ∈ st.active, b.type ≠ emptyString) ∧ ∀ b ∈ st.active, b.type ≠ emptyString → Proper b := by
  intro st
  unfold blocks_to_content
  rw [← contentItems_none]
  cases made : contentItems st.active with
  | none => simp
  | some items =>
    have each := sendable_iff (contentItems_some made)
    have blocks : ((st.active.filter fun b => decide (b.type ≠ emptyString)) ≠ [] ∧
        ∀ b ∈ st.active.filter fun b => decide (b.type ≠ emptyString), Proper b) ↔
        (∃ b ∈ st.active, b.type ≠ emptyString) ∧ ∀ b ∈ st.active, b.type ≠ emptyString → Proper b := by
      simp [List.filter_eq_nil_iff]
    rw [← blocks, ← each]
    simp [SendableContent]

def thinking : Bytes :=
  lit "\x7b\"type\":\"content_block_start\",\"index\":0,\"content_block\":\x7b\"type\":\"thinking\"\x7d\x7d"

/-- A block of another type, without its fields. -/
theorem content_stripped :
    ¬∀ (events : List Bytes) (content : cJSON), blocks_to_content (events.foldl handle_event initial) = some content →
      SendableContent content := by
  intro sendable
  have kind : (blocks_to_content ([thinking].foldl handle_event initial)).map
      (fun content => content.child.map fun item => getString (some item) "type") = some [some (cs "thinking")] := by
    decide +kernel
  obtain ⟨content, made, kinds⟩ := Option.map_eq_some_iff.mp kind
  obtain ⟨items, rfl, -, each⟩ := sendable [thinking] content made
  obtain ⟨item, rfl⟩ := List.length_eq_one_iff.mp (by simpa using congrArg List.length kinds)
  simp only [cJSON.child, List.map_cons, List.map_nil, List.cons.injEq, and_true] at kinds
  rcases each item (by simp) with ⟨text, -⟩ | ⟨tool, -⟩
  · rw [hasType, kinds] at text
    exact absurd text (by decide)
  · rw [hasType, kinds] at tool
    exact absurd tool (by decide)

end Sa.Content
