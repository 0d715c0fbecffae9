import Sa.Chat
import Sa.Pairing

/-!
# Messages and their parts

Which messages call tools and which answer: `roles`. The assistant's message and
the results that `chat_turn` makes of the same blocks fit each other, and
clearing old results changes no message's part.
-/

namespace Sa.Messages
open Sa.CStrings Sa.Tinyjson Sa.Stream Sa.Session Sa.Chat Sa.Pairing

theorem typeIs_iff {item : cJSON} {type : String} :
    typeIs item type = true ↔ getString (some item) "type" = some (cs type) := beq_iff_eq

theorem isToolUse_iff {b : block_t} : isToolUse b = true ↔ b.type = cs "tool_use" := beq_iff_eq

def role (msg : cJSON) : Option CString := getString (some msg) "role"

/-- The items of a message's content. -/
def blocksOf (msg : cJSON) : List cJSON := (contentItemsOf msg).getD []

/-- The ids of the `tool_use` blocks of an assistant's message, in order. -/
def toolUses (msg : cJSON) : List (Option CString) :=
  if role msg = some (cs "assistant") then
    ((blocksOf msg).filter fun b => typeIs b "tool_use").map fun b => getString (some b) "id"
  else []

/-- A user's message that holds a `tool_result`. -/
def HoldsResults (msg : cJSON) : Prop :=
  role msg = some (cs "user") ∧ ∃ b ∈ blocksOf msg, typeIs b "tool_result" = true

def IsResultFor (id : Option CString) (b : cJSON) : Prop :=
  typeIs b "tool_result" = true ∧ getString (some b) "tool_use_id" = id

/-- A user's message whose content is the results for these ids, in order. -/
def ResultsFor (ids : List (Option CString)) (msg : cJSON) : Prop :=
  role msg = some (cs "user") ∧ List.Forall₂ IsResultFor ids (blocksOf msg)

def roles : Roles cJSON (Option CString) where
  calls := toolUses
  IsAnswer := HoldsResults
  Answers := ResultsFor
  answer_calls := by
    rintro m ⟨user, -⟩
    rw [toolUses, user, if_neg (by decide)]
  answers_isAnswer := by
    rintro ids m some ⟨user, each⟩
    refine ⟨user, ?_⟩
    generalize blocksOf m = blocks at each
    cases each with
    | nil => exact absurd rfl some
    | @cons _ b _ _ result _ => exact ⟨b, by simp, result.1⟩

private theorem keys : cs "role" ≠ cs "content" ∧ cs "content" ≠ cs "role" ∧ cs "type" ≠ cs "id" ∧ cs "type" ≠ cs "name" ∧
    cs "type" ≠ cs "tool_use_id" ∧ cs "content" ≠ cs "type" ∧ cs "content" ≠ cs "id" ∧ cs "content" ≠ cs "tool_use_id" := by
  decide

@[simp] theorem role_assistantMsg (content : cJSON) : role (assistantMsg content) = some (cs "assistant") := by
  simp [role, assistantMsg, getString, getObjectItem_cons, cJSON_GetStringValue]

@[simp] theorem role_resultsMsg (results : List cJSON) : role (resultsMsg results) = some (cs "user") := by
  simp [role, resultsMsg, getString, getObjectItem_cons, cJSON_GetStringValue]

@[simp] theorem role_make_user_msg (text : CString) : role (make_user_msg text) = some (cs "user") := by
  simp [role, make_user_msg, getString, getObjectItem_cons, cJSON_GetStringValue]

@[simp] theorem blocksOf_assistantMsg (items : List cJSON) : blocksOf (assistantMsg (.array items)) = items := by
  simp [blocksOf, contentItemsOf, assistantMsg, getObjectItem_cons, keys]

@[simp] theorem blocksOf_resultsMsg (results : List cJSON) : blocksOf (resultsMsg results) = results := by
  simp [blocksOf, contentItemsOf, resultsMsg, getObjectItem_cons, keys]

theorem toolUses_make_user_msg (text : CString) : toolUses (make_user_msg text) = [] := by
  rw [toolUses, role_make_user_msg, if_neg (by decide)]

theorem make_user_msg_noResults (text : CString) : ¬HoldsResults (make_user_msg text) := by
  rintro ⟨-, b, member, result⟩
  have blocks : blocksOf (make_user_msg text) =
      [.object [(cs "type", .string (cs "text")), (cs "text", .string text)]] := by
    simp [blocksOf, contentItemsOf, make_user_msg, getObjectItem_cons, keys]
  rw [blocks, List.mem_singleton] at member
  subst member
  have other : cs "text" ≠ cs "tool_result" := by decide
  rw [typeIs_iff] at result
  simp only [getString, getObjectItem_cons, cJSON_GetStringValue, if_true, Option.some.injEq] at result
  exact other result

theorem assistantMsg_noResults (content : cJSON) : ¬HoldsResults (assistantMsg content) := by
  rintro ⟨user, -⟩
  rw [role_assistantMsg] at user
  exact absurd user (by decide)

theorem blockItem_type {b : block_t} {obj : cJSON} (item : blockItem b = some obj) : getString (some obj) "type" = some b.type := by
  unfold blockItem at item
  split_ifs at item with text tool
  · cases item
    simp [getString, getObjectItem_cons, cJSON_GetStringValue]
  · obtain ⟨input, -, rfl⟩ := Option.map_eq_some_iff.mp item
    simp [getString, getObjectItem_cons, cJSON_GetStringValue]
  · cases item
    simp [getString, getObjectItem_cons, cJSON_GetStringValue]

theorem blockItem_id {b : block_t} {obj : cJSON} (item : blockItem b = some obj) (tool : isToolUse b = true) :
    getString (some obj) "id" = some b.id := by
  have type := isToolUse_iff.mp tool
  have other : cs "tool_use" ≠ cs "text" := by decide
  simp only [blockItem, type, if_neg other, if_true] at item
  obtain ⟨input, -, rfl⟩ := Option.map_eq_some_iff.mp item
  simp [getString, getObjectItem_cons, cJSON_GetStringValue, keys]

/-- The `tool_use` items of the content are those of the blocks that the results are for. -/
theorem contentItems_toolUses {bs : List block_t} {items : List cJSON} (content : contentItems bs = some items) :
    ((items.filter fun b => typeIs b "tool_use").map fun b => getString (some b) "id") =
      (bs.filter isToolUse).map fun b => some b.id := by
  induction bs generalizing items with
  | nil =>
    cases content
    rfl
  | cons b bs ih =>
    rw [contentItems] at content
    by_cases unused : b.type = emptyString
    · rw [if_pos unused] at content
      have tool : isToolUse b = false := by rw [isToolUse, unused]; decide
      rw [ih content, List.filter_cons_of_neg (by simp [tool])]
    · rw [if_neg unused] at content
      cases made : blockItem b with
      | none => simp [made] at content
      | some obj =>
        rw [made] at content
        obtain ⟨rest, more, rfl⟩ := Option.map_eq_some_iff.mp content
        have type : typeIs obj "tool_use" = isToolUse b := by
          rw [typeIs, blockItem_type made]
          simp [isToolUse]
        by_cases tool : isToolUse b = true
        · rw [List.filter_cons_of_pos (by rw [type, tool]), List.filter_cons_of_pos tool, List.map_cons, List.map_cons,
            ih more, blockItem_id made tool]
        · rw [List.filter_cons_of_neg (by simpa [type] using tool), List.filter_cons_of_neg tool, ih more]

theorem toolUses_assistantMsg {st : stream_state_t} {items : List cJSON} (content : contentItems st.active = some items) :
    toolUses (assistantMsg (.array items)) = (st.active.filter isToolUse).map fun b => some b.id := by
  rw [toolUses, role_assistantMsg, if_pos rfl, blocksOf_assistantMsg, contentItems_toolUses content]

theorem toolUses_eq_nil {st : stream_state_t} {items : List cJSON} (content : contentItems st.active = some items) :
    toolUses (assistantMsg (.array items)) = [] ↔ st.active.any isToolUse = false := by
  rw [toolUses_assistantMsg content]
  simp

theorem toolResult_isResultFor (tools : Tools) (b : block_t) : IsResultFor (some b.id) (toolResult tools b) := by
  constructor
  · simp [toolResult, typeIs, getString, getObjectItem_cons, cJSON_GetStringValue]
  · simp [toolResult, getString, getObjectItem_cons, cJSON_GetStringValue, keys]

theorem toolResults_for (tools : Fin MAX_BLOCKS → Tools) (st : stream_state_t) :
    List.Forall₂ IsResultFor ((st.active.filter isToolUse).map fun b => some b.id) (toolResults tools st) := by
  unfold stream_state_t.active toolResults
  induction (List.finRange MAX_BLOCKS).take st.n with
  | nil => exact .nil
  | cons i is ih =>
    rw [List.map_cons]
    by_cases tool : isToolUse (st.blocks i) = true
    · rw [List.filter_cons_of_pos tool, List.filterMap_cons, if_pos tool, List.map_cons]
      exact .cons (toolResult_isResultFor (tools i) (st.blocks i)) ih
    · rw [List.filter_cons_of_neg tool, List.filterMap_cons, if_neg tool]
      exact ih

theorem resultsMsg_for (tools : Fin MAX_BLOCKS → Tools) {st : stream_state_t} {items : List cJSON}
    (content : contentItems st.active = some items) :
    ResultsFor (toolUses (assistantMsg (.array items))) (resultsMsg (toolResults tools st)) := by
  refine ⟨role_resultsMsg _, ?_⟩
  rw [toolUses_assistantMsg content, blocksOf_resultsMsg]
  exact toolResults_for tools st

theorem getObjectItem_setMember {key : CString} (other : key ≠ cs "content") (s : CString) (child : List (CString × cJSON)) :
    cJSON_GetObjectItem (some (.object (setMember (cs "content") s child))) key =
      cJSON_GetObjectItem (some (.object child)) key := by
  induction child with
  | nil => rfl
  | cons m ms ih =>
    obtain ⟨k, v⟩ := m
    by_cases content : k = cs "content"
    · subst content
      simp only [setMember, if_true, getObjectItem_cons, if_neg (Ne.symm other)]
    · simp only [setMember, if_neg content, getObjectItem_cons, ih]

theorem getObjectItem_mapContent {key : CString} (other : key ≠ cs "content") (f : cJSON → cJSON)
    (child : List (CString × cJSON)) :
    cJSON_GetObjectItem (some (.object (mapContent f child))) key = cJSON_GetObjectItem (some (.object child)) key := by
  induction child with
  | nil => rfl
  | cons m ms ih =>
    obtain ⟨k, v⟩ := m
    by_cases content : k = cs "content"
    · subst content
      cases v <;> simp only [mapContent, if_true, getObjectItem_cons, if_neg (Ne.symm other)]
    · simp only [mapContent, if_neg content, getObjectItem_cons, ih]

theorem contentItemsOf_mapContent (f : cJSON → cJSON) (child : List (CString × cJSON)) :
    contentItemsOf (.object (mapContent f child)) = (contentItemsOf (.object child)).map (List.map f) := by
  unfold contentItemsOf
  induction child with
  | nil => rfl
  | cons m ms ih =>
    obtain ⟨k, v⟩ := m
    by_cases content : k = cs "content"
    · subst content
      cases v <;> simp only [mapContent, if_true, getObjectItem_cons, Option.map_some, Option.map_none]
    · simp only [mapContent, if_neg content, getObjectItem_cons, ih]

theorem getString_clearItem {key : String} (other : cs key ≠ cs "content") (item : cJSON) :
    getString (some (clearItem item)) key = getString (some item) key := by
  unfold clearItem getString
  cases item with
  | object child =>
    simp only
    split_ifs
    · rw [getObjectItem_setMember other]
    · rfl
  | _ => rfl

theorem typeIs_clearItem (item : cJSON) (type : String) : typeIs (clearItem item) type = typeIs item type := by
  rw [typeIs, typeIs, getString_clearItem (by decide)]

theorem role_clearMessage (msg : cJSON) : role (clearMessage msg) = role msg := by
  unfold clearMessage role getString
  cases msg with
  | object child => simp only [getObjectItem_mapContent keys.1]
  | _ => rfl

theorem blocksOf_clearMessage (msg : cJSON) : blocksOf (clearMessage msg) = (blocksOf msg).map clearItem := by
  unfold clearMessage blocksOf
  cases msg with
  | object child =>
    simp only [contentItemsOf_mapContent]
    cases contentItemsOf (.object child) <;> rfl
  | _ => rfl

/-- Clearing changes no message's part. -/
theorem samePart_clearMessage (msg : cJSON) : SamePart roles msg (clearMessage msg) := by
  constructor
  · show toolUses (clearMessage msg) = toolUses msg
    rw [toolUses, toolUses, role_clearMessage, blocksOf_clearMessage, List.filter_map, List.map_map]
    have type : (fun b => typeIs b "tool_use") ∘ clearItem = fun b => typeIs b "tool_use" := by
      funext b
      exact typeIs_clearItem b _
    have id : (fun b => getString (some b) "id") ∘ clearItem = fun b => getString (some b) "id" := by
      funext b
      exact getString_clearItem (by decide) b
    rw [type, id]
  · show HoldsResults (clearMessage msg) ↔ HoldsResults msg
    rw [HoldsResults, HoldsResults, role_clearMessage, blocksOf_clearMessage]
    simp [typeIs_clearItem]
  · show ∀ ids, ResultsFor ids msg → ResultsFor ids (clearMessage msg)
    rintro ids ⟨user, each⟩
    refine ⟨by rw [role_clearMessage, user], ?_⟩
    rw [blocksOf_clearMessage, List.forall₂_map_right_iff]
    refine each.imp fun id b result => ⟨?_, ?_⟩
    · rw [typeIs_clearItem, result.1]
    · rw [getString_clearItem (by decide), result.2]

theorem clearItem_kept {item : cJSON} (kept : clearable item = false) : clearItem item = item := by
  unfold clearItem
  cases item with
  | object child => simp [kept]
  | _ => rfl

theorem clearMessage_kept {msg : cJSON} (none : clearedIn msg = 0) : clearMessage msg = msg := by
  unfold clearedIn contentItemsOf at none
  unfold clearMessage
  cases msg with
  | object child =>
    simp only [cJSON.object.injEq]
    induction child with
    | nil => rfl
    | cons m ms ih =>
      obtain ⟨k, v⟩ := m
      rw [getObjectItem_cons] at none
      by_cases content : k = cs "content"
      · subst content
        cases v with
        | array items =>
          simp only [if_true, Option.getD_some, List.countP_eq_zero] at none
          have same : items.map clearItem = items := by
            conv_rhs => rw [← List.map_id items]
            exact List.map_congr_left fun item member => clearItem_kept (by simpa using none item member)
          simp only [mapContent, if_true, same]
        | _ => simp [mapContent]
      · rw [if_neg content] at none
        simp only [mapContent, if_neg content, ih none]
  | _ => rfl

/-- Where nothing is cleared the messages are as before. -/
theorem compact_kept {messages : List cJSON} {keep_last_n : Nat}
    (none : (compact_clear_tool_results messages keep_last_n).1 = 0) :
    (compact_clear_tool_results messages keep_last_n).2 = messages := by
  simp only [compact_clear_tool_results, List.sum_eq_zero_iff, List.forall_mem_map] at none ⊢
  have same : (messages.take (messages.length - keep_last_n)).map clearMessage =
      (messages.take (messages.length - keep_last_n)).map id :=
    List.map_congr_left fun msg member => clearMessage_kept (none msg member)
  rw [same, List.map_id, List.take_append_drop]

/-- Each message is the one before or the one before cleared. -/
theorem compact_eq (messages : List cJSON) (keep_last_n : Nat) :
    List.Forall₂ (fun m m' => m' = m ∨ m' = clearMessage m) messages (compact_clear_tool_results messages keep_last_n).2 := by
  unfold compact_clear_tool_results
  conv in messages => rw [← List.take_append_drop (messages.length - keep_last_n) messages]
  refine List.rel_append ?_ ?_
  · rw [List.forall₂_map_right_iff]
    exact List.forall₂_same.mpr fun m _ => .inr rfl
  · exact List.forall₂_same.mpr fun m _ => .inl rfl

end Sa.Messages
