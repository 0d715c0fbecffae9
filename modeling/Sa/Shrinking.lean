import Sa.Clearing

/-!
# What compaction leaves

`compact_clear_tool_results` replaces the long results of the messages before the
last ones and nothing else; what is printed gets shorter with every result
replaced, and a second call finds none (`compact_compacted`).
-/

namespace Sa.Shrinking
open Sa.CStrings Sa.Tinyjson Sa.Printer Sa.Stream Sa.Session Sa.Messages Sa.Clearing

/-- The same object but for the first member with this key, whose values are related. -/
def InMember (key : CString) (R : cJSON → cJSON → Prop) (v v' : cJSON) : Prop :=
  ∃ before x x' after, v = .object (before ++ (key, x) :: after) ∧ v' = .object (before ++ (key, x') :: after) ∧
    (∀ m ∈ before, m.1 ≠ key) ∧ R x x'

/-- A `tool_result` whose content is a string of more than ten bytes. -/
def LongResult (item : cJSON) : Prop :=
  typeIs item "tool_result" = true ∧
    ∃ s, cJSON_GetObjectItem (some item) (cs "content") = some (.string s) ∧ 10 < s.val.length

/-- A long result's content is replaced; any other item is as it was. -/
def ItemCompacted (item item' : cJSON) : Prop :=
  (LongResult item ∧ InMember (cs "content") (fun _ x' => x' = .string (cs "[cleared]")) item item') ∨
    (¬LongResult item ∧ item' = item)

/-- The items of the content are compacted; a message without such is as it was. -/
def MessageCompacted (msg msg' : cJSON) : Prop :=
  match contentItemsOf msg with
  | none => msg' = msg
  | some _ =>
    InMember (cs "content") (fun x x' => ∃ items items', x = .array items ∧ x' = .array items' ∧
      List.Forall₂ ItemCompacted items items') msg msg'

theorem longResult_iff {item : cJSON} : LongResult item ↔ clearable item = true := by
  rw [clearable_iff]
  refine and_congr_right fun _ => exists_congr fun s => and_congr_right fun _ => ?_
  refine ⟨fun long => ⟨long, ?_⟩, And.left⟩
  rintro rfl
  exact absurd long (by decide)

instance : DecidablePred LongResult := fun _ => decidable_of_iff _ longResult_iff.symm

/-- The result of a call: how many strings were replaced, and the messages after it. -/
structure Compacted (messages : List cJSON) (keep_last_n cleared : ℕ) (after : List cJSON) : Prop where
  length : after.length = messages.length
  last : after.drop (messages.length - keep_last_n) = messages.drop (messages.length - keep_last_n)
  earlier : List.Forall₂ MessageCompacted (messages.take (messages.length - keep_last_n))
    (after.take (messages.length - keep_last_n))
  count : cleared = ((messages.take (messages.length - keep_last_n)).flatMap blocksOf).countP LongResult
  shorter : 0 < cleared →
    (cJSON_PrintUnformatted (.array after)).length < (cJSON_PrintUnformatted (.array messages)).length
  again : compact_clear_tool_results after keep_last_n = (0, after)

theorem first_member {key : CString} {x : cJSON} {child : List (CString × cJSON)}
    (found : cJSON_GetObjectItem (some (.object child)) key = some x) :
    ∃ before after, child = before ++ (key, x) :: after ∧ ∀ m ∈ before, m.1 ≠ key := by
  induction child with
  | nil => simp [cJSON_GetObjectItem] at found
  | cons m ms ih =>
    obtain ⟨k, v⟩ := m
    rw [getObjectItem_cons] at found
    by_cases same : k = key
    · rw [if_pos same] at found
      cases found
      exact ⟨[], ms, by rw [same]; rfl, by simp⟩
    · rw [if_neg same] at found
      obtain ⟨before, after, rfl, others⟩ := ih found
      exact ⟨(k, v) :: before, after, rfl, by simpa [same] using others⟩

theorem setMember_first {key s : CString} {x : cJSON} {before after : List (CString × cJSON)}
    (others : ∀ m ∈ before, m.1 ≠ key) :
    setMember key s (before ++ (key, x) :: after) = before ++ (key, .string s) :: after := by
  induction before with
  | nil => simp [setMember]
  | cons m before ih =>
    rw [List.cons_append, setMember, if_neg (others m (by simp)), ih fun m member => others m (by simp [member])]
    rfl

theorem mapContent_first {f : cJSON → cJSON} {items : List cJSON} {before after : List (CString × cJSON)}
    (others : ∀ m ∈ before, m.1 ≠ cs "content") :
    mapContent f (before ++ (cs "content", .array items) :: after) =
      before ++ (cs "content", .array (items.map f)) :: after := by
  induction before with
  | nil => simp [mapContent]
  | cons m before ih =>
    rw [List.cons_append, mapContent, if_neg (others m (by simp)), ih fun m member => others m (by simp [member])]
    rfl

theorem getObjectItem_first {key : CString} {x : cJSON} {before after : List (CString × cJSON)}
    (others : ∀ m ∈ before, m.1 ≠ key) :
    cJSON_GetObjectItem (some (.object (before ++ (key, x) :: after))) key = some x := by
  induction before with
  | nil => simp [getObjectItem_cons]
  | cons m before ih =>
    rw [List.cons_append, getObjectItem_cons, if_neg (others m (by simp)), ih fun m member => others m (by simp [member])]

theorem clearItem_inMember {item : cJSON} (long : LongResult item) :
    InMember (cs "content") (fun x x' => (∃ s, x = .string s ∧ 10 < s.val.length) ∧ x' = .string (cs "[cleared]"))
      item (clearItem item) := by
  obtain ⟨-, s, content, size⟩ := id long
  cases item with
  | object child =>
    obtain ⟨before, after, rfl, others⟩ := first_member content
    refine ⟨before, .string s, _, after, rfl, ?_, others, ⟨s, rfl, size⟩, rfl⟩
    rw [clearItem, if_pos (longResult_iff.mp long), setMember_first others]
  | _ => cases content

theorem InMember.mono {key : CString} {R S : cJSON → cJSON → Prop} {v v' : cJSON} (implies : ∀ x x', R x x' → S x x')
    (changed : InMember key R v v') : InMember key S v v' := by
  obtain ⟨before, x, x', after, from', into, others, related⟩ := changed
  exact ⟨before, x, x', after, from', into, others, implies x x' related⟩

theorem clearItem_compacted (item : cJSON) : ItemCompacted item (clearItem item) := by
  by_cases long : LongResult item
  · exact .inl ⟨long, (clearItem_inMember long).mono fun _ _ related => related.2⟩
  · refine .inr ⟨long, clearItem_kept ?_⟩
    simpa [longResult_iff] using long

/-- A cleared item's content is too short to be cleared again. -/
theorem clearItem_short (item : cJSON) : clearable (clearItem item) = false := by
  by_cases long : LongResult item
  · obtain ⟨before, x, x', after, -, into, others, -, rfl⟩ := clearItem_inMember long
    refine Bool.eq_false_iff.mpr fun clear => ?_
    obtain ⟨-, s, content, size⟩ := longResult_iff.mpr clear
    rw [into, getObjectItem_first others] at content
    cases content
    exact absurd size (by decide)
  · rw [longResult_iff, Bool.not_eq_true] at long
    rw [clearItem_kept long, long]

theorem clearMessage_inMember {msg : cJSON} {items : List cJSON} (content : contentItemsOf msg = some items) :
    InMember (cs "content") (fun x x' => x = .array items ∧ x' = .array (items.map clearItem)) msg (clearMessage msg) := by
  have found : cJSON_GetObjectItem (some msg) (cs "content") = some (.array items) := by
    unfold contentItemsOf at content
    split at content
    · next xs same => rw [same, Option.some.inj content]
    · cases content
  cases msg with
  | object child =>
    obtain ⟨before, after, rfl, others⟩ := first_member found
    refine ⟨before, .array items, _, after, rfl, ?_, others, rfl, rfl⟩
    rw [clearMessage, mapContent_first others]
  | _ => cases found

theorem clearMessage_plain {msg : cJSON} (content : contentItemsOf msg = none) : clearMessage msg = msg := by
  refine clearMessage_kept ?_
  rw [clearedIn, content]
  rfl

theorem clearMessage_compacted (msg : cJSON) : MessageCompacted msg (clearMessage msg) := by
  unfold MessageCompacted
  cases content : contentItemsOf msg with
  | none => exact clearMessage_plain content
  | some items =>
    refine (clearMessage_inMember content).mono fun x x' related => ⟨items, _, related.1, related.2, ?_⟩
    rw [List.forall₂_map_right_iff]
    exact List.forall₂_same.mpr fun item _ => clearItem_compacted item

theorem clearedIn_clearMessage (msg : cJSON) : clearedIn (clearMessage msg) = 0 := by
  change (blocksOf (clearMessage msg)).countP clearable = 0
  rw [blocksOf_clearMessage, List.countP_map, List.countP_eq_zero]
  intro item _
  simp [clearItem_short item]

def printedLength (v : cJSON) : ℕ := (cj_print_value v).length

theorem length_printItems (items : List cJSON) :
    (printItems items).length = (items.map printedLength).sum + (items.length - 1) := by
  induction items with
  | nil => rfl
  | cons c items ih =>
    cases items with
    | nil => simp [printItems, printedLength]
    | cons d items =>
      simp only [printItems, List.length_append, List.length_cons, List.map_cons, List.sum_cons, printedLength] at ih ⊢
      omega

theorem length_printMembers (ms : List (CString × cJSON)) :
    (printMembers ms).length = (ms.map fun m => (cj_print_string m.1).length + 1 + printedLength m.2).sum + (ms.length - 1) := by
  induction ms with
  | nil => rfl
  | cons m ms ih =>
    obtain ⟨k, v⟩ := m
    cases ms with
    | nil =>
      simp [printMembers, printedLength]
      omega
    | cons d ms =>
      simp only [printMembers, List.length_append, List.length_cons, List.map_cons, List.sum_cons, printedLength] at ih ⊢
      omega

theorem printedLength_array (items : List cJSON) :
    printedLength (.array items) = (items.map printedLength).sum + (items.length - 1) + 2 := by
  rw [printedLength, cj_print_value, ← length_printItems]
  simp

/-- Another value of a member makes the difference of their lengths. -/
theorem printedLength_inMember {key : CString} {R : cJSON → cJSON → Prop} {v v' : cJSON} (changed : InMember key R v v') :
    ∃ x x', R x x' ∧ printedLength v' + printedLength x = printedLength v + printedLength x' := by
  obtain ⟨before, x, x', after, rfl, rfl, -, related⟩ := changed
  refine ⟨x, x', related, ?_⟩
  have length : ∀ x, printedLength (.object (before ++ (key, x) :: after)) =
      (printMembers (before ++ (key, x) :: after)).length + 2 := by
    intro x
    rw [printedLength, cj_print_value]
    simp
  rw [length, length, length_printMembers, length_printMembers]
  simp only [List.map_append, List.map_cons, List.sum_append, List.sum_cons, List.length_append, List.length_cons]
  omega

/-- A byte of a string is a byte at least when it is printed. -/
theorem length_le_print (s : CString) : s.val.length + 2 ≤ printedLength (.string s) := by
  have each : ∀ bytes : Bytes, bytes.length ≤ (bytes.flatMap printByte).length := by
    intro bytes
    induction bytes with
    | nil => simp
    | cons c bytes ih =>
      have some : 1 ≤ (printByte c).length := by
        unfold printByte
        split_ifs <;> simp
      rw [List.flatMap_cons, List.length_append, List.length_cons]
      omega
  have whole := each s.val
  rw [printedLength, cj_print_value, cj_print_string, List.length_cons, List.length_append, List.length_singleton]
  omega

/-- A long result is printed shorter when it is cleared. -/
theorem printedLength_clearItem (item : cJSON) :
    printedLength (clearItem item) + (if clearable item then 1 else 0) ≤ printedLength item := by
  by_cases long : LongResult item
  · obtain ⟨x, x', ⟨⟨s, rfl, size⟩, rfl⟩, same⟩ := printedLength_inMember (clearItem_inMember long)
    have before := length_le_print s
    have after : printedLength (.string (cs "[cleared]")) = 11 := by decide
    rw [if_pos (longResult_iff.mp long)]
    omega
  · rw [longResult_iff] at long
    rw [if_neg long, clearItem_kept (by simpa using long), Nat.add_zero]

theorem printedLength_clearItems (items : List cJSON) :
    ((items.map clearItem).map printedLength).sum + items.countP clearable ≤ (items.map printedLength).sum := by
  induction items with
  | nil => simp
  | cons item items ih =>
    have first := printedLength_clearItem item
    rw [List.countP_cons]
    simp only [List.map_cons, List.sum_cons] at ih ⊢
    omega

theorem printedLength_clearMessage (msg : cJSON) : printedLength (clearMessage msg) + clearedIn msg ≤ printedLength msg := by
  cases content : contentItemsOf msg with
  | none => simp [clearMessage_plain content, clearedIn, content]
  | some items =>
    obtain ⟨x, x', ⟨rfl, rfl⟩, same⟩ := printedLength_inMember (clearMessage_inMember content)
    have less := printedLength_clearItems items
    rw [printedLength_array, printedLength_array, List.length_map] at same
    rw [clearedIn, content, Option.getD_some]
    omega

theorem printedLength_clearMessages (messages : List cJSON) :
    ((messages.map clearMessage).map printedLength).sum + (messages.map clearedIn).sum ≤ (messages.map printedLength).sum := by
  induction messages with
  | nil => simp
  | cons msg messages ih =>
    have first := printedLength_clearMessage msg
    simp only [List.map_cons, List.sum_cons] at ih ⊢
    omega

/-- What is printed gets shorter by a byte at least for every string replaced. -/
theorem printedLength_compact (messages : List cJSON) (keep_last_n : ℕ) :
    printedLength (.array (compact_clear_tool_results messages keep_last_n).2) +
      (compact_clear_tool_results messages keep_last_n).1 ≤ printedLength (.array messages) := by
  have less := printedLength_clearMessages (messages.take (messages.length - keep_last_n))
  have split := congrArg (fun ms => (ms.map printedLength).sum)
    (List.take_append_drop (messages.length - keep_last_n) messages)
  rw [printedLength_array, printedLength_array]
  simp only [compact_clear_tool_results, List.map_append, List.sum_append, List.length_append, List.length_map,
    List.length_take, List.length_drop] at less split ⊢
  omega

theorem sum_clearedIn (messages : List cJSON) :
    (messages.map clearedIn).sum = (messages.flatMap blocksOf).countP LongResult := by
  rw [List.countP_flatMap]
  congr 1
  refine List.map_congr_left fun msg _ => ?_
  exact List.countP_congr fun item _ => by simp [longResult_iff]

/-- Every call compacts the messages before the last ones as it should, and there is
    nothing left for another. -/
theorem compact_compacted (messages : List cJSON) (keep_last_n : ℕ) :
    Compacted messages keep_last_n (compact_clear_tool_results messages keep_last_n).1
      (compact_clear_tool_results messages keep_last_n).2 := by
  have shorter := printedLength_compact messages keep_last_n
  simp only [compact_clear_tool_results] at shorter ⊢
  generalize from' : messages.length - keep_last_n = keep_from at shorter ⊢
  have size : ((messages.take keep_from).map clearMessage).length = keep_from := by
    rw [List.length_map, List.length_take]
    omega
  have length : ((messages.take keep_from).map clearMessage ++ messages.drop keep_from).length = messages.length := by
    rw [List.length_append, size, List.length_drop]
    omega
  have first : ((messages.take keep_from).map clearMessage ++ messages.drop keep_from).take keep_from =
      (messages.take keep_from).map clearMessage := List.take_left' size
  have last : ((messages.take keep_from).map clearMessage ++ messages.drop keep_from).drop keep_from =
      messages.drop keep_from := List.drop_left' size
  have none : (((messages.take keep_from).map clearMessage).map clearedIn).sum = 0 := by
    rw [List.map_map, List.sum_eq_zero_iff]
    intro count member
    obtain ⟨msg, -, rfl⟩ := List.mem_map.mp member
    exact clearedIn_clearMessage msg
  constructor
  · exact length
  · rw [from', last]
  · rw [from', first, List.forall₂_map_right_iff]
    exact List.forall₂_same.mpr fun msg _ => clearMessage_compacted msg
  · rw [from', sum_clearedIn]
  · intro positive
    simp only [printedLength] at shorter
    simp only [cJSON_PrintUnformatted]
    omega
  · have zero : (compact_clear_tool_results ((messages.take keep_from).map clearMessage ++ messages.drop keep_from)
        keep_last_n).1 = 0 := by
      simp only [compact_clear_tool_results, length, from', first, none]
    exact Prod.ext zero (compact_kept zero)

end Sa.Shrinking
