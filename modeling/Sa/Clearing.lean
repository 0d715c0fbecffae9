import Sa.Logs

/-!
# What clearing changes

A message with some of its tool results cleared: `MessageCleared`. Clearing and
reading back commute, so what the file loads to after a rewrite is what it loaded
to before, with results cleared.
-/

namespace Sa.Clearing
open Sa.CStrings Sa.Tinyjson Sa.JsonGrammar Sa.JsonTexts Sa.DecimalTexts Sa.Parser Sa.ParserGrammar Sa.Printer
open Sa.PrinterGrammar Sa.Stream Sa.Session Sa.Messages Sa.SessionFile Sa.Logs

/-- The item, or the `tool_result` it is with its content string replaced. -/
def ItemCleared (item item' : cJSON) : Prop :=
  item' = item ∨ ∃ child s, item = .object child ∧ typeIs item "tool_result" = true ∧
    cJSON_GetObjectItem (some item) (cs "content") = some (.string s) ∧
    item' = .object (setMember (cs "content") (cs "[cleared]") child)

/-- The message with the items of its content changed by `f`. -/
def mapMessage (f : cJSON → cJSON) (msg : cJSON) : cJSON :=
  match msg with
  | .object child => .object (mapContent f child)
  | _ => msg

/-- The message with some of its tool results cleared. -/
def MessageCleared (msg msg' : cJSON) : Prop := ∃ f, (∀ item, ItemCleared item (f item)) ∧ msg' = mapMessage f msg

theorem clearMessage_eq (msg : cJSON) : clearMessage msg = mapMessage clearItem msg := by
  cases msg <;> rfl

theorem clearable_iff {item : cJSON} : clearable item = true ↔ typeIs item "tool_result" = true ∧
    ∃ s, cJSON_GetObjectItem (some item) (cs "content") = some (.string s) ∧ 10 < s.val.length ∧ s ≠ cs "[cleared]" := by
  rw [clearable, Bool.and_eq_true]
  refine and_congr_right fun _ => ?_
  cases cJSON_GetObjectItem (some item) (cs "content") with
  | none => simp
  | some v => cases v <;> simp

theorem itemCleared_clearItem (item : cJSON) : ItemCleared item (clearItem item) := by
  by_cases clear : clearable item = true
  · obtain ⟨type, s, content, -⟩ := clearable_iff.mp clear
    cases item with
    | object child => exact .inr ⟨child, s, rfl, type, content, by rw [clearItem, if_pos clear]⟩
    | _ => cases content
  · exact .inl (clearItem_kept (by simpa using clear))

theorem setMember_setMember (key s : CString) (child : List (CString × cJSON)) :
    setMember key s (setMember key s child) = setMember key s child := by
  induction child with
  | nil => rfl
  | cons m ms ih =>
    by_cases same : m.1 = key
    · simp [setMember, same]
    · simp [setMember, same, ih]

theorem ItemCleared.trans {a b c : cJSON} (first : ItemCleared a b) (second : ItemCleared b c) : ItemCleared a c := by
  rcases first with rfl | ⟨child, s, rfl, type, content, rfl⟩
  · exact second
  · refine .inr ⟨child, s, rfl, type, content, ?_⟩
    rcases second with rfl | ⟨child', s', same, -, -, rfl⟩
    · rfl
    · rw [← cJSON.object.inj same, setMember_setMember]

theorem mapContent_id (child : List (CString × cJSON)) : mapContent id child = child := by
  induction child with
  | nil => rfl
  | cons m ms ih =>
    obtain ⟨k, v⟩ := m
    by_cases content : k = cs "content"
    · cases v <;> simp [mapContent, content]
    · simp [mapContent, content, ih]

theorem mapContent_mapContent (f g : cJSON → cJSON) (child : List (CString × cJSON)) :
    mapContent g (mapContent f child) = mapContent (g ∘ f) child := by
  induction child with
  | nil => rfl
  | cons m ms ih =>
    obtain ⟨k, v⟩ := m
    by_cases content : k = cs "content"
    · cases v <;> simp [mapContent, content]
    · simp [mapContent, content, ih]

theorem MessageCleared.refl (msg : cJSON) : MessageCleared msg msg := by
  refine ⟨id, fun item => .inl rfl, ?_⟩
  cases msg with
  | object child => rw [mapMessage, mapContent_id]
  | _ => rfl

theorem MessageCleared.trans {a b c : cJSON} (first : MessageCleared a b) (second : MessageCleared b c) :
    MessageCleared a c := by
  obtain ⟨f, cleared, rfl⟩ := first
  obtain ⟨g, cleared', rfl⟩ := second
  refine ⟨g ∘ f, fun item => (cleared item).trans (cleared' (f item)), ?_⟩
  cases a with
  | object child => simp only [mapMessage, mapContent_mapContent]
  | _ => rfl

theorem messageCleared_clearMessage (msg : cJSON) : MessageCleared msg (clearMessage msg) :=
  ⟨clearItem, itemCleared_clearItem, clearMessage_eq msg⟩

/-- Only a text that begins with a brace is read as an object. -/
theorem readLine_brace {b : UInt8} {s : Bytes} (visible : isWs b = false) (other : b ≠ 123) {v : cJSON}
    (read : readLine (b :: s) = some v) (members : List (CString × cJSON)) : v ≠ .object members := by
  rintro rfl
  rw [readLine, if_neg (by simp), cJSON_Parse, Option.map_eq_some_iff] at read
  obtain ⟨⟨v, r⟩, read, same⟩ := read
  simp only at same
  subst same
  obtain ⟨w, c, t, text, space, derives, -, value, -⟩ := parse_iff.mp read
  -- The C string ends before the line does if there is a NUL in it, but it does not begin elsewhere.
  have first : (cstr (b :: s)).val = [] ∨ ∃ s', (cstr (b :: s)).val = b :: s' := by
    by_cases nul : b = 0
    · exact .inl (by simp [cstr, nul])
    · exact .inr ⟨s.takeWhile (· != 0), by simp [cstr, nul]⟩
  obtain ⟨b', x, rfl, -⟩ := derives_head derives
  rcases first with empty | ⟨s', whole⟩
  · rw [empty] at text
    simp at text
  rw [whole] at text
  cases w with
  | cons y w =>
    simp only [List.cons_append, List.cons.injEq] at text
    rw [text.1, space y (by simp)] at visible
    cases visible
  | nil =>
    simp only [List.nil_append, List.cons_append, List.cons.injEq] at text
    obtain ⟨rfl, -⟩ := text
    generalize whole' : b :: x = c at derives
    cases derives with
    | emptyObject _ => exact other (List.cons.inj whole').1
    | object _ _ _ => exact other (List.cons.inj whole').1
    | _ => simp [interp] at value

/-- The same messages in the same order, with some tool results cleared. -/
def SameHistory : List cJSON → List cJSON → Prop := List.Forall₂ MessageCleared

theorem sameHistory_refl (messages : List cJSON) : SameHistory messages messages :=
  List.forall₂_same.mpr fun msg _ => .refl msg

theorem SameHistory.trans {xs ys zs : List cJSON} (first : SameHistory xs ys) (second : SameHistory ys zs) :
    SameHistory xs zs := by
  induction first generalizing zs with
  | nil => exact second
  | cons change _ ih =>
    cases second with
    | cons change' rest => exact .cons (change.trans change') (ih rest)

end Sa.Clearing
