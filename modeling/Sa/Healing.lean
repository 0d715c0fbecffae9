import Sa.Messages

/-!
# What healing leaves

`session_prune_empty_tool_use` deletes while it walks, but what is left are messages
of the list in order, none of them a single call without input; and where every
call was answered by the message after it, exactly those calls and their answers
are gone (`prune_healed`).
-/

namespace Sa.Healing
open Sa.CStrings Sa.Tinyjson Sa.Stream Sa.Session Sa.Messages

/-- An assistant's message whose content is one `tool_use` with no input or an empty one. -/
def SingleEmptyCall (msg : cJSON) : Prop :=
  role msg = some (cs "assistant") ∧ ∃ b, contentItemsOf msg = some [b] ∧ typeIs b "tool_use" = true ∧
    ∀ input ∈ cJSON_GetObjectItem (some b) (cs "input"), input.child = []

theorem singleItem_iff {msg b : cJSON} : singleItem msg = some b ↔ contentItemsOf msg = some [b] := by
  unfold singleItem
  split
  · next item content => simp [content]
  · next other =>
    simp only [reduceCtorEq, false_iff]
    exact other b

theorem singleEmptyCall_iff {msg : cJSON} : SingleEmptyCall msg ↔ emptyToolUse msg = true := by
  have size : ∀ b, cJSON_GetArraySize (cJSON_GetObjectItem (some b) (cs "input")) = 0 ↔
      ∀ input ∈ cJSON_GetObjectItem (some b) (cs "input"), input.child = [] := by
    intro b
    cases cJSON_GetObjectItem (some b) (cs "input") with
    | none => simp [cJSON_GetArraySize]
    | some input => simp [cJSON_GetArraySize]
  unfold SingleEmptyCall emptyToolUse role
  rw [Bool.and_eq_true, beq_iff_eq]
  refine and_congr_right fun _ => ?_
  cases single : singleItem msg with
  | none =>
    simp only [Bool.false_eq_true, iff_false]
    rintro ⟨b, content, -⟩
    rw [singleItem_iff.mpr content] at single
    cases single
  | some b =>
    have content := singleItem_iff.mp single
    rw [Bool.and_eq_true, beq_iff_eq, size b]
    constructor
    · rintro ⟨b', content', call⟩
      rw [content] at content'
      cases content'
      exact call
    · exact fun call => ⟨b, content, call⟩

instance : DecidablePred SingleEmptyCall := fun _ => decidable_of_iff _ singleEmptyCall_iff.symm

/-- The messages that neither are single empty calls nor come right after one;
    `after` tells whether the first does. -/
def spared (after : Bool) (messages : List cJSON) : List cJSON :=
  ((messages.zip (after :: messages.map fun msg => decide (SingleEmptyCall msg))).filter fun p =>
    !decide (SingleEmptyCall p.1) && !p.2).map Prod.fst

/-- The `tool_use` blocks of a message. -/
def usesOf (msg : cJSON) : List cJSON := (blocksOf msg).filter fun b => typeIs b "tool_use"

section
variable (fits : List cJSON → List cJSON → Prop)

/-- A user's message of results, one for each block; `fits` says which results are for which blocks. -/
structure Results (uses : List cJSON) (msg : cJSON) : Prop where
  user : role msg = some (cs "user")
  each : ∀ b ∈ blocksOf msg, typeIs b "tool_result" = true
  count : (blocksOf msg).length = uses.length
  fitting : fits uses (blocksOf msg)

/-- Every assistant's message with `tool_use` blocks is followed by their results. -/
def AllPaired : List cJSON → Prop
  | [] => True
  | msg :: rest =>
    (role msg = some (cs "assistant") → usesOf msg ≠ [] → ∃ next ∈ rest.head?, Results fits (usesOf msg) next) ∧
      AllPaired rest

end

/-- What a call makes of the messages: how many it removed and what is left. -/
structure Healed (messages : List cJSON) (removed : ℕ) (left : List cJSON) : Prop where
  none : ∀ msg ∈ left, ¬SingleEmptyCall msg
  order : left.Sublist messages
  count : removed + left.length = messages.length
  again : session_prune_empty_tool_use left = (0, left)
  paired : ∀ fits, AllPaired fits messages → left = spared false messages ∧ AllPaired fits left

theorem prune_other {msg : cJSON} (other : ¬SingleEmptyCall msg) (rest : List cJSON) :
    session_prune_empty_tool_use (msg :: rest) =
      ((session_prune_empty_tool_use rest).1, msg :: (session_prune_empty_tool_use rest).2) := by
  rw [singleEmptyCall_iff] at other
  simp only [session_prune_empty_tool_use, other, Bool.false_eq_true, if_false]

/-- A single empty call goes, alone or with the first of what is left after it. -/
theorem prune_call {msg : cJSON} (call : SingleEmptyCall msg) (rest : List cJSON) :
    (session_prune_empty_tool_use (msg :: rest) =
        ((session_prune_empty_tool_use rest).1 + 1, (session_prune_empty_tool_use rest).2)) ∨
      ∃ next tail, (session_prune_empty_tool_use rest).2 = next :: tail ∧
        session_prune_empty_tool_use (msg :: rest) = ((session_prune_empty_tool_use rest).1 + 2, tail) := by
  simp only [session_prune_empty_tool_use, singleEmptyCall_iff.mp call, if_true]
  cases left : (session_prune_empty_tool_use rest).2 with
  | nil => exact .inl rfl
  | cons next tail =>
    by_cases result : singleToolResult next = true
    · exact .inr ⟨next, tail, rfl, by simp only [result, if_true]⟩
    · exact .inl (by simp only [result, Bool.false_eq_true, if_false])

/-- The message after a call goes with it when it is a single result that stayed. -/
theorem prune_answered {msg next : cJSON} (call : SingleEmptyCall msg) (other : ¬SingleEmptyCall next)
    (result : singleToolResult next = true) (rest : List cJSON) :
    session_prune_empty_tool_use (msg :: next :: rest) =
      ((session_prune_empty_tool_use rest).1 + 2, (session_prune_empty_tool_use rest).2) := by
  rw [session_prune_empty_tool_use, prune_other other]
  simp only [singleEmptyCall_iff.mp call, result, if_true]

theorem prune_sublist (messages : List cJSON) : (session_prune_empty_tool_use messages).2.Sublist messages := by
  induction messages with
  | nil => exact .slnil
  | cons msg rest ih =>
    by_cases call : SingleEmptyCall msg
    · rcases prune_call call rest with alone | ⟨next, tail, left, both⟩
      · rw [alone]
        exact ih.cons msg
      · rw [both]
        rw [left] at ih
        exact ((List.sublist_cons_self next tail).trans ih).cons msg
    · rw [prune_other call]
      exact ih.cons_cons msg

theorem prune_none (messages : List cJSON) : ∀ msg ∈ (session_prune_empty_tool_use messages).2, ¬SingleEmptyCall msg := by
  induction messages with
  | nil => simp [session_prune_empty_tool_use]
  | cons msg rest ih =>
    by_cases call : SingleEmptyCall msg
    · rcases prune_call call rest with alone | ⟨next, tail, left, both⟩
      · rw [alone]
        exact ih
      · rw [both]
        rw [left] at ih
        exact fun m member => ih m (List.mem_cons_of_mem next member)
    · rw [prune_other call]
      simpa using ⟨call, ih⟩

theorem prune_count (messages : List cJSON) :
    (session_prune_empty_tool_use messages).1 + (session_prune_empty_tool_use messages).2.length = messages.length := by
  induction messages with
  | nil => rfl
  | cons msg rest ih =>
    by_cases call : SingleEmptyCall msg
    · rcases prune_call call rest with alone | ⟨next, tail, left, both⟩
      · simp only [alone, List.length_cons]
        omega
      · rw [left, List.length_cons] at ih
        simp only [both, List.length_cons]
        omega
    · rw [prune_other call, List.length_cons, List.length_cons]
      omega

/-- Nothing goes where nothing should. -/
theorem prune_kept {messages : List cJSON} (none : ∀ msg ∈ messages, ¬SingleEmptyCall msg) :
    session_prune_empty_tool_use messages = (0, messages) := by
  induction messages with
  | nil => rfl
  | cons msg rest ih =>
    rw [prune_other (none msg (by simp)), ih fun m member => none m (List.mem_cons_of_mem msg member)]

theorem spared_cons (after : Bool) (msg : cJSON) (rest : List cJSON) :
    spared after (msg :: rest) =
      if SingleEmptyCall msg ∨ after = true then spared (decide (SingleEmptyCall msg)) rest
      else msg :: spared (decide (SingleEmptyCall msg)) rest := by
  unfold spared
  rw [List.map_cons, List.zip_cons_cons]
  by_cases call : SingleEmptyCall msg <;> cases after <;> simp [call]

section
variable {fits : List cJSON → List cJSON → Prop}

theorem results_other {uses : List cJSON} {msg : cJSON} (results : Results fits uses msg) : ¬SingleEmptyCall msg := by
  rintro ⟨assistant, -⟩
  rw [results.user] at assistant
  exact absurd assistant (by decide)

theorem call_uses {msg : cJSON} (call : SingleEmptyCall msg) : ∃ b, usesOf msg = [b] := by
  obtain ⟨-, b, content, use, -⟩ := call
  exact ⟨b, by simp [usesOf, blocksOf, content, use]⟩

theorem results_single {b msg : cJSON} (results : Results fits [b] msg) : singleToolResult msg = true := by
  obtain ⟨r, blocks⟩ := List.length_eq_one_iff.mp results.count
  have content : contentItemsOf msg = some [r] := by
    unfold blocksOf at blocks
    cases items : contentItemsOf msg with
    | none => simp [items] at blocks
    | some items' => simpa [items] using blocks
  rw [singleToolResult, singleItem_iff.mpr content]
  exact results.each r (by simp [blocks])

/-- Where calls are answered, they go with their answers. -/
theorem prune_spared (messages : List cJSON) (paired : AllPaired fits messages) :
    (session_prune_empty_tool_use messages).2 = spared false messages := by
  induction messages with
  | nil => rfl
  | cons msg rest ih =>
    obtain ⟨first, paired⟩ := paired
    rw [spared_cons]
    by_cases call : SingleEmptyCall msg
    · obtain ⟨b, uses⟩ := call_uses call
      obtain ⟨next, head, results⟩ := first call.1 (by simp [uses])
      obtain ⟨rest', rfl⟩ := List.head?_eq_some_iff.mp head
      have other := results_other results
      have rest := ih paired
      rw [prune_other other, spared_cons, if_neg (by simp [other])] at rest
      rw [prune_answered call other (results_single (uses ▸ results)), if_pos (.inl call), spared_cons,
        if_pos (.inr (by simp [call]))]
      exact (List.cons.inj rest).2
    · rw [prune_other call, if_neg (by simp [call]), ih paired]
      simp [call]

/-- What is left is paired as it was. -/
theorem prune_paired (messages : List cJSON) (paired : AllPaired fits messages) :
    AllPaired fits (session_prune_empty_tool_use messages).2 := by
  induction messages with
  | nil => trivial
  | cons msg rest ih =>
    obtain ⟨first, paired⟩ := paired
    have rest' := ih paired
    by_cases call : SingleEmptyCall msg
    · rcases prune_call call rest with alone | ⟨next, tail, left, both⟩
      · rw [alone]
        exact rest'
      · rw [both]
        rw [left] at rest'
        exact rest'.2
    · rw [prune_other call]
      refine ⟨fun assistant some => ?_, rest'⟩
      obtain ⟨next, head, results⟩ := first assistant some
      obtain ⟨tail, rfl⟩ := List.head?_eq_some_iff.mp head
      exact ⟨next, by rw [prune_other (results_other results)]; rfl, results⟩

end

/-- Every call heals the messages: what is left is in order and holds no single empty
    call, and of paired messages exactly these calls and their results are gone. -/
theorem prune_healed (messages : List cJSON) :
    Healed messages (session_prune_empty_tool_use messages).1 (session_prune_empty_tool_use messages).2 where
  none := prune_none messages
  order := prune_sublist messages
  count := prune_count messages
  again := prune_kept (prune_none messages)
  paired _ paired := ⟨prune_spared messages paired, prune_paired messages paired⟩

end Sa.Healing
