import Sa.SessionFile
import Sa.ToolPairing

/-!
# What a killed run leaves behind

A run's log is what it does to the session file. Wherever the run is killed, the
file loads to messages whose calls are answered (`killed_holds`), provided the
message that is last written whole does not call tools.
-/

namespace Sa.Logs
open Sa.CStrings Sa.Tinyjson Sa.Printer Sa.PrinterGrammar Sa.Stream Sa.Session Sa.Chat Sa.Pairing Sa.Messages
open Sa.ToolPairing Sa.SessionFile

variable {orphans : Prop}

/-- A message that may be in the session: results are read back, and so are calls
    unless results may stand alone. -/
structure Kept (orphans : Prop) (msg : cJSON) : Prop where
  message : IsMessage msg
  results : HoldsResults msg → FiniteNumbers msg
  calls : toolUses msg ≠ [] → FiniteNumbers msg ∨ orphans

structure Sound (orphans : Prop) (messages : List cJSON) : Prop where
  paired : Paired roles orphans messages
  kept : ∀ m ∈ messages, Kept orphans m

theorem sound_nil : Sound orphans [] := ⟨.nil, by simp⟩

theorem Sound.append {xs ys : List cJSON} (first : Sound orphans xs) (second : Sound orphans ys) : Sound orphans (xs ++ ys) := by
  refine ⟨first.paired.append second.paired, fun m member => ?_⟩
  rcases List.mem_append.mp member with inFirst | inSecond
  · exact first.kept m inFirst
  · exact second.kept m inSecond

theorem kept_finite {msg : cJSON} (message : IsMessage msg) (finite : FiniteNumbers msg) : Kept orphans msg :=
  ⟨message, fun _ => finite, fun _ => .inl finite⟩

theorem reload_some {msg msg' : cJSON} (message : IsMessage msg) (read : reload msg = some msg') :
    FiniteNumbers msg ∧ msg' = reread msg := by
  by_cases finite : FiniteNumbers msg
  · rw [reload_finite finite, Option.some.injEq] at read
    exact ⟨finite, read.symm⟩
  · rw [reload_infinite message finite] at read
    cases read

/-- What is read back of sound messages is sound. -/
theorem sound_reload {messages : List cJSON} (sound : Sound orphans messages) : Sound orphans (messages.filterMap reload) := by
  constructor
  · refine sound.paired.filterMap (fun m member m' read => ?_) (fun m member answer lost => ?_) (fun m member lost calls => ?_)
    · obtain ⟨-, rfl⟩ := reload_some (sound.kept m member).message read
      exact samePart_reread m
    · rw [reload_finite ((sound.kept m member).results answer)] at lost
      cases lost
    · rcases (sound.kept m member).calls calls with finite | allowed
      · rw [reload_finite finite] at lost
        cases lost
      · exact allowed
  · intro m' member
    obtain ⟨m, inside, read⟩ := List.mem_filterMap.mp member
    obtain ⟨finite, rfl⟩ := reload_some (sound.kept m inside).message read
    exact kept_finite (isMessage_reread (sound.kept m inside).message) (printed finite).finite

theorem mem_setMember {key s : CString} {child : List (CString × cJSON)} {m : CString × cJSON}
    (member : m ∈ setMember key s child) : m ∈ child ∨ m = (key, .string s) := by
  induction child with
  | nil => cases member
  | cons n ns ih =>
    rw [setMember] at member
    split_ifs at member with same
    · rcases List.mem_cons.mp member with rfl | later
      · exact .inr (by rw [same])
      · exact .inl (by simp [later])
    · rcases List.mem_cons.mp member with rfl | later
      · exact .inl (by simp)
      · exact (ih later).imp_left fun inside => by simp [inside]

theorem finite_clearItem {item : cJSON} (finite : FiniteNumbers item) : FiniteNumbers (clearItem item) := by
  unfold clearItem
  cases item with
  | object child =>
    simp only
    split_ifs
    · refine allLeaves_object.mpr fun m member => ⟨trivial, ?_⟩
      rcases mem_setMember member with inside | rfl
      · exact (allLeaves_object.mp finite m inside).2
      · exact .string trivial
    · exact finite
  | _ => exact finite

theorem finite_clearMessage {msg : cJSON} (finite : FiniteNumbers msg) : FiniteNumbers (clearMessage msg) := by
  unfold clearMessage
  cases msg with
  | object child =>
    refine allLeaves_object.mpr fun m member => ⟨trivial, ?_⟩
    have values := fun n inside => (allLeaves_object.mp finite n inside).2
    clear finite
    induction child with
    | nil => simp [mapContent] at member
    | cons n ns ih =>
      obtain ⟨k, v⟩ := n
      have first := values (k, v) (by simp)
      rw [mapContent] at member
      split_ifs at member with content
      · cases v with
        | array items =>
          rcases List.mem_cons.mp member with rfl | later
          · refine allLeaves_array.mpr fun item inside => ?_
            obtain ⟨item', inside', rfl⟩ := List.mem_map.mp inside
            exact finite_clearItem (allLeaves_array.mp first item' inside')
          · exact values m (by simp [later])
        | _ => exact values m member
      · rcases List.mem_cons.mp member with rfl | later
        · exact first
        · exact ih later fun k inside => values k (by simp [inside])
  | _ => exact finite

theorem kept_clearMessage {msg : cJSON} (kept : Kept orphans msg) : Kept orphans (clearMessage msg) := by
  have part := samePart_clearMessage msg
  refine ⟨isMessage_clearMessage kept.message, fun answer => ?_, fun calls => ?_⟩
  · exact finite_clearMessage (kept.results (part.answer.mp answer))
  · have same : toolUses (clearMessage msg) = toolUses msg := part.calls
    exact (kept.calls (same ▸ calls)).imp_left finite_clearMessage

theorem sound_compact {messages : List cJSON} (sound : Sound orphans messages) (keep_last_n : ℕ) :
    Sound orphans (compact_clear_tool_results messages keep_last_n).2 := by
  refine ⟨paired_compact sound.paired keep_last_n, fun m' member => ?_⟩
  simp only [compact_clear_tool_results, List.mem_append, List.mem_map] at member
  rcases member with ⟨m, inside, rfl⟩ | inside
  · exact kept_clearMessage (sound.kept m (List.mem_of_mem_take inside))
  · exact sound.kept m' (List.mem_of_mem_drop inside)

theorem empty_calls {msg : cJSON} (empty : emptyToolUse msg = true) : ∃ id, toolUses msg = [id] := by
  simp only [emptyToolUse, Bool.and_eq_true, beq_iff_eq] at empty
  obtain ⟨assistant, single⟩ := empty
  cases item : singleItem msg with
  | none => simp [item] at single
  | some b =>
    simp only [item, Bool.and_eq_true] at single
    have blocks : blocksOf msg = [b] := by
      unfold singleItem at item
      rw [blocksOf]
      cases items : contentItemsOf msg with
      | none => simp [items] at item
      | some items' =>
        rw [items] at item
        cases items' with
        | nil => cases item
        | cons first rest =>
          cases rest with
          | nil =>
            obtain rfl := Option.some.inj item
            rfl
          | cons second rest => cases item
    exact ⟨getString (some b) "id", by rw [toolUses, role, assistant, if_pos rfl, blocks]; simp [single.1]⟩

theorem results_notEmpty {msg : cJSON} (results : HoldsResults msg) : emptyToolUse msg = false := by
  by_contra empty
  obtain ⟨id, calls⟩ := empty_calls (by simpa using empty)
  have silent : toolUses msg = [] := roles.answer_calls results
  rw [silent] at calls
  cases calls

theorem singleResult_of_for {id : Option CString} {msg : cJSON} (results : ResultsFor [id] msg) : singleToolResult msg = true := by
  obtain ⟨-, each⟩ := results
  cases blocks : blocksOf msg with
  | nil =>
    rw [blocks] at each
    cases each
  | cons b rest =>
    rw [blocks] at each
    obtain ⟨result, none⟩ := List.forall₂_cons.mp each
    cases none
    have items : contentItemsOf msg = some [b] := by
      rw [blocksOf] at blocks
      cases items : contentItemsOf msg with
      | none => simp [items] at blocks
      | some items' => simpa [items] using blocks
    simp [singleToolResult, singleItem, items, result.1]

/-- Healing drops a call with its results, so the rest stays paired. -/
theorem prune_paired {messages : List cJSON} (paired : Paired roles orphans messages) :
    Paired roles orphans (session_prune_empty_tool_use messages).2 := by
  induction paired with
  | nil => exact .nil
  | @plain m ms silent noAnswer _ ih =>
    have full : emptyToolUse m = false := by
      by_contra empty
      obtain ⟨id, calls⟩ := empty_calls (by simpa using empty)
      exact absurd (calls.symm.trans silent) (by simp)
    simp only [session_prune_empty_tool_use, full, Bool.false_eq_true, if_false]
    exact .plain silent noAnswer ih
  | @call a r ms some answers _ ih =>
    have full := results_notEmpty (roles.answers_isAnswer some answers)
    simp only [session_prune_empty_tool_use, full, Bool.false_eq_true, if_false]
    by_cases empty : emptyToolUse a = true
    · obtain ⟨id, calls⟩ := empty_calls empty
      have results : ResultsFor (toolUses a) r := answers
      rw [calls] at results
      have single := singleResult_of_for results
      simpa only [if_pos empty, if_pos single] using ih
    · simp only [if_neg empty]
      exact .call some answers ih
  | @orphan r ms allowed answer _ ih =>
    simp only [session_prune_empty_tool_use, results_notEmpty answer, Bool.false_eq_true, if_false]
    exact .orphan allowed answer ih

theorem prune_subset (messages : List cJSON) : ∀ m ∈ (session_prune_empty_tool_use messages).2, m ∈ messages := by
  induction messages with
  | nil => exact fun _ member => member
  | cons msg rest ih =>
    intro m member
    rw [session_prune_empty_tool_use] at member
    revert ih member
    obtain ⟨removed, left⟩ := session_prune_empty_tool_use rest
    intro ih member
    simp only at ih member
    split_ifs at member with empty
    · refine List.mem_cons_of_mem _ (ih m ?_)
      cases left with
      | nil => simp at member
      | cons nxt tail =>
        simp only at member
        split_ifs at member
        · exact List.mem_cons_of_mem _ member
        · exact member
    · rcases List.mem_cons.mp member with rfl | later
      · simp
      · exact List.mem_cons_of_mem _ (ih m later)

theorem sound_prune {messages : List cJSON} (sound : Sound orphans messages) :
    Sound orphans (session_prune_empty_tool_use messages).2 :=
  ⟨prune_paired sound.paired, fun m member => sound.kept m (prune_subset messages m member)⟩

/-- The file when the process is killed after some whole operations and, where it
    has opened the file for the next line, after some bytes of that. -/
def killed : List FileOp → ℕ → Option ℕ → Option Bytes → Option Bytes
  | [], _, _, file => file
  | .append msg :: _, 0, some written, file => some (file.getD [] ++ (sessionLine msg).take written)
  | _ :: _, 0, _, file => file
  | op :: ops, after + 1, written, file => killed ops after written (op.apply file)

def lastOf : FileOp → Option cJSON
  | .append msg => some msg
  | .rewrite messages => messages.getLast?

/-- The message that is written last, up to its newline, by a process that is killed
    there; `before` is the one written before. -/
def lastWhole (before : Option cJSON) : List FileOp → ℕ → Option ℕ → Option cJSON
  | [], _, _ => before
  | .append msg :: _, 0, some written => if (cJSON_PrintUnformatted msg).length ≤ written then some msg else before
  | _ :: _, 0, _ => before
  | op :: ops, after + 1, written => lastWhole (lastOf op) ops after written

/-- The message calls no tools, or its line is not read back. -/
def Spared (last : Option cJSON) : Prop := ∀ m ∈ last, toolUses m ≠ [] → ¬FiniteNumbers m

/-- What a run does to the file, with the results right behind their calls. -/
inductive Log (orphans : Prop) : List FileOp → Prop where
  | nil : Log orphans []
  | single {m : cJSON} {ops : List FileOp} : Sound orphans [m] → Log orphans ops → Log orphans (.append m :: ops)
  | call {a r : cJSON} {ops : List FileOp} : Sound orphans [a, r] → toolUses a ≠ [] → HoldsResults r → Log orphans ops →
      Log orphans (.append a :: .append r :: ops)
  | rewrite {ms : List cJSON} {ops : List FileOp} : Sound orphans ms → Log orphans ops → Log orphans (.rewrite ms :: ops)

theorem Log.append {xs ys : List FileOp} (first : Log orphans xs) (second : Log orphans ys) : Log orphans (xs ++ ys) := by
  induction first with
  | nil => exact second
  | single sound _ ih => exact .single sound ih
  | call sound calls results _ ih => exact .call sound calls results ih
  | rewrite sound _ ih => exact .rewrite sound ih

/-- A file that loads to sound messages, whatever is written next. -/
def Survives (orphans : Prop) (file : Option Bytes) : Prop :=
  ∃ messages, Holds (file.getD []) messages ∧ Sound orphans messages

theorem toList_reload (m : cJSON) : (reload m).toList = [m].filterMap reload := by
  rw [List.filterMap_cons, List.filterMap_nil]
  cases reload m <;> rfl

theorem spared_reload {a : cJSON} (message : IsMessage a) (calls : toolUses a ≠ []) (spared : Spared (some a)) :
    (reload a).toList = [] := by
  rw [reload_infinite message (spared a rfl calls)]
  rfl

section
variable {file : Option Bytes} {messages : List cJSON} {a r m : cJSON}

theorem single_whole (holds : Holds (file.getD []) messages) (loaded : Sound orphans messages) (sound : Sound orphans [m]) :
    Survives orphans (some (file.getD [] ++ sessionLine m)) := by
  refine ⟨_, .inl (holds_append holds (sound.kept m (by simp)).message), ?_⟩
  split_ifs
  · rw [toList_reload]
    exact loaded.append (sound_reload sound)
  · exact loaded

theorem single_partial (holds : Holds (file.getD []) messages) (loaded : Sound orphans messages) (sound : Sound orphans [m])
    (written : ℕ) : Survives orphans (some (file.getD [] ++ (sessionLine m).take written)) := by
  refine ⟨_, holds_partial holds (sound.kept m (by simp)).message written, ?_⟩
  split_ifs
  · rw [toList_reload]
    exact loaded.append (sound_reload sound)
  · exact loaded

/-- A call that is cut off, or is not read back, is as if it were not there. -/
theorem call_partial (holds : Holds (file.getD []) messages) (loaded : Sound orphans messages) (message : IsMessage a)
    (calls : toolUses a ≠ []) {written : ℕ} (spared : (cJSON_PrintUnformatted a).length ≤ written → Spared (some a)) :
    Survives orphans (some (file.getD [] ++ (sessionLine a).take written)) := by
  refine ⟨_, holds_partial holds message written, ?_⟩
  split_ifs with both
  · rw [spared_reload message calls (spared both.2), List.append_nil]
    exact loaded
  · exact loaded

/-- After the call's line, its results complete it; without them it must not be read back. -/
theorem call_whole (holds : Holds (file.getD []) messages) (loaded : Sound orphans messages) (sound : Sound orphans [a, r])
    (calls : toolUses a ≠ []) (results : HoldsResults r) (head : orphans ∨ Terminated (file.getD [])) :
    ∃ messages', Clean (file.getD [] ++ sessionLine a) messages' ∧ Sound orphans (messages' ++ (reload r).toList) ∧
      (Spared (some a) → Sound orphans messages') := by
  have message := (sound.kept a (by simp)).message
  refine ⟨_, holds_append holds message, ?_, fun spared => ?_⟩
  · by_cases whole : Terminated (file.getD [])
    · have both : (reload a).toList ++ (reload r).toList = [a, r].filterMap reload := by
        rw [toList_reload, toList_reload, ← List.filterMap_append]
        rfl
      rw [if_pos whole, List.append_assoc, both]
      exact loaded.append (sound_reload sound)
    · have allowed := head.resolve_right whole
      rw [if_neg whole, toList_reload]
      refine loaded.append (sound_reload ⟨.orphan allowed results .nil, fun m member => ?_⟩)
      exact sound.kept m (List.mem_cons_of_mem _ member)
  · rw [spared_reload message calls spared, List.append_nil]
    simpa using loaded

end

/-- Wherever the run is killed, unless its last message calls tools and is read back,
    the file survives. Behind a torn line only messages without calls are written
    first, or results may stand alone. -/
theorem killed_survives {ops : List FileOp} (log : Log orphans ops) :
    ∀ (file : Option Bytes) (before : Option cJSON) (after : ℕ) (written : Option ℕ), Survives orphans file →
      (orphans ∨ Terminated (file.getD []) ∨ ∀ a rest, ops = .append a :: rest → toolUses a = []) →
      Spared (lastWhole before ops after written) → Survives orphans (killed ops after written file) := by
  have ended : ∀ (file : Bytes) (m : cJSON), Terminated ((some (file ++ sessionLine m)).getD []) := terminated_line
  induction log with
  | nil =>
    intro file before after written survives _ _
    exact survives
  | @single m ops sound _ ih =>
    intro file before after written survives _ spared
    obtain ⟨messages, holds, loaded⟩ := survives
    match after, written with
    | 0, none => exact ⟨messages, holds, loaded⟩
    | 0, some written => exact single_partial holds loaded sound written
    | after + 1, written =>
      exact ih _ _ after written (single_whole holds loaded sound) (.inr (.inl (ended _ m))) spared
  | @call a r ops sound calls results _ ih =>
    intro file before after written survives head spared
    obtain ⟨messages, holds, loaded⟩ := survives
    have message := (sound.kept a (by simp)).message
    have message' := (sound.kept r (by simp)).message
    have head : orphans ∨ Terminated (file.getD []) := by
      rcases head with allowed | whole | first
      · exact .inl allowed
      · exact .inr whole
      · exact absurd (first a _ rfl) calls
    obtain ⟨messages', called, whole, alone⟩ := call_whole holds loaded sound calls results head
    match after, written with
    | 0, none => exact ⟨messages, holds, loaded⟩
    | 0, some written =>
      refine call_partial holds loaded message calls fun all => ?_
      rw [lastWhole, if_pos all] at spared
      exact spared
    | 1, none => exact ⟨messages', .inl called, alone spared⟩
    | 1, some written =>
      refine ⟨_, holds_partial (.inl called) message' written, ?_⟩
      by_cases all : (cJSON_PrintUnformatted r).length ≤ written
      · rw [if_pos ⟨called.1, all⟩]
        exact whole
      · rw [lastWhole, lastWhole, if_neg all] at spared
        rw [if_neg fun both => all both.2]
        exact alone spared
    | after + 2, written =>
      have next := holds_append (.inl called) message'
      rw [if_pos called.1] at next
      exact ih _ _ after written ⟨_, .inl next, whole⟩ (.inr (.inl (ended _ r))) spared
  | @rewrite ms ops sound _ ih =>
    intro file before after written survives _ spared
    match after, written with
    | 0, none => exact survives
    | 0, some _ => exact survives
    | after + 1, written =>
      exact ih _ _ after written ⟨_, .inl (clean_lines ms), sound_reload sound⟩ (.inr (.inl (terminated_lines ms))) spared

end Sa.Logs
