import Sa.NodeFocus
import Sa.NodeParser
import Sa.NodePrinter
import Sa.Session

/-!
# The session on the nodes

Loading, healing, compacting and writing the messages where they are in memory: what the
functions leave at `messages` is what the functions on trees return.
-/

namespace Sa.NodeSession
open Sa.CStrings Sa.Doubles Sa.NumberTexts Sa.Separation Sa.Programs Sa.Nodes Sa.Ownership Sa.Containers Sa.JsonNodes
open Sa.NodeReading Sa.NodePrinter Sa.NodeParser Sa.NodeFocus

/-- A loop over the items of an array by their index, `i` of them from `j` on, that sums
    what its body returns. -/
def eachItem (body : ℕ → Option Addr → C ℕ) (n : ℕ) (array : Option Addr) : ℕ → ℕ → C ℕ
  | 0, _ => return 0
  | i + 1, j => do
    let item ← cJSON_GetArrayItem array j
    let count ← body n item
    let rest ← eachItem body n array i (j + 1)
    return count + rest

/-- What happens to the session file, byte by byte. -/
inductive Write where
  | append (line : Bytes)
  | rewrite (content : Bytes)

section
variable (m : Allocator Addr Cell)

def session_append (opens : Bool) (n : ℕ) (msg : Addr) : C (List Write) := do
  let s ← cJSON_PrintUnformatted m n (some msg)
  let text ← chars s
  dealloc s
  return if opens then [.append (text.val ++ [10])] else []

/-- The loop of `session_rewrite`, `i` messages from `j` on. -/
def rewriteLoop (n : ℕ) (messages : Addr) : ℕ → ℕ → C Bytes
  | 0, _ => return []
  | i + 1, j => do
    let msg ← cJSON_GetArrayItem (some messages) j
    let s ← cJSON_PrintUnformatted m n msg
    let text ← chars s
    dealloc s
    let rest ← rewriteLoop n messages i (j + 1)
    return text.val ++ 10 :: rest

def session_rewrite (renames : Bool) (n : ℕ) (messages : Addr) : C (List Write) := do
  let size ← cJSON_GetArraySize n (some messages)
  let content ← rewriteLoop m n messages size 0
  return if renames then [.rewrite content] else []

/-- The loop of `session_load` over the lines. -/
def loadLoop (n : ℕ) (messages : Addr) : List Bytes → C ℕ
  | [] => return 0
  | line :: lines =>
    if line = [] then loadLoop n messages lines
    else do
      match ← cJSON_Parse m n line with
      | some msg =>
        cJSON_AddItemToArray n (some messages) (some msg)
        let count ← loadLoop n messages lines
        return count + 1
      | none => loadLoop n messages lines

/-- How many messages were loaded; `none` is `-1`. -/
def session_load (n : ℕ) (messages : Addr) (file : Option Bytes) : C (Option ℕ) :=
  match file with
  | none => return none
  | some bytes => do
    let count ← loadLoop m n messages (Session.getlines [] bytes)
    return some count

/-- The body of the loop over the items of a content. -/
def clearItem (n : ℕ) (item : Option Addr) : C ℕ := do
  let type ← getString n item (cs "type")
  if type = some (cs "tool_result") then
    let c ← cJSON_GetObjectItem n item (cs "content")
    if ← cJSON_IsString c then
      match ← stringOf c with
      | none => return 0
      | some cur =>
        if 10 < cur.val.length ∧ cur ≠ cs "[cleared]" then
          let _ ← cJSON_SetValuestring m c (cs "[cleared]")
          return 1
        else return 0
    else return 0
  else return 0

/-- The body of the loop over the messages. -/
def clearMessage (n : ℕ) (msg : Option Addr) : C ℕ := do
  let content ← cJSON_GetObjectItem n msg (cs "content")
  if ← cJSON_IsArray content then
    let cn ← cJSON_GetArraySize n content
    eachItem (clearItem m) n content cn 0
  else return 0

def compact_clear_tool_results (n : ℕ) (messages : Addr) (keep_last_n : ℕ) : C ℕ := do
  let size ← cJSON_GetArraySize n (some messages)
  eachItem (clearMessage m) n (some messages) (size - keep_last_n) 0

end

/-- The only item of a message's content. -/
def singleItem (n : ℕ) (msg : Option Addr) : C (Option Addr) := do
  let content ← cJSON_GetObjectItem n msg (cs "content")
  if ← cJSON_IsArray content then
    let size ← cJSON_GetArraySize n content
    if size = 1 then cJSON_GetArrayItem content 0 else return none
  else return none

/-- Whether the loop of `session_prune_empty_tool_use` goes on to delete a message. -/
def emptyToolUse (n : ℕ) (msg : Option Addr) : C Bool := do
  let role ← getString n msg (cs "role")
  if role = some (cs "assistant") then
    match ← singleItem n msg with
    | none => return false
    | some b =>
      let t ← getString n (some b) (cs "type")
      if t = some (cs "tool_use") then
        let input ← cJSON_GetObjectItem n (some b) (cs "input")
        let size ← cJSON_GetArraySize n input
        return size == 0
      else return false
  else return false

/-- Whether what follows is deleted with it. -/
def singleToolResult (n : ℕ) (nxt : Option Addr) : C Bool :=
  match nxt with
  | none => return false
  | some nxt => do
    match ← singleItem n (some nxt) with
    | none => return false
    | some nb =>
      let nt ← getString n (some nb) (cs "type")
      return nt == some (cs "tool_result")

/-- The loop of `session_prune_empty_tool_use` from the message before `i` down. -/
def pruneLoop (n : ℕ) (messages : Addr) : ℕ → C ℕ
  | 0 => return 0
  | i + 1 => do
    let msg ← cJSON_GetArrayItem (some messages) i
    if ← emptyToolUse n msg then
      cJSON_DeleteItemFromArray n messages i
      let nxt ← cJSON_GetArrayItem (some messages) i
      if ← singleToolResult n nxt then
        cJSON_DeleteItemFromArray n messages i
        let removed ← pruneLoop n messages i
        return removed + 2
      else
        let removed ← pruneLoop n messages i
        return removed + 1
    else pruneLoop n messages i

def session_prune_empty_tool_use (n : ℕ) (messages : Addr) : C ℕ := do
  let size ← cJSON_GetArraySize n (some messages)
  pruneLoop n messages size

/-! ### Writing -/

/-- The bytes that an operation writes. -/
def written : Session.FileOp → Write
  | .append msg => .append (Session.sessionLine msg)
  | .rewrite messages => .rewrite (messages.flatMap Session.sessionLine)

section
variable (m : Allocator Addr Cell) {t : Spot} {a : Addr} {v : Tinyjson.cJSON} {xs : List Tinyjson.cJSON} {α : Type}
  {R : Assertion Addr Cell} {S : α → Assertion Addr Cell}

theorem session_append_spec (opens : Bool) : Triple (placed t a v) (fun n => session_append m opens n a)
    fun writes => fact (writes = (Session.session_append opens v).map written) * placed t a v := by
  refine (printUnformatted_spec m fun F h holds => json_refers holds).bind fun s => Triple.chars (Triple.dealloc ?_)
  refine Triple.pure (le_fact_mul ?_ le_rfl)
  cases opens <;> rfl

theorem rewriteLoop_spec (i : ℕ) : ∀ j, i + j = xs.length → Triple (placed t a (.array xs)) (fun n => rewriteLoop m n a i j)
    fun content => fact (content = (xs.drop j).flatMap Session.sessionLine) * placed t a (.array xs) := by
  induction i with
  | zero =>
    intro j all
    refine Triple.pure (le_fact_mul ?_ le_rfl)
    rw [List.drop_of_length_le (by omega), List.flatMap_nil]
  | succ i ih =>
    intro j more
    have inside : j < xs.length := by omega
    rw [← mul_one (placed t a (.array xs))]
    refine (getArrayItem_spec j).call (Triple.focus (fun beyond => ?_) fun w t' b at_index => ?_)
    · rw [List.getElem?_eq_getElem inside] at beyond
      cases beyond
    · obtain ⟨-, rfl⟩ := List.getElem?_eq_some_iff.mp at_index
      refine (printUnformatted_spec m fun F h holds => json_refers holds).call fun s => ?_
      rw [mul_assoc]
      refine Triple.chars (Triple.dealloc (Triple.pre ?_ (fill_placed _)))
      rw [List.set_getElem_self, mul_one]
      refine (ih (j + 1) (by omega)).bind fun content => Triple.fact ?_
      rintro rfl
      refine Triple.pure (le_fact_mul ?_ le_rfl)
      rw [List.drop_eq_getElem_cons inside, List.flatMap_cons, Session.sessionLine, List.append_assoc]
      rfl

theorem getArraySize_spec : Triple (placed t a v) (fun n => cJSON_GetArraySize n (some a))
    fun size => fact (size = v.child.length) * placed t a v :=
  Triple.observe fun _ means => getArraySize_reads (v := some v) means

theorem session_rewrite_spec (renames : Bool) : Triple (placed t a (.array xs)) (fun n => session_rewrite m renames n a)
    fun writes => fact (writes = (Session.session_rewrite renames xs).map written) * placed t a (.array xs) := by
  refine getArraySize_spec.bind fun size => Triple.fact ?_
  rintro rfl
  refine (rewriteLoop_spec m _ 0 (by rfl)).bind fun content => Triple.fact ?_
  rintro rfl
  refine Triple.pure (le_fact_mul ?_ le_rfl)
  cases renames <;> rfl

theorem loadLoop_spec (lines : List Bytes) : ∀ xs : List Tinyjson.cJSON, Triple (json a none (.array xs)) (fun n => loadLoop m n a lines)
    fun count => fact (count = (lines.filterMap Session.readLine).length) *
      json a none (.array (xs ++ lines.filterMap Session.readLine)) := by
  induction lines with
  | nil =>
    intro xs
    refine Triple.pure (le_fact_mul rfl ?_)
    rw [List.filterMap_nil, List.append_nil]
  | cons line lines ih =>
    intro xs
    simp only [loadLoop]
    split_ifs with empty
    · have skipped : Session.readLine line = none := if_pos empty
      rw [List.filterMap_cons_none skipped]
      exact ih xs
    · have read : Session.readLine line = Parser.cJSON_Parse line := if_neg empty
      rw [← one_mul (json a none (.array xs))]
      refine (parse_total m line).call (Triple.whole (fun none => ?_) fun v b some => ?_)
      · rw [List.filterMap_cons_none (read.trans none)]
        exact ih xs
      · rw [List.filterMap_cons_some (read.trans some), mul_comm]
        refine Triple.bind addToArray_json fun _ => (ih (xs ++ [v])).bind fun count => Triple.fact ?_
        rintro rfl
        refine Triple.pure (le_fact_mul rfl (le_of_eq ?_))
        rw [List.append_assoc, List.singleton_append]

/-- Every line that is a message is added to the array. -/
theorem session_load_spec (file : Option Bytes) : Triple (json a none (.array [])) (fun n => session_load m n a file)
    fun count => fact (count = (Session.session_load file).map List.length) *
      json a none (.array ((Session.session_load file).getD [])) := by
  cases file with
  | none => exact Triple.pure (le_fact_mul rfl le_rfl)
  | some bytes =>
    refine (loadLoop_spec m _ []).bind fun count => Triple.fact ?_
    rintro rfl
    exact Triple.pure (le_fact_mul rfl le_rfl)

/-! ### Compacting -/

/-- A loop over the items of an array changes each in its place. -/
theorem eachItem_spec {body : ℕ → Option Addr → C ℕ} {f : Tinyjson.cJSON → Tinyjson.cJSON} {count : Tinyjson.cJSON → ℕ}
    (each : ∀ t a v, Triple (placed t a v) (fun n => body n (some a)) fun k => fact (k = count v) * placed t a (f v))
    (i : ℕ) : ∀ ys zs : List Tinyjson.cJSON, i ≤ zs.length → Triple (placed t a (.array (ys ++ zs)))
      (fun n => eachItem body n (some a) i ys.length)
      fun k => fact (k = ((zs.take i).map count).sum) * placed t a (.array (ys ++ ((zs.take i).map f ++ zs.drop i))) := by
  induction i with
  | zero =>
    intro ys zs _
    exact Triple.pure (le_fact_mul rfl le_rfl)
  | succ i ih =>
    intro ys zs enough
    obtain ⟨v, zs, rfl⟩ := List.exists_cons_of_length_pos (by omega : 0 < zs.length)
    have at_index : (ys ++ v :: zs)[ys.length]? = some v := by simp
    simp only [eachItem]
    refine Triple.pre (P := placed t a (.array (ys ++ v :: zs)) * 1) ?_ (le_of_eq (mul_one _).symm)
    refine (getArrayItem_spec _).call (Triple.focus (fun beyond => ?_) fun w t' b here => ?_)
    · rw [at_index] at beyond
      cases beyond
    · obtain rfl := Option.some.inj (at_index.symm.trans here)
      refine (each t' b v).call fun k => ?_
      rw [mul_assoc]
      refine Triple.fact ?_
      rintro rfl
      refine Triple.pre ?_ (fill_placed _)
      have set : (ys ++ v :: zs).set ys.length (f v) = ys ++ [f v] ++ zs := by simp
      rw [set, mul_one]
      have rest := ih (ys ++ [f v]) zs (by simpa using enough)
      rw [List.length_append, List.length_singleton] at rest
      refine rest.bind fun k => Triple.fact ?_
      rintro rfl
      refine Triple.pure (le_fact_mul (by simp) (le_of_eq ?_))
      simp

theorem getString_spec (key : String) : Triple (placed t a v) (fun n => getString n (some a) (cs key))
    fun s => fact (s = Stream.getString (some v) key) * placed t a v :=
  Triple.observe fun _ means => getString_reads (p := some a) (v := some v) means key

theorem setMember_eq (key s : CString) (ms : List (CString × Tinyjson.cJSON)) :
    Session.setMember key s ms = putMember key (.string s) ms := by
  induction ms with
  | nil => rfl
  | cons m ms ih => rw [Session.setMember, putMember, ih]

theorem clearItem_spec (t : Spot) (a : Addr) (v : Tinyjson.cJSON) : Triple (placed t a v) (fun n => clearItem m n (some a))
    fun k => fact (k = if Session.clearable v then 1 else 0) * placed t a (Session.clearItem v) := by
  -- An item that is not cleared stays as it is.
  have kept {v : Tinyjson.cJSON} (not : Session.clearable v = false) : placed t a v ≤
      fact (0 = if Session.clearable v then 1 else 0) * placed t a (Session.clearItem v) := by
    refine le_fact_mul (by rw [not]; rfl) (le_of_eq ?_)
    unfold Session.clearItem
    cases v <;> simp [not]
  refine (getString_spec "type").bind fun type => Triple.fact ?_
  rintro rfl
  by_cases result : Stream.getString (some v) "type" = some (cs "tool_result")
  · simp only [if_pos result]
    rw [← mul_one (placed t a v)]
    refine (getObjectItem_spec _).call (Triple.focus (fun missing => ?_) fun w t' b content => ?_)
    · refine Triple.pure ?_
      rw [mul_one]
      exact kept (by simp [Session.clearable, missing])
    · have string : Triple (placed t' b w) (fun _ => cJSON_IsString (some b)) _ :=
        Triple.observe fun _ means => isString_reads (p := some b) (v := some w) means
      refine string.call fun isString => ?_
      rw [mul_assoc]
      refine Triple.fact ?_
      rintro rfl
      have back : placed t' b w * (hole (placed t' b) (fun w => placed t a (putItem (cs "content") w v)) * 1) ≤ placed t a v := by
        refine (fill_placed w).trans ?_
        rw [putItem_self content, mul_one]
      cases w with
      | string cur =>
        have value : Triple (placed t' b (.string cur)) (fun _ => stringOf (some b)) _ :=
          Triple.observe fun _ means => stringOf_reads (p := some b) (v := some (.string cur)) means
        simp only [Tinyjson.cJSON_IsString, if_true]
        refine value.call fun s => ?_
        rw [mul_assoc]
        refine Triple.fact ?_
        rintro rfl
        have condition : Session.clearable v = (decide (10 < cur.val.length) && cur != cs "[cleared]") := by
          simp [Session.clearable, Session.typeIs, result, content]
        simp only [Tinyjson.cJSON_GetStringValue]
        by_cases long : 10 < cur.val.length ∧ cur ≠ cs "[cleared]"
        · simp only [if_pos long]
          refine (setValuestring_spec m).call fun copy => Triple.pure ((fill_placed _).trans ?_)
          have clears : Session.clearable v = true := by
            rw [condition]
            simpa using long
          obtain ⟨ys, zs, -, rfl, -⟩ := putItem_split content
          rw [mul_one, Session.clearItem, if_pos clears, if_pos clears, setMember_eq]
          exact le_fact_mul rfl le_rfl
        · simp only [if_neg long]
          refine Triple.pure (back.trans (kept ?_))
          rw [condition]
          simpa using long
      | _ => exact Triple.pure (back.trans (kept (by simp [Session.clearable, content])))
  · simp only [if_neg result]
    refine Triple.pure (kept ?_)
    simp [Session.clearable, Session.typeIs, result]

theorem mapContent_eq {items : List Tinyjson.cJSON} {ms : List (CString × Tinyjson.cJSON)} (f : Tinyjson.cJSON → Tinyjson.cJSON)
    (content : Tinyjson.cJSON_GetObjectItem (some (.object ms)) (cs "content") = some (.array items)) :
    Session.mapContent f ms = putMember (cs "content") (.array (items.map f)) ms := by
  induction ms with
  | nil => cases content
  | cons m ms ih =>
    obtain ⟨k, v⟩ := m
    rw [Tinyjson.getObjectItem_cons] at content
    rw [Session.mapContent, putMember]
    split_ifs at content ⊢ with here
    · obtain rfl := Option.some.inj content
      rfl
    · rw [ih content]

theorem mapContent_self {ms : List (CString × Tinyjson.cJSON)} (f : Tinyjson.cJSON → Tinyjson.cJSON)
    (content : Session.contentItemsOf (.object ms) = none) : Session.mapContent f ms = ms := by
  induction ms with
  | nil => rfl
  | cons m ms ih =>
    obtain ⟨k, v⟩ := m
    rw [Session.contentItemsOf, Tinyjson.getObjectItem_cons] at content
    rw [Session.mapContent]
    split_ifs at content ⊢ with here
    · cases v <;> first | rfl | cases content
    · rw [ih content]

theorem sum_clearable (items : List Tinyjson.cJSON) :
    (items.map fun v => if Session.clearable v then 1 else 0).sum = items.countP Session.clearable := by
  induction items with
  | nil => rfl
  | cons v items ih =>
    rw [List.map_cons, List.sum_cons, ih, List.countP_cons]
    omega

theorem clearMessage_spec (t : Spot) (a : Addr) (v : Tinyjson.cJSON) : Triple (placed t a v) (fun n => clearMessage m n (some a))
    fun k => fact (k = Session.clearedIn v) * placed t a (Session.clearMessage v) := by
  -- A message whose content is no array stays as it is.
  have kept (none : Session.contentItemsOf v = none) : placed t a v ≤
      fact (0 = Session.clearedIn v) * placed t a (Session.clearMessage v) := by
    refine le_fact_mul (by rw [Session.clearedIn, none]; rfl) (le_of_eq ?_)
    cases v with
    | object ms => rw [Session.clearMessage, mapContent_self _ none]
    | _ => rfl
  rw [← mul_one (placed t a v)]
  refine (getObjectItem_spec _).call (Triple.focus (fun missing => ?_) fun w t' b content => ?_)
  · refine Triple.pure ?_
    rw [mul_one]
    exact kept (by simp [Session.contentItemsOf, missing])
  · have array : Triple (placed t' b w) (fun _ => cJSON_IsArray (some b)) _ :=
      Triple.observe fun _ means => isArray_reads (p := some b) (v := some w) means
    refine array.call fun isArray => ?_
    rw [mul_assoc]
    refine Triple.fact ?_
    rintro rfl
    have back : placed t' b w * (hole (placed t' b) (fun w => placed t a (putItem (cs "content") w v)) * 1) ≤ placed t a v := by
      refine (fill_placed w).trans ?_
      rw [putItem_self content, mul_one]
    cases w with
    | array items =>
      simp only [Tinyjson.cJSON_IsArray, if_true]
      refine getArraySize_spec.call fun size => ?_
      rw [mul_assoc]
      refine Triple.fact ?_
      rintro rfl
      refine ((eachItem_spec (clearItem_spec m) items.length [] items le_rfl).frame _).post fun k => ?_
      rw [mul_assoc]
      refine fact_mul_le fun counted => ?_
      rw [List.nil_append, List.take_length, List.drop_length, List.append_nil]
      refine (fill_placed _).trans ?_
      obtain ⟨ys, zs, -, rfl, -⟩ := putItem_split content
      rw [mul_one, Session.clearMessage, mapContent_eq _ content]
      refine le_fact_mul ?_ le_rfl
      rw [counted, Session.clearedIn, Session.contentItemsOf, content, List.take_length, Option.getD_some, sum_clearable]
    | _ => exact Triple.pure (back.trans (kept (by simp [Session.contentItemsOf, content])))

/-- The messages are compacted where they are. -/
theorem compact_spec (keep_last_n : ℕ) : Triple (placed t a (.array xs)) (fun n => compact_clear_tool_results m n a keep_last_n)
    fun k => fact (k = (Session.compact_clear_tool_results xs keep_last_n).1) *
      placed t a (.array (Session.compact_clear_tool_results xs keep_last_n).2) := by
  refine getArraySize_spec.bind fun size => Triple.fact ?_
  rintro rfl
  exact eachItem_spec (clearMessage_spec m) (xs.length - keep_last_n) [] xs (Nat.sub_le _ _)

theorem singleItem_reads {h : Memory} {p : Option Addr} {v : Option Tinyjson.cJSON} (refers : Refers h p v) :
    ∃ q, Reads h (fun n => singleItem n p) q ∧ Refers h q (v.bind Session.singleItem) := by
  obtain ⟨content, found, leads⟩ := getObjectItem_reads refers (cs "content")
  have other (none : v.bind Session.singleItem = none) (no : Tinyjson.cJSON_IsArray (Tinyjson.cJSON_GetObjectItem v (cs "content")) = false) :
      ∃ q, Reads h (fun n => singleItem n p) q ∧ Refers h q (v.bind Session.singleItem) := by
    refine ⟨Option.none, Reads.bind found (Reads.bind (isArray_reads leads) ?_), by rw [none]; trivial⟩
    rw [no]
    exact Reads.pure
  cases v with
  | none => exact other rfl rfl
  | some msg =>
    cases at_key : Tinyjson.cJSON_GetObjectItem (some msg) (cs "content") with
    | none => exact other (by simp [Session.singleItem, Session.contentItemsOf, at_key]) (by rw [at_key]; rfl)
    | some w =>
      cases w with
      | array items =>
        rw [at_key] at leads
        obtain ⟨c, rfl⟩ : ∃ c, content = some c := by
          cases content with
          | none => exact leads.elim
          | some c => exact ⟨c, rfl⟩
        have size := getArraySize_reads leads
        by_cases one : items.length = 1
        · obtain ⟨item, rfl⟩ := List.length_eq_one_iff.mp one
          obtain ⟨q, reads, refers'⟩ := getArrayItem_reads leads 0
          refine ⟨q, Reads.bind found (Reads.bind (isArray_reads leads) (Reads.bind size reads)), ?_⟩
          simpa [Session.singleItem, Session.contentItemsOf, at_key] using refers'
        · refine ⟨none, Reads.bind found (Reads.bind (isArray_reads leads) (Reads.bind size ?_)), ?_⟩
          · have several : ¬Tinyjson.cJSON_GetArraySize (some (.array items)) = 1 := one
            simp only [if_neg several]
            exact Reads.pure
          · have several : Session.singleItem msg = none := by
              rcases items with _ | ⟨x, _ | ⟨y, ys⟩⟩
              · simp [Session.singleItem, Session.contentItemsOf, at_key]
              · exact absurd rfl one
              · simp [Session.singleItem, Session.contentItemsOf, at_key]
            rw [Option.bind_some, several]
            trivial
      | _ => exact other (by simp [Session.singleItem, Session.contentItemsOf, at_key]) (by rw [at_key]; rfl)

theorem emptyToolUse_reads {h : Memory} {p : Option Addr} {msg : Tinyjson.cJSON} (refers : Refers h p (some msg)) :
    Reads h (fun n => emptyToolUse n p) (Session.emptyToolUse msg) := by
  refine Reads.bind (getString_reads refers "role") ?_
  by_cases role : Stream.getString (some msg) "role" = some (cs "assistant")
  · simp only [if_pos role]
    obtain ⟨q, reads, leads⟩ := singleItem_reads refers
    refine Reads.bind reads ?_
    rw [Option.bind_some] at leads
    cases single : Session.singleItem msg with
    | none =>
      rw [single] at leads
      cases q with
      | some b => exact leads.elim
      | none =>
        have result : Session.emptyToolUse msg = false := by simp [Session.emptyToolUse, single]
        rw [result]
        exact Reads.pure
    | some b =>
      rw [single] at leads
      cases q with
      | none => exact leads.elim
      | some q =>
        have result : Session.emptyToolUse msg = (decide (Stream.getString (some b) "type" = some (cs "tool_use")) &&
            Tinyjson.cJSON_GetArraySize (Tinyjson.cJSON_GetObjectItem (some b) (cs "input")) == 0) := by
          simp [Session.emptyToolUse, Session.typeIs, role, single, Bool.beq_eq_decide_eq]
        rw [result]
        refine Reads.bind (getString_reads leads "type") ?_
        by_cases type : Stream.getString (some b) "type" = some (cs "tool_use")
        · simp only [if_pos type, decide_eq_true type, Bool.true_and]
          obtain ⟨input, found, there⟩ := getObjectItem_reads leads (cs "input")
          exact Reads.bind found (Reads.bind (getArraySize_reads there) Reads.pure)
        · simp only [if_neg type, decide_eq_false type, Bool.false_and]
          exact Reads.pure
  · have result : Session.emptyToolUse msg = false := by simp [Session.emptyToolUse, role]
    simp only [if_neg role, result]
    exact Reads.pure

theorem singleToolResult_reads {h : Memory} {p : Option Addr} {v : Option Tinyjson.cJSON} (refers : Refers h p v) :
    Reads h (fun n => singleToolResult n p) (v.any Session.singleToolResult) := by
  cases p with
  | none =>
    cases v with
    | none => exact Reads.pure
    | some msg => exact refers.elim
  | some nxt =>
    cases v with
    | none => exact refers.elim
    | some msg =>
      obtain ⟨q, reads, leads⟩ := singleItem_reads refers
      refine Reads.bind reads ?_
      rw [Option.bind_some] at leads
      rw [Option.any_some, Session.singleToolResult]
      cases single : Session.singleItem msg with
      | none =>
        rw [single] at leads
        cases q with
        | some b => exact leads.elim
        | none => exact Reads.pure
      | some nb =>
        rw [single] at leads
        cases q with
        | none => exact leads.elim
        | some q => exact Reads.bind (getString_reads leads "type") Reads.pure

/-- What the loop deletes of a message and what follows. -/
def healed (msg : Tinyjson.cJSON) (rest : List Tinyjson.cJSON) : ℕ × List Tinyjson.cJSON :=
  if Session.emptyToolUse msg then
    match rest with
    | nxt :: tail => if Session.singleToolResult nxt then (2, tail) else (1, rest)
    | [] => (1, [])
  else (0, msg :: rest)

theorem prune_cons (msg : Tinyjson.cJSON) (rest : List Tinyjson.cJSON) :
    Session.session_prune_empty_tool_use (msg :: rest) = ((Session.session_prune_empty_tool_use rest).1 +
      (healed msg (Session.session_prune_empty_tool_use rest).2).1, (healed msg (Session.session_prune_empty_tool_use rest).2).2) := by
  rw [Session.session_prune_empty_tool_use]
  unfold healed
  obtain ⟨removed, rest⟩ := Session.session_prune_empty_tool_use rest
  split_ifs
  · cases rest with
    | nil => rfl
    | cons nxt tail =>
      simp only
      split_ifs <;> rfl
  · rfl

theorem emptyToolUse_spec {msg : Tinyjson.cJSON} {i : ℕ} (at_index : xs[i]? = some msg) : Triple (placed t a (.array xs))
    (fun n => cJSON_GetArrayItem (some a) i >>= emptyToolUse n) fun b => fact (b = Session.emptyToolUse msg) * placed t a (.array xs) :=
  Triple.observe fun h means => by
    obtain ⟨q, reads, refers⟩ := getArrayItem_reads (h := h) (a := a) means i
    rw [at_index] at refers
    exact Reads.bind reads (emptyToolUse_reads refers)

theorem singleToolResult_spec (i : ℕ) : Triple (placed t a (.array xs))
    (fun n => cJSON_GetArrayItem (some a) i >>= singleToolResult n)
    fun b => fact (b = xs[i]?.any Session.singleToolResult) * placed t a (.array xs) :=
  Triple.observe fun h means => by
    obtain ⟨q, reads, refers⟩ := getArrayItem_reads (h := h) (a := a) means i
    exact Reads.bind reads (singleToolResult_reads refers)

/-- The messages before are still to be looked at, and those behind are healed. -/
theorem pruneLoop_spec (ys : List Tinyjson.cJSON) : ∀ rest,
    Triple (placed t a (.array (ys ++ (Session.session_prune_empty_tool_use rest).2))) (fun n => pruneLoop n a ys.length)
      fun k => fact ((Session.session_prune_empty_tool_use rest).1 + k = (Session.session_prune_empty_tool_use (ys ++ rest)).1) *
        placed t a (.array (Session.session_prune_empty_tool_use (ys ++ rest)).2) := by
  induction ys using List.reverseRecOn with
  | nil =>
    intro rest
    exact Triple.pure (le_fact_mul rfl le_rfl)
  | append_singleton ys msg ih =>
    intro rest
    -- What is left to do when this message and what it takes with it are gone.
    have goesOn {k : ℕ} {zs : List Tinyjson.cJSON} (heals : healed msg (Session.session_prune_empty_tool_use rest).2 = (k, zs)) :
        Triple (placed t a (.array (ys ++ zs))) (fun n => pruneLoop n a ys.length >>= fun removed => Pure.pure (removed + k))
          fun k => fact ((Session.session_prune_empty_tool_use rest).1 + k =
              (Session.session_prune_empty_tool_use (ys ++ [msg] ++ rest)).1) *
            placed t a (.array (Session.session_prune_empty_tool_use (ys ++ [msg] ++ rest)).2) := by
      have later := ih (msg :: rest)
      rw [prune_cons, heals] at later
      refine later.bind fun removed => Triple.fact fun counted => Triple.pure (le_fact_mul ?_ ?_)
      · rw [List.append_assoc, List.singleton_append, ← counted]
        omega
      · rw [List.append_assoc, List.singleton_append]
    generalize zs_eq : (Session.session_prune_empty_tool_use rest).2 = zs at goesOn ⊢
    have at_index : (ys ++ [msg] ++ zs)[ys.length]? = some msg := by simp
    have erased (x : Tinyjson.cJSON) (zs : List Tinyjson.cJSON) : (ys ++ [x] ++ zs).eraseIdx ys.length = ys ++ zs := by
      rw [List.append_assoc, List.eraseIdx_append_of_length_le le_rfl]
      simp
    rw [List.length_append, List.length_singleton]
    simp only [pruneLoop]
    simp only [← bind_assoc (cJSON_GetArrayItem _ _)]
    refine (emptyToolUse_spec at_index).bind fun b => Triple.fact ?_
    rintro rfl
    cases empty : Session.emptyToolUse msg with
    | false =>
      have alone : healed msg zs = (0, msg :: zs) := by simp [healed, empty]
      have kept := goesOn alone
      simpa only [Bool.false_eq_true, if_false, Nat.add_zero, bind_pure, List.append_assoc, List.singleton_append] using kept
    | true =>
      simp only [if_true]
      refine (deleteItem_spec _).bind fun _ => ?_
      rw [erased]
      refine (singleToolResult_spec _).bind fun b => Triple.fact ?_
      rintro rfl
      rw [List.getElem?_append_right le_rfl, Nat.sub_self]
      cases zs with
      | nil =>
        simp only [List.getElem?_nil, Option.any_none, Bool.false_eq_true, if_false]
        exact goesOn (by simp [healed, empty])
      | cons nxt tail =>
        rw [List.getElem?_cons_zero, Option.any_some]
        cases result : Session.singleToolResult nxt with
        | true =>
          simp only [if_true]
          refine (deleteItem_spec _).bind fun _ => ?_
          have gone := erased nxt tail
          rw [List.append_assoc, List.singleton_append] at gone
          rw [gone]
          exact goesOn (by simp [healed, empty, result])
        | false =>
          simp only [Bool.false_eq_true, if_false]
          exact goesOn (by simp [healed, empty, result])

/-- The messages are healed where they are. -/
theorem prune_spec : Triple (placed t a (.array xs)) (fun n => session_prune_empty_tool_use n a)
    fun removed => fact (removed = (Session.session_prune_empty_tool_use xs).1) *
      placed t a (.array (Session.session_prune_empty_tool_use xs).2) := by
  refine getArraySize_spec.bind fun size => Triple.fact ?_
  rintro rfl
  have loop := pruneLoop_spec (t := t) (a := a) xs []
  simp only [Session.session_prune_empty_tool_use, List.append_nil, Nat.zero_add] at loop
  exact loop

end

end Sa.NodeSession
