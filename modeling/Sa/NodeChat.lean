import Sa.NodeRequests
import Sa.NodeSession
import Sa.NodeStream
import Sa.NodeTools

/-!
# Conversations on the nodes

The messages of a run where they are in memory, with all that is made and freed for them:
a run ends, does to the file and sends what the run on trees does, and leaves the memory as
it was (`main_spec`).
-/

namespace Sa.NodeChat
open Sa.CStrings Sa.Doubles Sa.NumberTexts Sa.Separation Sa.Programs Sa.Nodes Sa.Ownership Sa.Containers Sa.JsonNodes
open Sa.NodeReading Sa.NodePrinter Sa.NodeParser Sa.NodeFocus Sa.NodeSession Sa.NodeStream Sa.NodeTools
open Sa.Stream (block_t stream_state_t initial emptyString MAX_BLOCKS)
open Sa.Chat (Tools Iteration Prompt Run isToolUse MAX_TOOL_ITER)

/-- `cJSON_IsNumber(item) ? (long)item->valuedouble : default`. -/
def longOr (item : Option Addr) (default : ℤ) : C ℤ := do
  if ← cJSON_IsNumber item then
    match item with
    | none => return default
    | some item =>
      let number ← node item
      return to_llong number.valuedouble
  else return default

/-- The text that `dispatch_tool` returns. -/
def output (n : ℕ) (tools : Tools) (name : CString) (input : Option Addr) : C CString :=
  if name = cs "shell" then do
    match ← getString n input (cs "cmd") with
    | none => return cs "error: shell requires cmd"
    | some cmd => return tools.run_shell cmd
  else if name = cs "edit_file" then do
    let path ← getString n input (cs "path")
    let os ← getString n input (cs "old_string")
    let ns ← getString n input (cs "new_string")
    match path, os, ns with
    | some path, some os, some ns => return tools.edit_file_tool path os ns
    | _, _, _ => return cs "error: edit_file requires path, old_string, new_string"
  else if name = cs "read_file" then do
    let path ← getString n input (cs "path")
    let joff ← cJSON_GetObjectItem n input (cs "offset")
    let jlim ← cJSON_GetObjectItem n input (cs "limit")
    let offset ← longOr joff 1
    let limit ← longOr jlim 2000
    match path with
    | none => return cs "error: read_file requires path"
    | some path => return tools.read_file_tool path offset limit
  else return cs "error: unknown tool"

/-- What happens outside the memory: to the session file, and the requests that are sent. -/
structure Effects where
  writes : List Write
  requests : List CString

def Effects.then (first second : Effects) : Effects := ⟨first.writes ++ second.writes, first.requests ++ second.requests⟩

section
variable (m : Allocator Addr Cell)

def dispatch_tool (n : ℕ) (tools : Tools) (name : CString) (input : Option Addr) : C Addr := do
  let out ← output n tools name input
  strdup m out

/-- The loop over the blocks that fills `results`. -/
def resultsLoop (tools : Fin MAX_BLOCKS → Tools) (st : stream_state_t) (n : ℕ) (results : Addr) : List (Fin MAX_BLOCKS) → C Unit
  | [] => return ()
  | i :: is =>
    let b := st.blocks i
    if isToolUse b then do
      let input ← cJSON_Parse m n (if 0 < b.partial_json.val.length then b.partial_json.val else lit "\x7b\x7d")
      let out ← dispatch_tool m n (tools i) b.name input
      cJSON_Delete n input
      let res ← cJSON_CreateObject m
      cJSON_AddStringToObject m n (some res) (cs "type") (cs "tool_result")
      cJSON_AddStringToObject m n (some res) (cs "tool_use_id") b.id
      let content ← chars out
      cJSON_AddStringToObject m n (some res) (cs "content") content
      cJSON_AddItemToArray n (some results) (some res)
      dealloc out
      resultsLoop tools st n results is
    else resultsLoop tools st n results is

/-- A message goes to the messages, and from there to the file. -/
def addMessage (opens : Bool) (n : ℕ) (messages msg : Addr) : C (List Write) := do
  cJSON_AddItemToArray n (some messages) (some msg)
  session_append m opens n msg

/-- A message of a role that holds a content. -/
def roleMsg (n : ℕ) (role : CString) (content : Addr) : C Addr := do
  let msg ← cJSON_CreateObject m
  cJSON_AddStringToObject m n (some msg) (cs "role") role
  cJSON_AddItemToObject m n (some msg) (cs "content") (some content)
  return msg

/-- A return code, or none to go on, and what happened to the file, when the context is too long. -/
def onOverflow (it : Iteration) (n : ℕ) (messages : Addr) : C (Option ℤ × List Write) := do
  let cleared ← compact_clear_tool_results m n messages 10
  if 0 < cleared then
    let writes ← session_rewrite m it.renames n messages
    return (none, writes)
  else return (some 1, [])

/-- The same after a reply. -/
def onReply (it : Iteration) (st : stream_state_t) (n : ℕ) (messages : Addr) : C (Option ℤ × List Write) := do
  match ← blocks_to_content m n st with
  | none => return (some 2, [])
  | some content =>
    let assist ← roleMsg m n (cs "assistant") content
    let writes ← addMessage m it.opensAssist n messages assist
    if st.active.any isToolUse then
      let results ← cJSON_CreateArray m
      resultsLoop m it.tools st n results ((List.finRange MAX_BLOCKS).take st.n)
      let results_msg ← roleMsg m n (cs "user") results
      let more ← addMessage m it.opensResults n messages results_msg
      return (none, writes ++ more)
    else return (some 0, writes)

/-- The same for every result of an exchange. -/
def onResult (it : Iteration) (r : ℤ) (st : stream_state_t) (n : ℕ) (messages : Addr) : C (Option ℤ × List Write) :=
  if r = -3 then onOverflow m it n messages
  else if r = -2 then return (some 130, [])
  else if r < 0 then return (some 1, [])
  else onReply m it st n messages

/-- The iteration of `chat_turn`, from its request on. -/
def exchange (it : Iteration) (n : ℕ) (model system_prompt : CString) (messages tools : Addr) : C (Option ℤ × Effects) := do
  let req_json ← NodeRequests.request m n model system_prompt messages tools
  let body ← chars req_json
  let (r, st, _) ← do_turn m n it.exchange initial
  dealloc req_json
  let (code, writes) ← onResult m it r st n messages
  return (code, ⟨writes, [body]⟩)

def iteration (it : Iteration) (n : ℕ) (model system_prompt : CString) (messages tools : Addr) : C (Option ℤ × Effects) :=
  if it.interrupt then return (some 130, ⟨[], []⟩) else exchange m it n model system_prompt messages tools

def chatLoop (n : ℕ) (model system_prompt : CString) (messages tools : Addr) : ℕ → (ℕ → Iteration) → C (ℤ × Effects)
  | 0, _ => return (0, ⟨[], []⟩)
  | fuel + 1, world => do
    match ← iteration m (world 0) n model system_prompt messages tools with
    | (some code, done) => return (code, done)
    | (none, done) =>
      let (code, more) ← chatLoop n model system_prompt messages tools fuel fun i => world (i + 1)
      return (code, done.then more)

def chat_turn (n : ℕ) (model system_prompt : CString) (messages tools : Addr) (world : ℕ → Iteration) : C (ℤ × Effects) :=
  chatLoop m n model system_prompt messages tools MAX_TOOL_ITER world

def make_user_msg (n : ℕ) (text : CString) : C Addr := do
  let msg ← cJSON_CreateObject m
  cJSON_AddStringToObject m n (some msg) (cs "role") (cs "user")
  let content ← cJSON_CreateArray m
  let item ← cJSON_CreateObject m
  cJSON_AddStringToObject m n (some item) (cs "type") (cs "text")
  cJSON_AddStringToObject m n (some item) (cs "text") text
  cJSON_AddItemToArray n (some content) (some item)
  cJSON_AddItemToObject m n (some msg) (cs "content") (some content)
  return msg

def ask (n : ℕ) (model system_prompt : CString) (messages tools : Addr) (p : Prompt) : C (ℤ × Effects) := do
  let user_msg ← make_user_msg m n p.text
  let writes ← addMessage m p.opens n messages user_msg
  let (code, done) ← chat_turn m n model system_prompt messages tools p.world
  return (code, Effects.then ⟨writes, []⟩ done)

def repl (n : ℕ) (model system_prompt : CString) (messages tools : Addr) : List Prompt → C (ℤ × Effects)
  | [] => return (0, ⟨[], []⟩)
  | p :: ps =>
    if p.text = emptyString then repl n model system_prompt messages tools ps
    else do
      let (r, done) ← ask m n model system_prompt messages tools p
      if r = 1 then return (1, done)
      else
        let (rc, more) ← repl n model system_prompt messages tools ps
        return (rc, done.then more)

/-- The messages of the session go to `messages`, healed. -/
def resume (n : ℕ) (run : Run) (file : Option Bytes) (messages : Addr) : C (List Write) :=
  if run.continue_flag then do
    match ← session_load m n messages file with
    | none => return []
    | some _ =>
      let pruned ← session_prune_empty_tool_use n messages
      if 0 < pruned then session_rewrite m run.renames n messages else return []
  else return []

def converse (n : ℕ) (model system_prompt : CString) (run : Run) (messages tools : Addr) : C (ℤ × Effects) :=
  match run.input with
  | .oneshot prompt => ask m n model system_prompt messages tools prompt
  | .lines prompts => repl m n model system_prompt messages tools prompts

def main (n : ℕ) (model system_prompt : CString) (run : Run) (file : Option Bytes) : C (ℤ × Effects) := do
  let messages ← cJSON_CreateArray m
  let writes ← resume m n run file messages
  let tools ← cJSON_CreateArray m
  let shell ← make_shell_tool m n
  cJSON_AddItemToArray n (some tools) (some shell)
  let read_file ← make_read_file_tool m n
  cJSON_AddItemToArray n (some tools) (some read_file)
  let edit_file ← make_edit_file_tool m n
  cJSON_AddItemToArray n (some tools) (some edit_file)
  let (rc, done) ← converse m n model system_prompt run messages tools
  cJSON_Delete n (some messages)
  cJSON_Delete n (some tools)
  return (rc, Effects.then ⟨writes, []⟩ done)

end

/-! ### Calls -/

section
variable {h : Memory} {p : Option Addr} {v : Option Tinyjson.cJSON}

theorem longOr_reads (refers : Refers h p v) (default : ℤ) : Reads h (fun _ => longOr p default) (Chat.longOr v default) := by
  refine Reads.bind (isNumber_reads refers) ?_
  cases v with
  | none => exact Reads.pure
  | some v =>
    cases p with
    | none => exact refers.elim
    | some a =>
      cases v with
      | number d =>
        obtain ⟨k, item, looks, -⟩ := refers
        have value : item.valuedouble = d := looks.valuedouble
        refine Reads.bind (reads_node looks.node) ?_
        rw [value]
        exact Reads.pure
      | _ => exact Reads.pure

theorem output_reads (tools : Tools) (name : CString) (refers : Refers h p v) :
    Reads h (fun n => output n tools name p) (Chat.dispatch_tool tools name v) := by
  unfold output Chat.dispatch_tool
  by_cases shell : name = cs "shell"
  · simp only [if_pos shell]
    refine Reads.bind (getString_reads refers "cmd") ?_
    cases Stream.getString v "cmd" <;> exact Reads.pure
  simp only [if_neg shell]
  by_cases edit : name = cs "edit_file"
  · simp only [if_pos edit]
    refine Reads.bind (getString_reads refers "path") (Reads.bind (getString_reads refers "old_string")
      (Reads.bind (getString_reads refers "new_string") ?_))
    cases Stream.getString v "path" <;> cases Stream.getString v "old_string" <;>
      cases Stream.getString v "new_string" <;> exact Reads.pure
  simp only [if_neg edit]
  by_cases read : name = cs "read_file"
  · simp only [if_pos read]
    obtain ⟨joff, offset, leads⟩ := getObjectItem_reads refers (cs "offset")
    obtain ⟨jlim, limit, leads'⟩ := getObjectItem_reads refers (cs "limit")
    refine Reads.bind (getString_reads refers "path") (Reads.bind offset (Reads.bind limit
      (Reads.bind (longOr_reads leads 1) (Reads.bind (longOr_reads leads' 2000) ?_))))
    cases Stream.getString v "path" <;> exact Reads.pure
  · simp only [if_neg read]
    exact Reads.pure

end

section
variable (m : Allocator Addr Cell) {a b : Addr} {t : Spot} {v : Tinyjson.cJSON} {xs ys : List Tinyjson.cJSON}
  {ms : List (CString × Tinyjson.cJSON)}

theorem whole_refers {h : Memory} {v : Option Tinyjson.cJSON} {p : Option Addr} {R : Assertion Addr Cell}
    (holds : h ∈ whole v p * R) : Refers h p v := by
  rcases v with _ | v
  · rcases p with _ | a
    · trivial
    · obtain ⟨_, _, -, -, none, -⟩ := holds
      exact none.elim
  · rcases p with _ | a
    · obtain ⟨_, _, -, -, none, -⟩ := holds
      exact none.elim
    · exact json_refers holds

/-- What a tool returned, with its input as it was. -/
theorem dispatch_tool_spec (tools : Tools) (name : CString) (v : Option Tinyjson.cJSON) (p : Option Addr) :
    Triple (whole v p) (fun n => dispatch_tool m n tools name p)
      fun out => pts out (.chars (Chat.dispatch_tool tools name v)) * whole v p := by
  have text : Triple (whole v p) (fun n => output n tools name p) fun out => fact (out = Chat.dispatch_tool tools name v) * whole v p :=
    Triple.reads fun F h holds => ⟨_, output_reads tools name (whole_refers holds), rfl⟩
  refine text.bind fun out => Triple.fact ?_
  rintro rfl
  exact Triple.alloc_last m

theorem delete_whole (v : Option Tinyjson.cJSON) (p : Option Addr) : Triple (whole v p) (fun n => cJSON_Delete n p) fun _ => 1 := by
  rcases v with _ | v
  · rcases p with _ | a
    · simp only [delete_none]
      exact Triple.pure le_rfl
    · exact Triple.pre Triple.bot (le_of_eq (mul_one _).symm)
  · rcases p with _ | a
    · exact Triple.pre Triple.bot (le_of_eq (mul_one _).symm)
    · exact delete_held

/-- The result for a block, if it is a call. -/
def resultAt (tools : Fin MAX_BLOCKS → Tools) (st : stream_state_t) (i : Fin MAX_BLOCKS) : Option Tinyjson.cJSON :=
  if isToolUse (st.blocks i) then some (Chat.toolResult (tools i) (st.blocks i)) else none

/-- The results of the calls go to `results` in their order. -/
theorem resultsLoop_spec (tools : Fin MAX_BLOCKS → Tools) (st : stream_state_t) (is : List (Fin MAX_BLOCKS)) :
    ∀ xs : List Tinyjson.cJSON, Triple (json a none (.array xs)) (fun n => resultsLoop m tools st n a is)
      fun _ => json a none (.array (xs ++ is.filterMap (resultAt tools st))) := by
  induction is with
  | nil =>
    intro xs
    exact Triple.pure (le_of_eq (by rw [List.filterMap_nil, List.append_nil]))
  | cons i is ih =>
    intro xs
    simp only [resultsLoop]
    by_cases call : isToolUse (st.blocks i)
    · have made : resultAt tools st i = some (Chat.toolResult (tools i) (st.blocks i)) := if_pos call
      simp only [if_pos call]
      rw [List.filterMap_cons_some made, ← one_mul (json a none _)]
      refine (parse_total m _).call fun input => (dispatch_tool_spec m (tools i) _ _ _).call fun out => ?_
      rw [mul_right_comm, mul_comm]
      refine (delete_whole _ _).call fun _ => (createObject_json m).call fun res => (addString_json m _ _).call fun _ =>
        (addString_json m _ _).call fun _ => ?_
      rw [mul_left_comm]
      refine Triple.chars ?_
      rw [mul_left_comm]
      refine (addString_json m _ _).call fun _ => ?_
      rw [mul_left_comm, mul_comm, mul_comm (json res none _)]
      refine addToArray_json.call fun _ => ?_
      rw [mul_comm]
      refine Triple.dealloc ((ih _).post fun _ => le_of_eq ?_)
      rw [List.append_assoc, List.singleton_append]
      rfl
    · have made : resultAt tools st i = none := if_neg call
      simp only [if_neg call]
      rw [List.filterMap_cons_none made]
      exact ih xs

theorem addMessage_spec (opens : Bool) : Triple (placed t a (.array xs) * json b none v) (fun n => addMessage m opens n a b)
    fun writes => fact (writes = (Session.session_append opens v).map written) * placed t a (.array (xs ++ [v])) := by
  refine Triple.bind addToArray_focus fun _ => Triple.iSup fun t' => ?_
  refine ((session_append_spec m opens).frame _).post fun writes => ?_
  rw [mul_assoc]
  exact mul_le_mul_right (fill v) _

theorem roleMsg_spec (role : CString) : Triple (json a none v) (fun n => roleMsg m n role a)
    fun msg => json msg none (.object [(cs "role", .string role), (cs "content", v)]) := by
  rw [← one_mul (json a none v)]
  refine (createObject_json m).call fun msg => (addString_json m _ _).call fun _ => ?_
  exact Triple.bind (addToObject_json m _) fun _ => Triple.pure le_rfl

theorem make_user_msg_spec (text : CString) : Triple 1 (fun n => make_user_msg m n text)
    fun msg => json msg none (Chat.make_user_msg text) := by
  refine (createObject_json m).bind fun msg => (addString_json m _ _).bind fun _ => ?_
  rw [← one_mul (placed _ msg _)]
  refine (createArray_json m).call fun content => ?_
  rw [← one_mul (json content none _ * _)]
  refine (createObject_json m).call fun item => (addString_json m _ _).call fun _ => (addString_json m _ _).call fun _ => ?_
  rw [← mul_assoc, mul_comm (json item none _)]
  refine addToArray_json.call fun _ => ?_
  rw [mul_comm]
  exact Triple.bind (addToObject_json m _) fun _ => Triple.pure le_rfl

/-- What a part of a turn returned, and the messages it left. -/
def left (a : Addr) (result : Option ℤ × List Tinyjson.cJSON × List Session.FileOp) (r : Option ℤ × List Write) : Assertion Addr Cell :=
  fact (r = (result.1, result.2.2.map written)) * json a none (.array result.2.1)

/-- `Chat.iteration` where the context is too long. -/
def overflowed (it : Iteration) (xs : List Tinyjson.cJSON) : Option ℤ × List Tinyjson.cJSON × List Session.FileOp :=
  let (cleared, xs) := Session.compact_clear_tool_results xs 10
  if 0 < cleared then (none, xs, Session.session_rewrite it.renames xs) else (some 1, xs, [])

/-- `Chat.iteration` after a reply. -/
def replied (it : Iteration) (st : stream_state_t) (xs : List Tinyjson.cJSON) :
    Option ℤ × List Tinyjson.cJSON × List Session.FileOp :=
  match Stream.blocks_to_content st with
  | none => (some 2, xs, [])
  | some content =>
    let assist := Chat.assistantMsg content
    let ops := Session.session_append it.opensAssist assist
    if st.active.any isToolUse then
      let results_msg := Chat.resultsMsg (Chat.toolResults it.tools st)
      (none, xs ++ [assist] ++ [results_msg], ops ++ Session.session_append it.opensResults results_msg)
    else (some 0, xs ++ [assist], ops)

theorem iteration_eq (it : Iteration) (xs : List Tinyjson.cJSON) : Chat.iteration it xs =
    if it.interrupt then (some 130, xs, [])
    else
      if (Http.do_turn it.exchange initial).1 = -3 then overflowed it xs
      else if (Http.do_turn it.exchange initial).1 = -2 then (some 130, xs, [])
      else if (Http.do_turn it.exchange initial).1 < 0 then (some 1, xs, [])
      else replied it (Http.do_turn it.exchange initial).2.1 xs := rfl

theorem onOverflow_spec (it : Iteration) : Triple (json a none (.array xs)) (fun n => onOverflow m it n a)
    (left a (overflowed it xs)) := by
  refine (compact_spec m 10).bind fun cleared => Triple.fact ?_
  rintro rfl
  unfold left overflowed
  by_cases some : 0 < (Session.compact_clear_tool_results xs 10).1
  · simp only [if_pos some]
    refine (session_rewrite_spec m it.renames).bind fun writes => Triple.fact ?_
    rintro rfl
    exact Triple.pure (le_fact_mul rfl le_rfl)
  · simp only [if_neg some]
    exact Triple.pure (le_fact_mul rfl le_rfl)

theorem onReply_spec (it : Iteration) (st : stream_state_t) : Triple (json a none (.array xs)) (fun n => onReply m it st n a)
    (left a (replied it st xs)) := by
  rw [← one_mul (json a none _)]
  refine (blocks_to_content_spec m st).call (Triple.whole (fun none => ?_) fun content b some => ?_)
  · unfold left replied
    rw [none]
    exact Triple.pure (le_fact_mul rfl le_rfl)
  · unfold left replied
    rw [some]
    refine (roleMsg_spec m _).call fun assist => ?_
    rw [mul_comm]
    refine (addMessage_spec m it.opensAssist).bind fun writes => Triple.fact ?_
    rintro rfl
    by_cases calls : st.active.any isToolUse
    · simp only [if_pos calls]
      rw [← one_mul (placed _ a _)]
      refine (createArray_json m).call fun results => (resultsLoop_spec m it.tools st _ _).call fun _ =>
        (roleMsg_spec m _).call fun results_msg => ?_
      rw [mul_comm]
      refine (addMessage_spec m it.opensResults).bind fun more => Triple.fact ?_
      rintro rfl
      refine Triple.pure (le_fact_mul ?_ le_rfl)
      rw [List.map_append]
      rfl
    · simp only [if_neg calls]
      exact Triple.pure (le_fact_mul rfl le_rfl)

theorem onResult_spec (it : Iteration) (going : it.interrupt = false) {done : ℤ × stream_state_t × Http.Io}
    (same : done = Http.do_turn it.exchange initial) :
    Triple (json a none (.array xs)) (fun n => onResult m it done.1 done.2.1 n a) (left a (Chat.iteration it xs)) := by
  rw [iteration_eq, going, ← same]
  simp only [Bool.false_eq_true, if_false]
  unfold onResult
  by_cases long : done.1 = -3
  · simp only [if_pos long]
    exact onOverflow_spec m it
  simp only [if_neg long]
  by_cases stopped : done.1 = -2
  · simp only [if_pos stopped]
    exact Triple.pure (le_fact_mul rfl le_rfl)
  simp only [if_neg stopped]
  by_cases failed : done.1 < 0
  · simp only [if_pos failed]
    exact Triple.pure (le_fact_mul rfl le_rfl)
  · simp only [if_neg failed]
    exact onReply_spec m it _

/-- What a part of a run returned, did and sent, the messages it left, and the tools. -/
def ended {ρ : Type} (a b : Addr) (ys : List Tinyjson.cJSON) (result : ρ × List Tinyjson.cJSON × List Session.FileOp)
    (requests : List CString) (r : ρ × Effects) : Assertion Addr Cell :=
  fact (r = (result.1, ⟨result.2.2.map written, requests⟩)) * (json a none (.array result.2.1) * json b none (.array ys))

variable (model system_prompt : CString)

/-- The text of the request that carries these messages. -/
def body (tools messages : List Tinyjson.cJSON) : CString := printed (Requests.request model system_prompt messages tools)

theorem exchange_spec (it : Iteration) (going : it.interrupt = false) : Triple (json a none (.array xs) * json b none (.array ys))
    (fun n => exchange m it n model system_prompt a b)
    (ended a b ys (Chat.iteration it xs) [body model system_prompt ys xs]) := by
  refine (NodeRequests.request_spec m model system_prompt).bind fun req_json => Triple.chars ?_
  rw [← one_mul (pts req_json _ * _)]
  refine (do_turn_spec m it.exchange initial).call fun done => ?_
  rw [mul_assoc]
  refine Triple.fact fun same => ?_
  rw [one_mul]
  refine Triple.dealloc ((onResult_spec m it going same).call fun result => ?_)
  rw [left, mul_assoc]
  refine Triple.fact ?_
  rintro rfl
  exact Triple.pure (le_fact_mul rfl le_rfl)

theorem iteration_spec (it : Iteration) : Triple (json a none (.array xs) * json b none (.array ys))
    (fun n => iteration m it n model system_prompt a b)
    (ended a b ys (Chat.iteration it xs) ((Requests.sent it xs).map (body model system_prompt ys))) := by
  unfold iteration Requests.sent
  by_cases interrupt : it.interrupt
  · have done : Chat.iteration it xs = (some 130, xs, []) := if_pos interrupt
    simp only [if_pos interrupt]
    rw [done]
    exact Triple.pure (le_fact_mul rfl le_rfl)
  · simp only [if_neg interrupt]
    exact exchange_spec m model system_prompt it (Bool.eq_false_iff.mpr interrupt)

theorem chatLoop_spec (fuel : ℕ) : ∀ (world : ℕ → Iteration) (xs : List Tinyjson.cJSON),
    Triple (json a none (.array xs) * json b none (.array ys)) (fun n => chatLoop m n model system_prompt a b fuel world)
      (ended a b ys (Chat.chatLoop fuel world xs) ((Requests.chatLoop fuel world xs).map (body model system_prompt ys))) := by
  induction fuel with
  | zero =>
    intro world xs
    exact Triple.pure (le_fact_mul rfl le_rfl)
  | succ fuel ih =>
    intro world xs
    refine (iteration_spec m model system_prompt (world 0)).bind fun r => Triple.fact ?_
    rintro rfl
    rw [Chat.chatLoop, Requests.chatLoop]
    rcases Chat.iteration (world 0) xs with ⟨_ | code, xs', ops⟩
    · refine (ih _ xs').bind fun r => Triple.fact ?_
      rintro rfl
      refine Triple.pure (le_fact_mul ?_ le_rfl)
      rw [List.map_append, List.map_append]
      rfl
    · refine Triple.pure (le_fact_mul ?_ le_rfl)
      rw [List.append_nil]

/-! ### Runs -/

theorem ask_spec (p : Prompt) : Triple (json a none (.array xs) * json b none (.array ys)) (fun n => ask m n model system_prompt a b p)
    (ended a b ys (Chat.ask p xs) ((Requests.ask p xs).map (body model system_prompt ys))) := by
  rw [← one_mul (json a none _ * _)]
  refine (make_user_msg_spec m p.text).call fun user_msg => ?_
  rw [← mul_assoc, mul_comm (json user_msg none _)]
  refine (addMessage_spec m p.opens).call fun writes => ?_
  rw [mul_assoc]
  refine Triple.fact ?_
  rintro rfl
  refine (chatLoop_spec m model system_prompt MAX_TOOL_ITER p.world _).bind fun r => Triple.fact ?_
  rintro rfl
  refine Triple.pure (le_fact_mul ?_ le_rfl)
  simp only [Chat.ask, Chat.chat_turn, List.map_append]
  rfl

theorem repl_spec (prompts : List Prompt) : ∀ xs : List Tinyjson.cJSON, Triple (json a none (.array xs) * json b none (.array ys))
    (fun n => repl m n model system_prompt a b prompts)
    (ended a b ys (Chat.repl prompts xs) ((Requests.repl prompts xs).map (body model system_prompt ys))) := by
  induction prompts with
  | nil =>
    intro xs
    exact Triple.pure (le_fact_mul rfl le_rfl)
  | cons p ps ih =>
    intro xs
    simp only [repl, Chat.repl, Requests.repl]
    by_cases empty : p.text = emptyString
    · simp only [if_pos empty]
      exact ih xs
    simp only [if_neg empty]
    refine (ask_spec m model system_prompt p).bind fun r => Triple.fact ?_
    rintro rfl
    by_cases bail : (Chat.ask p xs).1 = 1
    · simp only [if_pos bail]
      refine Triple.pure (le_fact_mul ?_ le_rfl)
      rw [List.append_nil]
    · simp only [if_neg bail]
      refine (ih _).bind fun r => Triple.fact ?_
      rintro rfl
      refine Triple.pure (le_fact_mul ?_ le_rfl)
      rw [List.map_append, List.map_append]
      rfl

theorem resume_spec (run : Run) (file : Option Bytes) : Triple (json a none (.array [])) (fun n => resume m n run file a)
    fun writes => fact (writes = (Chat.resume run file).2.map written) * json a none (.array (Chat.resume run file).1) := by
  unfold resume Chat.resume
  by_cases continued : run.continue_flag
  · simp only [if_pos continued]
    refine (session_load_spec m file).bind fun loaded => Triple.fact ?_
    rintro rfl
    cases Session.session_load file with
    | none => exact Triple.pure (le_fact_mul rfl le_rfl)
    | some xs =>
      refine prune_spec.bind fun pruned => Triple.fact ?_
      rintro rfl
      rw [Option.getD_some]
      by_cases healed : 0 < (Session.session_prune_empty_tool_use xs).1
      · simp only [if_pos healed]
        exact session_rewrite_spec m run.renames
      · simp only [if_neg healed]
        exact Triple.pure (le_fact_mul rfl le_rfl)
  · simp only [if_neg continued]
    exact Triple.pure (le_fact_mul rfl le_rfl)

theorem converse_spec (run : Run) : Triple (json a none (.array xs) * json b none (.array ys))
    (fun n => converse m n model system_prompt run a b)
    (ended a b ys (Chat.converse run xs) ((Requests.converse run xs).map (body model system_prompt ys))) := by
  unfold converse Chat.converse Requests.converse
  cases run.input with
  | oneshot prompt => exact ask_spec m model system_prompt prompt
  | lines prompts => exact repl_spec m model system_prompt prompts xs

/-- What a run returns, does to the file and sends. -/
def outcome (run : Run) (file : Option Bytes) : ℤ × Effects :=
  ((Chat.converse run (Chat.resume run file).1).1, ⟨(Chat.main run file).map written,
    (Requests.main run file).map (body model system_prompt ToolSchemas.tools)⟩)

theorem main_spec (run : Run) (file : Option Bytes) : Triple 1 (fun n => main m n model system_prompt run file)
    fun r => fact (r = outcome model system_prompt run file) * 1 := by
  refine (createArray_json m).bind fun messages => (resume_spec m run file).bind fun writes => Triple.fact ?_
  rintro rfl
  rw [← one_mul (json messages none _)]
  refine (createArray_json m).call fun tools => ?_
  rw [← one_mul (json tools none _ * _)]
  refine (make_shell_tool_spec m).call fun shell => ?_
  rw [← mul_assoc, mul_comm (json shell none _)]
  refine addToArray_json.call fun _ => ?_
  rw [← one_mul (json tools none _ * _)]
  refine (make_read_file_tool_spec m).call fun read_file => ?_
  rw [← mul_assoc, mul_comm (json read_file none _)]
  refine addToArray_json.call fun _ => ?_
  rw [← one_mul (json tools none _ * _)]
  refine (make_edit_file_tool_spec m).call fun edit_file => ?_
  rw [← mul_assoc, mul_comm (json edit_file none _)]
  refine addToArray_json.call fun _ => ?_
  rw [mul_comm]
  refine (converse_spec m model system_prompt run).bind fun r => Triple.fact ?_
  rintro rfl
  refine delete_held.call fun _ => ?_
  rw [one_mul]
  refine Triple.bind delete_held fun _ => Triple.pure ?_
  refine le_fact_mul ?_ le_rfl
  simp only [outcome, Chat.main, List.map_append]
  rfl

/-- From any memory, a run ends with that memory. -/
theorem main_leaves (run : Run) (file : Option Bytes) (h : Memory) :
    ∃ k, ∀ n, k ≤ n → main m n model system_prompt run file h = some (outcome model system_prompt run file, h) :=
  triple_iff_reads.mp (main_spec m model system_prompt run file) h

end

end Sa.NodeChat
