import Sa.Http
import Sa.Session

/-!
# Conversations

`chat_turn` and the two ways `main` runs it: once with the arguments as the
prompt, or for every line of the input. What a run meets on its way is given:
signals, the server's replies, the tools' outputs, and whether files can be
opened. The request itself is left out, as the replies are arbitrary.
-/

namespace Sa.Chat
open Sa.CStrings Sa.NumberTexts Sa.Tinyjson Sa.Parser Sa.Stream Sa.Http Sa.Session

abbrev MAX_TOOL_ITER : Nat := 60

/-- What the tools return when they are called. -/
structure Tools where
  run_shell : CString → CString
  edit_file_tool : CString → CString → CString → CString
  read_file_tool : CString → Int → Int → CString

/-- `cJSON_IsNumber(item) ? (long)item->valuedouble : default`. -/
def longOr (item : Option cJSON) (default : Int) : Int :=
  match item with
  | some (.number valuedouble) => to_llong valuedouble
  | _ => default

def dispatch_tool (tools : Tools) (name : CString) (input : Option cJSON) : CString :=
  if name = cs "shell" then
    match getString input "cmd" with
    | none => cs "error: shell requires cmd"
    | some cmd => tools.run_shell cmd
  else if name = cs "edit_file" then
    match getString input "path", getString input "old_string", getString input "new_string" with
    | some path, some os, some ns => tools.edit_file_tool path os ns
    | _, _, _ => cs "error: edit_file requires path, old_string, new_string"
  else if name = cs "read_file" then
    let offset := longOr (cJSON_GetObjectItem input (cs "offset")) 1
    let limit := longOr (cJSON_GetObjectItem input (cs "limit")) 2000
    match getString input "path" with
    | none => cs "error: read_file requires path"
    | some path => tools.read_file_tool path offset limit
  else cs "error: unknown tool"

def make_user_msg (text : CString) : cJSON :=
  .object [(cs "role", .string (cs "user")),
    (cs "content", .array [.object [(cs "type", .string (cs "text")), (cs "text", .string text)]])]

def assistantMsg (content : cJSON) : cJSON := .object [(cs "role", .string (cs "assistant")), (cs "content", content)]

def resultsMsg (results : List cJSON) : cJSON :=
  .object [(cs "role", .string (cs "user")), (cs "content", .array results)]

/-- The result of a block's call. -/
def toolResult (tools : Tools) (b : block_t) : cJSON :=
  let input := cJSON_Parse (if 0 < b.partial_json.val.length then b.partial_json.val else lit "\x7b\x7d")
  .object [(cs "type", .string (cs "tool_result")), (cs "tool_use_id", .string b.id),
    (cs "content", .string (dispatch_tool tools b.name input))]

def isToolUse (b : block_t) : Bool := b.type == cs "tool_use"

/-- The loop over the blocks in use; each call meets the tools as they are then. -/
def toolResults (tools : Fin MAX_BLOCKS → Tools) (st : stream_state_t) : List cJSON :=
  ((List.finRange MAX_BLOCKS).take st.n).filterMap fun i =>
    if isToolUse (st.blocks i) then some (toolResult (tools i) (st.blocks i)) else none

/-- What an iteration of `chat_turn` meets: a signal since the last look at
    `g_interrupt`, the exchange with the server, the tools, and whether the session
    file can be opened or replaced. -/
structure Iteration where
  interrupt : Bool
  exchange : Exchange
  renames : Bool
  opensAssist : Bool
  opensResults : Bool
  tools : Fin MAX_BLOCKS → Tools

/-- A return code, or none to go on; the messages; and what happened to the file. -/
def iteration (it : Iteration) (messages : List cJSON) : Option Int × List cJSON × List FileOp :=
  if it.interrupt then (some 130, messages, [])
  else
    let (r, st, _) := do_turn it.exchange initial
    if r = -3 then
      let (cleared, messages) := compact_clear_tool_results messages 10
      if 0 < cleared then (none, messages, session_rewrite it.renames messages) else (some 1, messages, [])
    else if r = -2 then (some 130, messages, [])
    else if r < 0 then (some 1, messages, [])
    else
      match blocks_to_content st with
      | none => (some 2, messages, [])
      | some content =>
        let assist := assistantMsg content
        let messages := messages ++ [assist]
        let ops := session_append it.opensAssist assist
        if st.active.any isToolUse then
          let results_msg := resultsMsg (toolResults it.tools st)
          (none, messages ++ [results_msg], ops ++ session_append it.opensResults results_msg)
        else (some 0, messages, ops)

def chatLoop : Nat → (Nat → Iteration) → List cJSON → Int × List cJSON × List FileOp
  | 0, _, messages => (0, messages, [])
  | fuel + 1, world, messages =>
    match iteration (world 0) messages with
    | (some code, messages, ops) => (code, messages, ops)
    | (none, messages, ops) =>
      let (code, messages, more) := chatLoop fuel (fun i => world (i + 1)) messages
      (code, messages, ops ++ more)

/-- The return code, the messages, and what happened to the file. -/
def chat_turn (world : Nat → Iteration) (messages : List cJSON) : Int × List cJSON × List FileOp :=
  chatLoop MAX_TOOL_ITER world messages

/-- A prompt, and what its turn meets. -/
structure Prompt where
  text : CString
  opens : Bool
  world : Nat → Iteration

/-- The prompt's message goes to the messages and to the file before the turn. -/
def ask (p : Prompt) (messages : List cJSON) : Int × List cJSON × List FileOp :=
  let user_msg := make_user_msg p.text
  let (code, messages, ops) := chat_turn p.world (messages ++ [user_msg])
  (code, messages, session_append p.opens user_msg ++ ops)

/-- The loop over the lines of the input; it stops where a turn returns 1. -/
def repl : List Prompt → List cJSON → Int × List cJSON × List FileOp
  | [], messages => (0, messages, [])
  | p :: ps, messages =>
    if p.text = emptyString then repl ps messages
    else
      let (r, messages, ops) := ask p messages
      if r = 1 then (1, messages, ops)
      else
        let (rc, messages, more) := repl ps messages
        (rc, messages, ops ++ more)

inductive Input where
  | oneshot (prompt : Prompt)
  | lines (prompts : List Prompt)

/-- A run: whether it has `-c`, whether the healed session can replace the file,
    and what it is asked. -/
structure Run where
  continue_flag : Bool
  renames : Bool
  input : Input

/-- The messages a run starts with, and what it does to the file before. -/
def resume (run : Run) (file : Option Bytes) : List cJSON × List FileOp :=
  if run.continue_flag then
    match session_load file with
    | none => ([], [])
    | some loaded =>
      let (pruned, messages) := session_prune_empty_tool_use loaded
      (messages, if 0 < pruned then session_rewrite run.renames messages else [])
  else ([], [])

/-- What the prompts do after that. -/
def converse (run : Run) (messages : List cJSON) : Int × List cJSON × List FileOp :=
  match run.input with
  | .oneshot prompt => ask prompt messages
  | .lines prompts => repl prompts messages

/-- All that a run does to the file. -/
def main (run : Run) (file : Option Bytes) : List FileOp :=
  let (messages, ops) := resume run file
  let (_, _, more) := converse run messages
  ops ++ more

end Sa.Chat
