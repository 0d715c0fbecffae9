import Sa.Files
import Sa.Printer
import Sa.Stream

/-!
# The session file

One message a line. `session_append` adds a line, `session_rewrite` replaces the
file, `session_load` reads it back and `session_prune_empty_tool_use` heals what
was read; `compact_clear_tool_results` shortens the messages in memory. A file
that cannot be opened is `none`.
-/

namespace Sa.Session
open Sa.CStrings Sa.Tinyjson Sa.Parser Sa.Printer Sa.Files Sa.Stream

def sessionLine (msg : cJSON) : Bytes := cJSON_PrintUnformatted msg ++ [10]

/-- `fputs` and `fputc` for every message. -/
def messageWrites (messages : List cJSON) : List Bytes :=
  messages.flatMap fun msg => [cJSON_PrintUnformatted msg, [10]]

/-- What is done to the session file: a message is written behind what is there, or
    the messages are written in its place. -/
inductive FileOp where
  | append (msg : cJSON)
  | rewrite (messages : List cJSON)

def FileOp.messages : FileOp → List cJSON
  | .append msg => [msg]
  | .rewrite messages => messages

/-- The file after that, where the writes and the close lose some bytes: the source looks
    at none of their results, and renames the file all the same. -/
def FileOp.store (lost : Losses) (file : Option Bytes) (op : FileOp) : Option Bytes :=
  match op with
  | .append _ => some (file.getD [] ++ lost.leave (messageWrites op.messages))
  | .rewrite _ => some (lost.leave (messageWrites op.messages))

/-- The same where no bytes are lost. -/
def FileOp.apply (file : Option Bytes) : FileOp → Option Bytes
  | .append msg => some (file.getD [] ++ sessionLine msg)
  | .rewrite messages => some (messages.flatMap sessionLine)

/-- Nothing is appended when the file cannot be opened. -/
def session_append (opens : Bool) (msg : cJSON) : List FileOp := if opens then [.append msg] else []

/-- The file stays as it is when the temporary file cannot be made, opened or renamed;
    otherwise what is left of the messages replaces it (`FileOp.store`). -/
def session_rewrite (renames : Bool) (messages : List cJSON) : List FileOp := if renames then [.rewrite messages] else []

/-- The lines `getline` returns, without their newline; `line` is what is read of the next one. -/
def getlines (line : Bytes) : Bytes → List Bytes
  | [] => if line = [] then [] else [line]
  | c :: s => if c = 10 then line :: getlines [] s else getlines (line ++ [c]) s

/-- One pass of the loop of `session_load`; malformed lines are skipped. -/
def readLine (line : Bytes) : Option cJSON := if line = [] then none else cJSON_Parse line

def loadBytes (bytes : Bytes) : List cJSON := (getlines [] bytes).filterMap readLine

/-- `none` where the file cannot be opened. -/
def session_load (file : Option Bytes) : Option (List cJSON) := file.map loadBytes

def typeIs (item : cJSON) (type : String) : Bool := getString (some item) "type" == some (cs type)

/-- The items of a message's content, when it is an array. -/
def contentItemsOf (msg : cJSON) : Option (List cJSON) :=
  match cJSON_GetObjectItem (some msg) (cs "content") with
  | some (.array items) => some items
  | _ => none

/-- The only item of a message's content. -/
def singleItem (msg : cJSON) : Option cJSON :=
  match contentItemsOf msg with
  | some [item] => some item
  | _ => none

/-- An assistant's message that is one `tool_use` without input. -/
def emptyToolUse (msg : cJSON) : Bool :=
  getString (some msg) "role" == some (cs "assistant") &&
  match singleItem msg with
  | none => false
  | some b => typeIs b "tool_use" && cJSON_GetArraySize (cJSON_GetObjectItem (some b) (cs "input")) == 0

/-- A message that is one `tool_result`. -/
def singleToolResult (msg : cJSON) : Bool :=
  match singleItem msg with
  | none => false
  | some nb => typeIs nb "tool_result"

/-- The loop goes from the last message to the first: what follows a message has
    been healed when it is looked at. The count and what is left. -/
def session_prune_empty_tool_use : List cJSON → Nat × List cJSON
  | [] => (0, [])
  | msg :: rest =>
    let (removed, rest) := session_prune_empty_tool_use rest
    if emptyToolUse msg then
      match rest with
      | nxt :: tail => if singleToolResult nxt then (removed + 2, tail) else (removed + 1, rest)
      | [] => (removed + 1, [])
    else (removed, msg :: rest)

/-- `cJSON_SetValuestring` on a member's string. -/
def setMember (key s : CString) : List (CString × cJSON) → List (CString × cJSON)
  | [] => []
  | m :: ms => if m.1 = key then (m.1, .string s) :: ms else m :: setMember key s ms

/-- The condition for clearing an item of a content. -/
def clearable (item : cJSON) : Bool :=
  typeIs item "tool_result" &&
  match cJSON_GetObjectItem (some item) (cs "content") with
  | some (.string cur) => decide (10 < cur.val.length) && cur != cs "[cleared]"
  | _ => false

def clearItem (item : cJSON) : cJSON :=
  match item with
  | .object child => if clearable item then .object (setMember (cs "content") (cs "[cleared]") child) else item
  | _ => item

/-- The items of a message's content, changed in place. -/
def mapContent (f : cJSON → cJSON) : List (CString × cJSON) → List (CString × cJSON)
  | [] => []
  | m :: ms =>
    if m.1 = cs "content" then
      match m.2 with
      | .array items => (m.1, .array (items.map f)) :: ms
      | _ => m :: ms
    else m :: mapContent f ms

def clearMessage (msg : cJSON) : cJSON :=
  match msg with
  | .object child => .object (mapContent clearItem child)
  | _ => msg

/-- How many items of a message are cleared. -/
def clearedIn (msg : cJSON) : Nat := ((contentItemsOf msg).getD []).countP clearable

/-- How many items were cleared, and the messages after that. -/
def compact_clear_tool_results (messages : List cJSON) (keep_last_n : Nat) : Nat × List cJSON :=
  let keep_from := messages.length - keep_last_n
  (((messages.take keep_from).map clearedIn).sum, (messages.take keep_from).map clearMessage ++ messages.drop keep_from)

end Sa.Session
