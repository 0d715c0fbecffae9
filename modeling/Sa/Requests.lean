import Sa.ToolSchemas
import Sa.Turns

/-!
# Requests

What `chat_turn` sends: the request of every iteration that is not interrupted, with the
messages as they are then.
-/

namespace Sa.Requests
open Sa.CStrings Sa.Doubles Sa.Tinyjson Sa.Stream Sa.Http Sa.Session Sa.Chat

def max_tokens : Double := ofInt 4096 (by decide)

def request (model system_prompt : CString) (messages tools : List cJSON) : cJSON :=
  .object [(cs "model", .string model), (cs "max_tokens", .number max_tokens),
    (cs "system", .string system_prompt), (cs "messages", .array messages), (cs "tools", .array tools), (cs "stream", .true)]

/-- The messages that an iteration sends. -/
def sent (it : Iteration) (messages : List cJSON) : List (List cJSON) := if it.interrupt then [] else [messages]

/-- The messages that the iterations of a turn send. -/
def chatLoop : Nat → (Nat → Iteration) → List cJSON → List (List cJSON)
  | 0, _, _ => []
  | fuel + 1, world, messages =>
    sent (world 0) messages ++
      match iteration (world 0) messages with
      | (some _, _, _) => []
      | (none, messages, _) => chatLoop fuel (fun i => world (i + 1)) messages

def chat_turn (world : Nat → Iteration) (messages : List cJSON) : List (List cJSON) := chatLoop MAX_TOOL_ITER world messages

def ask (p : Prompt) (messages : List cJSON) : List (List cJSON) := chat_turn p.world (messages ++ [make_user_msg p.text])

def repl : List Prompt → List cJSON → List (List cJSON)
  | [], _ => []
  | p :: ps, messages =>
    if p.text = emptyString then repl ps messages
    else
      let (r, messages', _) := Chat.ask p messages
      ask p messages ++ if r = 1 then [] else repl ps messages'

def converse (run : Run) (messages : List cJSON) : List (List cJSON) :=
  match run.input with
  | .oneshot prompt => ask prompt messages
  | .lines prompts => repl prompts messages

/-- The messages of every request that a run sends. -/
def main (run : Run) (file : Option Bytes) : List (List cJSON) := converse run (resume run file).1

end Sa.Requests
