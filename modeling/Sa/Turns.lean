import Sa.Messages

/-!
# What a turn can do

`Happens` lists what one iteration of `chat_turn` does to the messages and to the
session file. The rules carry what every iteration and every prompt preserves to
whole turns and runs.
-/

namespace Sa.Turns
open Sa.CStrings Sa.Tinyjson Sa.Stream Sa.Http Sa.Session Sa.Chat Sa.Messages

/-- The blocks an iteration's exchange leaves. -/
def turnState (it : Iteration) : stream_state_t := (do_turn it.exchange initial).2.1

/-- What an iteration does: the code it returns, if it does; the messages after it;
    and what happens to the file. -/
inductive Happens (it : Iteration) (messages : List cJSON) : Option Int → List cJSON → List FileOp → Prop where
  | stop (code : Int) : Happens it messages (some code) messages []
  | compact : 0 < (compact_clear_tool_results messages 10).1 →
      Happens it messages none (compact_clear_tool_results messages 10).2
        (session_rewrite it.renames (compact_clear_tool_results messages 10).2)
  | reply {items : List cJSON} : contentItems (turnState it).active = some items →
      (turnState it).active.any isToolUse = false →
      Happens it messages (some 0) (messages ++ [assistantMsg (.array items)])
        (session_append it.opensAssist (assistantMsg (.array items)))
  | call {items : List cJSON} : contentItems (turnState it).active = some items →
      (turnState it).active.any isToolUse = true →
      Happens it messages none
        (messages ++ [assistantMsg (.array items), resultsMsg (toolResults it.tools (turnState it))])
        (session_append it.opensAssist (assistantMsg (.array items)) ++
          session_append it.opensResults (resultsMsg (toolResults it.tools (turnState it))))

theorem iteration_happens (it : Iteration) (messages : List cJSON) :
    Happens it messages (iteration it messages).1 (iteration it messages).2.1 (iteration it messages).2.2 := by
  unfold iteration
  by_cases interrupt : it.interrupt = true
  · rw [if_pos interrupt]
    exact .stop 130
  rw [if_neg interrupt]
  cases turn : do_turn it.exchange initial with | mk r result =>
  obtain ⟨st, io⟩ := result
  have state : st = turnState it := by rw [turnState, turn]
  by_cases overflow : r = -3
  · simp only [if_pos overflow]
    by_cases some : 0 < (compact_clear_tool_results messages 10).1
    · simp only [if_pos some]
      exact .compact some
    · simp only [if_neg some, compact_kept (Nat.eq_zero_of_not_pos some)]
      exact .stop 1
  simp only [if_neg overflow]
  by_cases interrupted : r = -2
  · simp only [if_pos interrupted]
    exact .stop 130
  simp only [if_neg interrupted]
  by_cases failed : r < 0
  · simp only [if_pos failed]
    exact .stop 1
  simp only [if_neg failed, blocks_to_content, state]
  cases content : contentItems (turnState it).active with
  | none => exact .stop 2
  | some items =>
    simp only [Option.map_some]
    by_cases tools : (turnState it).active.any isToolUse = true
    · simp only [if_pos tools, List.append_assoc, List.singleton_append]
      exact .call content tools
    · simp only [if_neg tools]
      exact .reply content (by simpa using tools)

section
variable (I : List cJSON → List FileOp → Prop) (met : Iteration → Prop) (asked : Prompt → Prop)
  (step : ∀ it messages next messages' ops done, met it → Happens it messages next messages' ops → I messages done →
    I messages' (done ++ ops))
  (say : ∀ p messages done, asked p → I messages done →
    I (messages ++ [make_user_msg p.text]) (done ++ session_append p.opens (make_user_msg p.text)))
include step

/-- What every iteration preserves holds when a turn returns. `done` is what happened
    to the file before. -/
theorem chatLoop_rule (fuel : ℕ) :
    ∀ (world : ℕ → Iteration) (messages : List cJSON) (done : List FileOp), (∀ i, met (world i)) → I messages done →
      I (chatLoop fuel world messages).2.1 (done ++ (chatLoop fuel world messages).2.2) := by
  induction fuel with
  | zero =>
    intro world messages done _ holds
    simpa [chatLoop] using holds
  | succ fuel ih =>
    intro world messages done meets holds
    have after := step _ _ _ _ _ done (meets 0) (iteration_happens (world 0) messages) holds
    rw [chatLoop]
    revert after
    obtain ⟨next, messages', ops⟩ := iteration (world 0) messages
    intro after
    cases next with
    | some code => exact after
    | none =>
      have rest := ih (fun i => world (i + 1)) messages' (done ++ ops) (fun i => meets (i + 1)) after
      rwa [List.append_assoc] at rest

include say

theorem ask_rule (p : Prompt) (messages : List cJSON) (done : List FileOp) (asks : asked p) (meets : ∀ i, met (p.world i))
    (holds : I messages done) : I (ask p messages).2.1 (done ++ (ask p messages).2.2) := by
  have said := say p messages done asks holds
  have after := chatLoop_rule I met step MAX_TOOL_ITER p.world _ _ meets said
  rwa [List.append_assoc] at after

theorem repl_rule (ps : List Prompt) :
    ∀ (messages : List cJSON) (done : List FileOp), (∀ p ∈ ps, asked p ∧ ∀ i, met (p.world i)) → I messages done →
      I (repl ps messages).2.1 (done ++ (repl ps messages).2.2) := by
  induction ps with
  | nil =>
    intro messages done _ holds
    simpa [repl] using holds
  | cons p ps ih =>
    intro messages done all holds
    have later : ∀ q ∈ ps, asked q ∧ ∀ i, met (q.world i) := fun q member => all q (by simp [member])
    rw [repl]
    by_cases empty : p.text = emptyString
    · rw [if_pos empty]
      exact ih messages done later holds
    rw [if_neg empty]
    have after := ask_rule I met asked step say p messages done (all p (by simp)).1 (all p (by simp)).2 holds
    revert after
    obtain ⟨r, messages', ops⟩ := ask p messages
    intro after
    by_cases stop : r = 1
    · simp only [if_pos stop]
      exact after
    · simp only [if_neg stop]
      have rest := ih messages' (done ++ ops) later after
      rwa [List.append_assoc] at rest

/-- The prompts of a run. -/
def prompts (run : Run) : List Prompt :=
  match run.input with
  | .oneshot prompt => [prompt]
  | .lines prompts => prompts

theorem converse_rule (run : Run) (messages : List cJSON) (done : List FileOp) (all : ∀ p ∈ prompts run, asked p ∧ ∀ i, met (p.world i))
    (holds : I messages done) : I (converse run messages).2.1 (done ++ (converse run messages).2.2) := by
  unfold converse prompts at *
  cases input : run.input with
  | oneshot prompt =>
    rw [input] at all
    exact ask_rule I met asked step say prompt messages done (all prompt (by simp)).1 (all prompt (by simp)).2 holds
  | lines ps =>
    rw [input] at all
    exact repl_rule I met asked step say ps messages done all holds

end

/-- Tools that give back what they are asked. -/
def echo : Tools := ⟨id, fun _ _ new_str => new_str, fun path _ _ => path⟩

/-- The reply of a server that hangs up after these bytes. -/
def replyOf (bytes : Bytes) : Exchange := ⟨true, ⟨bytes, [], [], false⟩⟩

/-- An iteration with that reply and a session file that can be opened. -/
def answered (bytes : Bytes) : Iteration := ⟨false, replyOf bytes, true, true, true, fun _ => echo⟩

/-- A call of a tool that does not exist. -/
def toolCall : Bytes :=
  lit "HTTP/1.1 200 OK\r\n\r\n" ++
  lit "data:\x7b\"type\":\"content_block_start\",\"index\":0,\"content_block\":\x7b\"type\":\"tool_use\",\"id\":\"t\",\"name\":\"x\"\x7d\x7d\n" ++
  lit "data:\x7b\"type\":\"content_block_delta\",\"index\":0,\"delta\":\x7b\"type\":\"input_json_delta\",\"partial_json\":\"[0]\"\x7d\x7d\n"

/-- A reply without blocks. -/
def noBlocks : Bytes := lit "HTTP/1.1 200 OK\r\n\r\n"

end Sa.Turns
