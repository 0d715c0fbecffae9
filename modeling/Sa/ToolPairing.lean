import Sa.Turns

/-!
# Tool calls keep their results

Whatever the server, the tools and the user do, every `tool_use` in the messages
is followed by its results and every result follows its call, whenever
`chat_turn` returns (`conversation_paired`).
-/

namespace Sa.ToolPairing
open Sa.CStrings Sa.Tinyjson Sa.Stream Sa.Http Sa.Session Sa.Chat Sa.Pairing Sa.Messages Sa.Turns

variable {orphans : Prop}

theorem paired_user (text : CString) : Paired roles orphans [make_user_msg text] :=
  .plain (toolUses_make_user_msg text) (make_user_msg_noResults text) .nil

theorem paired_reply {st : stream_state_t} {items : List cJSON} (content : contentItems st.active = some items)
    (tools : st.active.any isToolUse = false) : Paired roles orphans [assistantMsg (.array items)] :=
  .plain ((toolUses_eq_nil content).mpr tools) (assistantMsg_noResults _) .nil

theorem paired_call (outputs : Fin MAX_BLOCKS → Tools) {st : stream_state_t} {items : List cJSON}
    (content : contentItems st.active = some items) (tools : st.active.any isToolUse = true) :
    Paired roles orphans [assistantMsg (.array items), resultsMsg (toolResults outputs st)] := by
  have some : toolUses (assistantMsg (.array items)) ≠ [] := by
    intro none
    rw [toolUses_eq_nil content, tools] at none
    cases none
  exact .call some (resultsMsg_for outputs content) .nil

theorem paired_compact {messages : List cJSON} (paired : Paired roles orphans messages) (keep_last_n : ℕ) :
    Paired roles orphans (compact_clear_tool_results messages keep_last_n).2 := by
  refine paired.forall₂ ((compact_eq messages keep_last_n).imp fun m m' change => ?_)
  rcases change with rfl | rfl
  · exact .refl _
  · exact samePart_clearMessage m

theorem happens_paired {it : Iteration} {messages messages' : List cJSON} {next : Option Int} {ops : List FileOp}
    (happens : Happens it messages next messages' ops) (paired : Paired roles orphans messages) :
    Paired roles orphans messages' := by
  cases happens with
  | stop _ => exact paired
  | compact _ => exact paired_compact paired 10
  | reply content tools => exact paired.append (paired_reply content tools)
  | call content tools => exact paired.append (paired_call it.tools content tools)

theorem chat_turn_paired (world : ℕ → Iteration) {messages : List cJSON} (paired : Paired roles orphans messages) :
    Paired roles orphans (chat_turn world messages).2.1 :=
  chatLoop_rule (fun messages _ => Paired roles orphans messages) (fun _ => True)
    (fun _ _ _ _ _ _ _ happens holds => happens_paired happens holds) MAX_TOOL_ITER world messages [] (fun _ => trivial) paired

/-- A user's text is appended, or `chat_turn` is called. -/
inductive Action where
  | say (text : CString)
  | chat (world : ℕ → Iteration)

def Action.apply (messages : List cJSON) : Action → List cJSON
  | .say text => messages ++ [make_user_msg text]
  | .chat world => (chat_turn world messages).2.1

/-- Well paired messages stay so, whatever is said and whatever happens in the turns. -/
theorem conversation_paired (messages : List cJSON) (paired : WellPaired roles messages) (actions : List Action) :
    WellPaired roles (actions.foldl Action.apply messages) := by
  rw [← paired_iff] at paired ⊢
  induction actions generalizing messages with
  | nil => exact paired
  | cons action actions ih =>
    refine ih _ ?_
    cases action with
    | say text => exact paired.append (paired_user text)
    | chat world => exact chat_turn_paired world paired

/-- A call, its results, and a last word. -/
theorem conversation_paired_call :
    WellPaired roles ([Action.chat fun i => answered (if i = 0 then toolCall else noBlocks), .say (cs "more"),
      .chat fun _ => answered toolCall].foldl Action.apply [make_user_msg (cs "hi")]) :=
  conversation_paired _ (paired_iff.mp (paired_user _)) _

end Sa.ToolPairing
