import Sa.Clearing
import Sa.Requests
import Sa.ToolPairing

/-!
# The requests of a run

What every request of a run carries: calls with their answers, the user's word last
(`requests_answerable`), and all that the requests before it carried
(`requests_grow`).
-/

namespace Sa.RequestTurns
open Sa.CStrings Sa.Tinyjson Sa.Stream Sa.Http Sa.Session Sa.Chat Sa.Pairing Sa.Messages Sa.Turns Sa.ToolPairing Sa.Clearing

section
variable (J I : List cJSON → Prop)
  (step : ∀ it messages messages' ops, Happens it messages none messages' ops → I messages → I messages')
  (stop : ∀ it messages code messages' ops, Happens it messages (some code) messages' ops → I messages → J messages')
  (out : ∀ messages, I messages → J messages)
  (say : ∀ messages text, J messages → I (messages ++ [make_user_msg text]))
include step stop out

/-- What every iteration that goes on preserves holds of every request of a turn. -/
theorem chatLoop_rule (fuel : ℕ) : ∀ (world : ℕ → Iteration) (messages : List cJSON), I messages →
    (∀ sent ∈ Requests.chatLoop fuel world messages, I sent) ∧ J (chatLoop fuel world messages).2.1 := by
  induction fuel with
  | zero =>
    intro world messages holds
    exact ⟨fun _ member => by simp [Requests.chatLoop] at member, out messages holds⟩
  | succ fuel ih =>
    intro world messages holds
    have first : ∀ sent ∈ Requests.sent (world 0) messages, I sent := by
      intro sent member
      unfold Requests.sent at member
      split_ifs at member
      · cases member
      · obtain rfl := List.mem_singleton.mp member
        exact holds
    have happens := iteration_happens (world 0) messages
    rw [Requests.chatLoop, chatLoop]
    revert happens
    obtain ⟨next, messages', ops⟩ := iteration (world 0) messages
    intro happens
    cases next with
    | some code =>
      refine ⟨fun sent member => first sent ?_, stop _ _ _ _ _ happens holds⟩
      simpa using member
    | none =>
      obtain ⟨rest, after⟩ := ih (fun i => world (i + 1)) messages' (step _ _ _ _ happens holds)
      refine ⟨fun sent member => ?_, after⟩
      rcases List.mem_append.mp member with member | member
      · exact first sent member
      · exact rest sent member

include say

theorem ask_rule (p : Prompt) (messages : List cJSON) (holds : J messages) :
    (∀ sent ∈ Requests.ask p messages, I sent) ∧ J (ask p messages).2.1 :=
  chatLoop_rule J I step stop out MAX_TOOL_ITER p.world _ (say messages p.text holds)

theorem repl_rule (ps : List Prompt) : ∀ messages, J messages →
    (∀ sent ∈ Requests.repl ps messages, I sent) ∧ J (repl ps messages).2.1 := by
  induction ps with
  | nil =>
    intro messages holds
    exact ⟨fun _ member => by simp [Requests.repl] at member, holds⟩
  | cons p ps ih =>
    intro messages holds
    rw [Requests.repl, repl]
    by_cases empty : p.text = emptyString
    · simp only [if_pos empty]
      exact ih messages holds
    simp only [if_neg empty]
    obtain ⟨first, after⟩ := ask_rule J I step stop out say p messages holds
    by_cases bail : (ask p messages).1 = 1
    · simp only [if_pos bail, List.append_nil]
      exact ⟨first, after⟩
    · simp only [if_neg bail]
      obtain ⟨rest, last⟩ := ih _ after
      refine ⟨fun sent member => ?_, last⟩
      rcases List.mem_append.mp member with member | member
      · exact first sent member
      · exact rest sent member

theorem converse_rule (run : Run) (messages : List cJSON) (holds : J messages) :
    (∀ sent ∈ Requests.converse run messages, I sent) ∧ J (converse run messages).2.1 := by
  unfold Requests.converse converse
  cases run.input with
  | oneshot prompt => exact ask_rule J I step stop out say prompt messages holds
  | lines prompts => exact repl_rule J I step stop out say prompts messages holds

end

/-- The last message is the user's. -/
def EndsWithUser (messages : List cJSON) : Prop := (messages.map role).getLast? = some (some (cs "user"))

theorem endsWithUser_append (messages : List cJSON) {msg : cJSON} (user : role msg = some (cs "user")) :
    EndsWithUser (messages ++ [msg]) := by
  simp [EndsWithUser, user]

theorem roles_compact (messages : List cJSON) (keep_last_n : ℕ) :
    (compact_clear_tool_results messages keep_last_n).2.map role = messages.map role := by
  have each := compact_eq messages keep_last_n
  generalize (compact_clear_tool_results messages keep_last_n).2 = messages' at each ⊢
  induction each with
  | nil => rfl
  | cons change _ ih =>
    rw [List.map_cons, List.map_cons, ih]
    rcases change with rfl | rfl
    · rfl
    · rw [role_clearMessage]

theorem goesOn_answerable {it : Iteration} {messages messages' : List cJSON} {ops : List FileOp}
    (happens : Happens it messages none messages' ops) (ends : EndsWithUser messages) : EndsWithUser messages' := by
  cases happens with
  | compact _ =>
    unfold EndsWithUser
    rwa [roles_compact]
  | call _ _ =>
    rw [List.append_cons]
    exact endsWithUser_append _ (role_resultsMsg _)

/-- Every request has the answers to the calls in it, and ends with the user's message. -/
theorem requests_answerable (run : Run) (file : Option Bytes) (paired : WellPaired roles (resume run file).1) :
    ∀ messages ∈ Requests.main run file, WellPaired roles messages ∧ EndsWithUser messages := by
  intro messages member
  rw [← paired_iff] at paired
  obtain ⟨sent, -⟩ := converse_rule (Paired roles False) (fun messages => Paired roles False messages ∧ EndsWithUser messages)
    (fun _ _ _ _ happens holds => ⟨happens_paired happens holds.1, goesOn_answerable happens holds.2⟩)
    (fun _ _ _ _ _ happens holds => happens_paired happens holds.1) (fun _ holds => holds.1)
    (fun messages text holds => ⟨holds.append (paired_user text), endsWithUser_append messages (role_make_user_msg text)⟩)
    run _ paired
  obtain ⟨holds, ends⟩ := sent messages member
  exact ⟨paired_iff.mp holds, ends⟩

/-- A prompt after one that was left without a reply; a tool is called for it. -/
def continuedRun : Run := ⟨true, true, .oneshot ⟨cs "hi", true, fun i => answered (if i = 0 then toolCall else noBlocks)⟩⟩

def leftFile : Bytes := lit "\x7b\"role\":\"user\",\"content\":\"hello\"\x7d\n"

private theorem leftFile_loads : (resume continuedRun (some leftFile)).1.map (fun m => (toolUses m, (blocksOf m).length)) = [([], 0)] := by
  decide +kernel

theorem requests_answerable_continued : (Requests.main continuedRun (some leftFile)).length = 2 ∧
    ∀ messages ∈ Requests.main continuedRun (some leftFile), WellPaired roles messages ∧ EndsWithUser messages := by
  refine ⟨by decide +kernel, requests_answerable continuedRun (some leftFile) (paired_iff.mp ?_)⟩
  have one := leftFile_loads
  generalize (resume continuedRun (some leftFile)).1 = messages at one ⊢
  obtain ⟨m, rfl⟩ := List.length_eq_one_iff.mp (by simpa using congrArg List.length one)
  simp only [List.map_cons, List.map_nil, List.cons.injEq, Prod.mk.injEq, and_true, List.length_eq_zero_iff] at one
  refine .plain one.1 (fun holds => ?_) .nil
  obtain ⟨b, member, -⟩ := holds.2
  rw [one.2] at member
  cases member

/-- The messages begin with the same ones, some of their tool results cleared. -/
def Extends (messages messages' : List cJSON) : Prop := SameHistory messages (messages'.take messages.length)

section
variable {messages messages' messages'' : List cJSON}

theorem Extends.refl (messages : List cJSON) : Extends messages messages := by
  rw [Extends, List.take_length]
  exact sameHistory_refl messages

theorem Extends.append (extends' : Extends messages messages') (more : List cJSON) : Extends messages (messages' ++ more) := by
  have inside := List.Forall₂.length_eq extends'
  rw [List.length_take] at inside
  rwa [Extends, List.take_append_of_le_length (by omega)]

theorem Extends.changed (extends' : Extends messages messages') (same : SameHistory messages' messages'') :
    Extends messages messages'' :=
  SameHistory.trans extends' (List.forall₂_take _ same)

theorem compact_sameHistory (messages : List cJSON) (keep_last_n : ℕ) :
    SameHistory messages (compact_clear_tool_results messages keep_last_n).2 := by
  refine (compact_eq messages keep_last_n).imp fun msg msg' change => ?_
  rcases change with rfl | rfl
  · exact .refl _
  · exact messageCleared_clearMessage _

theorem happens_extends {it : Iteration} {next : Option ℤ} {ops : List FileOp} {first : List cJSON}
    (happens : Happens it messages next messages' ops) (extends' : Extends first messages) : Extends first messages' := by
  cases happens with
  | stop _ => exact extends'
  | compact _ => exact extends'.changed (compact_sameHistory _ _)
  | reply _ _ => exact extends'.append _
  | call _ _ => exact extends'.append _

/-- What extends some messages does so when the requests are sent and afterwards. -/
theorem chatLoop_extends (fuel : ℕ) (world : ℕ → Iteration) {first : List cJSON} (extends' : Extends first messages) :
    (∀ sent ∈ Requests.chatLoop fuel world messages, Extends first sent) ∧ Extends first (chatLoop fuel world messages).2.1 :=
  chatLoop_rule (Extends first) (Extends first) (fun _ _ _ _ happens => happens_extends happens)
    (fun _ _ _ _ _ happens => happens_extends happens) (fun _ holds => holds) fuel world messages extends'

theorem repl_extends (ps : List Prompt) {first : List cJSON} (extends' : Extends first messages) :
    (∀ sent ∈ Requests.repl ps messages, Extends first sent) ∧ Extends first (repl ps messages).2.1 :=
  repl_rule (Extends first) (Extends first) (fun _ _ _ _ happens => happens_extends happens)
    (fun _ _ _ _ _ happens => happens_extends happens) (fun _ holds => holds) (fun _ _ holds => holds.append _) ps messages extends'

/-- The requests of a turn, each extending those before it, and the messages after them all. -/
def Grows (requests : List (List cJSON)) (messages : List cJSON) : Prop :=
  requests.Pairwise Extends ∧ ∀ sent ∈ requests, Extends sent messages

theorem chatLoop_grows (fuel : ℕ) : ∀ (world : ℕ → Iteration) (messages : List cJSON),
    Grows (Requests.chatLoop fuel world messages) (chatLoop fuel world messages).2.1 := by
  induction fuel with
  | zero => exact fun _ _ => ⟨.nil, fun _ member => by simp [Requests.chatLoop] at member⟩
  | succ fuel ih =>
    intro world messages
    have happens := iteration_happens (world 0) messages
    obtain ⟨rest, after⟩ := ih (fun i => world (i + 1)) (iteration (world 0) messages).2.1
    have later := chatLoop_extends fuel (fun i => world (i + 1)) (happens_extends happens (.refl messages))
    rw [Requests.chatLoop, chatLoop]
    revert happens rest after later
    obtain ⟨next, messages', ops⟩ := iteration (world 0) messages
    intro happens rest after later
    cases next with
    | some code =>
      simp only [List.append_nil]
      unfold Requests.sent
      split_ifs
      · exact ⟨.nil, fun _ member => by simp at member⟩
      · refine ⟨List.pairwise_singleton _ _, fun sent member => ?_⟩
        obtain rfl := List.mem_singleton.mp member
        exact happens_extends happens (.refl _)
    | none =>
      simp only at rest after later ⊢
      unfold Requests.sent
      split_ifs
      · exact ⟨rest, after⟩
      · refine ⟨List.pairwise_cons.mpr ⟨later.1, rest⟩, fun sent member => ?_⟩
        rcases List.mem_cons.mp member with rfl | member
        · exact later.2
        · exact after sent member

theorem repl_grows (ps : List Prompt) : ∀ messages, Grows (Requests.repl ps messages) (repl ps messages).2.1 := by
  induction ps with
  | nil => exact fun _ => ⟨.nil, fun _ member => by simp [Requests.repl] at member⟩
  | cons p ps ih =>
    intro messages
    rw [Requests.repl, repl]
    by_cases empty : p.text = emptyString
    · simp only [if_pos empty]
      exact ih messages
    simp only [if_neg empty]
    have turn : Grows (Requests.ask p messages) (ask p messages).2.1 := chatLoop_grows MAX_TOOL_ITER p.world _
    by_cases bail : (ask p messages).1 = 1
    · simp only [if_pos bail, List.append_nil]
      exact turn
    · simp only [if_neg bail]
      obtain ⟨rest, after⟩ := ih (ask p messages).2.1
      have later (sent : List cJSON) (member : sent ∈ Requests.ask p messages) := repl_extends ps (turn.2 sent member)
      refine ⟨List.pairwise_append.mpr ⟨turn.1, rest, fun sent member => (later sent member).1⟩, fun sent member => ?_⟩
      rcases List.mem_append.mp member with member | member
      · exact (later sent member).2
      · exact after sent member

/-- Every request of a run carries what the requests before it carried, in the same order, and
    so do the messages in the end. -/
theorem requests_grow (run : Run) (file : Option Bytes) :
    Grows (Requests.main run file) (converse run (resume run file).1).2.1 := by
  unfold Requests.main Requests.converse converse
  cases run.input with
  | oneshot prompt => exact chatLoop_grows MAX_TOOL_ITER prompt.world _
  | lines prompts => exact repl_grows prompts _

end

end Sa.RequestTurns
