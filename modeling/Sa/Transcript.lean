import Sa.Content
import Sa.Output
import Sa.Workspace

/-!
# What a transcript tells

Turns whose tools work on a workspace. Who follows the messages of a turn, and reads in them
which tools were called and what they returned, knows what the files hold (`turn_known`).
-/

namespace Sa.Transcript
open Sa.CStrings Sa.Tinyjson Sa.Parser Sa.Stream Sa.Http Sa.Session Sa.Chat Sa.Messages Sa.Content Sa.Output Sa.Workspace

section
variable {E : Type} [DecidableEq E] (entry : CString → E)

/-- The call of a block. -/
def callAt (meets : Fin MAX_BLOCKS → Meets E) (st : stream_state_t) (i : Fin MAX_BLOCKS) : Option (Call E) :=
  let b := st.blocks i
  if isToolUse b then
    some ⟨b.name, cJSON_Parse (if 0 < b.partial_json.val.length then b.partial_json.val else lit "\x7b\x7d"), meets i⟩
  else none

/-- The calls of the first `n` blocks. -/
def callsOf (meets : Fin MAX_BLOCKS → Meets E) (st : stream_state_t) (n : ℕ) : List (Call E) :=
  ((List.finRange MAX_BLOCKS).take n).filterMap (callAt meets st)

/-- The tools that the call of a block meets: those before it have been made. -/
def toolsAt (meets : Fin MAX_BLOCKS → Meets E) (st : stream_state_t) (files : Files E) (i : Fin MAX_BLOCKS) : Tools :=
  tools entry (meets i) (run entry (callsOf meets st i) files).1

/-- What an iteration meets on a workspace. -/
structure Visit (E : Type) where
  interrupt : Bool
  exchange : Exchange
  renames : Bool
  opensAssist : Bool
  opensResults : Bool
  meets : Fin MAX_BLOCKS → Meets E

def Visit.iteration (v : Visit E) (files : Files E) : Iteration :=
  ⟨v.interrupt, v.exchange, v.renames, v.opensAssist, v.opensResults,
    toolsAt entry v.meets (Http.do_turn v.exchange initial).2.1 files⟩

/-- The calls that an iteration makes. -/
def Visit.calls (v : Visit E) : List (Call E) :=
  if v.interrupt then []
  else
    let (r, st, _) := Http.do_turn v.exchange initial
    if r < 0 then []
    else
      match blocks_to_content st with
      | none => []
      | some _ => callsOf v.meets st st.n

end

end Sa.Transcript
