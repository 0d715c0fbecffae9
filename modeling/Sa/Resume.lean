import Sa.Logs

/-!
# Resuming after kills

Runs one after another on the session file, each killed somewhere. As long as no
process is killed between an assistant's line with calls and the line of their
results, the next `-c` finds every call answered (`resume_answered`).
-/

namespace Sa.Resume
open Sa.CStrings Sa.Tinyjson Sa.PrinterGrammar Sa.Stream Sa.Http Sa.Session Sa.Chat Sa.Pairing Sa.Messages Sa.Turns
open Sa.ToolPairing Sa.SessionFile Sa.Logs

variable {orphans : Prop}

/-- The file can be opened for the results if it could be for their calls. -/
def Answering (it : Iteration) : Prop := it.opensAssist = true → it.opensResults = true

/-- The file could be opened for the calls if it can be for their results, and the
    numbers in their inputs are finite. -/
structure Calling (it : Iteration) : Prop where
  opens : it.opensResults = true → it.opensAssist = true
  finite : ∀ items, contentItems (turnState it).active = some items → ∀ item ∈ items, FiniteNumbers item

theorem isMessage_user (text : CString) : IsMessage (make_user_msg text) := ⟨_, _, rfl⟩
theorem isMessage_assistantMsg (content : cJSON) : IsMessage (assistantMsg content) := ⟨_, _, rfl⟩
theorem isMessage_resultsMsg (results : List cJSON) : IsMessage (resultsMsg results) := ⟨_, _, rfl⟩

theorem finite_resultsMsg (tools : Fin MAX_BLOCKS → Tools) (st : stream_state_t) :
    FiniteNumbers (resultsMsg (toolResults tools st)) := by
  have each : ∀ item ∈ toolResults tools st, FiniteNumbers item := by
    intro item member
    obtain ⟨i, -, made⟩ := List.mem_filterMap.mp member
    split_ifs at made
    cases made
    simp [toolResult, FiniteNumbers]
  simpa [resultsMsg, FiniteNumbers] using each

theorem sound_user (text : CString) : Sound orphans [make_user_msg text] := by
  refine ⟨paired_user text, fun m member => ?_⟩
  rw [List.mem_singleton.mp member]
  exact kept_finite (isMessage_user text) (by simp [make_user_msg, FiniteNumbers])

theorem sound_reply {st : stream_state_t} {items : List cJSON} (content : contentItems st.active = some items)
    (tools : st.active.any isToolUse = false) : Sound orphans [assistantMsg (.array items)] := by
  refine ⟨paired_reply content tools, fun m member => ?_⟩
  rw [List.mem_singleton.mp member]
  exact ⟨isMessage_assistantMsg _, fun answer => absurd answer (assistantMsg_noResults _),
    fun calls => absurd ((toolUses_eq_nil content).mpr tools) calls⟩

theorem sound_results (allowed : orphans) {ids : List (Option CString)} (some : ids ≠ []) (tools : Fin MAX_BLOCKS → Tools)
    (st : stream_state_t) (results : ResultsFor ids (resultsMsg (toolResults tools st))) :
    Sound orphans [resultsMsg (toolResults tools st)] := by
  refine ⟨.orphan allowed (roles.answers_isAnswer some results) .nil, fun m member => ?_⟩
  rw [List.mem_singleton.mp member]
  exact kept_finite (isMessage_resultsMsg _) (finite_resultsMsg tools st)

theorem sound_call {it : Iteration} (calling : orphans ∨ Calling it) {items : List cJSON}
    (content : contentItems (turnState it).active = some items) (tools : (turnState it).active.any isToolUse = true) :
    Sound orphans [assistantMsg (.array items), resultsMsg (toolResults it.tools (turnState it))] := by
  refine ⟨paired_call it.tools content tools, ?_⟩
  simp only [List.mem_cons, List.not_mem_nil, or_false, forall_eq_or_imp, forall_eq]
  refine ⟨⟨isMessage_assistantMsg _, fun answer => absurd answer (assistantMsg_noResults _), fun _ => ?_⟩,
    kept_finite (isMessage_resultsMsg _) (finite_resultsMsg it.tools _)⟩
  rcases calling with allowed | calling
  · exact .inr allowed
  · left
    have each := calling.finite items content
    simpa [assistantMsg, FiniteNumbers] using each

theorem log_append (opens : Bool) {m : cJSON} (sound : Sound orphans [m]) : Log orphans (session_append opens m) := by
  cases opens with
  | true => exact .single sound .nil
  | false => exact .nil

theorem log_rewrite (renames : Bool) {messages : List cJSON} (sound : Sound orphans messages) :
    Log orphans (session_rewrite renames messages) := by
  cases renames with
  | true => exact .rewrite sound .nil
  | false => exact .nil

theorem happens_log {it : Iteration} {messages messages' : List cJSON} {next : Option Int} {ops : List FileOp}
    (answering : Answering it) (calling : orphans ∨ Calling it) (happens : Happens it messages next messages' ops)
    (sound : Sound orphans messages) : Sound orphans messages' ∧ Log orphans ops := by
  cases happens with
  | stop _ => exact ⟨sound, .nil⟩
  | compact _ =>
    have cleared := sound_compact sound 10
    exact ⟨cleared, log_rewrite it.renames cleared⟩
  | reply content tools =>
    have reply : Sound orphans _ := sound_reply content tools
    exact ⟨sound.append reply, log_append it.opensAssist reply⟩
  | @call items content tools =>
    have call := sound_call calling content tools
    refine ⟨sound.append call, ?_⟩
    have calls : toolUses (assistantMsg (.array items)) ≠ [] := by
      rw [Ne, toolUses_eq_nil content, tools]
      decide
    have results := resultsMsg_for it.tools content
    unfold session_append
    by_cases assist : it.opensAssist = true
    · rw [if_pos assist, if_pos (answering assist)]
      exact .call call calls (roles.answers_isAnswer calls results) .nil
    · rw [if_neg assist]
      by_cases opened : it.opensResults = true
      · have allowed := calling.resolve_right fun calling => assist (calling.opens opened)
        rw [if_pos opened]
        exact .single (sound_results allowed calls it.tools _ results) .nil
      · rw [if_neg opened]
        exact .nil

theorem converse_log (run : Run) (answering : ∀ p ∈ prompts run, ∀ i, Answering (p.world i))
    (calling : orphans ∨ ∀ p ∈ prompts run, ∀ i, Calling (p.world i)) {messages : List cJSON} (sound : Sound orphans messages)
    {done : List FileOp} (log : Log orphans done) : Log orphans (done ++ (converse run messages).2.2) := by
  have whole := converse_rule (fun messages done => Sound orphans messages ∧ Log orphans done)
    (fun it => Answering it ∧ (orphans ∨ Calling it)) (fun _ => True)
    (fun it messages next messages' ops done met happens holds => by
      obtain ⟨sound', log'⟩ := happens_log met.1 met.2 happens holds.1
      exact ⟨sound', holds.2.append log'⟩)
    (fun p messages done _ holds =>
      ⟨holds.1.append (sound_user p.text), holds.2.append (log_append p.opens (sound_user p.text))⟩)
    run messages done
    (fun p member => ⟨trivial, fun i => ⟨answering p member i, calling.imp_right fun all => all p member i⟩⟩) ⟨sound, log⟩
  exact whole.2

theorem sound_resume (run : Run) {file : Option Bytes} (survives : Survives orphans file) :
    Sound orphans (resume run file).1 := by
  unfold resume
  by_cases flag : run.continue_flag = true
  · rw [if_pos flag]
    cases file with
    | none => exact sound_nil
    | some bytes =>
      obtain ⟨messages, holds, sound⟩ := survives
      have loaded : loadBytes bytes = messages := holds.load
      simp only [session_load, Option.map_some, loaded]
      exact sound_prune sound
  · rw [if_neg flag]
    exact sound_nil

theorem log_resume (run : Run) {file : Option Bytes} (survives : Survives orphans file) :
    Log orphans (resume run file).2 := by
  have sound := sound_resume run survives
  revert sound
  unfold resume
  by_cases flag : run.continue_flag = true
  · rw [if_pos flag]
    cases session_load file with
    | none => exact fun _ => .nil
    | some loaded =>
      simp only
      intro sound
      split_ifs
      · exact log_rewrite run.renames sound
      · exact .nil
  · rw [if_neg flag]
    exact fun _ => .nil

theorem main_log (run : Run) {file : Option Bytes} (survives : Survives orphans file)
    (answering : ∀ p ∈ prompts run, ∀ i, Answering (p.world i))
    (calling : orphans ∨ ∀ p ∈ prompts run, ∀ i, Calling (p.world i)) : Log orphans (main run file) :=
  converse_log run answering calling (sound_resume run survives) (log_resume run survives)

/-- A run and where it is killed; past its last operation it ends by itself. -/
structure Life where
  run : Run
  after : ℕ
  written : Option ℕ

/-- The file a life leaves. -/
def Life.leaves (file : Option Bytes) (life : Life) : Option Bytes := killed (main life.run file) life.after life.written file

/-- The runs open the file for results as for calls, and none is killed when the last
    message it has written is a call that is read back. -/
def Safe : List Life → Option Bytes → Prop
  | [], _ => True
  | life :: later, file =>
    (∀ p ∈ prompts life.run, ∀ i, Answering (p.world i)) ∧
      Spared (lastWhole none (main life.run file) life.after life.written) ∧ Safe later (life.leaves file)

/-- The runs open the file for every message, and every call is read back. -/
def Undisturbed (life : Life) : Prop := ∀ p ∈ prompts life.run, p.opens = true ∧ ∀ i, Calling (p.world i)

/-- A run that can open the file begins with a message that does not call. -/
theorem converse_head (run : Run) (opens : ∀ p ∈ prompts run, p.opens = true) (messages : List cJSON) {a : cJSON}
    {rest : List FileOp} (first : (converse run messages).2.2 = .append a :: rest) : toolUses a = [] := by
  have asked : ∀ (p : Prompt) (messages : List cJSON), p.opens = true →
      ∃ more, (ask p messages).2.2 = .append (make_user_msg p.text) :: more := by
    intro p messages opens
    exact ⟨_, by rw [ask, opens]; rfl⟩
  have looped : ∀ (ps : List Prompt) (messages : List cJSON), (∀ p ∈ ps, p.opens = true) →
      (repl ps messages).2.2 = [] ∨ ∃ text more, (repl ps messages).2.2 = .append (make_user_msg text) :: more := by
    intro ps
    induction ps with
    | nil => exact fun _ _ => .inl rfl
    | cons p ps ih =>
      intro messages opens
      rw [repl]
      split_ifs with empty
      · exact ih messages fun q member => opens q (by simp [member])
      · obtain ⟨more, ops⟩ := asked p messages (opens p (by simp))
        revert ops
        obtain ⟨r, messages', ops'⟩ := ask p messages
        intro ops
        simp only at ops
        by_cases stop : r = 1
        · exact .inr ⟨p.text, more, by simp only [if_pos stop, ops]⟩
        · exact .inr ⟨p.text, _, by simp only [if_neg stop, ops]; rfl⟩
  unfold converse at first
  unfold prompts at opens
  cases input : run.input with
  | oneshot prompt =>
    rw [input] at first opens
    obtain ⟨more, ops⟩ := asked prompt messages (opens prompt (by simp))
    simp only [ops, List.cons.injEq, FileOp.append.injEq] at first
    rw [← first.1, toolUses_make_user_msg]
  | lines ps =>
    rw [input] at first opens
    rcases looped ps messages opens with none | ⟨text, more, ops⟩
    · simp [none] at first
    · simp only [ops, List.cons.injEq, FileOp.append.injEq] at first
      rw [← first.1, toolUses_make_user_msg]

theorem resume_rewrites {run : Run} {file : Option Bytes} (healed : (resume run file).2 ≠ []) :
    (resume run file).2 = [.rewrite (resume run file).1] := by
  revert healed
  unfold resume
  by_cases flag : run.continue_flag = true
  · rw [if_pos flag]
    cases session_load file with
    | none => exact fun healed => absurd rfl healed
    | some loaded =>
      simp only [session_rewrite]
      split_ifs
      · exact fun _ => rfl
      · exact fun healed => absurd rfl healed
      · exact fun healed => absurd rfl healed
  · rw [if_neg flag]
    exact fun healed => absurd rfl healed

theorem main_head (run : Run) (file : Option Bytes) (opens : ∀ p ∈ prompts run, p.opens = true) {a : cJSON}
    {rest : List FileOp} (first : main run file = .append a :: rest) : toolUses a = [] := by
  have ops : main run file = (resume run file).2 ++ (converse run (resume run file).1).2.2 := rfl
  by_cases healed : (resume run file).2 = []
  · rw [ops, healed, List.nil_append] at first
    exact converse_head run opens _ first
  · rw [ops, resume_rewrites healed] at first
    simp at first

theorem live_survives (lives : List Life) : ∀ file : Option Bytes, Survives orphans file → Safe lives file →
    (orphans ∨ ∀ life ∈ lives, Undisturbed life) → Survives orphans (lives.foldl Life.leaves file) := by
  induction lives with
  | nil => exact fun _ survives _ _ => survives
  | cons life later ih =>
    intro file survives safe calm
    obtain ⟨answering, spared, rest⟩ := safe
    have calling : orphans ∨ ∀ p ∈ prompts life.run, ∀ i, Calling (p.world i) :=
      calm.imp_right fun all p member => (all life (by simp) p member).2
    have log := main_log life.run survives answering calling
    refine ih _ (killed_survives log file none life.after life.written survives ?_ spared) rest
      (calm.imp_right fun all l member => all l (by simp [member]))
    rcases calm with allowed | all
    · exact .inl allowed
    · exact .inr (.inr fun a rest first => main_head life.run file (fun p member => (all life (by simp) p member).1) first)

/-- After any runs, killed wherever the last message is not a call, every call that
    `-c` finds is answered by the next message; and if the runs could open the file
    and every call is read back, every answer follows its call as well. -/
theorem resume_answered (lives : List Life) (safe : Safe lives none) (run : Run) :
    Answered roles (resume run (lives.foldl Life.leaves none)).1 ∧
      ((∀ life ∈ lives, Undisturbed life) → WellPaired roles (resume run (lives.foldl Life.leaves none)).1) := by
  have start : ∀ orphans, Survives orphans none := fun _ => ⟨[], .inl clean_nil, sound_nil⟩
  constructor
  · have survives := live_survives lives none (start True) safe (.inl trivial)
    exact (sound_resume run survives).paired.answered
  · intro calm
    have survives := live_survives lives none (start False) safe (.inr calm)
    exact paired_iff.mp (sound_resume run survives).paired

/-- One prompt, whose reply calls a tool. -/
def toolRun : Run := ⟨false, true, .oneshot ⟨cs "hi", true, fun i => answered (if i = 0 then toolCall else noBlocks)⟩⟩

theorem toolRun_answering : ∀ p ∈ prompts toolRun, ∀ i, Answering (p.world i) := fun p member i => by
  rw [List.mem_singleton.mp member]
  exact fun _ => rfl

/-- What a kill inside the assistant's line leaves, and one right after it. -/
private theorem toolRun_leaves :
    (lastWhole none (main toolRun none) 1 (some 20)).all (fun m => decide (toolUses m = [])) = true ∧
      (resume ⟨true, true, .lines []⟩ ([⟨toolRun, 2, none⟩].foldl Life.leaves none)).1.map toolUses =
        [[], [some (cs "t")]] := by decide +kernel

/-- Killed inside the assistant's line. -/
theorem resume_answered_torn :
    Answered roles (resume ⟨true, true, .lines []⟩ ([⟨toolRun, 1, some 20⟩].foldl Life.leaves none)).1 ∧
      ((∀ life ∈ [(⟨toolRun, 1, some 20⟩ : Life)], Undisturbed life) →
        WellPaired roles (resume ⟨true, true, .lines []⟩ ([⟨toolRun, 1, some 20⟩].foldl Life.leaves none)).1) := by
  refine resume_answered [⟨toolRun, 1, some 20⟩] ⟨toolRun_answering, fun m last calls => ?_, trivial⟩ _
  have silent := toolRun_leaves.1
  rw [Option.mem_def.mp last] at silent
  exact absurd (by simpa using silent) calls

/-- Killed right after the assistant's line: its call is never answered. -/
theorem resume_unanswered :
    ¬∀ (lives : List Life) (run : Run), Answered roles (resume run (lives.foldl Life.leaves none)).1 := by
  intro answered
  have call := answered [⟨toolRun, 2, none⟩] ⟨true, true, .lines []⟩
  have two := toolRun_leaves.2
  revert call two
  generalize (resume ⟨true, true, .lines []⟩ ([⟨toolRun, 2, none⟩].foldl Life.leaves none)).1 = messages
  intro call two
  obtain ⟨u, a, rfl⟩ : ∃ u a, messages = [u, a] := List.length_eq_two.mp (by simpa using congrArg List.length two)
  simp only [List.map_cons, List.map_nil, List.cons.injEq, and_true] at two
  have calls : roles.calls a ≠ [] := by
    show toolUses a ≠ []
    simp [two.2]
  obtain ⟨r, next, -⟩ := call 1 a rfl calls
  simp at next

end Sa.Resume
