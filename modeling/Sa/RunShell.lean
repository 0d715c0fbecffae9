import Sa.ReadFile
import Sa.DecimalTexts

/-!
# The result of a command

`run_shell`: the output of a command as `fread` delivers it, up to a cap, with
how the command ended after it. The bytes are gathered with their number and
handed on through `strdup`.
-/

namespace Sa.RunShell
open Sa.CStrings Sa.NumberTexts Sa.DecimalTexts Sa.ReadFile

/-- What one `fread` into `chunk` delivers. -/
abbrev Chunk := {b : Bytes // b ≠ [] ∧ b.length ≤ 4096}

/-- A command that was started: its output as it is read, and what `pclose` gives. -/
structure Command where
  reads : List Chunk
  status : Int32

/-- The line for the shell. -/
def wrapped (cmd : CString) : Bytes := (cmd.val ++ lit " 2>&1").take (cmd.val.length + 32 - 1)

/-- The reading loop, with `out` and `truncated` at its end. -/
def gather (out : Bytes) : List Chunk → Bytes × Bool
  | [] => (out, false)
  | chunk :: reads =>
    let out := buf_append out chunk.val chunk.val.length
    if out.length > 2 ^ 20 then (out, true) else gather out reads

/-- `status & 0x7f`. -/
def termSignal (status : Int) : Int := status % 128

def WIFEXITED (status : Int) : Bool := termSignal status == 0
def WEXITSTATUS (status : Int) : Int := status / 256 % 256

/-- Every signal but 0 and 127, which stand for an exit and for a stop. -/
def WIFSIGNALED (status : Int) : Bool := termSignal status != 0 && termSignal status != 127
def WTERMSIG (status : Int) : Int := termSignal status

/-- How a command ended, as the trailer has it. -/
def ending (status : Int) : Bytes :=
  if WIFEXITED status then lit "[exit " ++ fmt_lld (WEXITSTATUS status) ++ lit "]"
  else if WIFSIGNALED status then lit "[signal " ++ fmt_lld (WTERMSIG status) ++ lit "]"
  else lit "[status " ++ fmt_lld status ++ lit "]"

/-- The trailer, in a buffer of 64 bytes. -/
def trailer (status : Int) : Bytes := (10 :: ending status).take 63

/-- `popen` is the shell: what becomes of a line, if it can be started. -/
def run_shell (popen : Bytes → Option Command) (cmd : CString) : CString :=
  match popen (wrapped cmd) with
  | none => cs "error: popen failed"
  | some f =>
    let (out, truncated) := gather [] f.reads
    let out := if out.length = 0 then buf_append out (literal "(no output)") 11 else out
    let out := if truncated then buf_append out (literal "\n[output truncated at 1MB]") 26 else out
    let trailer := trailer f.status.toInt
    cstr (buf_append out trailer trailer.length)

/-- All the command writes. -/
def written (reads : List Chunk) : Bytes := (reads.map Subtype.val).flatten

/-- The reads that are made: as long as the ones before keep within the cap. -/
def seen : Nat → List Chunk → Bytes
  | _, [] => []
  | before, chunk :: reads =>
    if 2 ^ 20 < before + chunk.val.length then chunk.val
    else chunk.val ++ seen (before + chunk.val.length) reads

def notice : Bytes := lit "[output truncated at 1MB]"

/-- The text ends with how the command ended, and before it says so when reading
    stopped at the cap. -/
def Ended (f : Command) (text : Bytes) : Prop :=
  ∃ before, text = before ++ ending f.status.toInt ∧ (2 ^ 20 < (written f.reads).length → notice <:+: before)

/-- What the model relies on in a result. -/
structure Reported (f : Command) (text : Bytes) : Prop where
  ended : Ended f text
  bounded : text.length ≤ 2 ^ 20 + 4096 + 128

theorem written_cons (chunk : Chunk) (reads : List Chunk) : written (chunk :: reads) = chunk.val ++ written reads := rfl

theorem gather_eq (reads : List Chunk) : ∀ out : Bytes, out.length ≤ 2 ^ 20 →
    gather out reads = (out ++ seen out.length reads, decide (2 ^ 20 < out.length + (written reads).length)) := by
  induction reads with
  | nil =>
    intro out within
    have short : ¬2 ^ 20 < out.length + (written []).length := by simpa [written] using within
    simp only [gather, seen, List.append_nil, decide_eq_false short]
  | cons chunk reads ih =>
    intro out within
    simp only [gather, seen, buf_append, List.take_length, List.length_append, written_cons]
    by_cases full : 2 ^ 20 < out.length + chunk.val.length
    · have exceeded : 2 ^ 20 < out.length + (chunk.val.length + (written reads).length) := by omega
      rw [if_pos full, if_pos full, decide_eq_true exceeded]
    · have next := ih (out ++ chunk.val) (by simpa using full)
      rw [List.length_append, List.append_assoc, Nat.add_assoc] at next
      rw [if_neg full, if_neg full, next]

theorem length_seen (reads : List Chunk) : ∀ before ≤ 2 ^ 20, before + (seen before reads).length ≤ 2 ^ 20 + 4096 := by
  induction reads with
  | nil =>
    intro before within
    simp only [seen, List.length_nil]
    omega
  | cons chunk reads ih =>
    intro before within
    have size := chunk.property.2
    simp only [seen]
    by_cases full : 2 ^ 20 < before + chunk.val.length
    · rw [if_pos full]
      omega
    · have rest := ih (before + chunk.val.length) (by omega)
      rw [if_neg full, List.length_append]
      omega

theorem length_fmt_lld {z : ℤ} (low : -2 ^ 31 ≤ z) (high : z < 2 ^ 31) : (fmt_lld z).length ≤ 11 := by
  have digits : (natText z.natAbs).length ≤ 10 := length_natText_le (by norm_num) (by omega)
  unfold fmt_lld
  split
  · simp only [List.length_cons]
    omega
  · omega

theorem length_ending (status : Int32) : (ending status.toInt).length ≤ 20 := by
  have low : -2 ^ 31 ≤ status.toInt := status.le_toInt
  have high : status.toInt < 2 ^ 31 := status.toInt_lt
  have opening : (lit "[exit ").length = 6 ∧ (lit "[signal ").length = 8 ∧ (lit "[status ").length = 8 ∧ (lit "]").length = 1 := by
    decide +kernel
  have exited : (fmt_lld (WEXITSTATUS status.toInt)).length ≤ 11 :=
    length_fmt_lld (by unfold WEXITSTATUS; omega) (by unfold WEXITSTATUS; omega)
  have killed : (fmt_lld (WTERMSIG status.toInt)).length ≤ 11 :=
    length_fmt_lld (by unfold WTERMSIG termSignal; omega) (by unfold WTERMSIG termSignal; omega)
  have other := length_fmt_lld low high
  unfold ending
  split_ifs <;> simp only [List.length_append] <;> omega

/-- The buffer of the trailer is large enough. -/
theorem trailer_whole (status : Int32) : trailer status.toInt = 10 :: ending status.toInt := by
  have short := length_ending status
  exact List.take_of_length_le (by simp only [List.length_cons]; omega)

theorem fmt_lld_free (z : ℤ) : 0 ∉ fmt_lld z := by
  have digits : 0 ∉ natText z.natAbs := by
    intro member
    have digit := natText_digits z.natAbs 0 member
    revert digit
    decide
  unfold fmt_lld
  split <;> simp [digits]

theorem ending_free (status : ℤ) : 0 ∉ ending status := by
  have opening : 0 ∉ lit "[exit " ∧ 0 ∉ lit "[signal " ∧ 0 ∉ lit "[status " ∧ 0 ∉ lit "]" := by decide +kernel
  unfold ending
  split_ifs <;> simp [fmt_lld_free, opening]

/-- What is in the buffer before the trailer. -/
def body (f : Command) : Bytes :=
  (if seen 0 f.reads = [] then lit "(no output)" else seen 0 f.reads) ++
    if 2 ^ 20 < (written f.reads).length then 10 :: notice else []

theorem run_shell_eq {popen : Bytes → Option Command} {cmd : CString} {f : Command} (opened : popen (wrapped cmd) = some f) :
    run_shell popen cmd = cstr (body f ++ 10 :: ending f.status.toInt) := by
  have gathered := gather_eq f.reads [] (by norm_num)
  have none : (literal "(no output)").take 11 = lit "(no output)" := by decide +kernel
  have stopped : (literal "\n[output truncated at 1MB]").take 26 = 10 :: notice := by decide +kernel
  simp only [List.nil_append, List.length_nil, Nat.zero_add] at gathered
  unfold run_shell body
  simp only [opened, gathered, buf_append, trailer_whole, List.take_length, none, stopped, List.length_eq_zero_iff,
    decide_eq_true_eq]
  have fallback : (if seen 0 f.reads = [] then seen 0 f.reads ++ lit "(no output)" else seen 0 f.reads) =
      if seen 0 f.reads = [] then lit "(no output)" else seen 0 f.reads := by
    by_cases empty : seen 0 f.reads = [] <;> simp [empty]
  rw [fallback]
  by_cases exceeded : 2 ^ 20 < (written f.reads).length
  · simp only [if_pos exceeded]
  · simp only [if_neg exceeded, List.append_nil]

theorem length_body (f : Command) : (body f).length ≤ 2 ^ 20 + 4096 + 26 := by
  have gathered := length_seen f.reads 0 (by norm_num)
  have none : (lit "(no output)").length = 11 := by decide +kernel
  have stopped : (10 :: notice).length = 26 := by decide +kernel
  unfold body
  rw [List.length_append]
  split_ifs <;> simp only [none, stopped, List.length_nil] <;> omega

/-- A result is never longer than the cap, a read, the notice and the trailer. -/
theorem length_run_shell {popen : Bytes → Option Command} {cmd : CString} {f : Command} (opened : popen (wrapped cmd) = some f) :
    (run_shell popen cmd).val.length ≤ 2 ^ 20 + 4096 + 128 := by
  have kept := length_body f
  have ended := length_ending f.status
  have cut := (List.takeWhile_prefix (· != 0) (l := body f ++ 10 :: ending f.status.toInt)).length_le
  rw [run_shell_eq opened]
  simp only [List.length_append, List.length_cons] at cut
  simp only [cstr]
  omega

/-- Without a NUL in the output the result is the whole buffer. -/
theorem result_whole {f : Command} (free : 0 ∉ seen 0 f.reads) :
    (cstr (body f ++ 10 :: ending f.status.toInt)).val = body f ++ 10 :: ending f.status.toInt := by
  have none : 0 ∉ lit "(no output)" := by decide +kernel
  have stopped : 0 ∉ 10 :: notice := by decide +kernel
  apply cstr_of_nulFree
  unfold body
  simp only [List.mem_append, List.mem_cons, not_or]
  refine ⟨⟨?_, ?_⟩, by decide, ending_free _⟩
  · split_ifs <;> assumption
  · split_ifs
    · exact stopped
    · exact List.not_mem_nil

/-- With one it is what comes before the first. -/
theorem result_cut {f : Command} (nul : 0 ∈ seen 0 f.reads) :
    (cstr (body f ++ 10 :: ending f.status.toInt)).val = (cstr (seen 0 f.reads)).val := by
  obtain ⟨before, after, parts, free⟩ := List.eq_append_cons_of_mem nul
  have some : seen 0 f.reads ≠ [] := List.ne_nil_of_mem nul
  unfold body
  rw [if_neg some, parts, cstr_cut free]
  simp only [List.append_assoc, List.cons_append]
  exact cstr_cut free _

theorem ended_whole (f : Command) : Ended f (body f ++ 10 :: ending f.status.toInt) := by
  refine ⟨body f ++ [10], by simp, ?_⟩
  intro exceeded
  refine ⟨(if seen 0 f.reads = [] then lit "(no output)" else seen 0 f.reads) ++ [10], [10], ?_⟩
  simp only [body, if_pos exceeded]
  simp

/-- A result reports how the command ended unless a NUL was read, and then just when
    the output before the first NUL ends as the result should. -/
theorem reported_iff (popen : Bytes → Option Command) (cmd : CString) (f : Command) (opened : popen (wrapped cmd) = some f) :
    Reported f (run_shell popen cmd).val ↔ 0 ∉ seen 0 f.reads ∨ Ended f (cstr (seen 0 f.reads)).val := by
  have bounded := length_run_shell opened
  rw [run_shell_eq opened] at bounded ⊢
  constructor
  · intro reported
    by_cases nul : 0 ∈ seen 0 f.reads
    · have ended := reported.ended
      rw [result_cut nul] at ended
      exact Or.inr ended
    · exact Or.inl nul
  · intro kept
    refine ⟨?_, bounded⟩
    by_cases nul : 0 ∈ seen 0 f.reads
    · rw [result_cut nul]
      exact kept.resolve_left (not_not_intro nul)
    · rw [result_whole nul]
      exact ended_whole f

/-- A command that writes one NUL and exits with 1. -/
def nulCommand : Command := ⟨[⟨[0], by decide⟩], 256⟩

theorem reported_iff_nul : (fun _ => some nulCommand) (wrapped (cs "printf '\\0'; false")) = some nulCommand ∧
    (Reported nulCommand (run_shell (fun _ => some nulCommand) (cs "printf '\\0'; false")).val ↔
      0 ∉ seen 0 nulCommand.reads ∨ Ended nulCommand (cstr (seen 0 nulCommand.reads)).val) :=
  ⟨rfl, reported_iff _ _ nulCommand rfl⟩

/-- Its result is empty. -/
theorem ending_lost : ¬∀ (popen : Bytes → Option Command) (cmd : CString) (f : Command), popen (wrapped cmd) = some f →
    Reported f (run_shell popen cmd).val := by
  intro reported
  obtain ⟨⟨before, text, -⟩, -⟩ := reported (fun _ => some nulCommand) (cs "printf '\\0'; false") nulCommand rfl
  have empty : (run_shell (fun _ => some nulCommand) (cs "printf '\\0'; false")).val = [] := by decide +kernel
  have trailer : ending nulCommand.status.toInt ≠ [] := by decide +kernel
  rw [empty] at text
  exact trailer (List.append_eq_nil_iff.mp text.symm).2

end Sa.RunShell
