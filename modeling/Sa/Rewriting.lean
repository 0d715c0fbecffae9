import Sa.Files
import Sa.SessionFile

/-!
# Rewriting the session file

`session_rewrite` with the results of all its calls. It goes on whatever the
writes report, so the file is replaced by what they leave: by all the messages
only if every write keeps all of its bytes (`rewrite_all_or_nothing`).
-/

namespace Sa.Rewriting
open Sa.CStrings Sa.Tinyjson Sa.Printer Sa.Session Sa.Files

/-- `session_rewrite` on a disk. -/
def session_rewrite_disk (fails : Failures) (messages : List cJSON) (disk : Disk) : Disk :=
  if fails.mkstemp then disk
  else
    let disk := disk.mkstemp
    if fails.fdopen then disk.unlink
    else
      let disk := (disk.writes fails.writes (messageWrites messages)).fclose fails.fclose
      if fails.rename then disk.unlink else disk.rename

/-- A call fails whose failure is looked at. -/
def GivesUp (fails : Failures) : Prop := fails.mkstemp = true ∨ fails.fdopen = true ∨ fails.rename = true

/-- No bytes are lost by the writes or by the close. -/
def LosesNothing (fails : Failures) (messages : List cJSON) : Prop :=
  (∀ i bytes, (messageWrites messages)[i]? = some bytes → Keeps (fails.writes i) bytes) ∧
    Keeps fails.fclose (messages.flatMap sessionLine)

theorem flatten_messageWrites (messages : List cJSON) : (messageWrites messages).flatten = messages.flatMap sessionLine := by
  induction messages with
  | nil => rfl
  | cons msg messages ih =>
    rw [messageWrites, List.flatMap_cons, List.flatten_append, List.flatMap_cons, ← ih]
    simp [messageWrites, sessionLine]

/-- What the writes and the close of a rewrite lose. -/
def losses (fails : Failures) : Losses := ⟨fails.writes, fails.fclose⟩

theorem rewrite_gives_up {fails : Failures} (gives : GivesUp fails) (messages : List cJSON) (disk : Disk) :
    (session_rewrite_disk fails messages disk).file = disk.file := by
  unfold session_rewrite_disk
  by_cases temporary : fails.mkstemp = true
  · rw [if_pos temporary]
  rw [if_neg temporary]
  by_cases opened : fails.fdopen = true
  · rw [if_pos opened]
    rfl
  rw [if_neg opened]
  have renames : fails.rename = true := (gives.resolve_left temporary).resolve_left opened
  rw [if_pos renames, writes_eq]
  rfl

theorem rewrite_goes_on {fails : Failures} (goes : ¬GivesUp fails) (messages : List cJSON) (disk : Disk) :
    session_rewrite_disk fails messages disk =
      ⟨some ((losses fails).leave (messageWrites messages)), none⟩ := by
  simp only [GivesUp, not_or] at goes
  unfold session_rewrite_disk
  rw [if_neg goes.1, if_neg goes.2.1, if_neg goes.2.2, writes_eq]
  rfl

theorem losesNothing_iff {fails : Failures} {messages : List cJSON} :
    LosesNothing fails messages ↔ (losses fails).leave (messageWrites messages) = messages.flatMap sessionLine := by
  rw [← flatten_messageWrites, leave_eq_iff, Losses.Nothing, LosesNothing, flatten_messageWrites]
  rfl

/-- Whatever fails, every file stays as it is or becomes all the messages, just when
    the rewrite gives up or no write loses any bytes. -/
theorem rewrite_all_or_nothing (fails : Failures) (messages : List cJSON) :
    (∀ disk : Disk, (session_rewrite_disk fails messages disk).file = disk.file ∨
      (session_rewrite_disk fails messages disk).file = some (messages.flatMap sessionLine)) ↔
      GivesUp fails ∨ LosesNothing fails messages := by
  constructor
  · intro atomic
    by_cases gives : GivesUp fails
    · exact .inl gives
    right
    rw [losesNothing_iff]
    -- A file that is not what the writes leave.
    rcases atomic ⟨some ((losses fails).leave (messageWrites messages) ++ [0]), none⟩ with kept | whole
    · rw [rewrite_goes_on gives] at kept
      simp at kept
    · rw [rewrite_goes_on gives] at whole
      exact Option.some.inj whole
  · rintro (gives | keeps) disk
    · exact .inl (rewrite_gives_up gives messages disk)
    · by_cases gives : GivesUp fails
      · exact .inl (rewrite_gives_up gives messages disk)
      · right
        rw [rewrite_goes_on gives, losesNothing_iff.mp keeps]

/-- Two messages; the write of the second stores four of its bytes. -/
theorem rewrite_truncates :
    ¬∀ (fails : Failures) (messages : List cJSON) (disk : Disk),
      (session_rewrite_disk fails messages disk).file = disk.file ∨
        (session_rewrite_disk fails messages disk).file = some (messages.flatMap sessionLine) := by
  intro atomic
  have full := atomic ⟨false, false, fun i => if i = 2 then some 4 else none, none, false⟩ [.array [], .string (cs "second")]
    ⟨some (sessionLine .null), none⟩
  revert full
  decide +kernel

/-- A rewrite on a disk is what it does to the session file, whatever is lost. -/
theorem rewrite_refines (fails : Failures) (messages : List cJSON) (disk : Disk) :
    (session_rewrite_disk fails messages disk).file =
      (session_rewrite (!fails.mkstemp && !fails.fdopen && !fails.rename) messages).foldl (FileOp.store (losses fails)) disk.file := by
  by_cases gives : GivesUp fails
  · have none : (!fails.mkstemp && !fails.fdopen && !fails.rename) = false := by
      rcases gives with failed | failed | failed <;> simp [failed]
    rw [rewrite_gives_up gives, session_rewrite, none]
    rfl
  · have all : (!fails.mkstemp && !fails.fdopen && !fails.rename) = true := by
      simp only [GivesUp, not_or, Bool.not_eq_true] at gives
      simp [gives]
    rw [rewrite_goes_on gives, session_rewrite, all]
    rfl

end Sa.Rewriting
