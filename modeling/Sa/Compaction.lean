import Sa.Appending
import Sa.Clearing
import Sa.Resume
import Sa.Rewriting

/-!
# Compaction and the file

A rewrite after compaction keeps what the file loads to, with results cleared, as
long as the messages in memory are those the file loads to. A run starts that way
only under some conditions (`InStep`), and stays so as long as no bytes are lost
that it writes (`compaction_keeps_history`).
-/

namespace Sa.Compaction
open Sa.CStrings Sa.Tinyjson Sa.JsonGrammar Sa.JsonTexts Sa.Parser Sa.ParserGrammar Sa.Printer Sa.PrinterGrammar Sa.RoundTrip
open Sa.Stream Sa.Files Sa.Session Sa.Chat Sa.Messages Sa.Turns Sa.ToolPairing Sa.SessionFile Sa.Appending Sa.Logs Sa.Resume
open Sa.Rewriting Sa.Clearing

/-- The file these operations leave; the `i`th of them loses what `lost i` says. -/
def leaves (lost : ℕ → Losses) : List FileOp → Option Bytes → Option Bytes
  | [], file => file
  | op :: ops, file => leaves (fun i => lost (i + 1)) ops (op.store (lost 0) file)

/-- Up to the last rewrite no bytes are lost that are written. -/
def Stored (lost : ℕ → Losses) (ops : List FileOp) : Prop :=
  ∀ i op, ops[i]? = some op → (∃ ms, .rewrite ms ∈ ops.drop i) → (lost i).Nothing (messageWrites op.messages)

/-- The same for every rewrite, where nothing is lost. -/
def KeepsWhole (file : Option Bytes) (ops : List FileOp) : Prop :=
  ∀ before ms after, ops = before ++ .rewrite ms :: after →
    SameHistory (loaded (before.foldl FileOp.apply file)) (loaded ((FileOp.rewrite ms).apply (before.foldl FileOp.apply file)))

section
variable {file : Option Bytes} {done : List FileOp}

theorem KeepsWhole.before {ops : List FileOp} (keeps : KeepsWhole file (done ++ ops)) : KeepsWhole file done :=
  fun before ms after all => keeps before ms (after ++ ops) (by rw [all, List.append_assoc]; rfl)

end

section
variable {file : Option Bytes} {messages : List cJSON} {done : List FileOp}

end

/-- The server rejects what it is sent. -/
def overflow : Bytes := lit "HTTP/1.1 400 x\r\n\r\n\x7b\"error\":\x7b\"message\":\"context\"\x7d\x7d"

/-- A disk that loses nothing. -/
def sound : ℕ → Losses := fun _ => ⟨fun _ => none, none⟩

section
variable {file : Option Bytes} {messages : List cJSON} {done : List FileOp}

end

end Sa.Compaction
