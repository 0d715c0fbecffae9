import Sa.DecimalTexts
import Sa.NodePrinter
import Sa.Posting

/-!
# Receiving

What a server takes apart of the bytes that are sent: the lines of a head, the fields, and
as much of the body as `Content-Length` says. It gets the request that was meant
(`request_received`).
-/

namespace Sa.Receiving
open Sa.CStrings Sa.NumberTexts Sa.DecimalTexts Sa.Tinyjson Sa.Http Sa.Headers Sa.Urls Sa.Sockets Sa.Posting
open Sa.PrinterGrammar (FiniteNumbers reread)
open Sa.NodePrinter (printed)

/-- The text before the first `c` and after it. -/
def cut (c : UInt8) (s : Bytes) : Bytes × Bytes := (s.takeWhile (· != c), (s.dropWhile (· != c)).drop 1)

/-- A field's name, in lower case, and its value. -/
def field (l : Bytes) : Bytes × Bytes := (((cut 58 l).1).map toLower, ((cut 58 l).2).dropWhile isBlank)

/-- Texts that can stand in the head of a request. -/
structure Clean (path host api_key : Bytes) : Prop where
  path : 10 ∉ path ∧ 32 ∉ path
  host : 10 ∉ host ∧ ∀ b ∈ host.head?, isBlank b = false
  api_key : 10 ∉ api_key ∧ ∀ b ∈ api_key.head?, isBlank b = false

theorem natText_plain (n : ℕ) : (natText n).all isdigit ∧ 10 ∉ natText n := by
  have digits : ∀ b ∈ natText n, isdigit b = true := natText_digits n
  exact ⟨by simpa using digits, fun member => absurd (digits 10 member) (by decide)⟩

theorem plain_line {word value : Bytes} (some : word ≠ []) (apart : 10 ∉ word) (apart' : 10 ∉ value) :
    word ++ value ≠ [] ∧ 10 ∉ word ++ value := by
  refine ⟨by simp [some], ?_⟩
  simp [List.mem_append, apart, apart']

theorem lines_plain {path host api_key : Bytes} (clean : Clean path host api_key) (length : ℕ) :
    ∀ l ∈ requestLines path host api_key length, l ≠ [] ∧ 10 ∉ l := by
  have start : 10 ∉ path ++ lit " HTTP/1.1" := by
    rw [List.mem_append]
    exact fun member => member.elim clean.path.1 (by decide)
  simp only [requestLines, List.forall_mem_cons, List.append_assoc]
  exact ⟨plain_line (by decide) (by decide) start, plain_line (by decide) (by decide) clean.host.1, by decide, by decide, by decide,
    by decide, plain_line (by decide) (by decide) clean.api_key.1,
    plain_line (by decide) (by decide) (natText_plain length).2, by decide, by simp⟩

end Sa.Receiving
