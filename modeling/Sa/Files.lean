import Mathlib.Data.List.TakeDrop
import Sa.CStrings

/-!
# Replacing a file

A file that is replaced through a temporary file beside it, and the calls that do
it. Every call may fail: a write that fails still stores some of its bytes, and a
close that fails keeps some of what was written.
-/

namespace Sa.Files
open Sa.CStrings

/-- A file and the temporary file beside it, where they exist. -/
structure Disk where
  file : Option Bytes
  tmp : Option Bytes
  deriving DecidableEq

/-- The calls that fail; a write or a close that does keeps that many bytes. -/
structure Failures where
  mkstemp : Bool
  fdopen : Bool
  writes : ℕ → Option ℕ
  fclose : Option ℕ
  rename : Bool

/-- What is kept of some bytes. -/
def stored (short : Option ℕ) (bytes : Bytes) : Bytes :=
  match short with
  | none => bytes
  | some k => bytes.take k

def Disk.mkstemp (disk : Disk) : Disk := { disk with tmp := some [] }
def Disk.write (short : Option ℕ) (bytes : Bytes) (disk : Disk) : Disk :=
  { disk with tmp := disk.tmp.map (· ++ stored short bytes) }
def Disk.fclose (short : Option ℕ) (disk : Disk) : Disk := { disk with tmp := disk.tmp.map (stored short) }
def Disk.unlink (disk : Disk) : Disk := { disk with tmp := none }
def Disk.rename (disk : Disk) : Disk := ⟨disk.tmp, none⟩

/-- One write after the other; the `i`th fails as `short` says. -/
def Disk.writes (short : ℕ → Option ℕ) : List Bytes → Disk → Disk
  | [], disk => disk
  | bytes :: more, disk => (disk.write (short 0) bytes).writes (fun i => short (i + 1)) more

/-- All of the bytes are kept, also where an error is reported. -/
def Keeps (short : Option ℕ) (bytes : Bytes) : Prop := ∀ k ∈ short, bytes.length ≤ k

theorem length_stored_le (short : Option ℕ) (bytes : Bytes) : (stored short bytes).length ≤ bytes.length := by
  cases short with
  | none => exact Nat.le_refl _
  | some k => exact List.length_take_le' k bytes

theorem stored_eq_iff {short : Option ℕ} {bytes : Bytes} : stored short bytes = bytes ↔ Keeps short bytes := by
  cases short with
  | none => simp [stored, Keeps]
  | some k => simp [stored, Keeps]

theorem length_stored_eq_iff (short : Option ℕ) (bytes : Bytes) :
    (stored short bytes).length = bytes.length ↔ Keeps short bytes := by
  cases short with
  | none => simp [stored, Keeps]
  | some k =>
    have size : (stored (some k) bytes).length = min k bytes.length := List.length_take
    have keeps : Keeps (some k) bytes ↔ bytes.length ≤ k := by simp [Keeps]
    rw [size, keeps]
    omega

/-- What the writes leave behind what was there. -/
def contents (short : ℕ → Option ℕ) : List Bytes → Bytes
  | [] => []
  | bytes :: more => stored (short 0) bytes ++ contents (fun i => short (i + 1)) more

theorem writes_eq (short : ℕ → Option ℕ) (parts : List Bytes) (disk : Disk) :
    disk.writes short parts = { disk with tmp := disk.tmp.map (· ++ contents short parts) } := by
  induction parts generalizing short disk with
  | nil => simp [Disk.writes, contents]
  | cons bytes more ih =>
    rw [Disk.writes, ih, Disk.write, contents]
    cases disk.tmp <;> simp

theorem length_contents_le (short : ℕ → Option ℕ) (parts : List Bytes) :
    (contents short parts).length ≤ parts.flatten.length := by
  induction parts generalizing short with
  | nil => exact Nat.le_refl _
  | cons bytes more ih =>
    have first := length_stored_le (short 0) bytes
    have rest := ih fun i => short (i + 1)
    simp only [contents, List.flatten_cons, List.length_append]
    omega

/-- The writes leave everything just when each of them keeps all of its bytes. -/
theorem contents_eq_iff {short : ℕ → Option ℕ} {parts : List Bytes} :
    contents short parts = parts.flatten ↔ ∀ i bytes, parts[i]? = some bytes → Keeps (short i) bytes := by
  induction parts generalizing short with
  | nil => simp [contents]
  | cons bytes more ih =>
    rw [contents, List.flatten_cons]
    constructor
    · intro same
      have first := length_stored_le (short 0) bytes
      have rest := length_contents_le (fun i => short (i + 1)) more
      have sizes := congrArg List.length same
      simp only [List.length_append] at sizes
      obtain ⟨head, tail⟩ := List.append_inj same (by omega)
      intro i part found
      cases i with
      | zero =>
        obtain rfl : bytes = part := by simpa using found
        exact stored_eq_iff.mp head
      | succ i => exact ih.mp tail i part (by simpa using found)
    · intro all
      rw [stored_eq_iff.mpr (all 0 bytes rfl), ih.mpr fun i part found => all (i + 1) part (by simpa using found)]

/-- What the writes of a file and its close lose. -/
structure Losses where
  writes : ℕ → Option ℕ
  fclose : Option ℕ

/-- What is left of the parts that are written. -/
def Losses.leave (lost : Losses) (parts : List Bytes) : Bytes := stored lost.fclose (contents lost.writes parts)

/-- No bytes are lost by the writes or by the close. -/
def Losses.Nothing (lost : Losses) (parts : List Bytes) : Prop :=
  (∀ i bytes, parts[i]? = some bytes → Keeps (lost.writes i) bytes) ∧ Keeps lost.fclose parts.flatten

theorem leave_eq_iff {lost : Losses} {parts : List Bytes} : lost.leave parts = parts.flatten ↔ lost.Nothing parts := by
  rw [Losses.leave, Losses.Nothing, ← contents_eq_iff, ← stored_eq_iff]
  constructor
  · intro same
    -- What is closed is no longer than what is written.
    have written := length_contents_le lost.writes parts
    have whole : stored lost.fclose (contents lost.writes parts) = contents lost.writes parts := by
      cases short : lost.fclose with
      | none => rfl
      | some k =>
        rw [short] at same
        refine List.take_of_length_le ?_
        have size := congrArg List.length same
        simp only [stored, List.length_take] at size
        omega
    rw [whole] at same
    rw [same] at whole
    exact ⟨same, whole⟩
  · rintro ⟨written, closed⟩
    rw [written, closed]

end Sa.Files
