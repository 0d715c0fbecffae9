import Sa.Files
import Sa.NumberTexts
import Sa.Occurrences

/-!
# Editing a file

`edit_file_tool` and `atomic_write` with the results of all their calls. An edit
takes for unique what it matches once, going on behind each match: it refuses
matches that do not overlap, and edits the first of several that do
(`edit_replaces_iff`). It writes what it read, however much that was
(`edit_undamaged_iff`).
-/

namespace Sa.Editing
open Sa.CStrings Sa.NumberTexts Sa.Files Sa.Occurrences

/-- `sizeof tmp`. -/
abbrev TMP_SIZE : Nat := 1024
/-- The size of a file that is edited. -/
abbrev EDIT_CAP : Nat := 4 * 1024 * 1024

/-- The calls of an edit. A read that is short, also after a seek that fails, delivers
    `fread` bytes; `template` is what `mkstemp` makes of the six `X`. -/
structure Calls extends Failures where
  fopen : Bool
  ftell : Bool
  fread : Option ℕ
  strerror : CString
  template : CString

/-- `snprintf` into `size` bytes. -/
def snprintf (size : Nat) (text : Bytes) : Bytes := text.take (size - 1)

/-- `atomic_write` with its result. -/
def atomic_write (calls : Calls) (path : CString) (content : Bytes) (disk : Disk) : Disk × Bytes :=
  if TMP_SIZE ≤ (path.val ++ lit ".tmp.XXXXXX").length then (disk, lit "error: path too long")
  else if calls.mkstemp then
    (disk, snprintf 512
      (lit "error: mkstemp " ++ path.val ++ lit ".tmp." ++ calls.template.val ++ lit ": " ++ calls.strerror.val))
  else
    let disk := disk.mkstemp
    if calls.fdopen then (disk.unlink, lit "error: fdopen failed")
    else
      let wrote := (stored (calls.writes 0) content).length
      let disk := (disk.write (calls.writes 0) content).fclose calls.fclose
      if wrote ≠ content.length ∨ calls.fclose ≠ none then (disk.unlink, lit "error: write failed")
      else if calls.rename then (disk.unlink, snprintf 512 (lit "error: rename: " ++ calls.strerror.val))
      else (disk.rename, snprintf 128 (lit "wrote " ++ natText content.length ++ lit " bytes to " ++ path.val))

/-- The loop over the matches; `first` and `p` are offsets in `body`. -/
def matchLoop (body old_str : CString) : Nat → Nat → Nat → Nat → Nat × Nat
  | 0, _, first, count => (first, count)
  | fuel + 1, p, first, count =>
    match firstFrom old_str.val body.val p with
    | none => (first, count)
    | some p =>
      matchLoop body old_str fuel (p + if old_str.val.length ≠ 0 then old_str.val.length else 1)
        (if count = 0 then p else first) (count + 1)

/-- `edit_file_tool` with its result. -/
def edit_file_tool (calls : Calls) (path old_str new_str : CString) (disk : Disk) : Disk × Bytes :=
  if old_str.val = [] then atomic_write calls path new_str.val disk
  else
    match if calls.fopen then none else disk.file with
    | none => (disk, snprintf 512 (lit "error: open " ++ path.val ++ lit ": " ++ calls.strerror.val))
    | some file =>
      if calls.ftell ∨ EDIT_CAP < file.length then (disk, lit "error: file too large for edit (>4MB)")
      else
        let body := stored calls.fread file
        let (first, count) := matchLoop (cstr body) old_str (body.length + 2) 0 0 0
        if count = 0 then (disk, lit "error: old_string not found")
        else if 1 < count then
          (disk, snprintf 128 (lit "error: old_string matched " ++ natText count ++ lit " times; make it unique"))
        else
          atomic_write calls path (body.take first ++ new_str.val ++ body.drop (first + old_str.val.length)) disk

/-- An error, with the file as it was and no temporary file. -/
def Refused (file : Option Bytes) (r : Disk × Bytes) : Prop := r.1 = ⟨file, none⟩ ∧ lit "error:" <+: r.2

/-- The file holds the content. -/
def Wrote (content : Bytes) (r : Disk × Bytes) : Prop := r.1 = ⟨some content, none⟩ ∧ lit "wrote" <+: r.2

theorem prefix_snprintf {head text : Bytes} {size : ℕ} (starts : head <+: text) (fits : head.length < size) :
    head <+: snprintf size text :=
  List.prefix_take_iff.mpr ⟨starts, by omega⟩

/-- An error that is printed starts with what its text starts with. -/
theorem error_snprintf {text : Bytes} (starts : lit "error:" <+: text) (rest : Bytes) {size : ℕ} (room : 6 < size) :
    lit "error:" <+: snprintf size (text ++ rest) :=
  prefix_snprintf (starts.trans (List.prefix_append _ _)) room

theorem not_refused {content : Bytes} {r : Disk × Bytes} (wrote : Wrote content r) (file : Option Bytes) : ¬Refused file r := by
  rintro ⟨-, error⟩
  have same : (lit "error:").take 5 = lit "wrote" := by
    have first := List.prefix_iff_eq_take.mp ((List.take_prefix 5 _).trans error)
    have second := List.prefix_iff_eq_take.mp wrote.2
    exact first.trans second.symm
  revert same
  decide

/-- The temporary name fits its buffer. -/
def Fits (path : CString) : Prop := path.val.length ≤ 1012

instance (path : CString) : Decidable (Fits path) := inferInstanceAs (Decidable (path.val.length ≤ 1012))

/-- A write of `size` bytes goes through. -/
structure Writes (calls : Calls) (path : CString) (size : ℕ) : Prop where
  path : Fits path
  mkstemp : calls.mkstemp = false
  fdopen : calls.fdopen = false
  write : ∀ k ∈ calls.writes 0, size ≤ k
  fclose : calls.fclose = none
  rename : calls.rename = false

theorem fits_iff (path : CString) : ¬TMP_SIZE ≤ (path.val ++ lit ".tmp.XXXXXX").length ↔ Fits path := by
  have suffix : (lit ".tmp.XXXXXX").length = 11 := by decide
  rw [Fits, List.length_append, suffix]
  simp only [TMP_SIZE]
  omega

theorem atomic_write_writes {calls : Calls} {path : CString} {content : Bytes} (writes : Writes calls path content.length)
    (file : Option Bytes) : Wrote content (atomic_write calls path content ⟨file, none⟩) := by
  have whole : stored (calls.writes 0) content = content := stored_eq_iff.mpr writes.write
  rw [atomic_write, if_neg ((fits_iff path).mpr writes.path)]
  simp only [writes.mkstemp, writes.fdopen, writes.fclose, writes.rename, Bool.false_eq_true, if_false, whole, ne_eq,
    not_true_eq_false, or_self]
  constructor
  · simp only [Disk.mkstemp, Disk.write, whole, Disk.fclose, Disk.rename]
    rfl
  · refine prefix_snprintf ?_ (by decide)
    simp only [List.append_assoc]
    exact (by decide : lit "wrote" <+: lit "wrote ").trans (List.prefix_append _ _)

theorem atomic_write_refuses {calls : Calls} {path : CString} {content : Bytes} (fails : ¬Writes calls path content.length)
    (file : Option Bytes) : Refused file (atomic_write calls path content ⟨file, none⟩) := by
  dsimp only [atomic_write]
  by_cases long : TMP_SIZE ≤ (path.val ++ lit ".tmp.XXXXXX").length
  · rw [if_pos long]
    exact ⟨rfl, (by decide : lit "error:" <+: lit "error: path too long")⟩
  rw [if_neg long]
  by_cases temporary : calls.mkstemp = true
  · rw [if_pos temporary]
    simp only [List.append_assoc]
    exact ⟨rfl, error_snprintf (by decide) _ (by omega)⟩
  rw [if_neg temporary]
  by_cases opened : calls.fdopen = true
  · rw [if_pos opened]
    exact ⟨rfl, (by decide : lit "error:" <+: lit "error: fdopen failed")⟩
  rw [if_neg opened]
  by_cases lost : (stored (calls.writes 0) content).length ≠ content.length ∨ calls.fclose ≠ none
  · rw [if_pos lost]
    exact ⟨rfl, (by decide : lit "error:" <+: lit "error: write failed")⟩
  rw [if_neg lost]
  by_cases renamed : calls.rename = true
  · rw [if_pos renamed]
    exact ⟨rfl, error_snprintf (by decide) _ (by omega)⟩
  simp only [not_or, ne_eq, not_not] at lost
  simp only [Bool.not_eq_true] at temporary opened renamed
  exact absurd ⟨(fits_iff path).mp long, temporary, opened, (length_stored_eq_iff _ _).mp lost.1, lost.2, renamed⟩ fails

theorem matchLoop_scan (body : CString) {old_str : CString} (some : old_str.val ≠ []) (fuel : ℕ) : ∀ p first count,
    matchLoop body old_str fuel p first count =
      (if count = 0 then (scan old_str.val body.val fuel p).headD first else first,
        count + (scan old_str.val body.val fuel p).length) := by
  have positive : old_str.val.length ≠ 0 := by simpa using some
  induction fuel with
  | zero => intro p first count; simp [matchLoop, scan]
  | succ fuel ih =>
    intro p first count
    rw [matchLoop, scan]
    cases firstFrom old_str.val body.val p with
    | none => simp
    | some q =>
      simp only [if_pos positive, ih]
      simp
      omega

/-- The search is over when the loop ends. -/
theorem matchLoop_fuel (body : CString) {old_str : CString} (some : old_str.val ≠ []) {fuel : ℕ}
    (enough : body.val.length < fuel) (more : ℕ) :
    matchLoop body old_str (fuel + more) 0 0 0 = matchLoop body old_str fuel 0 0 0 := by
  rw [matchLoop_scan body some, matchLoop_scan body some, scan_fuel some fuel 0 more enough]

structure Reads (calls : Calls) (file : Option Bytes) (whole : Bytes) : Prop where
  file : file = some whole
  fopen : calls.fopen = false
  ftell : calls.ftell = false
  size : whole.length ≤ EDIT_CAP

/-- What was read of the file matches once, and writing the result goes through. -/
structure Edits (calls : Calls) (path old_str new_str : CString) (file : Option Bytes) (whole : Bytes) : Prop where
  reads : Reads calls file whole
  one : OneMatch old_str.val (cstr (stored calls.fread whole)).val
  writes : Writes calls path ((stored calls.fread whole).length - old_str.val.length + new_str.val.length)

/-- An edit of a file that is read. -/
theorem edit_read {calls : Calls} {file : Option Bytes} {whole : Bytes} (reads : Reads calls file whole) (path : CString)
    {old_str : CString} (some : old_str.val ≠ []) (new_str : CString) :
    edit_file_tool calls path old_str new_str ⟨file, none⟩ =
      let body := stored calls.fread whole
      let found := scan old_str.val (cstr body).val (body.length + 2) 0
      if found.length = 0 then (⟨file, none⟩, lit "error: old_string not found")
      else if 1 < found.length then
        (⟨file, none⟩, snprintf 128 (lit "error: old_string matched " ++ natText found.length ++ lit " times; make it unique"))
      else atomic_write calls path (splice old_str.val new_str.val body (found.headD 0)) ⟨file, none⟩ := by
  have within : ¬(calls.ftell = true ∨ EDIT_CAP < whole.length) := by
    rintro (failed | large)
    · rw [reads.ftell] at failed
      cases failed
    · exact absurd reads.size (Nat.not_le.mpr large)
  dsimp only [edit_file_tool, splice]
  simp only [if_neg some, reads.fopen, reads.file, Bool.false_eq_true, if_false, if_neg within, matchLoop_scan _ some, if_true,
    Nat.zero_add]

/-- What was read matches once: the match is replaced. -/
theorem edit_one {calls : Calls} {file : Option Bytes} {whole : Bytes} (reads : Reads calls file whole) (path : CString)
    {old_str : CString} (some : old_str.val ≠ []) (new_str : CString)
    (one : OneMatch old_str.val (cstr (stored calls.fread whole)).val) :
    ∃ i, Occurs old_str.val (stored calls.fread whole) i ∧
      edit_file_tool calls path old_str new_str ⟨file, none⟩ =
        atomic_write calls path (splice old_str.val new_str.val (stored calls.fread whole) i) ⟨file, none⟩ := by
  have matched := (scan_single_iff some (stored calls.fread whole).length).mpr one
  obtain ⟨i, found⟩ := List.length_eq_one_iff.mp matched
  have occurs : Occurs old_str.val (cstr (stored calls.fread whole)).val i := occurs_of_mem_scan (found ▸ List.mem_singleton_self i)
  refine ⟨i, occurs_prefix (List.takeWhile_prefix _) occurs, ?_⟩
  rw [edit_read reads path some new_str]
  dsimp only
  rw [found]
  rfl

/-- What was read matches nowhere or apart: nothing is written. -/
theorem edit_not_one {calls : Calls} {file : Option Bytes} {whole : Bytes} (reads : Reads calls file whole) (path : CString)
    {old_str : CString} (some : old_str.val ≠ []) (new_str : CString)
    (other : ¬OneMatch old_str.val (cstr (stored calls.fread whole)).val) :
    Refused file (edit_file_tool calls path old_str new_str ⟨file, none⟩) := by
  have unmatched := mt (scan_single_iff some (stored calls.fread whole).length).mp other
  rw [edit_read reads path some new_str]
  dsimp only
  generalize scan old_str.val (cstr (stored calls.fread whole)).val ((stored calls.fread whole).length + 2) 0 = found at *
  by_cases nowhere : found.length = 0
  · rw [if_pos nowhere]
    exact ⟨rfl, (by decide : lit "error:" <+: lit "error: old_string not found")⟩
  · rw [if_neg nowhere, if_pos (by omega)]
    rw [List.append_assoc]
    exact ⟨rfl, error_snprintf (by decide) _ (by omega)⟩

theorem edit_unread {calls : Calls} {file : Option Bytes} (unread : ∀ whole, ¬Reads calls file whole) (path : CString)
    {old_str : CString} (some : old_str.val ≠ []) (new_str : CString) :
    Refused file (edit_file_tool calls path old_str new_str ⟨file, none⟩) := by
  have opening : lit "error:" <+: snprintf 512 (lit "error: open " ++ path.val ++ lit ": " ++ calls.strerror.val) := by
    simp only [List.append_assoc]
    exact error_snprintf (by decide) _ (by omega)
  rw [edit_file_tool, if_neg some]
  by_cases opened : calls.fopen = true
  · rw [if_pos opened]
    exact ⟨rfl, opening⟩
  rw [if_neg opened]
  cases there : file with
  | none => exact ⟨rfl, opening⟩
  | some whole =>
    have large : calls.ftell = true ∨ EDIT_CAP < whole.length := by
      by_contra within
      simp only [not_or, Bool.not_eq_true, Nat.not_lt] at within
      exact unread whole ⟨there, by simpa using opened, within.1, within.2⟩
    dsimp only
    rw [if_pos large]
    exact ⟨rfl, (by decide : lit "error:" <+: lit "error: file too large for edit (>4MB)")⟩

theorem edit_edits {calls : Calls} {path old_str new_str : CString} {file : Option Bytes} {whole : Bytes}
    (some : old_str.val ≠ []) (edits : Edits calls path old_str new_str file whole) :
    ∃ i, Occurs old_str.val (stored calls.fread whole) i ∧
      Wrote (splice old_str.val new_str.val (stored calls.fread whole) i)
        (edit_file_tool calls path old_str new_str ⟨file, none⟩) := by
  obtain ⟨i, occurs, edited⟩ := edit_one edits.reads path some new_str edits.one
  refine ⟨i, occurs, ?_⟩
  have size := length_splice some occurs new_str.val
  have bound := occurs_le some occurs
  have writes := edits.writes
  rw [edited]
  refine atomic_write_writes ?_ file
  rwa [show (splice old_str.val new_str.val (stored calls.fread whole) i).length =
    (stored calls.fread whole).length - old_str.val.length + new_str.val.length by omega]

theorem edit_refuses {calls : Calls} {path old_str new_str : CString} {file : Option Bytes} (some : old_str.val ≠ [])
    (stops : ∀ whole, ¬Edits calls path old_str new_str file whole) :
    Refused file (edit_file_tool calls path old_str new_str ⟨file, none⟩) := by
  by_cases unread : ∀ whole, ¬Reads calls file whole
  · exact edit_unread unread path some new_str
  simp only [not_forall, not_not] at unread
  obtain ⟨whole, reads⟩ := unread
  by_cases one : OneMatch old_str.val (cstr (stored calls.fread whole)).val
  · obtain ⟨i, occurs, edited⟩ := edit_one reads path some new_str one
    have size := length_splice some occurs new_str.val
    have bound := occurs_le some occurs
    rw [edited]
    refine atomic_write_refuses (fun writes => stops whole ⟨reads, one, ?_⟩) file
    rwa [show (stored calls.fread whole).length - old_str.val.length + new_str.val.length =
      (splice old_str.val new_str.val (stored calls.fread whole) i).length by omega]
  · exact edit_not_one reads path some new_str one

/-- No call fails. -/
structure Works (calls : Calls) : Prop where
  fopen : calls.fopen = false
  ftell : calls.ftell = false
  fread : calls.fread = none
  mkstemp : calls.mkstemp = false
  fdopen : calls.fdopen = false
  write : calls.writes 0 = none
  fclose : calls.fclose = none
  rename : calls.rename = false

/-- A text that is at one position is replaced there, and every other edit is refused. -/
def ReplacesUnique (calls : Calls) (path body old_str new_str : CString) : Prop :=
  let r := edit_file_tool calls path old_str new_str ⟨some body.val, none⟩
  (OnePosition old_str.val body.val → ∀ before after, body.val = before ++ old_str.val ++ after →
    Wrote (before ++ new_str.val ++ after) r) ∧
  (¬OnePosition old_str.val body.val → Refused (some body.val) r)

theorem edits_iff {calls : Calls} (works : Works calls) {body : CString} (small : body.val.length ≤ EDIT_CAP)
    (path old_str new_str : CString) (whole : Bytes) : Edits calls path old_str new_str (some body.val) whole ↔
      whole = body.val ∧ OneMatch old_str.val body.val ∧ Fits path := by
  have read : stored calls.fread whole = whole := by rw [works.fread]; rfl
  constructor
  · rintro ⟨reads, one, writes⟩
    obtain rfl : body.val = whole := Option.some.inj reads.file
    rw [read, cstr_val] at one
    exact ⟨rfl, one, writes.path⟩
  · rintro ⟨rfl, one, fits⟩
    refine ⟨⟨rfl, works.fopen, works.ftell, small⟩, by rwa [read, cstr_val], fits, works.mkstemp, works.fdopen, ?_, works.fclose,
      works.rename⟩
    simp [works.write]

theorem replaces_of_wrote {calls : Calls} {path body old_str new_str : CString} {i : ℕ} (occurs : Occurs old_str.val body.val i)
    (wrote : Wrote (splice old_str.val new_str.val body.val i)
      (edit_file_tool calls path old_str new_str ⟨some body.val, none⟩)) :
    ReplacesUnique calls path body old_str new_str ↔ OnePosition old_str.val body.val := by
  constructor
  · rintro ⟨-, refuses⟩
    by_contra several
    exact not_refused wrote _ (refuses several)
  · intro position
    refine ⟨fun _ before after split => ?_, fun several => absurd position several⟩
    have here : Occurs old_str.val body.val before.length := split ▸ occurs_append before old_str.val after
    obtain rfl : before.length = i := position.unique here occurs
    rw [← splice_append before old_str.val after new_str.val, ← split]
    exact wrote

theorem replaces_of_refused {calls : Calls} {path body old_str new_str : CString}
    (refused : Refused (some body.val) (edit_file_tool calls path old_str new_str ⟨some body.val, none⟩)) :
    ReplacesUnique calls path body old_str new_str ↔ ¬OnePosition old_str.val body.val := by
  constructor
  · rintro ⟨replaces, -⟩ position
    obtain ⟨i, occurs, -⟩ := id position
    exact not_refused (replaces position _ _ (occurs_split occurs)) _ refused
  · intro several
    exact ⟨fun position => absurd position several, fun _ => refused⟩

/-- Without failures an edit replaces a text just when it is at one position, unless
    the text is at several that all overlap; with a path that does not fit, every
    edit is refused. -/
theorem edit_replaces_iff {calls : Calls} (works : Works calls) (path : CString) {body : CString}
    (small : body.val.length ≤ EDIT_CAP) {old_str : CString} (some : old_str.val ≠ []) (new_str : CString) :
    ReplacesUnique calls path body old_str new_str ↔
      if Fits path then OneMatch old_str.val body.val → OnePosition old_str.val body.val
      else ¬OnePosition old_str.val body.val := by
  have edits := edits_iff works small path old_str new_str
  have match_of_position : OnePosition old_str.val body.val → OneMatch old_str.val body.val :=
    fun position => ((onePosition_iff some).mp position).1
  by_cases fits : Fits path
  · rw [if_pos fits]
    by_cases one : OneMatch old_str.val body.val
    · obtain ⟨i, occurs, wrote⟩ := edit_edits some ((edits body.val).mpr ⟨rfl, one, fits⟩)
      have read : stored calls.fread body.val = body.val := by rw [works.fread]; rfl
      rw [read] at occurs wrote
      rw [replaces_of_wrote occurs wrote]
      exact ⟨fun position _ => position, fun position => position one⟩
    · have refused := edit_refuses some fun whole edit => one ((edits whole).mp edit).2.1
      rw [replaces_of_refused refused]
      exact iff_of_true (mt match_of_position one) fun matched => absurd matched one
  · rw [if_neg fits]
    exact replaces_of_refused (edit_refuses some fun whole edit => fits ((edits whole).mp edit).2.2)

/-- A text within a line. -/
theorem edit_replaces_inside :
    ReplacesUnique ⟨⟨false, false, fun _ => none, none, false⟩, false, false, none, cs "", cs "XXXXXX"⟩
      (cs "f") (cs "an old one") (cs "old") (cs "new") := by
  refine (edit_replaces_iff ⟨rfl, rfl, rfl, rfl, rfl, rfl, rfl, rfl⟩ (cs "f") (by decide) (by decide) (cs "new")).mpr ?_
  rw [if_pos (by decide)]
  have first : ∀ i < 8, Occurs (cs "old").val (cs "an old one").val i → i = 3 := by decide +kernel
  refine fun _ => ⟨3, by decide +kernel, fun i occurs => first i ?_ occurs⟩
  have bound : i + 3 ≤ 10 := occurs_le (by decide) occurs
  omega

/-- Two positions that overlap are taken for one. -/
theorem edit_overlap : ¬ReplacesUnique ⟨⟨false, false, fun _ => none, none, false⟩, false, false, none, cs "", cs "XXXXXX"⟩
    (cs "f") (cs "aaa") (cs "aa") (cs "b") := by
  have several : ¬OnePosition (cs "aa").val (cs "aaa").val := by
    intro position
    have same : (0 : ℕ) = 1 := position.unique (by decide) (by decide)
    cases same
  rintro ⟨-, refuses⟩
  have kept := (refuses several).1
  revert kept
  decide +kernel

/-- What the edit is for: all of the file with its one match replaced. -/
def Intended (old_str new_str : CString) (file : Option Bytes) (content : Bytes) : Prop :=
  (old_str.val = [] ∧ content = new_str.val) ∨
  (old_str.val ≠ [] ∧ ∃ before after, file = some (before ++ old_str.val ++ after) ∧
    OnePosition old_str.val (before ++ old_str.val ++ after) ∧ content = before ++ new_str.val ++ after)

def Undamaged (old_str new_str : CString) (file : Option Bytes) (r : Disk × Bytes) : Prop :=
  Refused file r ∨ ∃ content, Intended old_str new_str file content ∧ Wrote content r

/-- The read is not of the whole file, or the file has another match. -/
def Mistaken (calls : Calls) (old_str : CString) (whole : Bytes) : Prop :=
  ¬Keeps calls.fread whole ∨ ¬OnePosition old_str.val whole

/-- Whatever fails, an edit leaves the file as it was or writes what is intended,
    unless what it read matches once and is written though the file has more. -/
theorem edit_undamaged_iff (calls : Calls) (path old_str new_str : CString) (file : Option Bytes) :
    Undamaged old_str new_str file (edit_file_tool calls path old_str new_str ⟨file, none⟩) ↔
      ¬(old_str.val ≠ [] ∧ ∃ whole, Edits calls path old_str new_str file whole ∧ Mistaken calls old_str whole) := by
  by_cases empty : old_str.val = []
  · refine iff_of_true ?_ fun damage => damage.1 empty
    rw [edit_file_tool, if_pos empty]
    by_cases writes : Writes calls path new_str.val.length
    · exact .inr ⟨new_str.val, .inl ⟨empty, rfl⟩, atomic_write_writes writes file⟩
    · exact .inl (atomic_write_refuses writes file)
  by_cases stops : ∀ whole, ¬Edits calls path old_str new_str file whole
  · exact iff_of_true (.inl (edit_refuses empty stops)) fun damage => stops _ damage.2.choose_spec.1
  simp only [not_forall, not_not] at stops
  obtain ⟨whole, edits⟩ := stops
  obtain ⟨i, occurs, wrote⟩ := edit_edits empty edits
  constructor
  · rintro (refused | ⟨content, intended, written⟩)
    · exact absurd refused (not_refused wrote file)
    rintro ⟨-, whole', edits', mistaken⟩
    obtain rfl : whole = whole' := Option.some.inj (edits.reads.file.symm.trans edits'.reads.file)
    rcases intended with ⟨none, -⟩ | ⟨-, before, after, file', position, rfl⟩
    · exact empty none
    obtain rfl : before ++ old_str.val ++ after = whole := Option.some.inj (file'.symm.trans edits.reads.file)
    rcases mistaken with short | several
    · -- A text that is shorter stays shorter with its match replaced.
      have same : before ++ new_str.val ++ after = splice old_str.val new_str.val _ i :=
        Option.some.inj (congrArg Disk.file (written.1.symm.trans wrote.1))
      have size := length_splice empty occurs new_str.val
      rw [← same] at size
      refine short ((length_stored_eq_iff _ _).mp ?_)
      simp only [List.length_append] at size ⊢
      omega
    · exact several position
  · intro sound
    have right : ¬Mistaken calls old_str whole := fun mistaken => sound ⟨empty, whole, edits, mistaken⟩
    simp only [Mistaken, not_or, not_not] at right
    have read : stored calls.fread whole = whole := stored_eq_iff.mpr right.1
    rw [read] at occurs wrote
    have split := occurs_split occurs
    refine .inr ⟨_, .inr ⟨empty, whole.take i, whole.drop (i + old_str.val.length), ?_, ?_, rfl⟩, wrote⟩
    · rw [← split]
      exact edits.reads.file
    · rw [← split]
      exact right.2

/-- A read of four bytes of six. -/
theorem edit_truncates : ¬Undamaged (cs "abc") (cs "x") (some (lit "abcdef"))
    (edit_file_tool ⟨⟨false, false, fun _ => none, none, false⟩, false, false, some 4, cs "", cs "XXXXXX"⟩
      (cs "f") (cs "abc") (cs "x") ⟨some (lit "abcdef"), none⟩) := by
  have wrote : (edit_file_tool ⟨⟨false, false, fun _ => none, none, false⟩, false, false, some 4, cs "", cs "XXXXXX"⟩
      (cs "f") (cs "abc") (cs "x") ⟨some (lit "abcdef"), none⟩).1 = ⟨some (lit "xd"), none⟩ := by decide +kernel
  rintro (⟨kept, -⟩ | ⟨content, intended, written, -⟩)
  · rw [wrote] at kept
    revert kept
    decide
  · rw [wrote] at written
    obtain rfl : lit "xd" = content := Option.some.inj (congrArg Disk.file written)
    rcases intended with ⟨none, -⟩ | ⟨-, before, after, whole, -, content⟩
    · revert none
      decide
    · have first := congrArg List.length (Option.some.inj whole)
      have second := congrArg List.length content
      simp only [List.length_append] at first second
      have sizes : (lit "abcdef").length = 6 ∧ (lit "xd").length = 2 ∧ (cs "abc").val.length = 3 ∧ (cs "x").val.length = 1 := by
        decide
      omega

end Sa.Editing
