import Mathlib.Data.List.DropRight
import Sa.Rules

/-!
# Skills

`parse_frontmatter` reads the name and the description of a skill. It goes over the
file in pieces of at most 2047 bytes, each of which it takes for a line.
-/

namespace Sa.Skills
open Sa.CStrings Sa.Rules

/-- What `trim` takes off the end. -/
def isEnd (b : UInt8) : Bool := isBlank b || b == 13 || b == 10

/-- A text between quotes of one kind, without them. -/
def unquote (s : Bytes) : Bytes :=
  if 2 ≤ s.length ∧ (s.head? = some 34 ∧ s.getLast? = some 34 ∨ s.head? = some 39 ∧ s.getLast? = some 39)
  then s.tail.dropLast else s

theorem unquote_nil : unquote [] = [] := rfl

/-- The text without blanks around it. -/
def bare (s : Bytes) : Bytes := (s.dropWhile isBlank).rdropWhile isEnd

theorem unquote_subset (s : Bytes) : unquote s ⊆ s := by
  unfold unquote
  split_ifs
  · exact fun b member => List.mem_of_mem_tail (List.mem_of_mem_dropLast member)
  · exact List.Subset.refl s

theorem bare_subset (s : Bytes) : bare s ⊆ s := fun _ member =>
  (List.dropWhile_suffix isBlank).subset ((List.rdropWhile_prefix isEnd _).subset member)

def trim (s : CString) : CString :=
  ⟨unquote (bare s.val), fun member => s.property (bare_subset _ (unquote_subset _ member))⟩

/-- What `append_fold` makes of the text in `dst`, a buffer of `dst_size` bytes. -/
def appended (dst_size : ℕ) (dst s : Bytes) (fold : Bool) : Bytes :=
  if dst_size ≤ dst.length + 1 then dst
  else if 0 < dst.length then
    if dst_size ≤ dst.length + 2 then dst
    else dst ++ (if fold then 32 else 10) :: s.take (dst_size - (dst.length + 1) - 1)
  else dst ++ s.take (dst_size - dst.length - 1)

theorem appended_nulFree {dst s : Bytes} (free : 0 ∉ dst) (free' : 0 ∉ s) (dst_size : ℕ) (fold : Bool) :
    0 ∉ appended dst_size dst s fold := by
  have taken : ∀ n, 0 ∉ s.take n := fun n member => free' (List.mem_of_mem_take member)
  unfold appended
  split_ifs <;> simp [free, taken]

def append_fold (dst_size : ℕ) (dst s : CString) (fold : Bool) : CString :=
  ⟨appended dst_size dst.val s.val fold, appended_nulFree dst.property s.property dst_size fold⟩

structure skill_t where
  name : CString
  description : CString
  path : CString
  deriving DecidableEq

/-- What a line can set. -/
inductive SkillField where
  | name
  | description
  deriving DecidableEq

def SkillField.size : SkillField → ℕ
  | .name => 128
  | .description => 512

def SkillField.key : SkillField → CString
  | .name => cs "name"
  | .description => cs "description"

def SkillField.get : SkillField → skill_t → CString
  | .name, sk => sk.name
  | .description, sk => sk.description

def SkillField.set : SkillField → CString → skill_t → skill_t
  | .name, value, sk => { sk with name := value }
  | .description, value, sk => { sk with description := value }

@[simp] theorem SkillField.get_set (field : SkillField) (value : CString) (sk : skill_t) : field.get (field.set value sk) = value := by
  cases field <;> rfl

@[simp] theorem SkillField.set_get (field : SkillField) (sk : skill_t) : field.set (field.get sk) sk = sk := by
  cases field <;> rfl

@[simp] theorem SkillField.set_set (field : SkillField) (value value' : CString) (sk : skill_t) :
    field.set value (field.set value' sk) = field.set value sk := by
  cases field <;> rfl

theorem SkillField.get_set_other {field other : SkillField} (different : other ≠ field) (value : CString) (sk : skill_t) :
    other.get (field.set value sk) = other.get sk := by
  cases field <;> cases other <;> first | rfl | exact absurd rfl different

/-- The variables of the loop; `cont` is the field that a block scalar goes on in, and whether it is folded. -/
structure Scan where
  in_fm : Bool
  saw_header : Bool
  cont : Option (SkillField × Bool)
  sk : skill_t
  deriving DecidableEq

/-- The field of a key. -/
def target (key : CString) : Option SkillField :=
  if key = SkillField.name.key then some .name else if key = SkillField.description.key then some .description else none

/-- Whether a value opens a block scalar, and whether it is folded. -/
def blockStyle (val : Bytes) : Option Bool :=
  match val with
  | c :: rest =>
    if rest.head?.all (fun d => d == 45 || d == 43) then
      if c = 62 then some true else if c = 124 then some false else none
    else none
  | [] => none

/-- A line that is not part of a block scalar. -/
def keyLine (st : Scan) (t : CString) : Scan :=
  let st := { st with cont := none }
  match t.val.dropWhile (· != 58) with
  | [] => st
  | _ :: v =>
    match target (trim (cstr (t.val.takeWhile (· != 58)))) with
    | none => st
    | some field =>
      let val := trim (cstr v)
      match blockStyle val.val with
      | some fold => { st with sk := field.set (cs "") st.sk, cont := some (field, fold) }
      | none => { st with sk := field.set (strncpy field.size val) st.sk }

/-- One pass of the loop; `none` where it breaks. -/
def step (st : Scan) (line : CString) : Option Scan :=
  let indented := line.val.head?.any isBlank
  let t := trim line
  if st.in_fm = false then
    if t = cs "---" then some { st with in_fm := true, saw_header := true }
    else if t ≠ cs "" then none
    else some st
  else if t = cs "---" then none
  else
    match st.cont, indented with
    | some (field, fold), true =>
      some (if t ≠ cs "" then { st with sk := field.set (append_fold field.size (field.get st.sk) t fold) st.sk } else st)
    | _, _ => some (keyLine st t)

/-- The loop over what is read. -/
def scan : Scan → List Bytes → Scan
  | st, [] => st
  | st, line :: lines =>
    match step st (cstr line) with
    | some st => scan st lines
    | none => st

/-- Where the loop is after these, if it has not ended. -/
def run : Scan → List Bytes → Option Scan
  | st, [] => some st
  | st, line :: lines =>
    match step st (cstr line) with
    | some st => run st lines
    | none => none

/-- What `fgets` returns, one call after another, with a buffer of `size` bytes; `line` is what is read so far. -/
def fgets (size : ℕ) (line : Bytes) : Bytes → List Bytes
  | [] => if line = [] then [] else [line]
  | c :: s => if c = 10 ∨ line.length + 2 = size then (line ++ [c]) :: fgets size [] s else fgets size (line ++ [c]) s

/-- Before the first line. -/
def start (sk : skill_t) : Scan := ⟨false, false, none, { sk with name := cs "", description := cs "" }⟩

/-- What the caller gets. -/
def Scan.result (st : Scan) : ℤ × skill_t := (if st.saw_header ∧ st.sk.name ≠ cs "" then 0 else -1, st.sk)

/-- `none` is a file that cannot be opened. -/
def parse_frontmatter (file : Option Bytes) (sk : skill_t) : ℤ × skill_t :=
  match file with
  | none => (-1, sk)
  | some file => (scan (start sk) (fgets 2048 [] file)).result

theorem scan_run {st st' : Scan} {lines : List Bytes} (went : run st lines = some st') (more : List Bytes) :
    scan st (lines ++ more) = scan st' more := by
  induction lines generalizing st with
  | nil =>
    cases went
    rfl
  | cons line lines ih =>
    rw [run] at went
    rw [List.cons_append, scan]
    cases found : step st (cstr line) with
    | none =>
      rw [found] at went
      cases went
    | some next =>
      rw [found] at went
      exact ih went

/-- The pieces of a text that ends with a newline, and those of the rest. -/
theorem fgets_append (size : ℕ) (s rest : Bytes) : ∀ line,
    fgets size line (s ++ 10 :: rest) = fgets size line (s ++ [10]) ++ fgets size [] rest := by
  induction s with
  | nil => simp [fgets]
  | cons c s ih =>
    intro line
    rw [List.cons_append, List.cons_append, fgets, fgets, ih, ih]
    split_ifs <;> rfl

end Sa.Skills
