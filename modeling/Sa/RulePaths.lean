import Mathlib.Data.List.DropRight
import Sa.Rules
import Sa.SessionFile

/-!
# The paths of a rule

What `parse_rule` makes of front matter that gives `paths` a list. It knows the block
form only, and only with indented items and no empty line before one; so a flow list
leaves the rule unconditional (`rule_paths_read`).
-/

namespace Sa.RulePaths
open Sa.CStrings Sa.Session Sa.SessionFile Sa.Rules

inductive Style where
  | plain
  | single
  | double
  deriving DecidableEq

/-- A value as the front matter has it. -/
def Style.text : Style → Bytes → Bytes
  | .plain, value => value
  | .single, value => 39 :: ((value.flatMap fun b => if b = 39 then [39, 39] else [b]) ++ [39])
  | .double, value => 34 :: ((value.flatMap fun b => if b = 34 ∨ b = 92 then [92, b] else [b]) ++ [34])

/-- Bytes with a meaning of their own where a plain scalar could begin; a glob's `*` is not counted. -/
def indicators : Bytes := lit "\"'#[]\x7b\x7d,|>%@&!:"

/-- The values that can be written without quotes. -/
structure PlainScalar (value : Bytes) : Prop where
  first : ∃ b ∈ value.head?, isBlank b = false ∧ b ∉ indicators
  last : ∀ b ∈ value.getLast?, isBlank b = false
  mapping : ¬[58, 32] <:+: value
  comment : ¬[32, 35] <:+: value ∧ ¬[9, 35] <:+: value

/-- One value of one line, quoted or not. -/
structure Scalar where
  style : Style
  value : Bytes
  line : ∀ b ∈ value, b ≠ 0 ∧ b ≠ 10 ∧ b ≠ 13
  plain : style = .plain → PlainScalar value

def Scalar.text (s : Scalar) : Bytes := s.style.text s.value

/-- A scalar between quotes: each byte of its value, some with an escape. -/
theorem Scalar.text_quoted (s : Scalar) (quoted : s.style ≠ .plain) : ∃ (q : UInt8) (escape : UInt8 → Bytes),
    s.text = [q] ++ s.value.flatMap escape ++ [q] ∧ (q = 39 ∨ q = 34) ∧ (∀ b, b ∈ escape b) ∧
      (∀ b, ∀ c ∈ escape b, c = b ∨ c = 39 ∨ c = 92) ∧ ∀ b, b ≠ 34 ∧ b ≠ 39 ∧ b ≠ 92 → escape b = [b] := by
  unfold Scalar.text
  cases style : s.style with
  | plain => exact absurd style quoted
  | single =>
    refine ⟨39, fun b => if b = 39 then [39, 39] else [b], rfl, .inl rfl, fun b => ?_, fun b c member => ?_,
      fun b plain => if_neg plain.2.1⟩
    · dsimp only
      split_ifs with quote <;> simp [quote]
    · dsimp only at member
      split_ifs at member
      · exact .inr (.inl (by simpa using member))
      · exact .inl (by simpa using member)
  | double =>
    refine ⟨34, fun b => if b = 34 ∨ b = 92 then [92, b] else [b], rfl, .inr rfl, fun b => ?_, fun b c member => ?_,
      fun b plain => if_neg (not_or.mpr ⟨plain.1, plain.2.2⟩)⟩
    · dsimp only
      split_ifs <;> simp
    · dsimp only at member
      split_ifs at member
      · rcases List.mem_cons.mp member with escape | self
        · exact .inr (.inr escape)
        · exact .inl (by simpa using self)
      · exact .inl (by simpa using member)

/-- Nothing but blanks or a comment, with the `\r` of the line's end or without it. -/
structure GapLine (l : Bytes) : Prop where
  line : 0 ∉ l ∧ 10 ∉ l
  nothing : l.dropWhile isBlank = [] ∨ l.dropWhile isBlank = [13] ∨ (l.dropWhile isBlank).head? = some 35

/-- The rest of a line after a value; a comment stands apart from it. -/
structure LineTail (t : Bytes) : Prop where
  gap : GapLine t
  apart : t.head? ≠ some 35

theorem lineTail_nil : LineTail [] := ⟨⟨by decide, .inl rfl⟩, by decide⟩

/-- An item of a block sequence, with the lines between it and the one before. -/
structure Item where
  gaps : List Bytes
  gap : Bytes
  scalar : Scalar
  tail : Bytes
  gaps_gap : ∀ l ∈ gaps, GapLine l
  gap_blank : gap ≠ [] ∧ gap.all isBlank
  tail_ends : LineTail tail

/-- What follows the dash. -/
def Item.text (it : Item) : Bytes := it.gap ++ it.scalar.text ++ it.tail

def Item.lines (indent : ℕ) (it : Item) : List Bytes := it.gaps ++ [List.replicate indent 32 ++ 45 :: it.text]

structure FlowItem where
  before : Bytes
  scalar : Scalar
  after : Bytes
  blanks : before.all isBlank ∧ after.all isBlank
  plain : scalar.style = .plain → ∀ b ∈ scalar.value, b ∉ lit ",[]\x7b\x7d"

def FlowItem.text (it : FlowItem) : Bytes := it.before ++ it.scalar.text ++ it.after

inductive PathList where
  | block (indent : ℕ) (items : List Item)
  | flow (gap : Bytes) (items : List FlowItem)

def PathList.globs : PathList → List Bytes
  | .block _ items => items.map fun it => it.scalar.value
  | .flow _ items => items.map fun it => it.scalar.value

/-- What stands on the line of the key. -/
def PathList.onKey : PathList → Bytes
  | .block _ _ => []
  | .flow gap items => gap ++ 91 :: ([44].intercalate (items.map FlowItem.text) ++ [93])

def PathList.lines : PathList → List Bytes
  | .block indent items => items.flatMap (Item.lines indent)
  | .flow _ _ => []

/-- A line of another key; one like `---x: y` is not the end of the front matter. -/
structure OtherLine (l : Bytes) : Prop where
  line : 0 ∉ l ∧ 10 ∉ l
  inside : ∀ t, l = lit "---" ++ t → ¬LineTail t
  other : ¬lit "paths:" <+: l

/-- A rule file whose front matter gives `paths` a list of globs. -/
structure FrontMatter where
  opening : Bytes
  before : List Bytes
  list : PathList
  keyTail : Bytes
  ends : List Bytes
  after : List Bytes
  closing : Bytes
  rest : Bytes
  opening_tail : LineTail opening
  before_other : ∀ l ∈ before, OtherLine l
  list_some : list.globs ≠ []
  list_gap : ∀ gap items, list = .flow gap items → gap ≠ [] ∧ gap.all isBlank
  key_tail : LineTail keyTail
  ends_gap : ∀ l ∈ ends, GapLine l
  after_other : ∀ l ∈ after, OtherLine l
  after_key : ∀ l ∈ after.head?, ∃ b ∈ l.head?, isBlank b = false ∧ b ≠ 45
  closing_tail : LineTail closing
  rest_line : ∀ b ∈ rest.head?, b = 10

/-- The lines between the markers. -/
def FrontMatter.lines (fm : FrontMatter) : List Bytes :=
  fm.before ++ (lit "paths:" ++ fm.list.onKey ++ fm.keyTail) :: (fm.list.lines ++ fm.ends ++ fm.after)

def FrontMatter.file (fm : FrontMatter) : Bytes :=
  lit "---" ++ fm.opening ++ [10] ++ fm.lines.flatMap (fun l => l ++ [10]) ++ lit "---" ++ fm.closing ++ fm.rest

def FrontMatter.globs (fm : FrontMatter) : List Bytes := fm.list.globs

/-- The rule has the globs in order, as many as it can hold, and so it is conditional. -/
def Conditional (path : CString) (fm : FrontMatter) : Prop :=
  ∃ r, parse_rule path (some fm.file) = some r ∧ r.paths.map Subtype.val = fm.globs.take MAX_RULE_PATHS ∧ r.paths ≠ []

/-- What is left of an item without spaces and quotes before and spaces, quotes and `\r` after. -/
def stripped (text : Bytes) : Bytes := (text.dropWhile isLeading).rdropWhile isTrailing

/-- The item is its glob when it is stripped and cut to the buffer. -/
def Item.Plainly (it : Item) : Prop := it.scalar.value ≠ [] ∧ (stripped it.text).take 255 = it.scalar.value

/-- The lines before the item begin with a blank, so that the list is not taken to end there. -/
def Item.Follows (it : Item) : Prop := ∀ l ∈ it.gaps, l.head?.any isBlank = true

instance (it : Item) : Decidable it.Follows := inferInstanceAs (Decidable (∀ l ∈ it.gaps, _))

/-- A block sequence, indented, whose first items follow without a gap and are their globs when stripped. -/
def ListRead : PathList → Prop
  | .flow _ _ => False
  | .block indent items => 0 < indent ∧ ∀ it ∈ items.take MAX_RULE_PATHS, it.Follows ∧ it.Plainly

/-- The list is read, and no line before it is taken for the end of the front matter. -/
def FrontMatter.Read (fm : FrontMatter) : Prop := (∀ l ∈ fm.before, ¬lit "---" <+: l) ∧ ListRead fm.list

/-! ### Lines that give no path -/

/-- Neither the end of the front matter nor the key. -/
def Ignored (l : Bytes) : Prop := ¬lit "---" <+: l ∧ ¬lit "paths:" <+: l

theorem pathLines_ignored {ls : List Bytes} (ignored : ∀ l ∈ ls, Ignored l) (more : List Bytes) (paths : List CString) :
    pathLines false (ls ++ more) paths = pathLines false more paths := by
  induction ls with
  | nil => rfl
  | cons l ls ih =>
    obtain ⟨inside, other⟩ := ignored l (by simp)
    rw [List.cons_append, pathLines, if_neg inside, decide_eq_false other]
    simp only [Bool.false_eq_true, if_false, ite_self]
    exact ih fun l member => ignored l (by simp [member])

theorem pathLines_closing {l : Bytes} (closing : lit "---" <+: l) (in_paths : Bool) (more : List Bytes) (paths : List CString) :
    pathLines in_paths (l :: more) paths = paths := by
  rw [pathLines, if_pos closing]

/-- A line that does not begin with a blank ends the list. -/
theorem pathLines_reset {l : Bytes} (ignored : Ignored l) (start : l.head?.any isBlank = false) (in_paths : Bool)
    (more : List Bytes) (paths : List CString) : pathLines in_paths (l :: more) paths = pathLines false more paths := by
  rw [pathLines, if_neg ignored.1, if_pos start, decide_eq_false ignored.2]

theorem prefix_head {word l : Bytes} {c : UInt8} (starts : c :: word <+: l) : l.head? = some c := by
  obtain ⟨t, rfl⟩ := starts
  rfl

/-- A line that begins with a blank is neither a marker nor a key. -/
theorem ignored_blank {l : Bytes} (start : l.head?.any isBlank = true) : Ignored l := by
  constructor
  · intro starts
    rw [prefix_head starts] at start
    exact absurd start (by decide)
  · intro starts
    rw [prefix_head starts] at start
    exact absurd start (by decide)

theorem dropWhile_head {l : Bytes} (start : l.head?.any isBlank = false) : l.dropWhile isBlank = l := by
  cases l with
  | nil => rfl
  | cons b l =>
    have plain : isBlank b = false := by simpa using start
    simp [plain]

theorem gapLine_ignored {l : Bytes} (gap : GapLine l) : Ignored l := by
  by_cases start : l.head?.any isBlank = true
  · exact ignored_blank start
  · have head : ∀ c ∈ l.head?, c = 13 ∨ c = 35 := by
      intro c member
      have nothing := gap.nothing
      rw [dropWhile_head (by simpa using start)] at nothing
      rcases nothing with rfl | rfl | comment
      · cases member
      · exact .inl (Option.some.inj member).symm
      · exact .inr (Option.some.inj (comment.symm.trans member)).symm
    constructor
    · intro starts
      exact absurd (head 45 (prefix_head starts)) (by decide)
    · intro starts
      exact absurd (head 112 (prefix_head starts)) (by decide)

theorem gapLine_item {l : Bytes} (gap : GapLine l) : pathItem l = none := by
  unfold pathItem
  split
  · next q dash =>
    rcases gap.nothing with none | cr | comment
    · rw [dash] at none
      cases none
    · rw [dash] at cr
      cases cr
    · rw [dash] at comment
      cases comment
  · rfl

/-- A gap line that begins with a blank leaves the list open. -/
theorem pathLines_gap {l : Bytes} (gap : GapLine l) (start : l.head?.any isBlank = true) (in_paths : Bool)
    (more : List Bytes) (paths : List CString) : pathLines in_paths (l :: more) paths = pathLines in_paths more paths := by
  rw [pathLines, if_neg (ignored_blank start).1, if_neg (by simp [start]), gapLine_item gap]
  simp

/-- Outside the list, only its key could add a path. -/
theorem pathLines_outside {ls : List Bytes} (other : ∀ l ∈ ls, ¬lit "paths:" <+: l) {close : Bytes}
    (closing : lit "---" <+: close) (more : List Bytes) (paths : List CString) :
    pathLines false (ls ++ close :: more) paths = paths := by
  induction ls with
  | nil => exact pathLines_closing closing _ _ _
  | cons l ls ih =>
    by_cases ended : lit "---" <+: l
    · exact pathLines_closing ended _ _ _
    · rw [List.cons_append, ← List.singleton_append,
        pathLines_ignored fun l' member => by
          rw [List.mem_singleton.mp member]
          exact ⟨ended, other l (by simp)⟩]
      exact ih fun l member => other l (by simp [member])

/-- What comes after the list adds nothing to it. -/
theorem pathLines_after {ends after : List Bytes} (gap : ∀ l ∈ ends, GapLine l) (other : ∀ l ∈ after, OtherLine l)
    (key : ∀ l ∈ after.head?, ∃ b ∈ l.head?, isBlank b = false ∧ b ≠ 45) {close : Bytes} (closing : lit "---" <+: close)
    (in_paths : Bool) (more : List Bytes) (paths : List CString) :
    pathLines in_paths (ends ++ after ++ close :: more) paths = paths := by
  have outside : ∀ l ∈ ends ++ after, ¬lit "paths:" <+: l := by
    intro l member
    rcases List.mem_append.mp member with first | last
    · exact (gapLine_ignored (gap l first)).2
    · exact (other l last).other
  cases in_paths with
  | false => exact pathLines_outside outside closing _ _
  | true =>
    induction ends with
    | nil =>
      cases after with
      | nil => exact pathLines_closing closing _ _ _
      | cons l after =>
        obtain ⟨b, head, plain, other'⟩ := key l rfl
        have inside : ¬lit "---" <+: l := by
          intro starts
          rw [prefix_head starts] at head
          exact other' (Option.some.inj head).symm
        rw [List.nil_append, List.cons_append, pathLines_reset ⟨inside, (other l (by simp)).other⟩ (by
          rw [Option.mem_def.mp head]
          simpa using plain)]
        exact pathLines_outside (fun l member => outside l (by simp [member])) closing _ _
    | cons l ends ih =>
      have first := gap l (by simp)
      have rest : ∀ l ∈ ends ++ after, ¬lit "paths:" <+: l := fun l member => outside l (by
        simp only [List.cons_append, List.mem_cons]
        exact .inr member)
      rw [List.cons_append, List.cons_append]
      by_cases start : l.head?.any isBlank = true
      · rw [pathLines_gap first start]
        exact ih (fun l member => gap l (by simp [member])) rest
      · rw [pathLines_reset (gapLine_ignored first) (by simpa using start)]
        exact pathLines_outside rest closing _ _

/-- What the loop makes of the value of an item. -/
def addPath (paths : List CString) (it : Item) : List CString :=
  if stripped it.text ≠ [] ∧ paths.length < MAX_RULE_PATHS then paths ++ [cstr ((stripped it.text).take 255)] else paths

theorem item_ignored (indent : ℕ) (it : Item) : Ignored (List.replicate indent 32 ++ 45 :: it.text) := by
  cases indent with
  | zero =>
    obtain ⟨b, gap, whole⟩ := List.exists_cons_of_ne_nil it.gap_blank.1
    have blank : isBlank b := by
      have all := it.gap_blank.2
      rw [whole, List.all_cons, Bool.and_eq_true] at all
      exact all.1
    constructor
    · rintro ⟨t, same⟩
      simp only [lit, Item.text, whole, List.replicate_zero, List.nil_append] at same
      have second : 45 = b := (List.cons.inj (List.cons.inj same).2).1
      rw [← second] at blank
      exact absurd blank (by decide)
    · intro starts
      have head := prefix_head starts
      cases head
  | succ indent => exact ignored_blank rfl

theorem lines_ignored (indent : ℕ) (it : Item) : ∀ l ∈ it.lines indent, Ignored l := by
  intro l member
  rcases List.mem_append.mp member with gap | dash
  · exact gapLine_ignored (it.gaps_gap l gap)
  · rw [List.mem_singleton.mp dash]
    exact item_ignored indent it

theorem pathItem_item (indent : ℕ) (it : Item) :
    pathItem (List.replicate indent 32 ++ 45 :: it.text) = some (stripped it.text) := by
  have dash : (List.replicate indent 32 ++ 45 :: it.text).dropWhile isBlank = 45 :: it.text := by
    rw [List.dropWhile_append_of_pos fun b member => by rw [List.eq_of_mem_replicate member]; rfl]
    rfl
  rw [pathItem, dash]
  rfl

theorem pathLines_gaps {gaps : List Bytes} (gap : ∀ l ∈ gaps, GapLine l) (start : ∀ l ∈ gaps, l.head?.any isBlank = true)
    (in_paths : Bool) (more : List Bytes) (paths : List CString) :
    pathLines in_paths (gaps ++ more) paths = pathLines in_paths more paths := by
  induction gaps with
  | nil => rfl
  | cons l gaps ih =>
    rw [List.cons_append, pathLines_gap (gap l (by simp)) (start l (by simp))]
    exact ih (fun l member => gap l (by simp [member])) fun l member => start l (by simp [member])

theorem pathLines_broken {gaps : List Bytes} (gap : ∀ l ∈ gaps, GapLine l)
    (reset : ¬∀ l ∈ gaps, l.head?.any isBlank = true) (in_paths : Bool) (more : List Bytes) (paths : List CString) :
    pathLines in_paths (gaps ++ more) paths = pathLines false more paths := by
  induction gaps with
  | nil => simp at reset
  | cons l gaps ih =>
    have rest : ∀ l ∈ gaps, GapLine l := fun l member => gap l (by simp [member])
    rw [List.cons_append]
    by_cases start : l.head?.any isBlank = true
    · rw [pathLines_gap (gap l (by simp)) start]
      exact ih rest fun all => reset (by simpa [start] using all)
    · rw [pathLines_reset (gapLine_ignored (gap l (by simp))) (by simpa using start),
        pathLines_ignored fun l member => gapLine_ignored (rest l member)]

/-- The items are read up to the first that does not follow. -/
theorem pathLines_items {indent : ℕ} (indented : 0 < indent) {tail : List Bytes}
    (adds : ∀ in_paths paths, pathLines in_paths tail paths = paths) (items : List Item) : ∀ paths,
    pathLines true (items.flatMap (Item.lines indent) ++ tail) paths =
      (items.takeWhile fun it => decide it.Follows).foldl addPath paths := by
  induction items with
  | nil => exact adds true
  | cons it items ih =>
    intro paths
    have split : (it :: items).flatMap (Item.lines indent) ++ tail =
        it.gaps ++ (List.replicate indent 32 ++ 45 :: it.text) :: (items.flatMap (Item.lines indent) ++ tail) := by
      simp [Item.lines]
    rw [split]
    by_cases follows : it.Follows
    · obtain ⟨indent, rfl⟩ : ∃ n, indent = n + 1 := ⟨indent - 1, by omega⟩
      rw [pathLines_gaps it.gaps_gap follows, List.takeWhile_cons_of_pos (by simp [follows]), List.foldl_cons, ← ih,
        pathLines, if_neg (item_ignored _ it).1, pathItem_item]
      simp only [addPath, if_true]
      rfl
    · rw [pathLines_broken it.gaps_gap follows, List.takeWhile_cons_of_neg (by simp [follows])]
      have ignored : ∀ l ∈ (List.replicate indent 32 ++ 45 :: it.text) :: items.flatMap (Item.lines indent), Ignored l := by
        intro l member
        rcases List.mem_cons.mp member with rfl | later
        · exact item_ignored indent it
        · obtain ⟨it', -, line⟩ := List.mem_flatMap.mp later
          exact lines_ignored indent it' l line
      rw [← List.cons_append, pathLines_ignored ignored, adds]
      rfl

/-- Items at the key's own column are taken for other keys. -/
theorem pathLines_column {tail : List Bytes} (adds : ∀ in_paths paths, pathLines in_paths tail paths = paths)
    {items : List Item} (some : items ≠ []) (paths : List CString) :
    pathLines true (items.flatMap (Item.lines 0) ++ tail) paths = paths := by
  obtain ⟨it, items, rfl⟩ := List.exists_cons_of_ne_nil some
  have split : (it :: items).flatMap (Item.lines 0) ++ tail =
      it.gaps ++ (45 :: it.text) :: (items.flatMap (Item.lines 0) ++ tail) := by
    simp [Item.lines]
  have rest : pathLines false (items.flatMap (Item.lines 0) ++ tail) paths = paths := by
    rw [pathLines_ignored, adds]
    intro l member
    obtain ⟨it', -, line⟩ := List.mem_flatMap.mp member
    exact lines_ignored 0 it' l line
  have dash : ∀ in_paths, pathLines in_paths ((45 :: it.text) :: (items.flatMap (Item.lines 0) ++ tail)) paths = paths := by
    intro in_paths
    exact (pathLines_reset (item_ignored 0 it) rfl in_paths _ paths).trans rest
  rw [split]
  by_cases follows : it.Follows
  · rw [pathLines_gaps it.gaps_gap follows, dash]
  · rw [pathLines_broken it.gaps_gap follows, dash]

/-- What the loop stores of an item. -/
def stored (it : Item) : Bytes := (stripped it.text).take 255

theorem stored_nil {it : Item} : stored it = [] ↔ stripped it.text = [] := by
  rw [stored, List.take_eq_nil_iff]
  simp

theorem take_readable {f g : Item → Bytes} {ok : Item → Bool} (apart : ∀ a b, f a = [] → f b ≠ [] → f b ≠ g a)
    (items : List Item) : ∀ r,
    (((items.takeWhile ok).map f).filter (· ≠ [])).take r = (items.map g).take r ↔
      ∀ it ∈ items.take r, ok it = true ∧ g it ≠ [] ∧ f it = g it := by
  induction items with
  | nil => simp
  | cons a items ih =>
    intro r
    cases r with
    | zero => simp
    | succ r =>
      rw [List.map_cons, List.take_succ_cons, List.take_succ_cons, List.forall_mem_cons]
      by_cases first : ok a = true
      · rw [List.takeWhile_cons_of_pos first, List.map_cons]
        by_cases empty : f a = []
        · -- The item is skipped, and no later one passes for it.
          rw [List.filter_cons_of_neg (by simp [empty])]
          have different : (((items.takeWhile ok).map f).filter (· ≠ [])).take (r + 1) ≠ g a :: (items.map g).take r := by
            intro same
            cases stays : ((items.takeWhile ok).map f).filter (· ≠ []) with
            | nil =>
              rw [stays] at same
              cases same
            | cons w rest =>
              have member : w ∈ ((items.takeWhile ok).map f).filter (· ≠ []) := by
                rw [stays]
                exact List.mem_cons_self
              obtain ⟨mapped, some⟩ := List.mem_filter.mp member
              obtain ⟨b, -, rfl⟩ := List.mem_map.mp mapped
              rw [stays, List.take_succ_cons] at same
              exact apart a b empty (by simpa using some) (List.cons.inj same).1
          constructor
          · exact fun same => absurd same different
          · rintro ⟨⟨-, some, same⟩, -⟩
            exact absurd (same.symm.trans empty) some
        · rw [List.filter_cons_of_pos (by simpa using empty), List.take_succ_cons, List.cons.injEq, ih]
          constructor
          · rintro ⟨same, rest⟩
            exact ⟨⟨first, same ▸ empty, same⟩, rest⟩
          · rintro ⟨⟨-, -, same⟩, rest⟩
            exact ⟨same, rest⟩
      · rw [List.takeWhile_cons_of_neg first]
        simp [first]

/-- With nothing left of the item, its glob is made of quotes and spaces. -/
theorem glob_leading {it : Item} (empty : stored it = []) : ∀ b ∈ it.scalar.value, isLeading b = true := by
  intro b member
  have dropped : ∀ c ∈ it.text, isLeading c = true ∨ isTrailing c = true := by
    intro c inside
    by_cases leading : isLeading c = true
    · exact .inl leading
    · right
      have left := stored_nil.mp empty
      rw [stripped, List.rdropWhile_eq_nil_iff] at left
      apply left
      rw [← List.takeWhile_append_dropWhile (p := isLeading) (l := it.text), List.mem_append] at inside
      exact inside.resolve_left fun before => leading (List.mem_takeWhile_imp before)
  have within : ∀ c ∈ it.scalar.text, c ∈ it.text := by
    intro c inside
    simp [Item.text, inside]
  have leading : b ∈ it.scalar.text → isLeading b = true := by
    intro inside
    have quotes : ∀ c : UInt8, isLeading c = true ∨ isTrailing c = true → c ≠ 13 → isLeading c = true := by
      decide +kernel
    exact quotes b (dropped b (within b inside)) (it.scalar.line b member).2.2
  by_cases style : it.scalar.style = .plain
  · obtain ⟨c, head, blank, indicator⟩ := (it.scalar.plain style).first
    have inside : c ∈ it.scalar.value := List.mem_of_mem_head? head
    have text : it.scalar.text = it.scalar.value := by rw [Scalar.text, style, Style.text]
    have quotes : ∀ c : UInt8, isLeading c = true ∨ isTrailing c = true → isBlank c = false → c ∉ indicators → c ≠ 13 → False := by
      decide +kernel
    exact (quotes c (dropped c (within c (text ▸ inside))) blank indicator (it.scalar.line c inside).2.2).elim
  · obtain ⟨q, escape, text, -, itself, -⟩ := it.scalar.text_quoted style
    apply leading
    rw [text]
    exact List.mem_append_left _ (List.mem_append_right _ (List.mem_flatMap.mpr ⟨b, member, itself b⟩))

theorem stored_first {it : Item} {b : UInt8} (head : b ∈ (stored it).head?) : isLeading b = false := by
  have first : b ∈ (it.text.dropWhile isLeading).head? := by
    rw [stored, List.head?_take, if_neg (by decide), stripped] at head
    obtain ⟨t, whole⟩ := List.rdropWhile_prefix isTrailing (it.text.dropWhile isLeading)
    rw [← whole, List.head?_append, Option.mem_def.mp head]
    rfl
  have not := List.head?_dropWhile_not isLeading it.text
  rw [Option.mem_def.mp first] at not
  simpa using not

/-- An item of which nothing is left is not made up for by another. -/
theorem stored_apart (a b : Item) (empty : stored a = []) (some : stored b ≠ []) : stored b ≠ a.scalar.value := by
  intro same
  obtain ⟨c, rest, whole⟩ := List.exists_cons_of_ne_nil some
  have leading := glob_leading empty c (by simp [← same, whole])
  have head : c ∈ (stored b).head? := by simp [whole]
  have not := stored_first head
  rw [leading] at not
  cases not

/-- Neither of the bytes that a line of a text file cannot have. -/
def LineBytes (l : Bytes) : Prop := 0 ∉ l ∧ 10 ∉ l

instance (l : Bytes) : Decidable (LineBytes l) := inferInstanceAs (Decidable (_ ∧ _))

theorem LineBytes.append {l m : Bytes} (left : LineBytes l) (right : LineBytes m) : LineBytes (l ++ m) := by
  constructor
  · simp [left.1, right.1]
  · simp [left.2, right.2]

theorem lineBytes_blank {l : Bytes} (blank : l.all isBlank = true) : LineBytes l := by
  rw [List.all_eq_true] at blank
  exact ⟨fun member => absurd (blank 0 member) (by decide), fun member => absurd (blank 10 member) (by decide)⟩

theorem lineBytes_scalar (s : Scalar) : LineBytes s.text := by
  by_cases style : s.style = .plain
  · have text : s.text = s.value := by rw [Scalar.text, style, Style.text]
    rw [text]
    exact ⟨fun member => (s.line 0 member).1 rfl, fun member => (s.line 10 member).2.1 rfl⟩
  · obtain ⟨q, escape, text, quote, -, bytes, -⟩ := s.text_quoted style
    have ends : LineBytes [q] := by
      rcases quote with rfl | rfl <;> decide
    have inner : LineBytes (s.value.flatMap escape) := by
      constructor
      · intro member
        obtain ⟨b, inside, escaped⟩ := List.mem_flatMap.mp member
        rcases bytes b 0 escaped with same | other | other
        · exact (s.line b inside).1 same.symm
        · cases other
        · cases other
      · intro member
        obtain ⟨b, inside, escaped⟩ := List.mem_flatMap.mp member
        rcases bytes b 10 escaped with same | other | other
        · exact (s.line b inside).2.1 same.symm
        · cases other
        · cases other
    rw [text]
    exact (ends.append inner).append ends

theorem lineBytes_item (it : Item) : LineBytes it.text :=
  ((lineBytes_blank it.gap_blank.2).append (lineBytes_scalar it.scalar)).append it.tail_ends.gap.line

theorem lineBytes_lines (list : PathList) : ∀ l ∈ list.lines, LineBytes l := by
  intro l member
  cases list with
  | flow gap items => cases member
  | block indent items =>
    obtain ⟨it, -, line⟩ := List.mem_flatMap.mp member
    rcases List.mem_append.mp line with gap | dash
    · exact (it.gaps_gap l gap).line
    · rw [List.mem_singleton.mp dash]
      have indentation : LineBytes (List.replicate indent 32) :=
        ⟨fun member => absurd (List.eq_of_mem_replicate member) (by decide),
          fun member => absurd (List.eq_of_mem_replicate member) (by decide)⟩
      exact indentation.append (LineBytes.append (l := [45]) ⟨by decide, by decide⟩ (lineBytes_item it))

theorem lineBytes_intercalate {texts : List Bytes} (line : ∀ t ∈ texts, LineBytes t) : LineBytes ([44].intercalate texts) := by
  induction texts with
  | nil => exact ⟨by simp, by simp⟩
  | cons t texts ih =>
    cases texts with
    | nil => simpa using line t (by simp)
    | cons t' texts =>
      rw [List.intercalate_cons_cons]
      refine ((line t (by simp)).append ⟨by decide, by decide⟩).append (ih fun t member => line t ?_)
      simp only [List.mem_cons] at member ⊢
      exact .inr member

theorem FrontMatter.lineBytes_onKey (fm : FrontMatter) : LineBytes fm.list.onKey := by
  cases form : fm.list with
  | block indent items => exact ⟨by simp [PathList.onKey], by simp [PathList.onKey]⟩
  | flow gap items =>
    have texts : ∀ t ∈ items.map FlowItem.text, LineBytes t := by
      intro t member
      obtain ⟨it, -, rfl⟩ := List.mem_map.mp member
      exact ((lineBytes_blank it.blanks.1).append (lineBytes_scalar it.scalar)).append (lineBytes_blank it.blanks.2)
    have open' : LineBytes [91] := ⟨by decide, by decide⟩
    have close' : LineBytes [93] := ⟨by decide, by decide⟩
    exact (lineBytes_blank (fm.list_gap gap items form).2).append
      (open'.append ((lineBytes_intercalate texts).append close'))

theorem FrontMatter.lineBytes (fm : FrontMatter) : ∀ l ∈ fm.lines, LineBytes l := by
  intro l member
  rw [FrontMatter.lines, List.mem_append, List.mem_cons, List.mem_append, List.mem_append] at member
  rcases member with before | rfl | (items | ends) | after
  · exact (fm.before_other l before).line
  · have key : LineBytes (lit "paths:") := ⟨by decide, by decide⟩
    exact (key.append fm.lineBytes_onKey).append fm.key_tail.gap.line
  · exact lineBytes_lines fm.list l items
  · exact (fm.ends_gap l ends).line
  · exact (fm.after_other l after).line

/-! ### The file -/

theorem cstr_line {l : Bytes} (free : 0 ∉ l) (rest : Bytes) : (cstr (l ++ rest)).val = l ++ (cstr rest).val := by
  simp only [cstr]
  refine List.takeWhile_append_of_pos fun b member => ?_
  have nonzero : b ≠ 0 := fun zero => free (zero ▸ member)
  simpa using nonzero

theorem getlines_lines {ls : List Bytes} (line : ∀ l ∈ ls, 10 ∉ l) (rest : Bytes) :
    getlines [] (ls.flatMap (fun l => l ++ [10]) ++ rest) = ls ++ getlines [] rest := by
  induction ls with
  | nil => rfl
  | cons l ls ih =>
    have split : (l :: ls).flatMap (fun l => l ++ [10]) ++ rest = l ++ 10 :: (ls.flatMap (fun l => l ++ [10]) ++ rest) := by
      simp
    rw [split, getlines_line (line l (by simp)), ih fun l member => line l (by simp [member])]
    rfl

/-- The last line read is the closing marker. -/
theorem getlines_closing {closing rest : Bytes} (one : 10 ∉ closing) (ends : ∀ b ∈ rest.head?, b = 10) :
    ∃ more, getlines [] (lit "---" ++ closing ++ rest) = (lit "---" ++ closing) :: more := by
  have marker : 10 ∉ lit "---" ++ closing := by
    simp only [List.mem_append, not_or]
    exact ⟨by decide, one⟩
  cases rest with
  | nil =>
    rw [List.append_nil, getlines_tail marker, if_neg (by simp [lit])]
    exact ⟨[], rfl⟩
  | cons b rest =>
    have newline : b = 10 := ends b rfl
    rw [newline, getlines_line marker]
    exact ⟨_, rfl⟩

theorem FrontMatter.opening_bytes (fm : FrontMatter) : LineBytes (lit "---" ++ fm.opening) :=
  LineBytes.append ⟨by decide, by decide⟩ fm.opening_tail.gap.line

theorem FrontMatter.closing_bytes (fm : FrontMatter) : LineBytes (lit "---" ++ fm.closing) :=
  LineBytes.append ⟨by decide, by decide⟩ fm.closing_tail.gap.line

/-- Nothing up to the end of the closing marker is a NUL. -/
theorem FrontMatter.nulFree (fm : FrontMatter) :
    0 ∉ lit "---" ++ fm.opening ++ [10] ++ fm.lines.flatMap (fun l => l ++ [10]) ++ (lit "---" ++ fm.closing) := by
  have lines : 0 ∉ fm.lines.flatMap (fun l => l ++ [10]) := by
    intro member
    obtain ⟨l, inside, byte⟩ := List.mem_flatMap.mp member
    rcases List.mem_append.mp byte with byte | newline
    · exact (fm.lineBytes l inside).1 byte
    · exact absurd newline (by decide)
  have newline : 0 ∉ ([10] : Bytes) := by decide
  intro member
  rcases List.mem_append.mp member with member | member
  · rcases List.mem_append.mp member with member | member
    · rcases List.mem_append.mp member with member | member
      · exact fm.opening_bytes.1 member
      · exact newline member
    · exact lines member
  · exact fm.closing_bytes.1 member

/-- What `parse_rule` has of the file, in lines. -/
theorem FrontMatter.content (fm : FrontMatter) : (cstr fm.file).val = (lit "---" ++ fm.opening) ++ 10 ::
    (fm.lines.flatMap (fun l => l ++ [10]) ++ (lit "---" ++ fm.closing ++ (cstr fm.rest).val)) := by
  have whole : fm.file = lit "---" ++ fm.opening ++ [10] ++ fm.lines.flatMap (fun l => l ++ [10]) ++
      (lit "---" ++ fm.closing) ++ fm.rest := by
    simp [FrontMatter.file]
  rw [whole, cstr_line fm.nulFree]
  simp

theorem FrontMatter.rest_newline (fm : FrontMatter) : ∀ b ∈ (cstr fm.rest).val.head?, b = 10 := by
  intro b head
  cases rest : fm.rest with
  | nil =>
    rw [rest] at head
    cases head
  | cons c rest' =>
    have newline : c = 10 := fm.rest_line c (by simp [rest])
    rw [rest, newline] at head
    exact (Option.some.inj head).symm

/-- The paths are those of the lines between the markers. -/
theorem parse_rule_file (path : CString) (fm : FrontMatter) : ∃ close more r,
    lit "---" <+: close ∧ parse_rule path (some fm.file) = some r ∧ r.paths = pathLines false (fm.lines ++ close :: more) [] := by
  obtain ⟨more, closing⟩ := getlines_closing (fun member => fm.closing_tail.gap.line.2 member) fm.rest_newline
  refine ⟨lit "---" ++ fm.closing, more, _, ⟨fm.closing, rfl⟩, rfl, ?_⟩
  have first : ((lit "---" ++ fm.opening) ++ 10 :: (fm.lines.flatMap (fun l => l ++ [10]) ++
      (lit "---" ++ fm.closing ++ (cstr fm.rest).val))).dropWhile (· != 10) = 10 :: (fm.lines.flatMap (fun l => l ++ [10]) ++
      (lit "---" ++ fm.closing ++ (cstr fm.rest).val)) := by
    rw [List.dropWhile_append_of_pos fun b member => ?_]
    · rfl
    · have other : b ≠ 10 := fun newline => fm.opening_bytes.2 (newline ▸ member)
      simpa using other
  simp only [fm.content]
  rw [if_pos (by
    rw [List.append_assoc]
    exact List.prefix_append _ _), first]
  change pathLines false (getlines [] _) [] = _
  rw [getlines_lines fun l member => (fm.lineBytes l member).2, closing]

/-! ### A rule with a list is conditional -/

theorem stored_nulFree (it : Item) : 0 ∉ stored it := by
  intro member
  have inside := List.mem_of_mem_take member
  have whole := (List.rdropWhile_prefix isTrailing (it.text.dropWhile isLeading)).subset inside
  exact (lineBytes_item it).1 ((List.dropWhile_suffix isLeading).subset whole)

theorem foldl_addPath (items : List Item) : ∀ paths : List CString, paths.length ≤ MAX_RULE_PATHS →
    (items.foldl addPath paths).map Subtype.val =
      (paths.map Subtype.val ++ (items.map stored).filter (· ≠ [])).take MAX_RULE_PATHS := by
  induction items with
  | nil =>
    intro paths short
    rw [List.map_nil, List.filter_nil, List.append_nil, List.take_of_length_le (by simpa using short)]
    rfl
  | cons it items ih =>
    intro paths short
    rw [List.foldl_cons, List.map_cons]
    by_cases empty : stored it = []
    · rw [List.filter_cons_of_neg (by simp [empty]), addPath, if_neg (by simp [stored_nil.mp empty]), ih paths short]
    · rw [List.filter_cons_of_pos (by simpa using empty)]
      have some : stripped it.text ≠ [] := fun nothing => empty (stored_nil.mpr nothing)
      by_cases room : paths.length < MAX_RULE_PATHS
      · rw [addPath, if_pos ⟨some, room⟩, ih _ (by
          rw [List.length_append]
          exact room), List.map_append, List.map_singleton,
          show (cstr ((stripped it.text).take 255)).val = stored it from cstr_of_nulFree (stored_nulFree it)]
        simp
      · -- Eight are there already, and nothing more goes in.
        have full : (paths.map Subtype.val).length = MAX_RULE_PATHS := by
          rw [List.length_map]
          omega
        rw [addPath, if_neg (fun both => room both.2), ih paths short, List.take_append_of_le_length full.ge,
          List.take_append_of_le_length full.ge]

theorem pathLines_key {l : Bytes} (key : lit "paths:" <+: l) (in_paths : Bool) (more : List Bytes) (paths : List CString) :
    pathLines in_paths (l :: more) paths = pathLines true more paths := by
  have head : l.head? = some 112 := prefix_head key
  have inside : ¬lit "---" <+: l := by
    intro starts
    rw [prefix_head starts] at head
    exact absurd head (by decide)
  rw [pathLines, if_neg inside, if_pos (by
    rw [head]
    rfl), decide_eq_true key]

theorem pathLines_ended {ls : List Bytes} (other : ∀ l ∈ ls, ¬lit "paths:" <+: l) (ended : ¬∀ l ∈ ls, ¬lit "---" <+: l)
    (more : List Bytes) (paths : List CString) : pathLines false (ls ++ more) paths = paths := by
  induction ls with
  | nil => simp at ended
  | cons l ls ih =>
    by_cases marker : lit "---" <+: l
    · exact pathLines_closing marker _ _ _
    · rw [List.cons_append, ← List.singleton_append, pathLines_ignored fun l' member => by
        rw [List.mem_singleton.mp member]
        exact ⟨marker, other l (by simp)⟩]
      exact ih (fun l member => other l (by simp [member])) fun all => ended (by simpa [marker] using all)

/-- The paths that the lines of the front matter give. -/
theorem FrontMatter.pathLines_lines (fm : FrontMatter) {close : Bytes} (closing : lit "---" <+: close) (more : List Bytes) :
    (pathLines false (fm.lines ++ close :: more) []).map Subtype.val = fm.globs.take MAX_RULE_PATHS ↔ fm.Read := by
  have none : fm.globs.take MAX_RULE_PATHS ≠ [] := by
    rw [Ne, List.take_eq_nil_iff]
    exact fun either => either.elim (by decide) fm.list_some
  have split : fm.lines ++ close :: more = fm.before ++ (lit "paths:" ++ fm.list.onKey ++ fm.keyTail) ::
      (fm.list.lines ++ (fm.ends ++ fm.after ++ close :: more)) := by
    simp [FrontMatter.lines]
  rw [split, FrontMatter.Read]
  by_cases inside : ∀ l ∈ fm.before, ¬lit "---" <+: l
  swap
  · rw [pathLines_ended (fun l member => (fm.before_other l member).other) inside]
    exact ⟨fun same => absurd same.symm none, fun read => absurd read.1 inside⟩
  rw [pathLines_ignored fun l member => ⟨inside l member, (fm.before_other l member).other⟩, pathLines_key (by
    rw [List.append_assoc]
    exact List.prefix_append _ _)]
  have adds : ∀ in_paths paths, pathLines in_paths (fm.ends ++ fm.after ++ close :: more) paths = paths :=
    fun in_paths paths => pathLines_after fm.ends_gap fm.after_other fm.after_key closing in_paths more paths
  rw [and_iff_right inside]
  unfold FrontMatter.globs at none ⊢
  cases form : fm.list with
  | flow gap items =>
    rw [form] at none
    rw [PathList.lines, List.nil_append, adds]
    exact ⟨fun same => absurd same.symm none, False.elim⟩
  | block indent items =>
    rw [form] at none
    rw [PathList.lines, PathList.globs, ListRead]
    rcases Nat.eq_zero_or_pos indent with rfl | indented
    · have some : items ≠ [] := by
        rintro rfl
        exact none rfl
      rw [pathLines_column adds some]
      exact ⟨fun same => absurd same.symm none, fun read => absurd read.1 (lt_irrefl 0)⟩
    · rw [pathLines_items indented adds, foldl_addPath _ [] (Nat.zero_le _), List.map_nil, List.nil_append,
        take_readable stored_apart]
      simp only [indented, true_and, decide_eq_true_eq]
      rfl

/-- `parse_rule` makes the rule conditional on its globs just when they are an indented
    block sequence without a gap that it does not see through, each its glob when stripped. -/
theorem rule_paths_read (path : CString) (fm : FrontMatter) : Conditional path fm ↔ fm.Read := by
  obtain ⟨close, more, r, closing, parsed, paths⟩ := parse_rule_file path fm
  have lines := fm.pathLines_lines closing more
  rw [← paths] at lines
  rw [← lines]
  constructor
  · rintro ⟨r', parsed', globs, -⟩
    rw [parsed] at parsed'
    cases parsed'
    exact globs
  · intro globs
    refine ⟨r, parsed, globs, ?_⟩
    rintro nothing
    rw [nothing, List.map_nil, eq_comm, List.take_eq_nil_iff] at globs
    exact globs.elim (by decide) fm.list_some

/-- A list the way the README writes it. -/
def readmeGlob : FlowItem where
  before := []
  scalar := ⟨.plain, lit "*.md", by decide +kernel,
    fun _ => ⟨⟨42, rfl, by decide +kernel⟩, by decide +kernel, by decide +kernel, by decide +kernel⟩⟩
  after := []
  blanks := by decide
  plain := fun _ => by decide +kernel

def readmeList : FrontMatter where
  opening := []
  before := []
  list := .flow (lit " ") [readmeGlob]
  keyTail := []
  ends := []
  after := []
  closing := []
  rest := []
  opening_tail := lineTail_nil
  before_other := by simp
  list_some := by simp [PathList.globs]
  list_gap := by
    rintro gap items ⟨⟩
    decide
  key_tail := lineTail_nil
  ends_gap := by simp
  after_other := by simp
  after_key := by simp
  closing_tail := lineTail_nil
  rest_line := by simp

theorem readmeList_parsed : (parse_rule (cs "r.md") (some readmeList.file)).map rule_t.paths = some [] := by
  decide +kernel

theorem rule_paths_missed : ¬∀ (path : CString) (fm : FrontMatter), Conditional path fm := by
  intro conditional
  obtain ⟨r, parsed, -, some⟩ := conditional (cs "r.md") readmeList
  have none := readmeList_parsed
  rw [parsed] at none
  exact some (Option.some.inj none)

theorem flatMap_itself {l : Bytes} {f : UInt8 → Bytes} (single : ∀ b ∈ l, f b = [b]) : l.flatMap f = l := by
  rw [List.flatMap_congr single]
  simp

theorem stripped_between {before value after : Bytes} (leading : ∀ b ∈ before, isLeading b = true)
    (trailing : ∀ b ∈ after, isTrailing b = true) (first : ∀ b ∈ value.head?, isLeading b = false)
    (last : ∀ b ∈ value.getLast?, isTrailing b = false) (some : value ≠ []) :
    stripped (before ++ value ++ after) = value := by
  have left : (before ++ value ++ after).dropWhile isLeading = value ++ after := by
    rw [List.append_assoc, List.dropWhile_append_of_pos leading]
    obtain ⟨b, rest, rfl⟩ := List.exists_cons_of_ne_nil some
    rw [List.cons_append, List.dropWhile_cons_of_neg (by simp [first b rfl])]
  rw [stripped, left]
  clear left
  induction after using List.reverseRecOn with
  | nil =>
    rw [List.append_nil, List.rdropWhile_eq_self_iff]
    intro some
    simp [last _ (List.getLast?_eq_some_getLast some)]
  | append_singleton after b ih =>
    rw [← List.append_assoc, List.rdropWhile_concat_pos _ _ _ (trailing b (by simp))]
    exact ih fun b member => trailing b (by simp [member])

/-- A glob between spaces or quotes is read as it is, with no escapes in it and no quotes at its ends. -/
theorem plainly_between {it : Item} (some : it.scalar.value ≠ []) (short : it.scalar.value.length ≤ 255)
    (gap : ∀ b ∈ it.gap, b = 32) (tail : ∀ b ∈ it.tail, isTrailing b = true)
    (first : ∀ b ∈ it.scalar.value.head?, isLeading b = false) (last : ∀ b ∈ it.scalar.value.getLast?, isTrailing b = false)
    (escape : ∀ b ∈ it.scalar.value, b ≠ 34 ∧ b ≠ 39 ∧ b ≠ 92) : it.Plainly := by
  obtain ⟨quote, quotes, text⟩ : ∃ quote, (∀ b ∈ quote, isLeading b = true ∧ isTrailing b = true) ∧
      it.scalar.text = quote ++ it.scalar.value ++ quote := by
    by_cases style : it.scalar.style = .plain
    · exact ⟨[], by simp, by simp [Scalar.text, style, Style.text]⟩
    · obtain ⟨q, esc, text, quote, -, -, plain⟩ := it.scalar.text_quoted style
      have itself : it.scalar.value.flatMap esc = it.scalar.value := flatMap_itself fun b member => plain b (escape b member)
      refine ⟨[q], ?_, by rw [text, itself]⟩
      rcases quote with rfl | rfl <;> simp [isLeading, isTrailing]
  have whole : it.text = (it.gap ++ quote) ++ it.scalar.value ++ (quote ++ it.tail) := by
    rw [Item.text, text]
    simp
  refine ⟨some, ?_⟩
  rw [whole, stripped_between _ _ first last some, List.take_of_length_le short]
  · intro b member
    rcases List.mem_append.mp member with space | quote
    · rw [gap b space]
      rfl
    · exact (quotes b quote).1
  · intro b member
    rcases List.mem_append.mp member with quote | rest
    · exact (quotes b quote).2
    · exact tail b rest

end Sa.RulePaths
