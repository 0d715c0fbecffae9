import Sa.Skills

/-!
# Lines joined in a field

What `append_fold` makes of line after line: the lines joined, as far as they go into
the field (`foldl_holds`).
-/

namespace Sa.Folding
open Sa.CStrings Sa.Skills

def separator (fold : Bool) : UInt8 := if fold then 32 else 10

/-- The lines that are not blank, each without the blanks around it. -/
def nonblank (lines : List Bytes) : List Bytes := (lines.map bare).filter (· ≠ [])

/-- The same with a separator between them. -/
def joined (fold : Bool) (lines : List Bytes) : Bytes := [separator fold].intercalate (nonblank lines)

/-- A text with one more line. -/
def extended (fold : Bool) (text line : Bytes) : Bytes := if text = [] then line else text ++ separator fold :: line

theorem intercalate_concat (sep : Bytes) {texts : List Bytes} (some : texts ≠ []) (t : Bytes) :
    sep.intercalate (texts ++ [t]) = sep.intercalate texts ++ sep ++ t := by
  induction texts with
  | nil => exact absurd rfl some
  | cons first texts ih =>
    cases texts with
    | nil => simp [List.intercalate_cons_cons]
    | cons second texts =>
      rw [List.cons_append, List.cons_append, List.intercalate_cons_cons, List.intercalate_cons_cons, ← List.cons_append,
        ih (by simp)]
      simp

theorem intercalate_some (sep : Bytes) {texts : List Bytes} (some : texts ≠ []) (filled : ∀ t ∈ texts, t ≠ []) :
    sep.intercalate texts ≠ [] := by
  obtain ⟨first, texts, rfl⟩ := List.exists_cons_of_ne_nil some
  have first' := filled first (by simp)
  cases texts with
  | nil => simpa using first'
  | cons second texts => simp [List.intercalate_cons_cons, first']

theorem nonblank_blank (lines : List Bytes) {l : Bytes} (blank : bare l = []) : nonblank (lines ++ [l]) = nonblank lines := by
  simp [nonblank, blank]

theorem nonblank_line (lines : List Bytes) {l : Bytes} (some : bare l ≠ []) :
    nonblank (lines ++ [l]) = nonblank lines ++ [bare l] := by
  simp [nonblank, some]

theorem joined_blank (fold : Bool) (lines : List Bytes) {l : Bytes} (blank : bare l = []) :
    joined fold (lines ++ [l]) = joined fold lines := by
  rw [joined, nonblank_blank lines blank, joined]

theorem joined_line (fold : Bool) (lines : List Bytes) {l : Bytes} (some : bare l ≠ []) :
    joined fold (lines ++ [l]) = extended fold (joined fold lines) (bare l) := by
  rw [joined, nonblank_line lines some, extended, joined]
  by_cases none : nonblank lines = []
  · rw [none, List.nil_append, List.intercalate_singleton, List.intercalate_nil, if_pos rfl]
  · rw [if_neg (intercalate_some _ none fun t member => by simpa using (List.mem_filter.mp member).2),
      intercalate_concat _ none]
    simp

theorem joined_blanks (fold : Bool) {lines : List Bytes} (blank : ∀ l ∈ lines, bare l = []) : joined fold lines = [] := by
  have none : nonblank lines = [] := by
    rw [nonblank, List.filter_eq_nil_iff]
    intro t member
    obtain ⟨l, inside, rfl⟩ := List.mem_map.mp member
    simp [blank l inside]
  rw [joined, none]
  rfl

theorem extended_length (fold : Bool) (text line : Bytes) :
    (extended fold text line).length = if text = [] then line.length else text.length + 1 + line.length := by
  unfold extended
  split_ifs
  · rfl
  · rw [List.length_append, List.length_cons]
    omega

/-- What a line adds to the field. -/
def taken (size : ℕ) (fold : Bool) (dst l : Bytes) : Bytes :=
  if unquote (bare l) = [] then dst else appended size dst (unquote (bare l)) fold

/-- There is a byte for the line after this text and a separator. -/
def Room (size : ℕ) (text : Bytes) : Prop := text = [] ∨ text.length + 2 < size

instance (size : ℕ) (text : Bytes) : Decidable (Room size text) := inferInstanceAs (Decidable (_ ∨ _))

/-- The field holds the text as far as it goes in. -/
structure Holds (size : ℕ) (dst text : Bytes) : Prop where
  start : dst <+: text
  whole : dst = text ∨ size ≤ dst.length + 2

/-- With two bytes to spare it holds all of it. -/
theorem Holds.fits {size : ℕ} {dst text : Bytes} (holds : Holds size dst text) (fits : text.length + 2 ≤ size) : dst = text := by
  rcases holds.whole with same | full
  · exact same
  · exact holds.start.eq_of_length_le (by omega)

theorem prefix_extended (fold : Bool) {text : Bytes} (some : text ≠ []) (line : Bytes) : text <+: extended fold text line := by
  rw [extended, if_neg some]
  exact List.prefix_append _ _

theorem appended_full {size : ℕ} {dst : Bytes} (some : dst ≠ []) (full : size ≤ dst.length + 2) (s : Bytes) (fold : Bool) :
    appended size dst s fold = dst := by
  rw [appended]
  split_ifs with one filled
  · rfl
  · rfl
  · exact absurd (List.eq_nil_of_length_eq_zero (by omega)) some

/-- A line for which there is room goes in as far as it can. -/
theorem appended_room {size : ℕ} (large : 2 < size) {text : Bytes} (room : Room size text) (line : Bytes) (fold : Bool) :
    Holds size (appended size text line fold) (extended fold text line) := by
  by_cases empty : text = []
  · subst empty
    rw [appended, if_neg (by simp only [List.length_nil]; omega), if_neg (by simp), extended, if_pos rfl, List.nil_append]
    refine ⟨List.take_prefix _ _, ?_⟩
    by_cases short : line.length ≤ size - 1
    · exact .inl (List.take_of_length_le (by simpa using short))
    · right
      rw [List.length_take, List.length_nil]
      omega
  · have filled := List.length_pos_of_ne_nil empty
    have place := room.resolve_left empty
    rw [appended, if_neg (by omega), if_pos filled, if_neg (by omega), extended, if_neg empty]
    refine ⟨?_, ?_⟩
    · rw [List.prefix_append_right_inj]
      exact List.cons_prefix_cons.mpr ⟨rfl, List.take_prefix _ _⟩
    by_cases short : line.length ≤ size - (text.length + 1) - 1
    · rw [List.take_of_length_le short]
      exact .inl rfl
    · right
      rw [List.length_append, List.length_cons, List.length_take]
      omega

theorem taken_holds {size : ℕ} (large : 2 < size) {dst text l : Bytes} (fold : Bool) (holds : Holds size dst text)
    (some : bare l ≠ []) (same : Room size text → unquote (bare l) = bare l) :
    Holds size (taken size fold dst l) (extended fold text (bare l)) := by
  by_cases room : dst = text ∧ Room size text
  · obtain ⟨rfl, room⟩ := room
    rw [taken, same room, if_neg some]
    exact appended_room large room (bare l) fold
  · -- The field is full, and stays as it is.
    have full : size ≤ dst.length + 2 := by
      rcases holds.whole with rfl | full
      · have none : ¬Room size dst := fun room' => room ⟨rfl, room'⟩
        exact Nat.le_of_not_lt fun more => none (.inr more)
      · exact full
    have filled : dst ≠ [] := by
      rintro rfl
      simp only [List.length_nil] at full
      omega
    have filled' : text ≠ [] := by
      rintro rfl
      exact filled (List.prefix_nil.mp holds.start)
    have still : taken size fold dst l = dst := by
      rw [taken]
      split_ifs
      · rfl
      · exact appended_full filled full _ fold
    rw [still]
    exact ⟨holds.start.trans (prefix_extended fold filled' (bare l)), .inr full⟩

theorem taken_blank (size : ℕ) (fold : Bool) (dst : Bytes) {l : Bytes} (blank : bare l = []) : taken size fold dst l = dst := by
  rw [taken, blank, if_pos unquote_nil]

/-- Line after line, the field holds the joined text as far as it goes in, if `trim` takes
    no quotes off a line that there is room for. -/
theorem foldl_holds {size : ℕ} (large : 2 < size) (fold : Bool) (lines : List Bytes) : ∀ (before : List Bytes) (dst : Bytes),
    Holds size dst (joined fold before) →
    (∀ between l after, lines = between ++ l :: after → bare l ≠ [] → Room size (joined fold (before ++ between)) →
      unquote (bare l) = bare l) →
    Holds size (lines.foldl (taken size fold) dst) (joined fold (before ++ lines)) := by
  induction lines with
  | nil =>
    intro before dst holds _
    rwa [List.append_nil]
  | cons l lines ih =>
    intro before dst holds plain
    have first : Holds size (taken size fold dst l) (joined fold (before ++ [l])) := by
      by_cases blank : bare l = []
      · rwa [taken_blank size fold dst blank, joined_blank fold before blank]
      · rw [joined_line fold before blank]
        refine taken_holds large fold holds blank fun room => plain [] l lines rfl blank ?_
        rwa [List.append_nil]
    have rest := ih (before ++ [l]) _ first fun between l' after split some room => by
      refine plain (l :: between) l' after (by rw [split, List.cons_append]) some ?_
      rwa [List.append_cons]
    rwa [← List.append_cons] at rest

theorem unquote_length {s : Bytes} (quoted : unquote s ≠ s) : (unquote s).length + 2 = s.length := by
  unfold unquote at quoted ⊢
  split_ifs at quoted ⊢ with quotes
  · rw [List.length_dropLast, List.length_tail]
    omega
  · exact absurd rfl quoted

theorem appended_length (size : ℕ) (dst s : Bytes) (fold : Bool) :
    (appended size dst s fold).length ≤ (extended fold dst s).length := by
  rw [extended_length]
  by_cases empty : dst = []
  · rw [if_pos empty, appended, empty, if_neg (by simp : ¬0 < ([] : Bytes).length)]
    split_ifs
    · exact Nat.zero_le _
    · exact List.length_take_le' _ _
  · have filled := List.length_pos_of_ne_nil empty
    rw [if_neg empty, appended, if_pos filled]
    split_ifs
    · omega
    · omega
    all_goals
      rw [List.length_append, List.length_cons, List.length_take]
      omega

theorem extended_le (fold : Bool) {dst text s line : Bytes} (short : dst.length ≤ text.length) (less : s.length ≤ line.length) :
    (extended fold dst s).length ≤ (extended fold text line).length := by
  rw [extended_length, extended_length]
  by_cases empty : text = []
  · have none : dst = [] := List.eq_nil_of_length_eq_zero (by simpa [empty] using short)
    rwa [if_pos none, if_pos empty]
  · rw [if_neg empty]
    split_ifs <;> omega

theorem extended_lt (fold : Bool) {dst text s line : Bytes} (short : dst.length ≤ text.length) (less : s.length ≤ line.length)
    (strict : s.length < line.length ∨ dst.length < text.length) :
    (extended fold dst s).length < (extended fold text line).length := by
  rw [extended_length, extended_length]
  by_cases empty : text = []
  · have none : dst = [] := List.eq_nil_of_length_eq_zero (by simpa [empty] using short)
    rw [if_pos none, if_pos empty]
    exact strict.resolve_right (by simp [none, empty])
  · rw [if_neg empty]
    split_ifs <;> omega

/-- The field is no longer than the text, and shorter once quotes are taken off a line. -/
theorem taken_length (size : ℕ) (fold : Bool) {dst text l : Bytes} (short : dst.length ≤ text.length) (some : bare l ≠ []) :
    (taken size fold dst l).length ≤ (extended fold text (bare l)).length ∧
      (unquote (bare l) ≠ bare l ∨ dst.length < text.length →
        (taken size fold dst l).length < (extended fold text (bare l)).length) := by
  by_cases none : unquote (bare l) = []
  · have strict : dst.length < (extended fold text (bare l)).length := by
      have filled := List.length_pos_of_ne_nil some
      rw [extended_length]
      split_ifs with empty
      · rw [empty] at short
        exact short.trans_lt filled
      · omega
    rw [taken, if_pos none]
    exact ⟨strict.le, fun _ => strict⟩
  · have grown := appended_length size dst (unquote (bare l)) fold
    rw [taken, if_neg none]
    have less : (unquote (bare l)).length ≤ (bare l).length := by
      by_cases quoted : unquote (bare l) = bare l
      · rw [quoted]
      · have two := unquote_length quoted
        omega
    refine ⟨grown.trans (extended_le fold short less), fun strict => grown.trans_lt (extended_lt fold short less ?_)⟩
    rcases strict with quoted | shorter
    · have two := unquote_length quoted
      exact .inl (by omega)
    · exact .inr shorter

theorem foldl_length (size : ℕ) (fold : Bool) (lines : List Bytes) : ∀ (before : List Bytes) (dst : Bytes),
    dst.length ≤ (joined fold before).length →
    (lines.foldl (taken size fold) dst).length ≤ (joined fold (before ++ lines)).length ∧
      (dst.length < (joined fold before).length ∨ (∃ l ∈ lines, unquote (bare l) ≠ bare l) →
        (lines.foldl (taken size fold) dst).length < (joined fold (before ++ lines)).length) := by
  induction lines with
  | nil =>
    intro before dst short
    rw [List.append_nil]
    exact ⟨short, fun strict => strict.elim id (by simp)⟩
  | cons l lines ih =>
    intro before dst short
    rw [List.foldl_cons, List.append_cons]
    by_cases blank : bare l = []
    · rw [taken_blank size fold dst blank]
      have same := joined_blank fold before blank
      obtain ⟨less, strict⟩ := ih (before ++ [l]) dst (by rwa [same])
      refine ⟨less, fun either => strict ?_⟩
      rw [same]
      refine either.imp id ?_
      rintro ⟨l', member, quoted⟩
      rcases List.mem_cons.mp member with rfl | later
      · rw [blank] at quoted
        exact absurd unquote_nil quoted
      · exact ⟨l', later, quoted⟩
    · obtain ⟨first, shorter⟩ := taken_length size fold short blank
      rw [← joined_line fold before blank] at first shorter
      obtain ⟨less, strict⟩ := ih (before ++ [l]) _ first
      refine ⟨less, ?_⟩
      rintro (behind | ⟨l', member, quoted⟩)
      · exact strict (.inl (shorter (.inr behind)))
      · rcases List.mem_cons.mp member with rfl | later
        · exact strict (.inl (shorter (.inl quoted)))
        · exact strict (.inr ⟨l', later, quoted⟩)

end Sa.Folding
