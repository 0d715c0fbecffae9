import Sa.LogicalLines

/-!
# The loop over front matter

What a pass of the loop of `parse_frontmatter` can do, and what a run of it over any
lines keeps: which lines end it, in which of them it looks for a key, and which of the
fields they set.
-/

namespace Sa.FrontMatter
open Sa.CStrings Sa.Rules Sa.Skills Sa.LogicalLines

/-- The loop looks for a key in this line. -/
def readsKey (st : Scan) (line : CString) : Bool :=
  st.in_fm && trim line != cs "---" && !(st.cont.isSome && line.val.head?.any isBlank)

/-- The lines in which it looks for a key. -/
def keyLines : Scan → List Bytes → List Bytes
  | _, [] => []
  | st, line :: lines =>
    (if readsKey st (cstr line) then [line] else []) ++
      match step st (cstr line) with
      | some st => keyLines st lines
      | none => []

/-- The key of a line that holds a field's. -/
def given (t : CString) : Option SkillField :=
  match t.val.dropWhile (· != 58) with
  | [] => none
  | _ :: _ => target (trim (cstr (t.val.takeWhile (· != 58))))

/-- The loop where no block scalar goes on. -/
def outside : Scan := ⟨true, true, none, ⟨cs "", cs "", cs ""⟩⟩

theorem fgets_subset (size : ℕ) (s : Bytes) : ∀ line : Bytes, ∀ p ∈ fgets size line s, ∀ c ∈ p, c ∈ line ∨ c ∈ s := by
  induction s with
  | nil =>
    intro line p member c inside
    rw [fgets] at member
    split_ifs at member
    · cases member
    · exact .inl (List.mem_singleton.mp member ▸ inside)
  | cons d s ih =>
    intro line p member c inside
    rw [fgets] at member
    split_ifs at member
    · rcases List.mem_cons.mp member with rfl | later
      · rcases List.mem_append.mp inside with before | last
        · exact .inl before
        · exact .inr (by simp [List.mem_singleton.mp last])
      · exact .inr (List.mem_cons_of_mem _ ((ih [] p later c inside).resolve_left (by simp)))
    · rcases ih (line ++ [d]) p member c inside with before | later
      · rcases List.mem_append.mp before with first | last
        · exact .inl first
        · exact .inr (by simp [List.mem_singleton.mp last])
      · exact .inr (List.mem_cons_of_mem _ later)

theorem fgets_start {size : ℕ} (s : Bytes) : ∀ line : Bytes, ∀ p ∈ (fgets size line s).head?, line <+: p := by
  induction s with
  | nil =>
    intro line p member
    rw [fgets] at member
    split_ifs at member
    · cases member
    · cases member
      exact List.prefix_rfl
  | cons c s ih =>
    intro line p member
    rw [fgets] at member
    split_ifs at member
    · cases member
      exact List.prefix_append line [c]
    · exact (List.prefix_append line [c]).trans (ih _ p member)

theorem rdropWhile_append_cons {p : UInt8 → Bool} (s : Bytes) {c : UInt8} (stays : p c = false) (t : Bytes) :
    (s ++ c :: t).rdropWhile p = s ++ c :: t.rdropWhile p := by
  induction t using List.reverseRecOn with
  | nil => rw [List.rdropWhile_concat_neg _ _ _ (by simp [stays]), List.rdropWhile_nil]
  | append_singleton t d ih =>
    rw [← List.cons_append, ← List.append_assoc, List.rdropWhile_concat, List.rdropWhile_concat]
    split_ifs
    · exact ih
    · simp

/-- The newline makes no difference. -/
theorem bare_newline (l : Bytes) : bare (l ++ [10]) = bare l := by
  unfold bare
  by_cases blank : l.dropWhile isBlank = []
  · have all : ∀ c ∈ l, isBlank c = true := List.dropWhile_eq_nil_iff.mp blank
    rw [List.dropWhile_append_of_pos all, blank]
    rfl
  · rw [List.dropWhile_append, if_neg (by simpa using blank), List.rdropWhile_concat_pos _ _ _ rfl]

/-- There is nothing but blanks, and they are all taken off the end. -/
theorem ends_of_blank {s : Bytes} (nothing : bare s = []) : s.rdropWhile isEnd = [] := by
  rw [List.rdropWhile_eq_nil_iff]
  rw [bare, List.rdropWhile_eq_nil_iff] at nothing
  intro c member
  rw [← List.takeWhile_append_dropWhile (p := isBlank) (l := s), List.mem_append] at member
  rcases member with blank | rest
  · rw [isEnd, List.mem_takeWhile_imp blank]
    rfl
  · exact nothing c rest

theorem trim_ends {p : Bytes} (ends : ∀ c ∈ p, isEnd c = true) : trim (cstr p) = cs "" := by
  refine Subtype.ext ?_
  change unquote (bare (cstr p).val) = []
  have nothing : bare (cstr p).val = [] := by
    rw [bare, List.rdropWhile_eq_nil_iff]
    exact fun c member => ends c ((List.takeWhile_prefix _).subset ((List.dropWhile_suffix isBlank).subset member))
  rw [nothing, unquote_nil]

/-- A blank line holds no key. -/
theorem keyLine_blank (st : Scan) {t : CString} (blank : t = cs "") : keyLine st t = { st with cont := none } := by
  rw [blank]
  rfl

theorem keyLine_in_fm (st : Scan) (t : CString) : (keyLine st t).in_fm = st.in_fm := by
  unfold keyLine
  simp only
  split
  · rfl
  · split
    · rfl
    · split <;> rfl

/-- The front matter is left with its end only. -/
theorem step_in_fm {st st' : Scan} (in_fm : st.in_fm = true) {line : CString} (went : step st line = some st') :
    st'.in_fm = true := by
  unfold step at went
  simp only [in_fm, Bool.true_eq_false, if_false] at went
  by_cases marker : trim line = cs "---"
  · rw [if_pos marker] at went
    cases went
  · rw [if_neg marker] at went
    split at went
    · have same := Option.some.inj went
      rw [← same]
      split_ifs
      · rfl
      · exact in_fm
    · rw [← Option.some.inj went, keyLine_in_fm]
      exact in_fm

theorem step_inside {st : Scan} (in_fm : st.in_fm = true) (line : CString) :
    step st line = none ↔ trim line = cs "---" := by
  unfold step
  simp only [in_fm, Bool.true_eq_false, if_false]
  by_cases marker : trim line = cs "---"
  · simp [marker]
  · rw [if_neg marker]
    simp only [marker, iff_false]
    split <;> simp

/-- Inside the front matter only a marker ends the loop. -/
theorem run_ends {pieces : List Bytes} : ∀ st : Scan, st.in_fm = true →
    ((∃ st', run st pieces = some st') ↔ ∀ p ∈ pieces, trim (cstr p) ≠ cs "---") := by
  induction pieces with
  | nil => exact fun st _ => ⟨fun _ => by simp, fun _ => ⟨st, rfl⟩⟩
  | cons p pieces ih =>
    intro st in_fm
    rw [run, List.forall_mem_cons, Ne, ← step_inside in_fm]
    cases next : step st (cstr p) with
    | none => simp
    | some st' => simpa using ih st' (step_in_fm in_fm next)

theorem run_in_fm {lines : List Bytes} : ∀ {st st' : Scan}, st.in_fm = true → run st lines = some st' → st'.in_fm = true := by
  induction lines with
  | nil =>
    intro st st' in_fm went
    cases went
    exact in_fm
  | cons l lines ih =>
    intro st st' in_fm went
    rw [run] at went
    cases next : step st (cstr l) with
    | none =>
      rw [next] at went
      cases went
    | some st₁ =>
      rw [next] at went
      exact ih (step_in_fm in_fm next) went

theorem run_append (xs ys : List Bytes) : ∀ st, run st (xs ++ ys) = (run st xs).bind fun st' => run st' ys := by
  induction xs with
  | nil => exact fun _ => rfl
  | cons x xs ih =>
    intro st
    rw [List.cons_append, run, run]
    cases step st (cstr x) with
    | none => rfl
    | some st' => exact ih st'

/-- Where no block scalar goes on, pieces of blanks change nothing. -/
theorem run_nothing {pieces : List Bytes} (ends : ∀ p ∈ pieces, ∀ c ∈ p, isEnd c = true) {st : Scan} (in_fm : st.in_fm = true)
    (cont : st.cont = none) : run st pieces = some st := by
  induction pieces with
  | nil => rfl
  | cons p pieces ih =>
    have blank := trim_ends (ends p (by simp))
    have other : cs "" ≠ cs "---" := by decide
    have next : step st (cstr p) = some st := by
      unfold step
      simp only [in_fm, blank, cont, if_neg other, Bool.true_eq_false, if_false]
      rw [keyLine_blank st rfl, ← cont]
    rw [run, next]
    exact ih fun q member => ends q (by simp [member])

theorem keyLines_subset (st : Scan) (lines : List Bytes) : keyLines st lines ⊆ lines := by
  induction lines generalizing st with
  | nil => exact List.Subset.refl []
  | cons l lines ih =>
    rw [keyLines]
    refine List.append_subset.mpr ⟨?_, ?_⟩
    · split_ifs <;> simp
    · split
      · exact List.Subset.trans (ih _) (List.subset_cons_self l lines)
      · simp

/-- States of the loop that differ in what the other fields hold. -/
structure Alike (among : SkillField → Prop) (st st' : Scan) : Prop where
  in_fm : st.in_fm = st'.in_fm
  cont : st.cont = st'.cont
  same : ∀ field, among field → field.get st.sk = field.get st'.sk

section
variable {among : SkillField → Prop} {st st' : Scan}

theorem Alike.set (alike : Alike among st st') (target : SkillField) {v w : CString} (same : among target → v = w)
    (cont : Option (SkillField × Bool)) :
    Alike among { st with cont := cont, sk := target.set v st.sk } { st' with cont := cont, sk := target.set w st'.sk } := by
  refine ⟨alike.in_fm, rfl, fun field member => ?_⟩
  by_cases here : field = target
  · subst here
    rw [SkillField.get_set, SkillField.get_set, same member]
  · rw [SkillField.get_set_other here, SkillField.get_set_other here, alike.same field member]

/-- A line outside a block scalar. -/
theorem keyLine_alike (in_fm : st.in_fm = st'.in_fm) (same : ∀ field, among field → field.get st.sk = field.get st'.sk)
    (t : CString) : Alike among (keyLine st t) (keyLine st' t) := by
  have alike : Alike among { st with cont := none } { st' with cont := none } := ⟨in_fm, rfl, same⟩
  unfold keyLine
  simp only
  split
  · exact alike
  · split
    · exact alike
    · split
      · exact alike.set _ (fun _ => rfl) _
      · exact alike.set _ (fun _ => rfl) none

theorem step_alike (alike : Alike among st st') (line : CString) : Option.Rel (Alike among) (step st line) (step st' line) := by
  unfold step
  simp only [← alike.in_fm, ← alike.cont]
  by_cases closed : st.in_fm = false
  · simp only [if_pos closed]
    split_ifs
    · exact .some ⟨rfl, rfl, alike.same⟩
    · exact .none
    · exact .some alike
  simp only [if_neg closed]
  by_cases marker : trim line = cs "---"
  · simp only [if_pos marker]
    exact .none
  simp only [if_neg marker]
  split
  · next target fold _ _ =>
    split_ifs
    · have added := alike.set target (v := append_fold target.size (target.get st.sk) (trim line) fold)
        (w := append_fold target.size (target.get st'.sk) (trim line) fold)
        (fun member => by rw [alike.same target member]) st.cont
      exact .some ⟨rfl, rfl, added.same⟩
    · exact .some alike
  · exact .some (keyLine_alike alike.in_fm alike.same _)

end

theorem scan_alike {among : SkillField → Prop} (lines : List Bytes) : ∀ {st st' : Scan}, Alike among st st' →
    Alike among (scan st lines) (scan st' lines) := by
  induction lines with
  | nil => exact fun alike => alike
  | cons line lines ih =>
    intro st st' alike
    have next := step_alike alike (cstr line)
    rw [scan, scan]
    revert next
    cases step st (cstr line) <;> cases step st' (cstr line) <;> intro next
    · exact alike
    · cases next
    · cases next
    · cases next with
      | some next => exact ih next

/-- Which lines are looked at for keys does not hang on what is stored. -/
theorem keyLines_alike {among : SkillField → Prop} (lines : List Bytes) : ∀ {st st' : Scan}, Alike among st st' →
    keyLines st lines = keyLines st' lines := by
  induction lines with
  | nil => exact fun _ => rfl
  | cons line lines ih =>
    intro st st' alike
    have next := step_alike alike (cstr line)
    have reads : readsKey st (cstr line) = readsKey st' (cstr line) := by rw [readsKey, readsKey, alike.in_fm, alike.cont]
    rw [keyLines, keyLines, reads]
    revert next
    cases step st (cstr line) <;> cases step st' (cstr line) <;> intro next
    · rfl
    · cases next
    · cases next
    · cases next with
      | some next => simp only [ih next]

section
variable {field : SkillField}

theorem keyLine_keeps {t : CString} (other : given t ≠ some field) (st : Scan) :
    field.get (keyLine st t).sk = field.get st.sk ∧ ∀ fold, (keyLine st t).cont ≠ some (field, fold) := by
  unfold given at other
  unfold keyLine
  simp only
  cases colon : t.val.dropWhile (· != 58) with
  | nil => simp
  | cons c v =>
    simp only [colon] at other ⊢
    cases found : target (trim (cstr (t.val.takeWhile (· != 58)))) with
    | none => simp
    | some held =>
      have different : field ≠ held := by
        rintro rfl
        exact other found
      simp only
      split
      · refine ⟨SkillField.get_set_other different _ _, fun fold same => ?_⟩
        simp only [Option.some.injEq, Prod.mk.injEq] at same
        exact different same.1.symm
      · exact ⟨SkillField.get_set_other different _ _, by simp⟩

theorem step_keeps {st st' : Scan} (in_fm : st.in_fm = true) (cont : ∀ fold, st.cont ≠ some (field, fold)) {line : CString}
    (other : readsKey st line = true → given (trim line) ≠ some field) (next : step st line = some st') :
    field.get st'.sk = field.get st.sk ∧ ∀ fold, st'.cont ≠ some (field, fold) := by
  unfold step at next
  by_cases marker : trim line = cs "---"
  · simp [in_fm, marker] at next
  simp only [in_fm, if_neg marker, Bool.true_eq_false, if_false] at next
  by_cases inside : st.cont.isSome && line.val.head?.any isBlank
  · rw [Bool.and_eq_true, Option.isSome_iff_exists] at inside
    obtain ⟨⟨⟨held, fold⟩, found⟩, indented⟩ := inside
    have different : field ≠ held := by
      rintro rfl
      exact cont fold found
    simp only [found, indented, Option.some.injEq] at next
    rw [← next]
    split_ifs
    · exact ⟨SkillField.get_set_other different _ _, fun fold' same => cont fold' (found ▸ same)⟩
    · exact ⟨rfl, cont⟩
  · have reads : readsKey st line = true := by simp [readsKey, in_fm, marker, inside]
    have key : st' = keyLine st (trim line) := by
      split at next
      · next found indented => simp [found, indented] at inside
      · exact (Option.some.inj next).symm
    rw [key]
    exact keyLine_keeps (other reads) st

theorem scan_keeps (lines : List Bytes) : ∀ {st : Scan}, st.in_fm = true → (∀ fold, st.cont ≠ some (field, fold)) →
    (∀ l ∈ keyLines st lines, given (trim (cstr l)) ≠ some field) → field.get (scan st lines).sk = field.get st.sk := by
  induction lines with
  | nil => exact fun _ _ _ => rfl
  | cons line lines ih =>
    intro st in_fm cont others
    rw [scan]
    rw [keyLines] at others
    cases next : step st (cstr line) with
    | none => rfl
    | some st' =>
      simp only [next] at others ⊢
      obtain ⟨same, cont'⟩ := step_keeps in_fm cont (fun reads => others line (by simp [reads])) next
      rw [← same]
      exact ih (step_in_fm in_fm next) cont' fun l member => others l (List.mem_append_right _ member)

end

/-- A line without an indent ends the block scalar that goes on before it. -/
theorem scan_outside {st : Scan} (in_fm : st.in_fm = true) {line : Bytes} (start : (cstr line).val.head?.any isBlank = false)
    (lines : List Bytes) : (scan st (line :: lines)).sk = (scan { st with cont := none } (line :: lines)).sk := by
  obtain ⟨_, saw_header, cont, sk⟩ := st
  obtain rfl := in_fm
  have same : step ⟨true, saw_header, cont, sk⟩ (cstr line) = step ⟨true, saw_header, none, sk⟩ (cstr line) := by
    unfold step
    simp only [start, Bool.true_eq_false, if_false]
    split_ifs
    · rfl
    · cases cont <;> rfl
  rw [scan, scan, same]
  cases step ⟨true, saw_header, none, sk⟩ (cstr line) <;> rfl

end Sa.FrontMatter
