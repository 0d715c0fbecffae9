import Sa.DecimalTexts
import Sa.ParserGrammar
import Sa.Printer

/-!
# What the printer writes

The printed text of a node with finite numbers spells a syntax tree of the
strict grammar, and that tree reads back as the node with its numbers reread.
-/

namespace Sa.PrinterGrammar
open Sa.CStrings Sa.Doubles Sa.NumberTexts Sa.Tinyjson Sa.JsonGrammar Sa.JsonTexts Sa.DecimalTexts Sa.Parser
open Sa.ParserGrammar Sa.Printer

/-- Every number and every string or key of a node is of a kind. -/
inductive AllLeaves (N : Double → Prop) (S : CString → Prop) : cJSON → Prop where
  | null : AllLeaves N S .null
  | true : AllLeaves N S .true
  | false : AllLeaves N S .false
  | number {d : Double} : N d → AllLeaves N S (.number d)
  | string {s : CString} : S s → AllLeaves N S (.string s)
  | array {xs : List cJSON} : (∀ x ∈ xs, AllLeaves N S x) → AllLeaves N S (.array xs)
  | object {ms : List (CString × cJSON)} : (∀ m ∈ ms, S m.1) → (∀ m ∈ ms, AllLeaves N S m.2) → AllLeaves N S (.object ms)

section
variable {N : Double → Prop} {S : CString → Prop}

@[simp] theorem allLeaves_null : AllLeaves N S .null := .null
@[simp] theorem allLeaves_true : AllLeaves N S .true := .true
@[simp] theorem allLeaves_false : AllLeaves N S .false := .false

@[simp] theorem allLeaves_number {d : Double} : AllLeaves N S (.number d) ↔ N d :=
  ⟨fun all => by cases all; assumption, .number⟩

@[simp] theorem allLeaves_string {s : CString} : AllLeaves N S (.string s) ↔ S s :=
  ⟨fun all => by cases all; assumption, .string⟩

@[simp] theorem allLeaves_array {xs : List cJSON} : AllLeaves N S (.array xs) ↔ ∀ x ∈ xs, AllLeaves N S x :=
  ⟨fun all => by cases all; assumption, .array⟩

@[simp] theorem allLeaves_object {ms : List (CString × cJSON)} :
    AllLeaves N S (.object ms) ↔ ∀ m ∈ ms, S m.1 ∧ AllLeaves N S m.2 := by
  constructor
  · intro all m member
    cases all with
    | object keys values => exact ⟨keys m member, values m member⟩
  · intro all
    exact .object (fun m member => (all m member).1) (fun m member => (all m member).2)

end

def IsFinite (d : Double) : Prop := ∃ q, d = .finite q

/-- Every number of a node is finite. -/
def FiniteNumbers (v : cJSON) : Prop := AllLeaves IsFinite (fun _ => True) v

private theorem printByte_cases : ∀ b : UInt8,
    (b ≠ 34 ∧ b ≠ 92 ∧ printByte b = [b]) ∨
    (∃ e, isShortEscape e = true ∧ shortEscape e = some b ∧ printByte b = [92, e]) ∨
    (∃ h₃ h₄, (hexVal h₃).isSome ∧ (hexVal h₄).isSome ∧ printByte b = [92, 117, 48, 48, h₃, h₄] ∧
      (codepoint 48 48 h₃ h₄).map encodeUtf8 = some [b]) := by
  intro b
  by_cases plain : b ≠ 34 ∧ b ≠ 92 ∧ printByte b = [b]
  · exact .inl plain
  by_cases short : ∃ e, isShortEscape e = true ∧ shortEscape e = some b ∧ printByte b = [92, e]
  · exact .inr (.inl short)
  refine .inr (.inr ⟨hexDigit (b.toNat / 16), hexDigit (b.toNat % 16), ?_⟩)
  revert b
  decide +kernel

/-- The printed body of a string reads back as the string. -/
theorem printed_body (s : Bytes) :
    Body (s.flatMap printByte) ∧ ∀ r, stringLoop (s.flatMap printByte ++ 34 :: r) = some (s, r) := by
  induction s with
  | nil => exact ⟨.nil, fun r => by simp [stringLoop]⟩
  | cons b s ih =>
    obtain ⟨body, read⟩ := ih
    rw [List.flatMap_cons]
    rcases printByte_cases b with ⟨noQuote, noSlash, text⟩ | ⟨e, escape, decoded, text⟩ | ⟨h₃, h₄, d₃, d₄, text, decoded⟩
    · rw [text]
      refine ⟨.raw noQuote noSlash body, fun r => ?_⟩
      rw [List.cons_append, List.nil_append, List.cons_append, stringLoop_raw _ noQuote noSlash, read]
      rfl
    · rw [text]
      refine ⟨.short escape body, fun r => ?_⟩
      simp only [List.cons_append, List.nil_append]
      rw [stringLoop_short _ decoded, read]
      rfl
    · rw [text]
      refine ⟨.unicode (by decide) (by decide) d₃ d₄ body, fun r => ?_⟩
      obtain ⟨cp, digits, utf8⟩ := Option.map_eq_some_iff.mp decoded
      simp only [List.cons_append, List.nil_append, stringLoop, digits, read, utf8, Option.map_some]

theorem unescape_printed (s : Bytes) : unescape (s.flatMap printByte) = s := by
  rw [unescape, (printed_body s).2 []]
  rfl

private theorem printByte_noControl : ∀ b : UInt8, (printByte b).all (fun c => decide (32 ≤ c)) = true := by
  decide +kernel

theorem printed_noControl (s : Bytes) : NoControl (s.flatMap printByte) := by
  intro c member
  obtain ⟨b, -, inside⟩ := List.mem_flatMap.mp member
  exact of_decide_eq_true (List.all_eq_true.mp (printByte_noControl b) c inside)

theorem print_string_eq (s : CString) : cj_print_string s = quoted (s.val.flatMap printByte) := rfl

theorem print_number_spec {d : Double} (finite : IsFinite d) :
    Number (cj_print_number d) ∧ (cj_print_number d).length < 64 ∧ IsFinite (strtod (cj_print_number d)) := by
  obtain ⟨q, rfl⟩ := finite
  unfold cj_print_number
  split
  · have range : (to_llong (.finite q)).natAbs < 10 ^ 19 := by
      unfold to_llong
      simp only
      split <;> omega
    refine ⟨fmt_lld_number _, ?_, ?_⟩
    · have := length_fmt_lld_le range
      omega
    · rw [strtod_fmt_lld]
      apply roundDouble_finite
      have size : |((to_llong (.finite q) : ℤ) : ℚ)| ≤ 10 ^ 19 := by
        have : |to_llong (.finite q)| ≤ 10 ^ 19 := by rw [Int.abs_eq_natAbs]; exact_mod_cast range.le
        exact_mod_cast this
      exact le_trans size llong_le_largest
  · obtain ⟨number, length, read⟩ := fmt_g_spec q
    exact ⟨number, by omega, read⟩

/-- An integer within 53 bits is printed as it is. -/
theorem print_number_ofInt {z : ℤ} (bits : |z| ≤ 2 ^ 53) : cj_print_number (ofInt z bits) = fmt_lld z := by
  have whole : to_llong (ofInt z bits) = z := by
    have := abs_le.mp bits
    simp only [to_llong, ofInt, Rat.num_intCast, Rat.den_intCast, Nat.cast_one, Int.tdiv_one]
    rw [if_pos (by omega)]
  unfold cj_print_number
  rw [whole, if_pos (by rw [roundDouble_representable (representable_int bits)]; rfl)]

theorem strtod_print_ofInt {z : ℤ} (bits : |z| ≤ 2 ^ 53) : strtod (cj_print_number (ofInt z bits)) = ofInt z bits := by
  rw [print_number_ofInt, strtod_fmt_lld, roundDouble_representable (representable_int bits), ofInt]

mutual
/-- The syntax tree that the printer spells. -/
def printedTree : cJSON → Tree
  | .null => .null
  | .true => .true
  | .false => .false
  | .number d => .number (cj_print_number d)
  | .string s => .string (s.val.flatMap printByte)
  | .array xs => .array (printedItems xs)
  | .object ms => .object (printedMembers ms)
def printedItems : List cJSON → List Tree
  | [] => []
  | x :: xs => printedTree x :: printedItems xs
def printedMembers : List (CString × cJSON) → List (Bytes × Tree)
  | [] => []
  | (k, x) :: ms => (k.val.flatMap printByte, printedTree x) :: printedMembers ms
end

mutual
/-- A node with every number read back from its printed text. -/
def reread : cJSON → cJSON
  | .number d => .number (strtod (cj_print_number d))
  | .array xs => .array (rereadItems xs)
  | .object ms => .object (rereadMembers ms)
  | v => v
def rereadItems : List cJSON → List cJSON
  | [] => []
  | x :: xs => reread x :: rereadItems xs
def rereadMembers : List (CString × cJSON) → List (CString × cJSON)
  | [] => []
  | (k, x) :: ms => (k, reread x) :: rereadMembers ms
end

@[simp] theorem printedTree_array (xs : List cJSON) : printedTree (.array xs) = .array (xs.map printedTree) := by
  rw [printedTree]
  congr 1
  induction xs with
  | nil => rfl
  | cons x xs ih => rw [printedItems, ih, List.map_cons]

@[simp] theorem printedTree_object (ms : List (CString × cJSON)) :
    printedTree (.object ms) = .object (ms.map fun m => (m.1.val.flatMap printByte, printedTree m.2)) := by
  rw [printedTree]
  congr 1
  induction ms with
  | nil => rfl
  | cons m ms ih => rw [printedMembers, ih, List.map_cons]

@[simp] theorem reread_array (xs : List cJSON) : reread (.array xs) = .array (xs.map reread) := by
  rw [reread]
  congr 1
  induction xs with
  | nil => rfl
  | cons x xs ih => rw [rereadItems, ih, List.map_cons]

@[simp] theorem reread_object (ms : List (CString × cJSON)) :
    reread (.object ms) = .object (ms.map fun m => (m.1, reread m.2)) := by
  rw [reread]
  congr 1
  induction ms with
  | nil => rfl
  | cons m ms ih => rw [rereadMembers, ih, List.map_cons]

/-- A member as the printer spells it. -/
def printedMember (m : CString × cJSON) : Bytes := cj_print_string m.1 ++ 58 :: cj_print_value m.2

@[simp] theorem print_array (xs : List cJSON) :
    cj_print_value (.array xs) = 91 :: (commaSep (xs.map cj_print_value) ++ [93]) := by
  have items : ∀ xs, printItems xs = commaSep (xs.map cj_print_value) := by
    intro xs
    induction xs with
    | nil => rfl
    | cons x xs ih =>
      cases xs with
      | nil => rfl
      | cons y ys => rw [printItems, ih]; rfl
  rw [cj_print_value, items]

@[simp] theorem print_object (ms : List (CString × cJSON)) :
    cj_print_value (.object ms) = 123 :: (commaSep (ms.map printedMember) ++ [125]) := by
  have members : ∀ ms, printMembers ms = commaSep (ms.map printedMember) := by
    intro ms
    induction ms with
    | nil => rfl
    | cons m ms ih =>
      cases ms with
      | nil => rfl
      | cons n ns => rw [printMembers, ih]; simp [commaSep, printedMember]
  rw [cj_print_value, members]

/-- A printed text spells a strict tree that the parser can hold. -/
structure Printed (v : cJSON) : Prop where
  derives : Derives (cj_print_value v) (printedTree v)
  strict : (printedTree v).Strict
  short : Short (printedTree v)
  value : interp (printedTree v) = reread v
  finite : FiniteNumbers (reread v)

private theorem strict_array {ts : List Tree} (all : ∀ t ∈ ts, t.Strict) : (Tree.array ts).Strict := by
  intro leaf member
  obtain ⟨t, inside, leaf'⟩ := mem_leaves_array.mp member
  exact all t inside leaf leaf'

private theorem strict_object {ms : List (Bytes × Tree)} (all : ∀ m ∈ ms, NoControl m.1 ∧ m.2.Strict) :
    (Tree.object ms).Strict := by
  intro leaf member
  obtain ⟨m, inside, rfl | leaf'⟩ := mem_leaves_object.mp member
  · exact (all m inside).1
  · exact (all m inside).2 leaf leaf'

/-- An item as the printer spells it, without whitespace. -/
def plainItem (v : cJSON) : Item := ⟨[], cj_print_value v, [], printedTree v⟩
def plainMember (m : CString × cJSON) : Member := ⟨[], m.1.val.flatMap printByte, [], plainItem m.2⟩

theorem plainItem_spelled (v : cJSON) : (plainItem v).spelled = cj_print_value v := by
  simp [plainItem, Item.spelled]

theorem plainMember_spelled (m : CString × cJSON) : (plainMember m).spelled = printedMember m := by
  simp [plainMember, plainItem, Member.spelled, Item.spelled, printedMember, print_string_eq]

private theorem ws_nil : Ws [] := by intro b member; cases member

theorem derives_printed_array {xs : List cJSON} (derives : ∀ x ∈ xs, Derives (cj_print_value x) (printedTree x)) :
    Derives (91 :: (commaSep (xs.map cj_print_value) ++ [93])) (.array (xs.map printedTree)) := by
  by_cases none : xs = []
  · subst none
    exact .emptyArray ws_nil
  have spelled : xs.map cj_print_value = (xs.map plainItem).map Item.spelled := by
    simp [plainItem_spelled]
  have trees : xs.map printedTree = (xs.map plainItem).map Item.tree := by simp [plainItem]
  rw [spelled, trees]
  apply Derives.array
  · simpa using none
  · intro i member
    obtain ⟨x, -, rfl⟩ := List.mem_map.mp member
    exact ⟨ws_nil, ws_nil⟩
  · intro i member
    obtain ⟨x, inside, rfl⟩ := List.mem_map.mp member
    exact derives x inside

theorem derives_printed_object {ms : List (CString × cJSON)}
    (derives : ∀ m ∈ ms, Derives (cj_print_value m.2) (printedTree m.2)) :
    Derives (123 :: (commaSep (ms.map printedMember) ++ [125]))
      (.object (ms.map fun m => (m.1.val.flatMap printByte, printedTree m.2))) := by
  by_cases none : ms = []
  · subst none
    exact .emptyObject ws_nil
  have spelled : ms.map printedMember = (ms.map plainMember).map Member.spelled := by
    simp [plainMember_spelled]
  have trees : (ms.map fun m => (m.1.val.flatMap printByte, printedTree m.2)) =
      (ms.map plainMember).map fun m => (m.key, m.item.tree) := by simp [plainMember, plainItem]
  rw [spelled, trees]
  apply Derives.object
  · simpa using none
  · intro i member
    obtain ⟨m, -, rfl⟩ := List.mem_map.mp member
    exact ⟨ws_nil, (printed_body m.1.val).1, ws_nil, ws_nil, ws_nil⟩
  · intro i member
    obtain ⟨m, inside, rfl⟩ := List.mem_map.mp member
    exact derives m inside

theorem printed {v : cJSON} (finite : FiniteNumbers v) : Printed v := by
  unfold FiniteNumbers at finite
  induction v with
  | null => exact ⟨.null, by simp [Tree.Strict, printedTree, Tree.leaves], by simp [Short, printedTree, Tree.leaves], rfl, .null⟩
  | true => exact ⟨.true, by simp [Tree.Strict, printedTree, Tree.leaves], by simp [Short, printedTree, Tree.leaves], rfl, .true⟩
  | false => exact ⟨.false, by simp [Tree.Strict, printedTree, Tree.leaves], by simp [Short, printedTree, Tree.leaves], rfl, .false⟩
  | number d =>
    obtain ⟨number, short, read⟩ := print_number_spec (allLeaves_number.mp finite)
    exact ⟨.number (number_like number), by simpa [Tree.Strict, printedTree, Tree.leaves, Leaf.Strict] using number,
      by simpa [Short, printedTree, Tree.leaves, Leaf.Short] using short, rfl, .number read⟩
  | string s =>
    refine ⟨.string (printed_body s.val).1, ?_, by simp [Short, printedTree, Tree.leaves, Leaf.Short], ?_, .string trivial⟩
    · simpa [Tree.Strict, printedTree, Tree.leaves, Leaf.Strict] using printed_noControl s.val
    · rw [printedTree, interp, unescape_printed, cstr_val, reread]
      all_goals simp
  | array xs ih =>
    have each : ∀ x ∈ xs, Printed x := fun x member => ih x member (allLeaves_array.mp finite x member)
    refine ⟨?_, ?_, ?_, ?_, ?_⟩
    · rw [print_array, printedTree_array]
      exact derives_printed_array fun x member => (each x member).derives
    · rw [printedTree_array]
      exact strict_array (by simpa using fun x member => (each x member).strict)
    · rw [printedTree_array, short_array]
      simpa using fun x member => (each x member).short
    · rw [printedTree_array, interp_array, reread_array, List.map_map]
      congr 1
      exact List.map_congr_left fun x member => (each x member).value
    · simpa [FiniteNumbers] using fun x member => (each x member).finite
  | object ms ih =>
    have each : ∀ m ∈ ms, Printed m.2 := fun m member => ih m member (allLeaves_object.mp finite m member).2
    refine ⟨?_, ?_, ?_, ?_, ?_⟩
    · rw [print_object, printedTree_object]
      exact derives_printed_object fun m member => (each m member).derives
    · rw [printedTree_object]
      apply strict_object
      intro m member
      obtain ⟨m, inside, rfl⟩ := List.mem_map.mp member
      exact ⟨printed_noControl _, (each m inside).strict⟩
    · rw [printedTree_object, short_object]
      intro m member
      obtain ⟨m, inside, rfl⟩ := List.mem_map.mp member
      exact (each m inside).short
    · rw [printedTree_object, interp_object, reread_object, List.map_map]
      congr 1
      refine List.map_congr_left fun m member => ?_
      simp only [Function.comp_apply, unescape_printed, cstr_val, (each m member).value]
    · simp only [FiniteNumbers, reread_object, allLeaves_object, List.mem_map, forall_exists_index, and_imp]
      rintro _ m member rfl
      exact ⟨trivial, (each m member).finite⟩

end Sa.PrinterGrammar
