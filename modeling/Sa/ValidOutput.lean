import Sa.RoundTrip
import Sa.TornTexts
import Sa.Unicode

/-!
# When printed text is JSON

A printed node is a JSON text exactly when its numbers are finite, and UTF-8
exactly when its strings are.
-/

namespace Sa.ValidOutput
open Sa.CStrings Sa.Doubles Sa.NumberTexts Sa.Tinyjson Sa.JsonGrammar Sa.JsonTexts Sa.DecimalTexts Sa.Parser
open Sa.Printer Sa.PrinterGrammar Sa.RoundTrip Sa.StuckTexts Sa.TornTexts Sa.Unicode

theorem print_json_iff (v : cJSON) : JsonText (cj_print_value v) ↔ FiniteNumbers v := by
  constructor
  · rintro ⟨w, c, w', t, text, space, ends, derives, -⟩
    by_contra infinite
    obtain ⟨b, s, head, starts⟩ := print_head v
    obtain ⟨b', s', head', starts'⟩ := derives_head derives
    have stuck := stuck_infinite infinite [44]
    have visible : isWs b = false := stuck.visible b (by rw [head]; rfl)
    -- With a comma behind it, the text would be read up to the comma.
    have whole : [] ++ b :: (s ++ [44]) = w ++ b' :: (s' ++ (w' ++ [44])) := by
      rw [head, head'] at text
      simpa using congrArg (· ++ [44]) text
    obtain ⟨rfl, same⟩ := ws_unique (by simp [Ws]) space visible (starts_visible b' starts').1 whole
    refine dead_ne (stuck.dead c t (w' ++ [44]) derives ?_ (stops_of_space ends rfl)) ends (.inl rfl) rfl
    rw [head, head']
    simpa using same
  · intro finite
    have text := printed finite
    exact ⟨[], _, [], _, by simp, by simp [Ws], by simp [Ws], text.derives, text.strict⟩

private theorem numChar_ascii : ∀ b : UInt8, isNumChar b = true → b < 0x80 := by decide +kernel

theorem print_number_utf8 (d : Double) : Utf8 (cj_print_number d) := by
  cases d with
  | finite q =>
    have number := (print_number_spec ⟨q, rfl⟩).1
    exact utf8_ascii fun b member => numChar_ascii b ((number_like number).1 b member)
  | inf negative =>
    cases negative <;> exact utf8_ascii (List.forall_iff_forall_mem.mp (by decide +kernel))

private theorem printByte_high : ∀ b : UInt8, 0x80 ≤ b → printByte b = [b] := by decide +kernel
private theorem printByte_low : ∀ b : UInt8, b < 0x80 →
    printByte b ≠ [] ∧ (printByte b).all (fun c => decide (c < 0x80)) = true := by decide +kernel

theorem print_string_utf8 (s : CString) : Utf8 (cj_print_string s) ↔ Utf8 s.val := by
  rw [cj_print_string, utf8_cons (by decide), utf8_concat (by decide), utf8_escape printByte_high]
  intro b ascii
  obtain ⟨some, low⟩ := printByte_low b ascii
  exact ⟨some, fun c member => of_decide_eq_true (List.all_eq_true.mp low c member)⟩

private theorem commaSep_utf8 (xs : List Bytes) : Utf8 (commaSep xs) ↔ ∀ x ∈ xs, Utf8 x := by
  induction xs with
  | nil => simp [commaSep, utf8_nil]
  | cons x xs ih =>
    by_cases last : xs = []
    · simp [last, commaSep]
    · rw [commaSep_cons_ne last, utf8_split (by decide), ih, List.forall_mem_cons]

theorem print_utf8_iff (v : cJSON) : Utf8 (cj_print_value v) ↔ AllLeaves (fun _ => True) (fun s => Utf8 s.val) v := by
  induction v with
  | number d => simpa [cj_print_value] using print_number_utf8 d
  | string s => simpa [cj_print_value] using print_string_utf8 s
  | array xs ih =>
    rw [print_array, utf8_cons (by decide), utf8_concat (by decide), commaSep_utf8, allLeaves_array, List.forall_mem_map]
    exact forall₂_congr ih
  | object ms ih =>
    rw [print_object, utf8_cons (by decide), utf8_concat (by decide), commaSep_utf8, allLeaves_object, List.forall_mem_map]
    refine forall₂_congr fun m member => ?_
    rw [printedMember, utf8_split (by decide), print_string_utf8, ih m member]
  | null => exact iff_of_true (utf8_ascii (List.forall_iff_forall_mem.mp (by decide))) .null
  | true => exact iff_of_true (utf8_ascii (List.forall_iff_forall_mem.mp (by decide))) .true
  | false => exact iff_of_true (utf8_ascii (List.forall_iff_forall_mem.mp (by decide))) .false

theorem allLeaves_and {N : Double → Prop} {S : CString → Prop} (v : cJSON) :
    AllLeaves N S v ↔ AllLeaves N (fun _ => True) v ∧ AllLeaves (fun _ => True) S v := by
  induction v with
  | array xs ih => simp only [allLeaves_array, ← forall₂_and]; exact forall₂_congr ih
  | object ms ih =>
    simp only [allLeaves_object, ← forall₂_and, true_and]
    refine forall₂_congr fun m member => ?_
    rw [ih m member]
    tauto
  | _ => simp

/-- What is printed is JSON in UTF-8 exactly when every number of the node is
    finite and every string and key is UTF-8. -/
theorem print_valid_iff (v : cJSON) :
    JsonText (cJSON_PrintUnformatted v) ∧ Utf8 (cJSON_PrintUnformatted v) ↔
      AllLeaves IsFinite (fun s => Utf8 s.val) v := by
  rw [cJSON_PrintUnformatted, print_json_iff, print_utf8_iff, FiniteNumbers, ← allLeaves_and]

/-- A number that overflows is parsed as an infinity and printed as `inf`. -/
theorem print_overflow : ¬ ∀ (text : CString) (v : cJSON), cJSON_Parse text.val = some v →
    JsonText (cJSON_PrintUnformatted v) ∧ Utf8 (cJSON_PrintUnformatted v) := by
  intro valid
  have printed : (cJSON_Parse (cs "1e999").val).map cJSON_PrintUnformatted = some (lit "inf") := by decide +kernel
  obtain ⟨v, parsed, text⟩ := Option.map_eq_some_iff.mp printed
  obtain ⟨w, c, w', t, split, space, -, derives, -⟩ := (valid _ v parsed).1
  obtain ⟨b, s, rfl, starts⟩ := derives_head derives
  have visible := (starts_visible b starts).1
  have bytes : lit "inf" = [105, 110, 102] := by decide
  rw [text, bytes] at split
  have whole : [] ++ 105 :: [110, 102] = w ++ b :: (s ++ w') := by simpa using split
  obtain ⟨-, same⟩ := ws_unique (by simp [Ws]) space (by decide) visible whole
  rw [← (List.cons.inj same).1] at starts
  cases starts

end Sa.ValidOutput
