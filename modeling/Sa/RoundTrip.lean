import Sa.PrinterGrammar

/-!
# Parsing undoes printing

A printed node with finite numbers reads back as the node with its numbers
reread (`parse_printed`), and integers within 53 bits are reread as themselves.
-/

namespace Sa.RoundTrip
open Sa.CStrings Sa.Doubles Sa.NumberTexts Sa.Tinyjson Sa.JsonGrammar Sa.JsonTexts Sa.DecimalTexts Sa.Parser
open Sa.ParserGrammar Sa.Printer Sa.PrinterGrammar

private theorem numChar_noControl : ∀ b : UInt8, isNumChar b = true → 32 ≤ b := by decide +kernel

theorem print_number_noControl (d : Double) : NoControl (cj_print_number d) := by
  have number : ∀ {n : Bytes}, Number n → NoControl n := fun spelled b member =>
    numChar_noControl b ((number_like spelled).1 b member)
  unfold cj_print_number
  split
  · exact number (fmt_lld_number _)
  · cases d with
    | finite q => exact number (fmt_g_spec q).1
    | inf negative =>
      rw [fmt_g]
      cases negative <;> exact List.forall_iff_forall_mem.mp (by decide)

private theorem noControl_append {a b : Bytes} : NoControl (a ++ b) ↔ NoControl a ∧ NoControl b := by
  simp [NoControl, or_imp, forall_and]

private theorem noControl_cons {a : UInt8} {b : Bytes} : NoControl (a :: b) ↔ 32 ≤ a ∧ NoControl b := by
  simp [NoControl]

private theorem noControl_commaSep {xs : List Bytes} (all : ∀ x ∈ xs, NoControl x) : NoControl (commaSep xs) := by
  induction xs with
  | nil => intro b member; cases member
  | cons x xs ih =>
    by_cases last : xs = []
    · subst last
      exact all x (by simp)
    · rw [commaSep_cons_ne last, noControl_append, noControl_cons]
      exact ⟨all x (by simp), by decide, ih fun y member => all y (by simp [member])⟩

private theorem print_string_noControl (s : CString) : NoControl (cj_print_string s) := by
  rw [cj_print_string, noControl_cons, noControl_append]
  exact ⟨by decide, printed_noControl s.val, List.forall_iff_forall_mem.mp (by decide)⟩

/-- The printer puts no control byte, whatever it prints. -/
theorem print_noControl (v : cJSON) : NoControl (cj_print_value v) := by
  induction v with
  | null => exact List.forall_iff_forall_mem.mp (by decide)
  | true => exact List.forall_iff_forall_mem.mp (by decide)
  | false => exact List.forall_iff_forall_mem.mp (by decide)
  | number d => exact print_number_noControl d
  | string s => exact print_string_noControl s
  | array xs ih =>
    rw [print_array, noControl_cons, noControl_append]
    refine ⟨by decide, noControl_commaSep ?_, List.forall_iff_forall_mem.mp (by decide)⟩
    intro text member
    obtain ⟨x, inside, rfl⟩ := List.mem_map.mp member
    exact ih x inside
  | object ms ih =>
    rw [print_object, noControl_cons, noControl_append]
    refine ⟨by decide, noControl_commaSep ?_, List.forall_iff_forall_mem.mp (by decide)⟩
    intro text member
    obtain ⟨m, inside, rfl⟩ := List.mem_map.mp member
    rw [printedMember, noControl_append, noControl_cons]
    exact ⟨print_string_noControl m.1, by decide, ih m inside⟩

theorem print_nulFree (v : cJSON) : 0 ∉ cj_print_value v := fun member => absurd (print_noControl v 0 member) (by decide)
theorem print_noNewline (v : cJSON) : 10 ∉ cj_print_value v := fun member => absurd (print_noControl v 10 member) (by decide)

@[simp] theorem cstr_print (v : cJSON) : (cstr (cj_print_value v)).val = cj_print_value v :=
  cstr_of_nulFree (print_nulFree v)

theorem parse_printed {v : cJSON} (finite : FiniteNumbers v) {r : Bytes} (stops : Stops (printedTree v) r) :
    cj_parse_value (cj_print_value v ++ r) = some (reread v, r) := by
  have text := printed finite
  exact parse_iff.mpr ⟨[], _, _, rfl, (by intro b member; cases member), text.derives, text.short, text.value.symm, stops⟩

theorem stops_nil (t : Tree) : Stops t [] := by rintro - b ⟨⟩

/-- A double that is an integer within 53 bits. -/
def IsInteger (d : Double) : Prop := ∃ z bits, d = ofInt z bits

/-- Every number of a node is such an integer. -/
def Integral (v : cJSON) : Prop := AllLeaves IsInteger (fun _ => True) v

theorem finite_of_integral {v : cJSON} (integral : Integral v) : FiniteNumbers v := by
  unfold FiniteNumbers Integral at *
  induction v with
  | number d =>
    obtain ⟨z, bits, rfl⟩ := allLeaves_number.mp integral
    exact .number ⟨_, rfl⟩
  | array xs ih => exact .array fun x member => ih x member (allLeaves_array.mp integral x member)
  | object ms ih =>
    exact .object (fun _ _ => trivial) fun m member => ih m member (allLeaves_object.mp integral m member).2
  | _ => simp

theorem reread_integral {v : cJSON} (integral : Integral v) : reread v = v := by
  unfold Integral at integral
  induction v with
  | number d =>
    obtain ⟨z, bits, rfl⟩ := allLeaves_number.mp integral
    rw [reread, strtod_print_ofInt]
  | array xs ih =>
    rw [reread_array]
    congr 1
    conv_rhs => rw [← List.map_id xs]
    exact List.map_congr_left fun x member => ih x member (allLeaves_array.mp integral x member)
  | object ms ih =>
    rw [reread_object]
    congr 1
    conv_rhs => rw [← List.map_id ms]
    refine List.map_congr_left fun m member => ?_
    simp only [ih m member (allLeaves_object.mp integral m member).2, id]
  | _ => simp [reread]

/-- Printing and parsing give the node back, from the whole text, on one line. -/
theorem parse_print (v : cJSON) (integral : Integral v) :
    cJSON_Parse (cJSON_PrintUnformatted v) = some v ∧
      cj_parse_value (cJSON_PrintUnformatted v) = some (v, []) ∧ 10 ∉ cJSON_PrintUnformatted v := by
  have read : cj_parse_value (cj_print_value v) = some (v, []) := by
    have whole := parse_printed (finite_of_integral integral) (stops_nil (printedTree v))
    rwa [List.append_nil, reread_integral integral] at whole
  refine ⟨?_, read, print_noNewline v⟩
  rw [cJSON_Parse, cJSON_PrintUnformatted, cstr_print, read]
  rfl

theorem parse_print_message :
    let v := cJSON.object [(cs "k\n", .array [.number (ofInt (-7) (by decide)), .string (cs "\x01\"\\"), .null])]
    cJSON_Parse (cJSON_PrintUnformatted v) = some v ∧
      cj_parse_value (cJSON_PrintUnformatted v) = some (v, []) ∧ 10 ∉ cJSON_PrintUnformatted v :=
  parse_print _ (by
    simp only [Integral, allLeaves_object, allLeaves_array, List.forall_mem_cons]
    exact ⟨⟨trivial, .number ⟨-7, _, rfl⟩, .string trivial, .null, by simp⟩, by simp⟩)

end Sa.RoundTrip
