import Sa.ParserGrammar
import Sa.Session

/-!
# Readings of a text

A reading splits a text into whitespace, the text of a tree and a rest. There is
at most one, so what the parser accepts beyond the RFC is what the tokens and
the rest of that reading are, and a text that ends inside its tree has none. It
is by this reading that `session_load` knows a malformed line
(`malformed_skipped_iff`).
-/

namespace Sa.Readings
open Sa.CStrings Sa.Tinyjson Sa.JsonGrammar Sa.JsonTexts Sa.Parser Sa.ParserGrammar Sa.Session

/-- `s` begins with whitespace and the text `c` of the tree `t`; `r` is left. -/
structure Reads (s w c : Bytes) (t : Tree) (r : Bytes) : Prop where
  text : s = w ++ c ++ r
  space : Ws w
  derives : Derives c t
  stops : Stops t r

theorem parse_reads {s : Bytes} {v : cJSON} {r : Bytes} :
    cj_parse_value s = some (v, r) ↔ ∃ w c t, Reads s w c t r ∧ Short t ∧ v = interp t := by
  rw [parse_iff]
  constructor
  · rintro ⟨w, c, t, text, space, derives, short, value, stops⟩
    exact ⟨w, c, t, ⟨text, space, derives, stops⟩, short, value⟩
  · rintro ⟨w, c, t, ⟨text, space, derives, stops⟩, short, value⟩
    exact ⟨w, c, t, text, space, derives, short, value, stops⟩

private theorem spaces_unique {s w w' c c' r r' : Bytes} {t t' : Tree} (space : Ws w) (space' : Ws w')
    (derives : Derives c t) (derives' : Derives c' t') (text : s = w ++ c ++ r) (text' : s = w' ++ c' ++ r') :
    w = w' ∧ c ++ r = c' ++ r' := by
  obtain ⟨b, x, rfl, starts⟩ := derives_head derives
  obtain ⟨b', x', rfl, starts'⟩ := derives_head derives'
  refine ws_unique space space' (starts_visible b starts).1 (starts_visible b' starts').1 ?_
  simpa using text.symm.trans text'

/-- A text has one reading. -/
theorem reads_unique {s w w' c c' r r' : Bytes} {t t' : Tree} (one : Reads s w c t r) (other : Reads s w' c' t' r') :
    w = w' ∧ c = c' ∧ t = t' ∧ r = r' := by
  obtain ⟨sameSpace, rest⟩ := spaces_unique one.space other.space one.derives other.derives one.text other.text
  obtain ⟨sameText, sameTree⟩ := derives_unique one.derives _ _ _ _ other.derives rest one.stops other.stops
  refine ⟨sameSpace, sameText, sameTree, ?_⟩
  rw [sameText] at rest
  exact List.append_cancel_left rest

private theorem stops_ws {t : Tree} {w : Bytes} (space : Ws w) : Stops t w := by
  rintro - b head
  exact ws_noNumber b (space b (List.mem_of_mem_head? head))

/-- Where a text is JSON, the parser's reading is the RFC's. -/
theorem jsonText_reading {s w c r : Bytes} {t : Tree} (json : JsonText s) (reads : Reads s w c t r) :
    t.Strict ∧ Ws r := by
  obtain ⟨w', c', end', t', text, space, ends, derives, strict⟩ := json
  obtain ⟨-, -, rfl, rfl⟩ := reads_unique reads ⟨text, space, derives, stops_ws ends⟩
  exact ⟨strict, ends⟩

/-- The text's reading has the tokens of the RFC and ends with whitespace. -/
def ReadStrictly (text : CString) : Prop :=
  ∀ w c t r, Reads text.val w c t r → Short t → t.Strict ∧ Ws r

theorem parsed_iff (text : CString) :
    (cJSON_Parse text.val).isSome ↔ ∃ w c t r, Reads text.val w c t r ∧ Short t := by
  rw [cJSON_Parse, cstr_val, Option.isSome_map, Option.isSome_iff_exists]
  constructor
  · rintro ⟨⟨v, r⟩, read⟩
    obtain ⟨w, c, t, reads, short, -⟩ := parse_reads.mp read
    exact ⟨w, c, t, r, reads, short⟩
  · rintro ⟨w, c, t, r, reads, short⟩
    exact ⟨(interp t, r), parse_reads.mpr ⟨w, c, t, reads, short, rfl⟩⟩

theorem sound_iff (text : CString) : ((cJSON_Parse text.val).isSome → JsonText text.val) ↔ ReadStrictly text := by
  constructor
  · intro sound w c t r reads short
    exact jsonText_reading (sound ((parsed_iff text).mpr ⟨w, c, t, r, reads, short⟩)) reads
  · intro strict parsed
    obtain ⟨w, c, t, r, reads, short⟩ := (parsed_iff text).mp parsed
    obtain ⟨strictTree, ends⟩ := strict w c t r reads short
    exact ⟨w, c, r, t, reads.text, reads.space, ends, reads.derives, strictTree⟩

/-- What `cJSON_Parse` accepts is JSON unless the text reads as a tree with a
    number outside the RFC's grammar or a raw control byte in a string, or goes
    on after the tree with something else than whitespace. -/
theorem accepts_json_iff (text : CString) :
    ((cJSON_Parse text.val).isSome → JsonText text.val) ↔
      ∀ w c t r, Reads text.val w c t r → Short t → t.Strict ∧ Ws r :=
  sound_iff text

theorem readLine_parse {line : Bytes} (some : line ≠ []) : readLine line = cJSON_Parse (cstr line).val := by
  rw [readLine, if_neg some, cJSON_Parse, cJSON_Parse, cstr_val]

/-- A session file's malformed lines are all skipped just when the reading of each of
    its lines is strict. -/
theorem malformed_skipped_iff (file : Bytes) :
    (∀ line ∈ getlines [] file, ¬JsonText (cstr line).val → readLine line = none) ↔
      ∀ line ∈ getlines [] file, line ≠ [] → ReadStrictly (cstr line) := by
  refine forall₂_congr fun line _ => ?_
  by_cases empty : line = []
  · exact iff_of_true (fun _ => by rw [readLine, if_pos empty]) fun some => absurd empty some
  rw [forall_prop_of_true empty, ← sound_iff, readLine_parse empty, ← Option.not_isSome_iff_eq_none]
  exact not_imp_not

/-- Two messages on one line: the second one is not reported. -/
theorem accepts_two_values : ¬ ∀ text : CString, (cJSON_Parse text.val).isSome → JsonText text.val := by
  intro sound
  have text : (cs "[][]").val = [91, 93, 91, 93] := by decide
  have json := sound (cs "[][]") (by rw [text]; rfl)
  have reads : Reads (cs "[][]").val [] [91, 93] (.array []) [91, 93] :=
    ⟨text, by simp [Ws], .emptyArray (w := []) (by simp [Ws]), by rintro ⟨n, number⟩; cases number⟩
  have ends := (jsonText_reading json reads).2
  exact absurd (ends 91 (by simp)) (by decide)

private theorem head_stops : ∀ b : UInt8, b = 91 ∨ b = 123 → ¬(b = 45 ∨ isdigit b = true) := by decide +kernel

theorem stops_of_bracket {b : UInt8} {s r : Bytes} {t : Tree} (bracket : b = 91 ∨ b = 123)
    (derives : Derives (b :: s) t) : Stops t r := by
  rintro ⟨n, rfl⟩
  cases derives with
  | number like =>
    obtain ⟨-, b', s', text, sign⟩ := like
    cases text
    exact absurd sign (head_stops b bracket)

/-- An array or an object. -/
def isContainer : cJSON → Bool
  | .array _ => true
  | .object _ => true
  | _ => false

theorem container_head {c : Bytes} {t : Tree} (derives : Derives c t) (container : isContainer (interp t) = true) :
    ∃ b s, c = b :: s ∧ (b = 91 ∨ b = 123) := by
  cases derives with
  | emptyArray _ => exact ⟨_, _, rfl, .inl rfl⟩
  | array _ _ _ => exact ⟨_, _, rfl, .inl rfl⟩
  | emptyObject _ => exact ⟨_, _, rfl, .inr rfl⟩
  | object _ _ _ => exact ⟨_, _, rfl, .inr rfl⟩
  | _ => simp [interp, isContainer] at container

/-- A text that ends before its array or object does is not accepted. -/
theorem parse_cut {s r : Bytes} {v : cJSON} (read : cj_parse_value s = some (v, r)) (container : isContainer v = true)
    {k : Nat} (inside : k < s.length - r.length) : cj_parse_value (s.take k) = none := by
  obtain ⟨w, c, t, reads, -, rfl⟩ := parse_reads.mp read
  cases early : cj_parse_value (s.take k) with
  | none => rfl
  | some result =>
    obtain ⟨v', r'⟩ := result
    obtain ⟨w', c', t', reads', -, -⟩ := parse_reads.mp early
    -- The early reading is a reading of the whole text as well.
    have whole : s = w' ++ c' ++ (r' ++ s.drop k) := by
      conv_lhs => rw [← List.take_append_drop k s, reads'.text]
      simp
    obtain ⟨b, x, text, bracket⟩ := container_head reads.derives container
    obtain ⟨sameSpace, rest⟩ := spaces_unique reads.space reads'.space reads.derives reads'.derives reads.text whole
    obtain ⟨b', x', rfl, -⟩ := derives_head reads'.derives
    have sameHead : b' = b := by rw [text] at rest; simp at rest; exact rest.1.symm
    obtain ⟨sameText, -⟩ := derives_unique reads.derives _ _ _ _ reads'.derives rest reads.stops
      (stops_of_bracket (sameHead ▸ bracket) reads'.derives)
    have fits := congrArg List.length reads'.text
    have total := congrArg List.length reads.text
    rw [sameSpace, sameText] at total
    simp only [List.length_append, List.length_take] at fits total
    omega

/-- A text that ends after its array or object gives the same. -/
theorem parse_extend {s r : Bytes} {v : cJSON} (read : cj_parse_value s = some (v, r)) (container : isContainer v = true)
    {k : Nat} (after : s.length - r.length ≤ k) : ∃ r', cj_parse_value (s.take k) = some (v, r') := by
  obtain ⟨w, c, t, reads, short, rfl⟩ := parse_reads.mp read
  obtain ⟨b, x, text, bracket⟩ := container_head reads.derives container
  have total := congrArg List.length reads.text
  simp only [List.length_append] at total
  have taken : s.take k = w ++ c ++ r.take (k - (w ++ c).length) := by
    conv_lhs => rw [reads.text]
    rw [List.take_append, List.take_of_length_le (by simp only [List.length_append]; omega)]
  refine ⟨_, parse_reads.mpr ⟨w, c, t, ⟨taken, reads.space, reads.derives, ?_⟩, short, rfl⟩⟩
  rw [text] at reads
  exact stops_of_bracket bracket reads.derives

/-- What follows an array or an object does not change it. -/
theorem parse_append {s r : Bytes} {v : cJSON} (read : cj_parse_value s = some (v, r)) (container : isContainer v = true)
    (x : Bytes) : cj_parse_value (s ++ x) = some (v, r ++ x) := by
  obtain ⟨w, c, t, reads, short, rfl⟩ := parse_reads.mp read
  obtain ⟨b, y, rfl, bracket⟩ := container_head reads.derives container
  refine parse_reads.mpr ⟨w, b :: y, t, ⟨?_, reads.space, reads.derives, ?_⟩, short, rfl⟩
  · rw [reads.text, List.append_assoc]
  · exact stops_of_bracket bracket reads.derives

end Sa.Readings
