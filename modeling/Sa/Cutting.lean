import Sa.Accumulation
import Sa.LogicalLines
import Sa.PrinterGrammar
import Sa.Unicode
import Sa.ValidOutput

/-!
# Cutting text to a field

Names, descriptions and blocks are cut to the size of their buffers by bytes. What
is kept of valid text is valid exactly as long as no cut, of a field or of the
window the file is read through, falls inside a character (`kept_valid_iff`).
-/

namespace Sa.Cutting
open Sa.CStrings Sa.Tinyjson Sa.Parser Sa.Printer Sa.Stream Sa.Rules Sa.Skills Sa.LogicalLines Sa.Accumulation Sa.PrinterGrammar
open Sa.Unicode

/-- The name and the description are UTF-8. -/
def KeptValid (sk : skill_t) : Prop := ∀ field : SkillField, Utf8 (field.get sk).val

/-- What the text in a field takes up, with a separator after it. -/
def used (dst : Bytes) : ℕ := if dst = [] then 0 else dst.length + 1

/-- What a pass of the loop stores: a text, and the number of bytes there is room for. -/
def stored (st : Scan) (line : CString) : Option (CString × ℕ) :=
  let t := trim line
  if st.in_fm = false ∨ t = cs "---" then none
  else
    match st.cont, line.val.head?.any isBlank with
    | some (field, _), true =>
      let taken := used (field.get st.sk).val
      if t = cs "" ∨ field.size ≤ taken + 1 then none else some (t, field.size - taken - 1)
    | _, _ =>
      match t.val.dropWhile (· != 58) with
      | [] => none
      | _ :: v =>
        let val := trim (cstr v)
        if (blockStyle val.val).isSome then none
        else (target (trim (cstr (t.val.takeWhile (· != 58))))).map fun field => (val, field.size - 1)

/-- The strings are valid wherever the loop comes. -/
def SkillKept (file : Bytes) (sk : skill_t) : Prop :=
  ∀ before after st, fgets 2048 [] file = before ++ after → run (start sk) before = some st → KeptValid st.sk

/-- Wherever a pass stores a text, what is left of it, and what follows its line in the file,
    does not begin inside a character. -/
def SkillCuts (file : Bytes) (sk : skill_t) : Prop :=
  ∀ before piece after st v n, fgets 2048 [] file = before ++ piece :: after → run (start sk) before = some st →
    stored st (cstr piece) = some (v, n) →
    Between (v.val.drop n ++ (piece.drop (cstr piece).val.length ++ after.flatten))

/-- The strings of the parsed events are UTF-8. -/
def ValidStrings (events : List Bytes) : Prop :=
  ∀ e ∈ events, ∀ evt, cJSON_Parse e = some evt → AllLeaves (fun _ => True) (fun s => Utf8 s.val) evt

structure BlockValid (b : block_t) : Prop where
  id : Utf8 b.id.val
  name : Utf8 b.name.val
  text : Utf8 b.text.val
  partial_json : Utf8 b.partial_json.val

/-- A string that joins a buffer which has room. -/
def capped (buf s : CString) : List (CString × ℕ) :=
  if buf.val.length < MAX_BLOCK_SIZE then [(s, MAX_BLOCK_SIZE - buf.val.length)] else []

/-- The strings an event stores in a block, each with the number of bytes there is room for. -/
def cuts (b : block_t) : Effect → List (CString × ℕ)
  | .start named => (named.id.toList ++ named.name.toList).map fun s => (s, 63)
  | .text s => capped b.text s
  | .input s => capped b.partial_json s

/-- The state after some events. -/
def after (events : List Bytes) : stream_state_t := events.foldl handle_event initial

/-- The blocks are valid after any of the events. -/
def EventsKept (events : List Bytes) : Prop :=
  ∀ before more, events = before ++ more → ∀ i, BlockValid ((after before).blocks i)

/-- What is left of a string that an event stores does not begin inside a character. -/
def EventCuts (events : List Bytes) : Prop :=
  ∀ before e more, events = before ++ e :: more → ∀ i named, effect i e = some named →
    ∀ c ∈ cuts ((after before).blocks i) named, Between (c.1.val.drop c.2)

/-! ### One pass over a skill -/

theorem keptValid_set {sk : skill_t} (valid : KeptValid sk) (field : SkillField) (value : CString) :
    KeptValid (field.set value sk) ↔ Utf8 value.val := by
  constructor
  · intro all
    simpa using all field
  · intro value other
    by_cases same : other = field
    · simpa [same] using value
    · rw [SkillField.get_set_other same]
      exact valid other

theorem size_large (field : SkillField) : 128 ≤ field.size := by cases field <;> decide

/-- A text joins the field valid when what is taken of it is. -/
theorem append_fold_valid {field : SkillField} {dst t : CString} (valid : Utf8 dst.val) (fold : Bool) :
    Utf8 (append_fold field.size dst t fold).val ↔
      ¬field.size ≤ used dst.val + 1 → Utf8 (t.val.take (field.size - used dst.val - 1)) := by
  have large := size_large field
  change Utf8 (appended field.size dst.val t.val fold) ↔ _
  unfold appended used
  by_cases empty : dst.val = []
  · simp only [empty, List.length_nil, if_true, Nat.zero_add, lt_irrefl, if_false, List.nil_append]
    rw [if_neg (by omega)]
    exact ⟨fun taken _ => taken, fun taken => taken (by omega)⟩
  · have some : 0 < dst.val.length := List.length_pos_of_ne_nil empty
    rw [if_neg empty, if_pos some]
    by_cases full : field.size ≤ dst.val.length + 2
    · rw [if_pos full, ite_self]
      exact iff_of_true valid fun room => absurd full (by omega)
    · rw [if_neg (by omega), if_neg full, utf8_split (by cases fold <;> decide)]
      exact ⟨fun joined _ => joined.2, fun taken => ⟨valid, taken (by omega)⟩⟩

/-- A value stored for a key. -/
theorem keyLine_valid {st : Scan} (t : CString) (valid : KeptValid st.sk) :
    KeptValid (keyLine st t).sk ↔ ∀ v n, (match t.val.dropWhile (· != 58) with
      | [] => none
      | _ :: v =>
        let val := trim (cstr v)
        if (blockStyle val.val).isSome then none
        else (target (trim (cstr (t.val.takeWhile (· != 58))))).map fun field => (val, field.size - 1)) = some (v, n) →
      Utf8 (v.val.take n) := by
  unfold keyLine
  cases colon : t.val.dropWhile (· != 58) with
  | nil => simpa using valid
  | cons c v =>
    cases found : target (trim (cstr (t.val.takeWhile (· != 58)))) with
    | none =>
      simp only [Option.map_none, ite_self]
      exact iff_of_true valid (by simp)
    | some field =>
      cases style : blockStyle (trim (cstr v)).val with
      | some fold =>
        simp only [style, Option.isSome_some, if_true]
        exact iff_of_true ((keptValid_set valid field _).mpr utf8_nil) (by simp)
      | none =>
        simp only [style, Option.isSome_none, Bool.false_eq_true, if_false, Option.map_some, Option.some.injEq, Prod.mk.injEq]
        rw [keptValid_set valid]
        constructor
        · rintro kept _ _ ⟨rfl, rfl⟩
          exact kept
        · exact fun kept => kept _ _ ⟨rfl, rfl⟩

/-- A pass keeps the strings valid just when what it takes of a text is. -/
theorem step_valid {st st' : Scan} {line : CString} (went : step st line = some st') (valid : KeptValid st.sk) :
    KeptValid st'.sk ↔ ∀ v n, stored st line = some (v, n) → Utf8 (v.val.take n) := by
  unfold step at went
  unfold stored
  simp only at went ⊢
  by_cases before : st.in_fm = false
  · have same : st'.sk = st.sk := by
      rw [if_pos before] at went
      split_ifs at went <;> cases went <;> rfl
    rw [same, if_pos (Or.inl before)]
    simpa using valid
  rw [if_neg before] at went
  by_cases ends : trim line = cs "---"
  · rw [if_pos ends] at went
    cases went
  rw [if_neg ends] at went
  rw [if_neg (not_or_intro before ends)]
  cases cont : st.cont with
  | none =>
    rw [cont] at went
    obtain rfl := Option.some.inj went
    exact keyLine_valid _ valid
  | some target =>
    obtain ⟨field, fold⟩ := target
    rw [cont] at went
    cases indented : line.val.head?.any isBlank with
    | false =>
      rw [indented] at went
      obtain rfl := Option.some.inj went
      exact keyLine_valid _ valid
    | true =>
      rw [indented] at went
      simp only at went ⊢
      obtain rfl := Option.some.inj went
      by_cases blank : trim line = cs ""
      · rw [if_pos (Or.inl blank)]
        simpa [blank] using valid
      · simp only [ne_eq, blank, not_false_eq_true, if_true, false_or]
        rw [keptValid_set valid, append_fold_valid (valid field)]
        constructor
        · intro taken v n same
          by_cases full : field.size ≤ used (field.get st.sk).val + 1
          · rw [if_pos full] at same
            cases same
          · rw [if_neg full] at same
            cases same
            exact taken full
        · intro taken room
          exact taken _ _ (if_neg room)

def Ascii (s : Bytes) : Prop := ∀ c ∈ s, c < 0x80

theorem ascii_append {a b : Bytes} (left : Ascii a) (right : Ascii b) : Ascii (a ++ b) := by
  intro c member
  exact (List.mem_append.mp member).elim (left c) (right c)

/-- `bare` takes off ASCII bytes. -/
theorem bare_parts (s : Bytes) : ∃ a b, s = a ++ (bare s ++ b) ∧ Ascii a ∧ Ascii b := by
  have blank : ∀ c : UInt8, isBlank c = true → c < 0x80 := by decide +kernel
  have ending : ∀ c : UInt8, isEnd c = true → c < 0x80 := by decide +kernel
  refine ⟨s.takeWhile isBlank, (s.dropWhile isBlank).rtakeWhile isEnd, ?_, ?_, ?_⟩
  · rw [bare, List.rdropWhile_append_rtakeWhile, List.takeWhile_append_dropWhile]
  · exact fun c member => blank c (List.mem_takeWhile_imp member)
  · exact fun c member => ending c (List.mem_rtakeWhile_imp member)

/-- `unquote` takes off ASCII bytes. -/
theorem unquote_parts (s : Bytes) : ∃ a b, s = a ++ (unquote s ++ b) ∧ Ascii a ∧ Ascii b := by
  unfold unquote
  split_ifs with quoted
  · obtain ⟨long, quotes⟩ := quoted
    match s, long with
    | x :: y :: s, _ =>
      have ends : ∃ last, (y :: s).getLast? = some last := ⟨_, List.getLast?_eq_some_getLast (by simp)⟩
      obtain ⟨last, ends⟩ := ends
      have whole : y :: s = (y :: s).dropLast ++ [last] := by
        obtain ⟨front, front_eq⟩ := List.getLast?_eq_some_iff.mp ends
        rw [front_eq, List.dropLast_concat]
      have marks : x < 0x80 ∧ last < 0x80 := by
        rw [List.getLast?_cons_cons, ends] at quotes
        simp only [List.head?_cons, Option.some.injEq] at quotes
        rcases quotes with ⟨rfl, rfl⟩ | ⟨rfl, rfl⟩ <;> decide
      refine ⟨[x], [last], ?_, by simpa [Ascii] using marks.1, by simpa [Ascii] using marks.2⟩
      rw [List.singleton_append, List.tail_cons, ← whole]
  · exact ⟨[], [], by simp, by simp [Ascii], by simp [Ascii]⟩

/-- `trim` takes off ASCII bytes. -/
theorem trim_parts (s : CString) : ∃ a b, s.val = a ++ ((trim s).val ++ b) ∧ Ascii a ∧ Ascii b := by
  obtain ⟨a, b, outer, left, right⟩ := bare_parts s.val
  obtain ⟨a', b', inner, left', right'⟩ := unquote_parts (bare s.val)
  refine ⟨a ++ a', b' ++ b, ?_, ascii_append left left', ascii_append right' right⟩
  change s.val = a ++ a' ++ (unquote (bare s.val) ++ (b' ++ b))
  conv_lhs => rw [outer, inner]
  simp only [List.append_assoc]

/-- After a boundary, what `trim` leaves begins at one and has ASCII bytes behind it. -/
theorem trim_valid {s : CString} {rest : Bytes} (valid : Utf8 (s.val ++ rest)) :
    ∃ e, Ascii e ∧ Utf8 ((trim s).val ++ (e ++ rest)) := by
  obtain ⟨a, b, parts, left, right⟩ := trim_parts s
  rw [parts, List.append_assoc, List.append_assoc, utf8_ascii_append left] at valid
  exact ⟨b, right, valid⟩

/-- A text that is stored begins at a boundary, and has ASCII bytes between it and what follows the line. -/
theorem stored_stands {st : Scan} {line v : CString} {n : ℕ} (kept : stored st line = some (v, n)) {before rest : Bytes}
    (valid : Utf8 (before ++ (line.val ++ rest))) : ∃ e, Ascii e ∧ Utf8 (v.val ++ (e ++ rest)) := by
  unfold stored at kept
  simp only at kept
  split at kept
  · cases kept
  split at kept
  · next field fold cont indented =>
    split at kept
    · cases kept
    · cases kept
      apply trim_valid
      -- The line begins with a blank.
      cases text : line.val with
      | nil => simp [text] at indented
      | cons c l =>
        have blank : ∀ c : UInt8, isBlank c = true → c < 0x80 := by decide +kernel
        have ascii : c < 0x80 := blank c (by simpa [text] using indented)
        rw [text, List.cons_append, utf8_split ascii] at valid
        exact (utf8_cons ascii).mpr valid.2
  · split at kept
    · cases kept
    · next c w colon =>
      split at kept
      · cases kept
      · obtain ⟨field, -, same⟩ := Option.map_eq_some_iff.mp kept
        cases same
        obtain ⟨a, b, parts, left, right⟩ := trim_parts line
        have split := List.takeWhile_append_dropWhile (p := (· != 58)) (l := (trim line).val)
        have mark : c = 58 := by
          have stop := List.head_dropWhile_not (· != 58) (l := (trim line).val) (by simp [colon])
          simpa [colon] using stop
        rw [colon, mark] at split
        have free : 0 ∉ w := by
          intro nul
          exact (trim line).property (split ▸ List.mem_append_right _ (List.mem_cons_of_mem _ nul))
        have whole : before ++ (line.val ++ rest) =
            (before ++ (a ++ (trim line).val.takeWhile (· != 58))) ++ 58 :: (w ++ (b ++ rest)) := by
          rw [parts]
          conv_lhs => rw [← split]
          simp only [List.append_assoc, List.cons_append]
        rw [whole, utf8_split (by decide)] at valid
        have inner : Utf8 ((cstr w).val ++ (b ++ rest)) := by
          rw [cstr_of_nulFree free]
          exact valid.2
        obtain ⟨e, ascii, stands⟩ := trim_valid inner
        exact ⟨e ++ b, ascii_append ascii right, by simpa using stands⟩

/-- ASCII bytes between two parts of a valid text do not matter for a cut. -/
theorem between_ascii_append {v e rest : Bytes} {n : ℕ} (ascii : Ascii e) (valid : Utf8 (v ++ (e ++ rest))) :
    Between (v.drop n ++ (e ++ rest)) ↔ Between (v.drop n ++ rest) := by
  cases left : v.drop n with
  | cons c s => rfl
  | nil =>
    rw [List.nil_append, List.nil_append]
    rcases List.eq_nil_or_concat e with rfl | ⟨front, c, rfl⟩
    · rfl
    · rw [List.concat_eq_append] at ascii valid ⊢
      have low : c < 0x80 := ascii c (by simp)
      have after : Between rest := by
        have whole : v ++ (front ++ [c] ++ rest) = (v ++ front) ++ c :: rest := by simp
        rw [whole, utf8_split low] at valid
        exact between_valid valid.2
      refine iff_of_true ?_ after
      cases front with
      | nil => exact between_ascii low rest
      | cons d front => exact between_ascii (ascii d (by simp)) _

/-- What is stored is valid just when the rest does not begin inside a character. -/
theorem stored_valid {st : Scan} {piece : Bytes} {v : CString} {n : ℕ} (kept : stored st (cstr piece) = some (v, n))
    {before after : Bytes} (valid : Utf8 (before ++ (piece ++ after))) :
    Utf8 (v.val.take n) ↔ Between (v.val.drop n ++ (piece.drop (cstr piece).val.length ++ after)) := by
  have split : piece = (cstr piece).val ++ piece.drop (cstr piece).val.length := by
    have front : (cstr piece).val <+: piece := List.takeWhile_prefix _
    exact (List.prefix_iff_eq_append.mp front).symm
  rw [split, List.append_assoc] at valid
  obtain ⟨e, ascii, stands⟩ := stored_stands kept valid
  rw [← between_ascii_append ascii stands]
  apply utf8_cut
  rw [← List.append_assoc, List.take_append_drop]
  exact stands

theorem flatten_fgets (size : ℕ) (s : Bytes) : ∀ line, (fgets size line s).flatten = line ++ s := by
  induction s with
  | nil =>
    intro line
    by_cases empty : line = [] <;> simp [fgets, empty]
  | cons c s ih =>
    intro line
    rw [fgets]
    split_ifs <;> simp [ih]

theorem run_snoc (st : Scan) (before : List Bytes) (piece : Bytes) :
    run st (before ++ [piece]) = (run st before).bind fun st => step st (cstr piece) := by
  induction before generalizing st with
  | nil =>
    simp only [List.nil_append, run, Option.bind_some]
    cases step st (cstr piece) <;> rfl
  | cons line before ih =>
    rw [List.cons_append, run, run]
    cases step st (cstr line) with
    | none => rfl
    | some st => exact ih st

theorem start_valid (sk : skill_t) : KeptValid (start sk).sk := by
  intro field
  cases field <;> exact utf8_nil

/-- A pass that stores something goes on. -/
theorem step_of_stored {st : Scan} {line v : CString} {n : ℕ} (kept : stored st line = some (v, n)) :
    ∃ st', step st line = some st' := by
  unfold stored at kept
  simp only at kept
  split at kept
  · cases kept
  · next going =>
    rw [not_or] at going
    unfold step
    simp only [if_neg going.1, if_neg going.2]
    split <;> exact ⟨_, rfl⟩

/-- The strings of a skill are valid throughout just when no cut falls inside a character. -/
theorem skill_kept_iff {file : Bytes} (valid : Utf8 file) (sk : skill_t) : SkillKept file sk ↔ SkillCuts file sk := by
  have place : ∀ {before piece after}, fgets 2048 [] file = before ++ piece :: after →
      Utf8 (before.flatten ++ (piece ++ after.flatten)) := by
    intro before piece after pieces
    have whole := flatten_fgets 2048 file []
    rw [pieces, List.flatten_append, List.flatten_cons, List.nil_append] at whole
    rwa [whole]
  constructor
  · intro kept before piece after st v n pieces went text
    obtain ⟨st', next⟩ := step_of_stored text
    have now := kept before (piece :: after) st pieces went
    have later := kept (before ++ [piece]) after st' (by simpa using pieces) (by rw [run_snoc, went]; exact next)
    exact (stored_valid text (place pieces)).mp ((step_valid next now).mp later v n text)
  · intro cuts before
    -- Each pass goes on from a state with valid strings.
    induction before using List.reverseRecOn with
    | nil =>
      intro after st _ went
      obtain rfl := Option.some.inj went
      exact start_valid sk
    | append_singleton before piece ih =>
      intro after st' pieces went
      rw [run_snoc] at went
      obtain ⟨st, earlier, next⟩ := Option.bind_eq_some_iff.mp went
      have pieces' : fgets 2048 [] file = before ++ piece :: after := by simpa using pieces
      have now := ih (piece :: after) st pieces' earlier
      rw [step_valid next now]
      intro v n text
      exact (stored_valid text (place pieces')).mpr (cuts before piece after st v n pieces' earlier text)

/-- The skill the caller gets is one of the states of the loop. -/
theorem result_kept {file : Bytes} {sk : skill_t} (kept : SkillKept file sk) : KeptValid (parse_frontmatter (some file) sk).2 := by
  have reached : ∀ pieces st before, fgets 2048 [] file = before ++ pieces → run (start sk) before = some st →
      KeptValid (scan st pieces).sk := by
    intro pieces
    induction pieces with
    | nil => exact fun st before whole went => kept before [] st whole went
    | cons piece pieces ih =>
      intro st before whole went
      rw [scan]
      cases next : step st (cstr piece) with
      | none => exact kept before _ st whole went
      | some st' => exact ih st' (before ++ [piece]) (by simpa using whole) (by rw [run_snoc, went]; exact next)
  exact reached _ (start sk) [] rfl rfl

/-! ### Runs over events -/

/-- The strings an effect carries. -/
def carried : Effect → List CString
  | .start named => named.id.toList ++ named.name.toList
  | .text s => [s]
  | .input s => [s]

theorem appendCapped_valid {buf s : CString} (valid : Utf8 buf.val) (whole : Utf8 s.val) :
    Utf8 (appendCapped buf s).val ↔ ∀ c ∈ capped buf s, Between (c.1.val.drop c.2) := by
  have parts := (List.take_append_drop (MAX_BLOCK_SIZE - buf.val.length) s.val).symm
  unfold appendCapped capped
  by_cases room : buf.val.length < MAX_BLOCK_SIZE
  · rw [if_pos room, if_pos room, List.forall_mem_singleton, ← utf8_cut (parts ▸ whole)]
    constructor
    · exact fun joined => utf8_rest valid joined
    · exact fun taken => utf8_append valid taken
  · rw [if_neg room, if_neg room]
    exact iff_of_true valid (by simp)

theorem field_valid {s : Option CString} (whole : ∀ t ∈ s, Utf8 t.val) :
    Utf8 (field 64 s).val ↔ ∀ t ∈ s, Between (t.val.drop 63) := by
  cases s with
  | none => exact iff_of_true utf8_nil (by simp)
  | some t =>
    have parts := (List.take_append_drop 63 t.val).symm
    have cut := utf8_cut (parts ▸ whole t rfl)
    simpa [field, strncpy] using cut

/-- An effect leaves a block valid just when its cuts are between characters. -/
theorem effect_valid {b : block_t} (valid : BlockValid b) {named : Effect} (whole : ∀ s ∈ carried named, Utf8 s.val) :
    BlockValid (applyEffect b named) ↔ ∀ c ∈ cuts b named, Between (c.1.val.drop c.2) := by
  cases named with
  | start named =>
    have ids := field_valid (s := named.id) fun t given => whole t (by simp [carried, Option.mem_def.mp given])
    have names := field_valid (s := named.name) fun t given => whole t (by simp [carried, Option.mem_def.mp given])
    constructor
    · intro kept c member
      simp only [cuts, List.mem_map, List.mem_append, Option.mem_toList] at member
      obtain ⟨t, given | given, rfl⟩ := member
      · exact ids.mp kept.id t given
      · exact names.mp kept.name t given
    · intro between
      refine ⟨ids.mpr fun t given => ?_, names.mpr fun t given => ?_, utf8_nil, utf8_nil⟩
      · exact between (t, 63) (by simp [cuts, Option.mem_def.mp given])
      · exact between (t, 63) (by simp [cuts, Option.mem_def.mp given])
  | text s =>
    have joined := appendCapped_valid valid.text (whole s (by simp [carried]))
    exact ⟨fun kept => joined.mp kept.text, fun between => ⟨valid.id, valid.name, joined.mpr between, valid.partial_json⟩⟩
  | input s =>
    have joined := appendCapped_valid valid.partial_json (whole s (by simp [carried]))
    exact ⟨fun kept => joined.mp kept.partial_json, fun between => ⟨valid.id, valid.name, valid.text, joined.mpr between⟩⟩

/-- A member of a node with valid strings has valid strings. -/
theorem member_valid {item : Option cJSON} (valid : ∀ v ∈ item, AllLeaves (fun _ => True) (fun s => Utf8 s.val) v)
    (key : CString) :
    ∀ v ∈ cJSON_GetObjectItem item key, AllLeaves (fun _ => True) (fun s => Utf8 s.val) v := by
  intro v found
  unfold cJSON_GetObjectItem at found
  split at found
  · next child =>
    obtain ⟨m, first, rfl⟩ := Option.map_eq_some_iff.mp found
    exact (allLeaves_object.mp (valid _ rfl) m (List.mem_of_find?_eq_some first)).2
  · cases found

theorem getString_valid {item : Option cJSON} (valid : ∀ v ∈ item, AllLeaves (fun _ => True) (fun s => Utf8 s.val) v)
    {key : String} {s : CString} (found : getString item key = some s) : Utf8 s.val := by
  have inside := member_valid valid (cs key)
  unfold getString cJSON_GetStringValue at found
  split at found
  · next text here =>
    cases found
    simpa using inside _ here
  · cases found

/-- An event with valid strings carries valid strings. -/
theorem carried_valid {e : Bytes} (valid : ∀ evt, cJSON_Parse e = some evt → AllLeaves (fun _ => True) (fun s => Utf8 s.val) evt)
    {i : Fin MAX_BLOCKS} {named : Effect} (meant : effect i e = some named) : ∀ s ∈ carried named, Utf8 s.val := by
  unfold effect at meant
  obtain ⟨evt, parsed, meant⟩ := Option.bind_eq_some_iff.mp meant
  have tree : ∀ v ∈ some evt, AllLeaves (fun _ => True) (fun s => Utf8 s.val) v := by
    rintro _ ⟨rfl⟩
    exact valid evt parsed
  split_ifs at meant with index start delta
  · cases meant
    have inside := member_valid tree (cs "content_block")
    intro s member
    simp only [carried, List.mem_append, Option.mem_toList] at member
    rcases member with given | given
    · exact getString_valid inside given
    · exact getString_valid inside given
  · have inside := member_valid tree (cs "delta")
    unfold deltaEffect at meant
    split_ifs at meant
    · obtain ⟨t, given, rfl⟩ := Option.map_eq_some_iff.mp meant
      simpa [carried] using getString_valid inside given
    · obtain ⟨t, given, rfl⟩ := Option.map_eq_some_iff.mp meant
      simpa [carried] using getString_valid inside given

theorem after_snoc (before : List Bytes) (e : Bytes) : after (before ++ [e]) = handle_event (after before) e := by
  simp [after]

/-- The blocks are valid throughout just when no cut falls inside a character. -/
theorem events_kept_iff {events : List Bytes} (strings : ValidStrings events) : EventsKept events ↔ EventCuts events := by
  constructor
  · intro kept before e more split i named meant
    have now := kept before (e :: more) split i
    have later := kept (before ++ [e]) more (by simpa using split) i
    rw [after_snoc, handle_event_effect, meant] at later
    exact (effect_valid now (carried_valid (strings e (by simp [split])) meant)).mp later
  · intro between before
    induction before using List.reverseRecOn with
    | nil => exact fun _ _ _ => ⟨utf8_nil, utf8_nil, utf8_nil, utf8_nil⟩
    | append_singleton before e ih =>
      intro more split i
      have split' : events = before ++ e :: more := by simpa using split
      have now := ih (e :: more) split' i
      rw [after_snoc, handle_event_effect]
      cases meant : effect i e with
      | none => exact now
      | some named =>
        exact (effect_valid now (carried_valid (strings e (by simp [split'])) meant)).mpr
          (between before e more split' i named meant)

/-- What the program keeps of a skill and of a reply is UTF-8 in every state just when no cut
    falls inside a character. -/
theorem kept_valid_iff (file : Bytes) (sk : skill_t) (events : List Bytes) (valid : Utf8 file) (strings : ValidStrings events) :
    (SkillKept file sk ∧ EventsKept events) ↔ (SkillCuts file sk ∧ EventCuts events) :=
  and_congr (skill_kept_iff valid sk) (events_kept_iff strings)

/-- A skill whose name has a character of two bytes over the end of the buffer. -/
def longName : Bytes := lit "---\nname: " ++ List.replicate 126 97 ++ [0xC3, 0xA9, 10]

theorem letters_ascii : ∀ b ∈ List.replicate 126 (97 : UInt8), b < 0x80 := by
  intro b member
  rw [List.eq_of_mem_replicate member]
  decide

theorem longName_valid : Utf8 longName := by
  have key : Utf8 (lit "---\nname: ") := utf8_ascii (by decide +kernel)
  have letters : Utf8 (List.replicate 126 97) := utf8_ascii letters_ascii
  have accented : Utf8 [0xC3, 0xA9] := ⟨[Char.ofNat 0xE9], by decide +kernel⟩
  exact utf8_append (utf8_append key letters) ((utf8_concat (by decide)).mpr accented)

/-- An event whose id has one over the end of its buffer. -/
def longId : Bytes :=
  lit "\x7b\"type\":\"content_block_start\",\"index\":0,\"content_block\":\x7b\"id\":\"" ++ List.replicate 62 97 ++
    [0xC3, 0xA9] ++ lit "\"\x7d\x7d"

theorem longId_valid : ValidStrings [longId] := by
  have start : Utf8 (lit "\x7b\"type\":\"content_block_start\",\"index\":0,\"content_block\":\x7b\"id\":\"") :=
    utf8_ascii (by decide +kernel)
  have letters : Utf8 (List.replicate 62 97) := by
    refine utf8_ascii fun b member => ?_
    rw [List.eq_of_mem_replicate member]
    decide
  have accented : Utf8 [0xC3, 0xA9] := ⟨[Char.ofNat 0xE9], by decide +kernel⟩
  have text : Utf8 longId :=
    utf8_append (utf8_append (utf8_append start letters) accented) (utf8_ascii (by decide +kernel))
  -- The printed tree is the text, so its strings are as valid as the text is.
  have printed : (cJSON_Parse longId).map cj_print_value = some longId := by decide +kernel
  intro e member evt parsed
  rw [List.mem_singleton.mp member] at parsed
  rw [parsed] at printed
  exact (ValidOutput.print_utf8_iff evt).mp (Option.some.inj printed ▸ text)

theorem kept_valid_iff_name : Utf8 longName ∧ ValidStrings [longId] ∧
    ((SkillKept longName ⟨cs "", cs "", cs ""⟩ ∧ EventsKept [longId]) ↔
      (SkillCuts longName ⟨cs "", cs "", cs ""⟩ ∧ EventCuts [longId])) :=
  ⟨longName_valid, longId_valid, kept_valid_iff longName _ [longId] longName_valid longId_valid⟩

/-- What is kept of its name ends with half of the character. -/
theorem half_character : ¬∀ (file : Bytes) (sk : skill_t) (events : List Bytes), Utf8 file → ValidStrings events →
    SkillKept file sk ∧ EventsKept events := by
  intro kept
  have skill := result_kept (kept longName ⟨cs "", cs "", cs ""⟩ [] longName_valid (by simp [ValidStrings])).1 .name
  have name : (SkillField.name.get (parse_frontmatter (some longName) ⟨cs "", cs "", cs ""⟩).2).val =
      List.replicate 126 97 ++ [0xC3] := by
    decide +kernel
  rw [name, utf8_ascii_append letters_ascii] at skill
  have inside := (utf8_cut (x := [0xC3]) (y := [0xA9]) ⟨[Char.ofNat 0xE9], by decide +kernel⟩).mp skill
  exact absurd (inside 0xA9 rfl) (by decide)

end Sa.Cutting
