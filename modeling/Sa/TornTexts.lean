import Sa.PrinterGrammar
import Sa.StuckTexts

/-!
# Torn lines

A printed text that is cut off, or that holds an infinite number, is stuck: no
tree is spelled at its head in a way that could be gone on with. That stays so
when the next line follows the cut without a newline (`Junk`).
-/

namespace Sa.TornTexts
open Sa.CStrings Sa.Doubles Sa.NumberTexts Sa.Tinyjson Sa.JsonGrammar Sa.JsonTexts Sa.DecimalTexts
open Sa.Printer Sa.PrinterGrammar Sa.StuckTexts

private theorem print_inf (negative : Bool) :
    cj_print_number (.inf negative) = if negative then [45, 105, 110, 102] else [105, 110, 102] := by
  cases negative <;> decide +kernel

/-- The bytes that printed values begin with. -/
def startsPrinted (b : UInt8) : Bool := startsValue b || b == 105

private theorem startsPrinted_spec : ∀ b : UInt8, startsPrinted b = true → isWs b = false ∧ b ≠ 93 := by decide +kernel

theorem print_head (v : cJSON) : ∃ b s, cj_print_value v = b :: s ∧ startsPrinted b = true := by
  cases v with
  | number d =>
    cases d with
    | finite q =>
      obtain ⟨number, -, -⟩ := print_number_spec ⟨q, rfl⟩
      obtain ⟨b, s, text, starts⟩ := derives_head (.number (number_like number))
      exact ⟨b, s, by rw [cj_print_value, text], by simp [startsPrinted, starts]⟩
    | inf negative =>
      rw [cj_print_value, print_inf]
      cases negative <;> exact ⟨_, _, rfl, rfl⟩
  | string s => exact ⟨_, _, rfl, rfl⟩
  | array xs => exact ⟨_, _, rfl, rfl⟩
  | object ms => exact ⟨_, _, rfl, rfl⟩
  | null => exact ⟨_, _, rfl, rfl⟩
  | true => exact ⟨_, _, rfl, rfl⟩
  | false => exact ⟨_, _, rfl, rfl⟩

private theorem not_finite {d : Double} (infinite : ¬IsFinite d) : ∃ negative, d = .inf negative := by
  cases d with
  | finite q => exact absurd ⟨q, rfl⟩ infinite
  | inf negative => exact ⟨negative, rfl⟩

/-- Text that begins with `i` or `-i` is stuck. -/
theorem stuck_inf {s : Bytes} (head : (∃ t, s = 105 :: t) ∨ ∃ t, s = 45 :: 105 :: t) : Stuck s := by
  rcases head with ⟨t, rfl⟩ | ⟨t, rfl⟩
  · refine ⟨by intro b head; cases head; rfl, ?_⟩
    intro c tree r derives text
    obtain ⟨b, x, rfl, starts⟩ := derives_head derives
    simp only [List.cons_append, List.cons.injEq] at text
    rw [← text.1] at starts
    cases starts
  · refine ⟨by intro b head; cases head; rfl, ?_⟩
    intro c tree r derives text _
    obtain ⟨b, x, rfl, -⟩ := derives_head derives
    simp only [List.cons_append, List.cons.injEq] at text
    obtain ⟨rfl, text⟩ := text
    obtain ⟨like, -⟩ := derives_number (.inl rfl) derives
    cases x with
    | nil => rw [← show 105 :: t = r from text]; intro b head; cases head; rfl
    | cons y ys =>
      simp only [List.cons_append, List.cons.injEq] at text
      have := like.1 y (by simp)
      rw [← text.1] at this
      cases this

private theorem stuck_unread {s : Bytes} {b : UInt8} (visible : isWs b = false)
    (unread : ∀ c t r, Derives c t → b :: s ≠ c ++ r) : Stuck (b :: s) :=
  ⟨by intro x head; cases head; exact visible, fun c t r derives text _ => absurd text (unread c t r derives)⟩

/-- A printed array or object with an infinite number in it is not read at all. -/
theorem infinite_items {xs : List cJSON} (stuck : ∀ x ∈ xs, ¬FiniteNumbers x → ∀ r, Stuck (cj_print_value x ++ r))
    (some : ∃ x ∈ xs, ¬FiniteNumbers x) (r : Bytes) : StuckItems (commaSep (xs.map cj_print_value) ++ r) := by
  induction xs with
  | nil => simp at some
  | cons x xs ih =>
    by_cases finite : FiniteNumbers x
    · have later : ∃ y ∈ xs, ¬FiniteNumbers y := by simpa [finite] using some
      have more : xs ≠ [] := by rintro rfl; simp at later
      rw [List.map_cons, commaSep_cons_ne (by simpa using more), List.append_assoc, List.cons_append]
      exact .next (printed finite).derives (ih (fun y member => stuck y (by simp [member])) later)
    · have begins : ∃ s, commaSep ((x :: xs).map cj_print_value) ++ r = cj_print_value x ++ s := by
        by_cases last : xs = []
        · exact ⟨r, by simp [last, commaSep]⟩
        · exact ⟨_, by rw [List.map_cons, commaSep_cons_ne (by simpa using last), List.append_assoc]⟩
      obtain ⟨s, text⟩ := begins
      rw [text]
      exact .here (stuck x (by simp) finite s)

theorem infinite_members {ms : List (CString × cJSON)}
    (stuck : ∀ m ∈ ms, ¬FiniteNumbers m.2 → ∀ r, Stuck (cj_print_value m.2 ++ r))
    (some : ∃ m ∈ ms, ¬FiniteNumbers m.2) (r : Bytes) : StuckMembers (commaSep (ms.map printedMember) ++ r) := by
  induction ms with
  | nil => simp at some
  | cons m ms ih =>
    have body := (printed_body m.1.val).1
    by_cases finite : FiniteNumbers m.2
    · have later : ∃ n ∈ ms, ¬FiniteNumbers n.2 := by simpa [finite] using some
      have more : ms ≠ [] := by rintro rfl; simp at later
      rw [List.map_cons, commaSep_cons_ne (by simpa using more), printedMember, print_string_eq, List.append_assoc,
        List.append_assoc, List.cons_append, List.cons_append]
      exact .next body (printed finite).derives (ih (fun n member => stuck n (by simp [member])) later)
    · have begins : ∃ s, commaSep ((m :: ms).map printedMember) ++ r =
          quoted (m.1.val.flatMap printByte) ++ 58 :: (cj_print_value m.2 ++ s) := by
        by_cases last : ms = []
        · exact ⟨r, by simp [last, commaSep, printedMember, print_string_eq]⟩
        · exact ⟨_, by rw [List.map_cons, commaSep_cons_ne (by simpa using last)]; simp [printedMember, print_string_eq]; rfl⟩
      obtain ⟨s, text⟩ := begins
      rw [text]
      exact .value body (stuck m (by simp) finite s)

private theorem items_open {xs : List cJSON} {r : Bytes} (some : xs ≠ []) :
    ∀ b ∈ (commaSep (xs.map cj_print_value) ++ r).head?, b ≠ 93 := by
  obtain ⟨x, rest, rfl⟩ := List.exists_cons_of_ne_nil some
  obtain ⟨b, s, text, starts⟩ := print_head x
  have begins : ∃ s', commaSep ((x :: rest).map cj_print_value) ++ r = b :: s' := by
    by_cases last : rest = []
    · exact ⟨_, by simp [last, commaSep, text]; rfl⟩
    · exact ⟨_, by rw [List.map_cons, commaSep_cons_ne (by simpa using last), text]; rfl⟩
  obtain ⟨s', text'⟩ := begins
  rw [text']
  intro b' head
  cases head
  exact (startsPrinted_spec b starts).2

private theorem some_infinite {ms : List (CString × cJSON)} (infinite : ¬FiniteNumbers (.object ms)) :
    ∃ m ∈ ms, ¬FiniteNumbers m.2 := by
  by_contra none
  exact infinite (allLeaves_object.mpr (by simpa [FiniteNumbers] using none))

/-- A printed text with an infinite number is stuck, whatever follows it. -/
theorem stuck_infinite {v : cJSON} (infinite : ¬FiniteNumbers v) : ∀ r, Stuck (cj_print_value v ++ r) := by
  unfold FiniteNumbers at infinite
  induction v with
  | number d =>
    intro r
    obtain ⟨negative, rfl⟩ := not_finite (mt allLeaves_number.mpr infinite)
    rw [cj_print_value, print_inf]
    cases negative with
    | true => exact stuck_inf (.inr ⟨_, rfl⟩)
    | false => exact stuck_inf (.inl ⟨_, rfl⟩)
  | array xs ih =>
    intro r
    have some : ∃ x ∈ xs, ¬FiniteNumbers x := by
      by_contra none
      exact infinite (allLeaves_array.mpr (by simpa [FiniteNumbers] using none))
    rw [print_array, List.cons_append, List.append_assoc]
    refine stuck_unread rfl (array_unread (infinite_items ih some _) (items_open ?_))
    rintro rfl
    simp at some
  | object ms ih =>
    intro r
    rw [print_object, List.cons_append, List.append_assoc]
    exact stuck_unread rfl (object_unread (infinite_members ih (some_infinite infinite) _))
  | _ => simp at infinite

/-! ### Cuts -/

/-- What may follow a cut: nothing, or the head of another line of the session,
    cut itself or whole. -/
structure Junk (j : Bytes) : Prop where
  head : ∀ b ∈ j.head?, b = 123
  stuck : Stuck j
  body : ∀ b r, Body b → j = b ++ 34 :: r → Dead r

theorem junk_nil : Junk [] := by
  refine ⟨by rintro b ⟨⟩, stuck_nil, ?_⟩
  intro b r _ text
  simp at text

theorem Junk.dead {j : Bytes} (junk : Junk j) : Dead j := by
  intro b head
  rw [junk.head b head]
  rfl

private theorem Junk.ne {j s : Bytes} {b : UInt8} (junk : Junk j) (other : b ≠ 123) : j ≠ b :: s := by
  rintro rfl
  exact other (junk.head b rfl)

private theorem escape_plain : ∀ e : UInt8, isShortEscape e = true → e ≠ 117 ∧ e ≠ 123 := by decide +kernel
private theorem hex_plain : ∀ h : UInt8, (hexVal h).isSome → h ≠ 123 := by decide +kernel

/-- After a backslash, or inside the digits of a `\u`, the cut ends the string's reading. -/
private theorem torn_escape {h j b r : Bytes} (junk : Junk j) (inside : h = [] ∨ ∃ ds, h = 117 :: ds ∧ ds.length < 4)
    (body : Body b) (text : b ++ 34 :: r = 92 :: (h ++ j)) : False := by
  cases body with
  | nil => simp at text
  | raw _ noSlash _ => simp only [List.cons_append, List.cons.injEq] at text; exact noSlash text.1
  | short escape _ =>
    simp only [List.cons_append, List.cons.injEq, true_and] at text
    have plain := escape_plain _ escape
    rcases inside with rfl | ⟨ds, rfl, -⟩
    · exact junk.ne plain.2 text.symm
    · simp only [List.cons_append, List.cons.injEq] at text
      exact plain.1 text.1
  | unicode d₁ d₂ d₃ d₄ _ =>
    simp only [List.cons_append, List.cons.injEq, true_and] at text
    rcases inside with rfl | ⟨ds, rfl, short⟩
    · exact junk.ne (by decide) text.symm
    · simp only [List.cons_append, List.cons.injEq, true_and] at text
      -- The first digit that is missing is the first byte after the cut.
      match ds, short with
      | [], _ => exact junk.ne (hex_plain _ d₁) text.symm
      | [_], _ => simp only [List.cons_append, List.nil_append, List.cons.injEq] at text; exact junk.ne (hex_plain _ d₂) text.2.symm
      | [_, _], _ => simp only [List.cons_append, List.nil_append, List.cons.injEq] at text; exact junk.ne (hex_plain _ d₃) text.2.2.symm
      | [_, _, _], _ => simp only [List.cons_append, List.nil_append, List.cons.injEq] at text; exact junk.ne (hex_plain _ d₄) text.2.2.2.symm

/-- A string that is cut inside its body ends in what follows the cut, if it ends. -/
theorem torn_body {whole p q j b r : Bytes} (body : Body whole) (cut : p ++ q = whole) (junk : Junk j) (body' : Body b)
    (text : b ++ 34 :: r = p ++ j) : Dead r := by
  induction body generalizing p b with
  | nil =>
    obtain ⟨rfl, -⟩ := List.append_eq_nil_iff.mp cut
    exact junk.body b r body' text.symm
  | @raw x s noQuote noSlash _ ih =>
    cases p with
    | nil => exact junk.body b r body' text.symm
    | cons y p =>
      simp only [List.cons_append, List.cons.injEq] at cut
      obtain ⟨rfl, cut⟩ := cut
      cases body' with
      | nil => simp only [List.nil_append, List.cons_append, List.cons.injEq] at text; exact absurd text.1.symm noQuote
      | raw _ _ rest =>
        simp only [List.cons_append, List.cons.injEq] at text
        exact ih cut rest text.2
      | short _ _ => simp only [List.cons_append, List.cons.injEq] at text; exact absurd text.1.symm noSlash
      | unicode _ _ _ _ _ => simp only [List.cons_append, List.cons.injEq] at text; exact absurd text.1.symm noSlash
  | @short e s escape _ ih =>
    match p, cut with
    | [], _ => exact junk.body b r body' text.symm
    | [y], cut =>
      simp only [List.cons_append, List.nil_append, List.cons.injEq] at cut
      obtain ⟨rfl, -⟩ := cut
      exact (torn_escape (h := []) junk (.inl rfl) body' (by simpa using text)).elim
    | y :: z :: p, cut =>
      simp only [List.cons_append, List.cons.injEq] at cut
      obtain ⟨rfl, rfl, cutTail⟩ := cut
      cases body' with
      | nil => simp at text
      | raw _ noSlash _ => simp only [List.cons_append, List.cons.injEq] at text; exact absurd text.1 noSlash
      | short _ rest =>
        simp only [List.cons_append, List.cons.injEq, true_and] at text
        exact ih cutTail rest text.2
      | unicode _ _ _ _ _ =>
        simp only [List.cons_append, List.cons.injEq, true_and] at text
        exact absurd text.1.symm (escape_plain _ escape).1
  | @unicode h₁ h₂ h₃ h₄ s d₁ d₂ d₃ d₄ _ ih =>
    by_cases long : 6 ≤ p.length
    · obtain ⟨p, rfl⟩ : ∃ p', p = 92 :: 117 :: h₁ :: h₂ :: h₃ :: h₄ :: p' := by
        match p, long, cut with
        | a :: b :: c :: d :: e :: f :: p', _, cut => simp_all
      simp only [List.cons_append, List.cons.injEq, true_and] at cut
      cases body' with
      | nil => simp at text
      | raw _ noSlash _ => simp only [List.cons_append, List.cons.injEq] at text; exact absurd text.1 noSlash
      | short escape _ =>
        simp only [List.cons_append, List.cons.injEq, true_and] at text
        exact absurd text.1 (escape_plain _ escape).1
      | unicode _ _ _ _ rest =>
        simp only [List.cons_append, List.cons.injEq, true_and] at text
        exact ih cut rest text.2.2.2.2
    · match p, cut with
      | [], _ => exact junk.body b r body' text.symm
      | [y], cut =>
        simp only [List.cons_append, List.nil_append, List.cons.injEq] at cut
        obtain ⟨rfl, -⟩ := cut
        exact (torn_escape (h := []) junk (.inl rfl) body' (by simpa using text)).elim
      | y :: z :: ds, cut =>
        simp only [List.cons_append, List.cons.injEq] at cut
        obtain ⟨rfl, rfl, -⟩ := cut
        simp only [List.length_cons] at long
        exact (torn_escape (h := 117 :: ds) junk (.inr ⟨ds, rfl, by omega⟩) body' (by simpa using text)).elim

/-- A cut inside a quoted string. -/
theorem torn_quoted {k p q j b r : Bytes} (body : Body k) (cut : p ++ q = quoted k) (some : q ≠ []) (junk : Junk j)
    (body' : Body b) (text : p ++ j = quoted b ++ r) : Dead r := by
  cases p with
  | nil => exact absurd text (junk.ne (b := 34) (by decide))
  | cons x p =>
    simp only [quoted, List.cons_append, List.cons.injEq, List.append_assoc, List.nil_append] at cut text
    -- What is left of the body stands before the closing quote.
    obtain ⟨q, rfl⟩ : ∃ q', q = q' ++ [34] := by
      rcases List.append_eq_append_iff.mp cut.2 with ⟨a, split, rest⟩ | ⟨a, split, rest⟩
      · exact ⟨a, rest⟩
      · cases a with
        | nil => exact ⟨[], by simpa using rest.symm⟩
        | cons y a =>
          simp only [List.cons_append, List.cons.injEq] at rest
          exact absurd (List.append_eq_nil_iff.mp rest.2.symm).2 some
    have cut' : p ++ q = k := by
      rw [← List.append_assoc] at cut
      exact List.append_cancel_right cut.2
    exact torn_body body cut' junk body' text.2.symm

private theorem append_split {p q a b : Bytes} (same : p ++ q = a ++ b) :
    (∃ c, c ≠ [] ∧ p ++ c = a ∧ q = c ++ b) ∨ ∃ c, p = a ++ c ∧ c ++ q = b := by
  rcases List.append_eq_append_iff.mp same with ⟨c, split, rest⟩ | ⟨c, split, rest⟩
  · by_cases none : c = []
    · subst none
      exact .inr ⟨[], by simpa using split.symm, by simpa using rest⟩
    · exact .inl ⟨c, none, split.symm, rest⟩
  · exact .inr ⟨c, split, rest.symm⟩

private theorem stuck_whole {v : cJSON} {j : Bytes} (junk : Junk j) : Stuck (cj_print_value v ++ j) := by
  by_cases finite : FiniteNumbers v
  · exact stuck_after (printed finite).derives junk.dead
  · exact stuck_infinite finite j

theorem torn_items {xs : List cJSON} {j : Bytes} (junk : Junk j)
    (torn : ∀ x ∈ xs, ∀ p q, p ++ q = cj_print_value x → q ≠ [] → Stuck (p ++ j)) {p q : Bytes}
    (cut : p ++ q = commaSep (xs.map cj_print_value) ++ [93]) (some : q ≠ []) : StuckItems (p ++ j) := by
  induction xs generalizing p with
  | nil =>
    have none : p = [] := by
      cases p with
      | nil => rfl
      | cons y p =>
        simp only [commaSep, List.map_nil, List.nil_append, List.cons_append, List.cons.injEq] at cut
        exact absurd (List.append_eq_nil_iff.mp cut.2).2 some
    rw [none, List.nil_append]
    exact .here junk.stuck
  | cons x xs ih =>
    have inside := torn x (by simp)
    by_cases last : xs = []
    · subst last
      rcases append_split (by simpa [commaSep] using cut) with ⟨c, more, text, -⟩ | ⟨c, rfl, rest⟩
      · exact .here (inside p c text more)
      · have none : c = [] := by
          cases c with
          | nil => rfl
          | cons y c =>
            simp only [List.cons_append, List.cons.injEq] at rest
            exact absurd (List.append_eq_nil_iff.mp rest.2).2 some
        rw [none, List.append_nil]
        exact .here (stuck_whole junk)
    · rw [List.map_cons, commaSep_cons_ne (by simpa using last), List.append_assoc, List.cons_append] at cut
      rcases append_split cut with ⟨c, more, text, -⟩ | ⟨c, rfl, rest⟩
      · exact .here (inside p c text more)
      · cases c with
        | nil =>
          rw [List.append_nil]
          exact .here (stuck_whole junk)
        | cons y c =>
          simp only [List.cons_append, List.cons.injEq] at rest
          obtain ⟨rfl, rest⟩ := rest
          by_cases finite : FiniteNumbers x
          · rw [List.append_assoc, List.cons_append]
            exact .next (printed finite).derives (ih (fun z member => torn z (by simp [member])) rest)
          · rw [List.append_assoc]
            exact .here (stuck_infinite finite _)

/-- One member, cut before its end. -/
private theorem torn_member {m : CString × cJSON} {j : Bytes} (junk : Junk j)
    (torn : ∀ p q, p ++ q = cj_print_value m.2 → q ≠ [] → Stuck (p ++ j)) {p q : Bytes}
    (cut : p ++ q = printedMember m) : StuckMembers (p ++ j) := by
  have body := (printed_body m.1.val).1
  rw [printedMember, print_string_eq] at cut
  rcases append_split cut with ⟨c, more, text, -⟩ | ⟨c, rfl, rest⟩
  · refine .key ?_ (fun b r body' text' => torn_quoted body text more junk body' text')
    cases p with
    | nil =>
      intro b head
      rw [junk.head b head]
      decide
    | cons y p =>
      simp only [quoted, List.cons_append, List.cons.injEq] at text
      intro b head
      cases head
      rw [text.1]
      decide
  · cases c with
    | nil =>
      rw [List.append_nil]
      refine .key (by intro b head; cases head; decide) ?_
      intro b r body' text
      simp only [quoted, List.cons_append, List.cons.injEq, List.append_assoc, List.nil_append, true_and] at text
      rw [← (body_unique body body' text).2]
      exact junk.dead
    | cons y c =>
      simp only [List.cons_append, List.cons.injEq] at rest
      obtain ⟨rfl, rest⟩ := rest
      rw [List.append_assoc, List.cons_append]
      refine .value body ?_
      by_cases none : q = []
      · rw [none, List.append_nil] at rest
        rw [rest]
        exact stuck_whole junk
      · exact torn c q rest none

theorem torn_members {ms : List (CString × cJSON)} {j : Bytes} (junk : Junk j)
    (torn : ∀ m ∈ ms, ∀ p q, p ++ q = cj_print_value m.2 → q ≠ [] → Stuck (p ++ j)) {p q : Bytes}
    (cut : p ++ q = commaSep (ms.map printedMember) ++ [125]) (some : q ≠ []) : StuckMembers (p ++ j) := by
  induction ms generalizing p with
  | nil =>
    have none : p = [] := by
      cases p with
      | nil => rfl
      | cons y p =>
        simp only [commaSep, List.map_nil, List.nil_append, List.cons_append, List.cons.injEq] at cut
        exact absurd (List.append_eq_nil_iff.mp cut.2).2 some
    rw [none, List.nil_append]
    refine .key ?_ fun b r _ text => absurd text (junk.ne (b := 34) (by decide))
    intro b head
    rw [junk.head b head]
    decide
  | cons m ms ih =>
    have inside := torn m (by simp)
    by_cases last : ms = []
    · subst last
      rcases append_split (by simpa [commaSep] using cut) with ⟨c, more, text, -⟩ | ⟨c, rfl, rest⟩
      · exact torn_member junk inside text
      · have none : c = [] := by
          cases c with
          | nil => rfl
          | cons y c =>
            simp only [List.cons_append, List.cons.injEq] at rest
            exact absurd (List.append_eq_nil_iff.mp rest.2).2 some
        rw [none, List.append_nil]
        exact torn_member junk inside (List.append_nil _)
    · rw [List.map_cons, commaSep_cons_ne (by simpa using last), List.append_assoc, List.cons_append] at cut
      rcases append_split cut with ⟨c, more, text, -⟩ | ⟨c, rfl, rest⟩
      · exact torn_member junk inside text
      · cases c with
        | nil =>
          rw [List.append_nil]
          exact torn_member junk inside (List.append_nil _)
        | cons y c =>
          simp only [List.cons_append, List.cons.injEq] at rest
          obtain ⟨rfl, rest⟩ := rest
          have body := (printed_body m.1.val).1
          rw [printedMember, print_string_eq, List.append_assoc, List.append_assoc, List.cons_append, List.cons_append]
          by_cases finite : FiniteNumbers m.2
          · exact .next body (printed finite).derives (ih (fun n member => torn n (by simp [member])) rest)
          · exact .value body (stuck_infinite finite _)

/-- A word that holds no brace, cut off. -/
private theorem torn_word {word p q j : Bytes} (noBrace : 123 ∉ word) (cut : p ++ q = word) (some : q ≠ [])
    (junk : Junk j) (r : Bytes) : p ++ j ≠ word ++ r := by
  intro text
  rw [← cut, List.append_assoc] at text
  obtain ⟨b, q, rfl⟩ := List.exists_cons_of_ne_nil some
  have rest := List.append_cancel_left text
  exact junk.ne (by rintro rfl; exact noBrace (by rw [← cut]; simp)) rest

private theorem torn_number {n p q j : Bytes} (like : NumberLike n) (cut : p ++ q = n) (begun : p ≠ []) (junk : Junk j) :
    Stuck (p ++ j) := by
  obtain ⟨all, b, t, head, sign⟩ := like
  obtain ⟨y, p, rfl⟩ := List.exists_cons_of_ne_nil begun
  have same : y = b := by rw [head] at cut; simp at cut; exact cut.1
  refine stuck_after (c := y :: p) (t := .number (y :: p)) (.number ⟨?_, y, p, rfl, same ▸ sign⟩) junk.dead
  intro c member
  exact all c (by rw [← cut]; exact List.mem_append_left _ member)

private theorem torn_object {ms : List (CString × cJSON)} {p q j : Bytes} (junk : Junk j)
    (torn : ∀ m ∈ ms, ∀ p q, p ++ q = cj_print_value m.2 → q ≠ [] → Stuck (p ++ j)) (begun : p ≠ [])
    (cut : p ++ q = cj_print_value (.object ms)) (some : q ≠ []) : ∃ s, p = 123 :: s ∧ StuckMembers (s ++ j) := by
  rw [print_object] at cut
  obtain ⟨y, p, rfl⟩ := List.exists_cons_of_ne_nil begun
  simp only [List.cons_append, List.cons.injEq] at cut
  obtain ⟨rfl, cut⟩ := cut
  exact ⟨p, rfl, torn_members junk torn cut some⟩

/-- A word that is cut off, when no other text begins as it does. -/
private theorem stuck_word {w p q j : Bytes} {b : UInt8} (junk : Junk j) (noBrace : 123 ∉ w)
    (only : ∀ {s t}, Derives (b :: s) t → b :: s = w) (first : w.head? = .some b) (visible : isWs b = false) (begun : p ≠ [])
    (cut : p ++ q = w) (some : q ≠ []) : Stuck (p ++ j) := by
  obtain ⟨y, p, rfl⟩ := List.exists_cons_of_ne_nil begun
  have same : y = b := by rw [← cut] at first; simpa using first
  subst same
  refine stuck_unread visible fun c t r derives text => ?_
  obtain ⟨z, x, rfl, -⟩ := derives_head derives
  obtain ⟨rfl, -⟩ := List.cons.inj text
  refine torn_word noBrace cut some junk r ?_
  rw [← only derives]
  exact text

private theorem torn_double {d : Double} {p q j : Bytes} (junk : Junk j) (begun : p ≠ [])
    (cut : p ++ q = cj_print_value (.number d)) : Stuck (p ++ j) := by
  rw [cj_print_value] at cut
  by_cases finite : IsFinite d
  · exact torn_number (number_like (print_number_spec finite).1) cut begun junk
  · obtain ⟨negative, rfl⟩ := not_finite finite
    rw [print_inf] at cut
    obtain ⟨y, p, rfl⟩ := List.exists_cons_of_ne_nil begun
    cases negative with
    | false =>
      simp only [Bool.false_eq_true, if_false, List.cons_append, List.cons.injEq] at cut
      exact stuck_inf (.inl ⟨p ++ j, by rw [cut.1]; rfl⟩)
    | true =>
      simp only [if_true, List.cons_append, List.cons.injEq] at cut
      obtain ⟨rfl, cut⟩ := cut
      cases p with
      | nil =>
        exact stuck_after (c := [45]) (t := .number [45]) (.number ⟨by simp; rfl, 45, [], rfl, .inl rfl⟩) junk.dead
      | cons z p =>
        simp only [List.cons_append, List.cons.injEq] at cut
        exact stuck_inf (.inr ⟨p ++ j, by rw [cut.1]; rfl⟩)

private theorem torn_string {s : CString} {p q j : Bytes} (junk : Junk j) (begun : p ≠ [])
    (cut : p ++ q = cj_print_value (.string s)) (some : q ≠ []) : Stuck (p ++ j) := by
  rw [cj_print_value, print_string_eq] at cut
  obtain ⟨y, p, rfl⟩ := List.exists_cons_of_ne_nil begun
  have same : y = 34 := by simp only [quoted, List.cons_append, List.cons.injEq] at cut; exact cut.1
  subst same
  refine ⟨by intro b head; cases head; rfl, fun c t r derives text _ => ?_⟩
  obtain ⟨b, x, rfl, -⟩ := derives_head derives
  have head : b = 34 := by simp only [List.cons_append, List.cons.injEq] at text; exact text.1.symm
  subst head
  obtain ⟨b, rfl, body', -⟩ := derives_string derives
  exact torn_quoted (printed_body s.val).1 cut some junk body' text

private theorem torn_array {xs : List cJSON} {p q j : Bytes} (junk : Junk j)
    (torn : ∀ x ∈ xs, ∀ p q, p ++ q = cj_print_value x → q ≠ [] → Stuck (p ++ j)) (begun : p ≠ [])
    (cut : p ++ q = cj_print_value (.array xs)) (some : q ≠ []) : Stuck (p ++ j) := by
  rw [print_array] at cut
  obtain ⟨y, p, rfl⟩ := List.exists_cons_of_ne_nil begun
  simp only [List.cons_append, List.cons.injEq] at cut
  obtain ⟨rfl, cut⟩ := cut
  refine stuck_unread rfl (array_unread (torn_items junk torn cut some) ?_)
  cases p with
  | nil =>
    intro b head
    rw [junk.head b head]
    decide
  | cons z p =>
    intro b head
    cases head
    by_cases none : xs = []
    · subst none
      simp only [commaSep, List.map_nil, List.nil_append, List.cons_append, List.cons.injEq] at cut
      exact absurd (List.append_eq_nil_iff.mp cut.2).2 some
    · exact items_open (r := [93]) none z (by rw [← cut]; rfl)

/-- Nothing before the cut is the text after it. -/
private theorem stuck_cut {whole j : Bytes} (junk : Junk j)
    (begun : ∀ p q, p ≠ [] → p ++ q = whole → q ≠ [] → Stuck (p ++ j)) : ∀ p q, p ++ q = whole → q ≠ [] → Stuck (p ++ j) := by
  intro p q cut some
  by_cases none : p = []
  · rw [none, List.nil_append]
    exact junk.stuck
  · exact begun p q none cut some

/-- A printed text that is cut off is stuck, also where another line follows the cut. -/
theorem stuck_torn {v : cJSON} {j : Bytes} (junk : Junk j) :
    ∀ p q, p ++ q = cj_print_value v → q ≠ [] → Stuck (p ++ j) := by
  induction v with
  | null =>
    exact stuck_cut junk fun p q begun cut some =>
      stuck_word junk (w := lit "null") (b := 110) (by decide) (fun derives => (derives_null derives).1) rfl rfl begun cut some
  | true =>
    exact stuck_cut junk fun p q begun cut some =>
      stuck_word junk (w := lit "true") (b := 116) (by decide) (fun derives => (derives_true derives).1) rfl rfl begun cut some
  | false =>
    exact stuck_cut junk fun p q begun cut some =>
      stuck_word junk (w := lit "false") (b := 102) (by decide) (fun derives => (derives_false derives).1) rfl rfl begun cut some
  | number d => exact stuck_cut junk fun p q begun cut _ => torn_double junk begun cut
  | string s => exact stuck_cut junk fun p q begun cut some => torn_string junk begun cut some
  | array xs ih => exact stuck_cut junk fun p q begun cut some => torn_array junk ih begun cut some
  | object ms ih =>
    refine stuck_cut junk fun p q begun cut some => ?_
    obtain ⟨s, rfl, stuck⟩ := torn_object junk ih begun cut some
    exact stuck_unread rfl (object_unread stuck)

/-- A cut object is not read, also where another line follows the cut. -/
theorem torn_unread {ms : List (CString × cJSON)} {p q j : Bytes} (junk : Junk j) (begun : p ≠ [])
    (cut : p ++ q = cj_print_value (.object ms)) (some : q ≠ []) : ∀ c t r, Derives c t → p ++ j ≠ c ++ r := by
  obtain ⟨s, rfl, stuck⟩ := torn_object junk (fun m _ => stuck_torn junk) begun cut some
  exact object_unread stuck

/-- An object with an infinite number is not read, whatever follows it. -/
theorem infinite_unread {ms : List (CString × cJSON)} (infinite : ¬FiniteNumbers (.object ms)) (s : Bytes) :
    ∀ c t r, Derives c t → cj_print_value (.object ms) ++ s ≠ c ++ r := by
  rw [print_object, List.cons_append, List.append_assoc]
  exact object_unread (infinite_members (fun m _ => stuck_infinite) (some_infinite infinite) _)

end Sa.TornTexts
