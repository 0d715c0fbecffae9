import Sa.Messages
import Sa.RoundTrip
import Sa.TornTexts

/-!
# Lines of the session file

What `session_load` makes of a file that is whole lines, and of what is written
last when the process is killed: a line that is cut off is skipped, also where
the next run writes on behind it, and a whole one is read as its message.
-/

namespace Sa.SessionFile
open Sa.CStrings Sa.Tinyjson Sa.JsonGrammar Sa.JsonTexts Sa.Parser Sa.ParserGrammar Sa.Printer Sa.PrinterGrammar
open Sa.RoundTrip Sa.StuckTexts Sa.TornTexts Sa.Stream Sa.Session Sa.Chat Sa.Messages Sa.Pairing

/-- Nothing, or lines that all end. -/
def Terminated (file : Bytes) : Prop := file = [] ∨ [10] <:+ file

instance : DecidablePred Terminated := fun file => inferInstanceAs (Decidable (file = [] ∨ [10] <:+ file))

theorem getlines_line {l : Bytes} (one : 10 ∉ l) (line rest : Bytes) :
    getlines line (l ++ 10 :: rest) = (line ++ l) :: getlines [] rest := by
  induction l generalizing line with
  | nil => simp [getlines]
  | cons c l ih =>
    simp only [List.mem_cons, not_or] at one
    rw [List.cons_append, getlines, if_neg (Ne.symm one.1), ih one.2]
    simp

theorem getlines_tail {l : Bytes} (one : 10 ∉ l) (line : Bytes) :
    getlines line l = if line ++ l = [] then [] else [line ++ l] := by
  induction l generalizing line with
  | nil => simp [getlines]
  | cons c l ih =>
    simp only [List.mem_cons, not_or] at one
    rw [getlines, if_neg (Ne.symm one.1), ih one.2]
    simp

theorem getlines_append (lines rest line : Bytes) :
    getlines line (lines ++ 10 :: rest) = getlines line (lines ++ [10]) ++ getlines [] rest := by
  induction lines generalizing line with
  | nil => simp [getlines]
  | cons c lines ih =>
    simp only [List.cons_append, getlines]
    by_cases newline : c = 10
    · rw [if_pos newline, if_pos newline, ih, List.cons_append]
    · rw [if_neg newline, if_neg newline, ih]

theorem readLine_nil : readLine [] = none := rfl

theorem loadBytes_append {file : Bytes} (whole : Terminated file) (rest : Bytes) :
    loadBytes (file ++ rest) = loadBytes file ++ loadBytes rest := by
  rcases whole with rfl | ⟨lines, rfl⟩
  · rfl
  · rw [List.append_assoc, List.singleton_append, loadBytes, getlines_append, List.filterMap_append]
    rfl

theorem loadBytes_tail {l : Bytes} (one : 10 ∉ l) : loadBytes l = (readLine l).toList := by
  rw [loadBytes, getlines_tail one, List.nil_append]
  split_ifs with empty
  · rw [empty]
    rfl
  · rw [List.filterMap_cons, List.filterMap_nil]
    cases readLine l <;> rfl

theorem loadBytes_line {l : Bytes} (one : 10 ∉ l) (rest : Bytes) :
    loadBytes (l ++ 10 :: rest) = (readLine l).toList ++ loadBytes rest := by
  rw [loadBytes, getlines_line one, List.nil_append, List.filterMap_cons]
  cases readLine l <;> rfl

theorem terminated_line (file : Bytes) (msg : cJSON) : Terminated (file ++ sessionLine msg) :=
  .inr ⟨file ++ cJSON_PrintUnformatted msg, by rw [sessionLine, List.append_assoc]⟩

theorem terminated_lines (messages : List cJSON) : Terminated (messages.flatMap sessionLine) := by
  rcases List.eq_nil_or_concat messages with rfl | ⟨before, msg, rfl⟩
  · exact .inl rfl
  · rw [List.concat_eq_append, List.flatMap_append, List.flatMap_singleton]
    exact terminated_line _ msg

/-- What a message's line is read as. -/
def reload (msg : cJSON) : Option cJSON := readLine (cJSON_PrintUnformatted msg)

theorem print_ne_nil (msg : cJSON) : cj_print_value msg ≠ [] := by
  obtain ⟨b, s, text, -⟩ := print_head msg
  simp [text]

theorem readLine_eq {l : Bytes} (some : l ≠ []) (free : 0 ∉ l) : readLine l = (cj_parse_value l).map Prod.fst := by
  rw [readLine, if_neg some, cJSON_Parse, cstr_of_nulFree free]

theorem reload_finite {msg : cJSON} (finite : FiniteNumbers msg) : reload msg = some (reread msg) := by
  have whole := parse_printed finite (stops_nil (printedTree msg))
  rw [List.append_nil] at whole
  rw [reload, cJSON_PrintUnformatted, readLine_eq (print_ne_nil msg) (print_nulFree msg), whole]
  rfl

theorem loadBytes_lines (messages : List cJSON) : loadBytes (messages.flatMap sessionLine) = messages.filterMap reload := by
  induction messages with
  | nil => rfl
  | cons msg messages ih =>
    rw [List.flatMap_cons, sessionLine, List.append_assoc, List.singleton_append,
      loadBytes_line (l := cJSON_PrintUnformatted msg) (print_noNewline msg), ih, List.filterMap_cons, reload]
    cases readLine (cJSON_PrintUnformatted msg) <;> rfl

/-- A message behind what has no newline. -/
theorem loadBytes_behind {body tail : Bytes} (whole : Terminated body) (one : 10 ∉ tail) (msg : cJSON) :
    loadBytes (body ++ tail ++ sessionLine msg) = loadBytes body ++ (readLine (tail ++ cj_print_value msg)).toList := by
  have line : 10 ∉ tail ++ cj_print_value msg := by
    rw [List.mem_append, not_or]
    exact ⟨one, print_noNewline msg⟩
  have text : body ++ tail ++ sessionLine msg = body ++ (tail ++ cj_print_value msg ++ 10 :: []) := by
    simp [sessionLine, cJSON_PrintUnformatted]
  rw [text, loadBytes_append whole, loadBytes_line line]
  simp [loadBytes, getlines]

theorem loadBytes_sessionLine {file : Bytes} (whole : Terminated file) (msg : cJSON) :
    loadBytes (file ++ sessionLine msg) = loadBytes file ++ (reload msg).toList := by
  rw [loadBytes_append whole, sessionLine, loadBytes_line (l := cJSON_PrintUnformatted msg) (print_noNewline msg)]
  simp [loadBytes, getlines, reload]

theorem getObjectItem_reread (v : cJSON) (key : CString) :
    cJSON_GetObjectItem (some (reread v)) key = (cJSON_GetObjectItem (some v) key).map reread := by
  cases v with
  | object ms =>
    rw [reread_object]
    induction ms with
    | nil => rfl
    | cons m ms ih =>
      rw [List.map_cons, getObjectItem_cons, getObjectItem_cons, ih]
      split_ifs <;> rfl
  | array xs =>
    rw [reread_array]
    rfl
  | _ => rfl

theorem getStringValue_reread (v : Option cJSON) : cJSON_GetStringValue (v.map reread) = cJSON_GetStringValue v := by
  cases v with
  | none => rfl
  | some v => cases v <;> simp [reread, cJSON_GetStringValue]

theorem getString_reread (v : cJSON) (key : String) : getString (some (reread v)) key = getString (some v) key := by
  rw [getString, getObjectItem_reread, getStringValue_reread]
  rfl

theorem typeIs_reread (v : cJSON) (type : String) : typeIs (reread v) type = typeIs v type := by
  rw [typeIs, typeIs, getString_reread]

theorem contentItemsOf_reread (msg : cJSON) : contentItemsOf (reread msg) = (contentItemsOf msg).map (List.map reread) := by
  rw [contentItemsOf, contentItemsOf, getObjectItem_reread]
  cases cJSON_GetObjectItem (some msg) (cs "content") with
  | none => rfl
  | some v =>
    cases v with
    | array xs => simp
    | object ms => simp
    | _ => rfl

theorem blocksOf_reread (msg : cJSON) : blocksOf (reread msg) = (blocksOf msg).map reread := by
  rw [blocksOf, blocksOf, contentItemsOf_reread]
  cases contentItemsOf msg <;> rfl

/-- Reading a message back changes its numbers at most, so not its part. -/
theorem samePart_reread (msg : cJSON) : SamePart roles msg (reread msg) := by
  have role : role (reread msg) = role msg := getString_reread msg "role"
  constructor
  · show toolUses (reread msg) = toolUses msg
    rw [toolUses, toolUses, role, blocksOf_reread, List.filter_map, List.map_map]
    have type : (fun b => typeIs b "tool_use") ∘ reread = fun b => typeIs b "tool_use" := by
      funext b
      exact typeIs_reread b _
    have id : (fun b => getString (some b) "id") ∘ reread = fun b => getString (some b) "id" := by
      funext b
      exact getString_reread b _
    rw [type, id]
  · show HoldsResults (reread msg) ↔ HoldsResults msg
    rw [HoldsResults, HoldsResults, role, blocksOf_reread]
    simp [typeIs_reread]
  · show ∀ ids, ResultsFor ids msg → ResultsFor ids (reread msg)
    rintro ids ⟨user, each⟩
    refine ⟨by rw [role, user], ?_⟩
    rw [blocksOf_reread, List.forall₂_map_right_iff]
    refine each.imp fun id b result => ⟨?_, ?_⟩
    · rw [typeIs_reread, result.1]
    · rw [getString_reread, result.2]

/-- What the session holds: objects whose first member is their role. -/
def IsMessage (msg : cJSON) : Prop := ∃ role members, msg = .object ((cs "role", role) :: members)

theorem isMessage_reread {msg : cJSON} (message : IsMessage msg) : IsMessage (reread msg) := by
  obtain ⟨role, members, rfl⟩ := message
  exact ⟨reread role, _, by rw [reread_object, List.map_cons]⟩

theorem isMessage_clearMessage {msg : cJSON} (message : IsMessage msg) : IsMessage (clearMessage msg) := by
  obtain ⟨role, members, rfl⟩ := message
  have other : cs "role" ≠ cs "content" := by decide
  exact ⟨role, _, by rw [clearMessage, mapContent, if_neg other]⟩

theorem print_message {msg : cJSON} (message : IsMessage msg) : ∃ rest, cj_print_value msg = 123 :: 34 :: 114 :: rest := by
  obtain ⟨role, members, rfl⟩ := message
  have key : cj_print_string (cs "role") = 34 :: 114 :: [111, 108, 101, 34] := by decide
  rw [print_object, List.map_cons]
  by_cases last : members = []
  · subst last
    exact ⟨_, by rw [List.map_nil, commaSep, printedMember, key]; rfl⟩
  · rw [commaSep_cons_ne (by simpa using last), printedMember, key]
    exact ⟨_, rfl⟩

/-- Text that begins with a brace and no tree is not read. -/
theorem readLine_unread {s : Bytes} (free : 0 ∉ s) (head : ∃ r, s = 123 :: r)
    (unread : ∀ c t r, Derives c t → s ≠ c ++ r) : readLine s = none := by
  obtain ⟨x, rfl⟩ := head
  rw [readLine_eq (by simp) free, Option.map_eq_none_iff]
  cases result : cj_parse_value (123 :: x) with
  | none => rfl
  | some read =>
    obtain ⟨v, r⟩ := read
    obtain ⟨w, c, t, text, space, derives, -⟩ := parse_iff.mp result
    cases w with
    | nil => exact absurd text (unread c t r derives)
    | cons b w =>
      simp only [List.cons_append, List.cons.injEq] at text
      exact absurd (space b (by simp)) (by rw [← text.1]; decide)

/-- What may follow what is written of a line, on the same line. -/
structure Follows (j : Bytes) : Prop where
  junk : Junk j
  nulFree : 0 ∉ j
  noNewline : 10 ∉ j

theorem follows_nil : Follows [] := ⟨junk_nil, by simp, by simp⟩

private theorem body_quote {b r s : Bytes} (body : Body b) (text : 34 :: s = b ++ 34 :: r) : r = s := by
  cases body with
  | nil => simpa using text.symm
  | raw noQuote _ _ =>
    simp only [List.cons_append, List.cons.injEq] at text
    exact absurd text.1.symm noQuote
  | short _ _ => simp at text
  | unicode _ _ _ _ _ => simp at text

private theorem body_brace {b r s : Bytes} (body : Body b) (text : 123 :: s = b ++ 34 :: r) :
    ∃ b', Body b' ∧ s = b' ++ 34 :: r := by
  cases body with
  | nil => simp at text
  | @raw _ b' _ _ inner =>
    simp only [List.cons_append, List.cons.injEq] at text
    exact ⟨b', inner, text.2⟩
  | short _ _ => simp at text
  | unicode _ _ _ _ _ => simp at text

/-- The head of a message's line may follow a cut. -/
theorem junk_message {msg : cJSON} (message : IsMessage msg) {p q j : Bytes} (cut : p ++ q = cj_print_value msg)
    (begun : p ≠ []) (junk : Junk j) : Junk (p ++ j) := by
  obtain ⟨rest, text⟩ := print_message message
  constructor
  · obtain ⟨y, p, rfl⟩ := List.exists_cons_of_ne_nil begun
    rw [text, List.cons_append, List.cons.injEq] at cut
    simp [cut.1]
  · by_cases whole : q = []
    · rw [whole, List.append_nil] at cut
      rw [cut]
      by_cases finite : FiniteNumbers msg
      · exact stuck_after (printed finite).derives junk.dead
      · exact stuck_infinite finite j
    · exact stuck_torn junk p q cut whole
  · intro b r body same
    rw [text] at cut
    match p, begun with
    | [_], _ =>
      simp only [List.cons_append, List.cons.injEq] at cut
      obtain ⟨b', inner, same⟩ := body_brace body (cut.1 ▸ same)
      exact junk.body b' r inner same
    | [_, _], _ =>
      simp only [List.cons_append, List.cons.injEq] at cut
      obtain ⟨rfl, rfl, -⟩ := cut
      obtain ⟨b', inner, same⟩ := body_brace body same
      rw [body_quote inner same]
      exact junk.dead
    | _ :: _ :: _ :: p, _ =>
      simp only [List.cons_append, List.cons.injEq] at cut
      obtain ⟨rfl, rfl, rfl, -⟩ := cut
      obtain ⟨b', inner, same⟩ := body_brace body same
      rw [body_quote inner same]
      intro c head
      cases head
      rfl

theorem follows_message {msg : cJSON} (message : IsMessage msg) {p q j : Bytes} (cut : p ++ q = cj_print_value msg)
    (begun : p ≠ []) (follows : Follows j) : Follows (p ++ j) := by
  constructor
  · exact junk_message message cut begun follows.junk
  · rw [List.mem_append, not_or]
    exact ⟨fun member => print_nulFree msg (by rw [← cut]; exact List.mem_append_left _ member), follows.nulFree⟩
  · rw [List.mem_append, not_or]
    exact ⟨fun member => print_noNewline msg (by rw [← cut]; exact List.mem_append_left _ member), follows.noNewline⟩

/-- A line that is cut off is skipped, whatever follows it. -/
theorem readLine_torn {msg : cJSON} (message : IsMessage msg) {p q j : Bytes} (cut : p ++ q = cj_print_value msg)
    (begun : p ≠ []) (some : q ≠ []) (follows : Follows j) : readLine (p ++ j) = none := by
  refine readLine_unread (follows_message message cut begun follows).nulFree ?_ ?_
  · obtain ⟨rest, text⟩ := print_message message
    obtain ⟨y, p, rfl⟩ := List.exists_cons_of_ne_nil begun
    rw [text, List.cons_append, List.cons.injEq] at cut
    exact ⟨p ++ j, by rw [cut.1]; rfl⟩
  · obtain ⟨role, members, rfl⟩ := message
    exact torn_unread follows.junk begun cut some

theorem readLine_infinite {msg : cJSON} (message : IsMessage msg) (infinite : ¬FiniteNumbers msg) {j : Bytes}
    (follows : Follows j) : readLine (cj_print_value msg ++ j) = none := by
  refine readLine_unread (follows_message message (List.append_nil _) (print_ne_nil msg) follows).nulFree ?_ ?_
  · obtain ⟨rest, text⟩ := print_message message
    exact ⟨_, by rw [text]; rfl⟩
  · obtain ⟨role, members, rfl⟩ := message
    exact infinite_unread infinite j

/-- A whole line is read as its message, whatever follows it. -/
theorem readLine_whole {msg : cJSON} (message : IsMessage msg) {j : Bytes} (follows : Follows j) :
    readLine (cj_print_value msg ++ j) = reload msg := by
  have alone : reload msg = readLine (cj_print_value msg ++ []) := by rw [List.append_nil, reload, cJSON_PrintUnformatted]
  by_cases finite : FiniteNumbers msg
  · rw [reload_finite finite, readLine_eq (by simp [print_ne_nil])
      (follows_message message (List.append_nil _) (print_ne_nil msg) follows).nulFree,
      parse_printed finite (dead_stops follows.junk.dead)]
    rfl
  · rw [alone, readLine_infinite message finite follows, readLine_infinite message finite follows_nil]

theorem reload_infinite_object {members : List (CString × cJSON)} (infinite : ¬FiniteNumbers (.object members)) :
    reload (.object members) = none := by
  refine readLine_unread (print_nulFree _) ⟨_, by rw [cJSON_PrintUnformatted, print_object]⟩ fun c t r derives text => ?_
  exact infinite_unread infinite [] c t r derives (by rw [List.append_nil]; exact text)

theorem reload_infinite {msg : cJSON} (message : IsMessage msg) (infinite : ¬FiniteNumbers msg) : reload msg = none := by
  obtain ⟨role, members, rfl⟩ := message
  exact reload_infinite_object infinite

/-- A file of whole lines that loads to these messages. -/
def Clean (file : Bytes) (messages : List cJSON) : Prop := Terminated file ∧ loadBytes file = messages

/-- A file that ends inside a line and loads to these messages, also when the head
    of another line is written behind it. -/
def Ragged (file : Bytes) (messages : List cJSON) : Prop :=
  ∃ body tail, file = body ++ tail ∧ Terminated body ∧ tail ≠ [] ∧ 10 ∉ tail ∧
    ∀ j, Follows j → loadBytes body ++ (readLine (tail ++ j)).toList = messages

def Holds (file : Bytes) (messages : List cJSON) : Prop := Clean file messages ∨ Ragged file messages

theorem clean_nil : Clean [] [] := ⟨.inl rfl, rfl⟩

theorem clean_lines (messages : List cJSON) : Clean (messages.flatMap sessionLine) (messages.filterMap reload) :=
  ⟨terminated_lines messages, loadBytes_lines messages⟩

theorem Holds.load {file : Bytes} {messages : List cJSON} (holds : Holds file messages) : loadBytes file = messages := by
  rcases holds with ⟨-, loaded⟩ | ⟨body, tail, rfl, whole, -, one, always⟩
  · exact loaded
  · rw [loadBytes_append whole, loadBytes_tail one, ← always [] follows_nil, List.append_nil]

section
variable {file : Bytes} {messages : List cJSON} {msg : cJSON}

theorem clean_append (clean : Clean file messages) (msg : cJSON) :
    Clean (file ++ sessionLine msg) (messages ++ (reload msg).toList) :=
  ⟨terminated_line file msg, by rw [loadBytes_sessionLine clean.1, clean.2]⟩

/-- A message that is written behind a torn line is lost. -/
theorem ragged_append (ragged : Ragged file messages) (message : IsMessage msg) : Clean (file ++ sessionLine msg) messages := by
  obtain ⟨body, tail, rfl, whole, -, one, always⟩ := ragged
  refine ⟨terminated_line _ msg, ?_⟩
  have follows := follows_message message (List.append_nil _) (print_ne_nil msg) follows_nil
  rw [List.append_nil] at follows
  rw [loadBytes_behind whole one, ← always _ follows]

/-- A message that is cut off is not there. -/
theorem clean_torn (clean : Clean file messages) (message : IsMessage msg) {p q : Bytes}
    (cut : p ++ q = cj_print_value msg) (begun : p ≠ []) (some : q ≠ []) : Ragged (file ++ p) messages := by
  refine ⟨file, p, rfl, clean.1, begun, ?_, fun j follows => ?_⟩
  · intro member
    exact print_noNewline msg (by rw [← cut]; exact List.mem_append_left _ member)
  · rw [readLine_torn message cut begun some follows, clean.2, Option.toList_none, List.append_nil]

/-- A message whose line only lacks its newline is there. -/
theorem clean_unended (clean : Clean file messages) (message : IsMessage msg) :
    Ragged (file ++ cj_print_value msg) (messages ++ (reload msg).toList) := by
  refine ⟨file, _, rfl, clean.1, print_ne_nil msg, print_noNewline msg, fun j follows => ?_⟩
  rw [readLine_whole message follows, clean.2]

theorem ragged_torn (ragged : Ragged file messages) (message : IsMessage msg) {p q : Bytes}
    (cut : p ++ q = cj_print_value msg) (begun : p ≠ []) : Ragged (file ++ p) messages := by
  obtain ⟨body, tail, rfl, whole, some, one, always⟩ := ragged
  refine ⟨body, tail ++ p, List.append_assoc _ _ _, whole, by simp [some], ?_, fun j follows => ?_⟩
  · rw [List.mem_append, not_or]
    exact ⟨one, fun member => print_noNewline msg (by rw [← cut]; exact List.mem_append_left _ member)⟩
  · rw [List.append_assoc]
    exact always _ (follows_message message cut begun follows)

theorem Holds.clean (holds : Holds file messages) (whole : Terminated file) : Clean file messages := ⟨whole, holds.load⟩

theorem Holds.ragged (holds : Holds file messages) (torn : ¬Terminated file) : Ragged file messages := by
  rcases holds with clean | ragged
  · exact absurd clean.1 torn
  · exact ragged

/-- The whole line. Its message is there unless the line before it was torn. -/
theorem holds_append (holds : Holds file messages) (message : IsMessage msg) :
    Clean (file ++ sessionLine msg) (if Terminated file then messages ++ (reload msg).toList else messages) := by
  split_ifs with whole
  · exact clean_append (holds.clean whole) msg
  · exact ragged_append (holds.ragged whole) message

/-- A part of the line. Its message is there once all of it but the newline is. -/
theorem holds_partial (holds : Holds file messages) (message : IsMessage msg) (k : ℕ) :
    Holds (file ++ (sessionLine msg).take k)
      (if Terminated file ∧ (cJSON_PrintUnformatted msg).length ≤ k then messages ++ (reload msg).toList else messages) := by
  rcases Nat.lt_trichotomy k (cJSON_PrintUnformatted msg).length with inside | unended | ended
  · rw [if_neg (by omega), sessionLine, List.take_append_of_le_length (by omega)]
    by_cases none : k = 0
    · simpa [none] using holds
    have cut : (cJSON_PrintUnformatted msg).take k ++ (cJSON_PrintUnformatted msg).drop k = cj_print_value msg :=
      List.take_append_drop _ _
    have begun : (cJSON_PrintUnformatted msg).take k ≠ [] := by
      rw [Ne, List.take_eq_nil_iff, not_or]
      exact ⟨none, print_ne_nil msg⟩
    have some : (cJSON_PrintUnformatted msg).drop k ≠ [] := by
      rw [Ne, List.drop_eq_nil_iff]
      omega
    by_cases whole : Terminated file
    · exact .inr (clean_torn (holds.clean whole) message cut begun some)
    · exact .inr (ragged_torn (holds.ragged whole) message cut begun)
  · rw [sessionLine, List.take_append_of_le_length (by omega), List.take_of_length_le (by omega)]
    by_cases whole : Terminated file
    · rw [if_pos ⟨whole, by omega⟩]
      exact .inr (clean_unended (holds.clean whole) message)
    · rw [if_neg fun both => whole both.1]
      exact .inr (ragged_torn (holds.ragged whole) message (List.append_nil _) (print_ne_nil msg))
  · rw [List.take_of_length_le (by simp [sessionLine]; omega)]
    have all := holds_append holds message
    simp only [Nat.le_of_lt ended, and_true]
    exact .inl all

end

end Sa.SessionFile
