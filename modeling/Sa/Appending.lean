import Sa.Readings
import Sa.SessionFile

/-!
# Appended messages

What `session_load` makes of a line that is written behind any file: it is read as
its message exactly when nothing but whitespace follows the file's last newline
(`append_recovered`). Behind anything else it becomes the end of a line that is
read otherwise or not at all.
-/

namespace Sa.Appending
open Sa.CStrings Sa.Tinyjson Sa.JsonGrammar Sa.JsonTexts Sa.Parser Sa.ParserGrammar Sa.Printer Sa.PrinterGrammar Sa.RoundTrip
open Sa.Readings Sa.StuckTexts Sa.Session Sa.Chat Sa.SessionFile

/-- Whole lines, and perhaps whitespace after them. -/
def Ended (file : Bytes) : Prop := ∃ body tail, file = body ++ tail ∧ Terminated body ∧ Ws tail ∧ 10 ∉ tail

theorem parse_space {b : UInt8} (space : isWs b = true) (s : Bytes) : cj_parse_value (b :: s) = cj_parse_value s := by
  refine Option.ext fun result => ?_
  obtain ⟨v, r⟩ := result
  show cj_parse_value (b :: s) = some (v, r) ↔ cj_parse_value s = some (v, r)
  rw [parse_iff, parse_iff]
  constructor
  · rintro ⟨w, c, t, text, spaces, derives, rest⟩
    cases w with
    | nil =>
      obtain ⟨b', x, rfl, starts⟩ := derives_head derives
      simp only [List.nil_append, List.cons_append, List.cons.injEq] at text
      have visible := (starts_visible b' starts).1
      rw [← text.1, space] at visible
      cases visible
    | cons b' w =>
      simp only [List.cons_append, List.cons.injEq] at text
      exact ⟨w, c, t, text.2, fun x member => spaces x (by simp [member]), derives, rest⟩
  · rintro ⟨w, c, t, text, spaces, rest⟩
    refine ⟨b :: w, c, t, by rw [text]; rfl, ?_, rest⟩
    intro x member
    rcases List.mem_cons.mp member with rfl | later
    · exact space
    · exact spaces x later

theorem parse_spaces {w : Bytes} (spaces : Ws w) (s : Bytes) : cj_parse_value (w ++ s) = cj_parse_value s := by
  induction w with
  | nil => rfl
  | cons b w ih =>
    rw [List.cons_append, parse_space (spaces b (by simp)), ih fun x member => spaces x (by simp [member])]

theorem ws_nulFree {w : Bytes} (spaces : Ws w) : 0 ∉ w := fun member => absurd (spaces 0 member) (by decide)

theorem readLine_spaces {w : Bytes} (spaces : Ws w) : readLine w = none := by
  by_cases empty : w = []
  · rw [empty, readLine_nil]
  · have blank := parse_spaces spaces []
    rw [List.append_nil] at blank
    rw [readLine_eq empty (ws_nulFree spaces), blank]
    rfl

theorem loadBytes_ended {file : Bytes} (ended : Ended file) (msg : cJSON) :
    loadBytes (file ++ sessionLine msg) = loadBytes file ++ (reload msg).toList := by
  obtain ⟨body, tail, rfl, whole, spaces, one⟩ := ended
  have free : 0 ∉ tail ++ cj_print_value msg := by
    rw [List.mem_append, not_or]
    exact ⟨ws_nulFree spaces, print_nulFree msg⟩
  have same : readLine (tail ++ cj_print_value msg) = reload msg := by
    rw [readLine_eq (by simp [print_ne_nil]) free, parse_spaces spaces, reload, cJSON_PrintUnformatted,
      readLine_eq (print_ne_nil msg) (print_nulFree msg)]
  rw [loadBytes_behind whole one, same, loadBytes_append whole, loadBytes_tail one, readLine_spaces spaces]
  simp

def loaded (file : Option Bytes) : List cJSON := (session_load file).getD []

theorem loaded_eq (file : Option Bytes) : loaded file = loadBytes (file.getD []) := by
  cases file <;> rfl

theorem lines_split (file : Bytes) : ∃ body tail, file = body ++ tail ∧ Terminated body ∧ 10 ∉ tail := by
  induction file using List.reverseRecOn with
  | nil => exact ⟨[], [], rfl, .inl rfl, by simp⟩
  | append_singleton file c ih =>
    by_cases newline : c = 10
    · exact ⟨file ++ [c], [], by simp, .inr ⟨file, by rw [newline]⟩, by simp⟩
    · obtain ⟨body, tail, rfl, whole, one⟩ := ih
      refine ⟨body, tail ++ [c], by simp, whole, ?_⟩
      simp [one, Ne.symm newline]

/-- A position in two texts, one after the other, lies in one of them. -/
theorem split_append {d : UInt8} {x p a b : Bytes} (same : x ++ d :: p = a ++ b) :
    (∃ c, x ++ d :: c = a ∧ p = c ++ b) ∨ ∃ y, x = a ++ y ∧ y ++ d :: p = b := by
  rcases List.append_eq_append_iff.mp same with ⟨c, whole, rest⟩ | ⟨y, before, rest⟩
  · cases c with
    | nil => exact .inr ⟨[], by simpa using whole.symm, by simpa using rest⟩
    | cons z c =>
      simp only [List.cons_append, List.cons.injEq] at rest
      obtain ⟨rfl, rest⟩ := rest
      exact .inl ⟨c, whole.symm, rest⟩
  · exact .inr ⟨y, before, rest.symm⟩

theorem ws_noBrace {w x p : Bytes} (spaces : Ws w) : x ++ 123 :: p ≠ w := by
  rintro rfl
  exact absurd (spaces 123 (by simp)) (by decide)

theorem commaSep_split {parts : List Bytes} {close : UInt8} (other : close ≠ 123) {x p : Bytes}
    (text : x ++ 123 :: p = commaSep parts ++ [close]) :
    ∃ part ∈ parts, ∃ y c b r, y ++ 123 :: c = part ∧ p = c ++ b :: r ∧ (b = 44 ∨ b = close) := by
  induction parts generalizing x with
  | nil =>
    have inside : (123 : UInt8) ∈ commaSep [] ++ [close] := by rw [← text]; simp
    exact absurd inside (by simpa [commaSep] using Ne.symm other)
  | cons part parts ih =>
    by_cases last : parts = []
    · subst last
      rcases split_append (a := part) text with ⟨c, here, rest⟩ | ⟨y, -, beyond⟩
      · exact ⟨part, by simp, x, c, close, [], here, rest, .inr rfl⟩
      · have inside : (123 : UInt8) ∈ [close] := by rw [← beyond]; simp
        exact absurd inside (by simpa using Ne.symm other)
    · rw [commaSep_cons_ne last, List.append_assoc, List.cons_append] at text
      rcases split_append text with ⟨c, here, rest⟩ | ⟨y, -, beyond⟩
      · exact ⟨part, by simp, x, c, 44, _, here, rest, .inl rfl⟩
      · cases y with
        | nil =>
          simp only [List.nil_append, List.cons.injEq] at beyond
          exact absurd beyond.1 (by decide)
        | cons z y =>
          simp only [List.cons_append, List.cons.injEq] at beyond
          obtain ⟨part', member, found⟩ := ih beyond.2
          exact ⟨part', by simp [member], found⟩

theorem item_split {i : Item} (spaces : Ws i.before ∧ Ws i.after) {x p : Bytes} (text : x ++ 123 :: p = i.spelled) :
    ∃ y c, y ++ 123 :: c = i.text ∧ p = c ++ i.after := by
  rw [Item.spelled, List.append_assoc] at text
  rcases split_append text with ⟨c, here, -⟩ | ⟨y, -, text⟩
  · exact absurd here (ws_noBrace spaces.1)
  rcases split_append text with ⟨c, here, rest⟩ | ⟨z, -, here⟩
  · exact ⟨y, c, here, rest⟩
  · exact absurd here (ws_noBrace spaces.2)

theorem member_split {m : Member} (before : Ws m.before) (colon : Ws m.beforeColon) {x p : Bytes}
    (text : x ++ 123 :: p = m.spelled) :
    (∃ y c, y ++ 123 :: c = quoted m.key ∧ p = c ++ (m.beforeColon ++ 58 :: m.item.spelled)) ∨
      ∃ y, y ++ 123 :: p = m.item.spelled := by
  rw [Member.spelled, List.append_assoc, List.append_assoc] at text
  rcases split_append text with ⟨c, here, -⟩ | ⟨y, -, text⟩
  · exact absurd here (ws_noBrace before)
  rcases split_append text with ⟨c, here, rest⟩ | ⟨z, -, text⟩
  · exact .inl ⟨y, c, here, rest⟩
  rcases split_append text with ⟨c, here, -⟩ | ⟨y, -, text⟩
  · exact absurd here (ws_noBrace colon)
  cases y with
  | nil =>
    simp only [List.nil_append, List.cons.injEq] at text
    exact absurd text.1 (by decide)
  | cons b y =>
    simp only [List.cons_append, List.cons.injEq] at text
    exact .inr ⟨y, text.2⟩

/-- The quote after a brace ends a string. -/
theorem body_brace_quote {y z : Bytes} : ¬Body (y ++ 123 :: 34 :: z) := by
  generalize text : y ++ 123 :: 34 :: z = s
  intro body
  induction body generalizing y with
  | nil => simp at text
  | @raw b s quote slash body ih =>
    match y with
    | [] =>
      simp only [List.nil_append, List.cons.injEq] at text
      obtain ⟨-, rfl⟩ := text
      cases body with
      | raw quote' _ _ => exact quote' rfl
    | _ :: y =>
      simp only [List.cons_append, List.cons.injEq] at text
      exact ih text.2
  | @short e s escape body ih =>
    match y with
    | [] => simp at text
    | [_] =>
      simp only [List.cons_append, List.nil_append, List.cons.injEq] at text
      rw [← text.2.1] at escape
      cases escape
    | _ :: _ :: y =>
      simp only [List.cons_append, List.cons.injEq] at text
      exact ih text.2.2
  | @unicode h₁ h₂ h₃ h₄ s d₁ d₂ d₃ d₄ body ih =>
    have brace : (hexVal 123).isSome = false := by decide
    match y with
    | [] => simp at text
    | [_] => simp at text
    | [_, _] =>
      simp only [List.cons_append, List.nil_append, List.cons.injEq] at text
      rw [← text.2.2.1, brace] at d₁
      cases d₁
    | [_, _, _] =>
      simp only [List.cons_append, List.nil_append, List.cons.injEq] at text
      rw [← text.2.2.2.1, brace] at d₂
      cases d₂
    | [_, _, _, _] =>
      simp only [List.cons_append, List.nil_append, List.cons.injEq] at text
      rw [← text.2.2.2.2.1, brace] at d₃
      cases d₃
    | [_, _, _, _, _] =>
      simp only [List.cons_append, List.nil_append, List.cons.injEq] at text
      rw [← text.2.2.2.2.2.1, brace] at d₄
      cases d₄
    | _ :: _ :: _ :: _ :: _ :: _ :: y =>
      simp only [List.cons_append, List.cons.injEq] at text
      exact ih text.2.2.2.2.2.2

section
variable {rest : Bytes} {tree : Tree}

/-- A string that the head of a message ends. -/
theorem quoted_split {key x c z : Bytes} (body : Body key) (text : x ++ 123 :: c = quoted key)
    (next : c ++ z = 34 :: 114 :: rest) : c = [34] := by
  cases x with
  | nil =>
    simp only [quoted, List.nil_append, List.cons.injEq] at text
    exact absurd text.1 (by decide)
  | cons b x =>
    simp only [quoted, List.cons_append, List.cons.injEq] at text
    rcases split_append text.2 with ⟨c', here, rfl⟩ | ⟨y, -, beyond⟩
    · cases c' with
      | nil => rfl
      | cons q c' =>
        simp only [List.cons_append, List.cons.injEq] at next
        obtain ⟨rfl, -⟩ := next
        exact absurd (here ▸ body) body_brace_quote
    · have inside : (123 : UInt8) ∈ ([34] : Bytes) := by rw [← beyond]; simp
      exact absurd inside (by decide)

/-- A value that holds the head of a message is not followed as values are. -/
theorem item_unsplit (whole : Derives (123 :: 34 :: 114 :: rest) tree) {i : Item} {b : UInt8} {y c r q : Bytes}
    (spaces : Ws i.before ∧ Ws i.after) (derives : Derives i.text i.tree)
    (inside : ∀ x p q, x ≠ [] → i.text = x ++ 123 :: p → p ++ q = 34 :: 114 :: rest → p = [34])
    (sep : b = 44 ∨ b = 93 ∨ b = 125) (text : y ++ 123 :: c = i.spelled) (next : c ++ (b :: r ++ q) = 34 :: 114 :: rest) :
    False := by
  obtain ⟨x, p, here, rfl⟩ := item_split spaces text
  rw [List.append_assoc] at next
  by_cases start : x = []
  · -- The message is the value: there is nothing behind it.
    subst start
    have ends : isNumChar b = false := by rcases sep with rfl | rfl | rfl <;> rfl
    have same : i.text ++ (i.after ++ b :: (r ++ q)) = 123 :: 34 :: 114 :: rest ++ [] := by
      rw [← here]
      simpa using next
    obtain ⟨value, -⟩ := derives_unique derives _ _ _ _ whole same (stops_of_space spaces.2 ends) (stops_nil tree)
    rw [value] at same
    simpa using List.append_cancel_left same
  · obtain rfl := inside x p _ start here.symm next
    simp only [List.cons_append, List.nil_append, List.cons.injEq, true_and] at next
    have dead : Dead (114 :: rest) := by
      rintro b' head
      cases head
      rfl
    exact dead_ne dead spaces.2 (by tauto) next.symm

/-- A text that ends inside a message, begun before it, is a string that the
    message's first quote ends. -/
theorem text_split (whole : Derives (123 :: 34 :: 114 :: rest) tree) {c : Bytes} {t : Tree} (derives : Derives c t) :
    ∀ x p q, x ≠ [] → c = x ++ 123 :: p → p ++ q = 34 :: 114 :: rest → p = [34] := by
  have absent : ∀ {c x p : Bytes}, 123 ∉ c → c ≠ x ++ 123 :: p := by
    rintro c x p none rfl
    exact none (by simp)
  induction derives with
  | null => exact fun x p q _ text => absurd text (absent (by decide))
  | true => exact fun x p q _ text => absurd text (absent (by decide))
  | false => exact fun x p q _ text => absurd text (absent (by decide))
  | number like =>
    intro x p q _ text
    exact absurd (like.1 123 (by rw [text]; simp)) (by decide)
  | string body =>
    intro x p q _ text next
    exact quoted_split body text.symm next
  | @emptyArray w spaces =>
    intro x p q _ text
    refine absurd text (absent ?_)
    have none : (123 : UInt8) ∉ w := fun member => absurd (spaces 123 member) (by decide)
    simp [none]
  | @array items _ spaces texts ih =>
    intro x p q begun text next
    obtain ⟨a, x, rfl⟩ := List.exists_cons_of_ne_nil begun
    simp only [List.cons_append, List.cons.injEq] at text
    obtain ⟨part, member, y, c, b, r, here, rfl, sep⟩ := commaSep_split (by decide) text.2.symm
    obtain ⟨i, item, rfl⟩ := List.mem_map.mp member
    rw [List.append_assoc] at next
    exact (item_unsplit whole (spaces i item) (texts i item) (ih i item) (by tauto) here next).elim
  | @emptyObject w spaces =>
    intro x p q begun text
    obtain ⟨a, x, rfl⟩ := List.exists_cons_of_ne_nil begun
    simp only [List.cons_append, List.cons.injEq] at text
    refine absurd text.2 (absent ?_)
    have none : (123 : UInt8) ∉ w := fun member => absurd (spaces 123 member) (by decide)
    simp [none]
  | @object members _ spaces texts ih =>
    intro x p q begun text next
    obtain ⟨a, x, rfl⟩ := List.exists_cons_of_ne_nil begun
    simp only [List.cons_append, List.cons.injEq] at text
    obtain ⟨part, member, y, c, b, r, here, rfl, sep⟩ := commaSep_split (by decide) text.2.symm
    obtain ⟨m, inside, rfl⟩ := List.mem_map.mp member
    obtain ⟨before, body, colon, around⟩ := spaces m inside
    rw [List.append_assoc] at next
    rcases member_split before colon here with ⟨y, c, key, rfl⟩ | ⟨y, value⟩
    · -- In the key the first quote ends it, and no colon follows.
      rw [List.append_assoc] at next
      obtain rfl := quoted_split body key next
      simp only [List.cons_append, List.nil_append, List.cons.injEq, true_and, List.append_assoc] at next
      have dead : Dead (114 :: rest) := by
        rintro b' head
        cases head
        rfl
      exact (dead_ne dead colon (by tauto) next.symm).elim
    · exact (item_unsplit whole around (texts m inside) (ih m inside) (by tauto) value next).elim

end

/-- An array or an object does not end with a quote. -/
theorem container_end {b : UInt8} {s : Bytes} {t : Tree} (derives : Derives (b :: s) t) (bracket : b = 91 ∨ b = 123) :
    ¬[34] <:+ b :: s := by
  rintro ⟨before, text⟩
  rcases bracket with rfl | rfl
  · obtain ⟨inside, ts, rfl, -⟩ := derives_array derives
    have closed : before ++ [34] = (91 :: inside) ++ [93] := text
    have last := List.append_inj_right' closed rfl
    cases last
  · obtain ⟨inside, ms, rfl, -⟩ := derives_object derives
    have closed : before ++ [34] = (123 :: inside) ++ [125] := text
    have last := List.append_inj_right' closed rfl
    cases last

theorem readLine_nul {tail : Bytes} (nul : 0 ∈ tail) (s : Bytes) : readLine (tail ++ s) = readLine tail := by
  have begun : tail ≠ [] := List.ne_nil_of_mem nul
  have cut : cstr (tail ++ s) = cstr tail := by
    refine Subtype.ext ?_
    show (tail ++ s).takeWhile (· != 0) = tail.takeWhile (· != 0)
    clear begun
    induction tail with
    | nil => cases nul
    | cons b tail ih =>
      rw [List.cons_append, List.takeWhile_cons, List.takeWhile_cons]
      split_ifs with other
      · rw [ih]
        rcases List.mem_cons.mp nul with rfl | later
        · exact absurd other (by decide)
        · exact later
      · rfl
  rw [readLine, if_neg (by simp [begun]), readLine, if_neg begun, cJSON_Parse, cut, cJSON_Parse]

/-- Behind a line that is not read by itself, and is not only whitespace, no message
    is read. -/
theorem readLine_behind {msg : cJSON} (message : IsMessage msg) (finite : FiniteNumbers msg) {tail : Bytes}
    (shown : ¬Ws tail) (unread : readLine tail = none) : readLine (tail ++ cj_print_value msg) ≠ some msg := by
  intro read
  by_cases nul : 0 ∈ tail
  · rw [readLine_nul nul, unread] at read
    cases read
  have begun : tail ≠ [] := by
    rintro rfl
    exact shown (by simp [Ws])
  have free : 0 ∉ tail ++ cj_print_value msg := by
    rw [List.mem_append, not_or]
    exact ⟨nul, print_nulFree msg⟩
  rw [readLine_eq begun nul, Option.map_eq_none_iff] at unread
  rw [readLine_eq (by simp [begun]) free, Option.map_eq_some_iff] at read
  obtain ⟨⟨v, r⟩, read, same⟩ := read
  simp only at same
  subst same
  obtain ⟨w, c, t, text, spaces, derives, short, value, -⟩ := parse_iff.mp read
  have container : isContainer (interp t) = true := by
    obtain ⟨role, members, rfl⟩ := message
    rw [← value]
    rfl
  obtain ⟨b, s, rfl, bracket⟩ := container_head derives container
  rw [List.append_assoc] at text
  -- The value begins in the line that was there.
  rcases List.append_eq_append_iff.mp text with ⟨a, space, -⟩ | ⟨a, line, ends⟩
  · exact shown fun x member => spaces x (by rw [space]; simp [member])
  obtain ⟨rest, head⟩ := print_message message
  have whole := (printed finite).derives
  rw [head] at whole ends
  rcases split_append ends.symm with ⟨p, front, next⟩ | ⟨p, before, -⟩
  · have first : a ≠ [] := by
      rintro rfl
      exact shown fun x member => spaces x (by rw [line] at member; simpa using member)
    obtain rfl := text_split whole derives a p r first front.symm next.symm
    exact container_end derives bracket ⟨a ++ [123], by rw [← front]; simp⟩
  · have early : cj_parse_value tail = some (interp t, p) :=
      parse_iff.mpr ⟨w, b :: s, t, by rw [line, before, List.append_assoc], spaces, derives, short, rfl,
        stops_of_bracket bracket derives⟩
    rw [early] at unread
    cases unread

/-- An appended message is loaded behind what was loaded before, and nothing else
    is, where only whitespace follows the file's last newline; and nowhere else. -/
theorem append_recovered (file : Option Bytes) (msg : cJSON) (integral : Integral msg) :
    let after := (session_append true msg).foldl FileOp.apply file
    (Ended (file.getD []) → session_load after = some (loaded file ++ [msg])) ∧
      (IsMessage msg → (session_load after = some (loaded file ++ [msg]) ↔ Ended (file.getD []))) := by
  have finite := finite_of_integral integral
  have itself : reload msg = some msg := by rw [reload_finite finite, reread_integral integral]
  have kept : Ended (file.getD []) → session_load ((session_append true msg).foldl FileOp.apply file) =
      some (loaded file ++ [msg]) := by
    intro ended
    show some (loadBytes (file.getD [] ++ sessionLine msg)) = _
    rw [loadBytes_ended ended, itself, loaded_eq]
    rfl
  refine ⟨kept, fun message => ⟨fun recovered => ?_, kept⟩⟩
  obtain ⟨body, tail, split, whole, one⟩ := lines_split (file.getD [])
  refine ⟨body, tail, split, whole, ?_, one⟩
  by_contra shown
  have texts : loadBytes body ++ (readLine (tail ++ cj_print_value msg)).toList =
      loadBytes body ++ ((readLine tail).toList ++ [msg]) := by
    have bytes := Option.some.inj recovered
    rw [loaded_eq] at bytes
    rw [← loadBytes_behind whole one, ← List.append_assoc, ← loadBytes_tail one, ← loadBytes_append whole, ← split]
    exact bytes
  have line := List.append_cancel_left texts
  cases unread : readLine tail with
  | none =>
    rw [unread, Option.toList_none, List.nil_append] at line
    refine readLine_behind message finite shown unread ?_
    cases read : readLine (tail ++ cj_print_value msg) with
    | none => simp [read] at line
    | some v => rw [read] at line; simpa using line
  | some v =>
    have few : (readLine (tail ++ cj_print_value msg)).toList.length ≤ 1 := Option.length_toList_le
    rw [line, unread] at few
    simp at few

theorem append_recovered_torn :
    let msg := make_user_msg (cs "hi")
    let after := (session_append true msg).foldl FileOp.apply (some [123])
    (Ended ((some [123] : Option Bytes).getD []) → session_load after = some (loaded (some [123]) ++ [msg])) ∧
      (IsMessage msg → (session_load after = some (loaded (some [123]) ++ [msg]) ↔ Ended ((some [123] : Option Bytes).getD []))) :=
  append_recovered (some [123]) (make_user_msg (cs "hi")) (by simp [make_user_msg, Integral])

/-- A file that a killed process left with the first byte of a line. -/
theorem append_lost :
    ¬∀ (file : Bytes) (msg : cJSON), Integral msg →
      session_load ((session_append true msg).foldl FileOp.apply (some file)) = some (loaded (some file) ++ [msg]) := by
  intro recovered
  have gone := recovered [123] (make_user_msg (cs "hi")) (by simp [make_user_msg, Integral])
  have none : (session_load ((session_append true (make_user_msg (cs "hi"))).foldl FileOp.apply (some [123]))).all List.isEmpty = true := by
    decide +kernel
  rw [gone] at none
  simp at none

end Sa.Appending
