import Sa.JsonTexts

/-!
# Texts that no reading gets past

A text is stuck when every tree spelled at its head is followed by a byte that
cannot go on inside an array or an object. A container is stuck, and not even
begun by a tree, when its items or members lead to a stuck text.
-/

namespace Sa.StuckTexts
open Sa.CStrings Sa.JsonGrammar Sa.JsonTexts

/-- Bytes that are neither whitespace nor a separator: an opening brace, `r` and `i`. -/
def isDead (b : UInt8) : Bool := b == 123 || b == 114 || b == 105

/-- Nothing more, or a dead byte. -/
def Dead (r : Bytes) : Prop := ∀ b ∈ r.head?, isDead b = true

private theorem dead_cases : ∀ b : UInt8, isDead b = true →
    isWs b = false ∧ isNumChar b = false ∧ b ≠ 44 ∧ b ≠ 93 ∧ b ≠ 125 ∧ b ≠ 58 := by decide +kernel

theorem dead_stops {r : Bytes} {t : Tree} (dead : Dead r) : Stops t r :=
  fun _ b head => (dead_cases b (dead b head)).2.1

/-- After whitespace a dead rest shows none of the bytes that go on. -/
theorem dead_ne {r w s : Bytes} {b : UInt8} (dead : Dead r) (space : Ws w) (sep : b = 44 ∨ b = 93 ∨ b = 125 ∨ b = 58)
    (text : r = w ++ b :: s) : False := by
  cases w with
  | nil =>
    have facts := dead_cases b (dead b (by rw [text]; rfl))
    rcases sep with rfl | rfl | rfl | rfl <;> simp at facts
  | cons x w =>
    have facts := dead_cases x (dead x (by rw [text]; rfl))
    rw [space x (by simp)] at facts
    simp at facts

/-- No tree spelled at the head goes on inside a container. -/
structure Stuck (s : Bytes) : Prop where
  visible : ∀ b ∈ s.head?, isWs b = false
  dead : ∀ c t r, Derives c t → s = c ++ r → Stops t r → Dead r

theorem stuck_nil : Stuck [] := by
  refine ⟨by rintro b ⟨⟩, ?_⟩
  rintro c t r derives text -
  obtain ⟨b, s, rfl, -⟩ := derives_head derives
  cases text

/-- A tree with a dead rest is stuck after the tree. -/
theorem stuck_after {c r : Bytes} {t : Tree} (derives : Derives c t) (dead : Dead r) : Stuck (c ++ r) := by
  constructor
  · obtain ⟨b, s, rfl, starts⟩ := derives_head derives
    intro b' head
    cases head
    exact (starts_visible b starts).1
  · intro c' t' r' derives' text stops'
    obtain ⟨rfl, -⟩ := derives_unique derives _ _ _ _ derives' text (dead_stops dead) stops'
    rw [← List.append_cancel_left text]
    exact dead

/-- Whitespace first, a stuck text shows its first byte next. -/
theorem stuck_item {s r : Bytes} {i : Item} {b : UInt8} (stuck : Stuck s) (spaces : Ws i.before ∧ Ws i.after)
    (derives : Derives i.text i.tree) (sep : b = 44 ∨ b = 93 ∨ b = 125) (text : s = i.spelled ++ b :: r) : False := by
  obtain ⟨x, y, head, starts⟩ := derives_head derives
  have bare : i.before = [] := by
    cases before : i.before with
    | nil => rfl
    | cons z zs =>
      have shown := stuck.visible z (by rw [text, Item.spelled, before]; rfl)
      rw [spaces.1 z (by simp [before])] at shown
      cases shown
  have ends : isNumChar b = false := by rcases sep with rfl | rfl | rfl <;> rfl
  have dead := stuck.dead _ _ (i.after ++ b :: r) derives (by rw [text, Item.spelled, bare]; simp)
    (stops_of_space spaces.2 ends)
  exact dead_ne dead spaces.2 (by tauto) rfl

/-- Items that lead to a stuck text. -/
inductive StuckItems : Bytes → Prop where
  | here {s : Bytes} : Stuck s → StuckItems s
  | next {c s : Bytes} {t : Tree} : Derives c t → StuckItems s → StuckItems (c ++ 44 :: s)

/-- One item of a reading against one without whitespace. -/
private theorem same_item {c s r : Bytes} {t : Tree} {i : Item} {b : UInt8} (derives : Derives c t)
    (spaces : Ws i.before ∧ Ws i.after) (derives' : Derives i.text i.tree) (sep : b = 44 ∨ b = 93 ∨ b = 125)
    (text : c ++ 44 :: s = i.spelled ++ b :: r) : b = 44 ∧ s = r := by
  have plain : (⟨[], c, [], t⟩ : Item).spelled = c := by simp [Item.spelled]
  obtain ⟨-, -, same, rest⟩ := item_unique (i := ⟨[], c, [], t⟩) (derives_unique derives) derives derives'
    ⟨by simp [Ws], by simp [Ws]⟩ spaces (.inl rfl) sep (by rw [plain]; exact text)
  exact ⟨same.symm, rest⟩

theorem stuckItems_unread {s r : Bytes} (stuck : StuckItems s) : ∀ items : List Item, items ≠ [] →
    (∀ i ∈ items, Ws i.before ∧ Ws i.after) → (∀ i ∈ items, Derives i.text i.tree) →
    s ≠ commaSep (items.map Item.spelled) ++ 93 :: r := by
  induction stuck with
  | @here s stuck =>
    intro items some spaces texts text
    obtain ⟨i, rest, rfl⟩ := List.exists_cons_of_ne_nil some
    by_cases last : rest = []
    · subst last
      exact stuck_item stuck (spaces i (by simp)) (texts i (by simp)) (.inr (.inl rfl)) text
    · rw [List.map_cons, commaSep_cons_ne (by simpa using last), List.append_assoc, List.cons_append] at text
      exact stuck_item stuck (spaces i (by simp)) (texts i (by simp)) (.inl rfl) text
  | @next c s t derives _ ih =>
    intro items some spaces texts text
    obtain ⟨i, rest, rfl⟩ := List.exists_cons_of_ne_nil some
    by_cases last : rest = []
    · subst last
      have same := same_item derives (spaces i (by simp)) (texts i (by simp)) (.inr (.inl rfl)) text
      exact absurd same.1 (by decide)
    · rw [List.map_cons, commaSep_cons_ne (by simpa using last), List.append_assoc, List.cons_append] at text
      obtain ⟨-, later⟩ := same_item derives (spaces i (by simp)) (texts i (by simp)) (.inl rfl) text
      exact ih rest last (fun j m => spaces j (by simp [m])) (fun j m => texts j (by simp [m])) later

/-- The text between an opening bracket and where the reading gets stuck. -/
theorem stuckItems_visible {s : Bytes} (stuck : StuckItems s) : ∀ b ∈ s.head?, isWs b = false := by
  cases stuck with
  | here stuck => exact stuck.visible
  | next derives _ =>
    obtain ⟨b, s, rfl, starts⟩ := derives_head derives
    intro b' head
    cases head
    exact (starts_visible b starts).1

/-- An array does not begin with items that get stuck. -/
theorem array_unread {s : Bytes} (stuck : StuckItems s) (open' : ∀ b ∈ s.head?, b ≠ 93) :
    ∀ c t r, Derives c t → 91 :: s ≠ c ++ r := by
  intro c t r derives text
  obtain ⟨b, x, rfl, -⟩ := derives_head derives
  simp only [List.cons_append, List.cons.injEq] at text
  obtain ⟨rfl, text⟩ := text
  obtain ⟨inside, ts, rfl, ⟨space, -⟩ | ⟨items, some, spaces, texts, rfl, -⟩, -⟩ := derives_array derives
  · cases inside with
    | nil => exact open' 93 (by rw [text]; rfl) rfl
    | cons y ys =>
      have shown := stuckItems_visible stuck y (by rw [text]; rfl)
      rw [space y (by simp)] at shown
      cases shown
  · exact stuckItems_unread stuck items some spaces texts (by simpa using text)

/-- Members that lead to a stuck text. -/
inductive StuckMembers : Bytes → Prop where
  | key {s : Bytes} : (∀ b ∈ s.head?, isWs b = false ∧ b ≠ 125) →
      (∀ b r, Body b → s = quoted b ++ r → Dead r) → StuckMembers s
  | value {k s : Bytes} : Body k → Stuck s → StuckMembers (quoted k ++ 58 :: s)
  | next {k c s : Bytes} {t : Tree} : Body k → Derives c t → StuckMembers s →
      StuckMembers (quoted k ++ 58 :: (c ++ 44 :: s))

theorem stuckMembers_visible {s : Bytes} (stuck : StuckMembers s) : ∀ b ∈ s.head?, isWs b = false ∧ b ≠ 125 := by
  cases stuck with
  | key visible _ => exact visible
  | value _ _ => intro b head; cases head; decide
  | next _ _ _ => intro b head; cases head; decide

/-- The key of a member that stands at the head of a text with a visible byte. -/
private theorem member_bare {s rest : Bytes} {m : Member} (visible : ∀ b ∈ s.head?, isWs b = false)
    (space : Ws m.before) (text : s = m.spelled ++ rest) :
    s = quoted m.key ++ (m.beforeColon ++ 58 :: (m.item.spelled ++ rest)) := by
  have bare : m.before = [] := by
    cases before : m.before with
    | nil => rfl
    | cons z zs =>
      have shown := visible z (by rw [text, Member.spelled, before]; rfl)
      rw [space z (by simp [before])] at shown
      cases shown
  rw [text, Member.spelled, bare]
  simp

/-- One member of a reading against one without whitespace before its value. -/
private theorem same_key {k s rest : Bytes} {m : Member} (body : Body k) (space : Ws m.before) (body' : Body m.key)
    (space' : Ws m.beforeColon) (text : quoted k ++ 58 :: s = m.spelled ++ rest) : s = m.item.spelled ++ rest := by
  have whole := member_bare (by intro b head; cases head; rfl) space text
  simp only [quoted, List.append_assoc, List.cons_append, List.nil_append, List.cons.injEq, true_and] at whole
  obtain ⟨-, rest'⟩ := body_unique body body' whole
  obtain ⟨-, rest'⟩ := @ws_unique [] _ _ _ 58 58 (by simp [Ws]) space' rfl rfl rest'
  simpa using rest'

theorem stuckMembers_unread {s r : Bytes} (stuck : StuckMembers s) : ∀ members : List Member, members ≠ [] →
    (∀ m ∈ members, Ws m.before ∧ Body m.key ∧ Ws m.beforeColon ∧ Ws m.item.before ∧ Ws m.item.after) →
    (∀ m ∈ members, Derives m.item.text m.item.tree) → s ≠ commaSep (members.map Member.spelled) ++ 125 :: r := by
  -- The first member, with the separator after it.
  have first : ∀ {members : List Member} {s : Bytes}, members ≠ [] →
      s = commaSep (members.map Member.spelled) ++ 125 :: r →
      ∃ m rest b tail, members = m :: rest ∧ s = m.spelled ++ b :: tail ∧ (b = 44 ∨ b = 125) ∧
        (b = 44 → rest ≠ [] ∧ tail = commaSep (rest.map Member.spelled) ++ 125 :: r) := by
    intro members s some text
    obtain ⟨m, rest, rfl⟩ := List.exists_cons_of_ne_nil some
    by_cases last : rest = []
    · subst last
      exact ⟨m, [], 125, r, rfl, text, .inr rfl, fun comma => absurd comma (by decide)⟩
    · rw [List.map_cons, commaSep_cons_ne (by simpa using last), List.append_assoc, List.cons_append] at text
      exact ⟨m, rest, 44, _, rfl, text, .inl rfl, fun _ => ⟨last, rfl⟩⟩
  induction stuck with
  | @key s visible dead =>
    intro members some spaces _ text
    obtain ⟨m, rest, b, tail, rfl, text, -, -⟩ := first some text
    obtain ⟨space, body, space', -, -⟩ := spaces m (by simp)
    have whole := member_bare (fun b head => (visible b head).1) space text
    exact dead_ne (dead _ _ body whole) space' (by tauto) rfl
  | @value k s body stuck =>
    intro members some spaces texts text
    obtain ⟨m, rest, b, tail, rfl, text, sep, -⟩ := first some text
    obtain ⟨space, body', space', around⟩ := spaces m (by simp)
    exact stuck_item stuck around (texts m (by simp)) (by tauto) (same_key body space body' space' text)
  | @next k c s t body derives _ ih =>
    intro members some spaces texts text
    obtain ⟨m, rest, b, tail, rfl, text, sep, more⟩ := first some text
    obtain ⟨space, body', space', around⟩ := spaces m (by simp)
    obtain ⟨comma, later⟩ := same_item derives around (texts m (by simp)) (by tauto) (same_key body space body' space' text)
    obtain ⟨some', tail'⟩ := more comma
    exact ih rest some' (fun j i => spaces j (by simp [i])) (fun j i => texts j (by simp [i])) (later.trans tail')

/-- An object does not begin with members that get stuck. -/
theorem object_unread {s : Bytes} (stuck : StuckMembers s) : ∀ c t r, Derives c t → 123 :: s ≠ c ++ r := by
  intro c t r derives text
  obtain ⟨b, x, rfl, -⟩ := derives_head derives
  simp only [List.cons_append, List.cons.injEq] at text
  obtain ⟨rfl, text⟩ := text
  obtain ⟨inside, ms, rfl, ⟨space, -⟩ | ⟨members, some, spaces, texts, rfl, -⟩, -⟩ := derives_object derives
  · cases inside with
    | nil => exact (stuckMembers_visible stuck 125 (by rw [text]; rfl)).2 rfl
    | cons y ys =>
      have shown := (stuckMembers_visible stuck y (by rw [text]; rfl)).1
      rw [space y (by simp)] at shown
      cases shown
  · exact stuckMembers_unread stuck members some spaces texts (by simpa using text)

end Sa.StuckTexts
