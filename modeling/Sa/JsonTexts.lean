import Mathlib.Data.FinEnum
import Sa.JsonGrammar

/-!
# Texts of trees

How the spelled texts of the grammar begin and where they end. A text has one
reading: two trees spelled at the head of the same bytes are the same tree with
the same text, as long as a number is read to the end of its run of number
characters (`derives_unique`).
-/

namespace Sa.JsonTexts
open Sa.CStrings Sa.JsonGrammar

/-- A number token ends where the text stops having number characters. -/
def Stops (t : Tree) (r : Bytes) : Prop := (∃ n, t = .number n) → ∀ b ∈ r.head?, isNumChar b = false

/-- The bytes that values begin with. -/
def startsValue (b : UInt8) : Bool :=
  b == 34 || b == 123 || b == 91 || b == 45 || isdigit b || b == 116 || b == 102 || b == 110

theorem derives_head {c : Bytes} {t : Tree} (derives : Derives c t) : ∃ b s, c = b :: s ∧ startsValue b = true := by
  cases derives with
  | null => exact ⟨_, _, rfl, rfl⟩
  | true => exact ⟨_, _, rfl, rfl⟩
  | false => exact ⟨_, _, rfl, rfl⟩
  | number like =>
    obtain ⟨-, b, s, rfl, sign⟩ := like
    refine ⟨b, s, rfl, ?_⟩
    rcases sign with rfl | digit
    · rfl
    · simp [startsValue, digit]
  | string _ => exact ⟨_, _, rfl, rfl⟩
  | emptyArray _ => exact ⟨_, _, rfl, rfl⟩
  | array _ _ _ => exact ⟨_, _, rfl, rfl⟩
  | emptyObject _ => exact ⟨_, _, rfl, rfl⟩
  | object _ _ _ => exact ⟨_, _, rfl, rfl⟩

theorem starts_visible : ∀ b : UInt8, startsValue b = true → isWs b = false ∧ b ≠ 93 := by decide +kernel
theorem ws_noNumber : ∀ b : UInt8, isWs b = true → isNumChar b = false := by decide +kernel

theorem stops_of_space {t : Tree} {w r : Bytes} {b : UInt8} (space : Ws w) (stop : isNumChar b = false) :
    Stops t (w ++ b :: r) := by
  rintro - b' head
  cases w with
  | nil => cases head; exact stop
  | cons x w => cases head; exact ws_noNumber _ (space _ (by simp))

theorem mem_leaves_array {ts : List Tree} {leaf : Leaf} :
    leaf ∈ (Tree.array ts).leaves ↔ ∃ t ∈ ts, leaf ∈ t.leaves := by
  rw [Tree.leaves]
  induction ts with
  | nil => simp [leavesOfItems]
  | cons t ts ih => simp [leavesOfItems, ih]

theorem mem_leaves_object {ms : List (Bytes × Tree)} {leaf : Leaf} :
    leaf ∈ (Tree.object ms).leaves ↔ ∃ m ∈ ms, leaf = .string m.1 ∨ leaf ∈ m.2.leaves := by
  rw [Tree.leaves]
  induction ms with
  | nil => simp [leavesOfMembers]
  | cons m ms ih => simp [leavesOfMembers, ih, or_assoc]

theorem commaSep_cons_ne {x : Bytes} {xs : List Bytes} (more : xs ≠ []) :
    commaSep (x :: xs) = x ++ 44 :: commaSep xs := by
  cases xs with
  | nil => exact absurd rfl more
  | cons y ys => rfl

theorem length_le_commaSep {x : Bytes} {xs : List Bytes} (member : x ∈ xs) : x.length ≤ (commaSep xs).length := by
  induction xs with
  | nil => cases member
  | cons y ys ih =>
    by_cases last : ys = []
    · subst last
      rcases List.mem_cons.mp member with rfl | none
      · exact le_rfl
      · cases none
    · rw [commaSep_cons_ne last, List.length_append, List.length_cons]
      rcases List.mem_cons.mp member with rfl | later
      · omega
      · have := ih later
        omega

theorem count_le_commaSep (xs : List Bytes) : xs.length ≤ (commaSep xs).length + 1 := by
  induction xs with
  | nil => simp
  | cons y ys ih =>
    by_cases last : ys = []
    · subst last; simp
    · rw [commaSep_cons_ne last, List.length_append, List.length_cons, List.length_cons]
      omega

/-- A run of one class of bytes, up to a byte outside it, splits in one way. -/
theorem run_unique {p : UInt8 → Bool} {x y r r' : Bytes} (inX : ∀ b ∈ x, p b = true) (inY : ∀ b ∈ y, p b = true)
    (stop : ∀ b ∈ r.head?, p b = false) (stop' : ∀ b ∈ r'.head?, p b = false) (same : x ++ r = y ++ r') :
    x = y ∧ r = r' := by
  induction x generalizing y with
  | nil =>
    cases y with
    | nil => exact ⟨rfl, same⟩
    | cons b y =>
      have outside := stop b (by rw [List.nil_append] at same; simp [same])
      rw [inY b (by simp)] at outside
      cases outside
  | cons a x ih =>
    cases y with
    | nil =>
      have outside := stop' a (by rw [List.nil_append] at same; simp [← same])
      rw [inX a (by simp)] at outside
      cases outside
    | cons b y =>
      simp only [List.cons_append, List.cons.injEq] at same
      obtain ⟨rfl, rest⟩ := same
      obtain ⟨rfl, rfl⟩ := ih (fun c i => inX c (by simp [i])) (fun c i => inY c (by simp [i])) rest
      exact ⟨rfl, rfl⟩

theorem ws_unique {w w' s s' : Bytes} {b b' : UInt8} (space : Ws w) (space' : Ws w') (visible : isWs b = false)
    (visible' : isWs b' = false) (same : w ++ b :: s = w' ++ b' :: s') : w = w' ∧ b :: s = b' :: s' :=
  run_unique space space' (by intro c head; cases head; exact visible) (by intro c head; cases head; exact visible') same

private theorem shortEscape_plain : ∀ e : UInt8, isShortEscape e = true → e ≠ 117 := by decide +kernel

theorem body_unique {s s' r r' : Bytes} (body : Body s) (body' : Body s') (same : s ++ 34 :: r = s' ++ 34 :: r') :
    s = s' ∧ r = r' := by
  induction body generalizing s' with
  | nil =>
    cases body' with
    | nil => exact ⟨rfl, by simpa using same⟩
    | raw noQuote _ _ => simp only [List.nil_append, List.cons_append, List.cons.injEq] at same; exact absurd same.1.symm noQuote
    | short _ _ => simp at same
    | unicode _ _ _ _ _ => simp at same
  | raw noQuote noSlash _ ih =>
    cases body' with
    | nil => simp only [List.nil_append, List.cons_append, List.cons.injEq] at same; exact absurd same.1 noQuote
    | raw _ _ rest =>
      simp only [List.cons_append, List.cons.injEq] at same
      obtain ⟨rfl, later⟩ := same
      obtain ⟨rfl, rfl⟩ := ih rest later
      exact ⟨rfl, rfl⟩
    | short _ _ => simp only [List.cons_append, List.cons.injEq] at same; exact absurd same.1 noSlash
    | unicode _ _ _ _ _ => simp only [List.cons_append, List.cons.injEq] at same; exact absurd same.1 noSlash
  | short escape _ ih =>
    cases body' with
    | nil => simp at same
    | raw _ noSlash _ => simp only [List.cons_append, List.cons.injEq] at same; exact absurd same.1.symm noSlash
    | short _ rest =>
      simp only [List.cons_append, List.cons.injEq] at same
      obtain ⟨-, rfl, later⟩ := same
      obtain ⟨rfl, rfl⟩ := ih rest later
      exact ⟨rfl, rfl⟩
    | unicode _ _ _ _ _ =>
      simp only [List.cons_append, List.cons.injEq] at same
      exact absurd same.2.1 (shortEscape_plain _ escape)
  | unicode _ _ _ _ _ ih =>
    cases body' with
    | nil => simp at same
    | raw _ noSlash _ => simp only [List.cons_append, List.cons.injEq] at same; exact absurd same.1.symm noSlash
    | short escape _ =>
      simp only [List.cons_append, List.cons.injEq] at same
      exact absurd same.2.1.symm (shortEscape_plain _ escape)
    | unicode _ _ _ _ rest =>
      simp only [List.cons_append, List.cons.injEq] at same
      obtain ⟨-, -, rfl, rfl, rfl, rfl, later⟩ := same
      obtain ⟨rfl, rfl⟩ := ih rest later
      exact ⟨rfl, rfl⟩

/-- Every other text that starts where this one does, under the side condition on
    numbers, is this one. -/
def Unique (c : Bytes) (t : Tree) : Prop :=
  ∀ c' t' r r', Derives c' t' → c ++ r = c' ++ r' → Stops t r → Stops t' r' → c = c' ∧ t = t'

/-- One item, with the separator after it. -/
theorem item_unique {i i' : Item} {b b' : UInt8} {r r' : Bytes} (unique : Unique i.text i.tree)
    (derives : Derives i.text i.tree) (derives' : Derives i'.text i'.tree)
    (spaces : Ws i.before ∧ Ws i.after) (spaces' : Ws i'.before ∧ Ws i'.after)
    (sep : b = 44 ∨ b = 93 ∨ b = 125) (sep' : b' = 44 ∨ b' = 93 ∨ b' = 125)
    (same : i.spelled ++ b :: r = i'.spelled ++ b' :: r') :
    i.spelled = i'.spelled ∧ i.tree = i'.tree ∧ b = b' ∧ r = r' := by
  have ends : ∀ b : UInt8, b = 44 ∨ b = 93 ∨ b = 125 → isWs b = false ∧ isNumChar b = false := by
    rintro b (rfl | rfl | rfl) <;> exact ⟨rfl, rfl⟩
  obtain ⟨x, s, head, starts⟩ := derives_head derives
  obtain ⟨x', s', head', starts'⟩ := derives_head derives'
  simp only [Item.spelled, List.append_assoc] at same
  have first : i.before = i'.before ∧ i.text ++ (i.after ++ b :: r) = i'.text ++ (i'.after ++ b' :: r') := by
    rw [head, head'] at same ⊢
    exact ws_unique spaces.1 spaces'.1 (starts_visible x starts).1 (starts_visible x' starts').1 same
  obtain ⟨before, texts⟩ := first
  obtain ⟨text, tree⟩ := unique _ _ _ _ derives' texts (stops_of_space spaces.2 (ends b sep).2)
    (stops_of_space spaces'.2 (ends b' sep').2)
  rw [text, List.append_cancel_left_eq] at texts
  obtain ⟨after, rest⟩ := ws_unique spaces.2 spaces'.2 (ends b sep).1 (ends b' sep').1 texts
  simp only [List.cons.injEq] at rest
  exact ⟨by simp [Item.spelled, before, text, after], tree, rest⟩

/-- What the members of the two containers share: items with a separator and an end. -/
theorem commaSep_unique {α β : Type} {spelled : α → Bytes} (value : α → β) (close : UInt8)
    {xs ys : List α} {r r' : Bytes} (noComma : close ≠ 44) (some : xs ≠ []) (some' : ys ≠ [])
    (one : ∀ x ∈ xs, ∀ y ∈ ys, ∀ b b' r r', (b = 44 ∨ b = close) → (b' = 44 ∨ b' = close) →
      spelled x ++ b :: r = spelled y ++ b' :: r' → spelled x = spelled y ∧ value x = value y ∧ b = b' ∧ r = r')
    (same : commaSep (xs.map spelled) ++ close :: r = commaSep (ys.map spelled) ++ close :: r') :
    commaSep (xs.map spelled) = commaSep (ys.map spelled) ∧ xs.map value = ys.map value := by
  induction xs generalizing ys with
  | nil => exact absurd rfl some
  | cons x xs ih =>
    cases ys with
    | nil => exact absurd rfl some'
    | cons y ys =>
      have first := one x (by simp) y (by simp)
      by_cases last : xs = []
      · by_cases last' : ys = []
        · subst last last'
          obtain ⟨text, tree, -, -⟩ := first close close r r' (.inr rfl) (.inr rfl) (by simpa [commaSep] using same)
          simp [commaSep, text, tree]
        · subst last
          rw [List.map_cons (l := ys), commaSep_cons_ne (by simpa using last'), List.append_assoc, List.cons_append] at same
          obtain ⟨-, -, ends, -⟩ := first close 44 _ _ (.inr rfl) (.inl rfl) (by simpa [commaSep] using same)
          exact absurd ends noComma
      · by_cases last' : ys = []
        · subst last'
          rw [List.map_cons (l := xs), commaSep_cons_ne (by simpa using last), List.append_assoc, List.cons_append] at same
          obtain ⟨-, -, ends, -⟩ := first 44 close _ _ (.inl rfl) (.inr rfl) (by simpa [commaSep] using same)
          exact absurd ends.symm noComma
        · rw [List.map_cons, List.map_cons, commaSep_cons_ne (by simpa using last), commaSep_cons_ne (by simpa using last')]
            at same ⊢
          simp only [List.append_assoc, List.cons_append] at same
          obtain ⟨text, tree, -, rest⟩ := first 44 44 _ _ (.inl rfl) (.inl rfl) same
          obtain ⟨texts, trees⟩ := ih last last' (fun a i b j => one a (by simp [i]) b (by simp [j])) rest
          exact ⟨by rw [text, texts], by simp [tree, trees]⟩

theorem member_unique {m m' : Member} {b b' : UInt8} {r r' : Bytes} (unique : Unique m.item.text m.item.tree)
    (derives : Derives m.item.text m.item.tree) (derives' : Derives m'.item.text m'.item.tree)
    (spaces : Ws m.before ∧ Body m.key ∧ Ws m.beforeColon ∧ Ws m.item.before ∧ Ws m.item.after)
    (spaces' : Ws m'.before ∧ Body m'.key ∧ Ws m'.beforeColon ∧ Ws m'.item.before ∧ Ws m'.item.after)
    (sep : b = 44 ∨ b = 93 ∨ b = 125) (sep' : b' = 44 ∨ b' = 93 ∨ b' = 125)
    (same : m.spelled ++ b :: r = m'.spelled ++ b' :: r') :
    m.spelled = m'.spelled ∧ (m.key, m.item.tree) = (m'.key, m'.item.tree) ∧ b = b' ∧ r = r' := by
  obtain ⟨before, body, beforeColon, space, after⟩ := spaces
  obtain ⟨before', body', beforeColon', space', after'⟩ := spaces'
  simp only [Member.spelled, quoted, List.append_assoc, List.cons_append, List.nil_append] at same
  obtain ⟨sameBefore, rest⟩ := ws_unique before before' rfl rfl same
  simp only [List.cons.injEq, true_and] at rest
  obtain ⟨sameKey, rest⟩ := body_unique body body' rest
  obtain ⟨sameColon, rest⟩ := ws_unique beforeColon beforeColon' rfl rfl rest
  simp only [List.cons.injEq, true_and] at rest
  obtain ⟨sameItem, tree, ends⟩ := item_unique unique derives derives' ⟨space, after⟩ ⟨space', after'⟩ sep sep' rest
  exact ⟨by simp [Member.spelled, sameBefore, sameKey, sameColon, sameItem], by rw [sameKey, tree], ends⟩

@[simp] theorem lit_null : lit "null" = [110, 117, 108, 108] := by decide
@[simp] theorem lit_true : lit "true" = [116, 114, 117, 101] := by decide
@[simp] theorem lit_false : lit "false" = [102, 97, 108, 115, 101] := by decide

private theorem number_head : ∀ b : UInt8, (b = 45 ∨ isdigit b = true) →
    b ≠ 110 ∧ b ≠ 116 ∧ b ≠ 102 ∧ b ≠ 34 ∧ b ≠ 91 ∧ b ≠ 123 := by decide +kernel

private theorem like_head {b : UInt8} {s : Bytes} (like : NumberLike (b :: s)) : b = 45 ∨ isdigit b = true := by
  obtain ⟨-, b', t, head, sign⟩ := like
  cases head
  exact sign

theorem derives_number {b : UInt8} {s : Bytes} {t : Tree} (sign : b = 45 ∨ isdigit b = true)
    (derives : Derives (b :: s) t) : NumberLike (b :: s) ∧ t = .number (b :: s) := by
  have other := number_head b sign
  generalize text : b :: s = c at derives
  cases derives <;> first
    | exact ⟨by assumption, rfl⟩
    | (simp [quoted] at text; simp_all)

theorem derives_string {s : Bytes} {t : Tree} (derives : Derives (34 :: s) t) :
    ∃ body, s = body ++ [34] ∧ Body body ∧ t = .string body := by
  generalize text : 34 :: s = c at derives
  cases derives with
  | number like => exact absurd rfl (number_head _ (like_head (text ▸ like))).2.2.2.1
  | string body => exact ⟨_, by simpa [quoted] using text, body, rfl⟩
  | _ => simp at text

/-- What stands between the brackets of an array. -/
def ArrayInside (s : Bytes) (ts : List Tree) : Prop :=
  (Ws s ∧ ts = []) ∨ ∃ items : List Item, items ≠ [] ∧ (∀ i ∈ items, Ws i.before ∧ Ws i.after) ∧
    (∀ i ∈ items, Derives i.text i.tree) ∧ s = commaSep (items.map Item.spelled) ∧ ts = items.map Item.tree

theorem derives_array {s : Bytes} {t : Tree} (derives : Derives (91 :: s) t) :
    ∃ inside ts, s = inside ++ [93] ∧ ArrayInside inside ts ∧ t = .array ts := by
  generalize text : 91 :: s = c at derives
  cases derives with
  | number like => exact absurd rfl (number_head _ (like_head (text ▸ like))).2.2.2.2.1
  | emptyArray space => exact ⟨_, _, by simpa using text, .inl ⟨space, rfl⟩, rfl⟩
  | array some spaces texts =>
    exact ⟨_, _, by simpa using text, .inr ⟨_, some, spaces, texts, rfl, rfl⟩, rfl⟩
  | _ => simp [quoted] at text

/-- What stands between the braces of an object. -/
def ObjectInside (s : Bytes) (ms : List (Bytes × Tree)) : Prop :=
  (Ws s ∧ ms = []) ∨ ∃ members : List Member, members ≠ [] ∧
    (∀ m ∈ members, Ws m.before ∧ Body m.key ∧ Ws m.beforeColon ∧ Ws m.item.before ∧ Ws m.item.after) ∧
    (∀ m ∈ members, Derives m.item.text m.item.tree) ∧ s = commaSep (members.map Member.spelled) ∧
    ms = members.map fun m => (m.key, m.item.tree)

theorem derives_object {s : Bytes} {t : Tree} (derives : Derives (123 :: s) t) :
    ∃ inside ms, s = inside ++ [125] ∧ ObjectInside inside ms ∧ t = .object ms := by
  generalize text : 123 :: s = c at derives
  cases derives with
  | number like => exact absurd rfl (number_head _ (like_head (text ▸ like))).2.2.2.2.2
  | emptyObject space => exact ⟨_, _, by simpa using text, .inl ⟨space, rfl⟩, rfl⟩
  | object some spaces texts =>
    exact ⟨_, _, by simpa using text, .inr ⟨_, some, spaces, texts, rfl, rfl⟩, rfl⟩
  | _ => simp [quoted] at text

theorem derives_null {s : Bytes} {t : Tree} (derives : Derives (110 :: s) t) : 110 :: s = lit "null" ∧ t = .null := by
  generalize text : 110 :: s = c at derives
  cases derives with
  | null => exact ⟨rfl, rfl⟩
  | number like => exact absurd rfl (number_head _ (like_head (text ▸ like))).1
  | _ => simp [quoted] at text

theorem derives_true {s : Bytes} {t : Tree} (derives : Derives (116 :: s) t) : 116 :: s = lit "true" ∧ t = .true := by
  generalize text : 116 :: s = c at derives
  cases derives with
  | true => exact ⟨rfl, rfl⟩
  | number like => exact absurd rfl (number_head _ (like_head (text ▸ like))).2.1
  | _ => simp [quoted] at text

theorem derives_false {s : Bytes} {t : Tree} (derives : Derives (102 :: s) t) : 102 :: s = lit "false" ∧ t = .false := by
  generalize text : 102 :: s = c at derives
  cases derives with
  | false => exact ⟨rfl, rfl⟩
  | number like => exact absurd rfl (number_head _ (like_head (text ▸ like))).2.2.1
  | _ => simp [quoted] at text

private theorem visible_head {c r s : Bytes} {b : UInt8} {t : Tree} (derives : Derives c t) (same : b :: s = c ++ r) :
    ∃ s', c = b :: s' ∧ Derives (b :: s') t ∧ s = s' ++ r := by
  obtain ⟨b', s', rfl, -⟩ := derives_head derives
  simp only [List.cons_append, List.cons.injEq] at same
  obtain ⟨rfl, rfl⟩ := same
  exact ⟨s', rfl, derives, rfl⟩

/-- The first visible byte inside nonempty brackets. -/
theorem items_head {items : List Item} (some : items ≠ []) (spaces : ∀ i ∈ items, Ws i.before ∧ Ws i.after)
    (texts : ∀ i ∈ items, Derives i.text i.tree) :
    ∃ w b s, commaSep (items.map Item.spelled) = w ++ b :: s ∧ Ws w ∧ startsValue b = true := by
  obtain ⟨i, rest, rfl⟩ := List.exists_cons_of_ne_nil some
  obtain ⟨b, s, head, starts⟩ := derives_head (texts i (by simp))
  refine ⟨i.before, b, ?_⟩
  by_cases last : rest = []
  · exact ⟨_, by simp [last, commaSep, Item.spelled, head]; rfl, (spaces i (by simp)).1, starts⟩
  · rw [List.map_cons, commaSep_cons_ne (by simpa using last)]
    exact ⟨_, by simp [Item.spelled, head]; rfl, (spaces i (by simp)).1, starts⟩

theorem members_head {members : List Member} (some : members ≠ []) (space : ∀ m ∈ members, Ws m.before) :
    ∃ w s, commaSep (members.map Member.spelled) = w ++ 34 :: s ∧ Ws w := by
  obtain ⟨m, rest, rfl⟩ := List.exists_cons_of_ne_nil some
  refine ⟨m.before, ?_⟩
  by_cases last : rest = []
  · exact ⟨_, by simp [last, commaSep, Member.spelled, quoted]; rfl, space m (by simp)⟩
  · rw [List.map_cons, commaSep_cons_ne (by simpa using last)]
    exact ⟨_, by simp [Member.spelled, quoted]; rfl, space m (by simp)⟩

private theorem empty_ne_items {w r r' : Bytes} {items : List Item} (space : Ws w) (some : items ≠ [])
    (spaces : ∀ i ∈ items, Ws i.before ∧ Ws i.after) (texts : ∀ i ∈ items, Derives i.text i.tree)
    (same : w ++ 93 :: r = commaSep (items.map Item.spelled) ++ 93 :: r') : False := by
  obtain ⟨w', b, s, text, space', starts⟩ := items_head some spaces texts
  rw [text, List.append_assoc, List.cons_append] at same
  obtain ⟨-, heads⟩ := ws_unique space space' rfl (starts_visible b starts).1 same
  simp only [List.cons.injEq] at heads
  exact (starts_visible b starts).2 heads.1.symm

private theorem empty_ne_members {w r r' : Bytes} {members : List Member} (space : Ws w) (some : members ≠ [])
    (spaces : ∀ m ∈ members, Ws m.before)
    (same : w ++ 125 :: r = commaSep (members.map Member.spelled) ++ 125 :: r') : False := by
  obtain ⟨w', s, text, space'⟩ := members_head some spaces
  rw [text, List.append_assoc, List.cons_append] at same
  obtain ⟨-, heads⟩ := ws_unique space space' rfl rfl same
  simp at heads

/-- A text has one reading. -/
theorem derives_unique {c : Bytes} {t : Tree} (derives : Derives c t) : Unique c t := by
  induction derives with
  | null =>
    intro c' t' r r' derives' same _ _
    rw [lit_null] at same ⊢
    obtain ⟨s', rfl, derives', -⟩ := visible_head derives' same
    obtain ⟨text, rfl⟩ := derives_null derives'
    exact ⟨by rw [text, lit_null], rfl⟩
  | true =>
    intro c' t' r r' derives' same _ _
    rw [lit_true] at same ⊢
    obtain ⟨s', rfl, derives', -⟩ := visible_head derives' same
    obtain ⟨text, rfl⟩ := derives_true derives'
    exact ⟨by rw [text, lit_true], rfl⟩
  | false =>
    intro c' t' r r' derives' same _ _
    rw [lit_false] at same ⊢
    obtain ⟨s', rfl, derives', -⟩ := visible_head derives' same
    obtain ⟨text, rfl⟩ := derives_false derives'
    exact ⟨by rw [text, lit_false], rfl⟩
  | @number n like =>
    intro c' t' r r' derives' same stops stops'
    obtain ⟨b, s, rfl, sign⟩ := like.2
    obtain ⟨s', rfl, derives', -⟩ := visible_head derives' same
    obtain ⟨like', rfl⟩ := derives_number sign derives'
    obtain ⟨text, -⟩ := run_unique like.1 like'.1 (stops ⟨_, rfl⟩) (stops' ⟨_, rfl⟩) same
    exact ⟨text, by rw [text]⟩
  | @string s body =>
    intro c' t' r r' derives' same _ _
    obtain ⟨s', rfl, derives', -⟩ := visible_head derives' same
    obtain ⟨s', rfl, body', rfl⟩ := derives_string derives'
    obtain ⟨rfl, -⟩ := body_unique body body' (by simpa [quoted] using same)
    exact ⟨rfl, rfl⟩
  | @emptyArray w space =>
    intro c' t' r r' derives' same _ _
    obtain ⟨s', rfl, derives', -⟩ := visible_head derives' same
    obtain ⟨inside, ts, rfl, ⟨space', rfl⟩ | ⟨items, some, spaces, texts, rfl, rfl⟩, rfl⟩ := derives_array derives'
    · obtain ⟨rfl, -⟩ := @ws_unique _ _ _ _ 93 93 space space' rfl rfl (by simpa using same)
      exact ⟨rfl, rfl⟩
    · exact (empty_ne_items space some spaces texts (by simpa using same)).elim
  | @array items some spaces texts unique =>
    intro c' t' r r' derives' same _ _
    obtain ⟨s', rfl, derives', -⟩ := visible_head derives' same
    obtain ⟨inside, ts, rfl, ⟨space', rfl⟩ | ⟨items', some', spaces', texts', rfl, rfl⟩, rfl⟩ := derives_array derives'
    · exact (empty_ne_items space' some spaces texts (by simpa using same.symm)).elim
    · obtain ⟨text, trees⟩ := commaSep_unique Item.tree 93 (by decide) some some'
        (fun i member i' member' b b' _ _ sep sep' same => item_unique (unique i member) (texts i member)
          (texts' i' member') (spaces i member) (spaces' i' member') (by tauto) (by tauto) same)
        (by simpa using same)
      exact ⟨by rw [text], by rw [trees]⟩
  | @emptyObject w space =>
    intro c' t' r r' derives' same _ _
    obtain ⟨s', rfl, derives', -⟩ := visible_head derives' same
    obtain ⟨inside, ts, rfl, ⟨space', rfl⟩ | ⟨members, some, spaces, texts, rfl, rfl⟩, rfl⟩ := derives_object derives'
    · obtain ⟨rfl, -⟩ := @ws_unique _ _ _ _ 125 125 space space' rfl rfl (by simpa using same)
      exact ⟨rfl, rfl⟩
    · exact (empty_ne_members space some (fun m member => (spaces m member).1) (by simpa using same)).elim
  | @object members some spaces texts unique =>
    intro c' t' r r' derives' same _ _
    obtain ⟨s', rfl, derives', -⟩ := visible_head derives' same
    obtain ⟨inside, ts, rfl, ⟨space', rfl⟩ | ⟨members', some', spaces', texts', rfl, rfl⟩, rfl⟩ :=
      derives_object derives'
    · exact (empty_ne_members space' some (fun m member => (spaces m member).1) (by simpa using same.symm)).elim
    · obtain ⟨text, trees⟩ := commaSep_unique (fun m : Member => (m.key, m.item.tree)) 125
        (by decide) some some'
        (fun m member m' member' b b' _ _ sep sep' same => member_unique (unique m member) (texts m member)
          (texts' m' member') (spaces m member) (spaces' m' member') (by tauto) (by tauto) same)
        (by simpa using same)
      exact ⟨by rw [text], by rw [trees]⟩

end Sa.JsonTexts
