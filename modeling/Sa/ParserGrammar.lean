import Sa.JsonTexts
import Sa.Parser

/-!
# What the parser accepts

The parser reads a text exactly when a prefix of it, after whitespace, spells a
tree whose number tokens have fewer than 64 bytes; what it returns is the value
of the tree and the rest of the text (`parse_iff`).
-/

namespace Sa.ParserGrammar
open Sa.CStrings Sa.NumberTexts Sa.Tinyjson Sa.JsonGrammar Sa.JsonTexts Sa.Parser

/-- The decoded bytes of the body of a string. -/
def unescape (body : Bytes) : Bytes := ((stringLoop (body ++ [34])).map Prod.fst).getD []

mutual
/-- The node that a syntax tree is read as. -/
def interp : Tree → cJSON
  | .null => .null
  | .true => .true
  | .false => .false
  | .number n => .number (strtod n)
  | .string s => .string (cstr (unescape s))
  | .array items => .array (interpItems items)
  | .object members => .object (interpMembers members)
def interpItems : List Tree → List cJSON
  | [] => []
  | t :: ts => interp t :: interpItems ts
def interpMembers : List (Bytes × Tree) → List (CString × cJSON)
  | [] => []
  | (k, t) :: ms => (cstr (unescape k), interp t) :: interpMembers ms
end

@[simp] theorem interp_array (ts : List Tree) : interp (.array ts) = .array (ts.map interp) := by
  rw [interp]
  congr 1
  induction ts with
  | nil => rfl
  | cons t ts ih => rw [interpItems, ih, List.map_cons]

@[simp] theorem interp_object (ms : List (Bytes × Tree)) :
    interp (.object ms) = .object (ms.map fun m => (cstr (unescape m.1), interp m.2)) := by
  rw [interp]
  congr 1
  induction ms with
  | nil => rfl
  | cons m ms ih => rw [interpMembers, ih, List.map_cons]

/-- The buffer of `cj_parse_number` holds the token. -/
def Leaf.Short : Leaf → Prop
  | .number n => n.length < 64
  | .string _ => True

def Short (t : Tree) : Prop := ∀ leaf ∈ t.leaves, Leaf.Short leaf

theorem short_array {ts : List Tree} : Short (.array ts) ↔ ∀ t ∈ ts, Short t := by
  simp only [Short, mem_leaves_array]
  exact ⟨fun all t member leaf inside => all leaf ⟨t, member, inside⟩, fun all leaf ⟨t, member, inside⟩ => all t member leaf inside⟩

theorem short_object {ms : List (Bytes × Tree)} : Short (.object ms) ↔ ∀ m ∈ ms, Short m.2 := by
  simp only [Short, mem_leaves_object]
  constructor
  · intro all m member leaf inside
    exact all leaf ⟨m, member, .inr inside⟩
  · rintro all leaf ⟨m, member, rfl | inside⟩
    · trivial
    · exact all m member leaf inside

theorem isNumberChar_eq : isNumberChar = isNumChar := rfl

theorem skip_ws_append {w s : Bytes} (space : Ws w) : cj_skip_ws (w ++ s) = cj_skip_ws s := by
  unfold cj_skip_ws
  rw [List.dropWhile_append_of_pos]
  exact space

theorem skip_ws_self {s : Bytes} (visible : ∀ b ∈ s.head?, isWs b = false) : cj_skip_ws s = s := by
  cases s with
  | nil => rfl
  | cons b t =>
    have : isSpace b = false := visible b rfl
    simp [cj_skip_ws, this]

/-- Skipping splits off whitespace, up to a byte that is none. -/
theorem skip_ws_split (s : Bytes) :
    ∃ w, s = w ++ cj_skip_ws s ∧ Ws w ∧ ∀ b ∈ (cj_skip_ws s).head?, isWs b = false := by
  refine ⟨s.takeWhile isSpace, (List.takeWhile_append_dropWhile).symm, ?_, ?_⟩
  · intro b member
    exact List.mem_takeWhile_imp member
  · intro b member
    have := List.head?_dropWhile_not isSpace s
    unfold cj_skip_ws at member
    rw [Option.mem_def] at member
    rw [member] at this
    have stopped : isSpace b = Bool.false := by simpa using this
    exact stopped

theorem codepoint_isSome {h₁ h₂ h₃ h₄ : UInt8} :
    (codepoint h₁ h₂ h₃ h₄).isSome ↔
      (hexVal h₁).isSome ∧ (hexVal h₂).isSome ∧ (hexVal h₃).isSome ∧ (hexVal h₄).isSome := by
  unfold codepoint
  cases hexVal h₁ <;> cases hexVal h₂ <;> cases hexVal h₃ <;> cases hexVal h₄ <;> simp

theorem shortEscape_isSome (e : UInt8) : (shortEscape e).isSome = isShortEscape e := by
  revert e
  decide +kernel

theorem stringLoop_raw {b : UInt8} (s : Bytes) (noQuote : b ≠ 34) (noSlash : b ≠ 92) :
    stringLoop (b :: s) = (stringLoop s).map fun (out, s) => (b :: out, s) := by
  rw [stringLoop]
  · exact noQuote
  · exact fun same => absurd same noSlash
  · intro _ _ _ _ _ same; exact absurd same noSlash
  · intro _ _ same; exact absurd same noSlash

theorem stringLoop_short {e ch : UInt8} (s : Bytes) (escape : shortEscape e = some ch) :
    stringLoop (92 :: e :: s) = (stringLoop s).map fun (out, s) => (ch :: out, s) := by
  have notU : e ≠ 117 := by rintro rfl; simp [shortEscape] at escape
  rw [stringLoop]
  · simp only [escape]
  · intro _ _ _ _ _ same; exact absurd same notU

theorem stringLoop_body {s : Bytes} (body : Body s) :
    ∃ out, ∀ r, stringLoop (s ++ 34 :: r) = some (out, r) := by
  induction body with
  | nil => exact ⟨[], fun r => by simp [stringLoop]⟩
  | @raw b s noQuote noSlash _ ih =>
    obtain ⟨out, read⟩ := ih
    refine ⟨b :: out, fun r => ?_⟩
    rw [List.cons_append, stringLoop_raw _ noQuote noSlash, read]
    rfl
  | @short e s escape _ ih =>
    obtain ⟨out, read⟩ := ih
    rw [← shortEscape_isSome] at escape
    obtain ⟨ch, decoded⟩ := Option.isSome_iff_exists.mp escape
    refine ⟨ch :: out, fun r => ?_⟩
    rw [List.cons_append, List.cons_append, stringLoop_short _ decoded, read]
    rfl
  | @unicode h₁ h₂ h₃ h₄ s d₁ d₂ d₃ d₄ _ ih =>
    obtain ⟨out, read⟩ := ih
    obtain ⟨cp, decoded⟩ := Option.isSome_iff_exists.mp (codepoint_isSome.mpr ⟨d₁, d₂, d₃, d₄⟩)
    refine ⟨encodeUtf8 cp ++ out, fun r => ?_⟩
    simp only [List.cons_append, stringLoop, decoded, read, Option.map_some]

theorem stringLoop_complete {s : Bytes} (body : Body s) (r : Bytes) :
    stringLoop (s ++ 34 :: r) = some (unescape s, r) := by
  obtain ⟨out, read⟩ := stringLoop_body body
  rw [read, unescape, read]
  rfl

theorem stringLoop_sound (s : Bytes) : ∀ out r, stringLoop s = some (out, r) → ∃ b, Body b ∧ s = b ++ 34 :: r := by
  induction s using stringLoop.induct with
  | case1 => intro out r read; simp [stringLoop] at read
  | case2 s =>
    intro out r read
    simp only [stringLoop, Option.some.injEq, Prod.mk.injEq] at read
    exact ⟨[], .nil, by rw [read.2]; rfl⟩
  | case3 => intro out r read; simp [stringLoop] at read
  | case4 h₁ h₂ h₃ h₄ s bad => intro out r read; simp [stringLoop, bad] at read
  | case5 h₁ h₂ h₃ h₄ s cp decoded ih =>
    intro out r read
    simp only [stringLoop, decoded, Option.map_eq_some_iff, Prod.exists, Prod.mk.injEq] at read
    obtain ⟨out', r', read', -, rfl⟩ := read
    obtain ⟨b, body, rfl⟩ := ih _ _ read'
    obtain ⟨d₁, d₂, d₃, d₄⟩ := codepoint_isSome.mp (Option.isSome_iff_exists.mpr ⟨cp, decoded⟩)
    exact ⟨_, .unicode d₁ d₂ d₃ d₄ body, rfl⟩
  | case6 esc s notU bad => intro out r read; rw [stringLoop] at read <;> simp_all
  | case7 esc s notU ch decoded ih =>
    intro out r read
    rw [stringLoop_short _ decoded, Option.map_eq_some_iff] at read
    obtain ⟨⟨out', r'⟩, read', same⟩ := read
    simp only [Prod.mk.injEq] at same
    obtain ⟨-, rfl⟩ := same
    obtain ⟨b, body, rfl⟩ := ih _ _ read'
    exact ⟨_, .short (by rw [← shortEscape_isSome, decoded]; rfl) body, rfl⟩
  | case8 ch s noQuote lone _ noSlash ih =>
    intro out r read
    have plain : ch ≠ 34 := fun same => noQuote same
    have slash : ch ≠ 92 := by
      rintro rfl
      cases s with
      | nil => exact lone rfl rfl
      | cons e t => exact noSlash e t rfl rfl
    rw [stringLoop_raw _ plain slash, Option.map_eq_some_iff] at read
    obtain ⟨⟨out', r'⟩, read', same⟩ := read
    simp only [Prod.mk.injEq] at same
    obtain ⟨-, rfl⟩ := same
    obtain ⟨b, body, rfl⟩ := ih _ _ read'
    exact ⟨_, .raw plain slash body, rfl⟩

/-! ### Items and members -/

theorem skip_ws_derives {w c r : Bytes} {t : Tree} (space : Ws w) (derives : Derives c t) :
    cj_skip_ws (w ++ c ++ r) = c ++ r := by
  obtain ⟨b, s, rfl, starts⟩ := derives_head derives
  rw [List.append_assoc, skip_ws_append space]
  apply skip_ws_self
  intro b' head
  cases head
  exact (starts_visible b starts).1

/-- What a parser of values returns is the value of a tree that the text spells. -/
def Sound (pv : Bytes → Option (cJSON × Bytes)) : Prop :=
  ∀ s v r, pv s = some (v, r) →
    ∃ w c t, s = w ++ c ++ r ∧ Ws w ∧ Derives c t ∧ Short t ∧ v = interp t ∧ Stops t r

/-- A parser of values reads every tree whose text has fewer than `n` bytes. -/
def Complete (pv : Bytes → Option (cJSON × Bytes)) (n : Nat) : Prop :=
  ∀ c t, c.length < n → Derives c t → Short t → ∀ w r, Ws w → Stops t r → pv (w ++ c ++ r) = some (interp t, r)

/-- The items between the brackets of an array. -/
structure Spells (items : List Item) : Prop where
  some : items ≠ []
  spaces : ∀ i ∈ items, Ws i.before ∧ Ws i.after
  texts : ∀ i ∈ items, Derives i.text i.tree
  short : ∀ i ∈ items, Short i.tree

theorem spells_cons {i : Item} {items : List Item} (before : Ws i.before) (after : Ws i.after)
    (text : Derives i.text i.tree) (short : Short i.tree) (rest : items = [] ∨ Spells items) : Spells (i :: items) := by
  rcases rest with rfl | ⟨_, spaces, texts, shorts⟩
  · exact ⟨by simp, by simp [before, after], by simp [text], by simp [short]⟩
  · exact ⟨by simp, by simpa [before, after] using spaces, by simpa [text] using texts, by simpa [short] using shorts⟩

theorem arrayLoop_sound {pv : Bytes → Option (cJSON × Bytes)} (sound : Sound pv) (fuel : Nat) :
    ∀ s vs r, arrayLoop pv fuel s = some (vs, r) →
      ∃ items, Spells items ∧ s = commaSep (items.map Item.spelled) ++ 93 :: r ∧
        vs = items.map fun i => interp i.tree := by
  induction fuel with
  | zero => intro s vs r read; simp [arrayLoop] at read
  | succ fuel ih =>
    intro s vs r read
    rw [arrayLoop] at read
    cases value : pv (cj_skip_ws s) with
    | none => simp [value] at read
    | some result =>
      obtain ⟨v, s₁⟩ := result
      obtain ⟨w₀, split, space₀, -⟩ := skip_ws_split s
      obtain ⟨w, c, t, text, space, derives, short, rfl, -⟩ := sound _ _ _ value
      obtain ⟨w₁, split₁, space₁, -⟩ := skip_ws_split s₁
      have before : Ws (w₀ ++ w) := by
        intro b member
        rcases List.mem_append.mp member with first | second
        · exact space₀ b first
        · exact space b second
      let item : Item := ⟨w₀ ++ w, c, w₁, t⟩
      simp only [value] at read
      -- The separator after the item decides whether the loop goes on.
      split at read
      · rename_i s₂ comma
        rw [Option.map_eq_some_iff] at read
        obtain ⟨⟨vs', r'⟩, later, same⟩ := read
        simp only [Prod.mk.injEq] at same
        obtain ⟨rfl, rfl⟩ := same
        obtain ⟨items, spells, rest, rfl⟩ := ih _ _ _ later
        refine ⟨item :: items, spells_cons before space₁ derives short (.inr spells), ?_, rfl⟩
        rw [List.map_cons, commaSep_cons_ne (by simpa using spells.some), split, text, split₁, comma, rest]
        simp [item, Item.spelled]
      · rename_i s₂ close
        simp only [Option.some.injEq, Prod.mk.injEq] at read
        obtain ⟨rfl, rfl⟩ := read
        refine ⟨[item], spells_cons before space₁ derives short (.inl rfl), ?_, rfl⟩
        rw [split, text, split₁, close]
        simp [item, Item.spelled, commaSep]
      · simp at read

theorem arrayLoop_complete {pv : Bytes → Option (cJSON × Bytes)} {n : Nat} (complete : Complete pv n)
    {items : List Item} (spells : Spells items) (fits : ∀ i ∈ items, i.text.length < n) (r : Bytes) :
    ∀ fuel, items.length ≤ fuel →
      arrayLoop pv fuel (commaSep (items.map Item.spelled) ++ 93 :: r) =
        some (items.map fun i => interp i.tree, r) := by
  induction items with
  | nil => exact absurd rfl spells.some
  | cons i items ih =>
    intro fuel enough
    obtain ⟨fuel, rfl⟩ : ∃ k, fuel = k + 1 := ⟨fuel - 1, by simp at enough; omega⟩
    have spaces := spells.spaces i (by simp)
    have derives := spells.texts i (by simp)
    have read : ∀ (b : UInt8) rest, isNumChar b = false →
        pv (cj_skip_ws (i.spelled ++ b :: rest)) = some (interp i.tree, i.after ++ b :: rest) := by
      intro b rest stop
      rw [Item.spelled, List.append_assoc, skip_ws_derives spaces.1 derives]
      exact complete i.text i.tree (fits i (by simp)) derives (spells.short i (by simp)) [] _
        (by intro b member; cases member) (stops_of_space spaces.2 stop)
    have skip : ∀ (b : UInt8) rest, isWs b = false → cj_skip_ws (i.after ++ b :: rest) = b :: rest := by
      intro b rest visible
      rw [skip_ws_append spaces.2]
      exact skip_ws_self (by intro b' head; cases head; exact visible)
    by_cases last : items = []
    · subst last
      simp [arrayLoop, commaSep, read 93 r rfl, skip 93 r rfl]
    · have tail : Spells items := ⟨last, fun j m => spells.spaces j (by simp [m]), fun j m => spells.texts j (by simp [m]),
        fun j m => spells.short j (by simp [m])⟩
      have later := ih tail (fun j m => fits j (by simp [m])) fuel (by simp at enough; omega)
      rw [List.map_cons, commaSep_cons_ne (by simpa using last), List.append_assoc, List.cons_append, arrayLoop,
        read 44 _ rfl]
      simp only [skip 44 _ rfl, later, Option.map_some, List.map_cons]

/-- The members between the braces of an object. -/
structure SpellsMembers (members : List Member) : Prop where
  some : members ≠ []
  spaces : ∀ m ∈ members, Ws m.before ∧ Body m.key ∧ Ws m.beforeColon ∧ Ws m.item.before ∧ Ws m.item.after
  texts : ∀ m ∈ members, Derives m.item.text m.item.tree
  short : ∀ m ∈ members, Short m.item.tree

/-- The key and the node that a member is read as. -/
def memberValue (m : Member) : CString × cJSON := (cstr (unescape m.key), interp m.item.tree)

theorem parse_string_raw_sound {s out r : Bytes} (read : cj_parse_string_raw s = some (out, r)) :
    ∃ b, Body b ∧ s = quoted b ++ r ∧ out = unescape b := by
  unfold cj_parse_string_raw at read
  split at read
  · obtain ⟨b, body, rfl⟩ := stringLoop_sound _ _ _ read
    rw [stringLoop_complete body] at read
    simp only [Option.some.injEq, Prod.mk.injEq] at read
    exact ⟨b, body, by simp [quoted], read.1.symm⟩
  · cases read

theorem parse_string_raw_complete {b : Bytes} (body : Body b) (r : Bytes) :
    cj_parse_string_raw (quoted b ++ r) = some (unescape b, r) := by
  have : quoted b ++ r = 34 :: (b ++ 34 :: r) := by simp [quoted]
  rw [this]
  exact stringLoop_complete body r

theorem parseMember_sound {pv : Bytes → Option (cJSON × Bytes)} (sound : Sound pv) {s r : Bytes}
    {member : CString × cJSON} (read : parseMember pv s = some (member, r)) :
    ∃ before key beforeColon w c t, s = before ++ quoted key ++ beforeColon ++ 58 :: (w ++ c ++ r) ∧ Ws before ∧
      Body key ∧ Ws beforeColon ∧ Ws w ∧ Derives c t ∧ Short t ∧ member = (cstr (unescape key), interp t) := by
  obtain ⟨w₀, split₀, space₀, -⟩ := skip_ws_split s
  unfold parseMember at read
  split at read
  · cases read
  · rename_i key s₁ keyRead
    obtain ⟨b, body, text, rfl⟩ := parse_string_raw_sound keyRead
    obtain ⟨w₁, split₁, space₁, -⟩ := skip_ws_split s₁
    split at read
    · rename_i s₂ colon
      rw [Option.map_eq_some_iff] at read
      obtain ⟨⟨v, r'⟩, value, same⟩ := read
      simp only [Prod.mk.injEq] at same
      obtain ⟨rfl, rfl⟩ := same
      obtain ⟨w₂, split₂, space₂, -⟩ := skip_ws_split s₂
      obtain ⟨w, c, t, valueText, space, derives, short, rfl, -⟩ := sound _ _ _ value
      refine ⟨w₀, b, w₁, w₂ ++ w, c, t, ?_, space₀, body, space₁, ?_, derives, short, rfl⟩
      · rw [split₀, text, split₁, colon, split₂, valueText]
        simp
      · intro x inside
        rcases List.mem_append.mp inside with first | second
        · exact space₂ x first
        · exact space x second
    · cases read

theorem objectLoop_sound {pv : Bytes → Option (cJSON × Bytes)} (sound : Sound pv) (fuel : Nat) :
    ∀ s vs r, objectLoop pv fuel s = some (vs, r) →
      ∃ members, SpellsMembers members ∧ s = commaSep (members.map Member.spelled) ++ 125 :: r ∧
        vs = members.map memberValue := by
  induction fuel with
  | zero => intro s vs r read; simp [objectLoop] at read
  | succ fuel ih =>
    intro s vs r read
    rw [objectLoop] at read
    cases value : parseMember pv s with
    | none => simp [value] at read
    | some result =>
      obtain ⟨v, s₁⟩ := result
      obtain ⟨before, key, beforeColon, w, c, t, text, space₀, body, spaceColon, space, derives, short, rfl⟩ :=
        parseMember_sound sound value
      obtain ⟨w₁, split₁, space₁, -⟩ := skip_ws_split s₁
      let m : Member := ⟨before, key, beforeColon, ⟨w, c, w₁, t⟩⟩
      simp only [value] at read
      split at read
      · rename_i s₂ comma
        rw [Option.map_eq_some_iff] at read
        obtain ⟨⟨vs', r'⟩, later, same⟩ := read
        simp only [Prod.mk.injEq] at same
        obtain ⟨rfl, rfl⟩ := same
        obtain ⟨members, spells, rest, rfl⟩ := ih _ _ _ later
        refine ⟨m :: members, ⟨by simp, ?_, ?_, ?_⟩, ?_, rfl⟩
        · simpa [m, space₀, body, spaceColon, space, space₁] using spells.spaces
        · simpa [m, derives] using spells.texts
        · simpa [m, short] using spells.short
        · rw [List.map_cons, commaSep_cons_ne (by simpa using spells.some), text, split₁, comma, rest]
          simp [m, Member.spelled, Item.spelled]
      · rename_i s₂ close
        simp only [Option.some.injEq, Prod.mk.injEq] at read
        obtain ⟨rfl, rfl⟩ := read
        refine ⟨[m], ⟨by simp, ?_, ?_, ?_⟩, ?_, rfl⟩
        · simp [m, space₀, body, spaceColon, space, space₁]
        · simp [m, derives]
        · simp [m, short]
        · rw [text, split₁, close]
          simp [m, Member.spelled, Item.spelled, commaSep]
      · simp at read

private theorem skip_ws_visible {w r : Bytes} {b : UInt8} (space : Ws w) (visible : isWs b = false) :
    cj_skip_ws (w ++ b :: r) = b :: r := by
  rw [skip_ws_append space]
  exact skip_ws_self (by intro b' head; cases head; exact visible)

theorem parseMember_complete {pv : Bytes → Option (cJSON × Bytes)} {n : Nat} (complete : Complete pv n) {m : Member}
    (spaces : Ws m.before ∧ Body m.key ∧ Ws m.beforeColon ∧ Ws m.item.before ∧ Ws m.item.after)
    (derives : Derives m.item.text m.item.tree) (short : Short m.item.tree) (fits : m.item.text.length < n)
    (b : UInt8) (r : Bytes) (stop : isNumChar b = false) :
    parseMember pv (m.spelled ++ b :: r) = some (memberValue m, m.item.after ++ b :: r) := by
  obtain ⟨before, body, beforeColon, space, after⟩ := spaces
  have spelled : m.spelled ++ b :: r =
      m.before ++ 34 :: (m.key ++ 34 :: (m.beforeColon ++ 58 :: (m.item.before ++ m.item.text ++ (m.item.after ++ b :: r)))) := by
    simp [Member.spelled, Item.spelled, quoted]
  have key : cj_parse_string_raw (34 :: (m.key ++ 34 :: (m.beforeColon ++ 58 ::
      (m.item.before ++ m.item.text ++ (m.item.after ++ b :: r))))) = some (unescape m.key, m.beforeColon ++ 58 ::
      (m.item.before ++ m.item.text ++ (m.item.after ++ b :: r))) := stringLoop_complete body _
  have value : pv (cj_skip_ws (m.item.before ++ m.item.text ++ (m.item.after ++ b :: r))) =
      some (interp m.item.tree, m.item.after ++ b :: r) := by
    rw [skip_ws_derives space derives]
    exact complete m.item.text m.item.tree fits derives short [] _ (by intro b member; cases member)
      (stops_of_space after stop)
  rw [spelled, parseMember, skip_ws_visible before rfl]
  simp only [key, skip_ws_visible beforeColon (b := 58) rfl, value, Option.map_some, memberValue]

theorem objectLoop_complete {pv : Bytes → Option (cJSON × Bytes)} {n : Nat} (complete : Complete pv n)
    {members : List Member} (spells : SpellsMembers members) (fits : ∀ m ∈ members, m.item.text.length < n) (r : Bytes) :
    ∀ fuel, members.length ≤ fuel →
      objectLoop pv fuel (commaSep (members.map Member.spelled) ++ 125 :: r) = some (members.map memberValue, r) := by
  induction members with
  | nil => exact absurd rfl spells.some
  | cons m members ih =>
    intro fuel enough
    obtain ⟨fuel, rfl⟩ : ∃ k, fuel = k + 1 := ⟨fuel - 1, by simp at enough; omega⟩
    have spaces := spells.spaces m (by simp)
    have read := parseMember_complete complete spaces (spells.texts m (by simp)) (spells.short m (by simp))
      (fits m (by simp))
    by_cases last : members = []
    · subst last
      simp [objectLoop, commaSep, read 125 r rfl, skip_ws_visible spaces.2.2.2.2 (b := 125) rfl]
    · have tail : SpellsMembers members := ⟨last, fun j i => spells.spaces j (by simp [i]),
        fun j i => spells.texts j (by simp [i]), fun j i => spells.short j (by simp [i])⟩
      have later := ih tail (fun j i => fits j (by simp [i])) fuel (by simp at enough; omega)
      rw [List.map_cons, commaSep_cons_ne (by simpa using last), List.append_assoc, List.cons_append, objectLoop,
        read 44 _ rfl]
      simp only [skip_ws_visible spaces.2.2.2.2 (b := 44) rfl, later, Option.map_some, List.map_cons]

/-! ### Values -/

theorem literal_sound {word s r : Bytes} {v v' : cJSON} (read : literal word v s = some (v', r)) :
    s = word ++ r ∧ v' = v := by
  unfold literal at read
  split at read
  · rename_i isPrefix
    obtain ⟨t, rfl⟩ := isPrefix
    simp only [List.drop_left, Option.some.injEq, Prod.mk.injEq] at read
    exact ⟨by rw [read.2], read.1.symm⟩
  · cases read

theorem parse_number_sound {s r : Bytes} {v : cJSON} (number : ∃ b t, s = b :: t ∧ (b = 45 ∨ isdigit b = true))
    (read : cj_parse_number s = some (v, r)) :
    ∃ n, s = n ++ r ∧ NumberLike n ∧ n.length < 64 ∧ v = .number (strtod n) ∧ ∀ b ∈ r.head?, isNumChar b = false := by
  unfold cj_parse_number at read
  simp only at read
  split_ifs at read with empty long
  simp only [Option.some.injEq, Prod.mk.injEq] at read
  obtain ⟨rfl, rfl⟩ := read
  refine ⟨_, List.takeWhile_append_dropWhile.symm, ⟨fun b member => List.mem_takeWhile_imp member, ?_⟩, by omega, rfl, ?_⟩
  · obtain ⟨b, t, rfl, sign⟩ := number
    refine ⟨b, t.takeWhile isNumberChar, ?_, sign⟩
    rw [List.takeWhile_cons_of_pos]
    rcases sign with rfl | digit
    · rfl
    · simp [isNumberChar, digit]
  · intro b head
    have stopped := List.head?_dropWhile_not isNumberChar s
    rw [Option.mem_def] at head
    rw [head] at stopped
    have notNumber : isNumberChar b = Bool.false := by simpa using stopped
    exact notNumber

theorem parse_number_complete {n r : Bytes} (like : NumberLike n) (short : n.length < 64)
    (stops : ∀ b ∈ r.head?, isNumChar b = false) :
    cj_parse_number (n ++ r) = some (.number (strtod n), r) := by
  have all : ∀ b ∈ n, isNumberChar b = true := like.1
  have taken : (n ++ r).takeWhile isNumberChar = n := by
    rw [List.takeWhile_append_of_pos all]
    cases r with
    | nil => simp
    | cons b t => rw [List.takeWhile_cons_of_neg (by simpa [isNumberChar_eq] using stops b rfl), List.append_nil]
  have dropped : (n ++ r).dropWhile isNumberChar = r := by
    rw [List.dropWhile_append_of_pos all]
    cases r with
    | nil => rfl
    | cons b t => rw [List.dropWhile_cons_of_neg (by simpa [isNumberChar_eq] using stops b rfl)]
  obtain ⟨b, t, rfl, -⟩ := like.2
  unfold cj_parse_number
  simp only [taken, dropped]
  rw [if_neg (by simp), if_neg (by omega)]

theorem parse_array_sound {pv : Bytes → Option (cJSON × Bytes)} (sound : Sound pv) {s r : Bytes} {v : cJSON}
    (read : cj_parse_array pv s = some (v, r)) : ∃ c t, s = c ++ r ∧ Derives c t ∧ Short t ∧ v = interp t ∧ Stops t r := by
  unfold cj_parse_array at read
  split at read
  · rename_i t
    obtain ⟨w, split, space, -⟩ := skip_ws_split t
    split at read
    · rename_i s' close
      simp only [Option.some.injEq, Prod.mk.injEq] at read
      obtain ⟨rfl, rfl⟩ := read
      refine ⟨_, _, ?_, .emptyArray space, ?_, ?_, ?_⟩
      · rw [split, close]; simp
      · simp [Short, Tree.leaves, leavesOfItems]
      · simp
      · rintro ⟨n, number⟩; cases number
    · rw [Option.map_eq_some_iff] at read
      obtain ⟨⟨vs, r'⟩, loop, same⟩ := read
      simp only [Prod.mk.injEq] at same
      obtain ⟨rfl, rfl⟩ := same
      obtain ⟨items, spells, text, rfl⟩ := arrayLoop_sound sound _ _ _ _ loop
      obtain ⟨i, rest, rfl⟩ := List.exists_cons_of_ne_nil spells.some
      -- The whitespace after the bracket belongs to the first item.
      let items : List Item := ⟨w ++ i.before, i.text, i.after, i.tree⟩ :: rest
      have joined : t = commaSep (items.map Item.spelled) ++ 93 :: r' := by
        rw [split, text]
        cases rest with
        | nil => simp [items, commaSep, Item.spelled]
        | cons j rest => simp [items, commaSep, Item.spelled]
      have spaces : ∀ j ∈ items, Ws j.before ∧ Ws j.after := by
        intro j member
        rcases List.mem_cons.mp member with rfl | later
        · refine ⟨?_, (spells.spaces i (by simp)).2⟩
          intro b inside
          rcases List.mem_append.mp inside with first | second
          · exact space b first
          · exact (spells.spaces i (by simp)).1 b second
        · exact spells.spaces j (by simp [later])
      have texts : ∀ j ∈ items, Derives j.text j.tree := by
        intro j member
        rcases List.mem_cons.mp member with rfl | later
        · exact spells.texts i (by simp)
        · exact spells.texts j (by simp [later])
      refine ⟨_, _, ?_, @Derives.array items (by simp [items]) spaces texts, ?_, ?_, ?_⟩
      · rw [joined]; simp
      · rw [short_array]
        simpa [items] using spells.short
      · simp [items]
      · rintro ⟨n, number⟩; cases number
  · cases read

theorem parse_object_sound {pv : Bytes → Option (cJSON × Bytes)} (sound : Sound pv) {s r : Bytes} {v : cJSON}
    (read : cj_parse_object pv s = some (v, r)) : ∃ c t, s = c ++ r ∧ Derives c t ∧ Short t ∧ v = interp t ∧ Stops t r := by
  unfold cj_parse_object at read
  split at read
  · rename_i t
    obtain ⟨w, split, space, -⟩ := skip_ws_split t
    split at read
    · rename_i s' close
      simp only [Option.some.injEq, Prod.mk.injEq] at read
      obtain ⟨rfl, rfl⟩ := read
      refine ⟨_, _, ?_, .emptyObject space, ?_, ?_, ?_⟩
      · rw [split, close]; simp
      · simp [Short, Tree.leaves, leavesOfMembers]
      · simp
      · rintro ⟨n, number⟩; cases number
    · rw [Option.map_eq_some_iff] at read
      obtain ⟨⟨vs, r'⟩, loop, same⟩ := read
      simp only [Prod.mk.injEq] at same
      obtain ⟨rfl, rfl⟩ := same
      obtain ⟨members, spells, text, rfl⟩ := objectLoop_sound sound _ _ _ _ loop
      obtain ⟨m, rest, rfl⟩ := List.exists_cons_of_ne_nil spells.some
      let members : List Member := ⟨w ++ m.before, m.key, m.beforeColon, m.item⟩ :: rest
      have joined : t = commaSep (members.map Member.spelled) ++ 125 :: r' := by
        rw [split, text]
        cases rest with
        | nil => simp [members, commaSep, Member.spelled]
        | cons j rest => simp [members, commaSep, Member.spelled]
      have first := spells.spaces m (by simp)
      have spaces : ∀ j ∈ members, Ws j.before ∧ Body j.key ∧ Ws j.beforeColon ∧ Ws j.item.before ∧ Ws j.item.after := by
        intro j member
        rcases List.mem_cons.mp member with rfl | later
        · refine ⟨?_, first.2⟩
          intro b inside
          rcases List.mem_append.mp inside with outer | inner
          · exact space b outer
          · exact first.1 b inner
        · exact spells.spaces j (by simp [later])
      have texts : ∀ j ∈ members, Derives j.item.text j.item.tree := by
        intro j member
        rcases List.mem_cons.mp member with rfl | later
        · exact spells.texts m (by simp)
        · exact spells.texts j (by simp [later])
      refine ⟨_, _, ?_, @Derives.object members (by simp [members]) spaces texts, ?_, ?_, ?_⟩
      · rw [joined]; simp
      · rw [short_object]
        simpa [members] using spells.short
      · simp [members, memberValue, Function.comp_def]
      · rintro ⟨n, number⟩; cases number
  · cases read

private theorem orElse_eq_some {α : Type} {o o' : Option α} {v : α} (found : (o <|> o') = some v) :
    o = some v ∨ o' = some v := by
  cases o with
  | none => exact .inr (by simpa using found)
  | some x => exact .inl (by simpa using found)

theorem parseValue_sound {pv : Bytes → Option (cJSON × Bytes)} (sound : Sound pv) : Sound (parseValue pv) := by
  intro s v r read
  obtain ⟨w, split, space, -⟩ := skip_ws_split s
  -- Each branch reads a tree from the first visible byte on.
  suffices tree : ∃ c t, cj_skip_ws s = c ++ r ∧ Derives c t ∧ Short t ∧ v = interp t ∧ Stops t r by
    obtain ⟨c, t, text, rest⟩ := tree
    exact ⟨w, c, t, by rw [List.append_assoc, ← text]; exact split, space, rest⟩
  unfold parseValue at read
  split at read
  · cases read
  · rename_i ch t visible
    rw [visible]
    split_ifs at read with quote brace bracket number
    · unfold cj_parse_string at read
      rw [Option.map_eq_some_iff] at read
      obtain ⟨⟨out, r'⟩, raw, same⟩ := read
      simp only [Prod.mk.injEq] at same
      obtain ⟨rfl, rfl⟩ := same
      obtain ⟨b, body, text, rfl⟩ := parse_string_raw_sound raw
      exact ⟨_, _, text, .string body, by simp [Short, Tree.leaves, Leaf.Short], by rw [interp],
        by rintro ⟨n, number⟩; cases number⟩
    · exact parse_object_sound sound read
    · exact parse_array_sound sound read
    · obtain ⟨n, text, like, short, rfl, stops⟩ := parse_number_sound ⟨ch, t, rfl, by simpa using number⟩ read
      exact ⟨_, _, text, .number like, by simpa [Short, Tree.leaves, Leaf.Short] using short, by rw [interp],
        fun _ => stops⟩
    · have plain : ∀ t : Tree, t = .true ∨ t = .false ∨ t = .null → Short t ∧ ∀ r, Stops t r := by
        rintro t (rfl | rfl | rfl) <;>
          exact ⟨by simp [Short, Tree.leaves], fun r => by rintro ⟨n, number⟩; cases number⟩
      rcases orElse_eq_some read with first | later
      · obtain ⟨text, rfl⟩ := literal_sound first
        exact ⟨_, .true, text, .true, (plain _ (by simp)).1, by rw [interp], (plain _ (by simp)).2 r⟩
      rcases orElse_eq_some later with second | third
      · obtain ⟨text, rfl⟩ := literal_sound second
        exact ⟨_, .false, text, .false, (plain _ (by simp)).1, by rw [interp], (plain _ (by simp)).2 r⟩
      · obtain ⟨text, rfl⟩ := literal_sound third
        exact ⟨_, .null, text, .null, (plain _ (by simp)).1, by rw [interp], (plain _ (by simp)).2 r⟩

/-- At a visible byte `parseValue` looks at it and nothing else first. -/
theorem parseValue_space {pv : Bytes → Option (cJSON × Bytes)} {w s : Bytes} (space : Ws w) :
    parseValue pv (w ++ s) = parseValue pv s := by
  unfold parseValue
  rw [skip_ws_append space]

theorem parse_array_complete {pv : Bytes → Option (cJSON × Bytes)} {n : Nat} (complete : Complete pv n)
    {items : List Item} (spells : Spells items) (fits : ∀ i ∈ items, i.text.length < n) (r : Bytes) :
    cj_parse_array pv (91 :: (commaSep (items.map Item.spelled) ++ 93 :: r)) =
      some (.array (items.map fun i => interp i.tree), r) := by
  obtain ⟨i, rest, rfl⟩ := List.exists_cons_of_ne_nil spells.some
  let trimmed : Item := ⟨[], i.text, i.after, i.tree⟩
  have joined : commaSep ((i :: rest).map Item.spelled) = i.before ++ commaSep ((trimmed :: rest).map Item.spelled) := by
    cases rest with
    | nil => simp [trimmed, commaSep, Item.spelled]
    | cons j rest => simp [trimmed, commaSep, Item.spelled]
  obtain ⟨b, t, head, starts⟩ := derives_head (spells.texts i (by simp))
  have visible := starts_visible b starts
  have text : ∃ t', commaSep ((trimmed :: rest).map Item.spelled) ++ 93 :: r = b :: t' := by
    cases rest with
    | nil => exact ⟨_, by simp [trimmed, commaSep, Item.spelled, head]; rfl⟩
    | cons j rest => exact ⟨_, by simp [trimmed, commaSep, Item.spelled, head]; rfl⟩
  obtain ⟨t', text⟩ := text
  have skipped : cj_skip_ws (commaSep ((i :: rest).map Item.spelled) ++ 93 :: r) = b :: t' := by
    rw [joined, List.append_assoc, skip_ws_append (spells.spaces i (by simp)).1, text]
    exact skip_ws_self (by intro b' same; cases same; exact visible.1)
  have trimmedSpells : Spells (trimmed :: rest) := by
    have spaces := spells.spaces
    have texts := spells.texts
    have short := spells.short
    simp only [List.forall_mem_cons] at spaces texts short
    refine ⟨by simp, ?_, ?_, ?_⟩
    · simpa [trimmed, Ws] using ⟨spaces.1.2, spaces.2⟩
    · simpa [trimmed, texts.1] using texts.2
    · simpa [trimmed, short.1] using short.2
  have loop := arrayLoop_complete complete trimmedSpells
    (by simpa [trimmed] using fits) r (commaSep ((i :: rest).map Item.spelled) ++ 93 :: r).length
    (by
      have := count_le_commaSep ((trimmed :: rest).map Item.spelled)
      rw [joined]
      simp only [List.length_map, List.length_append, List.length_cons] at this ⊢
      omega)
  unfold cj_parse_array
  simp only [skipped]
  split
  · rename_i same
    simp only [List.cons.injEq] at same
    exact absurd same.1 visible.2
  · rename_i s' _
    rw [← text, loop]
    simp [trimmed]

theorem parse_object_complete {pv : Bytes → Option (cJSON × Bytes)} {n : Nat} (complete : Complete pv n)
    {members : List Member} (spells : SpellsMembers members) (fits : ∀ m ∈ members, m.item.text.length < n) (r : Bytes) :
    cj_parse_object pv (123 :: (commaSep (members.map Member.spelled) ++ 125 :: r)) =
      some (.object (members.map memberValue), r) := by
  obtain ⟨m, rest, rfl⟩ := List.exists_cons_of_ne_nil spells.some
  let trimmed : Member := ⟨[], m.key, m.beforeColon, m.item⟩
  have joined : commaSep ((m :: rest).map Member.spelled) =
      m.before ++ commaSep ((trimmed :: rest).map Member.spelled) := by
    cases rest with
    | nil => simp [trimmed, commaSep, Member.spelled]
    | cons j rest => simp [trimmed, commaSep, Member.spelled]
  have text : ∃ t, commaSep ((trimmed :: rest).map Member.spelled) ++ 125 :: r = 34 :: t := by
    cases rest with
    | nil => exact ⟨_, by simp [trimmed, commaSep, Member.spelled, quoted]; rfl⟩
    | cons j rest => exact ⟨_, by simp [trimmed, commaSep, Member.spelled, quoted]; rfl⟩
  obtain ⟨t, text⟩ := text
  have skipped : cj_skip_ws (commaSep ((m :: rest).map Member.spelled) ++ 125 :: r) = 34 :: t := by
    rw [joined, List.append_assoc, skip_ws_append (spells.spaces m (by simp)).1, text]
    exact skip_ws_self (by intro b' same; cases same; rfl)
  have trimmedSpells : SpellsMembers (trimmed :: rest) := by
    have spaces := spells.spaces
    have texts := spells.texts
    have short := spells.short
    simp only [List.forall_mem_cons] at spaces texts short
    refine ⟨by simp, ?_, ?_, ?_⟩
    · simpa [trimmed, Ws] using ⟨spaces.1.2, spaces.2⟩
    · simpa [trimmed, texts.1] using texts.2
    · simpa [trimmed, short.1] using short.2
  have loop := objectLoop_complete complete trimmedSpells
    (by simpa [trimmed] using fits) r (commaSep ((m :: rest).map Member.spelled) ++ 125 :: r).length
    (by
      have := count_le_commaSep ((trimmed :: rest).map Member.spelled)
      rw [joined]
      simp only [List.length_map, List.length_append, List.length_cons] at this ⊢
      omega)
  unfold cj_parse_object
  simp only [skipped]
  split
  · rename_i same
    simp at same
  · rw [← text, loop]
    simp [trimmed, memberValue]

private theorem first_bytes : ∀ b : UInt8, (b = 45 ∨ isdigit b = true) →
    b ≠ 34 ∧ b ≠ 123 ∧ b ≠ 91 ∧ (b = 45 || isdigit b) = true := by decide +kernel

private theorem take_length_lt_items {items : List Item} {n : Nat}
    (fits : (91 :: (commaSep (items.map Item.spelled) ++ [93])).length < n + 1) : ∀ i ∈ items, i.text.length < n := by
  intro i member
  have := length_le_commaSep (List.mem_map_of_mem (f := Item.spelled) member)
  simp only [Item.spelled, List.length_append, List.length_cons, List.length_nil] at this fits
  omega

private theorem take_length_lt_members {members : List Member} {n : Nat}
    (fits : (123 :: (commaSep (members.map Member.spelled) ++ [125])).length < n + 1) :
    ∀ m ∈ members, m.item.text.length < n := by
  intro m member
  have := length_le_commaSep (List.mem_map_of_mem (f := Member.spelled) member)
  simp only [Member.spelled, Item.spelled, List.length_append, List.length_cons, List.length_nil] at this fits
  omega

theorem parseValue_complete {pv : Bytes → Option (cJSON × Bytes)} {n : Nat} (complete : Complete pv n) :
    Complete (parseValue pv) (n + 1) := by
  intro c t fits derives short w r space stops
  rw [List.append_assoc, parseValue_space space]
  obtain ⟨b, s, head, starts⟩ := derives_head derives
  have visible : cj_skip_ws (c ++ r) = c ++ r :=
    skip_ws_self (by rw [head]; intro b' same; cases same; exact (starts_visible b starts).1)
  unfold parseValue
  rw [visible]
  cases derives with
  | null => rfl
  | true => rfl
  | false => rfl
  | number like =>
    have read := parse_number_complete like (by simpa [Short, Tree.leaves, Leaf.Short] using short) (stops ⟨_, rfl⟩)
    obtain ⟨-, b', s', text, sign⟩ := like
    obtain ⟨noQuote, noBrace, noBracket, number⟩ := first_bytes b' sign
    rw [text] at read ⊢
    simp only [List.cons_append, noQuote, noBrace, noBracket, number, if_true, if_false] at read ⊢
    rw [read, interp]
  | string body =>
    have read := parse_string_raw_complete body r
    simp only [quoted, List.cons_append] at read ⊢
    simp only [if_true, cj_parse_string, read, Option.map_some, interp]
  | @emptyArray w' space' =>
    have close : cj_skip_ws (w' ++ 93 :: r) = 93 :: r := skip_ws_visible space' rfl
    simp [cj_parse_array, close]
  | array some spaces texts =>
    have spells : Spells _ := ⟨some, spaces, texts, by simpa [short_array] using short⟩
    have read := parse_array_complete complete spells (take_length_lt_items fits) r
    simp only [List.cons_append, List.append_assoc, List.nil_append] at read ⊢
    rw [if_neg (by decide), if_neg (by decide), if_pos trivial, read]
    simp
  | @emptyObject w' space' =>
    have close : cj_skip_ws (w' ++ 125 :: r) = 125 :: r := skip_ws_visible space' rfl
    simp [cj_parse_object, close]
  | object some spaces texts =>
    have spells : SpellsMembers _ := ⟨some, spaces, texts, by simpa [short_object] using short⟩
    have read := parse_object_complete complete spells (take_length_lt_members fits) r
    simp only [List.cons_append, List.append_assoc, List.nil_append] at read ⊢
    rw [if_neg (by decide), if_pos trivial, read]
    simp [memberValue, Function.comp_def]

theorem parseNested_sound (depth : Nat) : Sound (parseNested depth) := by
  induction depth with
  | zero => intro s v r read; simp [parseNested] at read
  | succ depth ih => exact parseValue_sound ih

theorem parseNested_complete (depth : Nat) : Complete (parseNested depth) depth := by
  induction depth with
  | zero => intro c t fits; exact absurd fits (Nat.not_lt_zero _)
  | succ depth ih => exact parseValue_complete ih

/-- The parser's meaning: the value of a spelled tree and the rest of the text. -/
theorem parse_iff {s : Bytes} {v : cJSON} {r : Bytes} :
    cj_parse_value s = some (v, r) ↔
      ∃ w c t, s = w ++ c ++ r ∧ Ws w ∧ Derives c t ∧ Short t ∧ v = interp t ∧ Stops t r := by
  constructor
  · intro read
    exact parseNested_sound _ s v r read
  · rintro ⟨w, c, t, rfl, space, derives, short, rfl, stops⟩
    refine parseNested_complete _ c t ?_ derives short w r space stops
    simp only [List.length_append]
    omega

/-- The recursion equation of the source. -/
theorem cj_parse_value_eq (s : Bytes) : cj_parse_value s = parseValue cj_parse_value s := by
  have sound : Sound cj_parse_value := fun s v r => parse_iff.mp
  have complete : ∀ n, Complete cj_parse_value n := by
    intro n c t _ derives short w r space stops
    exact parse_iff.mpr ⟨w, c, t, rfl, space, derives, short, rfl, stops⟩
  have same : ∀ v r, cj_parse_value s = some (v, r) ↔ parseValue cj_parse_value s = some (v, r) := by
    intro v r
    constructor
    · intro read
      obtain ⟨w, c, t, rfl, space, derives, short, rfl, stops⟩ := parse_iff.mp read
      exact parseValue_complete (complete c.length) c t (by omega) derives short w r space stops
    · intro read
      exact parse_iff.mpr (parseValue_sound sound s v r read)
  apply Option.ext
  rintro ⟨v, r⟩
  exact same v r

end Sa.ParserGrammar
