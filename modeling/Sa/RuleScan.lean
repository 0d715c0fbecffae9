import Sa.Cursor
import Sa.RulePaths

/-!
# The scan of a rule file

`parse_rule` once more, over the memory it runs on: the bytes that `content` points to,
with reads that are checked, and the rows of `paths`, with writes that are. The scan
keeps a record of the items it comes to, as the pointers stand when the length of the
item is taken. It leaves the globs that the parser over lines reads.
-/

namespace Sa.RuleScan
open Sa.CStrings Sa.Session
open Sa.Rules (isLeading isTrailing pathItem pathLines MAX_RULE_PATHS)
open Sa.Cursor (Fault byteAt startsAt ok_bind)

/-- The fields the scan works on, and the bytes `content` points to. -/
structure rule_t where
  paths : Vector (Vector UInt8 256) MAX_RULE_PATHS
  path_count : ℕ
  content : Bytes

/-- `r->paths[i][j] = b`. -/
def rule_t.store (r : rule_t) (i j : ℕ) (b : UInt8) : Except Fault rule_t :=
  if inRange : i < MAX_RULE_PATHS then
    if room : j < 256 then .ok { r with paths := r.paths.set i (r.paths[i].set j b) } else .error .write
  else .error .write

/-- `memcpy(r->paths[i] + j, q, n)`, byte by byte. -/
def rule_t.memcpy (i : ℕ) : ℕ → ℕ → ℕ → rule_t → Except Fault rule_t
  | 0, _, _, r => .ok r
  | n + 1, j, q, r => do
    let b ← byteAt r.content q
    let r ← r.store i j b
    memcpy i n (j + 1) (q + 1) r

section
variable (text : Bytes)

/-- A loop over the bytes of a class, with no bound of its own. -/
def runWhile (isClass : UInt8 → Bool) : ℕ → ℕ → Except Fault ℕ
  | 0, _ => .error .spent
  | n + 1, p => do
    let b ← byteAt text p
    if isClass b then runWhile isClass n (p + 1) else .ok p

/-- `strchr(p, '\n')`. -/
def strchrNewline (n p : ℕ) : Except Fault (Option ℕ) := do
  let q ← runWhile text (fun b => b != 0 && b != 10) n p
  let b ← byteAt text q
  .ok (if b = 10 then some q else none)

def strlen (n p : ℕ) : Except Fault ℕ := do
  let q ← runWhile text (· != 0) n p
  .ok (q - p)

/-- The end of the line at `p`, its length and where the next one starts. -/
def lineEnd (n p : ℕ) : Except Fault (ℕ × ℕ × ℕ) := do
  match ← strchrNewline text n p with
  | some eol => .ok (eol, eol - p, eol + 1)
  | none => do
    let len ← strlen text n p
    .ok (p + len, len, p + len)

/-- The loop that moves the end `e` of an item back towards `q`. -/
def trimEnd (q : ℕ) : ℕ → Except Fault ℕ
  | 0 => .ok 0
  | e + 1 =>
    if q < e + 1 then do
      let b ← byteAt text e
      if isTrailing b then trimEnd q e else .ok (e + 1)
    else .ok (e + 1)

/-- An item as its length is taken: the line from `p` to `eol` and the item from `q` to `e`. -/
structure Item where
  p : ℕ
  eol : ℕ
  q : ℕ
  e : ℕ

/-- What the line from `p` to `eol` has after a dash. -/
def findItem (n p eol : ℕ) : Except Fault (Option Item) := do
  let q ← runWhile text isBlank n p
  let b ← byteAt text q
  if b = 45 then do
    let q ← runWhile text isLeading n (q + 1)
    let e ← trimEnd text q eol
    .ok (some ⟨p, eol, q, e⟩)
  else .ok none

/-- `strncmp` with a word, where the line is long enough. -/
def lineStarts (word : Bytes) (len p : ℕ) : Except Fault Bool :=
  if word.length ≤ len then startsAt text word p else .ok false

end

/-- The copy of an item to the next row. -/
def storeItem (r : rule_t) (i : Item) : Except Fault rule_t :=
  let vl := i.e - i.q
  if vl ≠ 0 ∧ r.path_count < MAX_RULE_PATHS then do
    let cl := if vl < 255 then vl else 255
    let r ← rule_t.memcpy r.path_count cl 0 i.q r
    let r ← r.store r.path_count cl 0
    .ok { r with path_count := r.path_count + 1 }
  else .ok r

/-- The loop over the lines, with the items it has come to. -/
def scanLines : ℕ → ℕ → Bool → rule_t → List Item → Except Fault (rule_t × List Item)
  | 0, _, _, _, _ => .error .spent
  | n + 1, p, in_paths, r, items => do
    let b ← byteAt r.content p
    if b = 0 then .ok (r, items) else do
      let (e, len, next) ← lineEnd r.content (n + 1) p
      if ← lineStarts r.content (lit "---") len p then .ok (r, items)
      else if b ≠ 32 ∧ b ≠ 9 then do
        let in_paths ← lineStarts r.content (lit "paths:") len p
        scanLines n next in_paths r items
      else if in_paths then do
        match ← findItem r.content (n + 1) p e with
        | some i => do
          let r ← storeItem r i
          scanLines n next in_paths r (items ++ [i])
        | none => scanLines n next in_paths r items
      else scanLines n next in_paths r items

/-- `parse_rule` once the file is read. -/
def parse_rule (n : ℕ) (r : rule_t) : Except Fault (rule_t × List Item) := do
  let r := { r with path_count := 0 }
  if ← startsAt r.content (lit "---") 0 then do
    match ← strchrNewline r.content n 0 with
    | some p => scanLines n (p + 1) false r []
    | none => .ok (r, [])
  else .ok (r, [])

/-- `l` is what is left of a line at `p`, and `b` the newline or the NUL after it. -/
structure At (text : Bytes) (p : ℕ) (l : Bytes) (b : UInt8) : Prop where
  here : ∃ after, text.drop p = l ++ b :: after
  line : 0 ∉ l ∧ 10 ∉ l
  ends : b = 0 ∨ b = 10

section
variable {text : Bytes} {p : ℕ} {l : Bytes} {b : UInt8}

theorem At.read {c : UInt8} (at' : At text p (c :: l) b) : byteAt text p = .ok c ∧ At text (p + 1) l b := by
  obtain ⟨⟨after, here⟩, line, ends⟩ := at'
  obtain ⟨read, -, rest⟩ := Cursor.byteAt_drop here
  exact ⟨read, ⟨after, rest⟩, by simp at line; exact ⟨line.1.2, line.2.2⟩, ends⟩

theorem At.stop (at' : At text p [] b) : byteAt text p = .ok b := by
  obtain ⟨after, here⟩ := at'.here
  exact (Cursor.byteAt_drop here).1

/-- A loop that neither a newline nor a NUL lets go on stays on its line. -/
theorem runWhile_line {isClass : UInt8 → Bool} (stops : isClass b = false) {n : ℕ} :
    ∀ {p : ℕ} {l : Bytes}, At text p l b → l.length < n →
      ∃ q, runWhile text isClass n p = .ok q ∧ q + (l.dropWhile isClass).length = p + l.length ∧
        At text q (l.dropWhile isClass) b := by
  induction n with
  | zero => intro p l _ enough; omega
  | succ n ih =>
    intro p l at' enough
    cases l with
    | nil => exact ⟨p, by simp [runWhile, at'.stop, stops], rfl, at'⟩
    | cons c l =>
      obtain ⟨read, next⟩ := at'.read
      cases member : isClass c with
      | true =>
        obtain ⟨q, run, same, stays⟩ := ih next (by simpa using enough)
        rw [List.dropWhile_cons_of_pos member]
        exact ⟨q, by simp [runWhile, read, member, run], by rw [same, List.length_cons]; omega, stays⟩
      | false =>
        rw [List.dropWhile_cons_of_neg (by simp [member])]
        exact ⟨p, by simp [runWhile, read, member], rfl, at'⟩

/-- A loop that the whole line lets go on ends with it. -/
theorem runWhile_all (isClass : UInt8 → Bool) (stops : isClass b = false) (all : ∀ c ∈ l, isClass c = true) {n : ℕ}
    (at' : At text p l b) (enough : l.length < n) :
    runWhile text isClass n p = .ok (p + l.length) ∧ byteAt text (p + l.length) = .ok b := by
  obtain ⟨q, run, same, stays⟩ := runWhile_line stops at' enough
  rw [List.dropWhile_eq_nil_iff.mpr all] at same stays
  obtain rfl : q = p + l.length := by simpa using same
  exact ⟨run, stays.stop⟩

theorem At.plain (at' : At text p l b) : ∀ c ∈ l, c ≠ 0 ∧ c ≠ 10 := fun _ member =>
  ⟨fun same => at'.line.1 (same ▸ member), fun same => at'.line.2 (same ▸ member)⟩

theorem strchrNewline_line {n : ℕ} (at' : At text p l b) (enough : l.length < n) :
    strchrNewline text n p = .ok (if b = 10 then some (p + l.length) else none) := by
  obtain ⟨run, stop⟩ := runWhile_all (fun b => b != 0 && b != 10) (by rcases at'.ends with rfl | rfl <;> rfl)
    (fun c member => by simpa using at'.plain c member) at' enough
  simp [strchrNewline, run, stop]

theorem lineEnd_line {n : ℕ} (at' : At text p l b) (enough : l.length < n) :
    lineEnd text n p = .ok (p + l.length, l.length, if b = 10 then p + l.length + 1 else p + l.length) := by
  rw [lineEnd, strchrNewline_line at' enough]
  rcases at'.ends with rfl | rfl
  · obtain ⟨run, -⟩ := runWhile_all (· != 0) rfl (fun c member => by simpa using (at'.plain c member).1) at' enough
    simp [strlen, run]
  · simp

/-- A word without a newline and without a NUL. -/
theorem startsAt_line {word : Bytes} (plain : ∀ c ∈ word, c ≠ 0 ∧ c ≠ 10) : ∀ {p : ℕ} {l : Bytes}, At text p l b →
    startsAt text word p = .ok (decide (word <+: l)) := by
  induction word with
  | nil => intro p l _; simp [startsAt]
  | cons w word ih =>
    intro p l at'
    have first := plain w (by simp)
    cases l with
    | nil =>
      have other : b ≠ w := by rcases at'.ends with rfl | rfl <;> simp [first.1.symm, first.2.symm]
      simp [startsAt, at'.stop, other]
    | cons c l =>
      obtain ⟨read, next⟩ := at'.read
      by_cases same : c = w
      · simp [startsAt, read, same, ih (fun c member => plain c (by simp [member])) next, List.cons_prefix_cons]
      · simp [startsAt, read, same, List.cons_prefix_cons, Ne.symm same]

theorem lineStarts_line (word : Bytes) (plain : ∀ c ∈ word, c ≠ 0 ∧ c ≠ 10) (at' : At text p l b) :
    lineStarts text word l.length p = .ok (decide (word <+: l)) := by
  unfold lineStarts
  split_ifs with enough
  · exact startsAt_line plain at'
  · have apart : ¬word <+: l := fun starts => enough starts.length_le
    simp [apart]

theorem byteAt_after {q : ℕ} {v after : Bytes} {c : UInt8} (here : text.drop q = v ++ c :: after) :
    byteAt text (q + v.length) = .ok c := by
  refine (Cursor.byteAt_drop (s := after) ?_).1
  rw [← List.drop_drop, here, List.drop_left']
  rfl

/-- The end is moved back over what trails, and not past the start of the item. -/
theorem trimEnd_total (v : Bytes) {q : ℕ} : ∀ {after : Bytes}, text.drop q = v ++ after →
    trimEnd text q (q + v.length) = .ok (q + (v.rdropWhile isTrailing).length) := by
  induction v using List.reverseRecOn with
  | nil =>
    intro after _
    cases q <;> simp [trimEnd]
  | append_singleton v c ih =>
    intro after here
    rw [List.append_assoc] at here
    have read := byteAt_after here
    have before : q < q + v.length + 1 := by omega
    rw [List.length_append, List.length_singleton, ← Nat.add_assoc, trimEnd]
    cases trails : isTrailing c with
    | true => simp [before, read, trails, ih here, List.rdropWhile_concat_pos]
    | false => simp [read, trails, List.rdropWhile_concat_neg, Nat.add_assoc]

theorem pathItem_inside {l v : Bytes} (item : pathItem l = some v) : v <:+: l := by
  unfold pathItem at item
  split at item
  · next q dash =>
    obtain rfl := Option.some.inj item
    have dropped : 45 :: q <:+ l := dash ▸ List.dropWhile_suffix _
    have after := (List.dropWhile_suffix isLeading (l := q)).trans ((List.suffix_cons 45 q).trans dropped)
    exact (List.rdropWhile_prefix isTrailing _).isInfix.trans after.isInfix
  · cases item

/-- The pointers of an item: they stand in order on the line from `p` to `eol`. -/
structure Bounds (text : Bytes) (i : Item) : Prop where
  line : ∃ l b, At text i.p l b ∧ i.eol = i.p + l.length
  forward : i.p ≤ i.q
  ordered : i.q ≤ i.e
  inside : i.e ≤ i.eol

/-- The item of a line is the one that the parser over lines takes. -/
theorem findItem_line {n : ℕ} (at' : At text p l b) (enough : l.length < n) :
    (findItem text n p (p + l.length) = .ok none ∧ pathItem l = none) ∨
    ∃ i v after, findItem text n p (p + l.length) = .ok (some i) ∧ Bounds text i ∧ pathItem l = some v ∧
      text.drop i.q = v ++ after ∧ v.length = i.e - i.q := by
  have blank : isBlank b = false := by rcases at'.ends with rfl | rfl <;> rfl
  have leading : isLeading b = false := by rcases at'.ends with rfl | rfl <;> rfl
  obtain ⟨q, run, same, stays⟩ := runWhile_line blank at' enough
  have shorter := (List.dropWhile_suffix isBlank (l := l)).length_le
  unfold pathItem
  cases item : l.dropWhile isBlank with
  | nil =>
    rw [item] at stays
    have noDash : b ≠ 45 := by rcases at'.ends with rfl | rfl <;> decide
    exact .inl ⟨by simp [findItem, run, stays.stop, noDash], rfl⟩
  | cons c rest =>
    rw [item, List.length_cons] at same shorter
    rw [item] at stays
    obtain ⟨read, next⟩ := stays.read
    by_cases dash : c = 45
    · subst dash
      obtain ⟨q', run', same', stays'⟩ := runWhile_line leading next (n := n) (by omega)
      have shorter' := (List.dropWhile_suffix isLeading (l := rest)).length_le
      obtain ⟨after, here⟩ := stays'.here
      have trimmed := trimEnd_total _ here
      have stop : q' + (rest.dropWhile isLeading).length = p + l.length := by omega
      rw [stop] at trimmed
      obtain ⟨trail, whole⟩ := List.rdropWhile_prefix isTrailing (rest.dropWhile isLeading)
      have within := congrArg List.length whole
      rw [List.length_append] at within
      refine .inr ⟨⟨p, p + l.length, q', q' + ((rest.dropWhile isLeading).rdropWhile isTrailing).length⟩, _, trail ++ b :: after,
        by simp [findItem, run, read, run', trimmed], ⟨⟨l, b, at', rfl⟩, ?_, Nat.le_add_right _ _, ?_⟩, rfl, ?_, ?_⟩
      · simp only
        omega
      · simp only
        omega
      · rw [here, ← List.append_assoc]
        conv_lhs => rw [← whole]
        rfl
      · exact (Nat.add_sub_cancel_left _ _).symm
    · exact .inl ⟨by simp [findItem, run, read, dash], by simp [dash]⟩

/-- `s` is what is left of the text before its NUL. -/
structure Rest (text : Bytes) (p : ℕ) (s : Bytes) : Prop where
  here : ∃ after, text.drop p = s ++ 0 :: after
  free : 0 ∉ s

/-- The text is one line, or there is a newline after its first. -/
theorem Rest.lines {s : Bytes} (rest : Rest text p s) : At text p s 0 ∨
    ∃ l s', s = l ++ 10 :: s' ∧ At text p l 10 ∧ Rest text (p + l.length + 1) s' := by
  obtain ⟨after, here⟩ := rest.here
  by_cases newline : 10 ∈ s
  · obtain ⟨l, s', rfl, one⟩ := List.eq_append_cons_of_mem newline
    have free := rest.free
    rw [List.mem_append, List.mem_cons, not_or, not_or] at free
    rw [List.append_assoc, List.cons_append] at here
    refine .inr ⟨l, s', rfl, ⟨⟨_, here⟩, ⟨free.1, one⟩, .inr rfl⟩, ⟨after, ?_⟩, free.2.2⟩
    rw [Nat.add_assoc, ← List.drop_drop, here, ← List.drop_drop, List.drop_left' rfl]
    rfl
  · exact .inl ⟨⟨after, here⟩, ⟨rest.free, newline⟩, .inl rfl⟩

/-- The line that a pass looks at, and what it leaves for the next. -/
theorem Rest.first_line {s : Bytes} (rest : Rest text p s) (some : s ≠ []) :
    ∃ l b s', At text p l b ∧ getlines [] s = l :: getlines [] s' ∧ s'.length < s.length ∧ l.length ≤ s.length ∧
      Rest text (if b = 10 then p + l.length + 1 else p + l.length) s' ∧
      ∃ c, byteAt text p = .ok c ∧ c ≠ 0 ∧ l.head?.any isBlank = isBlank c := by
  rcases rest.lines with at' | ⟨l, s', rfl, at', rest'⟩
  · obtain ⟨c, t, rfl⟩ := List.exists_cons_of_ne_nil some
    obtain ⟨after, here⟩ := at'.here
    have nothing : Rest text (p + (c :: t).length) [] :=
      ⟨⟨after, by rw [← List.drop_drop, here, List.drop_left' rfl]; rfl⟩, by simp⟩
    have last : getlines [] (c :: t) = [c :: t] := by
      rw [SessionFile.getlines_tail at'.line.2, List.nil_append, if_neg some]
    exact ⟨c :: t, 0, [], at', last, by simp, le_rfl, nothing, c, at'.read.1, (at'.plain c (by simp)).1, rfl⟩
  · refine ⟨l, 10, s', at', SessionFile.getlines_line at'.line.2 [] s', by simp; omega, by simp, rest', ?_⟩
    cases l with
    | nil => exact ⟨10, at'.stop, by decide, rfl⟩
    | cons c l => exact ⟨c, at'.read.1, (at'.plain c (by simp)).1, rfl⟩

end

/-- A step that writes to row `i` and changes nothing else. -/
structure OnlyRow (i : ℕ) (r r' : rule_t) : Prop where
  content : r'.content = r.content
  path_count : r'.path_count = r.path_count
  others : ∀ (k : ℕ) (inRange : k < MAX_RULE_PATHS), k ≠ i → r'.paths[k] = r.paths[k]

theorem OnlyRow.trans {i : ℕ} {r r' r'' : rule_t} (first : OnlyRow i r r') (second : OnlyRow i r' r'') : OnlyRow i r r'' :=
  ⟨second.content.trans first.content, second.path_count.trans first.path_count,
    fun k inRange other => (second.others k inRange other).trans (first.others k inRange other)⟩

theorem store_total {i : ℕ} (inRange : i < MAX_RULE_PATHS) {r : rule_t} {done rest : Bytes} {old : UInt8} (b : UInt8)
    (row : r.paths[i].toList = done ++ old :: rest) :
    ∃ r', r.store i done.length b = .ok r' ∧ r'.paths[i].toList = done ++ b :: rest ∧ OnlyRow i r r' := by
  have room : done.length < 256 := by
    have size := congrArg List.length row
    simp at size
    omega
  refine ⟨_, (dif_pos inRange).trans (dif_pos room), ?_, rfl, rfl, fun k _ other => ?_⟩
  · simp [Vector.toList_set, row]
  · simp [Ne.symm other]

/-- `memcpy` puts the bytes at `q` over those of the row from `j` on. -/
theorem memcpy_total {i : ℕ} (inRange : i < MAX_RULE_PATHS) (v : Bytes) :
    ∀ {q : ℕ} {r : rule_t} {after : Bytes} (done rest : Bytes),
    r.content.drop q = v ++ after → r.paths[i].toList = done ++ rest → v.length ≤ rest.length →
      ∃ r', rule_t.memcpy i v.length done.length q r = .ok r' ∧
        r'.paths[i].toList = done ++ v ++ rest.drop v.length ∧ OnlyRow i r r' := by
  induction v with
  | nil => exact fun {_ r _} _ _ _ row _ => ⟨r, rfl, by simpa using row, rfl, rfl, fun _ _ _ => rfl⟩
  | cons c v ih =>
    intro q r after done rest here row room
    obtain ⟨read, -, here'⟩ := Cursor.byteAt_drop here
    cases rest with
    | nil => simp at room
    | cons old rest =>
      obtain ⟨r₁, stored, row₁, only₁⟩ := store_total inRange c row
      have here₁ : r₁.content.drop (q + 1) = v ++ after := by
        rw [only₁.content]
        exact here'
      obtain ⟨r₂, copied, row₂, only₂⟩ := ih (done ++ [c]) rest here₁ (by simpa using row₁) (by simpa using room)
      rw [List.length_append, List.length_singleton] at copied
      exact ⟨r₂, by simp [rule_t.memcpy, read, stored, copied], by simpa using row₂, only₁.trans only₂⟩

/-- The rows hold these globs, each up to its terminator. -/
structure Stored (r : rule_t) (globs : List CString) : Prop where
  count : r.path_count = globs.length
  most : globs.length ≤ MAX_RULE_PATHS
  rows : ∀ (i : ℕ) (inRange : i < MAX_RULE_PATHS), ∀ glob ∈ globs[i]?, ∃ rest, r.paths[i].toList = glob.val ++ 0 :: rest

/-- The globs after an item. -/
def addGlob (globs : List CString) (v : Bytes) : List CString :=
  if v ≠ [] ∧ globs.length < MAX_RULE_PATHS then globs ++ [cstr (v.take 255)] else globs

theorem storeItem_total {r : rule_t} {globs : List CString} (stored : Stored r globs) {i : Item} {v after : Bytes}
    (here : r.content.drop i.q = v ++ after) (length : v.length = i.e - i.q) (noNul : 0 ∉ v) :
    ∃ r', storeItem r i = .ok r' ∧ r'.content = r.content ∧ Stored r' (addGlob globs v) := by
  unfold storeItem addGlob
  simp only [← length, stored.count, ne_eq, List.length_eq_zero_iff]
  by_cases some : ¬v = [] ∧ globs.length < MAX_RULE_PATHS
  · have room : globs.length < MAX_RULE_PATHS := some.2
    have cut : (if v.length < 255 then v.length else 255) = (v.take 255).length := by
      rw [List.length_take]
      split_ifs <;> omega
    have short : (v.take 255).length ≤ 255 := List.length_take_le _ _
    have same : (cstr (v.take 255)).val = v.take 255 := cstr_of_nulFree fun member => noNul (List.mem_of_mem_take member)
    have first : r.content.drop i.q = v.take 255 ++ (v.drop 255 ++ after) := by
      rw [here, ← List.append_assoc, List.take_append_drop]
    obtain ⟨r₁, copied, row₁, only₁⟩ := memcpy_total room (v.take 255) [] r.paths[globs.length].toList first rfl (by simp)
    have left : (r.paths[globs.length].toList.drop (v.take 255).length) ≠ [] := by
      intro nothing
      have := List.drop_eq_nil_iff.mp nothing
      simp at this
    obtain ⟨old, rest, split⟩ := List.exists_cons_of_ne_nil left
    rw [split, List.nil_append] at row₁
    obtain ⟨r₂, ended, row₂, only₂⟩ := store_total room 0 row₁
    have only := only₁.trans only₂
    rw [if_pos some, if_pos some, cut]
    refine ⟨{ r₂ with path_count := r₂.path_count + 1 }, ?_, only.content, ?_, ?_, fun k inRange glob member => ?_⟩
    · simp only [List.length_nil] at copied
      rw [copied, Cursor.ok_bind, only₁.path_count, stored.count, ended]
      rfl
    · simp [only.path_count, stored.count]
    · rw [List.length_append, List.length_singleton]
      exact room
    · rcases Nat.lt_trichotomy k globs.length with before | rfl | beyond
      · rw [List.getElem?_append_left before] at member
        obtain ⟨rest, row⟩ := stored.rows k inRange glob member
        exact ⟨rest, by rw [only.others k inRange before.ne, row]⟩
      · obtain rfl : cstr (v.take 255) = glob := by simpa using member
        exact ⟨rest, by rw [same, row₂]⟩
      · rw [List.getElem?_eq_none (by rw [List.length_append, List.length_singleton]; exact beyond)] at member
        cases member
  · rw [if_neg some, if_neg some]
    exact ⟨r, rfl, rfl, stored⟩

/-! ### The scan -/

theorem scanLines_total {n : ℕ} : ∀ {p : ℕ} {s : Bytes} (in_paths : Bool) {r : rule_t} {items : List Item} {globs : List CString},
    Rest r.content p s → s.length < n → Stored r globs → (∀ i ∈ items, Bounds r.content i) →
      ∃ r' items', scanLines n p in_paths r items = .ok (r', items') ∧ r'.content = r.content ∧
        Stored r' (pathLines in_paths (getlines [] s) globs) ∧ ∀ i ∈ items', Bounds r.content i := by
  induction n with
  | zero => intro p s in_paths r items globs _ enough; omega
  | succ n ih =>
    intro p s in_paths r items globs rest enough stored bounds
    by_cases ended : s = []
    · subst ended
      obtain ⟨after, here⟩ := rest.here
      have stop := (Cursor.byteAt_drop here).1
      exact ⟨r, items, by simp [scanLines, stop], rfl, stored, bounds⟩
    obtain ⟨l, b, s', at', lines, shorter, within, rest', c, read, noNul, head⟩ := rest.first_line ended
    have line := lineEnd_line (n := n + 1) at' (by omega)
    have closes := lineStarts_line (lit "---") (by decide +kernel) at'
    have opens := lineStarts_line (lit "paths:") (by decide +kernel) at'
    rw [lines, pathLines]
    simp only [scanLines, read, line, closes, opens, noNul, Cursor.ok_bind, if_false, head, decide_eq_true_eq]
    by_cases closed : lit "---" <+: l
    · simp only [closed, if_true]
      exact ⟨r, items, rfl, rfl, stored, bounds⟩
    simp only [closed, if_false]
    by_cases indented : isBlank c = true
    · have blank : ¬(c ≠ 32 ∧ c ≠ 9) := by
        intro both
        simp [isBlank, both] at indented
      simp only [blank, indented, if_false, Bool.true_eq_false]
      cases in_paths with
      | false => simpa using ih _ rest' (by omega) stored bounds
      | true =>
        simp only [if_true]
        rcases findItem_line at' (n := n + 1) (by omega) with ⟨found, none'⟩ | ⟨i, v, after, found, bound, item, here, length⟩
        · simp only [found, none', Cursor.ok_bind]
          exact ih _ rest' (by omega) stored bounds
        · have free : 0 ∉ v := fun member => at'.line.1 ((pathItem_inside item).mem member)
          obtain ⟨r₁, run, same, stored₁⟩ := storeItem_total stored here length free
          simp only [found, item, run, Cursor.ok_bind]
          rw [← same] at rest' bounds bound
          have bounds₁ : ∀ j ∈ items ++ [i], Bounds r₁.content j := by simpa [or_imp, forall_and] using ⟨bounds, bound⟩
          obtain ⟨r', items', run', same', stored', bounds'⟩ := ih true rest' (by omega) stored₁ bounds₁
          exact ⟨r', items', run', by rw [same', same], stored', by rwa [same] at bounds'⟩
    · have outer : c ≠ 32 ∧ c ≠ 9 := by simpa [isBlank] using indented
      simp only [outer, indented, ne_eq, not_false_eq_true, and_self, if_true]
      exact ih _ rest' (by omega) stored bounds

/-- A word without a newline at the start of a text stands on its first line. -/
theorem prefix_line {word l : Bytes} (one : 10 ∉ word) (s : Bytes) : word <+: l ++ 10 :: s ↔ word <+: l := by
  constructor
  · intro starts
    rcases List.prefix_or_prefix_of_prefix starts (List.prefix_append l (10 :: s)) with inside | ⟨t, rfl⟩
    · exact inside
    · rw [List.prefix_append_right_inj] at starts
      cases t with
      | nil => simp
      | cons c t =>
        obtain ⟨rfl, -⟩ := List.cons_prefix_cons.mp starts
        simp at one
  · exact fun starts => starts.trans (List.prefix_append _ _)

/-- The memory after `fread`: the bytes of the file, the NUL and what the rest of the allocation holds. -/
theorem content_rest (bytes rest : Bytes) : Rest (bytes ++ 0 :: rest) 0 (cstr bytes).val := by
  refine ⟨?_, (cstr bytes).property⟩
  by_cases free : 0 ∈ bytes
  · obtain ⟨s, after, rfl, first⟩ := List.eq_append_cons_of_mem free
    exact ⟨after ++ 0 :: rest, by rw [RulePaths.cstr_line first]; simp [cstr]⟩
  · exact ⟨rest, by rw [cstr_of_nulFree free]; simp⟩

theorem scan_total {n : ℕ} {s : Bytes} {r : rule_t} (content : Rest r.content 0 s) (enough : s.length < n) :
    ∃ r' items, parse_rule n r = .ok (r', items) ∧ r'.content = r.content ∧ (∀ i ∈ items, Bounds r.content i) ∧
      Stored r' (if lit "---" <+: s then
        match s.dropWhile (· != 10) with
        | [] => []
        | _ :: text => pathLines false (getlines [] text) []
      else []) := by
  have start : Stored { r with path_count := 0 } [] := ⟨rfl, Nat.zero_le _, by simp⟩
  have marker : ∀ c ∈ lit "---", c ≠ 0 ∧ c ≠ 10 := by decide +kernel
  unfold parse_rule
  rcases content.lines with at' | ⟨l, s', rfl, at', rest'⟩
  · have one : s.dropWhile (· != 10) = [] := List.dropWhile_eq_nil_iff.mpr fun c member => by simpa using (at'.plain c member).2
    have nothing := strchrNewline_line at' enough
    refine ⟨{ r with path_count := 0 }, [], ?_, rfl, by simp, by simpa [one] using start⟩
    by_cases starts : lit "---" <+: s <;> simp [startsAt_line marker at', starts, nothing]
  · have rest : (l ++ 10 :: s').dropWhile (· != 10) = 10 :: s' :=
      List.dropWhile_append_of_pos fun c member => by simpa using (at'.plain c member).2
    rw [List.length_append, List.length_cons] at enough
    have found := strchrNewline_line at' (n := n) (by omega)
    rw [Nat.zero_add] at found rest'
    have fresh : Rest ({ r with path_count := 0 } : rule_t).content (l.length + 1) s' := rest'
    have same : lit "---" <+: l ++ 10 :: s' ↔ lit "---" <+: l := prefix_line (by decide +kernel) s'
    by_cases starts : lit "---" <+: l
    · obtain ⟨r', items, run, kept, stored, bounds⟩ := scanLines_total false fresh (n := n) (by omega) start
        (List.forall_mem_nil _)
      refine ⟨r', items, ?_, kept, bounds, ?_⟩
      · simp only [startsAt_line marker at', starts, found, Cursor.ok_bind, decide_true, if_true]
        exact run
      · rw [if_pos (same.mpr starts), rest]
        exact stored
    · refine ⟨{ r with path_count := 0 }, [], ?_, rfl, by simp, ?_⟩
      · simp [startsAt_line marker at', starts]
      · rw [if_neg (by rwa [same])]
        exact start

/-- The globs are short and parts of lines. -/
theorem globs_inside (s : Bytes) : ∀ g ∈ (if lit "---" <+: s then
      match s.dropWhile (· != 10) with
      | [] => []
      | _ :: text => pathLines false (getlines [] text) []
    else []), g.val.length ≤ 255 ∧ ∃ line ∈ getlines [] s, g.val <:+: line := by
  split_ifs
  · split
    · simp
    · next newline text found =>
      have split := List.takeWhile_append_dropWhile (p := (· != 10)) (l := s)
      have first : newline = 10 := by
        have stopped := List.head?_dropWhile_not (· != 10) s
        simpa [found] using stopped
      subst first
      have lines : getlines [] s = s.takeWhile (· != 10) :: getlines [] text := by
        conv_lhs => rw [← split, found]
        exact SessionFile.getlines_line (fun member => by simpa using List.mem_takeWhile_imp member) [] text
      refine Rules.pathLines_all _ _ _ (fun line member v item => ?_) (List.forall_mem_nil _)
      have glob := (List.takeWhile_prefix (· != 0)).trans (List.take_prefix 255 v)
      exact ⟨(List.takeWhile_prefix _).length_le.trans (List.length_take_le _ _), line, by simp [lines, member],
        glob.isInfix.trans (pathItem_inside item)⟩
  · simp

/-- The scan ends without a read or a write out of range. Where the length of an item is taken its
    pointers stand in order on a line, and the rows hold at most `MAX_RULE_PATHS` globs, each
    terminated, of at most 255 bytes and part of a line; the file is as it was. -/
theorem scan_stays_inside (bytes rest : Bytes) (paths : Vector (Vector UInt8 256) MAX_RULE_PATHS) (path_count n : ℕ)
    (enough : bytes.length < n) : ∃ r items, parse_rule n ⟨paths, path_count, bytes ++ 0 :: rest⟩ = .ok (r, items) ∧
      (∀ i ∈ items, Bounds (bytes ++ 0 :: rest) i) ∧ r.path_count ≤ MAX_RULE_PATHS ∧
      (∀ (k : ℕ) (inRange : k < MAX_RULE_PATHS), k < r.path_count → ∃ glob after, r.paths[k].toList = glob ++ 0 :: after ∧
        glob.length ≤ 255 ∧ ∃ line ∈ getlines [] (cstr bytes).val, glob <:+: line) ∧
      r.content = bytes ++ 0 :: rest := by
  have short : (cstr bytes).val.length ≤ bytes.length := (List.takeWhile_prefix _).length_le
  obtain ⟨r, items, run, kept, bounds, stored⟩ :=
    scan_total (r := ⟨paths, path_count, bytes ++ 0 :: rest⟩) (content_rest bytes rest) (n := n) (by omega)
  refine ⟨r, items, run, bounds, stored.count ▸ stored.most, fun k inRange used => ?_, kept⟩
  rw [stored.count] at used
  obtain ⟨after, row⟩ := stored.rows k inRange _ (List.getElem?_eq_getElem used)
  exact ⟨_, after, row, globs_inside _ _ (List.getElem_mem used)⟩

/-- An item of quotes and blanks on a last line without a newline. -/
def quotesOnly : Bytes := lit "---\npaths:\n  - \" ' \""

theorem scan_stays_inside_quotes : ∃ r items,
    parse_rule 64 ⟨Vector.replicate _ (Vector.replicate _ 0), 0, quotesOnly ++ 0 :: []⟩ = .ok (r, items) ∧
      (∀ i ∈ items, Bounds (quotesOnly ++ 0 :: []) i) ∧ r.path_count ≤ MAX_RULE_PATHS ∧
      (∀ (k : ℕ) (inRange : k < MAX_RULE_PATHS), k < r.path_count → ∃ glob after, r.paths[k].toList = glob ++ 0 :: after ∧
        glob.length ≤ 255 ∧ ∃ line ∈ getlines [] (cstr quotesOnly).val, glob <:+: line) ∧
      r.content = quotesOnly ++ 0 :: [] :=
  scan_stays_inside quotesOnly [] (Vector.replicate _ (Vector.replicate _ 0)) 0 64 (by decide +kernel)

/-- The rows hold what the parser over lines reads. -/
theorem parse_rule_reads (path : CString) (bytes rest : Bytes) (paths : Vector (Vector UInt8 256) MAX_RULE_PATHS)
    (path_count n : ℕ) (enough : bytes.length < n) :
    ∃ r items rule, parse_rule n ⟨paths, path_count, bytes ++ 0 :: rest⟩ = .ok (r, items) ∧
      Rules.parse_rule path (some bytes) = some rule ∧ Stored r rule.paths := by
  have short : (cstr bytes).val.length ≤ bytes.length := (List.takeWhile_prefix _).length_le
  obtain ⟨r, items, run, -, -, stored⟩ :=
    scan_total (r := ⟨paths, path_count, bytes ++ 0 :: rest⟩) (content_rest bytes rest) (n := n) (by omega)
  exact ⟨r, items, _, run, rfl, stored⟩

def starRule : Bytes := lit "---\npaths:\n  - *.c\n---\n"

theorem parse_rule_reads_star :
    ∃ r items rule, parse_rule 64 ⟨Vector.replicate _ (Vector.replicate _ 0), 0, starRule ++ 0 :: []⟩ = .ok (r, items) ∧
      Rules.parse_rule (cs "r") (some starRule) = some rule ∧ Stored r rule.paths :=
  parse_rule_reads (cs "r") starRule [] _ 0 64 (by decide +kernel)

end Sa.RuleScan
