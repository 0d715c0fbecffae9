import Sa.Rules
import Sa.ReadFile
import Sa.Skills

/-!
# The system prompt and its skills

`build_system_prompt`: the base text, the CLAUDE.md files and the rules, and at
the end the skills as elements with escaped content. A reader of that part splits
it at its literal tags.
-/

namespace Sa.SkillsBlock
open Sa.CStrings Sa.ReadFile Sa.Rules Sa.Skills

def BASE_SYSTEM : Bytes :=
  lit "You are a concise assistant. Use the shell tool for system questions. Keep replies short."

/-- One pass of the loop over the characters. -/
def escapeByte (out : Bytes) (b : UInt8) : Bytes :=
  if b = 60 then buf_append out (literal "&lt;") 4
  else if b = 62 then buf_append out (literal "&gt;") 4
  else if b = 38 then buf_append out (literal "&amp;") 5
  else buf_append out [b] 1

def buf_append_xml_escaped (out : Bytes) (s : CString) : Bytes := s.val.foldl escapeByte out

/-- What the prompt is made of besides the skills: the file system, the rules that
    were loaded, and what their `find` commands answer. -/
structure Surroundings where
  home : Option CString
  file : Bytes → Option Bytes
  rules : List rule_t
  answers : ℕ → ℕ → Option Bool

def append_claude_md (file : Bytes → Option Bytes) (out path label : Bytes) : Bytes :=
  match file path with
  | none => out
  | some text =>
    let out := buf_append out (literal "\n\nContents of ") 14
    let out := buf_append out path path.length
    let out := buf_append out (literal " (") 2
    let out := buf_append out label label.length
    buf_append out (literal "):\n\n") 4 ++ text

/-- The part of the loop over the rules from the rule with number `i` on. -/
def append_rules (answers : ℕ → ℕ → Option Bool) : ℕ → Bytes → List rule_t → Bytes
  | _, out, [] => out
  | i, out, r :: rules =>
    if (rule_applies (answers i) r).1 = false then append_rules answers (i + 1) out rules
    else
      let out := buf_append out (literal "\n\nContents of ") 14
      let out := buf_append out r.path.val r.path.val.length
      let out := buf_append out (literal " (rule):\n\n") 10
      append_rules answers (i + 1) (buf_append out r.content.val r.content.val.length) rules

/-- One pass of the loop over the skills. -/
def append_skill (out : Bytes) (skill : skill_t) : Bytes :=
  let out := buf_append out (literal "  <skill>\n    <name>") 20
  let out := buf_append_xml_escaped out skill.name
  let out := buf_append out (literal "</name>\n    <description>") 25
  let out := buf_append_xml_escaped out skill.description
  let out := buf_append out (literal "</description>\n    <path>") 25
  let out := buf_append_xml_escaped out skill.path
  buf_append out (literal "</path>\n  </skill>\n") 19

def hint : Bytes :=
  lit "\n\nTo use a skill, first read its SKILL.md (via `cat <path>`) to learn its instructions, then follow them. The path is a markdown file, not an executable."

def build_system_prompt (s : Surroundings) (skills : List skill_t) : Bytes :=
  let out := buf_append [] BASE_SYSTEM BASE_SYSTEM.length
  let out := match s.home with
    | none => out
    | some home =>
      let p := home.val ++ lit "/.claude/CLAUDE.md"
      if p.length < 1024 then
        append_claude_md s.file out p (lit "user's private global instructions for all projects")
      else out
  let out := append_claude_md s.file out (lit "./CLAUDE.md") (lit "project instructions")
  let out := append_rules s.answers 0 out s.rules
  if skills.length = 0 then out
  else
    let out := buf_append out hint hint.length
    let out := buf_append out (literal "\n\n<skills>\n") 11
    buf_append (skills.foldl append_skill out) (literal "</skills>") 9

/-- A text before and after the first place where `tag` stands. -/
def splitTag (tag : Bytes) : Bytes → Option (Bytes × Bytes)
  | [] => if tag = [] then some ([], []) else none
  | c :: s =>
    if tag <+: c :: s then some ([], (c :: s).drop tag.length)
    else (splitTag tag s).map fun (before, after) => (c :: before, after)

/-- A text after a tag it begins with. -/
def dropTag (tag s : Bytes) : Option Bytes := if tag <+: s then some (s.drop tag.length) else none

/-- The three entities undone. -/
def unescape : Bytes → Bytes
  | 38 :: 108 :: 116 :: 59 :: s => 60 :: unescape s
  | 38 :: 103 :: 116 :: 59 :: s => 62 :: unescape s
  | 38 :: 97 :: 109 :: 112 :: 59 :: s => 38 :: unescape s
  | c :: s => c :: unescape s
  | [] => []

/-- A skill, and what follows it. -/
def readSkill (s : Bytes) : Option (skill_t × Bytes) := do
  let s ← dropTag (lit "  <skill>\n    <name>") s
  let (name, s) ← splitTag (lit "</name>\n    <description>") s
  let (description, s) ← splitTag (lit "</description>\n    <path>") s
  let (path, s) ← splitTag (lit "</path>\n  </skill>\n") s
  return (⟨cstr (unescape name), cstr (unescape description), cstr (unescape path)⟩, s)

/-- The skills up to the closing tag at the end. -/
def readSkills : ℕ → Bytes → Option (List skill_t)
  | 0, _ => none
  | fuel + 1, s =>
    if s = lit "</skills>" then some []
    else do
      let (skill, s) ← readSkill s
      let skills ← readSkills fuel s
      return skill :: skills

/-- The text from `<skills>` to `</skills>`. -/
def readBlock (s : Bytes) : Option (List skill_t) := do
  let s ← dropTag (lit "<skills>\n") s
  readSkills s.length s

/-- What stands after the rest of the prompt. -/
def readPart (s : Bytes) : Option (List skill_t) :=
  if s = [] then some []
  else do
    let s ← dropTag (hint ++ lit "\n\n") s
    readBlock s

/-- What stands for a byte. -/
def entity (b : UInt8) : Bytes :=
  if b = 60 then lit "&lt;" else if b = 62 then lit "&gt;" else if b = 38 then lit "&amp;" else [b]

def escaped (s : Bytes) : Bytes := s.flatMap entity

/-- The counts of the entities are right. -/
theorem escapeByte_eq (out : Bytes) (b : UInt8) : escapeByte out b = out ++ entity b := by
  have less : (literal "&lt;").take 4 = lit "&lt;" := by decide +kernel
  have greater : (literal "&gt;").take 4 = lit "&gt;" := by decide +kernel
  have ampersand : (literal "&amp;").take 5 = lit "&amp;" := by decide +kernel
  unfold escapeByte entity buf_append
  rw [less, greater, ampersand]
  split_ifs <;> rfl

theorem foldl_escapeByte (s : Bytes) : ∀ out, s.foldl escapeByte out = out ++ escaped s := by
  induction s with
  | nil => simp [escaped]
  | cons b s ih =>
    intro out
    rw [List.foldl_cons, ih, escapeByte_eq, escaped, escaped, List.flatMap_cons, List.append_assoc]

theorem buf_append_xml_escaped_eq (out : Bytes) (s : CString) : buf_append_xml_escaped out s = out ++ escaped s.val :=
  foldl_escapeByte s.val out

/-- No tag begins in escaped text. -/
theorem escaped_apart (s : Bytes) : 60 ∉ escaped s := by
  have entities : ∀ b : UInt8, 60 ∉ entity b := by decide +kernel
  intro member
  obtain ⟨b, -, inside⟩ := List.mem_flatMap.mp member
  exact entities b inside

theorem unescape_entity (b : UInt8) (s : Bytes) : unescape (entity b ++ s) = b :: unescape s := by
  by_cases less : b = 60
  · subst less
    rfl
  by_cases greater : b = 62
  · subst greater
    rfl
  by_cases ampersand : b = 38
  · subst ampersand
    rfl
  have plain : entity b = [b] := by simp [entity, less, greater, ampersand]
  rw [plain, List.singleton_append]
  conv_lhs => unfold unescape
  split <;> simp_all

/-- Undoing the entities gives the text back. -/
theorem unescape_escaped (s : Bytes) : unescape (escaped s) = s := by
  induction s with
  | nil => rfl
  | cons b s ih => rw [escaped, List.flatMap_cons, ← escaped, unescape_entity, ih]

@[simp] theorem dropTag_append (tag s : Bytes) : dropTag tag (tag ++ s) = some s := by simp [dropTag]

/-- A field without `<` ends where its closing tag stands. -/
theorem splitTag_field (tag : Bytes) {field : Bytes} (s : Bytes) (starts : tag.head? = some 60) (apart : 60 ∉ field) :
    splitTag tag (field ++ (tag ++ s)) = some (field, s) := by
  obtain ⟨tag, rfl⟩ : ∃ rest, tag = 60 :: rest := by
    cases tag with
    | nil => simp at starts
    | cons c rest => exact ⟨rest, by simpa using starts⟩
  induction field with
  | nil =>
    have here : 60 :: tag <+: 60 :: (tag ++ s) := ⟨s, rfl⟩
    simp [splitTag, here]
  | cons c field ih =>
    simp only [List.mem_cons, not_or] at apart
    have other : ¬60 :: tag <+: c :: (field ++ (60 :: tag ++ s)) := by
      intro stands
      exact apart.1 (List.cons_prefix_cons.mp stands).1
    rw [List.cons_append, splitTag, if_neg other, ih apart.2]
    rfl

/-- The element of a skill. -/
def skillText (skill : skill_t) : Bytes :=
  lit "  <skill>\n    <name>" ++ (escaped skill.name.val ++ (lit "</name>\n    <description>" ++
    (escaped skill.description.val ++ (lit "</description>\n    <path>" ++ (escaped skill.path.val ++
      lit "</path>\n  </skill>\n")))))

/-- The counts of the tags are right. -/
theorem append_skill_eq (out : Bytes) (skill : skill_t) : append_skill out skill = out ++ skillText skill := by
  have opening : (literal "  <skill>\n    <name>").take 20 = lit "  <skill>\n    <name>" := by decide +kernel
  have name : (literal "</name>\n    <description>").take 25 = lit "</name>\n    <description>" := by decide +kernel
  have description : (literal "</description>\n    <path>").take 25 = lit "</description>\n    <path>" := by decide +kernel
  have path : (literal "</path>\n  </skill>\n").take 19 = lit "</path>\n  </skill>\n" := by decide +kernel
  simp only [append_skill, buf_append, buf_append_xml_escaped_eq, opening, name, description, path, skillText, List.append_assoc]

theorem foldl_append_skill (skills : List skill_t) : ∀ out, skills.foldl append_skill out = out ++ skills.flatMap skillText := by
  induction skills with
  | nil => simp
  | cons skill skills ih =>
    intro out
    rw [List.foldl_cons, ih, append_skill_eq, List.flatMap_cons, List.append_assoc]

theorem readSkill_text (skill : skill_t) (s : Bytes) : readSkill (skillText skill ++ s) = some (skill, s) := by
  have name := fun after => splitTag_field (lit "</name>\n    <description>") after rfl (escaped_apart skill.name.val)
  have description := fun after =>
    splitTag_field (lit "</description>\n    <path>") after rfl (escaped_apart skill.description.val)
  have path := fun after => splitTag_field (lit "</path>\n  </skill>\n") after rfl (escaped_apart skill.path.val)
  simp only [readSkill, skillText, List.append_assoc, dropTag_append, Option.bind_eq_bind, Option.bind_some, name, description,
    path, unescape_escaped, cstr_val]
  rfl

/-- An element is not empty and is not the closing tag. -/
theorem skillText_starts (skill : skill_t) (s : Bytes) : (skillText skill ++ s).head? = some 32 := rfl

theorem readSkills_texts (skills : List skill_t) : ∀ fuel, skills.length < fuel →
    readSkills fuel (skills.flatMap skillText ++ lit "</skills>") = some skills := by
  induction skills with
  | nil =>
    intro fuel enough
    obtain ⟨fuel, rfl⟩ : ∃ k, fuel = k + 1 := ⟨fuel - 1, by simp at enough; omega⟩
    simp [readSkills]
  | cons skill skills ih =>
    intro fuel enough
    simp only [List.length_cons] at enough
    obtain ⟨fuel, rfl⟩ : ∃ k, fuel = k + 1 := ⟨fuel - 1, by omega⟩
    have other : skillText skill ++ (skills.flatMap skillText ++ lit "</skills>") ≠ lit "</skills>" := by
      intro same
      have starts := skillText_starts skill (skills.flatMap skillText ++ lit "</skills>")
      rw [same] at starts
      revert starts
      decide +kernel
    rw [List.flatMap_cons, List.append_assoc, readSkills, if_neg other, readSkill_text]
    simp only [Option.bind_eq_bind, Option.bind_some, ih fuel (by omega)]
    rfl

theorem length_texts (skills : List skill_t) : skills.length ≤ (skills.flatMap skillText).length := by
  induction skills with
  | nil => simp
  | cons skill skills ih =>
    have some : 0 < (skillText skill).length := by
      have starts := skillText_starts skill []
      cases text : skillText skill with
      | nil => simp [text] at starts
      | cons b rest => simp
    rw [List.flatMap_cons, List.length_append, List.length_cons]
    omega

/-- The text from `<skills>` to `</skills>`, as it is emitted. -/
def block (skills : List skill_t) : Bytes := lit "<skills>\n" ++ (skills.flatMap skillText ++ lit "</skills>")

theorem readBlock_block (skills : List skill_t) : readBlock (block skills) = some skills := by
  have closing : (lit "</skills>").length = 9 := by decide +kernel
  have enough := length_texts skills
  rw [readBlock, block, dropTag_append]
  exact readSkills_texts skills _ (by rw [List.length_append, closing]; omega)

/-- The skills come last in the prompt, and add nothing when there are none. -/
theorem build_system_prompt_eq (s : Surroundings) (skills : List skill_t) : build_system_prompt s skills =
    build_system_prompt s [] ++ if skills = [] then [] else hint ++ lit "\n\n" ++ block skills := by
  have opening : (literal "\n\n<skills>\n").take 11 = lit "\n\n" ++ lit "<skills>\n" := by decide +kernel
  have closing : (literal "</skills>").take 9 = lit "</skills>" := by decide +kernel
  by_cases none : skills = []
  · subst none
    simp
  · have some : skills.length ≠ 0 := by simpa using none
    simp only [build_system_prompt, if_neg some, if_neg none, List.length_nil, if_true, buf_append, opening, closing,
      List.take_length, foldl_append_skill, block, List.append_assoc]

/-- Whatever the names, descriptions and paths hold, the part of the prompt about the
    skills is read back as the same skills. -/
theorem skills_read_back (s : Surroundings) (skills : List skill_t) :
    ∃ part, build_system_prompt s skills = build_system_prompt s [] ++ part ∧ readPart part = some skills := by
  refine ⟨_, build_system_prompt_eq s skills, ?_⟩
  by_cases none : skills = []
  · simp [none, readPart]
  · have some : hint ++ lit "\n\n" ++ block skills ≠ [] := by
      intro empty
      have blank : lit "\n\n" = [] := (List.append_eq_nil_iff.mp (List.append_eq_nil_iff.mp empty).1).2
      revert blank
      decide +kernel
    rw [if_neg none, readPart, if_neg some, dropTag_append]
    exact readBlock_block skills

end Sa.SkillsBlock
