import Sa.SkillsBlock

/-!
# Starting up

What `main` does before the first prompt: it goes over the directories of skills and of
rules, the project's before the user's, and puts the system prompt together. The skills in
the prompt are the first that were found (`prompt_assembled`).
-/

namespace Sa.Startup
open Sa.CStrings Sa.ReadFile Sa.Rules Sa.Skills Sa.SkillsBlock

abbrev MAX_SKILLS : ℕ := 128
abbrev MAX_RULES : ℕ := 64

/-- What `stat` says of an entry, and what can be read there. -/
inductive Kind where
  | regular (st_size : ℕ) (content : Option Bytes)
  | directory (skill_md : Option Bytes)
  | other

structure Entry where
  d_name : CString
  kind : Kind

/-- The end of a name that is not `.md` alone. -/
def isMarkdown (name : CString) : Bool := decide (4 ≤ name.val.length) && decide (lit ".md" <:+ name.val)

/-- A loop over a directory that ends when there are `cap` of what it loads. -/
def scanDir {α : Type} (cap : ℕ) (load : Entry → Option α) : List Entry → List α → List α
  | [], found => found
  | ent :: entries, found =>
    if cap ≤ found.length then found
    else
      scanDir cap load entries
        (match load ent with
          | none => found
          | some x => found ++ [x])

/-- The end of the loop's body in `scan_skills_dir`. -/
def resolved (realpath : CString → Option CString) (parsed : ℤ × skill_t) (source_path : CString) : Option skill_t :=
  if parsed.1 = 0 then some { parsed.2 with path := strncpy 1024 ((realpath source_path).getD source_path) } else none

def loadSkill (realpath : CString → Option CString) (dir : CString) (ent : Entry) : Option skill_t :=
  if ent.d_name.val.head? = some 46 then none
  else
    let path := dir.val ++ 47 :: ent.d_name.val
    if 1024 ≤ path.length then none
    else
      match ent.kind with
      | .other => none
      | .regular _ content =>
        if isMarkdown ent.d_name = false then none
        else resolved realpath (parse_frontmatter content ⟨cs "", cs "", cs ""⟩) (cstr path)
      | .directory content =>
        let skill_md := path ++ lit "/SKILL.md"
        if 1024 ≤ skill_md.length then none
        else resolved realpath (parse_frontmatter content ⟨cs "", cs "", cs ""⟩) (cstr skill_md)

def loadRule (dir : CString) (ent : Entry) : Option rule_t :=
  if ent.d_name.val.head? = some 46 then none
  else if isMarkdown ent.d_name = false then none
  else
    let path := dir.val ++ 47 :: ent.d_name.val
    if 1024 ≤ path.length then none
    else
      match ent.kind with
      | .regular st_size content => if 64 * 1024 < st_size then none else parse_rule (cstr path) content
      | _ => none

/-- What `main` finds when it starts. -/
structure Machine where
  home : Option CString
  opendir : CString → Option (List Entry)
  realpath : CString → Option CString
  file : Bytes → Option Bytes
  answers : ℕ → ℕ → Option Bool

def scan_skills_dir (m : Machine) (dir : CString) (skills : List skill_t) : List skill_t :=
  match m.opendir dir with
  | none => skills
  | some entries => scanDir MAX_SKILLS (loadSkill m.realpath dir) entries skills

def scan_rules_dir (m : Machine) (dir : CString) (rules : List rule_t) : List rule_t :=
  match m.opendir dir with
  | none => rules
  | some entries => scanDir MAX_RULES (loadRule dir) entries rules

/-- `snprintf(hp, sizeof hp, "%s" "…", home)`, where it fits. -/
def homeDir (m : Machine) (dir : String) : Option CString :=
  m.home.bind fun home => if (home.val ++ lit dir).length < 1024 then some (cstr (home.val ++ lit dir)) else none

/-- `g_skills` after the scans. -/
def skills (m : Machine) : List skill_t :=
  let found := scan_skills_dir m (cs "./.claude/skills") []
  match homeDir m "/.claude/skills" with
  | none => found
  | some hp => scan_skills_dir m hp found

/-- `g_rules` after the scans. -/
def rules (m : Machine) : List rule_t :=
  let found := scan_rules_dir m (cs "./.claude/rules") []
  match homeDir m "/.claude/rules" with
  | none => found
  | some hp => scan_rules_dir m hp found

def system_prompt (m : Machine) : Bytes := build_system_prompt ⟨m.home, m.file, rules m, m.answers⟩ (skills m)

section
variable {α : Type} {cap : ℕ}

theorem scanDir_eq (load : Entry → Option α) (entries : List Entry) : ∀ found : List α, found.length ≤ cap →
    scanDir cap load entries found = (found ++ entries.filterMap load).take cap := by
  induction entries with
  | nil =>
    intro found room
    rw [scanDir, List.filterMap_nil, List.append_nil, List.take_of_length_le room]
  | cons ent entries ih =>
    intro found room
    rw [scanDir]
    by_cases full : cap ≤ found.length
    · rw [if_pos full, List.take_append_of_le_length full, List.take_of_length_le room]
    · rw [if_neg full]
      cases loaded : load ent with
      | none => rw [ih found room, List.filterMap_cons_none loaded]
      | some x =>
        rw [ih (found ++ [x]) (by rw [List.length_append, List.length_singleton]; omega), List.filterMap_cons_some loaded,
          List.append_assoc, List.singleton_append]

/-- What is loaded after others that are kept. -/
theorem scanDir_take (load : Entry → Option α) (entries : List Entry) (found : List α) :
    scanDir cap load entries (found.take cap) = (found ++ entries.filterMap load).take cap := by
  rw [scanDir_eq load entries _ (List.length_take_le _ _), List.take_append, List.take_append, List.take_take, min_self,
    List.length_take]
  by_cases full : cap ≤ found.length
  · simp [min_eq_left full, Nat.sub_eq_zero_of_le full]
  · rw [min_eq_right (by omega)]

end

section
variable (m : Machine)

/-- The entries of a directory, if it can be opened. -/
def entriesOf (dir : CString) : List Entry := (m.opendir dir).getD []

/-- All that the two directories offer, the project's first. -/
def offered {α : Type} (load : CString → Entry → Option α) (dir : CString) (userDir : Option CString) : List α :=
  (entriesOf m dir).filterMap (load dir) ++ userDir.elim [] fun hp => (entriesOf m hp).filterMap (load hp)

def offeredSkills : List skill_t := offered m (loadSkill m.realpath) (cs "./.claude/skills") (homeDir m "/.claude/skills")

def offeredRules : List rule_t := offered m loadRule (cs "./.claude/rules") (homeDir m "/.claude/rules")

theorem scan_skills_dir_take (dir : CString) (found : List skill_t) : scan_skills_dir m dir (found.take MAX_SKILLS) =
    (found ++ (entriesOf m dir).filterMap (loadSkill m.realpath dir)).take MAX_SKILLS := by
  unfold scan_skills_dir entriesOf
  cases m.opendir dir with
  | none => simp
  | some entries => exact scanDir_take _ entries found

theorem scan_rules_dir_take (dir : CString) (found : List rule_t) : scan_rules_dir m dir (found.take MAX_RULES) =
    (found ++ (entriesOf m dir).filterMap (loadRule dir)).take MAX_RULES := by
  unfold scan_rules_dir entriesOf
  cases m.opendir dir with
  | none => simp
  | some entries => exact scanDir_take _ entries found

theorem skills_eq : skills m = (offeredSkills m).take MAX_SKILLS := by
  have first := scan_skills_dir_take m (cs "./.claude/skills") []
  rw [List.take_nil, List.nil_append] at first
  unfold skills offeredSkills offered
  rw [first]
  cases homeDir m "/.claude/skills" with
  | none => simp
  | some hp => exact scan_skills_dir_take m hp _

theorem rules_eq : rules m = (offeredRules m).take MAX_RULES := by
  have first := scan_rules_dir_take m (cs "./.claude/rules") []
  rw [List.take_nil, List.nil_append] at first
  unfold rules offeredRules offered
  rw [first]
  cases homeDir m "/.claude/rules" with
  | none => simp
  | some hp => exact scan_rules_dir_take m hp _

end

/-- The part of a CLAUDE.md that can be read. -/
def memoryText (file : Bytes → Option Bytes) (path label : Bytes) : Bytes :=
  (file path).elim [] fun text => lit "\n\nContents of " ++ path ++ lit " (" ++ label ++ lit "):\n\n" ++ text

def ruleText (r : rule_t) : Bytes := lit "\n\nContents of " ++ r.path.val ++ lit " (rule):\n\n" ++ r.content.val

/-- The rules that apply; the finds of the rule with number `i` are answered by `answers i`. -/
def applicable (answers : ℕ → ℕ → Option Bool) (rules : List rule_t) : List rule_t :=
  (rules.zipIdx.filter fun r => (rule_applies (answers r.2) r.1).1).map Prod.fst

theorem append_claude_md_eq (file : Bytes → Option Bytes) (out path label : Bytes) :
    append_claude_md file out path label = out ++ memoryText file path label := by
  have first : (literal "\n\nContents of ").take 14 = lit "\n\nContents of " := by decide +kernel
  have second : (literal " (").take 2 = lit " (" := by decide +kernel
  have third : (literal "):\n\n").take 4 = lit "):\n\n" := by decide +kernel
  unfold append_claude_md memoryText
  cases file path with
  | none => exact (List.append_nil out).symm
  | some text => simp only [buf_append, first, second, third, List.take_length, Option.elim_some, List.append_assoc]

theorem append_rules_eq (answers : ℕ → ℕ → Option Bool) (rules : List rule_t) : ∀ i out, append_rules answers i out rules =
    out ++ ((rules.zipIdx i).filter fun r => (rule_applies (answers r.2) r.1).1).flatMap fun r => ruleText r.1 := by
  have first : (literal "\n\nContents of ").take 14 = lit "\n\nContents of " := by decide +kernel
  have second : (literal " (rule):\n\n").take 10 = lit " (rule):\n\n" := by decide +kernel
  induction rules with
  | nil => intro i out; simp [append_rules]
  | cons r rules ih =>
    intro i out
    rw [append_rules, List.zipIdx_cons]
    by_cases applies : (rule_applies (answers i) r).1 = false
    · rw [if_pos applies, ih, List.filter_cons_of_neg (by simp [applies])]
    · rw [if_neg applies, ih, List.filter_cons_of_pos (by simpa using applies), List.flatMap_cons]
      simp only [buf_append, first, second, List.take_length, ruleText, List.append_assoc]

/-- The user's CLAUDE.md, where its path fits. -/
def userMemory (m : Machine) : Bytes :=
  (m.home.bind fun home =>
    let p := home.val ++ lit "/.claude/CLAUDE.md"
    if p.length < 1024 then some p else none).elim [] fun p =>
      memoryText m.file p (lit "user's private global instructions for all projects")

/-- Everything before the skills. -/
theorem prompt_before (m : Machine) (rules : List rule_t) : build_system_prompt ⟨m.home, m.file, rules, m.answers⟩ [] =
    BASE_SYSTEM ++ userMemory m ++ memoryText m.file (lit "./CLAUDE.md") (lit "project instructions") ++
      (applicable m.answers rules).flatMap ruleText := by
  have user : (match m.home with
      | none => BASE_SYSTEM
      | some home =>
        if (home.val ++ lit "/.claude/CLAUDE.md").length < 1024 then
          append_claude_md m.file BASE_SYSTEM (home.val ++ lit "/.claude/CLAUDE.md")
            (lit "user's private global instructions for all projects")
        else BASE_SYSTEM) = BASE_SYSTEM ++ userMemory m := by
    unfold userMemory
    cases m.home with
    | none => exact (List.append_nil _).symm
    | some home =>
      by_cases fits : (home.val ++ lit "/.claude/CLAUDE.md").length < 1024
      · simp only [if_pos fits, Option.bind_some, Option.elim_some]
        exact append_claude_md_eq m.file _ _ _
      · simp only [if_neg fits, Option.bind_some, Option.elim_none, List.append_nil]
  have base : buf_append [] BASE_SYSTEM BASE_SYSTEM.length = BASE_SYSTEM := by
    rw [buf_append, List.take_length, List.nil_append]
  simp only [build_system_prompt, List.length_nil, if_true, base]
  rw [append_rules_eq, append_claude_md_eq, applicable, List.flatMap_map]
  exact congrArg (fun before => before ++ _ ++ _) user

/-- What stands about the skills is read back. -/
theorem readPart_part (skills : List skill_t) :
    readPart (if skills = [] then [] else hint ++ lit "\n\n" ++ block skills) = some skills := by
  by_cases none : skills = []
  · rw [if_pos none, readPart, if_pos rfl, none]
  · have some : hint ++ lit "\n\n" ++ block skills ≠ [] := by
      have opening : hint ≠ [] := by decide +kernel
      simp [opening]
    rw [if_neg none, readPart, if_neg some, dropTag_append]
    exact readBlock_block skills

/-- The prompt is the base text, what is remembered, the rules that apply, and a part that is
    read back as the first skills that the directories offer. -/
theorem prompt_assembled (m : Machine) : ∃ part,
    system_prompt m = BASE_SYSTEM ++ userMemory m ++ memoryText m.file (lit "./CLAUDE.md") (lit "project instructions") ++
      (applicable m.answers ((offeredRules m).take MAX_RULES)).flatMap ruleText ++ part ∧
    readPart part = some ((offeredSkills m).take MAX_SKILLS) := by
  have skillsPart := build_system_prompt_eq ⟨m.home, m.file, rules m, m.answers⟩ (skills m)
  rw [prompt_before, rules_eq, skills_eq] at skillsPart
  refine ⟨_, ?_, readPart_part _⟩
  rw [system_prompt, rules_eq, skills_eq]
  exact skillsPart

end Sa.Startup
