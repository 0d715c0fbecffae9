import Sa.Tinyjson

/-!
# The parser

`cj_parse_value` and what it calls. The cursor is the text from `c->p` to
`c->end`; a function that fails returns `none` for `NULL`. The recursion of the
source runs through `cj_parse_value` only, so the parsers of arrays and objects
take it as an argument, and its own definition counts the nesting, which the
length of the text bounds (`cj_parse_value_eq`).
-/

namespace Sa.Parser
open Sa.CStrings Sa.Doubles Sa.NumberTexts Sa.Tinyjson

def isSpace (b : UInt8) : Bool := b == 32 || b == 9 || b == 10 || b == 13

def cj_skip_ws (s : Bytes) : Bytes := s.dropWhile isSpace

/-- The character of a short escape. -/
def shortEscape (esc : UInt8) : Option UInt8 :=
  if esc = 34 then some 34
  else if esc = 92 then some 92
  else if esc = 47 then some 47
  else if esc = 98 then some 8
  else if esc = 102 then some 12
  else if esc = 110 then some 10
  else if esc = 114 then some 13
  else if esc = 116 then some 9
  else none

/-- The code point of four hexadecimal digits. -/
def codepoint (h₁ h₂ h₃ h₄ : UInt8) : Option Nat :=
  match hexVal h₁, hexVal h₂, hexVal h₃, hexVal h₄ with
  | some a, some b, some c, some d => some ((((0 <<< 4 ||| a) <<< 4 ||| b) <<< 4 ||| c) <<< 4 ||| d)
  | _, _, _, _ => none

/-- Encode as UTF-8. -/
def encodeUtf8 (cp : Nat) : Bytes :=
  if cp < 0x80 then [UInt8.ofNat cp]
  else if cp < 0x800 then [UInt8.ofNat (0xC0 ||| cp >>> 6), UInt8.ofNat (0x80 ||| cp &&& 0x3F)]
  else [UInt8.ofNat (0xE0 ||| cp >>> 12), UInt8.ofNat (0x80 ||| cp >>> 6 &&& 0x3F), UInt8.ofNat (0x80 ||| cp &&& 0x3F)]

/-- The loop of `cj_parse_string_raw` with what follows it: the decoded bytes and
    the text after the closing quote. -/
def stringLoop : Bytes → Option (Bytes × Bytes)
  | [] => none
  | 34 :: s => some ([], s)
  | 92 :: [] => none  -- the backslash is copied and the text ends
  | 92 :: 117 :: h₁ :: h₂ :: h₃ :: h₄ :: s =>
    match codepoint h₁ h₂ h₃ h₄ with
    | none => none
    | some cp => (stringLoop s).map fun (out, s) => (encodeUtf8 cp ++ out, s)
  | 92 :: esc :: s =>
    match shortEscape esc with
    | none => none  -- `\u` with fewer than four bytes left fails as well
    | some ch => (stringLoop s).map fun (out, s) => (ch :: out, s)
  | ch :: s => (stringLoop s).map fun (out, s) => (ch :: out, s)

def cj_parse_string_raw (s : Bytes) : Option (Bytes × Bytes) :=
  match s with
  | 34 :: s => stringLoop s
  | _ => none

def cj_parse_string (s : Bytes) : Option (cJSON × Bytes) :=
  (cj_parse_string_raw s).map fun (out, s) => (.string (cstr out), s)

def isNumberChar (b : UInt8) : Bool := isdigit b || b == 46 || b == 101 || b == 69 || b == 43 || b == 45

/-- The optional sign is itself of the class that the loop of the source runs over. -/
def cj_parse_number (s : Bytes) : Option (cJSON × Bytes) :=
  let buf := s.takeWhile isNumberChar
  if buf = [] then none
  else if 64 ≤ buf.length then none
  else some (.number (strtod buf), s.dropWhile isNumberChar)

section
variable (cj_parse_value : Bytes → Option (cJSON × Bytes))

/-- The passes of `cj_parse_array`'s loop, one for each unit of `fuel`; a pass
    that goes on has consumed a byte, so the length of the text is enough. -/
def arrayLoop : Nat → Bytes → Option (List cJSON × Bytes)
  | 0, _ => none
  | fuel + 1, s =>
    match cj_parse_value (cj_skip_ws s) with
    | none => none
    | some (item, s) =>
      match cj_skip_ws s with
      | 44 :: s => (arrayLoop fuel s).map fun (items, s) => (item :: items, s)
      | 93 :: s => some ([item], s)
      | _ => none

def cj_parse_array (s : Bytes) : Option (cJSON × Bytes) :=
  match s with
  | 91 :: t =>
    match cj_skip_ws t with
    | 93 :: s => some (.array [], s)
    | s => (arrayLoop cj_parse_value t.length s).map fun (items, s) => (.array items, s)
  | _ => none

/-- One member up to the separator after it. -/
def parseMember (s : Bytes) : Option ((CString × cJSON) × Bytes) :=
  match cj_parse_string_raw (cj_skip_ws s) with
  | none => none
  | some (key, s) =>
    match cj_skip_ws s with
    | 58 :: s => (cj_parse_value (cj_skip_ws s)).map fun (v, s) => ((cstr key, v), s)
    | _ => none

/-- The passes of `cj_parse_object`'s loop, one for each unit of `fuel`. -/
def objectLoop : Nat → Bytes → Option (List (CString × cJSON) × Bytes)
  | 0, _ => none
  | fuel + 1, s =>
    match parseMember cj_parse_value s with
    | none => none
    | some (member, s) =>
      match cj_skip_ws s with
      | 44 :: s => (objectLoop fuel s).map fun (members, s) => (member :: members, s)
      | 125 :: s => some ([member], s)
      | _ => none

def cj_parse_object (s : Bytes) : Option (cJSON × Bytes) :=
  match s with
  | 123 :: t =>
    match cj_skip_ws t with
    | 125 :: s => some (.object [], s)
    | s => (objectLoop cj_parse_value t.length s).map fun (members, s) => (.object members, s)
  | _ => none

/-- A literal and the text after it. -/
def literal (word : Bytes) (v : cJSON) (s : Bytes) : Option (cJSON × Bytes) :=
  if word <+: s then some (v, s.drop word.length) else none

/-- The body of `cj_parse_value`, with its recursive calls as an argument. -/
def parseValue (s : Bytes) : Option (cJSON × Bytes) :=
  match cj_skip_ws s with
  | [] => none
  | ch :: t =>
    if ch = 34 then cj_parse_string (ch :: t)
    else if ch = 123 then cj_parse_object cj_parse_value (ch :: t)
    else if ch = 91 then cj_parse_array cj_parse_value (ch :: t)
    else if ch = 45 || isdigit ch then cj_parse_number (ch :: t)
    else literal (lit "true") .true (ch :: t) <|> literal (lit "false") .false (ch :: t) <|>
      literal (lit "null") .null (ch :: t)

end

/-- `cj_parse_value` with at most `depth` nested calls. -/
def parseNested : Nat → Bytes → Option (cJSON × Bytes)
  | 0, _ => none
  | depth + 1, s => parseValue (parseNested depth) s

def cj_parse_value (s : Bytes) : Option (cJSON × Bytes) := parseNested (s.length + 1) s

def cJSON_Parse (text : Bytes) : Option cJSON := (cj_parse_value (cstr text).val).map Prod.fst

end Sa.Parser
