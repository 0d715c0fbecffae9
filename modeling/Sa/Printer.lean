import Sa.Tinyjson

/-!
# The printer

`cJSON_PrintUnformatted` and what it calls. The buffer is the list of the bytes
put so far.
-/

namespace Sa.Printer
open Sa.CStrings Sa.Doubles Sa.NumberTexts Sa.Tinyjson

/-- `%x` of one digit. -/
def hexDigit (n : Nat) : UInt8 := if n < 10 then UInt8.ofNat (48 + n) else UInt8.ofNat (87 + n)

/-- The bytes put for one character of a string. -/
def printByte (c : UInt8) : Bytes :=
  if c = 34 then [92, 34]
  else if c = 92 then [92, 92]
  else if c = 8 then [92, 98]
  else if c = 12 then [92, 102]
  else if c = 10 then [92, 110]
  else if c = 13 then [92, 114]
  else if c = 9 then [92, 116]
  else if c < 0x20 then [92, 117, 48, 48, hexDigit (c.toNat / 16), hexDigit (c.toNat % 16)]
  else [c]

def cj_print_string (s : CString) : Bytes := 34 :: (s.val.flatMap printByte ++ [34])

/-- A number that survives the conversion to `long long` is printed as one. -/
def cj_print_number (valuedouble : Double) : Bytes :=
  if valuedouble = roundDouble (to_llong valuedouble) then fmt_lld (to_llong valuedouble) else fmt_g valuedouble

mutual
def cj_print_value : cJSON → Bytes
  | .false => lit "false"
  | .true => lit "true"
  | .null => lit "null"
  | .number valuedouble => cj_print_number valuedouble
  | .string valuestring => cj_print_string valuestring
  | .array child => 91 :: (printItems child ++ [93])
  | .object child => 123 :: (printMembers child ++ [125])
/-- The loop of `cj_print_array`: a comma before every item but the first. -/
def printItems : List cJSON → Bytes
  | [] => []
  | [c] => cj_print_value c
  | c :: d :: cs => cj_print_value c ++ 44 :: printItems (d :: cs)
/-- The loop of `cj_print_object`. -/
def printMembers : List (CString × cJSON) → Bytes
  | [] => []
  | [(string, c)] => cj_print_string string ++ 58 :: cj_print_value c
  | (string, c) :: d :: cs => cj_print_string string ++ 58 :: (cj_print_value c ++ 44 :: printMembers (d :: cs))
end

def cJSON_PrintUnformatted (item : cJSON) : Bytes := cj_print_value item

end Sa.Printer
