import Mathlib.Data.List.Basic
import Sa.CStrings

/-!
# The grammar of JSON texts

RFC 8259 over bytes. `Derives text tree` says that a text spells a syntax tree,
with free whitespace around the items of arrays and objects; the tokens of
numbers and strings are kept as they are written. The skeleton admits any run of
number characters and any byte in a string, and `Tree.Strict` says that every
token is one of the RFC's, so that a text outside the grammar can be read for
what it is.
-/

namespace Sa.JsonGrammar
open Sa.CStrings

/-- `ws = *( %x20 / %x09 / %x0A / %x0D )`. -/
def isWs (b : UInt8) : Bool := b == 32 || b == 9 || b == 10 || b == 13
def Ws (w : Bytes) : Prop := ∀ b ∈ w, isWs b = true

def Digits (ds : Bytes) : Prop := ∀ b ∈ ds, isdigit b = true

/-- `int = zero / ( digit1-9 *DIGIT )`. -/
def IntPart (ip : Bytes) : Prop := ip = [48] ∨ ∃ d ds, ip = d :: ds ∧ d ≠ 48 ∧ isdigit d = true ∧ Digits ds
/-- `frac = decimal-point 1*DIGIT`, or nothing. -/
def FracPart (fp : Bytes) : Prop := fp = [] ∨ ∃ ds, fp = 46 :: ds ∧ ds ≠ [] ∧ Digits ds
/-- `exp = e [ minus / plus ] 1*DIGIT`, or nothing. -/
def ExpPart (ep : Bytes) : Prop :=
  ep = [] ∨ ∃ e sign ds, ep = e :: (sign ++ ds) ∧ (e = 101 ∨ e = 69) ∧
    (sign = [] ∨ sign = [43] ∨ sign = [45]) ∧ ds ≠ [] ∧ Digits ds
/-- `number = [ minus ] int [ frac ] [ exp ]`. -/
def Number (n : Bytes) : Prop :=
  ∃ sign ip fp ep, n = sign ++ ip ++ fp ++ ep ∧ (sign = [] ∨ sign = [45]) ∧ IntPart ip ∧ FracPart fp ∧ ExpPart ep

/-- The characters that occur in numbers. -/
def isNumChar (b : UInt8) : Bool := isdigit b || b == 46 || b == 101 || b == 69 || b == 43 || b == 45
/-- A run of number characters that begins like a number. -/
def NumberLike (n : Bytes) : Prop :=
  (∀ b ∈ n, isNumChar b = true) ∧ ∃ b t, n = b :: t ∧ (b = 45 ∨ isdigit b = true)

/-- What follows a backslash in the short escapes. -/
def isShortEscape (e : UInt8) : Bool :=
  e == 34 || e == 92 || e == 47 || e == 98 || e == 102 || e == 110 || e == 114 || e == 116

/-- What stands between the quotes of a string, raw control bytes included. -/
inductive Body : Bytes → Prop where
  | nil : Body []
  | raw {b : UInt8} {s : Bytes} : b ≠ 34 → b ≠ 92 → Body s → Body (b :: s)
  | short {e : UInt8} {s : Bytes} : isShortEscape e = true → Body s → Body (92 :: e :: s)
  | unicode {h₁ h₂ h₃ h₄ : UInt8} {s : Bytes} :
      (hexVal h₁).isSome → (hexVal h₂).isSome → (hexVal h₃).isSome → (hexVal h₄).isSome →
      Body s → Body (92 :: 117 :: h₁ :: h₂ :: h₃ :: h₄ :: s)

/-- `unescaped` of the RFC excludes the control characters. -/
def NoControl (s : Bytes) : Prop := ∀ b ∈ s, 32 ≤ b

def quoted (s : Bytes) : Bytes := 34 :: (s ++ [34])

/-- A syntax tree with its tokens as they are written. -/
inductive Tree where
  | null
  | true
  | false
  | number (token : Bytes)
  | string (body : Bytes)
  | array (items : List Tree)
  | object (members : List (Bytes × Tree))

/-- Texts with commas between them. -/
def commaSep : List Bytes → Bytes
  | [] => []
  | [x] => x
  | x :: y :: rest => x ++ 44 :: commaSep (y :: rest)

/-- An item of an array as it is spelled. -/
structure Item where
  before : Bytes
  text : Bytes
  after : Bytes
  tree : Tree

def Item.spelled (i : Item) : Bytes := i.before ++ i.text ++ i.after

/-- A member of an object as it is spelled. -/
structure Member where
  before : Bytes
  key : Bytes
  beforeColon : Bytes
  item : Item

def Member.spelled (m : Member) : Bytes := m.before ++ quoted m.key ++ m.beforeColon ++ 58 :: m.item.spelled

/-- A text spells a tree, without whitespace around it. -/
inductive Derives : Bytes → Tree → Prop where
  | null : Derives (lit "null") .null
  | true : Derives (lit "true") .true
  | false : Derives (lit "false") .false
  | number {n : Bytes} : NumberLike n → Derives n (.number n)
  | string {s : Bytes} : Body s → Derives (quoted s) (.string s)
  | emptyArray {w : Bytes} : Ws w → Derives (91 :: (w ++ [93])) (.array [])
  | array {items : List Item} : items ≠ [] → (∀ i ∈ items, Ws i.before ∧ Ws i.after) →
      (∀ i ∈ items, Derives i.text i.tree) →
      Derives (91 :: (commaSep (items.map Item.spelled) ++ [93])) (.array (items.map Item.tree))
  | emptyObject {w : Bytes} : Ws w → Derives (123 :: (w ++ [125])) (.object [])
  | object {members : List Member} : members ≠ [] →
      (∀ m ∈ members, Ws m.before ∧ Body m.key ∧ Ws m.beforeColon ∧ Ws m.item.before ∧ Ws m.item.after) →
      (∀ m ∈ members, Derives m.item.text m.item.tree) →
      Derives (123 :: (commaSep (members.map Member.spelled) ++ [125]))
        (.object (members.map fun m => (m.key, m.item.tree)))

/-- A token of a tree. -/
inductive Leaf where
  | number (token : Bytes)
  | string (body : Bytes)

mutual
/-- The tokens of a tree, from left to right. -/
def Tree.leaves : Tree → List Leaf
  | .number n => [.number n]
  | .string s => [.string s]
  | .array items => leavesOfItems items
  | .object members => leavesOfMembers members
  | _ => []
def leavesOfItems : List Tree → List Leaf
  | [] => []
  | t :: ts => t.leaves ++ leavesOfItems ts
def leavesOfMembers : List (Bytes × Tree) → List Leaf
  | [] => []
  | (k, t) :: ms => .string k :: (t.leaves ++ leavesOfMembers ms)
end

/-- A token of the RFC's own grammar. -/
def Leaf.Strict : Leaf → Prop
  | .number n => Number n
  | .string s => NoControl s

/-- Every token is one of the RFC's. -/
def Tree.Strict (t : Tree) : Prop := ∀ leaf ∈ t.leaves, leaf.Strict

/-- `JSON-text = ws value ws` of RFC 8259. -/
def JsonText (text : Bytes) : Prop :=
  ∃ w c w' t, text = w ++ c ++ w' ∧ Ws w ∧ Ws w' ∧ Derives c t ∧ t.Strict

end Sa.JsonGrammar
