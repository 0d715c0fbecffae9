import Sa.Parser
import Sa.Printer
import Sa.Programs

/-!
# tinyjson on the heap

The functions of tinyjson as they work on nodes and strings in memory. Strings that nodes
own are allocated apart from them, as `strdup` does. Allocation gives any free address;
where the source aborts for want of memory there is nothing to say. A function that loops
takes the number of its passes first.
-/

namespace Sa.Nodes
open Sa.CStrings Sa.Doubles Sa.NumberTexts Sa.Separation Sa.Programs

abbrev Addr := ℕ

inductive JsonType where
  | False
  | True
  | NULL
  | Number
  | String
  | Array
  | Object
  deriving DecidableEq

/-- A node; `none` is `NULL`. -/
structure cJSON where
  next : Option Addr
  prev : Option Addr
  child : Option Addr
  parent : Option Addr
  type : JsonType
  valuestring : Option Addr
  valueint : ℤ
  valuedouble : Double
  string : Option Addr
  is_ref : Bool

inductive Cell where
  | node (item : cJSON)
  | chars (s : CString)

abbrev Memory := Heap Addr Cell
abbrev C (α : Type) := Mem Addr Cell α

def node (a : Addr) : C cJSON := do
  match ← load a with
  | .node item => return item
  | .chars _ => fault

def chars (a : Addr) : C CString := do
  match ← load a with
  | .chars s => return s
  | .node _ => fault

def modify (a : Addr) (write : cJSON → cJSON) : C Unit := do
  let item ← node a
  store a (.node (write item))

/-- `free`, which does nothing for `NULL`. -/
def free (p : Option Addr) : C Unit :=
  match p with
  | some a => dealloc a
  | none => return ()

section
variable (m : Allocator Addr Cell)

def strdup (s : CString) : C Addr := alloc m (.chars s)

/-- The `valuedouble` of a new node. -/
def zero : Double := ofInt 0 (by decide)

def cj_new (type : JsonType) : C Addr := alloc m (.node ⟨none, none, none, none, type, none, 0, zero, none, false⟩)

def cJSON_CreateNull : C Addr := cj_new m .NULL
def cJSON_CreateObject : C Addr := cj_new m .Object
def cJSON_CreateArray : C Addr := cj_new m .Array

def cJSON_CreateString (s : CString) : C Addr := do
  let j ← cj_new m .String
  let copy ← strdup m s
  modify j fun item => { item with valuestring := some copy }
  return j

def cJSON_CreateNumber (n : Double) : C Addr := do
  let j ← cj_new m .Number
  modify j fun item => { item with valuedouble := n, valueint := to_int n }
  return j

def cJSON_CreateBool (b : Bool) : C Addr := cj_new m (if b then .True else .False)

def cJSON_Delete : ℕ → Option Addr → C Unit
  | _, none => return ()
  | 0, some _ => fault
  | n + 1, some a => do
    let item ← node a
    (if item.is_ref then return () else cJSON_Delete n item.child)
    free item.valuestring
    free item.string
    dealloc a
    cJSON_Delete n item.next

/-- The loop of `cj_append_child`. -/
def lastChild : ℕ → Addr → C Addr
  | 0, _ => fault
  | n + 1, last => do
    let item ← node last
    match item.next with
    | some next => lastChild n next
    | none => return last

def cj_append_child (n : ℕ) (parent item : Addr) : C Unit := do
  modify item fun node => { node with parent := some parent, next := none }
  let root ← node parent
  match root.child with
  | none =>
    modify item fun node => { node with prev := none }
    modify parent fun node => { node with child := some item }
  | some first =>
    let last ← lastChild n first
    modify last fun node => { node with next := some item }
    modify item fun node => { node with prev := some last }

def cJSON_AddItemToArray (n : ℕ) (array item : Option Addr) : C Unit :=
  match array, item with
  | some array, some item => cj_append_child n array item
  | _, _ => return ()

def cJSON_AddItemToObject (n : ℕ) (object : Option Addr) (key : CString) (item : Option Addr) : C Unit :=
  match object, item with
  | some object, some item => do
    let old ← node item
    free old.string
    let copy ← strdup m key
    modify item fun node => { node with string := some copy }
    cj_append_child n object item
  | _, _ => return ()

/-- The new node shares the children and the string of the other. -/
def cJSON_AddItemReferenceToObject (n : ℕ) (object : Option Addr) (key : CString) (item : Option Addr) : C Unit :=
  match object, item with
  | some object, some item => do
    let shared ← node item
    let ref ← cj_new m shared.type
    let copy ← strdup m key
    modify ref fun node =>
      { node with
        is_ref := true
        child := shared.child
        valuestring := shared.valuestring
        valueint := shared.valueint
        valuedouble := shared.valuedouble
        string := some copy }
    cj_append_child n object ref
  | _, _ => return ()

def cJSON_AddStringToObject (n : ℕ) (object : Option Addr) (key val : CString) : C Unit := do
  let item ← cJSON_CreateString m val
  cJSON_AddItemToObject m n object key (some item)

def cJSON_AddNumberToObject (n : ℕ) (object : Option Addr) (key : CString) (val : Double) : C Unit := do
  let item ← cJSON_CreateNumber m val
  cJSON_AddItemToObject m n object key (some item)

def cJSON_AddBoolToObject (n : ℕ) (object : Option Addr) (key : CString) (val : Bool) : C Unit := do
  let item ← cJSON_CreateBool m val
  cJSON_AddItemToObject m n object key (some item)

end

/-- `c->string && strcmp(c->string, key) == 0`. -/
def keyIs (item : cJSON) (key : CString) : C Bool :=
  match item.string with
  | none => return false
  | some string => do
    let s ← chars string
    return s == key

/-- The loop of `cJSON_GetObjectItem`. -/
def findKey (key : CString) : ℕ → Option Addr → C (Option Addr)
  | _, none => return none
  | 0, some _ => fault
  | n + 1, some c => do
    let item ← node c
    if ← keyIs item key then return some c
    else findKey key n item.next

def cJSON_GetObjectItem (n : ℕ) (object : Option Addr) (key : CString) : C (Option Addr) :=
  match object with
  | none => return none
  | some object => do
    let root ← node object
    findKey key n root.child

/-- The loop of `cJSON_GetArrayItem`. -/
def itemLoop : ℕ → Option Addr → C (Option Addr)
  | _, none => return none
  | 0, some c => return some c
  | index + 1, some c => do
    let item ← node c
    itemLoop index item.next

def cJSON_GetArrayItem (array : Option Addr) (index : ℕ) : C (Option Addr) :=
  match array with
  | none => return none
  | some array => do
    let root ← node array
    itemLoop index root.child

/-- The loop of `cJSON_GetArraySize`. -/
def countLoop : ℕ → Option Addr → C ℕ
  | _, none => return 0
  | 0, some _ => fault
  | n + 1, some c => do
    let item ← node c
    let rest ← countLoop n item.next
    return rest + 1

def cJSON_GetArraySize (n : ℕ) (array : Option Addr) : C ℕ :=
  match array with
  | none => return 0
  | some array => do
    let root ← node array
    countLoop n root.child

def typeIs (type : JsonType) (item : Option Addr) : C Bool :=
  match item with
  | none => return false
  | some a => do
    let item ← node a
    return decide (item.type = type)

def cJSON_IsNumber (item : Option Addr) : C Bool := typeIs .Number item
def cJSON_IsArray (item : Option Addr) : C Bool := typeIs .Array item
def cJSON_IsString (item : Option Addr) : C Bool := typeIs .String item

def cJSON_GetStringValue (item : Option Addr) : C (Option Addr) :=
  match item with
  | none => return none
  | some a => do
    let item ← node a
    return if item.type = .String then item.valuestring else none

def cJSON_DeleteItemFromArray (n : ℕ) (array : Addr) (index : ℕ) : C Unit := do
  match ← cJSON_GetArrayItem (some array) index with
  | none => return ()
  | some c =>
    let item ← node c
    (match item.prev with
      | some prev => modify prev fun node => { node with next := item.next }
      | none => modify array fun node => { node with child := item.next })
    let item ← node c
    (match item.next with
      | some next => modify next fun node => { node with prev := item.prev }
      | none => return ())
    modify c fun node => { node with next := none, prev := none, parent := none }
    cJSON_Delete n (some c)

def cJSON_SetValuestring (m : Allocator Addr Cell) (item : Option Addr) (v : CString) : C (Option Addr) :=
  match item with
  | none => return none
  | some a => do
    let node ← node a
    if node.type = .String then
      free node.valuestring
      let copy ← strdup m v
      modify a fun node => { node with valuestring := some copy }
      return some copy
    else return none

end Sa.Nodes
