import Sa.NumberTexts

/-!
# tinyjson: nodes and accessors

The tree a `cJSON` pointer stands for. A `NULL` pointer is `none`, and the
accessors take and return such options, as the source passes `NULL` through.
-/

namespace Sa.Tinyjson
open Sa.CStrings Sa.Doubles Sa.NumberTexts

/-- A node: its type, its value and its children in order. A key (`string` in
    the source) is kept with the member that carries it. -/
inductive cJSON where
  | null
  | true
  | false
  | number (valuedouble : Double)
  | string (valuestring : CString)
  | array (child : List cJSON)
  | object (child : List (CString × cJSON))

/-- Induction over a node and its children. -/
@[elab_as_elim, induction_eliminator]
theorem cJSON.ind {P : cJSON → Prop} (null : P .null) (true : P .true) (false : P .false)
    (number : ∀ d, P (.number d)) (string : ∀ s, P (.string s))
    (array : ∀ xs : List cJSON, (∀ x ∈ xs, P x) → P (.array xs))
    (object : ∀ ms : List (CString × cJSON), (∀ m ∈ ms, P m.2) → P (.object ms)) (v : cJSON) : P v := by
  refine @cJSON.rec P (fun xs => ∀ x ∈ xs, P x) (fun ms => ∀ m ∈ ms, P m.2)
    (fun m => P m.2) null true false number string array object ?_ ?_ ?_ ?_ ?_ v
  · intro x member; cases member
  · intro x xs first rest y member
    rcases List.mem_cons.mp member with rfl | later
    · exact first
    · exact rest y later
  · intro m member; cases member
  · intro m ms first rest y member
    rcases List.mem_cons.mp member with rfl | later
    · exact first
    · exact rest y later
  · intro key value holds; exact holds

/-- `item->child` and its siblings. -/
def cJSON.child : cJSON → List cJSON
  | .array child => child
  | .object child => child.map Prod.snd
  | _ => []

/-- The first child with this key; the children of an array carry none. -/
def cJSON_GetObjectItem (object : Option cJSON) (key : CString) : Option cJSON :=
  match object with
  | some (.object child) => (child.find? fun m => decide (m.1 = key)).map Prod.snd
  | _ => none

def cJSON_GetArraySize (array : Option cJSON) : Nat :=
  match array with
  | none => 0
  | some a => a.child.length

def cJSON_GetStringValue (item : Option cJSON) : Option CString :=
  match item with
  | some (.string valuestring) => some valuestring
  | _ => none

def cJSON_IsNumber (item : Option cJSON) : Bool :=
  match item with
  | some (.number _) => Bool.true
  | _ => false

def cJSON_IsArray (item : Option cJSON) : Bool :=
  match item with
  | some (.array _) => true
  | _ => false

def cJSON_IsString (item : Option cJSON) : Bool :=
  match item with
  | some (.string _) => true
  | _ => false

/-- `cJSON_IsNumber(item) ? item->valueint : -1`. -/
def intOr (item : Option cJSON) : Int :=
  match item with
  | some (.number valuedouble) => to_int valuedouble
  | _ => -1

theorem getObjectItem_cons (key k : CString) (v : cJSON) (ms : List (CString × cJSON)) :
    cJSON_GetObjectItem (some (.object ((k, v) :: ms))) key =
      if k = key then some v else cJSON_GetObjectItem (some (.object ms)) key := by
  by_cases same : k = key
  · simp [cJSON_GetObjectItem, same]
  · simp [cJSON_GetObjectItem, same]

end Sa.Tinyjson
