import Sa.NodeFocus
import Sa.ToolSchemas

/-!
# The tools' schemas on the nodes

`make_shell_tool`, `make_read_file_tool` and `make_edit_file_tool` build the schemas in
memory: each parameter is added inside the tree that is there already.
-/

namespace Sa.NodeTools
open Sa.CStrings Sa.Separation Sa.Programs Sa.Nodes Sa.Ownership Sa.Containers Sa.JsonNodes Sa.NodeFocus Sa.ToolSchemas

def tool_schema (n : ℕ) (tool : Addr) : C (Option Addr) := cJSON_GetObjectItem n (some tool) (cs "input_schema")

def tool_props (n : ℕ) (tool : Addr) : C (Option Addr) := do
  let schema ← tool_schema n tool
  cJSON_GetObjectItem n schema (cs "properties")

section
variable (m : Allocator Addr Cell)

def add_prop (n : ℕ) (props : Option Addr) (name type : CString) : C Unit := do
  let p ← cJSON_CreateObject m
  cJSON_AddStringToObject m n (some p) (cs "type") type
  cJSON_AddItemToObject m n props name (some p)

def add_required (n : ℕ) (schema : Option Addr) (name : CString) : C Unit := do
  match ← cJSON_GetObjectItem n schema (cs "required") with
  | some a =>
    let s ← cJSON_CreateString m name
    cJSON_AddItemToArray n (some a) (some s)
  | none =>
    let a ← cJSON_CreateArray m
    cJSON_AddItemToObject m n schema (cs "required") (some a)
    let s ← cJSON_CreateString m name
    cJSON_AddItemToArray n (some a) (some s)

def make_tool (n : ℕ) (name desc : CString) : C Addr := do
  let t ← cJSON_CreateObject m
  cJSON_AddStringToObject m n (some t) (cs "name") name
  cJSON_AddStringToObject m n (some t) (cs "description") desc
  let schema ← cJSON_CreateObject m
  cJSON_AddStringToObject m n (some schema) (cs "type") (cs "object")
  let props ← cJSON_CreateObject m
  cJSON_AddItemToObject m n (some schema) (cs "properties") (some props)
  cJSON_AddItemToObject m n (some t) (cs "input_schema") (some schema)
  return t

def make_shell_tool (n : ℕ) : C Addr := do
  let t ← make_tool m n shell.name shell.description
  let props ← tool_props n t
  add_prop m n props (cs "cmd") (cs "string")
  let schema ← tool_schema n t
  add_required m n schema (cs "cmd")
  return t

def make_read_file_tool (n : ℕ) : C Addr := do
  let t ← make_tool m n read_file.name read_file.description
  let props ← tool_props n t
  add_prop m n props (cs "path") (cs "string")
  add_prop m n props (cs "offset") (cs "integer")
  add_prop m n props (cs "limit") (cs "integer")
  let schema ← tool_schema n t
  add_required m n schema (cs "path")
  return t

def make_edit_file_tool (n : ℕ) : C Addr := do
  let t ← make_tool m n edit_file.name edit_file.description
  let props ← tool_props n t
  add_prop m n props (cs "path") (cs "string")
  add_prop m n props (cs "old_string") (cs "string")
  add_prop m n props (cs "new_string") (cs "string")
  let schema ← tool_schema n t
  add_required m n schema (cs "path")
  let schema ← tool_schema n t
  add_required m n schema (cs "old_string")
  let schema ← tool_schema n t
  add_required m n schema (cs "new_string")
  return t

end

section
variable (m : Allocator Addr Cell) {t : Spot} {a p : Addr} {ps : List (CString × Tinyjson.cJSON)} {rs : List CString}

theorem add_prop_spec (name type : CString) : Triple (placed t p (.object ps)) (fun n => add_prop m n (some p) name type)
    fun _ => placed t p (.object (ps ++ [property (name, type)])) := by
  rw [← one_mul (placed t p _)]
  refine (createObject_json m).call fun b => (addString_json m _ _).call fun _ => ?_
  rw [mul_comm]
  exact addToObject_json m name

theorem keys_differ : cs "type" ≠ cs "required" ∧ cs "properties" ≠ cs "required" ∧ cs "name" ≠ cs "input_schema" ∧
    cs "description" ≠ cs "input_schema" ∧ cs "type" ≠ cs "properties" := by decide

theorem schema_required (props : Tinyjson.cJSON) (rs : List CString) :
    Tinyjson.cJSON_GetObjectItem (some (schemaOf props rs)) (cs "required") =
      if rs = [] then none else some (.array (rs.map .string)) := by
  unfold schemaOf requiredMember
  split_ifs <;> simp [Tinyjson.cJSON_GetObjectItem, keys_differ]

theorem put_required (props w : Tinyjson.cJSON) {rs : List CString} (some : rs ≠ []) :
    putItem (cs "required") w (schemaOf props rs) =
      .object [(cs "type", .string (cs "object")), (cs "properties", props), (cs "required", w)] := by
  simp [schemaOf, requiredMember, if_neg some, putItem, putMember, keys_differ]

/-- A string goes to an array that is part of a tree. -/
theorem addString_array {xs : List Tinyjson.cJSON} {outer : Tinyjson.cJSON → Assertion Addr Cell} {b : Addr} (name : CString) :
    Triple (within b (.array xs) outer) (fun n => cJSON_CreateString m name >>= fun s => cJSON_AddItemToArray n (some b) (some s))
      fun _ => outer (.array (xs ++ [.string name])) := by
  refine Triple.iSup fun t => ?_
  rw [← one_mul (placed t b _ * _)]
  refine (createString_json m name).call fun s => ?_
  refine Triple.pre (P := placed t b (.array xs) * json s none (.string name) * hole (placed t b) outer) ?_ (le_of_eq (by ac_rfl))
  exact (addToArray_json.frame _).post fun _ => fill (Tinyjson.cJSON.array (xs ++ [.string name]))

theorem add_required_spec (props : Tinyjson.cJSON) (name : CString) : Triple (placed t p (schemaOf props rs))
    (fun n => add_required m n (some p) name) fun _ => placed t p (schemaOf props (rs ++ [name])) := by
  refine Triple.bind (getObjectItem_spec (cs "required")) fun r => ?_
  rw [schema_required]
  by_cases empty : rs = []
  · subst empty
    rw [if_pos rfl]
    cases r with
    | some b =>
      rw [← mul_one (focus _ _ _ _)]
      exact Triple.bot
    | none =>
      show Triple (placed t p (schemaOf props [])) _ _
      rw [← one_mul (placed t p (schemaOf props []))]
      refine (createArray_json m).call fun b => ?_
      rw [mul_comm]
      exact Triple.bind (addToObject_focus m _) fun _ => addString_array m name
  · rw [if_neg empty]
    cases r with
    | none =>
      rw [← mul_one (focus _ _ _ _)]
      exact Triple.bot
    | some b =>
      refine (addString_array m name).post fun _ => le_of_eq ?_
      rw [put_required props _ empty, schemaOf, requiredMember, if_neg (by simp), List.map_append]
      rfl

theorem make_tool_spec (name desc : CString) : Triple 1 (fun n => make_tool m n name desc)
    fun a => json a none (Tool.tree ⟨name, desc, [], []⟩) := by
  refine (createObject_json m).bind fun a => (addString_json m _ _).bind fun _ => (addString_json m _ _).bind fun _ => ?_
  rw [← one_mul (placed _ a _)]
  refine (createObject_json m).call fun schema => (addString_json m _ _).call fun _ => ?_
  rw [← one_mul (placed _ schema _ * _)]
  refine (createObject_json m).call fun props => ?_
  rw [← mul_assoc, mul_comm (json props none _)]
  refine (addToObject_json m _).call fun _ => ?_
  rw [mul_comm]
  exact (addToObject_json m _).bind fun _ => Triple.pure le_rfl

/-- A member that is there, inside its object. -/
theorem member_within {key : CString} {v w : Tinyjson.cJSON} (found : Tinyjson.cJSON_GetObjectItem (some v) key = some w) :
    Triple (placed t a v) (fun n => cJSON_GetObjectItem n (some a) key)
      fun r => ⨆ b, fact (r = some b) * within b w fun w => placed t a (putItem key w v) := by
  refine (getObjectItem_spec key).post fun r => ?_
  rw [found]
  cases r with
  | none => exact bot_le
  | some b => exact le_iSup_of_le b (le_fact_mul rfl le_rfl)

theorem get_schema (name desc : CString) (schema : Tinyjson.cJSON) :
    Tinyjson.cJSON_GetObjectItem (some (toolOf name desc schema)) (cs "input_schema") = some schema := by
  simp [toolOf, Tinyjson.getObjectItem_cons, keys_differ]

theorem put_schema (name desc : CString) (schema w : Tinyjson.cJSON) :
    putItem (cs "input_schema") w (toolOf name desc schema) = toolOf name desc w := by
  simp [toolOf, putItem, putMember, keys_differ]

theorem get_props (props : Tinyjson.cJSON) (rs : List CString) :
    Tinyjson.cJSON_GetObjectItem (some (schemaOf props rs)) (cs "properties") = some props := by
  simp [schemaOf, Tinyjson.getObjectItem_cons, keys_differ]

theorem put_props (props w : Tinyjson.cJSON) (rs : List CString) : putItem (cs "properties") w (schemaOf props rs) = schemaOf w rs := by
  simp [schemaOf, putItem, putMember, keys_differ]

/-- The schema inside the tool. -/
theorem tool_schema_spec {name desc : CString} {schema : Tinyjson.cJSON} : Triple (json a none (toolOf name desc schema))
    (fun n => tool_schema n a) fun r => ⨆ b, fact (r = some b) * within b schema fun w => json a none (toolOf name desc w) := by
  have member := member_within (t := ⟨none, none, none, none⟩) (a := a) (get_schema name desc schema)
  simp only [put_schema] at member
  exact member

/-- The parameters inside the schema inside the tool. -/
theorem tool_props_spec {name desc : CString} {props : Tinyjson.cJSON} : Triple (json a none (toolOf name desc (schemaOf props rs)))
    (fun n => tool_props n a) fun r => ⨆ b, fact (r = some b) * within b props fun w => json a none (toolOf name desc (schemaOf w rs)) := by
  refine tool_schema_spec.bind fun r => Triple.iSup fun b => Triple.fact ?_
  rintro rfl
  refine Triple.iSup fun t' => ?_
  have member := member_within (t := t') (a := b) (get_props props rs)
  simp only [put_props] at member
  refine (member.frame _).post fun r => ?_
  rw [iSup_mul]
  refine iSup_le fun b' => le_iSup_of_le b' ?_
  rw [mul_assoc]
  exact fact_mul_le fun here => le_fact_mul here within_within

/-- What is done to the parameters is done to the tool. -/
theorem with_props {α : Type} {c : ℕ → Option Addr → C α} {S : α → Assertion Addr Cell} {name desc : CString} {props : Tinyjson.cJSON}
    (each : ∀ t p, Triple (placed t p props * hole (placed t p) fun w => json a none (toolOf name desc (schemaOf w rs)))
      (fun n => c n (some p)) S) :
    Triple (json a none (toolOf name desc (schemaOf props rs))) (fun n => tool_props n a >>= c n) S := by
  refine tool_props_spec.bind fun r => Triple.iSup fun p => Triple.fact ?_
  rintro rfl
  exact Triple.iSup fun t => each t p

theorem with_schema {α : Type} {c : ℕ → Option Addr → C α} {S : α → Assertion Addr Cell} {name desc : CString} {schema : Tinyjson.cJSON}
    (each : ∀ t p, Triple (placed t p schema * hole (placed t p) fun w => json a none (toolOf name desc w)) (fun n => c n (some p)) S) :
    Triple (json a none (toolOf name desc schema)) (fun n => tool_schema n a >>= c n) S := by
  refine tool_schema_spec.bind fun r => Triple.iSup fun p => Triple.fact ?_
  rintro rfl
  exact Triple.iSup fun t => each t p

theorem make_shell_tool_spec : Triple 1 (fun n => make_shell_tool m n) fun a => json a none shell.tree := by
  refine (make_tool_spec m _ _).bind fun a => with_props fun t p => ?_
  refine (add_prop_spec m _ _).call fun _ => Triple.pre ?_ (fill _)
  refine with_schema fun t p => (add_required_spec m _ _).call fun _ => Triple.pre ?_ (fill _)
  exact Triple.pure le_rfl

theorem make_read_file_tool_spec : Triple 1 (fun n => make_read_file_tool m n) fun a => json a none read_file.tree := by
  refine (make_tool_spec m _ _).bind fun a => with_props fun t p => ?_
  refine (add_prop_spec m _ _).call fun _ => (add_prop_spec m _ _).call fun _ => (add_prop_spec m _ _).call fun _ =>
    Triple.pre ?_ (fill _)
  refine with_schema fun t p => (add_required_spec m _ _).call fun _ => Triple.pre ?_ (fill _)
  exact Triple.pure le_rfl

theorem make_edit_file_tool_spec : Triple 1 (fun n => make_edit_file_tool m n) fun a => json a none edit_file.tree := by
  refine (make_tool_spec m _ _).bind fun a => with_props fun t p => ?_
  refine (add_prop_spec m _ _).call fun _ => (add_prop_spec m _ _).call fun _ => (add_prop_spec m _ _).call fun _ =>
    Triple.pre ?_ (fill _)
  refine with_schema fun t p => (add_required_spec m _ _).call fun _ => Triple.pre ?_ (fill _)
  refine with_schema fun t p => (add_required_spec m _ _).call fun _ => Triple.pre ?_ (fill _)
  refine with_schema fun t p => (add_required_spec m _ _).call fun _ => Triple.pre ?_ (fill _)
  exact Triple.pure le_rfl

end

end Sa.NodeTools
