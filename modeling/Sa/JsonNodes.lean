import Sa.Containers

/-!
# Trees of nodes

The nodes that a tree stands for, and building trees with the functions that create and
add nodes.
-/

namespace Sa.JsonNodes
open Sa.CStrings Sa.Doubles Sa.NumberTexts Sa.Separation Sa.Programs Sa.Nodes Sa.Ownership Sa.Containers

/-- What the node of a tree holds, with its key. -/
def dataOf (key : Option CString) : Tinyjson.cJSON → Data
  | .null => { blank .NULL with string := key }
  | .true => { blank .True with string := key }
  | .false => { blank .False with string := key }
  | .number d => { blank .Number with valueint := to_int d, valuedouble := d, string := key }
  | .string s => { blank .String with valuestring := some s, string := key }
  | .array _ => { blank .Array with string := key }
  | .object _ => { blank .Object with string := key }

mutual
/-- What is below the node of a tree. -/
def kids : Tinyjson.cJSON → Forest
  | .array xs => items xs
  | .object ms => members ms
  | _ => .nil
def items : List Tinyjson.cJSON → Forest
  | [] => .nil
  | x :: xs => .cons (dataOf none x) (kids x) (items xs)
def members : List (CString × Tinyjson.cJSON) → Forest
  | [] => .nil
  | (k, x) :: ms => .cons (dataOf (some k) x) (kids x) (members ms)
end

@[simp] theorem items_append (xs ys : List Tinyjson.cJSON) : items (xs ++ ys) = items xs ++ items ys := by
  induction xs with
  | nil => simp [items]
  | cons x xs ih => simp [items, ih]

@[simp] theorem members_append (ms ns : List (CString × Tinyjson.cJSON)) : members (ms ++ ns) = members ms ++ members ns := by
  induction ms with
  | nil => simp [members]
  | cons m ms ih => simp [members, ih]

@[simp] theorem dataOf_ref (key : Option CString) (v : Tinyjson.cJSON) : (dataOf key v).ref = none := by
  cases v <;> rfl

@[simp] theorem dataOf_string (key : Option CString) (v : Tinyjson.cJSON) : (dataOf key v).string = key := by
  cases v <;> rfl

theorem dataOf_key (key key' : Option CString) (v : Tinyjson.cJSON) :
    dataOf key' v = { dataOf key v with string := key' } := by
  cases v <;> rfl

/-- Where a node is: its links and its key. -/
structure Spot where
  next : Option Addr
  prev : Option Addr
  parent : Option Addr
  key : Option CString

/-- A tree at the node `a`. -/
abbrev placed (t : Spot) (a : Addr) (v : Tinyjson.cJSON) : Assertion Addr Cell :=
  held a t.next t.prev t.parent (dataOf t.key v) (kids v)

/-- A tree that is in no container. -/
abbrev json (a : Addr) (key : Option CString) (v : Tinyjson.cJSON) : Assertion Addr Cell := placed ⟨none, none, none, key⟩ a v

/-- A tree at `a`, and around it what makes it whole again. -/
def within (a : Addr) (v : Tinyjson.cJSON) (outer : Tinyjson.cJSON → Assertion Addr Cell) : Assertion Addr Cell :=
  ⨆ t, placed t a v * hole (placed t a) outer

theorem within_le {a : Addr} {v : Tinyjson.cJSON} {outer : Tinyjson.cJSON → Assertion Addr Cell} : within a v outer ≤ outer v :=
  iSup_le fun _ => fill v

/-- A tree inside a tree that is itself inside another one. -/
theorem within_within {a b : Addr} {t : Spot} {v : Tinyjson.cJSON} {g : Tinyjson.cJSON → Tinyjson.cJSON}
    {outer : Tinyjson.cJSON → Assertion Addr Cell} :
    within b v (fun w => placed t a (g w)) * hole (placed t a) outer ≤ within b v fun w => outer (g w) := by
  rw [within, iSup_mul]
  refine iSup_le fun t' => le_iSup_of_le t' ?_
  rw [mul_assoc]
  exact mul_le_mul_right (hole_hole g) _

/-- The part goes back into the tree. -/
theorem fill_placed {t : Spot} {a : Addr} {outer : Tinyjson.cJSON → Assertion Addr Cell} {R : Assertion Addr Cell} (w : Tinyjson.cJSON) :
    placed t a w * (hole (placed t a) outer * R) ≤ outer w * R := by
  rw [← mul_assoc]
  exact mul_le_mul_left (fill w) R

section
variable (m : Allocator Addr Cell) {a b : Addr} {key : Option CString} {d e : Data} {f g : Forest} {t : Spot}
  {xs : List Tinyjson.cJSON} {ms : List (CString × Tinyjson.cJSON)} {v : Tinyjson.cJSON}

theorem createNull_json : Triple 1 (fun _ => cJSON_CreateNull m) fun a => json a none .null := new_root m .NULL
theorem createArray_json : Triple 1 (fun _ => cJSON_CreateArray m) fun a => json a none (.array []) := new_root m .Array
theorem createObject_json : Triple 1 (fun _ => cJSON_CreateObject m) fun a => json a none (.object []) := new_root m .Object

theorem createString_json (s : CString) : Triple 1 (fun _ => cJSON_CreateString m s) fun a => json a none (.string s) :=
  createString_root m s

theorem createNumber_json (n : Double) : Triple 1 (fun _ => cJSON_CreateNumber m n) fun a => json a none (.number n) :=
  createNumber_root m n

theorem createBool_json (b : Bool) : Triple 1 (fun _ => cJSON_CreateBool m b)
    fun a => json a none (if b then .true else .false) := by
  cases b
  · exact new_root m .False
  · exact new_root m .True

/-- The item is in the array, where it may still change. -/
theorem addToArray_focus : Triple (placed t a (.array xs) * json b none v) (fun n => cJSON_AddItemToArray n (some a) (some b))
    fun _ => within b v fun w => placed t a (.array (xs ++ [w])) := by
  refine (append_child (dataOf_ref _ _)).post fun _ => iSup_le fun p => ?_
  refine le_iSup_of_le (⟨none, p, some a, none⟩ : Spot) (mul_le_mul_right (le_hole.mpr fun w => ?_) _)
  refine fill_held.trans (le_of_eq ?_)
  simp only [placed, kids, items_append, items]
  rfl

theorem addToArray_json : Triple (placed t a (.array xs) * json b none v) (fun n => cJSON_AddItemToArray n (some a) (some b))
    fun _ => placed t a (.array (xs ++ [v])) :=
  addToArray_focus.post fun _ => within_le

/-- A node that has its key goes to an object, where it may still change. -/
theorem appendMember_focus {k : CString} : Triple (placed t a (.object ms) * json b (some k) v) (fun n => cj_append_child n a b)
    fun _ => within b v fun w => placed t a (.object (ms ++ [(k, w)])) := by
  refine (append_child (dataOf_ref _ _)).post fun _ => iSup_le fun p => ?_
  refine le_iSup_of_le (⟨none, p, some a, some k⟩ : Spot) (mul_le_mul_right (le_hole.mpr fun w => ?_) _)
  refine fill_held.trans (le_of_eq ?_)
  simp only [placed, kids, members_append, members]
  rfl

theorem appendMember_json {k : CString} : Triple (placed t a (.object ms) * json b (some k) v) (fun n => cj_append_child n a b)
    fun _ => placed t a (.object (ms ++ [(k, v)])) :=
  appendMember_focus.post fun _ => within_le

/-- The key that a node had is freed. -/
theorem addToObject_rekeyed {P : Assertion Addr Cell} {Q : Unit → Assertion Addr Cell} (k : CString)
    (append : Triple (P * json b (some k) v) (fun n => cj_append_child n a b) Q) :
    Triple (P * json b key v) (fun n => cJSON_AddItemToObject m n (some a) k (some b)) Q := by
  simp only [cJSON_AddItemToObject]
  rw [mul_comm]
  refine Triple.held fun item behind before above => Triple.node_own (Triple.own fun fits => ?_)
  refine Triple.pre (P := text item.string (dataOf key v).string * (pts b (.node item) * (text item.valuestring (dataOf key v).valuestring *
    (children b (owned item) (kids v) * P)))) ?_ (le_of_eq (by rw [own_eq fits]; ac_rfl))
  refine (free_text _ _).call fun _ => ?_
  rw [one_mul]
  refine Triple.alloc m fun copy => ?_
  rw [mul_left_comm]
  refine Triple.modify (append.pre ?_)
  have fits' : Fits { item with string := some copy } (dataOf (some k) v) := by
    rw [dataOf_key key (some k)]
    exact ⟨fits.type, fits.valueint, fits.valuedouble, fits.is_ref, fits.child⟩
  have same : (dataOf (some k) v).valuestring = (dataOf key v).valuestring := by cases v <;> rfl
  have outside : own b { item with string := some copy } (dataOf (some k) v) (kids v) ≤ json b (some k) v :=
    own_le_held behind before above
  rw [own_eq fits', dataOf_string, same] at outside
  refine le_trans (le_of_eq ?_) (mul_le_mul_right outside _)
  show _ = P * (pts b _ * (text item.valuestring _ * (pts copy (.chars k) * children b (owned item) (kids v))))
  ac_rfl

theorem addToObject_focus (k : CString) : Triple (placed t a (.object ms) * json b key v)
    (fun n => cJSON_AddItemToObject m n (some a) k (some b))
    fun _ => within b v fun w => placed t a (.object (ms ++ [(k, w)])) :=
  addToObject_rekeyed m k appendMember_focus

theorem addToObject_json (k : CString) : Triple (placed t a (.object ms) * json b key v)
    (fun n => cJSON_AddItemToObject m n (some a) k (some b)) fun _ => placed t a (.object (ms ++ [(k, v)])) :=
  addToObject_rekeyed m k appendMember_json

theorem addString_json (k val : CString) : Triple (placed t a (.object ms)) (fun n => cJSON_AddStringToObject m n (some a) k val)
    fun _ => placed t a (.object (ms ++ [(k, .string val)])) := by
  rw [← one_mul (placed t a _)]
  refine (createString_json m val).call fun b => ?_
  rw [mul_comm]
  exact addToObject_json m k

theorem addNumber_json (k : CString) (val : Double) : Triple (placed t a (.object ms))
    (fun n => cJSON_AddNumberToObject m n (some a) k val) fun _ => placed t a (.object (ms ++ [(k, .number val)])) := by
  rw [← one_mul (placed t a _)]
  refine (createNumber_json m val).call fun b => ?_
  rw [mul_comm]
  exact addToObject_json m k

end

end Sa.JsonNodes
