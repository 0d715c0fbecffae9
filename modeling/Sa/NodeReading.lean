import Sa.JsonNodes
import Sa.Stream

/-!
# Reading nodes

What a memory shows from a pointer on, whoever owns it, and that the accessors on the
nodes return what the accessors on the trees do.
-/

namespace Sa.NodeReading
open Sa.CStrings Sa.Doubles Sa.NumberTexts Sa.Separation Sa.Programs Sa.Nodes Sa.Ownership Sa.Containers Sa.JsonNodes

def Text (h : Memory) (p : Option Addr) (s : Option CString) : Prop :=
  match p, s with
  | none, none => True
  | some a, some s => h.lookup a = some (.chars s)
  | _, _ => False

/-- What is read of the node at `a`, apart from its links. -/
structure Looks (h : Memory) (a : Addr) (item : Nodes.cJSON) (d : Data) : Prop where
  node : h.lookup a = some (.node item)
  type : item.type = d.type
  valueint : item.valueint = d.valueint
  valuedouble : item.valuedouble = d.valuedouble
  valuestring : Text h item.valuestring d.valuestring
  string : Text h item.string d.string

/-- The nodes of `f` are read from `first` on, up to `after`. -/
def Shown (h : Memory) (first : Option Addr) (f : Forest) (after : Option Addr) : Prop :=
  match f with
  | .nil => first = after
  | .cons d below f => ∃ a item, first = some a ∧ Looks h a item d ∧ Shown h item.child below none ∧ Shown h item.next f after

/-- A forest with its references, and what they show. -/
def Displays (h : Memory) : Forest → Forest → Prop
  | .nil, .nil => True
  | .cons d below f, .cons e below' f' => e = { d with ref := none } ∧
      (match d.ref with
        | none => Displays h below below'
        | some p => Shown h p below' none) ∧
      Displays h f f'
  | _, _ => False

section
variable {h : Memory} {R : Assertion Addr Cell} {parent prev first last after : Option Addr} {a : Addr} {d : Data} {f f' g : Forest}
  {item : Nodes.cJSON}

theorem text_shown {p : Option Addr} {s : Option CString} (holds : h ∈ text p s * R) : Text h p s := by
  cases p with
  | none =>
    cases s with
    | none => trivial
    | some s =>
      obtain ⟨_, _, -, -, none, -⟩ := holds
      exact none.elim
  | some a =>
    cases s with
    | none =>
      obtain ⟨_, _, -, -, none, -⟩ := holds
      exact none.elim
    | some s => exact lookup_pts holds

theorem own_shown (holds : h ∈ own a item d f * R) :
    Looks h a item d ∧ Fits item d ∧ h ∈ children a (owned item) f * (pts a (.node item) *
      (text item.valuestring d.valuestring * (text item.string d.string * R))) := by
  rw [own, mul_assoc, mem_fact_mul] at holds
  obtain ⟨fits, holds⟩ := holds
  have node : h ∈ pts a (.node item) * (text item.valuestring d.valuestring *
      (text item.string d.string * children a (owned item) f) * R) := by rwa [← mul_assoc]
  have valuestring : h ∈ text item.valuestring d.valuestring * (pts a (.node item) *
      (text item.string d.string * children a (owned item) f * R)) := by
    convert holds using 1
    ac_rfl
  have string : h ∈ text item.string d.string * (pts a (.node item) *
      (text item.valuestring d.valuestring * children a (owned item) f * R)) := by
    convert holds using 1
    ac_rfl
  refine ⟨⟨lookup_pts node, fits.type, fits.valueint, fits.valuedouble, text_shown valuestring, text_shown string⟩, fits, ?_⟩
  convert holds using 1
  ac_rfl

/-- What is owned is shown, and so is what its references share. -/
theorem segment_shown (holds : h ∈ segment parent prev first f last after * R) (displays : Displays h f f') :
    Shown h first f' after := by
  induction f generalizing parent prev first last after f' R with
  | nil =>
    cases f' with
    | nil =>
      rw [segment_nil, mem_fact_mul] at holds
      exact holds.1.1
    | cons => exact displays.elim
  | cons d below f ihb ihf =>
    cases f' with
    | nil => exact displays.elim
    | cons e below' f' =>
      obtain ⟨rfl, inside, others⟩ := displays
      rw [segment_cons] at holds
      simp only [held, iSup_mul, mul_iSup] at holds
      obtain ⟨a, holds⟩ := Set.mem_iUnion.mp holds
      obtain ⟨next, holds⟩ := Set.mem_iUnion.mp holds
      obtain ⟨item, holds⟩ := Set.mem_iUnion.mp holds
      simp only [mul_assoc, mem_fact_mul] at holds
      obtain ⟨rfl, ⟨rfl, -, -⟩, holds⟩ := holds
      obtain ⟨looks, fits, below⟩ := own_shown holds
      refine ⟨a, item, rfl, ⟨looks.node, looks.type, looks.valueint, looks.valuedouble, looks.valuestring, looks.string⟩, ?_, ?_⟩
      · cases ref : d.ref with
        | none =>
          rw [ref] at inside
          rw [owned_eq fits ref, children, iSup_mul] at below
          obtain ⟨l, below⟩ := Set.mem_iUnion.mp below
          exact ihb below inside
        | some p =>
          rw [ref] at inside
          rw [fits.child p ref]
          exact inside
      · rw [mul_left_comm] at holds
        exact ihf holds others

end

/-- There are no references. -/
def Plain : Forest → Prop
  | .nil => True
  | .cons d below f => d.ref = none ∧ Plain below ∧ Plain f

theorem plain_items {xs : List Tinyjson.cJSON} (each : ∀ x ∈ xs, Plain (kids x)) : Plain (items xs) := by
  induction xs with
  | nil => trivial
  | cons x xs ih => exact ⟨dataOf_ref _ x, each x (by simp), ih fun y member => each y (by simp [member])⟩

theorem plain_members {ms : List (CString × Tinyjson.cJSON)} (each : ∀ m ∈ ms, Plain (kids m.2)) : Plain (members ms) := by
  induction ms with
  | nil => trivial
  | cons m ms ih => exact ⟨dataOf_ref _ m.2, each m (by simp), ih fun n member => each n (by simp [member])⟩

theorem plain_kids (v : Tinyjson.cJSON) : Plain (kids v) := by
  induction v with
  | array xs ih => exact plain_items ih
  | object ms ih => exact plain_members ih
  | _ => trivial

theorem displays_plain (h : Memory) {f : Forest} (plain : Plain f) : Displays h f f := by
  induction f with
  | nil => trivial
  | cons d below f ihb ihf =>
    obtain ⟨unshared, inside, others⟩ := plain
    refine ⟨by rw [← unshared], ?_, ihf others⟩
    rw [unshared]
    exact ihb inside

section
variable {h : Memory} {a : Addr} {item : Nodes.cJSON}

theorem reads_node (here : h.lookup a = some (.node item)) : Reads h (fun _ => Nodes.node a) item := by
  refine ⟨0, fun _ _ => ?_⟩
  have loaded : load a h = some (Cell.node item, h) := by rw [load, here, Option.map_some]
  exact bind_run loaded

theorem reads_chars {s : CString} (here : h.lookup a = some (.chars s)) : Reads h (fun _ => chars a) s := by
  refine ⟨0, fun _ _ => ?_⟩
  have loaded : load a h = some (Cell.chars s, h) := by rw [load, here, Option.map_some]
  exact bind_run loaded

end

/-- The node at `a` shows the tree `v`. -/
def Means (h : Memory) (a : Addr) (v : Tinyjson.cJSON) : Prop :=
  ∃ key item, Looks h a item (dataOf key v) ∧ Shown h item.child (kids v) none

/-- The pointer is `NULL` where there is no tree, and leads to it where there is one. -/
def Refers (h : Memory) (p : Option Addr) (v : Option Tinyjson.cJSON) : Prop :=
  match p, v with
  | none, none => True
  | some a, some v => Means h a v
  | _, _ => False

section
variable {h : Memory} {first : Option Addr} {key : CString} {p : Option Addr} {v : Option Tinyjson.cJSON}

theorem keyIs_reads {a : Addr} {item : Nodes.cJSON} {d : Data} (looks : Looks h a item d) :
    Reads h (fun _ => keyIs item key) (d.string == some key) := by
  have string := looks.string
  unfold keyIs
  cases named : item.string with
  | none =>
    cases carried : d.string with
    | none => exact Reads.pure
    | some s => simp [named, carried, Text] at string
  | some p =>
    cases carried : d.string with
    | none => simp [named, carried, Text] at string
    | some s =>
      rw [named, carried] at string
      refine Reads.bind (reads_chars string) ?_
      have same : (some s == some key) = (s == key) := rfl
      rw [same]
      exact Reads.pure

theorem findKey_none (n : ℕ) : findKey key n none = Pure.pure none := by
  cases n <;> rfl

/-- No child of an array has a key. -/
theorem findKey_items {xs : List Tinyjson.cJSON} (shown : Shown h first (items xs) none) :
    Reads h (fun n => findKey key n first) none := by
  induction xs generalizing first with
  | nil =>
    obtain rfl : first = none := shown
    simp only [findKey_none]
    exact Reads.pure
  | cons x xs ih =>
    obtain ⟨a, item, rfl, looks, -, rest⟩ := shown
    refine Reads.later (Reads.bind (reads_node looks.node) (Reads.bind (keyIs_reads looks) ?_))
    rw [dataOf_string]
    exact ih rest

theorem findKey_members {ms : List (CString × Tinyjson.cJSON)} (shown : Shown h first (members ms) none) :
    ∃ q, Reads h (fun n => findKey key n first) q ∧ Refers h q ((ms.find? fun m => decide (m.1 = key)).map Prod.snd) := by
  induction ms generalizing first with
  | nil =>
    obtain rfl : first = none := shown
    simp only [findKey_none]
    exact ⟨none, Reads.pure, trivial⟩
  | cons m ms ih =>
    obtain ⟨k, x⟩ := m
    obtain ⟨a, item, rfl, looks, below, rest⟩ := shown
    by_cases same : k = key
    · refine ⟨some a, Reads.later (Reads.bind (reads_node looks.node) (Reads.bind (keyIs_reads looks) ?_)), ?_⟩
      · rw [dataOf_string, same, beq_self_eq_true]
        exact Reads.pure
      · rw [List.find?_cons_of_pos (by simpa using same)]
        exact ⟨some k, item, looks, below⟩
    · obtain ⟨q, reads, refers⟩ := ih rest
      refine ⟨q, Reads.later (Reads.bind (reads_node looks.node) (Reads.bind (keyIs_reads looks) ?_)), ?_⟩
      · have other : ((dataOf (some k) x).string == some key) = false := by
          rw [dataOf_string]
          exact beq_eq_false_iff_ne.mpr fun equal => same (Option.some.inj equal)
        rw [other]
        exact reads
      · rwa [List.find?_cons_of_neg (by simpa using same)]

/-- The pointer to a member leads to the member of the tree. -/
theorem getObjectItem_reads (refers : Refers h p v) (key : CString) :
    ∃ q, Reads h (fun n => cJSON_GetObjectItem n p key) q ∧ Refers h q (Tinyjson.cJSON_GetObjectItem v key) := by
  cases p with
  | none =>
    cases v with
    | none => exact ⟨none, Reads.pure, trivial⟩
    | some v => exact refers.elim
  | some a =>
    cases v with
    | none => exact refers.elim
    | some v =>
      obtain ⟨k, item, looks, shown⟩ := refers
      have from' {q : Option Addr} (found : Reads h (fun n => findKey key n item.child) q) :
          Reads h (fun n => cJSON_GetObjectItem n (some a) key) q := Reads.bind (reads_node looks.node) found
      cases v with
      | object ms =>
        obtain ⟨q, found, there⟩ := findKey_members shown
        exact ⟨q, from' found, there⟩
      | array xs => exact ⟨none, from' (findKey_items shown), trivial⟩
      | _ =>
        have empty : Shown h item.child (items []) none := shown
        exact ⟨none, from' (findKey_items empty), trivial⟩

/-- The string that a pointer from `cJSON_GetStringValue` leads to. -/
theorem getStringValue_reads (refers : Refers h p v) :
    ∃ q, Reads h (fun _ => cJSON_GetStringValue p) q ∧ Text h q (Tinyjson.cJSON_GetStringValue v) := by
  cases p with
  | none =>
    cases v with
    | none => exact ⟨none, Reads.pure, trivial⟩
    | some v => exact refers.elim
  | some a =>
    cases v with
    | none => exact refers.elim
    | some v =>
      obtain ⟨k, item, looks, -⟩ := refers
      have type := looks.type
      have reads : Reads h (fun _ => cJSON_GetStringValue (some a)) (if item.type = .String then item.valuestring else none) :=
        Reads.bind (reads_node looks.node) Reads.pure
      refine ⟨_, reads, ?_⟩
      rw [type]
      cases v with
      | string s => exact looks.valuestring
      | _ => trivial

theorem itemLoop_none (i : ℕ) : itemLoop i none = Pure.pure none := by
  cases i <;> rfl

theorem itemLoop_items {xs : List Tinyjson.cJSON} (shown : Shown h first (items xs) none) (i : ℕ) :
    ∃ q, Reads h (fun _ => itemLoop i first) q ∧ Refers h q xs[i]? := by
  induction xs generalizing first i with
  | nil =>
    obtain rfl : first = none := shown
    simp only [itemLoop_none]
    exact ⟨none, Reads.pure, trivial⟩
  | cons x xs ih =>
    obtain ⟨a, item, rfl, looks, below, rest⟩ := shown
    cases i with
    | zero => exact ⟨some a, Reads.pure, none, item, looks, below⟩
    | succ i =>
      obtain ⟨q, reads, refers⟩ := ih rest i
      exact ⟨q, Reads.bind (reads_node looks.node) reads, refers⟩

/-- The pointer to an item leads to the item of the tree. -/
theorem getArrayItem_reads {a : Addr} {xs : List Tinyjson.cJSON} (refers : Refers h (some a) (some (.array xs))) (i : ℕ) :
    ∃ q, Reads h (fun _ => cJSON_GetArrayItem (some a) i) q ∧ Refers h q xs[i]? := by
  obtain ⟨k, item, looks, shown⟩ := refers
  obtain ⟨q, reads, there⟩ := itemLoop_items shown i
  exact ⟨q, Reads.bind (reads_node looks.node) reads, there⟩

/-- The string that a pointer from `cJSON_GetStringValue` leads to, as it is compared. -/
def stringOf (item : Option Addr) : C (Option CString) := do
  match ← cJSON_GetStringValue item with
  | none => return none
  | some valuestring =>
    let s ← chars valuestring
    return some s

def getString (n : ℕ) (item : Option Addr) (key : CString) : C (Option CString) := do
  let member ← cJSON_GetObjectItem n item key
  stringOf member

theorem stringOf_reads (refers : Refers h p v) : Reads h (fun _ => stringOf p) (Tinyjson.cJSON_GetStringValue v) := by
  obtain ⟨q, value, shown⟩ := getStringValue_reads refers
  refine Reads.bind value ?_
  cases q with
  | none =>
    cases s : Tinyjson.cJSON_GetStringValue v with
    | none => exact Reads.pure
    | some s' =>
      rw [s] at shown
      exact shown.elim
  | some string =>
    cases s : Tinyjson.cJSON_GetStringValue v with
    | none =>
      rw [s] at shown
      exact shown.elim
    | some s' =>
      rw [s] at shown
      exact Reads.bind (reads_chars shown) Reads.pure

theorem getString_reads (refers : Refers h p v) (key : String) :
    Reads h (fun n => getString n p (cs key)) (Stream.getString v key) := by
  obtain ⟨member, found, leads⟩ := getObjectItem_reads refers (cs key)
  exact Reads.bind found (stringOf_reads leads)

theorem typeIs_reads (refers : Refers h p v) (type : JsonType) :
    Reads h (fun _ => Nodes.typeIs type p) (v.any fun v => decide ((dataOf none v).type = type)) := by
  cases p with
  | none =>
    cases v with
    | none => exact Reads.pure
    | some v => exact refers.elim
  | some a =>
    cases v with
    | none => exact refers.elim
    | some v =>
      obtain ⟨k, item, looks, -⟩ := refers
      have same : (dataOf none v).type = item.type := by
        rw [looks.type]
        cases v <;> rfl
      rw [Option.any_some, same]
      exact Reads.bind (reads_node looks.node) Reads.pure

theorem isNumber_reads (refers : Refers h p v) : Reads h (fun _ => Nodes.cJSON_IsNumber p) (Tinyjson.cJSON_IsNumber v) := by
  have same : (v.any fun v => decide ((dataOf none v).type = .Number)) = Tinyjson.cJSON_IsNumber v := by
    cases v with
    | none => rfl
    | some v => cases v <;> rfl
  exact same ▸ typeIs_reads refers .Number

theorem isArray_reads (refers : Refers h p v) : Reads h (fun _ => Nodes.cJSON_IsArray p) (Tinyjson.cJSON_IsArray v) := by
  have same : (v.any fun v => decide ((dataOf none v).type = .Array)) = Tinyjson.cJSON_IsArray v := by
    cases v with
    | none => rfl
    | some v => cases v <;> rfl
  exact same ▸ typeIs_reads refers .Array

theorem isString_reads (refers : Refers h p v) : Reads h (fun _ => Nodes.cJSON_IsString p) (Tinyjson.cJSON_IsString v) := by
  have same : (v.any fun v => decide ((dataOf none v).type = .String)) = Tinyjson.cJSON_IsString v := by
    cases v with
    | none => rfl
    | some v => cases v <;> rfl
  exact same ▸ typeIs_reads refers .String

/-- The top nodes of a forest. -/
def size : Forest → ℕ
  | .nil => 0
  | .cons _ _ f => size f + 1

theorem size_kids (v : Tinyjson.cJSON) : size (kids v) = v.child.length := by
  have array : ∀ xs, size (items xs) = xs.length := by
    intro xs
    induction xs with
    | nil => rfl
    | cons x xs ih => simp [items, size, ih]
  have object : ∀ ms, size (members ms) = ms.length := by
    intro ms
    induction ms with
    | nil => rfl
    | cons m ms ih => simp [members, size, ih]
  cases v <;> simp [kids, Tinyjson.cJSON.child, array, object, size]

theorem countLoop_reads {f : Forest} (shown : Shown h first f none) : Reads h (fun n => countLoop n first) (size f) := by
  induction f generalizing first with
  | nil =>
    obtain rfl : first = none := shown
    have none (n : ℕ) : countLoop n none = Pure.pure 0 := by cases n <;> rfl
    simp only [none]
    exact Reads.pure
  | cons d below f _ ih =>
    obtain ⟨a, item, rfl, looks, -, rest⟩ := shown
    exact Reads.later (Reads.bind (reads_node looks.node) (Reads.bind (ih rest) Reads.pure))

theorem getArraySize_reads (refers : Refers h p v) :
    Reads h (fun n => Nodes.cJSON_GetArraySize n p) (Tinyjson.cJSON_GetArraySize v) := by
  cases p with
  | none =>
    cases v with
    | none => exact Reads.pure
    | some v => exact refers.elim
  | some a =>
    cases v with
    | none => exact refers.elim
    | some v =>
      obtain ⟨k, item, looks, shown⟩ := refers
      rw [Tinyjson.cJSON_GetArraySize, ← size_kids]
      exact Reads.bind (reads_node looks.node) (countLoop_reads shown)

/-- A tree that is owned is referred to. -/
theorem json_refers {a : Addr} {k : Option CString} {v : Tinyjson.cJSON} {R : Assertion Addr Cell}
    {next prev parent : Option Addr} (holds : h ∈ held a next prev parent (dataOf k v) (kids v) * R) : Refers h (some a) (some v) := by
  simp only [held, iSup_mul] at holds
  obtain ⟨item, holds⟩ := Set.mem_iUnion.mp holds
  simp only [mul_assoc, mem_fact_mul] at holds
  obtain ⟨looks, fits, below⟩ := own_shown holds.2
  rw [owned_eq fits (dataOf_ref _ _), children, iSup_mul] at below
  obtain ⟨l, below⟩ := Set.mem_iUnion.mp below
  exact ⟨k, item, looks, segment_shown below (displays_plain h (plain_kids v))⟩

end

end Sa.NodeReading
