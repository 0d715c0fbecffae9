import Sa.NodeReading
import Sa.RoundTrip

/-!
# The printer on the nodes

What `cJSON_PrintUnformatted` prints of the nodes is what it prints of the tree they show,
also where references share nodes with other trees.
-/

namespace Sa.NodePrinter
open Sa.CStrings Sa.Doubles Sa.NumberTexts Sa.Separation Sa.Programs Sa.Nodes Sa.Ownership Sa.JsonNodes Sa.NodeReading

/-- `s ? s : ""`. -/
def stringOr (p : Option Addr) : C CString :=
  match p with
  | none => return cs ""
  | some s => chars s

mutual
def cj_print_value : ℕ → Option Addr → C Bytes
  | _, none => return lit "null"
  | 0, some _ => fault
  | n + 1, some a => do
    let item ← node a
    match item.type with
    | .False => return lit "false"
    | .True => return lit "true"
    | .NULL => return lit "null"
    | .Number => return Printer.cj_print_number item.valuedouble
    | .String =>
      let s ← stringOr item.valuestring
      return Printer.cj_print_string s
    | .Array =>
      let text ← printItems n true item.child
      return 91 :: (text ++ [93])
    | .Object =>
      let text ← printMembers n true item.child
      return 123 :: (text ++ [125])
/-- The loop of `cj_print_array`. -/
def printItems : ℕ → Bool → Option Addr → C Bytes
  | _, _, none => return []
  | 0, _, some _ => fault
  | n + 1, first, some c => do
    let text ← cj_print_value n (some c)
    let item ← node c
    let rest ← printItems n false item.next
    return (if first then [] else [44]) ++ (text ++ rest)
/-- The loop of `cj_print_object`. -/
def printMembers : ℕ → Bool → Option Addr → C Bytes
  | _, _, none => return []
  | 0, _, some _ => fault
  | n + 1, first, some c => do
    let item ← node c
    let string ← stringOr item.string
    let text ← cj_print_value n (some c)
    let rest ← printMembers n false item.next
    return (if first then [] else [44]) ++ (Printer.cj_print_string string ++ 58 :: (text ++ rest))
end

/-- The text is allocated for the caller. -/
def cJSON_PrintUnformatted (m : Allocator Addr Cell) (n : ℕ) (item : Option Addr) : C Addr := do
  let text ← cj_print_value n item
  alloc m (.chars (cstr text))

variable {h : Memory} {first : Option Addr}

theorem stringOr_reads {p : Option Addr} {s : CString} (shown : Text h p (some s)) : Reads h (fun _ => stringOr p) s := by
  cases p with
  | none => exact shown.elim
  | some a => exact reads_chars shown

theorem printItems_none (n : ℕ) (b : Bool) : printItems n b none = Pure.pure [] := by
  cases n <;> rfl

theorem printMembers_none (n : ℕ) (b : Bool) : printMembers n b none = Pure.pure [] := by
  cases n <;> rfl

/-- A comma goes before every item but the first. -/
theorem printItems_reads {xs : List Tinyjson.cJSON} (b : Bool) (shown : Shown h first (items xs) none)
    (each : ∀ x ∈ xs, ∀ a, Means h a x → Reads h (fun n => cj_print_value n (some a)) (Printer.cj_print_value x)) :
    Reads h (fun n => printItems n b first) ((if b ∨ xs = [] then [] else [44]) ++ Printer.printItems xs) := by
  induction xs generalizing first b with
  | nil =>
    obtain rfl : first = none := shown
    simp only [printItems_none, or_true, if_true, Printer.printItems, List.append_nil]
    exact Reads.pure
  | cons x xs ih =>
    obtain ⟨a, item, rfl, looks, below, rest⟩ := shown
    have whole : (if b ∨ x :: xs = [] then [] else [44]) ++ Printer.printItems (x :: xs) = (if b then [] else [44]) ++
        (Printer.cj_print_value x ++ ((if false ∨ xs = [] then [] else [44]) ++ Printer.printItems xs)) := by
      cases xs <;> simp [Printer.printItems]
    rw [whole]
    have later := ih false rest fun y member => each y (by simp [member])
    refine Reads.later (Reads.bind (each x (by simp) a ⟨none, item, looks, below⟩) (Reads.bind (reads_node looks.node)
      (Reads.bind ?_ Reads.pure)))
    simpa using later

theorem printMembers_reads {ms : List (CString × Tinyjson.cJSON)} (b : Bool) (shown : Shown h first (members ms) none)
    (each : ∀ m ∈ ms, ∀ a, Means h a m.2 → Reads h (fun n => cj_print_value n (some a)) (Printer.cj_print_value m.2)) :
    Reads h (fun n => printMembers n b first) ((if b ∨ ms = [] then [] else [44]) ++ Printer.printMembers ms) := by
  induction ms generalizing first b with
  | nil =>
    obtain rfl : first = none := shown
    simp only [printMembers_none, or_true, if_true, Printer.printMembers, List.append_nil]
    exact Reads.pure
  | cons m ms ih =>
    obtain ⟨k, x⟩ := m
    obtain ⟨a, item, rfl, looks, below, rest⟩ := shown
    have whole : (if b ∨ (k, x) :: ms = [] then [] else [44]) ++ Printer.printMembers ((k, x) :: ms) = (if b then [] else [44]) ++
        (Printer.cj_print_string k ++ 58 :: (Printer.cj_print_value x ++
          ((if false ∨ ms = [] then [] else [44]) ++ Printer.printMembers ms))) := by
      cases ms <;> simp [Printer.printMembers]
    rw [whole]
    have later := ih false rest fun n member => each n (by simp [member])
    have string : Text h item.string (some k) := by
      have shown := looks.string
      rwa [dataOf_string] at shown
    refine Reads.later (Reads.bind (reads_node looks.node) (Reads.bind (stringOr_reads string)
      (Reads.bind (each (k, x) (by simp) a ⟨some k, item, looks, below⟩) (Reads.bind ?_ Reads.pure))))
    simpa using later

theorem print_reads (v : Tinyjson.cJSON) : ∀ a, Means h a v → Reads h (fun n => cj_print_value n (some a)) (Printer.cj_print_value v) := by
  induction v with
  | null =>
    rintro a ⟨k, item, looks, -⟩
    refine Reads.later (Reads.bind (reads_node looks.node) ?_)
    simp only [looks.type, dataOf, Printer.cj_print_value]
    exact Reads.pure
  | true =>
    rintro a ⟨k, item, looks, -⟩
    refine Reads.later (Reads.bind (reads_node looks.node) ?_)
    simp only [looks.type, dataOf, Printer.cj_print_value]
    exact Reads.pure
  | false =>
    rintro a ⟨k, item, looks, -⟩
    refine Reads.later (Reads.bind (reads_node looks.node) ?_)
    simp only [looks.type, dataOf, Printer.cj_print_value]
    exact Reads.pure
  | number d =>
    rintro a ⟨k, item, looks, -⟩
    refine Reads.later (Reads.bind (reads_node looks.node) ?_)
    simp only [looks.type, looks.valuedouble, dataOf, Printer.cj_print_value]
    exact Reads.pure
  | string s =>
    rintro a ⟨k, item, looks, -⟩
    refine Reads.later (Reads.bind (reads_node looks.node) ?_)
    simp only [looks.type, dataOf, Printer.cj_print_value]
    exact Reads.bind (stringOr_reads looks.valuestring) Reads.pure
  | array xs ih =>
    rintro a ⟨k, item, looks, shown⟩
    have text := printItems_reads true shown ih
    refine Reads.later (Reads.bind (reads_node looks.node) ?_)
    simp only [looks.type, dataOf, Printer.cj_print_value]
    exact Reads.bind text Reads.pure
  | object ms ih =>
    rintro a ⟨k, item, looks, shown⟩
    have text := printMembers_reads true shown ih
    refine Reads.later (Reads.bind (reads_node looks.node) ?_)
    simp only [looks.type, dataOf, Printer.cj_print_value]
    exact Reads.bind text Reads.pure

/-- The text that is printed of a tree. -/
def printed (v : Tinyjson.cJSON) : CString := ⟨Printer.cJSON_PrintUnformatted v, RoundTrip.print_nulFree v⟩

theorem cstr_print (v : Tinyjson.cJSON) : cstr (Printer.cj_print_value v) = printed v :=
  Subtype.ext (cstr_of_nulFree (RoundTrip.print_nulFree v))

/-- What is printed of the nodes is what is printed of the tree. -/
theorem printUnformatted_spec (m : Allocator Addr Cell) {P : Assertion Addr Cell} {a : Addr} {v : Tinyjson.cJSON}
    (shows : ∀ F, ∀ h ∈ P * F, Means h a v) :
    Triple P (fun n => cJSON_PrintUnformatted m n (some a)) fun s => pts s (.chars (printed v)) * P := by
  have text : Triple P (fun n => cj_print_value n (some a)) fun text => fact (text = Printer.cj_print_value v) * P :=
    Triple.reads fun F h holds => ⟨_, print_reads v a (shows F h holds), rfl⟩
  refine text.bind fun text => Triple.fact ?_
  rintro rfl
  rw [cstr_print]
  exact Triple.alloc_last m

end Sa.NodePrinter
