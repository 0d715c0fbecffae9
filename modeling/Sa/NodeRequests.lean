import Sa.NodeFocus
import Sa.NodePrinter
import Sa.Requests

/-!
# Requests on the nodes

The request shares the nodes of the messages and of the tools. It is printed with them
and deleted without them (`request_spec`).
-/

namespace Sa.NodeRequests
open Sa.CStrings Sa.Doubles Sa.NumberTexts Sa.Separation Sa.Programs Sa.Nodes Sa.Ownership Sa.Containers Sa.JsonNodes
open Sa.NodeReading Sa.NodePrinter Sa.NodeFocus

/-- The request of an iteration, as it is sent. -/
def request (m : Allocator Addr Cell) (n : ℕ) (model system_prompt : CString) (messages tools : Addr) : C Addr := do
  let req ← cJSON_CreateObject m
  cJSON_AddStringToObject m n (some req) (cs "model") model
  cJSON_AddNumberToObject m n (some req) (cs "max_tokens") Requests.max_tokens
  cJSON_AddStringToObject m n (some req) (cs "system") system_prompt
  cJSON_AddItemReferenceToObject m n (some req) (cs "messages") (some messages)
  cJSON_AddItemReferenceToObject m n (some req) (cs "tools") (some tools)
  cJSON_AddBoolToObject m n (some req) (cs "stream") true
  let req_json ← cJSON_PrintUnformatted m n (some req)
  cJSON_Delete n (some req)
  return req_json

/-- A node whose children start at `p`. -/
def heldAt (p : Option Addr) (a : Addr) (next prev parent : Option Addr) (d : Data) (below : Forest) : Assertion Addr Cell :=
  ⨆ item : cJSON, fact (item.next = next ∧ item.prev = prev ∧ item.parent = parent ∧ item.child = p) * own a item d below

/-- An array whose items start at `p`. -/
abbrev placedAt (p : Option Addr) (t : Spot) (a : Addr) (xs : List Tinyjson.cJSON) : Assertion Addr Cell :=
  heldAt p a t.next t.prev t.parent (dataOf t.key (.array xs)) (items xs)

/-- What a reference to an array holds whose items start at `p`. -/
def shared (key : CString) (p : Option Addr) : Data := { dataOf (some key) (.array []) with ref := some p }

/-- The node of a reference to `item`, with its key. -/
def reference (item : cJSON) (copy : Addr) : cJSON :=
  ⟨none, none, item.child, none, item.type, none, item.valueint, item.valuedouble, some copy, true⟩

section
variable {parent prev first last after next p : Option Addr} {a b : Addr} {d e : Data} {f g below : Forest} {t : Spot}
  {xs : List Tinyjson.cJSON} {α : Type} {R : Assertion Addr Cell} {S : α → Assertion Addr Cell} {h : Memory}

theorem held_eq : held a next prev parent d f = ⨆ p, heldAt p a next prev parent d f := by
  apply le_antisymm
  · refine iSup_le fun item => fact_mul_le fun ⟨behind, before, above⟩ => ?_
    exact le_iSup₂_of_le item.child item (le_fact_mul ⟨behind, before, above, rfl⟩ le_rfl)
  · refine iSup₂_le fun p item => fact_mul_le fun ⟨behind, before, above, _⟩ => ?_
    exact own_le_held behind before above

theorem Triple.heldAt {c : ℕ → C α} (each : ∀ item : cJSON, item.next = next → item.prev = prev → item.parent = parent →
    item.child = p → Triple (own a item d f * R) c S) : Triple (heldAt p a next prev parent d f * R) c S := by
  rw [NodeRequests.heldAt, iSup_mul]
  refine Triple.iSup fun item => ?_
  rw [mul_assoc]
  exact Triple.fact fun ⟨behind, before, above, here⟩ => each item behind before above here

theorem own_le_heldAt {item : cJSON} (behind : item.next = next) (before : item.prev = prev) (above : item.parent = parent)
    (here : item.child = p) : own a item d f ≤ heldAt p a next prev parent d f :=
  le_iSup_of_le item (le_fact_mul ⟨behind, before, above, here⟩ le_rfl)

theorem heldAt_le : heldAt p a next prev parent d f ≤ held a next prev parent d f := by
  rw [held_eq]
  exact le_iSup (fun p => heldAt p a next prev parent d f) p

theorem placedAt_shown (holds : h ∈ placedAt p t a xs * R) : Shown h p (items xs) none := by
  simp only [heldAt, iSup_mul, mul_assoc] at holds
  obtain ⟨item, holds'⟩ := Set.mem_iUnion.mp holds
  obtain ⟨⟨-, -, -, here⟩, holds'⟩ := mem_fact_mul.mp holds'
  obtain ⟨-, fits, below⟩ := own_shown holds'
  rw [owned_eq fits (dataOf_ref _ _), here] at below
  exact children_shown (plain_kids (.array xs)) below

/-- The new member shares the items of an array, which keeps them. -/
theorem addReference_spec (m : Allocator Addr Cell) (unshared : d.ref = none) (key : CString) :
    Triple (held a next prev parent d f * placedAt p t b xs) (fun n => cJSON_AddItemReferenceToObject m n (some a) key (some b))
      fun _ => held a next prev parent d (f ++ .single (shared key p) .nil) * placedAt p t b xs := by
  simp only [cJSON_AddItemReferenceToObject]
  rw [mul_comm]
  refine Triple.heldAt fun item behind before above here => Triple.node_own (Triple.own fun fits => ?_)
  have string : own b item (dataOf t.key (.array xs)) (items xs) ≤
      fact (item.valuestring = none) * own b item (dataOf t.key (.array xs)) (items xs) := by
    rw [own_eq fits]
    cases item.valuestring with
    | none => exact le_fact_mul rfl le_rfl
    | some s =>
      show pts b _ * (⊥ * _) ≤ _
      rw [Quantale.bot_mul, Quantale.mul_bot]
      exact bot_le
  refine Triple.pre ?_ (mul_le_mul_left string _)
  rw [mul_assoc]
  refine Triple.fact fun none => Triple.alloc m fun ref => Triple.alloc m fun copy => ?_
  rw [mul_left_comm]
  refine Triple.modify ?_
  rw [none]
  have fits' : Fits (reference item copy) (shared key p) :=
    ⟨fits.type, fits.valueint, fits.valuedouble, rfl, fun q same => here.trans (Option.mem_some_iff.mp same)⟩
  have made : pts ref (.node (reference item copy)) * (text Option.none Option.none * pts copy (.chars key)) ≤
      root ref (shared key p) .nil := (leaf_le_own fits' rfl).trans (own_le_held rfl rfl rfl)
  have kept : own b item (dataOf t.key (.array xs)) (items xs) ≤ placedAt p t b xs := own_le_heldAt behind before above here
  refine Triple.pre (P := held a next prev parent d f * root ref (shared key p) .nil * placedAt p t b xs) ?_ ?_
  · exact ((append_child unshared).frame _).post fun _ => mul_le_mul_left (iSup_le fun _ => fill_held) _
  · calc _ = pts ref (.node (reference item copy)) * (text Option.none Option.none * pts copy (Cell.chars key)) *
            (own b item (dataOf t.key (.array xs)) (items xs) * held a next prev parent d f) := by
          show _ = pts ref (.node (reference item copy)) * (1 * pts copy (Cell.chars key)) * _
          rw [one_mul]
          ac_rfl
      _ ≤ root ref (shared key p) .nil * (placedAt p t b xs * held a next prev parent d f) :=
          mul_le_mul' made (mul_le_mul_left kept _)
      _ = _ := by ac_rfl

/-- The members of a request, with what its references share. -/
def fields (model system_prompt : CString) (p q : Option Addr) : Forest :=
  members [(cs "model", .string model), (cs "max_tokens", .number Requests.max_tokens), (cs "system", .string system_prompt)] ++
    .single (shared (cs "messages") p) .nil ++ .single (shared (cs "tools") q) .nil ++ members [(cs "stream", .true)]

theorem fields_display {q : Option Addr} {ys : List Tinyjson.cJSON} (model system_prompt : CString) (first : Shown h p (items xs) none)
    (second : Shown h q (items ys) none) :
    Displays h (fields model system_prompt p q) (kids (Requests.request model system_prompt xs ys)) :=
  ⟨rfl, trivial, rfl, trivial, rfl, trivial, rfl, first, rfl, second, rfl, trivial, trivial⟩

/-- A member goes to an object that has references. -/
theorem addBool_held (m : Allocator Addr Cell) (unshared : d.ref = none) (key : CString) (val : Bool) :
    Triple (held a next prev parent d f) (fun n => cJSON_AddBoolToObject m n (some a) key val)
      fun _ => held a next prev parent d (f ++ members [(key, if val then .true else .false)]) := by
  rw [← one_mul (held a _ _ _ _ _)]
  refine (createBool_json m val).call fun b => ?_
  rw [mul_comm]
  exact addToObject_rekeyed m key ((append_child unshared).post fun _ => iSup_le fun _ => fill_held)

/-- The node of a request whose references share these items. -/
theorem request_means {ys : List Tinyjson.cJSON} {req : Addr} {q : Option Addr} {v : Tinyjson.cJSON} {t' : Spot}
    (displays : ∀ h, Shown h p (items xs) none → Shown h q (items ys) none → Displays h f (kids v)) :
    ∀ F, ∀ h ∈ held req none none none (dataOf none v) f * (placedAt p t a xs * placedAt q t' b ys) * F, Means h req v := by
  intro F h holds
  have first : Shown h p (items xs) none := by
    refine placedAt_shown (t := t) (a := a) (R := held req none none none (dataOf none v) f * (placedAt q t' b ys * F)) ?_
    convert holds using 1
    ac_rfl
  have second : Shown h q (items ys) none := by
    refine placedAt_shown (t := t') (a := b) (R := held req none none none (dataOf none v) f * (placedAt p t a xs * F)) ?_
    convert holds using 1
    ac_rfl
  rw [mul_assoc] at holds
  simp only [held, iSup_mul] at holds
  obtain ⟨item, holds'⟩ := Set.mem_iUnion.mp holds
  rw [mul_assoc] at holds'
  obtain ⟨looks, fits, below⟩ := own_shown (mem_fact_mul.mp holds').2
  rw [owned_eq fits (dataOf_ref _ _), children, iSup_mul] at below
  obtain ⟨l, below'⟩ := Set.mem_iUnion.mp below
  exact ⟨none, item, looks, segment_shown below' (displays h first second)⟩

/-- What is printed is the request with the messages and the tools, which stay as they are. -/
theorem request_spec (m : Allocator Addr Cell) {t' : Spot} {ys : List Tinyjson.cJSON} (model system_prompt : CString) :
    Triple (placed t a (.array xs) * placed t' b (.array ys)) (fun n => request m n model system_prompt a b)
      fun s => pts s (.chars (printed (Requests.request model system_prompt xs ys))) *
        (placed t a (.array xs) * placed t' b (.array ys)) := by
  refine Triple.pre (P := ⨆ (p : Option Addr) (q : Option Addr), placedAt p t a xs * placedAt q t' b ys) ?_ (le_of_eq ?_)
  · refine Triple.iSup fun p => Triple.iSup fun q => ?_
    rw [← one_mul (placedAt p t a xs * _)]
    refine (createObject_json m).call fun req => (addString_json m _ _).call fun _ => (addNumber_json m _ _).call fun _ =>
      (addString_json m _ _).call fun _ => ?_
    rw [← mul_assoc]
    refine (addReference_spec m (dataOf_ref _ _) _).call fun _ => ?_
    rw [mul_right_comm]
    refine (addReference_spec m (dataOf_ref _ _) _).call fun _ => ?_
    rw [mul_assoc, mul_comm (placedAt q t' b ys)]
    refine (addBool_held m (dataOf_ref _ _) _ _).call fun _ => ?_
    refine (printUnformatted_spec m (v := Requests.request model system_prompt xs ys)
      (request_means fun h first second => fields_display model system_prompt first second)).bind fun req_json => ?_
    rw [mul_left_comm]
    refine delete_held.call fun _ => ?_
    rw [one_mul]
    exact Triple.pure (mul_le_mul_right (mul_le_mul' heldAt_le heldAt_le) _)
  · simp only [placed, held_eq, iSup_mul, mul_iSup]
    rw [iSup_comm]
    rfl

end

end Sa.NodeRequests
