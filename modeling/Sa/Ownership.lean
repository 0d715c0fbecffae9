import Sa.Nodes

/-!
# What nodes own

The memory of a node: itself, its strings and its children, linked both ways. A reference
shares the children of another node and owns none.
-/

namespace Sa.Ownership
open Sa.CStrings Sa.Doubles Sa.NumberTexts Sa.Separation Sa.Programs Sa.Nodes

/-- What a node holds besides its links; `ref` is the pointer to children that a reference
    shares. -/
structure Data where
  type : JsonType
  valuestring : Option CString
  valueint : ℤ
  valuedouble : Double
  string : Option CString
  ref : Option (Option Addr)

/-- Siblings in order, each with what is below it. -/
inductive Forest where
  | nil
  | cons (data : Data) (below siblings : Forest)

def Forest.append : Forest → Forest → Forest
  | .nil, g => g
  | .cons data below siblings, g => .cons data below (siblings.append g)

instance : Append Forest := ⟨Forest.append⟩

/-- One node. -/
abbrev Forest.single (data : Data) (below : Forest) : Forest := .cons data below .nil

@[simp] theorem Forest.nil_append (g : Forest) : .nil ++ g = g := rfl
@[simp] theorem Forest.cons_append (data : Data) (below f g : Forest) : .cons data below f ++ g = .cons data below (f ++ g) := rfl

theorem Forest.eq_nil_or_snoc (f : Forest) : f = .nil ∨ ∃ g data below, f = g ++ .single data below := by
  induction f with
  | nil => exact .inl rfl
  | cons data below siblings _ ih =>
    rcases ih with rfl | ⟨g, data', below', rfl⟩
    · exact .inr ⟨.nil, data, below, rfl⟩
    · exact .inr ⟨.cons data below g, data', below', rfl⟩

/-- A string that is owned, where there is one. -/
def text (p : Option Addr) (s : Option CString) : Assertion Addr Cell :=
  match p, s with
  | none, none => 1
  | some a, some s => pts a (.chars s)
  | _, _ => ⊥

structure Fits (item : cJSON) (d : Data) : Prop where
  type : item.type = d.type
  valueint : item.valueint = d.valueint
  valuedouble : item.valuedouble = d.valuedouble
  is_ref : item.is_ref = d.ref.isSome
  child : ∀ p ∈ d.ref, item.child = p

/-- The children that go with a node. -/
def owned (item : cJSON) : Option Addr := if item.is_ref then none else item.child

/-- The nodes of `f` from `first` on: `prev` is before them and `after` behind, and `last`
    points to the last. -/
def segment (parent prev first : Option Addr) (f : Forest) (last after : Option Addr) : Assertion Addr Cell :=
  match f with
  | .nil => fact (first = after ∧ last = prev)
  | .cons d below siblings =>
    ⨆ (a : Addr) (item : cJSON), fact (first = some a ∧ item.prev = prev ∧ item.parent = parent) *
      ((fact (Fits item d) * (pts a (.node item) * (text item.valuestring d.valuestring * (text item.string d.string *
        ⨆ l, segment (some a) none (owned item) below l none)))) *
        segment parent (some a) item.next siblings last after)

/-- The children of the node at `a`. -/
def children (a : Addr) (first : Option Addr) (f : Forest) : Assertion Addr Cell :=
  ⨆ l, segment (some a) none first f l none

/-- A node and all that goes with it. -/
def own (a : Addr) (item : cJSON) (d : Data) (below : Forest) : Assertion Addr Cell :=
  fact (Fits item d) * (pts a (.node item) * (text item.valuestring d.valuestring * (text item.string d.string *
    children a (owned item) below)))

/-- A node with these links. -/
def held (a : Addr) (next prev parent : Option Addr) (d : Data) (below : Forest) : Assertion Addr Cell :=
  ⨆ item : cJSON, fact (item.next = next ∧ item.prev = prev ∧ item.parent = parent) * own a item d below

/-- A node that is in no container. -/
abbrev root (a : Addr) (d : Data) (below : Forest) : Assertion Addr Cell := held a none none none d below

variable {parent prev first last after next : Option Addr} {a b : Addr} {d e : Data} {f g below : Forest} {item : cJSON}
  {α : Type} {R : Assertion Addr Cell} {S : α → Assertion Addr Cell}

theorem segment_nil : segment parent prev first .nil last after = fact (first = after ∧ last = prev) := by
  rw [segment]

theorem segment_cons : segment parent prev first (.cons d below f) last after =
    ⨆ (a : Addr) (next : Option Addr), fact (first = some a) *
      (held a next prev parent d below * segment parent (some a) next f last after) := by
  rw [segment]
  apply le_antisymm
  · refine iSup₂_le fun a item => ?_
    refine fact_mul_le fun ⟨here, before, above⟩ => ?_
    refine le_iSup₂_of_le a item.next (le_fact_mul here ?_)
    refine mul_le_mul_left ?_ _
    exact le_iSup_of_le item (le_fact_mul ⟨rfl, before, above⟩ le_rfl)
  · refine iSup₂_le fun a next => fact_mul_le fun here => ?_
    rw [held, iSup_mul]
    refine iSup_le fun item => ?_
    rw [mul_assoc]
    refine fact_mul_le fun ⟨behind, before, above⟩ => ?_
    exact le_iSup₂_of_le a item (le_fact_mul ⟨here, before, above⟩ (by rw [behind]; exact le_rfl))

theorem segment_append : segment parent prev first (f ++ g) last after =
    ⨆ (p : Option Addr) (q : Option Addr), segment parent prev first f p q * segment parent p q g last after := by
  induction f generalizing prev first with
  | nil =>
    rw [Forest.nil_append]
    apply le_antisymm
    · refine le_iSup₂_of_le prev first ?_
      rw [segment_nil]
      exact le_fact_mul ⟨rfl, rfl⟩ le_rfl
    · refine iSup₂_le fun p q => ?_
      rw [segment_nil]
      refine fact_mul_le ?_
      rintro ⟨rfl, rfl⟩
      exact le_rfl
  | cons d below f _ ih =>
    rw [Forest.cons_append]
    simp only [segment_cons, ih, mul_iSup, iSup_mul]
    apply le_antisymm
    · refine iSup₂_le fun a next => iSup₂_le fun p q => ?_
      refine le_iSup₂_of_le p q (le_iSup₂_of_le a next (le_of_eq ?_))
      ac_rfl
    · refine iSup₂_le fun p q => iSup₂_le fun a next => ?_
      refine le_iSup₂_of_le a next (le_iSup₂_of_le p q (le_of_eq ?_))
      ac_rfl

/-- A pointer to no node leads to no nodes. -/
theorem segment_none : segment parent prev none f last none = fact (f = .nil ∧ last = prev) := by
  cases f with
  | nil => simp [segment_nil]
  | cons d below f =>
    rw [segment_cons]
    apply le_antisymm
    · exact iSup₂_le fun a next => fact_mul_le fun here => by cases here
    · rw [← mul_one (fact _)]
      exact fact_mul_le fun same => by cases same.1

/-- A pointer to a node leads to one. -/
theorem segment_some_nil : segment parent prev (some a) .nil last none = ⊥ := by
  rw [segment_nil, eq_bot_iff, ← mul_one (fact _)]
  exact fact_mul_le fun same => by cases same.1

theorem segment_single : segment parent prev first (.single d below) last after =
    ⨆ a : Addr, fact (first = some a ∧ last = some a) * held a after prev parent d below := by
  rw [segment_cons]
  simp only [segment_nil]
  apply le_antisymm
  · refine iSup₂_le fun a next => fact_mul_le fun here => ?_
    rw [mul_comm]
    refine fact_mul_le ?_
    rintro ⟨rfl, same⟩
    exact le_iSup_of_le a (le_fact_mul ⟨here, same⟩ le_rfl)
  · refine iSup_le fun a => fact_mul_le fun ⟨here, same⟩ => le_iSup₂_of_le a after (le_fact_mul here ?_)
    rw [mul_comm]
    exact le_fact_mul ⟨rfl, same⟩ le_rfl

theorem held_segment : held a after prev parent d below ≤ segment parent prev (some a) (.single d below) (some a) after := by
  rw [segment_single]
  exact le_iSup_of_le a (le_fact_mul ⟨rfl, rfl⟩ le_rfl)

/-- A node goes behind others. -/
theorem segment_snoc : segment parent prev first f last (some a) * held a after last parent d below ≤
    segment parent prev first (f ++ .single d below) (some a) after := by
  rw [segment_append]
  exact le_iSup₂_of_le last (some a) (mul_le_mul_right held_segment _)

/-- A node goes between others. -/
theorem segment_between {p : Option Addr} : segment parent prev first f p (some a) *
    (held a next p parent d below * segment parent (some a) next g last after) ≤ segment parent prev first (f ++ .cons d below g) last after := by
  rw [segment_append]
  refine le_iSup₂_of_le p (some a) (mul_le_mul_right ?_ _)
  rw [segment_cons]
  exact le_iSup₂_of_le a next (le_fact_mul rfl le_rfl)

theorem children_none : children a none f = fact (f = .nil) := by
  simp only [children, segment_none]
  apply le_antisymm
  · refine iSup_le fun l => ?_
    rw [← mul_one (fact (f = .nil ∧ l = none)), ← mul_one (fact (f = .nil))]
    exact fact_mul_le fun ⟨empty, _⟩ => le_fact_mul empty le_rfl
  · refine le_iSup_of_le none ?_
    rw [← mul_one (fact (f = .nil ∧ none = none)), ← mul_one (fact (f = .nil))]
    exact fact_mul_le fun empty => le_fact_mul ⟨empty, rfl⟩ le_rfl

theorem Triple.held {c : ℕ → C α} (each : ∀ item : cJSON, item.next = next → item.prev = prev → item.parent = parent →
    Triple (own a item d below * R) c S) : Triple (held a next prev parent d below * R) c S := by
  rw [Ownership.held, iSup_mul]
  refine Triple.iSup fun item => ?_
  rw [mul_assoc]
  exact Triple.fact fun ⟨behind, before, above⟩ => each item behind before above

theorem Triple.own {c : ℕ → C α} (fits : Fits item d → Triple (own a item d below * R) c S) :
    Triple (own a item d below * R) c S := by
  rw [Ownership.own, mul_assoc]
  refine Triple.fact fun given => ?_
  have whole := fits given
  rwa [Ownership.own, fact_of given, one_mul] at whole

theorem Triple.node {k : ℕ → cJSON → C α} (rest : Triple (pts a (.node item) * R) (fun n => k n item) S) :
    Triple (pts a (.node item) * R) (fun n => Nodes.node a >>= k n) S := by
  simp only [Nodes.node, bind_assoc]
  refine Triple.load ?_
  simpa only [pure_bind] using rest

theorem Triple.chars {s : CString} {k : ℕ → CString → C α} (rest : Triple (pts a (.chars s) * R) (fun n => k n s) S) :
    Triple (pts a (.chars s) * R) (fun n => Nodes.chars a >>= k n) S := by
  simp only [Nodes.chars, bind_assoc]
  refine Triple.load ?_
  simpa only [pure_bind] using rest

theorem Triple.modify {write : cJSON → cJSON} {k : ℕ → Unit → C α}
    (rest : Triple (pts a (.node (write item)) * R) (fun n => k n ()) S) :
    Triple (pts a (.node item) * R) (fun n => Nodes.modify a write >>= k n) S := by
  simp only [Nodes.modify, bind_assoc]
  exact Triple.node (Triple.store rest)

theorem Triple.modify_last {write : cJSON → cJSON} : Triple (pts a (.node item) * R) (fun _ => Nodes.modify a write)
    fun _ => pts a (.node (write item)) * R := by
  have step : Triple (pts a (.node item) * R) (fun _ => Nodes.modify a write >>= fun x => Pure.pure x)
      fun _ => pts a (.node (write item)) * R := Triple.modify (Triple.pure le_rfl)
  simpa only [bind_pure] using step

/-- A node that is owned is read. -/
theorem Triple.node_own {k : ℕ → cJSON → C α} (rest : Triple (Ownership.own a item d below * R) (fun n => k n item) S) :
    Triple (Ownership.own a item d below * R) (fun n => Nodes.node a >>= k n) S := by
  refine Triple.own fun fits => ?_
  have swap : Ownership.own a item d below * R = pts a (.node item) * (text item.valuestring d.valuestring *
      (text item.string d.string * children a (owned item) below) * R) := by
    rw [Ownership.own, fact_of fits, one_mul]
    ac_rfl
  rw [swap] at rest ⊢
  exact Triple.node rest

/-- A write to the links of a node. -/
theorem Triple.relink {write : cJSON → cJSON} {k : ℕ → Unit → C α} (fits : Fits item d → Fits (write item) d)
    (strings : (write item).valuestring = item.valuestring ∧ (write item).string = item.string)
    (same : owned (write item) = owned item) (rest : Triple (Ownership.own a (write item) d below * R) (fun n => k n ()) S) :
    Triple (Ownership.own a item d below * R) (fun n => Nodes.modify a write >>= k n) S := by
  refine Triple.own fun given => ?_
  have swap (item : cJSON) (given : Fits item d) : Ownership.own a item d below * R = pts a (.node item) *
      (text item.valuestring d.valuestring * (text item.string d.string * children a (owned item) below) * R) := by
    rw [Ownership.own, fact_of given, one_mul]
    ac_rfl
  rw [swap _ (fits given), strings.1, strings.2, same] at rest
  rw [swap _ given]
  exact Triple.modify rest

theorem Triple.relink_last {write : cJSON → cJSON} (fits : Fits item d → Fits (write item) d)
    (strings : (write item).valuestring = item.valuestring ∧ (write item).string = item.string)
    (same : owned (write item) = owned item) : Triple (Ownership.own a item d below * R) (fun _ => Nodes.modify a write)
      fun _ => Ownership.own a (write item) d below * R := by
  have step : Triple (Ownership.own a item d below * R) (fun _ => Nodes.modify a write >>= fun x => Pure.pure x)
      fun _ => Ownership.own a (write item) d below * R := Triple.relink fits strings same (Triple.pure le_rfl)
  simpa only [bind_pure] using step

end Sa.Ownership
