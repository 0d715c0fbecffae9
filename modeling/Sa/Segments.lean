import Mathlib.Logic.Function.Basic
import Mathlib.Data.List.Basic

/-!
# Doubly linked segments

A segment of a doubly linked list in a store of nodes, with the two pointers that lead
into it and the two that lead out. Segments can be cut and joined anywhere, and a node
at an end can be relinked without a look at the others.
-/

namespace Sa.Segments

section
variable {A N : Type} (next prev : N → Option A)

/-- `as` lie between the pointers `first` and `after`, each node linked to the one next to
    it; the first has `before` as its predecessor and `last` is the pointer to the last. -/
inductive Segment (store : A → Option N) : Option A → Option A → List A → Option A → Option A → Prop
  | nil (before first : Option A) : Segment store before first [] before first
  | cons {a : A} {node : N} {as : List A} {last after : Option A} (here : store a = some node)
      (rest : Segment store (some a) (next node) as last after) : Segment store (prev node) (some a) (a :: as) last after

/-- Each node has the one before it as its predecessor, the first has `before`. -/
def Backward (store : A → Option N) : Option A → List A → Prop
  | _, [] => True
  | before, a :: as => (∃ node, store a = some node ∧ prev node = before) ∧ Backward store (some a) as

/-- The nodes that the links lead to from `p`, where they end within `n` steps. -/
def walk (store : A → Option N) : ℕ → Option A → Option (List A)
  | _, none => some []
  | 0, some _ => none
  | n + 1, some a => do
    let node ← store a
    let as ← walk store n (next node)
    some (a :: as)

variable {next prev} {store store' : A → Option N} {before first last after : Option A} {as : List A}

@[simp] theorem Segment.nil_iff : Segment next prev store before first [] last after ↔ last = before ∧ after = first := by
  constructor
  · intro segment
    cases segment
    exact ⟨rfl, rfl⟩
  · rintro ⟨rfl, rfl⟩
    exact .nil _ _

theorem Segment.cons_iff {a : A} : Segment next prev store before first (a :: as) last after ↔
    ∃ node, store a = some node ∧ first = some a ∧ before = prev node ∧
      Segment next prev store (some a) (next node) as last after := by
  constructor
  · intro segment
    cases segment with
    | cons here rest => exact ⟨_, here, rfl, rfl, rest⟩
  · rintro ⟨node, here, rfl, rfl, rest⟩
    exact .cons here rest

theorem Segment.append_iff {bs : List A} : Segment next prev store before first (as ++ bs) last after ↔
    ∃ last' first', Segment next prev store before first as last' first' ∧ Segment next prev store last' first' bs last after := by
  constructor
  · intro segment
    induction as generalizing before first with
    | nil => exact ⟨before, first, .nil _ _, segment⟩
    | cons a as ih =>
      cases segment with
      | cons here rest =>
        obtain ⟨last', first', front, back⟩ := ih rest
        exact ⟨last', first', .cons here front, back⟩
  · rintro ⟨last', first', front, back⟩
    induction front with
    | nil => exact back
    | cons here rest ih => exact .cons here (ih back)

theorem Segment.last_eq {a : A} (segment : Segment next prev store before first (as ++ [a]) last after) : last = some a := by
  obtain ⟨last', first', -, back⟩ := append_iff.mp segment
  obtain ⟨node, -, -, -, rest⟩ := cons_iff.mp back
  exact (nil_iff.mp rest).1

/-- A segment depends on the links of its own nodes alone. -/
theorem Segment.congr (segment : Segment next prev store before first as last after)
    (same : ∀ a ∈ as, ∀ node, store a = some node →
      ∃ node', store' a = some node' ∧ next node' = next node ∧ prev node' = prev node) :
    Segment next prev store' before first as last after := by
  induction segment with
  | nil => exact .nil _ _
  | @cons a node as last after here rest ih =>
    obtain ⟨node', here', next', prev'⟩ := same a (by simp) node here
    rw [← prev']
    exact .cons here' (next' ▸ ih fun b member => same b (by simp [member]))

theorem Segment.frame (segment : Segment next prev store before first as last after) (same : ∀ a ∈ as, store' a = store a) :
    Segment next prev store' before first as last after :=
  segment.congr fun a member node here => ⟨node, by rw [same a member, here], rfl, rfl⟩

theorem Segment.backward (segment : Segment next prev store before first as last after) : Backward prev store before as := by
  induction segment with
  | nil => trivial
  | cons here rest ih => exact ⟨⟨_, here, rfl⟩, ih⟩

theorem Segment.walk_eq {n : ℕ} (segment : Segment next prev store before first as last none) (enough : as.length ≤ n) :
    walk next store n first = some as := by
  induction as generalizing before first n with
  | nil =>
    cases segment
    cases n <;> rfl
  | cons a as ih =>
    cases segment with
    | cons here rest =>
      cases n with
      | zero => simp at enough
      | succ n => simp [walk, here, ih rest (by simpa using enough)]

/-- A new link out of the last node. -/
theorem Segment.set_next {a : A} {node node' : N} (segment : Segment next prev store before first (as ++ [a]) last after)
    (was : store a = some node) (here : store' a = some node') (same : prev node' = prev node)
    (others : ∀ b ∈ as, store' b = store b) :
    Segment next prev store' before first (as ++ [a]) (some a) (next node') := by
  obtain ⟨last', first', front, back⟩ := append_iff.mp segment
  obtain ⟨node, at', rfl, rfl, -⟩ := cons_iff.mp back
  obtain rfl := Option.some.inj (was.symm.trans at')
  exact append_iff.mpr ⟨_, _, front.frame others, cons_iff.mpr ⟨node', here, rfl, same.symm, .nil _ _⟩⟩

/-- A new link back from the first node. -/
theorem Segment.set_prev {a : A} {node node' : N} (segment : Segment next prev store before first (a :: as) last after)
    (was : store a = some node) (here : store' a = some node') (same : next node' = next node)
    (others : ∀ b ∈ as, store' b = store b) :
    Segment next prev store' (prev node') (some a) (a :: as) last after := by
  obtain ⟨node, at', -, -, rest⟩ := cons_iff.mp segment
  obtain rfl := Option.some.inj (was.symm.trans at')
  exact cons_iff.mpr ⟨node', here, rfl, rfl, same ▸ rest.frame others⟩

end

end Sa.Segments
