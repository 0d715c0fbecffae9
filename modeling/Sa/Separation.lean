import Mathlib.Algebra.Order.Quantale
import Mathlib.Data.Finmap
import Mathlib.Data.Set.Lattice

/-!
# Assertions about heaps

What may hold of a part of a heap, as the set of these parts. Two assertions multiply to
the one that holds where each has a part of its own; with inclusion as the order the
assertions are a commutative quantale, and its algebra carries the rules of separation.
-/

namespace Sa.Separation

abbrev Heap (A V : Type) := Finmap fun _ : A => V

abbrev Assertion (A V : Type) := Set (Heap A V)

section
variable {A V : Type}

/-- Nothing is allocated. -/
instance : One (Assertion A V) where
  one := {∅}

/-- `a` holds `v`, and nothing else is allocated. -/
def pts (a : A) (v : V) : Assertion A V := {Finmap.singleton a v}

/-- A fact, about no memory. -/
def fact (p : Prop) : Assertion A V := ⨆ _ : p, 1

theorem fact_of {p : Prop} (holds : p) : (fact p : Assertion A V) = 1 := by
  simp [fact, holds]

variable [DecidableEq A]

/-- Both hold, of parts without a common address. -/
instance : Mul (Assertion A V) where
  mul P Q := {h | ∃ h₁ h₂, h₁.Disjoint h₂ ∧ h = h₁ ∪ h₂ ∧ h₁ ∈ P ∧ h₂ ∈ Q}

theorem mem_mul {P Q : Assertion A V} {h : Heap A V} :
    h ∈ P * Q ↔ ∃ h₁ h₂, h₁.Disjoint h₂ ∧ h = h₁ ∪ h₂ ∧ h₁ ∈ P ∧ h₂ ∈ Q := Iff.rfl

instance : CommMonoid (Assertion A V) where
  mul_comm P Q := by
    have swap : ∀ P Q : Assertion A V, P * Q ≤ Q * P := by
      rintro P Q h ⟨h₁, h₂, apart, rfl, p, q⟩
      exact ⟨h₂, h₁, apart.symm, Finmap.union_comm_of_disjoint apart, q, p⟩
    exact le_antisymm (swap P Q) (swap Q P)
  mul_assoc P Q R := by
    apply le_antisymm
    · rintro h ⟨_, h₃, apart, rfl, ⟨h₁, h₂, apart', rfl, p, q⟩, r⟩
      rw [Finmap.disjoint_union_left] at apart
      exact ⟨h₁, h₂ ∪ h₃, (Finmap.disjoint_union_right _ _ _).mpr ⟨apart', apart.1⟩, Finmap.union_assoc, p,
        h₂, h₃, apart.2, rfl, q, r⟩
    · rintro h ⟨h₁, _, apart, rfl, p, h₂, h₃, apart', rfl, q, r⟩
      rw [Finmap.disjoint_union_right] at apart
      exact ⟨h₁ ∪ h₂, h₃, (Finmap.disjoint_union_left _ _ _).mpr ⟨apart.2, apart'⟩, Finmap.union_assoc.symm,
        ⟨h₁, h₂, apart.1, rfl, p, q⟩, r⟩
  one_mul P := by
    apply le_antisymm
    · rintro h ⟨_, h₂, -, rfl, rfl, p⟩
      rwa [Finmap.empty_union]
    · intro h p
      exact ⟨∅, h, Finmap.disjoint_empty h, Finmap.empty_union.symm, rfl, p⟩
  mul_one P := by
    apply le_antisymm
    · rintro h ⟨h₁, _, -, rfl, p, rfl⟩
      rwa [Finmap.union_empty]
    · intro h p
      exact ⟨h, ∅, (Finmap.disjoint_empty h).symm, Finmap.union_empty.symm, p, rfl⟩

/-- Separation distributes over the choices on either side. -/
instance : IsQuantale (Assertion A V) where
  mul_sSup_distrib P S := by
    ext h
    simp only [mem_mul, Set.sSup_eq_sUnion, Set.mem_sUnion, Set.iSup_eq_iUnion, Set.mem_iUnion, exists_prop]
    constructor
    · rintro ⟨h₁, h₂, apart, same, p, Q, member, q⟩
      exact ⟨Q, member, h₁, h₂, apart, same, p, q⟩
    · rintro ⟨Q, member, h₁, h₂, apart, same, p, q⟩
      exact ⟨h₁, h₂, apart, same, p, Q, member, q⟩
  sSup_mul_distrib S P := by
    ext h
    simp only [mem_mul, Set.sSup_eq_sUnion, Set.mem_sUnion, Set.iSup_eq_iUnion, Set.mem_iUnion, exists_prop]
    constructor
    · rintro ⟨h₁, h₂, apart, same, ⟨Q, member, q⟩, p⟩
      exact ⟨Q, member, h₁, h₂, apart, same, q, p⟩
    · rintro ⟨Q, member, h₁, h₂, apart, same, q, p⟩
      exact ⟨h₁, h₂, apart, same, ⟨Q, member, q⟩, p⟩

variable {P Q R : Assertion A V} {h : Heap A V} {p : Prop} {a : A} {v : V}

theorem iSup_mul {ι : Sort*} (S : ι → Assertion A V) : (⨆ i, S i) * P = ⨆ i, S i * P := by
  rw [iSup, sSup_mul_distrib, iSup_range]

theorem mul_iSup {ι : Sort*} (S : ι → Assertion A V) : P * (⨆ i, S i) = ⨆ i, P * S i := by
  rw [iSup, mul_sSup_distrib, iSup_range]

theorem mem_fact_mul : h ∈ fact p * P ↔ p ∧ h ∈ P := by
  rw [fact, iSup_mul, Set.iSup_eq_iUnion, Set.mem_iUnion, one_mul, exists_prop]

theorem fact_mul_le (given : p → P ≤ Q) : fact p * P ≤ Q := fun _ before =>
  let ⟨holds, rest⟩ := mem_fact_mul.mp before
  given holds rest

theorem le_fact_mul (holds : p) (rest : P ≤ Q) : P ≤ fact p * Q := fun _ before => mem_fact_mul.mpr ⟨holds, rest before⟩

/-- What is left of `outer` without `inner`, whatever goes in its place. -/
def hole {X : Type} (inner outer : X → Assertion A V) : Assertion A V :=
  ⨅ x, Quantale.rightMulResiduation (inner x) (outer x)

variable {X : Type} {inner outer : X → Assertion A V}

theorem le_hole : R ≤ hole inner outer ↔ ∀ x, inner x * R ≤ outer x := by
  simp only [hole, le_iInf_iff, Quantale.rightMulResiduation_le_iff_mul_le]

theorem fill (x : X) : inner x * hole inner outer ≤ outer x := le_hole.mp le_rfl x

/-- A hole in what fills a hole. -/
theorem hole_hole {Y : Type} {mid outer : Y → Assertion A V} (g : X → Y) :
    hole inner (fun x => mid (g x)) * hole mid outer ≤ hole inner fun x => outer (g x) := by
  refine le_hole.mpr fun x => ?_
  have first : inner x * hole inner (fun x => mid (g x)) ≤ mid (g x) := fill x
  calc inner x * (hole inner (fun x => mid (g x)) * hole mid outer) = inner x * hole inner (fun x => mid (g x)) * hole mid outer :=
        (mul_assoc _ _ _).symm
    _ ≤ mid (g x) * hole mid outer := mul_le_mul_left first _
    _ ≤ outer (g x) := fill (g x)

theorem lookup_pts (holds : h ∈ pts a v * R) : h.lookup a = some v := by
  obtain ⟨_, h₂, -, rfl, rfl, -⟩ := holds
  rw [Finmap.lookup_union_left (by simp), Finmap.lookup_singleton_eq]

theorem insert_pts (w : V) (holds : h ∈ pts a v * R) : h.insert a w ∈ pts a w * R := by
  obtain ⟨_, h₂, apart, rfl, rfl, rest⟩ := holds
  refine ⟨_, h₂, ?_, ?_, rfl, rest⟩
  · intro b member
    exact apart b (by simpa using member)
  · rw [Finmap.insert_union, Finmap.insert_singleton_eq]

theorem erase_pts (holds : h ∈ pts a v * R) : h.erase a ∈ R := by
  obtain ⟨_, h₂, apart, rfl, rfl, rest⟩ := holds
  have alone : a ∉ h₂ := apart a (by simp)
  have same : (Finmap.singleton a v ∪ h₂).erase a = h₂ := by
    refine Finmap.ext_lookup fun b => ?_
    by_cases self : b = a
    · rw [self, Finmap.lookup_erase, Finmap.lookup_eq_none.mpr alone]
    · rw [Finmap.lookup_erase_ne self, Finmap.lookup_union_right (by simpa using self)]
  rwa [same]

theorem insert_fresh (v : V) (free : a ∉ h) (holds : h ∈ R) : h.insert a v ∈ pts a v * R := by
  refine ⟨_, h, ?_, ?_, rfl, holds⟩
  · intro b member
    rw [Finmap.mem_singleton] at member
    rwa [member]
  · refine Finmap.ext_lookup fun b => ?_
    by_cases self : b = a
    · rw [self, Finmap.lookup_insert, Finmap.lookup_union_left (by simp), Finmap.lookup_singleton_eq]
    · rw [Finmap.lookup_insert_of_ne _ self, Finmap.lookup_union_right (by simpa using self)]

end

end Sa.Separation
