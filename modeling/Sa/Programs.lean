import Mathlib.Control.Lawful
import Sa.Separation

/-!
# Programs on heaps

Programs that load and store, allocate and free, with the rules for what holds before and
after them. A triple says that the program ends and accesses nothing that is not
allocated; the rest of the heap is part of its meaning, so every triple can be framed.
-/

namespace Sa.Programs
open Sa.Separation

/-- `none` where an address is accessed that is not allocated, or the passes of a loop run
    out. -/
abbrev Mem (A V α : Type) := StateT (Heap A V) Option α

/-- Any way to choose a free address. -/
structure Allocator (A V : Type) where
  malloc : Heap A V → A
  fresh : ∀ h, malloc h ∉ h

section
variable {A V α β : Type} [DecidableEq A]

def fault : Mem A V α := fun _ => none
def load (a : A) : Mem A V V := fun h => (h.lookup a).map fun v => (v, h)
def store (a : A) (v : V) : Mem A V Unit := fun h => if a ∈ h then some ((), h.insert a v) else none
def dealloc (a : A) : Mem A V Unit := fun h => if a ∈ h then some ((), h.erase a) else none
def alloc (m : Allocator A V) (v : V) : Mem A V A := fun h => some (m.malloc h, h.insert (m.malloc h) v)

omit [DecidableEq A] in
theorem bind_run {c : Mem A V α} {d : α → Mem A V β} {h h' : Heap A V} {x : α} (first : c h = some (x, h')) :
    (c >>= d) h = d x h' := by
  show (c h).bind _ = _
  rw [first]
  rfl

/-- From a heap with a part where `P` holds the program ends, with enough passes, and
    leaves `Q` there and the rest as it was. -/
def Triple (P : Assertion A V) (c : ℕ → Mem A V α) (Q : α → Assertion A V) : Prop :=
  ∀ F, ∀ h ∈ P * F, ∃ k x h', (∀ n, k ≤ n → c n h = some (x, h')) ∧ h' ∈ Q x * F

variable {P P₀ R : Assertion A V} {c : ℕ → Mem A V α} {d : ℕ → α → Mem A V β} {Q Q' : α → Assertion A V}
  {S : β → Assertion A V} {a : A} {v w : V} {p : Prop}

theorem Triple.conseq (triple : Triple P c Q') (pre : P₀ ≤ P) (post : ∀ x, Q' x ≤ Q x) : Triple P₀ c Q := by
  intro F h holds
  obtain ⟨k, x, h', runs, after⟩ := triple F h (mul_le_mul_left pre F holds)
  exact ⟨k, x, h', runs, mul_le_mul_left (post x) F after⟩

theorem Triple.pre (triple : Triple P c Q) (pre : P₀ ≤ P) : Triple P₀ c Q := triple.conseq pre fun _ => le_rfl

theorem Triple.post (triple : Triple P c Q') (post : ∀ x, Q' x ≤ Q x) : Triple P c Q := triple.conseq le_rfl post

theorem Triple.frame (triple : Triple P c Q) (R : Assertion A V) : Triple (P * R) c fun x => Q x * R := by
  intro F h holds
  rw [mul_assoc] at holds
  obtain ⟨k, x, h', runs, after⟩ := triple (R * F) h holds
  exact ⟨k, x, h', runs, by rwa [mul_assoc]⟩

/-- Nothing runs where nothing holds. -/
theorem Triple.bot : Triple (⊥ * R) c Q := by
  rintro F h ⟨_, _, -, -, ⟨_, _, -, -, none, -⟩, -⟩
  exact none.elim

theorem Triple.iSup {ι : Sort*} {P : ι → Assertion A V} (each : ∀ i, Triple (P i) c Q) : Triple (⨆ i, P i) c Q := by
  intro F h before
  rw [iSup_mul] at before
  obtain ⟨i, holds⟩ := Set.mem_iUnion.mp before
  exact each i F h holds

theorem Triple.fact (given : p → Triple P c Q) : Triple (fact p * P) c Q := by
  intro F h before
  rw [mul_assoc] at before
  obtain ⟨holds, rest⟩ := mem_fact_mul.mp before
  exact given holds F h rest

theorem Triple.pure {x : α} (holds : P ≤ Q x) : Triple P (fun _ => Pure.pure x) Q := by
  intro F h before
  exact ⟨0, x, h, fun _ _ => rfl, mul_le_mul_left holds F before⟩

/-- A program that is given one pass more than it is said to have. -/
theorem Triple.later (triple : Triple P (fun n => c (n + 1)) Q) : Triple P c Q := by
  intro F h before
  obtain ⟨k, x, h', runs, after⟩ := triple F h before
  refine ⟨k + 1, x, h', fun n enough => ?_, after⟩
  obtain ⟨m, rfl⟩ : ∃ m, n = m + 1 := ⟨n - 1, by omega⟩
  exact runs m (by omega)

theorem Triple.bind (first : Triple P c Q) (second : ∀ x, Triple (Q x) (fun n => d n x) S) :
    Triple P (fun n => c n >>= d n) S := by
  intro F h before
  obtain ⟨k, x, h₁, runs, between⟩ := first F h before
  obtain ⟨k', y, h₂, runs', after⟩ := second x F h₁ between
  refine ⟨max k k', y, h₂, fun n enough => ?_, after⟩
  exact (bind_run (runs n (le_trans (le_max_left _ _) enough))).trans (runs' n (le_trans (le_max_right _ _) enough))

/-- A call of what is known for a part of the memory. -/
theorem Triple.call (first : Triple P c Q) (second : ∀ x, Triple (Q x * R) (fun n => d n x) S) :
    Triple (P * R) (fun n => c n >>= d n) S :=
  (first.frame R).bind second

/-- With enough passes the program returns `x` and leaves the heap as it is. -/
def Reads (h : Heap A V) (c : ℕ → Mem A V α) (x : α) : Prop := ∃ k, ∀ n, k ≤ n → c n h = some (x, h)

section
variable {h : Heap A V} {x : α} {y : β}

omit [DecidableEq A] in
theorem Reads.pure : Reads h (fun _ => Pure.pure x) x := ⟨0, fun _ _ => rfl⟩

omit [DecidableEq A] in
theorem Reads.bind (first : Reads h c x) (second : Reads h (fun n => d n x) y) : Reads h (fun n => c n >>= d n) y := by
  obtain ⟨k, runs⟩ := first
  obtain ⟨k', runs'⟩ := second
  refine ⟨max k k', fun n enough => ?_⟩
  exact (bind_run (runs n (le_trans (le_max_left _ _) enough))).trans (runs' n (le_trans (le_max_right _ _) enough))

omit [DecidableEq A] in
theorem Reads.later (reads : Reads h (fun n => c (n + 1)) x) : Reads h c x := by
  obtain ⟨k, runs⟩ := reads
  refine ⟨k + 1, fun n enough => ?_⟩
  obtain ⟨m, rfl⟩ : ∃ m, n = m + 1 := ⟨n - 1, by omega⟩
  exact runs m (by omega)

/-- A program that only reads, and what it may return in every heap with a part where `P` holds. -/
theorem Triple.reads {φ : α → Prop} (each : ∀ F, ∀ h ∈ P * F, ∃ x, Reads h c x ∧ φ x) :
    Triple P c fun x => Separation.fact (φ x) * P := by
  intro F h before
  obtain ⟨x, ⟨k, runs⟩, holds⟩ := each F h before
  refine ⟨k, x, h, runs, ?_⟩
  show h ∈ Separation.fact (φ x) * P * F
  rwa [fact_of holds, one_mul]

/-- A program that leaves the heap as it was, whatever it allocates on its way. -/
theorem triple_iff_reads : Triple 1 c (fun y => Separation.fact (y = x) * 1) ↔ ∀ h, Reads h c x := by
  constructor
  · intro triple h
    obtain ⟨k, y, h', runs, after⟩ := triple {h} h (by rw [one_mul]; rfl)
    rw [mul_assoc, one_mul, mem_fact_mul] at after
    obtain ⟨rfl, rfl⟩ := after
    exact ⟨k, runs⟩
  · intro reads F h before
    obtain ⟨k, runs⟩ := reads h
    refine ⟨k, x, h, runs, ?_⟩
    show h ∈ Separation.fact (x = x) * 1 * F
    rwa [fact_of rfl, one_mul]

end

theorem Triple.load {d : ℕ → V → Mem A V β} (rest : Triple (pts a v * R) (fun n => d n v) S) :
    Triple (pts a v * R) (fun n => Programs.load a >>= d n) S := by
  intro F h before
  obtain ⟨k, y, h', runs, after⟩ := rest F h before
  rw [mul_assoc] at before
  have loaded : Programs.load a h = some (v, h) := by rw [Programs.load, lookup_pts before, Option.map_some]
  exact ⟨k, y, h', fun n enough => (bind_run loaded).trans (runs n enough), after⟩

theorem Triple.store {d : ℕ → Unit → Mem A V β} (rest : Triple (pts a w * R) (fun n => d n ()) S) :
    Triple (pts a v * R) (fun n => Programs.store a w >>= d n) S := by
  intro F h before
  rw [mul_assoc] at before
  obtain ⟨k, y, h', runs, after⟩ := rest F (h.insert a w) (by rw [mul_assoc]; exact insert_pts w before)
  have stored : Programs.store a w h = some ((), h.insert a w) := if_pos (Finmap.mem_of_lookup_eq_some (lookup_pts before))
  exact ⟨k, y, h', fun n enough => (bind_run stored).trans (runs n enough), after⟩

theorem Triple.dealloc {d : ℕ → Unit → Mem A V β} (rest : Triple R (fun n => d n ()) S) :
    Triple (pts a v * R) (fun n => Programs.dealloc a >>= d n) S := by
  intro F h before
  rw [mul_assoc] at before
  obtain ⟨k, y, h', runs, after⟩ := rest F (h.erase a) (erase_pts before)
  have freed : Programs.dealloc a h = some ((), h.erase a) := if_pos (Finmap.mem_of_lookup_eq_some (lookup_pts before))
  exact ⟨k, y, h', fun n enough => (bind_run freed).trans (runs n enough), after⟩

theorem Triple.alloc {d : ℕ → A → Mem A V β} (m : Allocator A V) (rest : ∀ a, Triple (pts a v * R) (fun n => d n a) S) :
    Triple R (fun n => Programs.alloc m v >>= d n) S := by
  intro F h before
  obtain ⟨k, y, h', runs, after⟩ := rest (m.malloc h) F (h.insert (m.malloc h) v) (by
    rw [mul_assoc]
    exact insert_fresh v (m.fresh h) before)
  exact ⟨k, y, h', runs, after⟩

/-- An allocation that is the last thing done. -/
theorem Triple.alloc_last (m : Allocator A V) : Triple P (fun _ => Programs.alloc m v) fun a => pts a v * P := by
  have allocated : Triple P (fun _ => Programs.alloc m v >>= fun a => Pure.pure a) fun a => pts a v * P :=
    Triple.alloc m fun a => Triple.pure le_rfl
  simpa only [bind_pure] using allocated

end

end Sa.Programs
