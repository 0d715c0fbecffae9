import Mathlib.Data.List.Range

/-!
# Occurrences of a list in another

Where a list occurs in another, and what a search finds that goes on behind each
match: one match just when the list occurs and all its occurrences overlap
(`scan_single_iff`).
-/

namespace Sa.Occurrences

variable {α : Type*}

def Occurs (needle s : List α) (i : ℕ) : Prop := needle <+: s.drop i

instance [DecidableEq α] (needle s : List α) (i : ℕ) : Decidable (Occurs needle s i) :=
  inferInstanceAs (Decidable (needle <+: s.drop i))

/-- It occurs, and any two occurrences of it overlap. -/
def OneMatch (needle s : List α) : Prop :=
  (∃ i, Occurs needle s i) ∧ ∀ i j, Occurs needle s i → Occurs needle s j → j < i + needle.length

def OnePosition (needle s : List α) : Prop := ∃! i, Occurs needle s i

/-- The list with what is at a position replaced. -/
def splice (needle new s : List α) (i : ℕ) : List α := s.take i ++ new ++ s.drop (i + needle.length)

theorem occurs_append (pre needle suf : List α) : Occurs needle (pre ++ needle ++ suf) pre.length := by
  rw [Occurs, List.append_assoc, List.drop_left]
  exact List.prefix_append needle suf

theorem occurs_le {needle s : List α} (some : needle ≠ []) {i : ℕ} (occurs : Occurs needle s i) :
    i + needle.length ≤ s.length := by
  have size := occurs.length_le
  have positive := List.length_pos_of_ne_nil some
  rw [List.length_drop] at size
  omega

theorem occurs_split {needle s : List α} {i : ℕ} (occurs : Occurs needle s i) :
    s = s.take i ++ needle ++ s.drop (i + needle.length) := by
  obtain ⟨suf, split⟩ := occurs
  have rest : s.drop (i + needle.length) = suf := by
    rw [← List.drop_drop, ← split, List.drop_left]
  rw [rest, List.append_assoc, split, List.take_append_drop]

/-- An occurrence in the front of a list is one in the list. -/
theorem occurs_prefix {needle s t : List α} (front : s <+: t) {i : ℕ} (occurs : Occurs needle s i) : Occurs needle t i := by
  obtain ⟨rest, rfl⟩ := front
  rw [Occurs, List.drop_append]
  exact occurs.trans (List.prefix_append _ _)

theorem splice_append (pre needle suf new : List α) : splice needle new (pre ++ needle ++ suf) pre.length = pre ++ new ++ suf := by
  have rest : (pre ++ needle ++ suf).drop (pre.length + needle.length) = suf := by
    rw [← List.length_append, List.drop_left]
  rw [splice, rest, List.append_assoc pre, List.take_left]

theorem length_splice {needle s : List α} (some : needle ≠ []) {i : ℕ} (occurs : Occurs needle s i) (new : List α) :
    (splice needle new s i).length + needle.length = s.length + new.length := by
  have bound := occurs_le some occurs
  simp only [splice, List.length_append, List.length_take, List.length_drop]
  omega

theorem onePosition_iff {needle s : List α} (some : needle ≠ []) : OnePosition needle s ↔
    OneMatch needle s ∧ ∀ i j, Occurs needle s i → Occurs needle s j → i = j := by
  constructor
  · rintro ⟨i, occurs, only⟩
    have same : ∀ i j, Occurs needle s i → Occurs needle s j → i = j :=
      fun j k first second => (only j first).trans (only k second).symm
    refine ⟨⟨⟨i, occurs⟩, fun j k first second => ?_⟩, same⟩
    have positive := List.length_pos_of_ne_nil some
    have equal := same j k first second
    omega
  · rintro ⟨⟨⟨i, occurs⟩, -⟩, same⟩
    exact ⟨i, occurs, fun j other => same j i other occurs⟩

/-- A word without `c` stands before or after it. -/
theorem infix_around {word a b : List α} {c : α} (apart : c ∉ word) : word <:+: a ++ c :: b ↔ word <:+: a ∨ word <:+: b := by
  constructor
  · rintro ⟨s, t, same⟩
    rcases List.append_eq_append_iff.mp same with ⟨x, rfl, -⟩ | ⟨x, start, after⟩
    · exact .inl ⟨s, x, rfl⟩
    · rcases x with _ | ⟨d, x⟩
      · rw [List.append_nil] at start
        exact .inl ⟨s, [], by simpa using start⟩
      · simp only [List.cons_append, List.cons.injEq] at after
        obtain ⟨rfl, rfl⟩ := after
        rcases List.append_eq_append_iff.mp start with ⟨y, rfl, inside⟩ | ⟨y, rfl, inside⟩
        · exact absurd (by simp [inside]) apart
        · rcases y with _ | ⟨e, y⟩
          · have whole : c :: x = word := inside
            exact absurd (by simp [← whole]) apart
          · simp only [List.cons_append, List.cons.injEq] at inside
            exact .inr ⟨y, t, by rw [inside.2]⟩
  · rintro (first | last)
    · exact first.trans (List.prefix_append _ _).isInfix
    · exact last.trans ((List.suffix_cons c b).trans (List.suffix_append _ _)).isInfix

section
variable {x y : α}

/-- Where `x y` can stand in a list that holds it, and what follows it. -/
theorem pair_cases (apart : x ≠ y) {l s p q : List α} (whole : ¬[x, y] <:+: l) (same : p ++ x :: y :: q = l ++ x :: y :: s) :
    (p = l ∧ q = s) ∨ ∃ p', p = l ++ x :: y :: p' ∧ p' ++ x :: y :: q = s := by
  rcases List.append_eq_append_iff.mp same with ⟨a, line, after⟩ | ⟨a, before, after⟩
  · match a with
    | [] => exact .inl ⟨by simpa using line.symm, by simpa using after⟩
    | [c] =>
      simp only [List.cons_append, List.nil_append, List.cons.injEq] at after
      exact absurd after.2.1.symm apart
    | c :: d :: a =>
      simp only [List.cons_append, List.cons.injEq] at after
      obtain ⟨rfl, rfl, -⟩ := after
      exact absurd ⟨p, a, by rw [line]; simp⟩ whole
  · match a with
    | [] => exact .inl ⟨by simpa using before, by simpa using after.symm⟩
    | [c] =>
      simp only [List.cons_append, List.nil_append, List.cons.injEq] at after
      exact absurd after.2.1.symm apart
    | c :: d :: a =>
      simp only [List.cons_append, List.cons.injEq] at after
      obtain ⟨rfl, rfl, after⟩ := after
      exact .inr ⟨a, before, after.symm⟩

/-- What stands before a text without `x` adds no pair to it. -/
theorem pair_after {a b : List α} (free : x ∉ a) (stands : [x, y] <:+: a ++ b) : [x, y] <:+: b := by
  induction a with
  | nil => exact stands
  | cons c a ih =>
    rw [List.cons_append, List.infix_cons_iff] at stands
    rcases stands with ⟨t, start⟩ | later
    · simp only [List.cons_append, List.cons.injEq] at start
      exact absurd (by simp [start.1]) free
    · exact ih (fun member => free (by simp [member])) later

/-- A pair stands in one of two parts, unless the second begins with `y`. -/
theorem pair_append {a b : List α} (other : ∀ c ∈ b.head?, c ≠ y) (stands : [x, y] <:+: a ++ b) :
    [x, y] <:+: a ∨ [x, y] <:+: b := by
  induction a with
  | nil => exact .inr stands
  | cons c a ih =>
    rw [List.cons_append, List.infix_cons_iff] at stands
    rcases stands with ⟨t, start⟩ | later
    · cases a with
      | nil =>
        simp only [List.cons_append, List.nil_append, List.cons.injEq] at start
        exact absurd rfl (other y (by simp [← start.2]))
      | cons d a =>
        simp only [List.cons_append, List.nil_append, List.cons.injEq] at start
        exact .inl ⟨[], a, by simp [start.1, start.2.1]⟩
    · exact (ih later).imp_left fun first => first.trans (List.suffix_cons c a).isInfix

end

variable [DecidableEq α]

/-- The first occurrence from `p` on. -/
def firstFrom (needle s : List α) (p : ℕ) : Option ℕ :=
  (List.range (s.length + 1)).find? fun i => p ≤ i ∧ Occurs needle s i

theorem firstFrom_some {needle s : List α} {p i : ℕ} (found : firstFrom needle s p = some i) :
    p ≤ i ∧ Occurs needle s i ∧ ∀ j, p ≤ j → Occurs needle s j → i ≤ j := by
  rw [firstFrom, List.find?_range_eq_some] at found
  obtain ⟨here, -, before⟩ := found
  obtain ⟨from_, occurs⟩ := of_decide_eq_true here
  refine ⟨from_, occurs, fun j later other => Nat.le_of_not_lt fun less => ?_⟩
  have none := before j less
  simp [later, other] at none

theorem firstFrom_none {needle s : List α} (some : needle ≠ []) {p : ℕ} :
    firstFrom needle s p = none ↔ ∀ i, p ≤ i → ¬Occurs needle s i := by
  rw [firstFrom, List.find?_range_eq_none]
  constructor
  · intro all i later occurs
    have bound := occurs_le some occurs
    have none := all i (by omega)
    simp [later, occurs] at none
  · intro all i _
    by_cases later : p ≤ i
    · simp [later, all i later]
    · simp [later]

/-- The matches from `p` on, each behind the one before. -/
def scan (needle s : List α) : ℕ → ℕ → List ℕ
  | 0, _ => []
  | fuel + 1, p =>
    match firstFrom needle s p with
    | none => []
    | some i => i :: scan needle s fuel (i + needle.length)

theorem scan_nil_iff {needle s : List α} (some : needle ≠ []) {fuel p : ℕ} :
    scan needle s (fuel + 1) p = [] ↔ ∀ i, p ≤ i → ¬Occurs needle s i := by
  rw [← firstFrom_none some, scan]
  cases firstFrom needle s p <;> simp

theorem occurs_of_mem_scan {needle s : List α} {fuel : ℕ} : ∀ {p i : ℕ}, i ∈ scan needle s fuel p → Occurs needle s i := by
  induction fuel with
  | zero => intro p i member; cases member
  | succ fuel ih =>
    intro p i member
    rw [scan] at member
    cases found : firstFrom needle s p with
    | none =>
      rw [found] at member
      cases member
    | some j =>
      rw [found] at member
      rcases List.mem_cons.mp member with rfl | later
      · exact (firstFrom_some found).2.1
      · exact ih later

/-- More fuel than places left finds no more. -/
theorem scan_fuel {needle s : List α} (some : needle ≠ []) (fuel : ℕ) : ∀ p k, s.length < fuel + p →
    scan needle s (fuel + k) p = scan needle s fuel p := by
  have positive := List.length_pos_of_ne_nil some
  induction fuel with
  | zero =>
    intro p k enough
    cases k with
    | zero => rfl
    | succ k =>
      rw [Nat.zero_add, scan_nil_iff some |>.mpr]
      · rfl
      intro i later occurs
      have bound := occurs_le some occurs
      omega
  | succ fuel ih =>
    intro p k enough
    rw [Nat.succ_add, scan, scan]
    cases found : firstFrom needle s p with
    | none => rfl
    | some i =>
      have later := (firstFrom_some found).1
      simp only [ih (i + needle.length) k (by omega)]

theorem scan_single_iff {needle s : List α} (some : needle ≠ []) (fuel : ℕ) :
    (scan needle s (fuel + 2) 0).length = 1 ↔ OneMatch needle s := by
  rw [scan]
  cases found : firstFrom needle s 0 with
  | none =>
    have none := (firstFrom_none some).mp found
    refine iff_of_false (by simp) fun one => ?_
    obtain ⟨i, occurs⟩ := one.1
    exact none i (Nat.zero_le i) occurs
  | some i =>
    obtain ⟨-, occurs, first⟩ := firstFrom_some found
    rw [List.length_cons, Nat.add_eq_right, List.length_eq_zero_iff, scan_nil_iff some]
    constructor
    · intro none
      refine ⟨⟨i, occurs⟩, fun j k one other => ?_⟩
      have least := first j (Nat.zero_le j) one
      have before : k < i + needle.length := Nat.lt_of_not_le fun later => none k later other
      omega
    · rintro ⟨-, overlap⟩ j later other
      exact absurd (overlap i j occurs other) (Nat.not_lt.mpr later)

end Sa.Occurrences
