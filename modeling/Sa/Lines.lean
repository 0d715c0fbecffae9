import Mathlib.Data.List.TakeDrop
import Mathlib.Order.Defs.PartialOrder

/-!
# Lines of bounded length

A machine that cuts a stream into lines one element at a time and holds no more of
a line than a cap. The lines it delivers are those of the stream split at its ends
(`delivered_lines`): what it drops of one line changes no other.
-/

namespace Sa.Lines

/-- What ends a line, what is left out of it, and how much of it is held. -/
structure Rule (α : Type*) where
  newline : α
  skips : α → Bool
  cap : ℕ

/-- What is held of a line that has not ended, and whether more of it came. -/
structure Pending (α : Type*) where
  line : List α
  dropped : Bool

variable {α : Type*}

def Pending.fresh : Pending α := ⟨[], false⟩

namespace Rule

variable (rule : Rule α)

/-- What is left of a line's elements. -/
def kept (line : List α) : List α := line.filter fun c => !rule.skips c

/-- The state after the elements of a line. -/
def pending (line : List α) : Pending α :=
  ⟨(rule.kept line).take rule.cap, decide (rule.cap < (rule.kept line).length)⟩

@[simp] theorem pending_nil : rule.pending [] = .fresh := by
  simp [pending, kept, Pending.fresh]

variable [DecidableEq α]

def step (p : Pending α) (c : α) : Pending α :=
  if c = rule.newline then .fresh
  else if rule.skips c then p
  else if rule.cap ≤ p.line.length then { p with dropped := true }
  else { p with line := p.line ++ [c] }

/-- The line that `c` ends. -/
def ended (p : Pending α) (c : α) : Option (List α) :=
  if c = rule.newline ∧ p.dropped = false then some p.line else none

/-- The lines that end in a stream. -/
def delivered (p : Pending α) : List α → List (List α)
  | [] => []
  | c :: s => (rule.ended p c).toList ++ delivered (rule.step p c) s

/-- The line, unless it is too long. -/
def fitting (line : List α) : Option (List α) :=
  if (rule.kept line).length ≤ rule.cap then some (rule.kept line) else none

/-- The lines of a stream that are not too long. -/
def lines (s : List α) : List (List α) := (s.splitOn rule.newline).dropLast.filterMap rule.fitting

/-- An element within a line. -/
theorem step_pending {c : α} (within : c ≠ rule.newline) (line : List α) :
    rule.step (rule.pending line) c = rule.pending (line ++ [c]) := by
  rw [step, if_neg within]
  by_cases skipped : rule.skips c
  · have same : rule.kept (line ++ [c]) = rule.kept line := by simp [kept, skipped]
    rw [if_pos skipped, pending, pending, same]
  have grown : rule.kept (line ++ [c]) = rule.kept line ++ [c] := by simp [kept, skipped]
  have size : (rule.kept line ++ [c]).length = (rule.kept line).length + 1 := by simp
  rw [if_neg skipped, pending, pending, grown, size]
  by_cases full : rule.cap ≤ (rule.kept line).length
  · have held : ((rule.kept line).take rule.cap).length = rule.cap := List.length_take_of_le full
    rw [if_pos (Nat.le_of_eq held.symm), List.take_append_of_le_length full, decide_eq_true (by omega : rule.cap < _ + 1)]
  · have held : (rule.kept line).take rule.cap = rule.kept line := List.take_of_length_le (by omega)
    rw [held, if_neg full, List.take_of_length_le (by omega), decide_eq_false (by omega : ¬rule.cap < _ + 1),
      decide_eq_false (by omega)]

/-- The end of a line. -/
theorem ended_pending (line : List α) : rule.ended (rule.pending line) rule.newline = rule.fitting line := by
  unfold ended pending fitting
  by_cases fits : (rule.kept line).length ≤ rule.cap
  · simp [fits, List.take_of_length_le fits]
  · simp [fits]

theorem lines_open {line : List α} (opened : rule.newline ∉ line) : rule.lines line = [] := by
  rw [lines, List.splitOn_eq_singleton opened]
  rfl

theorem lines_cons {line : List α} (opened : rule.newline ∉ line) (s : List α) :
    rule.lines (line ++ rule.newline :: s) = (rule.fitting line).toList ++ rule.lines s := by
  unfold lines
  rw [List.splitOn_append_cons_self, List.splitOn_eq_singleton opened, List.singleton_append,
    List.dropLast_cons_of_ne_nil (List.splitOn_ne_nil _ _)]
  cases fit : rule.fitting line <;> simp [fit]

/-- A stream after the elements of a line that has not ended. -/
theorem delivered_pending (s : List α) : ∀ line, rule.newline ∉ line →
    rule.delivered (rule.pending line) s = rule.lines (line ++ s) := by
  induction s with
  | nil =>
    intro line opened
    rw [List.append_nil, rule.lines_open opened]
    rfl
  | cons c s ih =>
    intro line opened
    rw [delivered]
    by_cases ends : c = rule.newline
    · subst ends
      have next : rule.step (rule.pending line) rule.newline = rule.pending [] := by simp [step]
      rw [next, ended_pending, ih [] (by simp), lines_cons rule opened, List.nil_append]
    · have still : rule.newline ∉ line ++ [c] := by simp [opened, Ne.symm ends]
      rw [step_pending rule ends, ih _ still, ended, if_neg (by simp [ends])]
      simp

/-- What is delivered of a stream are its lines that are not too long. -/
theorem delivered_lines (s : List α) : rule.delivered .fresh s = rule.lines s := by
  rw [← pending_nil rule, delivered_pending rule s [] (by simp), List.nil_append]

theorem delivered_append (p : Pending α) (s t : List α) :
    rule.delivered p (s ++ t) = rule.delivered p s ++ rule.delivered (s.foldl rule.step p) t := by
  induction s generalizing p with
  | nil => rfl
  | cons c s ih => simp [delivered, ih]

/-- What is delivered was held or came in the stream. -/
theorem mem_of_mem_delivered {s : List α} : ∀ {p : Pending α} {line : List α}, line ∈ rule.delivered p s →
    ∀ {c}, c ∈ line → c ∈ p.line ∨ c ∈ s := by
  induction s with
  | nil => intro p line inside; cases inside
  | cons b s ih =>
    intro p line inside c member
    rw [delivered, List.mem_append] at inside
    rcases inside with here | later
    · have same : line = p.line := by
        unfold ended at here
        split_ifs at here
        · simpa using here
        · cases here
      exact .inl (same ▸ member)
    · rcases ih later member with held | comes
      · unfold step at held
        split_ifs at held
        · cases held
        · exact .inl held
        · exact .inl held
        · rcases List.mem_append.mp held with before | now
          · exact .inl before
          · exact .inr (List.mem_cons.mpr (.inl (List.mem_singleton.mp now)))
      · exact .inr (List.mem_cons_of_mem b comes)

theorem mem_of_delivered {s line : List α} (inside : line ∈ rule.delivered .fresh s) {c : α} (member : c ∈ line) : c ∈ s := by
  rcases rule.mem_of_mem_delivered inside member with held | comes
  · cases held
  · exact comes

/-- Whatever came, no more than the cap is held. -/
theorem length_step_le {p : Pending α} (within : p.line.length ≤ rule.cap) (c : α) :
    (rule.step p c).line.length ≤ rule.cap := by
  unfold step
  split_ifs with ends skipped full
  · exact Nat.zero_le _
  · exact within
  · exact within
  · simp
    omega

end Rule

end Sa.Lines
