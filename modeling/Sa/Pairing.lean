import Mathlib.Data.List.Forall2

/-!
# Calls and answers

Lists of messages some of which call and some of which answer the message before
them. `WellPaired` states the pairing by positions; `Paired` builds such lists
from the left, also with answers that have lost their call (`orphans`).
-/

namespace Sa.Pairing
universe u v

/-- How messages call and answer. No message does both. -/
structure Roles (Message : Type u) (Call : Type v) where
  calls : Message → List Call
  IsAnswer : Message → Prop
  /-- The message answers these calls, in order, and nothing else. -/
  Answers : List Call → Message → Prop
  answer_calls : ∀ {m}, IsAnswer m → calls m = []
  answers_isAnswer : ∀ {cs m}, cs ≠ [] → Answers cs m → IsAnswer m

variable {Message : Type u} {Call : Type v} (R : Roles Message Call)

/-- Every message that calls is answered by the next one. -/
def Answered (ms : List Message) : Prop :=
  ∀ i a, ms[i]? = some a → R.calls a ≠ [] → ∃ r, ms[i + 1]? = some r ∧ R.Answers (R.calls a) r

/-- Every answer follows a message that calls. -/
def Anchored (ms : List Message) : Prop :=
  ∀ i r, ms[i]? = some r → R.IsAnswer r → ∃ j a, i = j + 1 ∧ ms[j]? = some a ∧ R.calls a ≠ []

structure WellPaired (ms : List Message) : Prop where
  answered : Answered R ms
  anchored : Anchored R ms

/-- Lists in which every call is answered; an answer may stand alone only if
    `orphans` holds. -/
inductive Paired (orphans : Prop) : List Message → Prop where
  | nil : Paired orphans []
  | plain {m : Message} {ms : List Message} : R.calls m = [] → ¬R.IsAnswer m → Paired orphans ms → Paired orphans (m :: ms)
  | call {a r : Message} {ms : List Message} : R.calls a ≠ [] → R.Answers (R.calls a) r → Paired orphans ms →
      Paired orphans (a :: r :: ms)
  | orphan {r : Message} {ms : List Message} : orphans → R.IsAnswer r → Paired orphans ms → Paired orphans (r :: ms)

variable {R} {orphans : Prop}

theorem Paired.append {xs ys : List Message} (first : Paired R orphans xs) (second : Paired R orphans ys) :
    Paired R orphans (xs ++ ys) := by
  induction first with
  | nil => exact second
  | plain silent noAnswer _ ih => exact .plain silent noAnswer ih
  | call some answers _ ih => exact .call some answers ih
  | orphan allowed answer _ ih => exact .orphan allowed answer ih

theorem answered_nil : Answered R [] := by
  intro i a found
  simp at found

theorem answered_cons {m : Message} {ms : List Message} (silent : R.calls m = []) (rest : Answered R ms) :
    Answered R (m :: ms) := by
  intro i a found some
  cases i with
  | zero =>
    simp only [List.getElem?_cons_zero, Option.some.injEq] at found
    exact absurd (found ▸ silent) some
  | succ i => exact rest i a found some

theorem Paired.answered {ms : List Message} (paired : Paired R orphans ms) : Answered R ms := by
  induction paired with
  | nil => exact answered_nil
  | plain silent _ _ ih => exact answered_cons silent ih
  | @call a r ms some answers _ ih =>
    have after := answered_cons (R.answer_calls (R.answers_isAnswer some answers)) ih
    intro i a' found some'
    cases i with
    | zero =>
      simp only [List.getElem?_cons_zero, Option.some.injEq] at found
      exact ⟨r, rfl, found ▸ answers⟩
    | succ i => exact after i a' found some'
  | orphan _ answer _ ih => exact answered_cons (R.answer_calls answer) ih

theorem Paired.anchored {ms : List Message} (paired : Paired R False ms) : Anchored R ms := by
  induction paired with
  | nil =>
    intro i r found
    simp at found
  | plain _ noAnswer _ ih =>
    intro i r found answer
    cases i with
    | zero =>
      simp only [List.getElem?_cons_zero, Option.some.injEq] at found
      exact absurd (found ▸ answer) noAnswer
    | succ i =>
      obtain ⟨j, a, rfl, before, some⟩ := ih i r found answer
      exact ⟨j + 1, a, rfl, before, some⟩
  | @call a _ _ some _ _ ih =>
    intro i r found answer
    match i with
    | 0 =>
      simp only [List.getElem?_cons_zero, Option.some.injEq] at found
      exact absurd (R.answer_calls answer) (found ▸ some)
    | 1 => exact ⟨0, a, rfl, rfl, some⟩
    | i + 2 =>
      obtain ⟨j, a, rfl, before, some⟩ := ih i r found answer
      exact ⟨j + 2, a, rfl, before, some⟩
  | orphan allowed _ _ _ => exact allowed.elim

theorem WellPaired.tail {m : Message} {ms : List Message} (paired : WellPaired R (m :: ms)) (silent : R.calls m = []) :
    WellPaired R ms := by
  constructor
  · intro i a found some
    exact paired.answered (i + 1) a found some
  · intro i r found answer
    obtain ⟨j, a, same, before, some⟩ := paired.anchored (i + 1) r found answer
    obtain rfl : i = j := by omega
    cases i with
    | zero =>
      simp only [List.getElem?_cons_zero, Option.some.injEq] at before
      exact absurd (before ▸ silent) some
    | succ i => exact ⟨i, a, rfl, before, some⟩

theorem WellPaired.paired : ∀ {ms : List Message}, WellPaired R ms → Paired R False ms
  | [], _ => .nil
  | m :: ms, wellPaired => by
    have noAnswer : ¬R.IsAnswer m := by
      intro answer
      obtain ⟨j, _, same, -⟩ := wellPaired.anchored 0 m rfl answer
      omega
    by_cases silent : R.calls m = []
    · exact .plain silent noAnswer (wellPaired.tail silent).paired
    · obtain ⟨r, next, answers⟩ := wellPaired.answered 0 m rfl silent
      cases ms with
      | nil => simp at next
      | cons r' ms =>
        obtain rfl : r' = r := by simpa using next
        have answer := R.answers_isAnswer silent answers
        refine .call silent answers (paired ?_)
        constructor
        · intro i a found some
          exact wellPaired.answered (i + 2) a found some
        · intro i s found answer'
          obtain ⟨j, a, same, before, some⟩ := wellPaired.anchored (i + 2) s found answer'
          obtain rfl : j = i + 1 := by omega
          cases i with
          | zero =>
            obtain rfl : r' = a := by simpa using before
            exact absurd (R.answer_calls answer) some
          | succ i => exact ⟨i, a, rfl, before, some⟩

theorem paired_iff {ms : List Message} : Paired R False ms ↔ WellPaired R ms :=
  ⟨fun paired => ⟨paired.answered, paired.anchored⟩, WellPaired.paired⟩

/-- The message plays the same part as the other. -/
structure SamePart (R : Roles Message Call) (m m' : Message) : Prop where
  calls : R.calls m' = R.calls m
  answer : R.IsAnswer m' ↔ R.IsAnswer m
  answers : ∀ cs, R.Answers cs m → R.Answers cs m'

/-- Messages may change as long as they keep their parts, and calls may be lost
    where answers may stand alone. -/
theorem Paired.filterMap {f : Message → Option Message} {ms : List Message} (paired : Paired R orphans ms)
    (kept : ∀ m ∈ ms, ∀ m', f m = some m' → SamePart R m m') (answer : ∀ m ∈ ms, R.IsAnswer m → f m ≠ none)
    (lost : ∀ m ∈ ms, f m = none → R.calls m ≠ [] → orphans) : Paired R orphans (ms.filterMap f) := by
  induction paired with
  | nil => exact .nil
  | @plain m ms silent noAnswer _ ih =>
    have rest := ih (fun n member => kept n (by simp [member])) (fun n member => answer n (by simp [member]))
      (fun n member => lost n (by simp [member]))
    cases result : f m with
    | none => rwa [List.filterMap_cons_none result]
    | some m' =>
      rw [List.filterMap_cons_some result]
      have same := kept m (by simp) m' result
      exact .plain (same.calls.trans silent) (fun answer => noAnswer (same.answer.mp answer)) rest
  | @call a r ms some answers _ ih =>
    have rest := ih (fun n member => kept n (by simp [member])) (fun n member => answer n (by simp [member]))
      (fun n member => lost n (by simp [member]))
    have isAnswer := R.answers_isAnswer some answers
    obtain ⟨r', result⟩ := Option.ne_none_iff_exists'.mp (answer r (by simp) isAnswer)
    have same := kept r (by simp) r' result
    cases called : f a with
    | none =>
      rw [List.filterMap_cons_none called, List.filterMap_cons_some result]
      exact .orphan (lost a (by simp) called some) (same.answer.mpr isAnswer) rest
    | some a' =>
      rw [List.filterMap_cons_some called, List.filterMap_cons_some result]
      have sameCalls := (kept a (by simp) a' called).calls
      exact .call (by rwa [sameCalls]) (by rw [sameCalls]; exact same.answers _ answers) rest
  | @orphan r ms allowed isAnswer _ ih =>
    have rest := ih (fun n member => kept n (by simp [member])) (fun n member => answer n (by simp [member]))
      (fun n member => lost n (by simp [member]))
    obtain ⟨r', result⟩ := Option.ne_none_iff_exists'.mp (answer r (by simp) isAnswer)
    rw [List.filterMap_cons_some result]
    exact .orphan allowed ((kept r (by simp) r' result).answer.mpr isAnswer) rest

theorem SamePart.refl (m : Message) : SamePart R m m := ⟨rfl, Iff.rfl, fun _ holds => holds⟩

theorem Paired.forall₂ {ms ms' : List Message} (paired : Paired R orphans ms) (each : List.Forall₂ (SamePart R) ms ms') :
    Paired R orphans ms' := by
  induction paired generalizing ms' with
  | nil =>
    cases each
    exact .nil
  | plain silent noAnswer _ ih =>
    obtain ⟨m', rest, same, others, rfl⟩ := List.forall₂_cons_left_iff.mp each
    exact .plain (same.calls.trans silent) (fun answer => noAnswer (same.answer.mp answer)) (ih others)
  | call some answers _ ih =>
    obtain ⟨a', tail, first, next, rfl⟩ := List.forall₂_cons_left_iff.mp each
    obtain ⟨r', rest, second, others, rfl⟩ := List.forall₂_cons_left_iff.mp next
    have calls := first.calls
    exact .call (by rwa [calls]) (by rw [calls]; exact second.answers _ answers) (ih others)
  | orphan allowed answer _ ih =>
    obtain ⟨r', rest, same, others, rfl⟩ := List.forall₂_cons_left_iff.mp each
    exact .orphan allowed (same.answer.mpr answer) (ih others)

end Sa.Pairing
