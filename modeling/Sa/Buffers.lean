import Sa.ReadFile

/-!
# Growing buffers

`buf_t` with its block of memory. A buffer holds what was appended to it since it was reset, and
a NUL behind that; its capacity stays within twice what it had to hold, and growing moves fewer
bytes in all than the capacity in the end (`run_buffers`).
-/

namespace Sa.Buffers
open Sa.CStrings

/-- One more than the largest `size_t`. -/
abbrev SIZE : ℕ := 2 ^ 64

/-- How a call does not return: it aborts, its loop does not end, or it is outside its memory. -/
inductive Fault where
  | abort
  | endless
  | outside
  deriving DecidableEq

/-- The block behind `data` is empty for a null pointer. -/
structure buf_t where
  data : Bytes
  len : ℕ
  cap : ℕ

/-- `buf_t b = {0}`. -/
def zero : buf_t := ⟨[], 0, 0⟩

/-- `realloc`: it may fail, and what it returns begins with the bytes of the old block. -/
structure Realloc where
  call : Bytes → ℕ → Option Bytes
  size : ∀ {data c p}, call data c = some p → p.length = c
  keeps : ∀ {data c p}, call data c = some p → data.length ≤ c → data <+: p

/-- The loop over the capacities; 64 doublings of any capacity leave 0. -/
def doubled (need : ℕ) : ℕ → ℕ → Except Fault ℕ
  | 0, c => if c < need then .error .endless else .ok c
  | fuel + 1, c => if c < need then doubled need fuel (c * 2 % SIZE) else .ok c

def buf_reserve (m : Realloc) (b : buf_t) (n : ℕ) : Except Fault buf_t :=
  if (n + 1) % SIZE ≤ b.cap then .ok b
  else
    match doubled ((n + 1) % SIZE) 64 (if b.cap ≠ 0 then b.cap else 64) with
    | .error fault => .error fault
    | .ok c =>
      match m.call b.data c with
      | none => .error .abort
      | some p => .ok { b with data := p, cap := c }

/-- Bytes that are written into a block. -/
def store (data : Bytes) (i : ℕ) (s : Bytes) : Except Fault Bytes :=
  if i + s.length ≤ data.length then .ok (data.take i ++ s ++ data.drop (i + s.length)) else .error .outside

def buf_append (m : Realloc) (b : buf_t) (s : Bytes) (n : ℕ) : Except Fault buf_t :=
  match buf_reserve m b ((b.len + n) % SIZE) with
  | .error fault => .error fault
  | .ok b =>
    if s.length < n then .error .outside
    else
      match store b.data b.len (s.take n) with
      | .error fault => .error fault
      | .ok data =>
        let len := (b.len + n) % SIZE
        (store data len [0]).map fun data => { b with data := data, len := len }

def buf_reset (b : buf_t) : Except Fault buf_t :=
  if b.data = [] then .ok { b with len := 0 }
  else (store b.data 0 [0]).map fun data => { b with data := data, len := 0 }

inductive Op where
  | append (s : Bytes) (n : ℕ)
  | reset

def Op.run (m : Realloc) (b : buf_t) : Op → Except Fault buf_t
  | .append s n => buf_append m b s n
  | .reset => buf_reset b

/-- What an operation moves when the block grows. -/
def moved (b b' : buf_t) : ℕ := if b'.cap = b.cap then 0 else b.data.length

/-- Operations one after the other, with the bytes that were moved. -/
def run (m : Realloc) : buf_t → List Op → Except Fault (buf_t × ℕ)
  | b, [] => .ok (b, 0)
  | b, op :: ops =>
    match op.run m b with
    | .error fault => .error fault
    | .ok b' => (run m b' ops).map fun (last, count) => (last, moved b b' + count)

/-- The text after an operation. -/
def Op.text (text : Bytes) : Op → Bytes
  | .append s n => ReadFile.buf_append text s n
  | .reset => []

def textAfter (text : Bytes) (ops : List Op) : Bytes := ops.foldl Op.text text

/-- Every append has its bytes, and room for a NUL behind them within `limit`. -/
def Fits (limit : ℕ) : Bytes → List Op → Prop
  | _, [] => True
  | text, .append s n :: ops => n ≤ s.length ∧ text.length + n + 1 ≤ limit ∧ Fits limit (ReadFile.buf_append text s n) ops
  | _, .reset :: ops => Fits limit [] ops

instance : ∀ limit text ops, Decidable (Fits limit text ops)
  | _, _, [] => isTrue trivial
  | limit, text, .append s n :: ops =>
    have := instDecidableFits limit (ReadFile.buf_append text s n) ops
    inferInstanceAs (Decidable (_ ∧ _ ∧ _))
  | limit, _, .reset :: ops => instDecidableFits limit [] ops

/-- The buffer is a null pointer, or a block that begins with the text and a NUL. -/
structure Holds (b : buf_t) (text : Bytes) : Prop where
  len : b.len = text.length
  block : b.data.length = b.cap
  content : (b.cap = 0 ∧ text = []) ∨ text ++ [0] <+: b.data
  size : b.cap = 0 ∨ ∃ k ≤ 57, b.cap = 64 * 2 ^ k

theorem holds_zero : Holds zero [] := ⟨rfl, rfl, .inl ⟨rfl, rfl⟩, .inl rfl⟩

/-- Where there is room below `2 ^ 63`, the loop ends with a capacity that is needed. -/
theorem doubled_ends {need : ℕ} (small : need ≤ 2 ^ 63) (fuel : ℕ) : ∀ k, k ≤ 57 → 57 ≤ fuel + k →
    ∃ j ≤ 57, k ≤ j ∧ doubled need fuel (64 * 2 ^ k) = .ok (64 * 2 ^ j) ∧ need ≤ 64 * 2 ^ j ∧
      (j = k ∨ 64 * 2 ^ j < 2 * need) := by
  have top : 64 * 2 ^ 57 = 2 ^ 63 := by norm_num
  induction fuel with
  | zero =>
    intro k within enough
    obtain rfl : k = 57 := by omega
    refine ⟨57, le_refl _, le_refl _, ?_, by omega, .inl rfl⟩
    rw [doubled, if_neg (by omega)]
  | succ fuel ih =>
    intro k within enough
    rw [doubled]
    by_cases less : 64 * 2 ^ k < need
    · have below : k < 57 := by
        by_contra past
        obtain rfl : k = 57 := by omega
        omega
      have next : 64 * 2 ^ k * 2 % SIZE = 64 * 2 ^ (k + 1) := by
        have bound : 2 ^ (k + 1) ≤ 2 ^ 57 := Nat.pow_le_pow_right (by omega) (by omega)
        rw [pow_succ] at bound ⊢
        have room : 64 * 2 ^ k * 2 < SIZE := by
          have : (2 : ℕ) ^ 57 * 64 < SIZE := by norm_num
          omega
        rw [Nat.mod_eq_of_lt room]
        ring
      rw [if_pos less, next]
      obtain ⟨j, top, more, ends, enough, least⟩ := ih (k + 1) (by omega) (by omega)
      refine ⟨j, top, by omega, ends, enough, .inr ?_⟩
      rcases least with rfl | least
      · rw [pow_succ]
        omega
      · exact least
    · rw [if_neg less]
      exact ⟨k, within, le_refl _, rfl, by omega, .inl rfl⟩

/-- Beyond that it does not end. -/
theorem doubled_endless {need : ℕ} (large : 2 ^ 63 < need) (fuel : ℕ) : ∀ c, (c = 0 ∨ ∃ k ≤ 57, c = 64 * 2 ^ k) →
    doubled need fuel c = .error .endless := by
  have below : ∀ c, (c = 0 ∨ ∃ k ≤ 57, c = 64 * 2 ^ k) → c < need := by
    rintro c (rfl | ⟨k, within, rfl⟩)
    · omega
    · have bound : 2 ^ k ≤ 2 ^ 57 := Nat.pow_le_pow_right (by omega) within
      have top : 64 * 2 ^ 57 = 2 ^ 63 := by norm_num
      omega
  induction fuel with
  | zero => intro c shape; rw [doubled, if_pos (below c shape)]
  | succ fuel ih =>
    intro c shape
    rw [doubled, if_pos (below c shape)]
    refine ih _ ?_
    rcases shape with rfl | ⟨k, within, rfl⟩
    · exact .inl rfl
    · by_cases last : k = 57
      · subst last
        exact .inl (by norm_num)
      · refine .inr ⟨k + 1, by omega, ?_⟩
        have bound : 2 ^ (k + 1) ≤ 2 ^ 57 := Nat.pow_le_pow_right (by omega) (by omega)
        rw [pow_succ] at bound ⊢
        have room : 64 * 2 ^ k * 2 < SIZE := by
          have : (2 : ℕ) ^ 57 * 64 < SIZE := by norm_num
          omega
        rw [Nat.mod_eq_of_lt room]
        ring

section
variable {m : Realloc} {b : buf_t} {text : Bytes}

/-- A block with room for `n` bytes and a NUL, and what it took to get it. -/
structure Reserved (b b' : buf_t) (text : Bytes) (n : ℕ) : Prop where
  len : b'.len = text.length
  block : b'.data.length = b'.cap
  content : text <+: b'.data
  size : ∃ k ≤ 57, b'.cap = 64 * 2 ^ k
  room : n + 1 ≤ b'.cap
  cost : moved b b' + b.cap ≤ b'.cap
  least : b'.cap = b.cap ∨ b'.cap ≤ max 64 (2 * (n + 1))

theorem Holds.prefix (holds : Holds b text) : text <+: b.data := by
  rcases holds.content with ⟨-, rfl⟩ | content
  · exact List.nil_prefix
  · exact (List.prefix_append _ _).trans content

theorem reserve_spec (holds : Holds b text) {n : ℕ} (room : n + 1 ≤ 2 ^ 63) :
    buf_reserve m b n = .error .abort ∨ ∃ b', buf_reserve m b n = .ok b' ∧ Reserved b b' text n := by
  have whole : (n + 1) % SIZE = n + 1 := Nat.mod_eq_of_lt (by simp only [SIZE]; omega)
  unfold buf_reserve
  rw [whole]
  by_cases enough : n + 1 ≤ b.cap
  · rw [if_pos enough]
    refine .inr ⟨b, rfl, holds.len, holds.block, holds.prefix, ?_, enough, ?_, .inl rfl⟩
    · exact holds.size.resolve_left (by omega)
    · rw [moved, if_pos rfl]
      omega
  rw [if_neg enough]
  -- The capacity it begins with is 64 or more.
  obtain ⟨k, within, start, double⟩ : ∃ k ≤ 57, (if b.cap ≠ 0 then b.cap else 64) = 64 * 2 ^ k ∧
      ((b.cap = 0 ∧ k = 0) ∨ b.cap = 64 * 2 ^ k) := by
    rcases holds.size with none | ⟨k, within, size⟩
    · exact ⟨0, by omega, by rw [if_neg (by simp [none])]; norm_num, .inl ⟨none, rfl⟩⟩
    · refine ⟨k, within, ?_, .inr size⟩
      have some : b.cap ≠ 0 := by
        rw [size]
        positivity
      rw [if_pos some, size]
  obtain ⟨j, top, more, ends, needed, least⟩ := doubled_ends room 64 k within (by omega)
  rw [start, ends]
  dsimp only
  cases call : m.call b.data (64 * 2 ^ j) with
  | none => exact .inl rfl
  | some p =>
    have larger : b.cap ≤ 64 * 2 ^ j := by omega
    have kept := m.keeps call (by rw [holds.block]; exact larger)
    refine .inr ⟨⟨p, b.len, 64 * 2 ^ j⟩, rfl, holds.len, m.size call, holds.prefix.trans kept, ⟨j, top, rfl⟩, needed, ?_, .inr ?_⟩
    · rw [moved, if_neg (by simp only; omega), holds.block]
      rcases double with ⟨none, -⟩ | size
      · omega
      · -- It was doubled once at least.
        have grown : 2 ^ (k + 1) ≤ 2 ^ j := by
          refine Nat.pow_le_pow_right (by omega) (Nat.lt_of_le_of_ne more ?_)
          rintro rfl
          omega
        rw [pow_succ] at grown
        simp only
        omega
    · simp only
      rcases least with rfl | small
      · rcases double with ⟨-, rfl⟩ | size
        · simp
        · omega
      · omega

/-- What an append leaves. -/
structure Appended (b b' : buf_t) (text : Bytes) (limit : ℕ) : Prop where
  holds : Holds b' text
  cost : moved b b' + b.cap ≤ b'.cap
  least : b'.cap ≤ max b.cap (max 64 (2 * limit))

theorem append_spec (holds : Holds b text) {s : Bytes} {n limit : ℕ} (given : n ≤ s.length) (room : text.length + n + 1 ≤ limit)
    (small : limit ≤ 2 ^ 63) : buf_append m b s n = .error .abort ∨
      ∃ b', buf_append m b s n = .ok b' ∧ Appended b b' (ReadFile.buf_append text s n) limit := by
  have sum : (b.len + n) % SIZE = text.length + n := by
    rw [holds.len]
    exact Nat.mod_eq_of_lt (by simp only [SIZE]; omega)
  have part : (s.take n).length = n := by rw [List.length_take]; omega
  unfold buf_append
  rw [sum]
  rcases reserve_spec (m := m) holds (n := text.length + n) (by omega) with aborts | ⟨b', reserves, reserved⟩
  · rw [aborts]
    exact .inl rfl
  rw [reserves]
  dsimp only
  obtain ⟨rest, data⟩ := reserved.content
  have size : rest.length + text.length = b'.cap := by
    rw [← reserved.block, ← data, List.length_append, Nat.add_comm]
  have fits := reserved.room
  have written : store b'.data b'.len (s.take n) = .ok (text ++ s.take n ++ rest.drop n) := by
    have first : b'.data.take text.length = text := by rw [← data, List.take_left]
    have last : b'.data.drop (text.length + n) = rest.drop n := by rw [← data, List.drop_append]; simp
    rw [store, part, reserved.len, reserved.block, if_pos (by omega), first, last]
  have ended : store (text ++ s.take n ++ rest.drop n) ((b'.len + n) % SIZE) [0] =
      .ok (text ++ s.take n ++ [0] ++ rest.drop (n + 1)) := by
    have here : (b'.len + n) % SIZE = (text ++ s.take n).length := by
      rw [reserved.len, ← holds.len, sum, List.length_append, part]
    have inside : (text ++ s.take n).length + 1 ≤ (text ++ s.take n ++ rest.drop n).length := by
      simp only [List.length_append, part, List.length_drop]
      omega
    rw [here, store, List.length_singleton, if_pos inside, List.take_left, List.drop_append, List.drop_eq_nil_of_le (by omega),
      List.nil_append, List.drop_drop, Nat.add_sub_cancel_left]
  rw [if_neg (by omega), written]
  dsimp only
  rw [ended, Except.map]
  refine .inr ⟨_, rfl, ⟨?_, ?_, .inr ?_, .inr ?_⟩, ?_, ?_⟩
  · simp only [reserved.len, ← holds.len, sum, ReadFile.buf_append, List.length_append, part]
  · simp only [List.length_append, part, List.length_drop, List.length_singleton]
    omega
  · exact ⟨rest.drop (n + 1), rfl⟩
  · exact reserved.size
  · exact reserved.cost
  · simp only
    have least := reserved.least
    omega

theorem reset_spec (holds : Holds b text) : ∃ b', buf_reset b = .ok b' ∧ Holds b' [] ∧ b'.cap = b.cap := by
  unfold buf_reset
  by_cases none : b.data = []
  · have size : b.cap = 0 := by rw [← holds.block, none]; rfl
    rw [if_pos none]
    exact ⟨_, rfl, ⟨rfl, holds.block, .inl ⟨size, rfl⟩, holds.size⟩, rfl⟩
  · have some : 0 + [(0 : UInt8)].length ≤ b.data.length := List.length_pos_of_ne_nil none
    rw [if_neg none, store, if_pos some]
    refine ⟨_, rfl, ⟨rfl, ?_, .inr ⟨b.data.drop 1, rfl⟩, holds.size⟩, rfl⟩
    have := List.length_pos_of_ne_nil none
    have block := holds.block
    simp only [List.take_zero, List.nil_append, List.length_append, List.length_singleton, List.length_drop, zero_add]
    omega

end

/-- Appends and resets of a buffer end with the text they stand for, or abort where there is no
    memory. Its block is no larger than twice what was needed, and what was moved to let it grow is
    less than it. -/
theorem run_spec {limit : ℕ} (small : limit ≤ 2 ^ 63) (m : Realloc) (ops : List Op) : ∀ (b : buf_t) (text : Bytes),
    Holds b text → Fits limit text ops → b.cap ≤ max 64 (2 * limit) →
    run m b ops = .error .abort ∨ ∃ b' count, run m b ops = .ok (b', count) ∧ Holds b' (textAfter text ops) ∧
      count + b.cap ≤ b'.cap ∧ b'.cap ≤ max 64 (2 * limit) := by
  induction ops with
  | nil => exact fun b text holds _ least => .inr ⟨b, 0, rfl, holds, by omega, least⟩
  | cons op ops ih =>
    intro b text holds fits least
    have next : ∀ b' text', op.run m b = .ok b' → Holds b' text' → text' = op.text text → moved b b' + b.cap ≤ b'.cap →
        b'.cap ≤ max 64 (2 * limit) → Fits limit text' ops →
        run m b (op :: ops) = .error .abort ∨ ∃ last count, run m b (op :: ops) = .ok (last, count) ∧
          Holds last (textAfter text (op :: ops)) ∧ count + b.cap ≤ last.cap ∧ last.cap ≤ max 64 (2 * limit) := by
      rintro b' text' runs holds' rfl cost least' fits'
      rw [run, runs]
      dsimp only
      rcases ih b' _ holds' fits' least' with aborts | ⟨last, count, ends, holds'', cost', least''⟩
      · rw [aborts]
        exact .inl rfl
      · rw [ends]
        exact .inr ⟨last, _, rfl, holds'', by omega, least''⟩
    cases op with
    | append s n =>
      obtain ⟨given, room, rest⟩ := fits
      rcases append_spec (m := m) holds given room small with aborts | ⟨b', appends, appended⟩
      · rw [run, Op.run, aborts]
        exact .inl rfl
      · have bound := appended.least
        exact next b' _ appends appended.holds rfl appended.cost (by omega) rest
    | reset =>
      obtain ⟨b', resets, holds', size⟩ := reset_spec holds
      exact next b' [] resets holds' rfl (by rw [moved, if_pos size, size]; omega) (by omega) fits

/-- What `strdup(b.data)` copies. -/
theorem Holds.cstr {b : buf_t} {text : Bytes} (holds : Holds b text) : cstr b.data = cstr text := by
  rcases holds.content with ⟨none, rfl⟩ | ⟨rest, data⟩
  · have empty : b.data = [] := List.length_eq_zero_iff.mp (by rw [holds.block, none])
    rw [empty]
  · rw [← data, List.append_assoc]
    refine Subtype.ext ?_
    simp only [CStrings.cstr]
    by_cases free : ∀ c ∈ text, (c != 0) = true
    · rw [List.takeWhile_append_of_pos free, List.takeWhile_eq_self_iff.mpr free]
      simp
    · rw [List.takeWhile_append, if_neg]
      intro same
      exact free (List.takeWhile_eq_self_iff.mp (List.takeWhile_prefix _ |>.eq_of_length same))

/-- A buffer that is appended to and reset, with the text that it stands for. -/
structure Stands (b : buf_t) (text : Bytes) (moved limit : ℕ) : Prop where
  holds : Holds b text
  cstr : cstr b.data = cstr text
  cost : moved ≤ b.cap
  least : b.cap ≤ max 64 (2 * limit)

/-- From a zeroed buffer, appends and resets that each need `limit` bytes at most abort where there
    is no memory, or end with a block that begins with the text and a NUL. It is no larger than
    twice what was needed, and what was moved to let it grow is no more than it holds. -/
theorem run_buffers (m : Realloc) {limit : ℕ} (small : limit ≤ 2 ^ 63) {ops : List Op} (fits : Fits limit [] ops) :
    run m zero ops = .error .abort ∨ ∃ b moved, run m zero ops = .ok (b, moved) ∧ Stands b (textAfter [] ops) moved limit := by
  rcases run_spec small m ops zero [] holds_zero fits (by simp [zero]) with aborts | ⟨b, count, ends, holds, cost, least⟩
  · exact .inl aborts
  · exact .inr ⟨b, count, ends, holds, holds.cstr, by omega, least⟩

/-- A `realloc` that clears what is new. -/
def clearing : Realloc where
  call data c := some ((data ++ List.replicate c 0).take c)
  size same := by
    rw [← Option.some.inj same, List.length_take, List.length_append, List.length_replicate]
    omega
  keeps same room := by
    rw [← Option.some.inj same, List.take_append]
    exact (List.take_of_length_le room).symm ▸ List.prefix_append _ _

theorem run_buffers_three : run clearing zero [.append (lit "ab") 2, .reset, .append (ReadFile.literal "c") 1] = .error .abort ∨
    ∃ b moved, run clearing zero [.append (lit "ab") 2, .reset, .append (ReadFile.literal "c") 1] = .ok (b, moved) ∧
      Stands b (textAfter [] [.append (lit "ab") 2, .reset, .append (ReadFile.literal "c") 1]) moved 3 :=
  run_buffers clearing (by norm_num) (by decide +kernel : Fits 3 [] [.append (lit "ab") 2, .reset, .append (ReadFile.literal "c") 1])

/-- An append that needs more than half of the address space never returns. -/
theorem append_endless (m : Realloc) {b : buf_t} {text : Bytes} (holds : Holds b text) (s : Bytes) {n : ℕ}
    (large : 2 ^ 63 < text.length + n + 1) (within : text.length + n + 1 < 2 ^ 64) : buf_append m b s n = .error .endless := by
  have sum : (b.len + n) % SIZE = text.length + n := by
    rw [holds.len]
    exact Nat.mod_eq_of_lt (by simp only [SIZE]; omega)
  have next : (text.length + n + 1) % SIZE = text.length + n + 1 := Nat.mod_eq_of_lt (by simp only [SIZE]; omega)
  have top : 64 * 2 ^ 57 = 2 ^ 63 := by norm_num
  have bound : ∀ k ≤ 57, (2 : ℕ) ^ k ≤ 2 ^ 57 := fun k within => Nat.pow_le_pow_right (by omega) within
  have full : ¬text.length + n + 1 ≤ b.cap := by
    rcases holds.size with none | ⟨k, within, size⟩
    · omega
    · have := bound k within
      omega
  have start : (if b.cap ≠ 0 then b.cap else 64) = 0 ∨ ∃ k ≤ 57, (if b.cap ≠ 0 then b.cap else 64) = 64 * 2 ^ k := by
    rcases holds.size with none | ⟨k, within, size⟩
    · exact .inr ⟨0, by omega, by rw [if_neg (by simp [none])]; norm_num⟩
    · split_ifs
      · exact .inr ⟨k, within, size⟩
      · exact .inr ⟨0, by omega, by norm_num⟩
  rw [buf_append, sum, buf_reserve, next, if_neg full, doubled_endless large 64 _ start]

theorem append_endless_zero : buf_append clearing zero [] (2 ^ 63) = .error .endless :=
  append_endless clearing holds_zero [] (by norm_num) (by norm_num)

end Sa.Buffers
