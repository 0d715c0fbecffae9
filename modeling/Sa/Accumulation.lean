import Sa.ToolInput

/-!
# What the blocks hold

After any events a block holds what its last start names and the first bytes of
all the deltas since then (`blocks_accumulate`); events that are not about it leave
it as it is.
-/

namespace Sa.Accumulation
open Sa.CStrings Sa.NumberTexts Sa.Tinyjson Sa.Parser Sa.Stream Sa.ToolInput

/-- What an event's `content_block` names. -/
structure Start where
  type : Option CString
  id : Option CString
  name : Option CString

inductive Effect where
  | start (named : Start)
  | text (s : CString)
  | input (s : CString)

/-- The number's fraction cut off is `i`. -/
def TruncatesTo (item : Option cJSON) (i : ℤ) : Prop :=
  ∃ q, item = some (.number (.finite q)) ∧ q.val.num.tdiv q.val.den = i

/-- A start or a delta for the block. -/
def Concerns (i : Fin MAX_BLOCKS) (json_str : Bytes) : Prop :=
  ∃ evt, cJSON_Parse json_str = some evt ∧ TruncatesTo (cJSON_GetObjectItem (some evt) (cs "index")) i ∧
    (getString (some evt) "type" = some (cs "content_block_start") ∨
      getString (some evt) "type" = some (cs "content_block_delta"))

/-- What a delta adds. -/
def deltaEffect (d : Option cJSON) : Option Effect :=
  if getString d "type" = some (cs "text_delta") then (getString d "text").map .text
  else if getString d "type" = some (cs "input_json_delta") then (getString d "partial_json").map .input
  else none

/-- What an event is for the block, if it is about it. -/
def effect (i : Fin MAX_BLOCKS) (json_str : Bytes) : Option Effect :=
  (cJSON_Parse json_str).bind fun evt =>
    if blockIndex evt = some i then
      if getString (some evt) "type" = some (cs "content_block_start") then
        let cb := cJSON_GetObjectItem (some evt) (cs "content_block")
        some (.start ⟨getString cb "type", getString cb "id", getString cb "name"⟩)
      else if getString (some evt) "type" = some (cs "content_block_delta") then
        deltaEffect (cJSON_GetObjectItem (some evt) (cs "delta"))
      else none
    else none

theorem intOr_iff {item : Option cJSON} (i : Fin MAX_BLOCKS) : intOr item = i ↔ TruncatesTo item i := by
  have small : i.val < 64 := i.isLt
  unfold TruncatesTo
  cases item with
  | none => simp [intOr]
  | some v =>
    cases v with
    | number d =>
      cases d with
      | inf negative => simp [intOr, to_int]
      | finite q =>
        simp only [intOr, to_int, Option.some.injEq, cJSON.number.injEq, Doubles.Double.finite.injEq, exists_eq_left']
        split_ifs with fits
        · rfl
        · omega
    | _ => simp [intOr]

theorem blockIndex_iff {evt : cJSON} {i : Fin MAX_BLOCKS} :
    blockIndex evt = some i ↔ TruncatesTo (cJSON_GetObjectItem (some evt) (cs "index")) i := by
  have small : i.val < 64 := i.isLt
  rw [← intOr_iff, blockIndex]
  split_ifs with inside
  · rw [Option.some.injEq, Fin.ext_iff]
    show (intOr (cJSON_GetObjectItem (some evt) (cs "index"))).toNat = i.val ↔ _
    omega
  · refine iff_of_false (by simp) fun same => inside ?_
    have blocks : (MAX_BLOCKS : ℤ) = 64 := rfl
    omega

/-- What an effect does to a block. -/
def applyEffect (b : block_t) : Effect → block_t
  | .start named => ⟨field 32 named.type, field 64 named.id, field 64 named.name, emptyString, emptyString⟩
  | .text s => { b with text := appendCapped b.text s }
  | .input s => { b with partial_json := appendCapped b.partial_json s }

theorem contentBlockDelta_block (st : stream_state_t) {evt : cJSON} {i : Fin MAX_BLOCKS} (index : blockIndex evt = some i) :
    (contentBlockDelta st evt).blocks i =
      (deltaEffect (cJSON_GetObjectItem (some evt) (cs "delta"))).elim (st.blocks i) (applyEffect (st.blocks i)) := by
  unfold contentBlockDelta deltaEffect
  simp only [index]
  cases kind : getString (cJSON_GetObjectItem (some evt) (cs "delta")) "type" with
  | none => simp
  | some dt =>
    simp only [Option.some.injEq]
    by_cases text : dt = cs "text_delta"
    · rw [if_pos text, if_pos text]
      cases getString (cJSON_GetObjectItem (some evt) (cs "delta")) "text" with
      | none => rfl
      | some txt => simp [applyEffect]
    rw [if_neg text, if_neg text]
    by_cases input : dt = cs "input_json_delta"
    · rw [if_pos input, if_pos input]
      cases getString (cJSON_GetObjectItem (some evt) (cs "delta")) "partial_json" with
      | none => rfl
      | some pj => simp [applyEffect]
    · rw [if_neg input, if_neg input]
      rfl

theorem contentBlockDelta_other (st : stream_state_t) {evt : cJSON} {i : Fin MAX_BLOCKS} (other : blockIndex evt ≠ some i) :
    (contentBlockDelta st evt).blocks i = st.blocks i := by
  rcases contentBlockDelta_cases st evt with same | ⟨idx, b, index, -, set⟩
  · rw [same]
  · have apart : i ≠ idx := by
      rintro rfl
      exact other index
    rw [set, setBlock_of_ne apart]

/-- An event does to a block what it is for the block. -/
theorem handle_event_effect (st : stream_state_t) (json_str : Bytes) (i : Fin MAX_BLOCKS) :
    (handle_event st json_str).blocks i = (effect i json_str).elim (st.blocks i) (applyEffect (st.blocks i)) := by
  unfold handle_event effect
  cases cJSON_Parse json_str with
  | none => rfl
  | some evt =>
    simp only [Option.bind_some]
    cases kind : getString (some evt) "type" with
    | none => simp
    | some t =>
      simp only [Option.some.injEq]
      by_cases start : t = cs "content_block_start"
      · simp only [if_pos start]
        by_cases index : blockIndex evt = some i
        · simp [contentBlockStart, index, applyEffect]
        · rw [if_neg index, contentBlockStart_blocks index]
          rfl
      simp only [if_neg start]
      by_cases delta : t = cs "content_block_delta"
      · simp only [if_pos delta]
        by_cases index : blockIndex evt = some i
        · rw [if_pos index, contentBlockDelta_block st index]
        · rw [if_neg index, contentBlockDelta_other st index]
          rfl
      simp only [if_neg delta]
      have kept : (messageDelta st evt).blocks i = st.blocks i := by
        unfold messageDelta
        split <;> rfl
      split_ifs <;> first | exact kept | rfl

theorem effect_unconcerned {i : Fin MAX_BLOCKS} {json_str : Bytes} (other : ¬Concerns i json_str) : effect i json_str = none := by
  unfold effect
  cases parsed : cJSON_Parse json_str with
  | none => rfl
  | some evt =>
    rw [Option.bind_some]
    by_cases index : blockIndex evt = some i
    · rw [if_pos index, if_neg, if_neg]
      · exact fun delta => other ⟨evt, parsed, blockIndex_iff.mp index, .inr delta⟩
      · exact fun start => other ⟨evt, parsed, blockIndex_iff.mp index, .inl start⟩
    · rw [if_neg index]

def Effect.named : Effect → Option Start
  | .start named => some named
  | _ => none

/-- The effects after the last start, or all of them. -/
def sinceStart (effects : List Effect) : List Effect := (effects.reverse.takeWhile fun e => e.named.isNone).reverse

def lastStart (effects : List Effect) : Option Start := effects.reverse.findSome? Effect.named

def texts (effects : List Effect) : Bytes :=
  effects.flatMap fun e => match e with
    | .text s => s.val
    | _ => []

def inputs (effects : List Effect) : Bytes :=
  effects.flatMap fun e => match e with
    | .input s => s.val
    | _ => []

/-- At most `size` bytes of a string that may be absent. -/
def cutTo (size : ℕ) (s : Option CString) : Bytes := ((s.map Subtype.val).getD []).take size

/-- The block holds what the effects on it add up to. -/
structure Accumulated (b : block_t) (effects : List Effect) : Prop where
  type : b.type.val = cutTo 31 ((lastStart effects).bind Start.type)
  id : b.id.val = cutTo 63 ((lastStart effects).bind Start.id)
  name : b.name.val = cutTo 63 ((lastStart effects).bind Start.name)
  text : b.text.val = (texts (sinceStart effects)).take MAX_BLOCK_SIZE
  partial_json : b.partial_json.val = (inputs (sinceStart effects)).take MAX_BLOCK_SIZE

theorem sinceStart_start (effects : List Effect) (named : Start) : sinceStart (effects ++ [.start named]) = [] := by
  simp [sinceStart, Effect.named]

theorem sinceStart_snoc (effects : List Effect) {e : Effect} (delta : e.named = none) :
    sinceStart (effects ++ [e]) = sinceStart effects ++ [e] := by
  simp [sinceStart, delta]

theorem lastStart_start (effects : List Effect) (named : Start) : lastStart (effects ++ [.start named]) = some named := by
  simp only [lastStart, List.reverse_append, List.reverse_singleton, List.singleton_append, List.findSome?_cons, Effect.named]

theorem lastStart_snoc (effects : List Effect) {e : Effect} (delta : e.named = none) :
    lastStart (effects ++ [e]) = lastStart effects := by
  simp [lastStart, delta]

theorem field_val (size : ℕ) (s : Option CString) : (field (size + 1) s).val = cutTo size s := by
  cases s with
  | none => simp [field, cutTo, emptyString]
  | some s => simp [field, cutTo, strncpy]

/-- Under the cap, one prefix after the other is one prefix of the whole. -/
theorem appendCapped_take {buf : CString} {whole : Bytes} (same : buf.val = whole.take MAX_BLOCK_SIZE) (s : CString) :
    (appendCapped buf s).val = (whole ++ s.val).take MAX_BLOCK_SIZE := by
  have size := congrArg List.length same
  rw [List.length_take] at size
  rw [List.take_append, ← same]
  unfold appendCapped
  split_ifs with room
  · have all : buf.val.length = whole.length := by omega
    rw [← all]
  · have full : MAX_BLOCK_SIZE - whole.length = 0 := by omega
    rw [full, List.take_zero, List.append_nil]

/-- A delta changes a buffer and nothing else. -/
theorem accumulated_delta {b b' : block_t} {effects : List Effect} (held : Accumulated b effects) {e : Effect}
    (delta : e.named = none) (same : b'.type = b.type ∧ b'.id = b.id ∧ b'.name = b.name)
    (text : b'.text.val = (texts (sinceStart effects) ++ texts [e]).take MAX_BLOCK_SIZE)
    (input : b'.partial_json.val = (inputs (sinceStart effects) ++ inputs [e]).take MAX_BLOCK_SIZE) :
    Accumulated b' (effects ++ [e]) := by
  obtain ⟨type, id, name⟩ := same
  have texts_append : texts (sinceStart effects ++ [e]) = texts (sinceStart effects) ++ texts [e] := List.flatMap_append
  have inputs_append : inputs (sinceStart effects ++ [e]) = inputs (sinceStart effects) ++ inputs [e] := List.flatMap_append
  constructor
  · rw [lastStart_snoc effects delta, type]
    exact held.type
  · rw [lastStart_snoc effects delta, id]
    exact held.id
  · rw [lastStart_snoc effects delta, name]
    exact held.name
  · rw [sinceStart_snoc effects delta, texts_append]
    exact text
  · rw [sinceStart_snoc effects delta, inputs_append]
    exact input

theorem accumulated_apply {b : block_t} {effects : List Effect} (held : Accumulated b effects) (e : Effect) :
    Accumulated (applyEffect b e) (effects ++ [e]) := by
  cases e with
  | start named =>
    constructor
    · rw [lastStart_start]
      exact field_val 31 named.type
    · rw [lastStart_start]
      exact field_val 63 named.id
    · rw [lastStart_start]
      exact field_val 63 named.name
    · rw [sinceStart_start]
      rfl
    · rw [sinceStart_start]
      rfl
  | text s =>
    refine accumulated_delta held rfl ⟨rfl, rfl, rfl⟩ ?_ ?_
    · simpa [applyEffect, texts] using appendCapped_take held.text s
    · simpa [applyEffect, inputs] using held.partial_json
  | input s =>
    refine accumulated_delta held rfl ⟨rfl, rfl, rfl⟩ ?_ ?_
    · simpa [applyEffect, texts] using held.text
    · simpa [applyEffect, inputs] using appendCapped_take held.partial_json s

theorem events_accumulate (events : List Bytes) (i : Fin MAX_BLOCKS) :
    Accumulated ((events.foldl handle_event initial).blocks i) (events.filterMap (effect i)) := by
  induction events using List.reverseRecOn with
  | nil => constructor <;> rfl
  | append_singleton events e ih =>
    rw [List.foldl_append, List.foldl_cons, List.foldl_nil, handle_event_effect, List.filterMap_append]
    cases changed : effect i e with
    | none => simpa [changed] using ih
    | some done => simpa [changed] using accumulated_apply ih done

/-- The block was started by one of the events. -/
def Started (events : List Bytes) (i : Fin MAX_BLOCKS) : Prop := ∃ e ∈ events, StartsBlock i e

theorem handle_event_n (st : stream_state_t) (json_str : Bytes) :
    (∃ i, (∀ j, StartsBlock j json_str ↔ j = i) ∧ (handle_event st json_str).n.val = max st.n.val (i.val + 1)) ∨
      (∀ j, ¬StartsBlock j json_str) ∧ (handle_event st json_str).n = st.n := by
  unfold handle_event StartsBlock
  cases cJSON_Parse json_str with
  | none => exact .inr ⟨by simp, rfl⟩
  | some evt =>
    cases kind : getString (some evt) "type" with
    | none => exact .inr ⟨by simp [kind], by simp only [kind]⟩
    | some t =>
      by_cases start : t = cs "content_block_start"
      · subst start
        simp only [kind, if_true]
        cases index : blockIndex evt with
        | none => exact .inr ⟨by simp [index], by simp only [contentBlockStart, index]⟩
        | some idx =>
          refine .inl ⟨idx, fun j => ⟨?_, ?_⟩, ?_⟩
          · rintro ⟨evt', same, -, here⟩
            cases same
            rw [index] at here
            exact (Option.some.inj here).symm
          · rintro rfl
            exact ⟨evt, rfl, kind, index⟩
          · simp only [contentBlockStart, index]
            split_ifs with fewer
            · rw [Fin.val_succ]
              omega
            · omega
      right
      refine ⟨?_, ?_⟩
      · rintro j ⟨evt', same, started, -⟩
        cases same
        rw [kind] at started
        exact start (Option.some.inj started)
      simp only [kind, if_neg start]
      split_ifs
      · rcases contentBlockDelta_cases st evt with same | ⟨idx, b, -, -, set⟩
        · rw [same]
        · rw [set]
          rfl
      · unfold messageDelta
        split <;> rfl
      · rfl

theorem events_count (events : List Bytes) :
    ((events.foldl handle_event initial).n.val = 0 ∧ ∀ i, ¬Started events i) ∨
      ∃ i, Started events i ∧ (events.foldl handle_event initial).n.val = i.val + 1 ∧ ∀ j, Started events j → j ≤ i := by
  induction events using List.reverseRecOn with
  | nil => exact .inl ⟨rfl, by simp [Started]⟩
  | append_singleton events e ih =>
    have later : ∀ i, Started (events ++ [e]) i ↔ Started events i ∨ StartsBlock i e := by
      intro i
      simp [Started, or_and_right, exists_or]
    rw [List.foldl_append, List.foldl_cons, List.foldl_nil]
    rcases handle_event_n (events.foldl handle_event initial) e with ⟨idx, starts, count⟩ | ⟨none, same⟩
    · right
      rcases ih with ⟨zero, unstarted⟩ | ⟨i, started, n, largest⟩
      · refine ⟨idx, (later idx).mpr (.inr ((starts idx).mpr rfl)), by omega, fun j before => ?_⟩
        rcases (later j).mp before with earlier | now
        · exact absurd earlier (unstarted j)
        · exact le_of_eq ((starts j).mp now)
      · by_cases further : idx ≤ i
        · refine ⟨i, (later i).mpr (.inl started), ?_, fun j before => ?_⟩
          · have bound : idx.val ≤ i.val := further
            omega
          · rcases (later j).mp before with earlier | now
            · exact largest j earlier
            · rwa [(starts j).mp now]
        · refine ⟨idx, (later idx).mpr (.inr ((starts idx).mpr rfl)), ?_, fun j before => ?_⟩
          · have bound : i.val < idx.val := not_le.mp further
            omega
          · rcases (later j).mp before with earlier | now
            · exact (largest j earlier).trans (le_of_lt (not_le.mp further))
            · exact le_of_eq ((starts j).mp now)
    · rw [same]
      have unchanged : ∀ i, Started (events ++ [e]) i ↔ Started events i := fun i => by simp [later, none]
      simpa [unchanged] using ih

/-- After any events: the number of blocks is one more than the largest index that
    was started; each block holds what the effects on it add up to; and an event
    that has no effect on a block, as one that is not about it, leaves it as it is.
    An event is about the block that its index truncates to. -/
theorem blocks_accumulate (events : List Bytes) :
    let st := events.foldl handle_event initial
    (((st.n.val = 0 ∧ ∀ i, ¬Started events i) ∨
        ∃ i, Started events i ∧ st.n.val = i.val + 1 ∧ ∀ j, Started events j → j ≤ i) ∧ st.n.val ≤ MAX_BLOCKS) ∧
      (∀ i, Accumulated (st.blocks i) (events.filterMap (effect i))) ∧
      (∀ st e i, effect i e = none → (handle_event st e).blocks i = st.blocks i) ∧
      (∀ e i, ¬Concerns i e → effect i e = none) ∧
      ∀ evt i, blockIndex evt = some i ↔ TruncatesTo (cJSON_GetObjectItem (some evt) (cs "index")) i := by
  refine ⟨⟨events_count events, Nat.le_of_lt_succ (Fin.isLt _)⟩, events_accumulate events, ?_, ?_, fun _ _ => blockIndex_iff⟩
  · intro st e i nothing
    rw [handle_event_effect, nothing]
    rfl
  · exact fun e i => effect_unconcerned

end Sa.Accumulation
