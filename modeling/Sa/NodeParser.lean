import Sa.Cursor
import Sa.JsonNodes

/-!
# The parser on the nodes

`cJSON_Parse` allocates the nodes of the tree that the text is read as, and a text that
is refused leaves nothing allocated (`parse_total`).
-/

namespace Sa.NodeParser
open Sa.CStrings Sa.Doubles Sa.NumberTexts Sa.Separation Sa.Programs Sa.Nodes Sa.Ownership Sa.Containers Sa.JsonNodes
open Sa.Parser (cj_skip_ws stringLoop isNumberChar)

section
variable (m : Allocator Addr Cell)

/-- What grows is the same allocation here. -/
def cj_parse_string_raw (s : Bytes) : C (Option (Addr × Bytes)) :=
  if s.head? = some 34 then do
    let out ← alloc m (.chars (cs ""))
    match stringLoop s.tail with
    | none =>
      dealloc out
      return none
    | some (bytes, s) =>
      store out (.chars (cstr bytes))
      return some (out, s)
  else return none

def cj_parse_string (s : Bytes) : C (Option (Addr × Bytes)) := do
  match ← cj_parse_string_raw m s with
  | none => return none
  | some (string, s) =>
    let j ← cj_new m .String
    modify j fun item => { item with valuestring := some string }
    return some (j, s)

def cj_parse_number (s : Bytes) : C (Option (Addr × Bytes)) :=
  let buf := s.takeWhile isNumberChar
  if buf = [] then return none
  else if 64 ≤ buf.length then return none
  else do
    let j ← cJSON_CreateNumber m (strtod buf)
    return some (j, s.dropWhile isNumberChar)

/-- A literal, where the text starts with it. -/
def literal (word : Bytes) (create : C Addr) (s : Bytes) (otherwise : C (Option (Addr × Bytes))) : C (Option (Addr × Bytes)) :=
  if word <+: s then do
    let j ← create
    return some (j, s.drop word.length)
  else otherwise

mutual
def cj_parse_value : ℕ → Bytes → C (Option (Addr × Bytes))
  | 0, _ => fault
  | n + 1, s =>
    match cj_skip_ws s with
    | [] => return none
    | ch :: t =>
      if ch = 34 then cj_parse_string m (ch :: t)
      else if ch = 123 then cj_parse_object n (ch :: t)
      else if ch = 91 then cj_parse_array n (ch :: t)
      else if ch = 45 || isdigit ch then cj_parse_number m (ch :: t)
      else literal (lit "true") (cJSON_CreateBool m true) (ch :: t) <|
        literal (lit "false") (cJSON_CreateBool m false) (ch :: t) <|
        literal (lit "null") (cJSON_CreateNull m) (ch :: t) <| return none
def cj_parse_array : ℕ → Bytes → C (Option (Addr × Bytes))
  | 0, _ => fault
  | n + 1, s =>
    if s.head? = some 91 then do
      let arr ← cJSON_CreateArray m
      let s := cj_skip_ws s.tail
      if s.head? = some 93 then return some (arr, s.tail) else arrayLoop n arr s
    else return none
/-- The loop of `cj_parse_array`. -/
def arrayLoop : ℕ → Addr → Bytes → C (Option (Addr × Bytes))
  | 0, _, _ => fault
  | n + 1, arr, s => do
    match ← cj_parse_value n (cj_skip_ws s) with
    | none =>
      cJSON_Delete n (some arr)
      return none
    | some (item, s) =>
      cj_append_child n arr item
      let s := cj_skip_ws s
      if s.head? = some 44 then arrayLoop n arr s.tail
      else if s.head? = some 93 then return some (arr, s.tail)
      else
        cJSON_Delete n (some arr)
        return none
def cj_parse_object : ℕ → Bytes → C (Option (Addr × Bytes))
  | 0, _ => fault
  | n + 1, s =>
    if s.head? = some 123 then do
      let obj ← cJSON_CreateObject m
      let s := cj_skip_ws s.tail
      if s.head? = some 125 then return some (obj, s.tail) else objectLoop n obj s
    else return none
/-- The loop of `cj_parse_object`. -/
def objectLoop : ℕ → Addr → Bytes → C (Option (Addr × Bytes))
  | 0, _, _ => fault
  | n + 1, obj, s => do
    match ← cj_parse_string_raw m (cj_skip_ws s) with
    | none =>
      cJSON_Delete n (some obj)
      return none
    | some (key, s) =>
      let s := cj_skip_ws s
      if s.head? = some 58 then
        match ← cj_parse_value n (cj_skip_ws s.tail) with
        | none =>
          dealloc key
          cJSON_Delete n (some obj)
          return none
        | some (v, s) =>
          modify v fun item => { item with string := some key }
          cj_append_child n obj v
          let s := cj_skip_ws s
          if s.head? = some 44 then objectLoop n obj s.tail
          else if s.head? = some 125 then return some (obj, s.tail)
          else
            cJSON_Delete n (some obj)
            return none
      else
        dealloc key
        cJSON_Delete n (some obj)
        return none
end

def cJSON_Parse (n : ℕ) (text : Bytes) : C (Option Addr) := do
  match ← cj_parse_value m n (cstr text).val with
  | none => return none
  | some (j, _) => return some j

end

section
variable {P : Bytes → Option (Tinyjson.cJSON × Bytes)} {s rest : Bytes} {c : UInt8}

theorem tail_shorter (head : s.head? = some c) : s.tail.length < s.length := by
  obtain ⟨t, rfl⟩ := List.head?_eq_some_iff.mp head
  simp

theorem head_ne (other : ∀ t, s = c :: t → False) : s.head? ≠ some c := by
  intro head
  obtain ⟨t, same⟩ := List.head?_eq_some_iff.mp head
  exact other t same

theorem string_raw_eq : Parser.cj_parse_string_raw s = if s.head? = some 34 then stringLoop s.tail else none := by
  unfold Parser.cj_parse_string_raw
  split
  · rfl
  · next other => rw [if_neg (head_ne other)]

theorem parse_array_eq : Parser.cj_parse_array P s =
    if s.head? = some 91 then
      if (cj_skip_ws s.tail).head? = some 93 then some (.array [], (cj_skip_ws s.tail).tail)
      else (Parser.arrayLoop P s.tail.length (cj_skip_ws s.tail)).map fun (items, s) => (.array items, s)
    else none := by
  unfold Parser.cj_parse_array
  split
  · next t =>
    rw [if_pos List.head?_cons]
    show _ = if (cj_skip_ws t).head? = some 93 then _ else _
    split
    · next s' same =>
      rw [same, List.head?_cons, if_pos rfl, List.tail_cons, same]
      rfl
    · next other =>
      rw [if_neg (head_ne other)]
      rfl
  · next other => rw [if_neg (head_ne other)]

theorem arrayLoop_eq {item : Tinyjson.cJSON} {fuel : ℕ} (read : P (cj_skip_ws s) = some (item, rest)) : Parser.arrayLoop P (fuel + 1) s =
    if (cj_skip_ws rest).head? = some 44 then
      (Parser.arrayLoop P fuel (cj_skip_ws rest).tail).map fun (items, s) => (item :: items, s)
    else if (cj_skip_ws rest).head? = some 93 then some ([item], (cj_skip_ws rest).tail)
    else none := by
  rw [Parser.arrayLoop, read]
  simp only
  split
  · next s' same => rw [same, List.head?_cons, if_pos rfl, List.tail_cons]
  · next s' same => rw [same, List.head?_cons, if_neg (by decide), if_pos rfl, List.tail_cons]
  · next other other' => rw [if_neg (head_ne other), if_neg (head_ne other')]

theorem parse_object_eq : Parser.cj_parse_object P s =
    if s.head? = some 123 then
      if (cj_skip_ws s.tail).head? = some 125 then some (.object [], (cj_skip_ws s.tail).tail)
      else (Parser.objectLoop P s.tail.length (cj_skip_ws s.tail)).map fun (members, s) => (.object members, s)
    else none := by
  unfold Parser.cj_parse_object
  split
  · next t =>
    rw [if_pos List.head?_cons]
    show _ = if (cj_skip_ws t).head? = some 125 then _ else _
    split
    · next s' same =>
      rw [same, List.head?_cons, if_pos rfl, List.tail_cons, same]
      rfl
    · next other =>
      rw [if_neg (head_ne other)]
      rfl
  · next other => rw [if_neg (head_ne other)]

theorem parseMember_eq {key : Bytes} (read : Parser.cj_parse_string_raw (cj_skip_ws s) = some (key, rest)) : Parser.parseMember P s =
    if (cj_skip_ws rest).head? = some 58 then
      (P (cj_skip_ws (cj_skip_ws rest).tail)).map fun (v, s) => ((cstr key, v), s)
    else none := by
  rw [Parser.parseMember, read]
  simp only
  split
  · next s' same => rw [same, List.head?_cons, if_pos rfl, List.tail_cons]
  · next other => rw [if_neg (head_ne other)]

theorem objectLoop_eq {member : CString × Tinyjson.cJSON} {fuel : ℕ} (read : Parser.parseMember P s = some (member, rest)) :
    Parser.objectLoop P (fuel + 1) s =
      if (cj_skip_ws rest).head? = some 44 then
        (Parser.objectLoop P fuel (cj_skip_ws rest).tail).map fun (members, s) => (member :: members, s)
      else if (cj_skip_ws rest).head? = some 125 then some ([member], (cj_skip_ws rest).tail)
      else none := by
  rw [Parser.objectLoop, read]
  simp only
  split
  · next s' same => rw [same, List.head?_cons, if_pos rfl, List.tail_cons]
  · next s' same => rw [same, List.head?_cons, if_neg (by decide), if_pos rfl, List.tail_cons]
  · next other other' => rw [if_neg (head_ne other), if_neg (head_ne other')]

end

/-! ### Outcomes -/

/-- What is allocated for what was read, and the text after it. -/
def outcome {α : Type} (W : Addr → α → Assertion Addr Cell) (read : Option (α × Bytes)) (r : Option (Addr × Bytes)) :
    Assertion Addr Cell :=
  match read, r with
  | none, none => 1
  | some (x, rest), some (a, rest') => fact (rest' = rest) * W a x
  | _, _ => ⊥

section
variable {α β : Type} {W : Addr → α → Assertion Addr Cell} {read : Option (α × Bytes)} {rest : Bytes} {x : α} {a : Addr}
  {R : Assertion Addr Cell} {S : β → Assertion Addr Cell}

theorem outcome_none (none : read = none) : 1 ≤ outcome W read Option.none := by
  rw [none]
  exact le_rfl

theorem outcome_some (some : read = some (x, rest)) : W a x ≤ outcome W read (Option.some (a, rest)) := by
  rw [some]
  exact le_fact_mul rfl le_rfl

theorem outcome_map {γ : Type} {g : γ × Bytes → α × Bytes} (f : γ → α) (same : ∀ x s, g (x, s) = (f x, s))
    (read : Option (γ × Bytes)) : outcome W (read.map g) = outcome (fun a x => W a (f x)) read := by
  funext r
  rcases read with _ | ⟨x, s⟩
  · cases r <;> rfl
  · rw [Option.map_some, same]
    cases r <;> rfl

/-- What goes on after reading. -/
theorem Triple.outcome {d : ℕ → Option (Addr × Bytes) → C β} (fails : read = none → Triple R (fun n => d n none) S)
    (reads : ∀ x rest a, read = some (x, rest) → Triple (W a x * R) (fun n => d n (some (a, rest))) S)
    (r : Option (Addr × Bytes)) : Triple (NodeParser.outcome W read r * R) (fun n => d n r) S := by
  rcases read with _ | ⟨x, rest⟩
  · rcases r with _ | ⟨a, rest'⟩
    · have whole := fails rfl
      rwa [← one_mul R] at whole
    · exact Triple.bot
  · rcases r with _ | ⟨a, rest'⟩
    · exact Triple.bot
    · show Triple (fact (rest' = rest) * W a x * R) _ _
      rw [mul_assoc]
      refine Triple.fact ?_
      rintro rfl
      exact reads x rest' a rfl

end

variable (m : Allocator Addr Cell)

theorem parse_string_raw_spec (s : Bytes) : Triple 1 (fun _ => cj_parse_string_raw m s)
    (outcome (fun a out => pts a (.chars (cstr out))) (Parser.cj_parse_string_raw s)) := by
  rw [string_raw_eq]
  unfold cj_parse_string_raw
  split_ifs
  · refine Triple.alloc m fun out => ?_
    cases stringLoop s.tail with
    | none => exact Triple.dealloc (Triple.pure (outcome_none rfl))
    | some r =>
      obtain ⟨bytes, rest⟩ := r
      refine Triple.store (Triple.pure ?_)
      rw [mul_one]
      exact outcome_some rfl
  · exact Triple.pure (outcome_none rfl)

/-- What is read of a tree, with its nodes. -/
abbrev parsed (read : Option (Tinyjson.cJSON × Bytes)) : Option (Addr × Bytes) → Assertion Addr Cell :=
  outcome (fun a v => json a none v) read

theorem parsed_some {read : Option (Tinyjson.cJSON × Bytes)} {v : Tinyjson.cJSON} {rest : Bytes} {a : Addr}
    (some : read = some (v, rest)) : json a none v ≤ parsed read (Option.some (a, rest)) :=
  outcome_some (W := fun a v => json a none v) some

theorem parse_string_spec (s : Bytes) : Triple 1 (fun _ => cj_parse_string m s) (parsed (Parser.cj_parse_string s)) := by
  unfold cj_parse_string Parser.cj_parse_string parsed
  rw [outcome_map (fun out => .string (cstr out)) fun _ _ => rfl, ← mul_one (1 : Assertion Addr Cell)]
  refine (parse_string_raw_spec m s).call (Triple.outcome (fun none => ?_) fun bytes rest copy read => ?_)
  · exact Triple.pure (outcome_none none)
  · refine Triple.alloc m fun j => Triple.modify (Triple.pure ?_)
    refine le_trans ?_ (outcome_some read)
    exact leaf_le_root (some (cstr bytes)) none

theorem parse_number_spec (s : Bytes) : Triple 1 (fun _ => cj_parse_number m s) (parsed (Parser.cj_parse_number s)) := by
  unfold cj_parse_number Parser.cj_parse_number
  simp only
  split_ifs
  · exact Triple.pure (outcome_none rfl)
  · exact Triple.pure (outcome_none rfl)
  · exact (createNumber_json m _).bind fun a => Triple.pure (parsed_some rfl)

theorem literal_spec {word s : Bytes} {v : Tinyjson.cJSON} {create : C Addr} {otherwise : C (Option (Addr × Bytes))}
    {read : Option (Tinyjson.cJSON × Bytes)} (created : Triple 1 (fun _ => create) fun a => json a none v)
    (other : Triple 1 (fun _ => otherwise) (parsed read)) :
    Triple 1 (fun _ => literal word create s otherwise) (parsed (Parser.literal word v s <|> read)) := by
  unfold literal Parser.literal
  split_ifs
  · exact created.bind fun a => Triple.pure (parsed_some rfl)
  · exact other

/-- What is read is not empty. -/
theorem parse_value_shorter {s r : Bytes} {v : Tinyjson.cJSON} (read : Parser.cj_parse_value s = some (v, r)) :
    r.length < s.length := by
  have enough : s.length - 0 < s.length + 1 := by omega
  obtain ⟨a, q, -, -, inside, moved, same⟩ := Cursor.parse_value_agrees (Nat.zero_le _) enough
  rw [List.drop_zero, read] at same
  cases a with
  | none => cases same
  | some a =>
    have rest : r = s.drop q := (Prod.mk.inj (Option.some.inj same)).2
    have first := moved rfl
    rw [rest, List.length_drop]
    omega

/-- A key goes to a node that has none. -/
theorem setKey_json {β : Type} {d : ℕ → Unit → C β} {S : β → Assertion Addr Cell} {R : Assertion Addr Cell} {b key : Addr}
    {k : CString} {v : Tinyjson.cJSON} (rest : Triple (json b (some k) v * R) (fun n => d n ()) S) :
    Triple (json b none v * (pts key (.chars k) * R))
      (fun n => Nodes.modify b (fun item => { item with string := some key }) >>= d n) S := by
  refine Triple.held fun item behind before above => Triple.own fun fits => ?_
  have unnamed : text item.string (dataOf none v).string ≤ 1 := by
    rw [dataOf_string]
    cases item.string with
    | none => exact le_rfl
    | some a => exact bot_le
  have named : own b { item with string := some key } (dataOf (some k) v) (kids v) ≤ json b (some k) v :=
    own_le_held behind before above
  have fits' : Fits { item with string := some key } (dataOf (some k) v) := by
    rw [dataOf_key none (some k)]
    exact ⟨fits.type, fits.valueint, fits.valuedouble, fits.is_ref, fits.child⟩
  have same : (dataOf (some k) v).valuestring = (dataOf none v).valuestring := by cases v <;> rfl
  rw [own_eq fits', dataOf_string, same] at named
  refine Triple.pre (P := pts b (.node item) * (text item.valuestring (dataOf none v).valuestring *
    (children b (owned item) (kids v) * (pts key (.chars k) * R)))) ?_ ?_
  · refine Triple.modify (rest.pre ?_)
    refine le_trans (le_of_eq ?_) (mul_le_mul_left named R)
    show _ = pts b _ * (text item.valuestring _ * (pts key (.chars k) * children b (owned item) (kids v))) * R
    ac_rfl
  · rw [own_eq fits]
    calc _ = pts b (.node item) * (text item.valuestring (dataOf none v).valuestring *
            (text item.string (dataOf none v).string * (children b (owned item) (kids v) * (pts key (.chars k) * R)))) := by ac_rfl
      _ ≤ pts b (.node item) * (text item.valuestring (dataOf none v).valuestring *
            (1 * (children b (owned item) (kids v) * (pts key (.chars k) * R)))) :=
          mul_le_mul_right (mul_le_mul_right (mul_le_mul_left unnamed _) _) _
      _ = _ := by rw [one_mul]

theorem string_raw_shorter {s r out : Bytes} (read : Parser.cj_parse_string_raw s = some (out, r)) : r.length < s.length := by
  obtain ⟨b, -, rfl, -⟩ := ParserGrammar.parse_string_raw_sound read
  simp [JsonGrammar.quoted]
  omega

theorem skip_ws_length (s : Bytes) : (cj_skip_ws s).length ≤ s.length := (List.dropWhile_sublist _).length_le

/-- A container is deleted where the text is refused. -/
theorem refuse_json {α : Type} {W : Addr → α → Assertion Addr Cell} {a : Addr} {key : Option CString} {v : Tinyjson.cJSON}
    {read : Option (α × Bytes)} (none : read = none) :
    Triple (json a key v) (fun n => cJSON_Delete n (some a) >>= fun _ => Pure.pure Option.none) (outcome W read) :=
  Triple.bind delete_held fun _ => Triple.pure (outcome_none none)

section
variable {L : ℕ} (short : ∀ s : Bytes, s.length < L → Triple 1 (fun n => cj_parse_value m n s) (parsed (Parser.cj_parse_value s)))
include short

/-- The loop with what is read after the items so far. -/
theorem arrayLoop_spec {s : Bytes} {arr : Addr} {xs : List Tinyjson.cJSON} {fuel : ℕ} (inside : s.length < L)
    (enough : s.length ≤ fuel) : Triple (json arr none (.array xs)) (fun n => arrayLoop m n arr s)
      (outcome (fun a items => json a none (.array (xs ++ items))) (Parser.arrayLoop Parser.cj_parse_value fuel s)) := by
  induction fuel generalizing s xs with
  | zero =>
    obtain rfl := List.length_eq_zero_iff.mp (Nat.le_zero.mp enough)
    refine Triple.later ?_
    simp only [arrayLoop]
    rw [← one_mul (json arr none _)]
    refine (short _ inside).call (Triple.outcome (fun none => refuse_json rfl) fun v rest item read => ?_)
    exact absurd (parse_value_shorter read) (Nat.not_lt_zero _)
  | succ fuel ih =>
    have blank := skip_ws_length s
    refine Triple.later ?_
    simp only [arrayLoop]
    rw [← one_mul (json arr none _)]
    refine (short _ (by omega)).call (Triple.outcome (fun none => ?_) fun v rest item read => ?_)
    · rw [Parser.arrayLoop, none]
      exact refuse_json rfl
    · have shorter := parse_value_shorter read
      have blank' := skip_ws_length rest
      rw [arrayLoop_eq read, mul_comm]
      refine Triple.bind addToArray_json fun _ => ?_
      split_ifs
      · next comma =>
        have consumed := tail_shorter comma
        rw [outcome_map (fun items => v :: items) fun _ _ => rfl]
        refine (ih (by omega) (by omega)).post fun r => le_of_eq ?_
        simp only [List.append_assoc, List.singleton_append]
      · exact Triple.pure (outcome_some (W := fun a items => json a none (.array (xs ++ items))) rfl)
      · exact refuse_json rfl

theorem parse_array_spec {s : Bytes} (inside : s.length ≤ L) :
    Triple 1 (fun n => cj_parse_array m n s) (parsed (Parser.cj_parse_array Parser.cj_parse_value s)) := by
  refine Triple.later ?_
  simp only [cj_parse_array]
  rw [parse_array_eq]
  by_cases opened : s.head? = some 91
  · have blank := skip_ws_length s.tail
    have consumed := tail_shorter opened
    simp only [if_pos opened]
    refine (createArray_json m).bind fun arr => ?_
    split_ifs
    · exact Triple.pure (parsed_some rfl)
    · rw [parsed, outcome_map (fun items => .array items) fun _ _ => rfl]
      exact arrayLoop_spec m short (by omega) blank
  · simp only [if_neg opened]
    exact Triple.pure (outcome_none rfl)

/-- The loop with what is read after the members so far. -/
theorem objectLoop_spec {s : Bytes} {obj : Addr} {ms : List (CString × Tinyjson.cJSON)} {fuel : ℕ} (inside : s.length < L)
    (enough : s.length ≤ fuel) : Triple (json obj none (.object ms)) (fun n => objectLoop m n obj s)
      (outcome (fun a members => json a none (.object (ms ++ members))) (Parser.objectLoop Parser.cj_parse_value fuel s)) := by
  induction fuel generalizing s ms with
  | zero =>
    obtain rfl := List.length_eq_zero_iff.mp (Nat.le_zero.mp enough)
    refine Triple.later ?_
    simp only [objectLoop]
    rw [← one_mul (json obj none _)]
    refine (parse_string_raw_spec m _).call (Triple.outcome (fun none => refuse_json rfl) fun v rest item read => ?_)
    cases read
  | succ fuel ih =>
    have blank := skip_ws_length s
    refine Triple.later ?_
    simp only [objectLoop]
    rw [← one_mul (json obj none _)]
    refine (parse_string_raw_spec m _).call (Triple.outcome (fun none => ?_) fun k rest key read => ?_)
    · rw [Parser.objectLoop, Parser.parseMember, none]
      exact refuse_json rfl
    · have shorter := string_raw_shorter read
      have blank' := skip_ws_length rest
      have member := parseMember_eq (P := Parser.cj_parse_value) read
      by_cases colon : (cj_skip_ws rest).head? = some 58
      · have consumed := tail_shorter colon
        have blank₁ := skip_ws_length (cj_skip_ws rest).tail
        simp only [if_pos colon] at member ⊢
        rw [← one_mul (pts key _ * _)]
        refine (short _ (by omega)).call (Triple.outcome (fun none => ?_) fun v s₂ b read' => ?_)
        · rw [Parser.objectLoop, member, none]
          exact Triple.dealloc (refuse_json rfl)
        · have shorter' := parse_value_shorter read'
          have blank₂ := skip_ws_length s₂
          rw [read', Option.map_some] at member
          rw [objectLoop_eq member]
          refine setKey_json ?_
          rw [mul_comm]
          refine Triple.bind appendMember_json fun _ => ?_
          split_ifs
          · next comma =>
            have consumed' := tail_shorter comma
            rw [outcome_map (fun members => (cstr k, v) :: members) fun _ _ => rfl]
            refine (ih (by omega) (by omega)).post fun r => le_of_eq ?_
            simp only [List.append_assoc, List.singleton_append]
          · exact Triple.pure (outcome_some (W := fun a members => json a none (.object (ms ++ members))) rfl)
          · exact refuse_json rfl
      · simp only [if_neg colon] at member ⊢
        rw [Parser.objectLoop, member]
        exact Triple.dealloc (refuse_json rfl)

theorem parse_object_spec {s : Bytes} (inside : s.length ≤ L) :
    Triple 1 (fun n => cj_parse_object m n s) (parsed (Parser.cj_parse_object Parser.cj_parse_value s)) := by
  refine Triple.later ?_
  simp only [cj_parse_object]
  rw [parse_object_eq]
  by_cases opened : s.head? = some 123
  · have blank := skip_ws_length s.tail
    have consumed := tail_shorter opened
    simp only [if_pos opened]
    refine (createObject_json m).bind fun obj => ?_
    split_ifs
    · exact Triple.pure (parsed_some rfl)
    · rw [parsed, outcome_map (fun members => .object members) fun _ _ => rfl]
      exact objectLoop_spec m short (by omega) blank
  · simp only [if_neg opened]
    exact Triple.pure (outcome_none rfl)

end

/-- What is allocated after parsing is the tree that was read, and nothing where the
    text is refused. -/
theorem parse_value_spec (s : Bytes) : Triple 1 (fun n => cj_parse_value m n s) (parsed (Parser.cj_parse_value s)) := by
  induction long : s.length using Nat.strong_induction_on generalizing s with
  | _ L ih =>
    subst long
    have short : ∀ t : Bytes, t.length < s.length → Triple 1 (fun n => cj_parse_value m n t) (parsed (Parser.cj_parse_value t)) :=
      fun t shorter => ih t.length shorter t rfl
    have blank := skip_ws_length s
    rw [ParserGrammar.cj_parse_value_eq, Parser.parseValue]
    refine Triple.later ?_
    simp only [cj_parse_value]
    cases visible : cj_skip_ws s with
    | nil => exact Triple.pure (outcome_none rfl)
    | cons ch t =>
      rw [visible] at blank
      simp only
      split_ifs
      · exact parse_string_spec m _
      · exact parse_object_spec m short blank
      · exact parse_array_spec m short blank
      · exact parse_number_spec m _
      · refine literal_spec (createBool_json m true) (literal_spec (createBool_json m false) ?_)
        have last : Triple 1 (fun _ => literal (lit "null") (cJSON_CreateNull m) (ch :: t) (Pure.pure none))
            (parsed (Parser.literal (lit "null") .null (ch :: t) <|> none)) :=
          literal_spec (createNull_json m) (Triple.pure (outcome_none rfl))
        simpa using last

/-- A pointer to a tree that is owned, or `NULL`. -/
def whole (v : Option Tinyjson.cJSON) (p : Option Addr) : Assertion Addr Cell :=
  match v, p with
  | none, none => 1
  | some v, some a => json a none v
  | _, _ => ⊥

/-- What goes on after a tree is made. -/
theorem Triple.whole {α : Type} {v : Option Tinyjson.cJSON} {R : Assertion Addr Cell} {d : ℕ → Option Addr → C α}
    {S : α → Assertion Addr Cell} (missing : v = none → Triple R (fun n => d n none) S)
    (made : ∀ w a, v = some w → Triple (json a none w * R) (fun n => d n (some a)) S) (p : Option Addr) :
    Triple (NodeParser.whole v p * R) (fun n => d n p) S := by
  cases v with
  | none =>
    cases p with
    | none =>
      have whole := missing rfl
      rwa [← one_mul R] at whole
    | some a => exact Triple.bot
  | some w =>
    cases p with
    | none => exact Triple.bot
    | some a => exact made w a rfl

theorem parse_total (text : Bytes) : Triple 1 (fun n => cJSON_Parse m n text) (whole (Parser.cJSON_Parse text)) := by
  unfold cJSON_Parse Parser.cJSON_Parse
  rw [← mul_one (1 : Assertion Addr Cell)]
  refine (parse_value_spec m _).call (Triple.outcome (fun none => ?_) fun v rest a read => ?_)
  · rw [none]
    exact Triple.pure le_rfl
  · rw [read, mul_one]
    exact Triple.pure le_rfl

end Sa.NodeParser
