import Sa.NodeReading

/-!
# Nodes inside trees

The node that an accessor returns, and what is around it: what goes in its place goes
into the tree.
-/

namespace Sa.NodeFocus
open Sa.CStrings Sa.Doubles Sa.NumberTexts Sa.Separation Sa.Programs Sa.Nodes Sa.Ownership Sa.Containers Sa.JsonNodes
open Sa.NodeReading

/-- What an accessor returned: the node of the part `v` with all around it, or `NULL`. -/
def focus (whole : Assertion Addr Cell) (v : Option Tinyjson.cJSON) (outer : Tinyjson.cJSON → Assertion Addr Cell)
    (r : Option Addr) : Assertion Addr Cell :=
  match v, r with
  | none, none => whole
  | some v, some a => within a v outer
  | _, _ => ⊥

section
variable {α β : Type} {whole P R : Assertion Addr Cell} {v : Option Tinyjson.cJSON} {outer : Tinyjson.cJSON → Assertion Addr Cell}
  {S : β → Assertion Addr Cell} {parent prev first last after : Option Addr} {a : Addr} {d : Data} {f g below : Forest}
  {h : Memory}

/-- What goes on after an access. -/
theorem Triple.focus {d : ℕ → Option Addr → C β} (missing : v = none → Triple (whole * R) (fun n => d n none) S)
    (found : ∀ w t a, v = some w → Triple (placed t a w * (hole (placed t a) outer * R)) (fun n => d n (some a)) S)
    (r : Option Addr) : Triple (NodeFocus.focus whole v outer r * R) (fun n => d n r) S := by
  rcases v with _ | w
  · rcases r with _ | a
    · exact missing rfl
    · exact Triple.bot
  · rcases r with _ | a
    · exact Triple.bot
    · show Triple (within a w outer * R) _ _
      rw [within, iSup_mul]
      refine Triple.iSup fun t => ?_
      rw [mul_assoc]
      exact found w t a rfl

/-- What is read of a tree that is owned. -/
theorem Triple.observe {c : ℕ → C α} {x : α} {t : Spot} {v : Tinyjson.cJSON} (reads : ∀ h, Means h a v → Reads h c x) :
    Triple (placed t a v) c fun y => fact (y = x) * placed t a v :=
  Triple.reads fun _ h holds => ⟨x, reads h (json_refers holds), rfl⟩

theorem itemLoop_beyond {i : ℕ} (shown : Shown h first f none) (beyond : size f ≤ i) : Reads h (fun _ => itemLoop i first) none := by
  induction f generalizing i first with
  | nil =>
    obtain rfl : first = none := shown
    simp only [itemLoop_none]
    exact Reads.pure
  | cons d below f _ ih =>
    obtain ⟨a, item, rfl, looks, -, rest⟩ := shown
    rw [size] at beyond
    obtain ⟨i, rfl⟩ : ∃ j, i = j + 1 := ⟨i - 1, by omega⟩
    exact Reads.bind (reads_node looks.node) (ih rest (by omega))

/-- The node behind as many as the index says, between the others. -/
theorem itemLoop_segment : Triple (segment parent prev first (f ++ .cons d below g) last none) (fun _ => itemLoop (size f) first)
    fun r => ⨆ (a : Addr) (p : Option Addr) (next : Option Addr), fact (r = some a) * (segment parent prev first f p (some a) *
      (held a next p parent d below * segment parent (some a) next g last none)) := by
  induction f generalizing prev first with
  | nil =>
    rw [Forest.nil_append, segment_cons]
    refine Triple.iSup fun a => Triple.iSup fun next => Triple.fact ?_
    rintro rfl
    refine Triple.pure (le_iSup₂_of_le a prev (le_iSup_of_le next (le_fact_mul rfl ?_)))
    rw [segment_nil]
    exact le_fact_mul ⟨rfl, rfl⟩ le_rfl
  | cons e under f _ ih =>
    rw [Forest.cons_append, segment_cons]
    refine Triple.iSup fun a => Triple.iSup fun next => Triple.fact ?_
    rintro rfl
    refine Triple.held fun item behind before above => Triple.node_own ?_
    rw [behind, mul_comm]
    refine (ih.frame _).post fun r => ?_
    simp only [iSup_mul]
    refine iSup₂_le fun b p => iSup_le fun next' => ?_
    rw [mul_assoc]
    refine fact_mul_le fun found => le_iSup₂_of_le b p (le_iSup_of_le next' (le_fact_mul found ?_))
    rw [segment_cons]
    simp only [iSup_mul]
    have back : own a item e under ≤ held a next prev parent e under := own_le_held behind before above
    refine le_iSup₂_of_le a next ?_
    rw [mul_assoc (fact _)]
    refine le_fact_mul rfl ?_
    calc _ ≤ segment parent (some a) next f p (some b) * (held b next' p parent d below * segment parent (some b) next' g last none) *
            held a next prev parent e under := mul_le_mul_right back _
      _ = _ := by ac_rfl

theorem children_shown {p : Option Addr} (plain : Plain f) (holds : h ∈ children a p f * R) : Shown h p f none := by
  rw [children, iSup_mul] at holds
  obtain ⟨l, holds⟩ := Set.mem_iUnion.mp holds
  exact segment_shown holds (displays_plain h plain)

theorem size_items (xs : List Tinyjson.cJSON) : size (items xs) = xs.length := by
  induction xs with
  | nil => rfl
  | cons x xs ih => rw [items, size, ih, List.length_cons]

theorem itemLoop_at {xs : List Tinyjson.cJSON} {i : ℕ} (inside : i < xs.length) :
    Triple (segment parent prev first (items (xs.take i) ++ .cons d below g) last none) (fun _ => itemLoop i first)
      fun r => ⨆ (a : Addr) (p : Option Addr) (next : Option Addr), fact (r = some a) *
        (segment parent prev first (items (xs.take i)) p (some a) *
          (held a next p parent d below * segment parent (some a) next g last none)) := by
  have loop : Triple (segment parent prev first (items (xs.take i) ++ .cons d below g) last none)
      (fun _ => itemLoop (size (items (xs.take i))) first) _ := itemLoop_segment
  rwa [size_items, List.length_take, min_eq_left inside.le] at loop

/-- A child that a loop over the children finds. -/
theorem focus_child {c : ℕ → Option Addr → C (Option Addr)} {t : Spot} {k : Option CString} {x : Tinyjson.cJSON}
    {outer : Tinyjson.cJSON → Tinyjson.cJSON} {W : Assertion Addr Cell} (data : ∀ w, dataOf t.key (outer w) = dataOf t.key (outer x))
    (parts : ∀ w, kids (outer w) = f ++ .cons (dataOf k w) (kids w) g)
    (loop : ∀ first l, Triple (segment (some a) none first (f ++ .cons (dataOf k x) (kids x) g) l none) (fun n => c n first)
      fun r => ⨆ (b : Addr) (p : Option Addr) (next : Option Addr), fact (r = some b) * (segment (some a) none first f p (some b) *
        (held b next p (some a) (dataOf k x) (kids x) * segment (some a) (some b) next g l none))) :
    Triple (placed t a (outer x)) (fun n => node a >>= fun root => c n root.child)
      (focus W (some x) fun w => placed t a (outer w)) := by
  rw [← mul_one (placed t a _)]
  refine held_children (dataOf_ref _ _) fun item behind before above fits => ?_
  refine Triple.node (Triple.pre (P := children a item.child (kids (outer x)) * (pts a (.node item) *
    (text item.valuestring (dataOf t.key (outer x)).valuestring * text item.string (dataOf t.key (outer x)).string))) ?_
    (le_of_eq (by rw [mul_one, mul_left_comm])))
  generalize strings : pts a (.node item) * (text item.valuestring _ * text item.string _) = top
  have close (w : Tinyjson.cJSON) : children a item.child (kids (outer w)) * top ≤ placed t a (outer w) := by
    rw [← strings, mul_left_comm, placed, ← behind, ← before, ← above, data w]
    exact children_held (dataOf_ref _ _) fits
  rw [children, parts, iSup_mul]
  refine Triple.iSup fun l => ((loop item.child l).frame top).post fun r => ?_
  simp only [iSup_mul]
  refine iSup₂_le fun b p => iSup_le fun next => ?_
  rw [mul_assoc]
  refine fact_mul_le ?_
  rintro rfl
  refine le_iSup_of_le (⟨next, p, some a, k⟩ : Spot) ?_
  have around : segment (some a) none item.child f p (some b) * segment (some a) (some b) next g l none * top ≤
      hole (placed ⟨next, p, some a, k⟩ b) fun w => placed t a (outer w) := by
    refine le_hole.mpr fun w => le_trans ?_ (close w)
    have between : segment (some a) none item.child f p (some b) * (placed ⟨next, p, some a, k⟩ b w *
        segment (some a) (some b) next g l none) ≤ children a item.child (kids (outer w)) := by
      rw [parts]
      exact segment_between.trans (le_iSup_of_le l le_rfl)
    refine le_trans (le_of_eq ?_) (mul_le_mul_left between top)
    ac_rfl
  refine le_trans (le_of_eq ?_) (mul_le_mul_right around _)
  ac_rfl

theorem getArrayItem_spec {t : Spot} {xs : List Tinyjson.cJSON} (i : ℕ) :
    Triple (placed t a (.array xs)) (fun _ => cJSON_GetArrayItem (some a) i)
      (focus (placed t a (.array xs)) xs[i]? fun w => placed t a (.array (xs.set i w))) := by
  cases at_index : xs[i]? with
  | none =>
    have beyond : size (items xs) ≤ i := by
      rw [size_items]
      exact List.getElem?_eq_none_iff.mp at_index
    have missing : Triple (placed t a (.array xs)) (fun _ => cJSON_GetArrayItem (some a) i)
        fun r => fact (r = none) * placed t a (.array xs) := by
      refine Triple.reads fun F h holds => ⟨none, ?_, rfl⟩
      obtain ⟨k, item, looks, shown⟩ := json_refers holds
      exact Reads.bind (reads_node looks.node) (itemLoop_beyond shown beyond)
    refine missing.post fun r => fact_mul_le ?_
    rintro rfl
    exact le_rfl
  | some v =>
    obtain ⟨inside, rfl⟩ := List.getElem?_eq_some_iff.mp at_index
    have parts (w : Tinyjson.cJSON) : kids (.array (xs.set i w)) =
        items (xs.take i) ++ .cons (dataOf none w) (kids w) (items (xs.drop (i + 1))) := by
      rw [List.set_eq_take_append_cons_drop, if_pos inside, kids, items_append, items]
    have found := focus_child (c := fun _ first => itemLoop i first) (a := a) (t := t) (x := xs[i])
      (W := placed t a (.array xs)) (fun w => rfl) parts fun first l => itemLoop_at inside
    rwa [List.set_getElem_self] at found

/-- The first member with this key gets another value. -/
def putMember (key : CString) (w : Tinyjson.cJSON) : List (CString × Tinyjson.cJSON) → List (CString × Tinyjson.cJSON)
  | [] => []
  | m :: ms => if m.1 = key then (m.1, w) :: ms else m :: putMember key w ms

def putItem (key : CString) (w : Tinyjson.cJSON) : Tinyjson.cJSON → Tinyjson.cJSON
  | .object ms => .object (putMember key w ms)
  | v => v

theorem putMember_split {key : CString} {v : Tinyjson.cJSON} {ys zs : List (CString × Tinyjson.cJSON)} (others : ∀ y ∈ ys, y.1 ≠ key)
    (w : Tinyjson.cJSON) : putMember key w (ys ++ (key, v) :: zs) = ys ++ (key, w) :: zs := by
  induction ys with
  | nil => simp [putMember]
  | cons y ys ih => simp [putMember, others y (by simp), ih fun z member => others z (by simp [member])]

theorem putItem_split {key : CString} {w : Tinyjson.cJSON} {v : Tinyjson.cJSON}
    (found : Tinyjson.cJSON_GetObjectItem (some v) key = some w) :
    ∃ ys zs, (∀ y ∈ ys, y.1 ≠ key) ∧ v = .object (ys ++ (key, w) :: zs) ∧ ∀ x, putItem key x v = .object (ys ++ (key, x) :: zs) := by
  obtain ⟨ms, rfl⟩ : ∃ ms, v = .object ms := by
    cases v <;> first | exact ⟨_, rfl⟩ | cases found
  obtain ⟨m, first, rfl⟩ := Option.map_eq_some_iff.mp found
  obtain ⟨same, ys, zs, rfl, others⟩ := List.find?_eq_some_iff_append.mp first
  obtain rfl : m.1 = key := by simpa using same
  have before : ∀ y ∈ ys, y.1 ≠ m.1 := fun y member => by simpa using others y member
  exact ⟨ys, zs, before, rfl, fun x => by rw [putItem, putMember_split before]⟩

theorem putItem_self {key : CString} {w v : Tinyjson.cJSON} (found : Tinyjson.cJSON_GetObjectItem (some v) key = some w) :
    putItem key w v = v := by
  obtain ⟨ys, zs, -, same, put⟩ := putItem_split found
  rw [put, same]

theorem keyIs_spec {item : Nodes.cJSON} (key : CString) : Triple (own a item d below * R) (fun _ => keyIs item key)
    fun b => fact (b = (d.string == some key)) * (own a item d below * R) :=
  Triple.reads fun F h holds => ⟨_, keyIs_reads (own_shown (by rwa [mul_assoc] at holds)).1, rfl⟩

/-- The node with the key, between the others. -/
theorem findKey_segment {key : CString} {v : Tinyjson.cJSON} {ys : List (CString × Tinyjson.cJSON)} (others : ∀ y ∈ ys, y.1 ≠ key) :
    Triple (segment parent prev first (members ys ++ .cons (dataOf (some key) v) below g) last none) (fun n => findKey key n first)
      fun r => ⨆ (a : Addr) (p : Option Addr) (next : Option Addr), fact (r = some a) * (segment parent prev first (members ys) p (some a) *
        (held a next p parent (dataOf (some key) v) below * segment parent (some a) next g last none)) := by
  induction ys generalizing prev first with
  | nil =>
    rw [members, Forest.nil_append, segment_cons]
    refine Triple.iSup fun a => Triple.iSup fun next => Triple.fact ?_
    rintro rfl
    refine Triple.held fun item behind before above => Triple.later (Triple.node_own ?_)
    refine Triple.bind (keyIs_spec key) fun b => Triple.fact ?_
    rintro rfl
    simp only [dataOf_string, beq_self_eq_true, if_true]
    have back : own a item (dataOf (some key) v) below ≤ held a next prev parent (dataOf (some key) v) below :=
      own_le_held behind before above
    refine Triple.pure (le_iSup₂_of_le a prev (le_iSup_of_le next (le_fact_mul rfl ?_)))
    rw [segment_nil]
    exact le_fact_mul ⟨rfl, rfl⟩ (mul_le_mul_left back _)
  | cons y ys ih =>
    obtain ⟨k, x⟩ := y
    have other : ((dataOf (some k) x).string == some key) = false := by
      rw [dataOf_string]
      exact beq_eq_false_iff_ne.mpr fun equal => others (k, x) (by simp) (Option.some.inj equal)
    rw [members, Forest.cons_append, segment_cons]
    refine Triple.iSup fun a => Triple.iSup fun next => Triple.fact ?_
    rintro rfl
    refine Triple.held fun item behind before above => Triple.later (Triple.node_own ?_)
    refine Triple.bind (keyIs_spec key) fun b => Triple.fact ?_
    rintro rfl
    rw [other, behind, mul_comm]
    refine ((ih fun y member => others y (by simp [member])).frame _).post fun r => ?_
    simp only [iSup_mul]
    refine iSup₂_le fun b p => iSup_le fun next' => ?_
    rw [mul_assoc]
    refine fact_mul_le fun found => le_iSup₂_of_le b p (le_iSup_of_le next' (le_fact_mul found ?_))
    rw [segment_cons]
    simp only [iSup_mul]
    have back : own a item (dataOf (some k) x) (kids x) ≤ held a next prev parent (dataOf (some k) x) (kids x) :=
      own_le_held behind before above
    refine le_iSup₂_of_le a next ?_
    rw [mul_assoc (fact _)]
    refine le_fact_mul rfl ?_
    calc _ ≤ segment parent (some a) next (members ys) p (some b) * (held b next' p parent (dataOf (some key) v) below *
            segment parent (some b) next' g last none) * held a next prev parent (dataOf (some k) x) (kids x) :=
          mul_le_mul_right back _
      _ = _ := by ac_rfl

theorem getObjectItem_spec {t : Spot} {v : Tinyjson.cJSON} (key : CString) :
    Triple (placed t a v) (fun n => cJSON_GetObjectItem n (some a) key)
      (focus (placed t a v) (Tinyjson.cJSON_GetObjectItem (some v) key) fun w => placed t a (putItem key w v)) := by
  cases at_key : Tinyjson.cJSON_GetObjectItem (some v) key with
  | none =>
    have missing : Triple (placed t a v) (fun n => cJSON_GetObjectItem n (some a) key) fun r => fact (r = none) * placed t a v := by
      refine Triple.reads fun F h holds => ?_
      obtain ⟨q, reads, refers⟩ := getObjectItem_reads (json_refers holds) key
      rw [at_key] at refers
      cases q with
      | none => exact ⟨none, reads, rfl⟩
      | some q => exact refers.elim
    refine missing.post fun r => fact_mul_le ?_
    rintro rfl
    exact le_rfl
  | some w' =>
    obtain ⟨ys, zs, others, -, put⟩ := putItem_split at_key
    have parts (w : Tinyjson.cJSON) : kids (putItem key w v) = members ys ++ .cons (dataOf (some key) w) (kids w) (members zs) := by
      rw [put, kids, members_append, members]
    have found := focus_child (c := fun n first => findKey key n first) (a := a) (t := t) (x := w') (W := placed t a v)
      (fun w => by rw [put, put]; rfl) parts fun first l => findKey_segment others
    rwa [putItem_self at_key] at found

theorem setValuestring_spec (m : Allocator Addr Cell) {t : Spot} {s w : CString} :
    Triple (placed t a (.string s)) (fun _ => cJSON_SetValuestring m (some a) w) fun _ => placed t a (.string w) := by
  rw [← mul_one (placed t a (.string s))]
  refine Triple.held fun item behind before above => Triple.node_own (Triple.own fun fits => ?_)
  have type : item.type = .String := fits.type
  simp only [if_pos type]
  refine Triple.pre (P := text item.valuestring (some s) * (pts a (.node item) * (text item.string t.key *
    children a (owned item) .nil))) ?_ (le_of_eq ?_)
  · refine (free_text _ _).call fun _ => ?_
    rw [one_mul]
    refine Triple.alloc m fun copy => ?_
    rw [mul_left_comm]
    refine Triple.modify (Triple.pure ?_)
    have fits' : Fits { item with valuestring := some copy } (dataOf t.key (.string w)) :=
      ⟨fits.type, fits.valueint, fits.valuedouble, fits.is_ref, fits.child⟩
    have back : own a { item with valuestring := some copy } (dataOf t.key (.string w)) .nil ≤ placed t a (.string w) :=
      own_le_held behind before above
    rwa [own_eq fits'] at back
  · rw [own_eq fits, mul_one]
    show pts a _ * (text item.valuestring (some s) * (text item.string t.key * children a (owned item) .nil)) = _
    ac_rfl

section
variable {b : Addr} {next p new : Option Addr} {top : Nodes.cJSON} {k : ℕ → Unit → C α} {S : α → Assertion Addr Cell}

/-- What is before a node is linked to another one. -/
theorem unlink_before (rest : ∀ child, Triple (pts a (.node { top with child := child }) *
      (segment (some a) none child f p new * R)) (fun n => k n ()) S) :
    Triple (pts a (.node top) * (segment (some a) none top.child f p (some b) * R))
      (fun n => (match p with
        | some prev => Nodes.modify prev fun node => { node with next := new }
        | none => Nodes.modify a fun node => { node with child := new }) >>= k n) S := by
  rcases f.eq_nil_or_snoc with rfl | ⟨f, z, under, rfl⟩
  · rw [segment_nil, mul_left_comm]
    refine Triple.fact ?_
    rintro ⟨-, rfl⟩
    refine Triple.modify ((rest new).pre (mul_le_mul_right ?_ _))
    rw [segment_nil]
    exact le_fact_mul ⟨rfl, rfl⟩ le_rfl
  · rw [segment_append]
    simp only [segment_single, iSup_mul, mul_iSup]
    refine Triple.iSup fun p' => Triple.iSup fun q => Triple.iSup fun r => ?_
    refine Triple.pre (Triple.fact (p := q = some r ∧ p = some r) (P := held r (some b) p' (some a) z under *
      (pts a (.node top) * (segment (some a) none top.child f p' q * R))) ?_) (le_of_eq (by ac_rfl))
    rintro ⟨rfl, rfl⟩
    refine Triple.held fun item behind before above => ?_
    refine Triple.relink (fun fits => ⟨fits.type, fits.valueint, fits.valuedouble, fits.is_ref, fits.child⟩) ⟨rfl, rfl⟩ rfl ?_
    have relinked : own r { item with next := new } z under ≤ held r new p' (some a) z under := own_le_held rfl before above
    refine (rest top.child).pre ?_
    calc _ ≤ held r new p' (some a) z under * (pts a (.node top) * (segment (some a) none top.child f p' (some r) * R)) :=
          mul_le_mul_left relinked _
      _ = pts a (.node top) * (segment (some a) none top.child f p' (some r) * held r new p' (some a) z under * R) := by ac_rfl
      _ ≤ _ := mul_le_mul_right (mul_le_mul_left segment_snoc _) _

/-- What is behind a node is linked to another one. -/
theorem unlink_after (rest : ∀ last, Triple (segment (some a) new next g last none * R) (fun n => k n ()) S) :
    Triple (segment (some a) prev next g last none * R)
      (fun n => (match next with
        | some next => Nodes.modify next fun node => { node with prev := new }
        | none => Pure.pure ()) >>= k n) S := by
  cases next with
  | none =>
    rw [segment_none]
    refine Triple.fact ?_
    rintro ⟨rfl, rfl⟩
    refine (rest new).pre ?_
    rw [segment_nil]
    exact le_fact_mul ⟨rfl, rfl⟩ le_rfl
  | some c =>
    cases g with
    | nil =>
      rw [segment_nil]
      refine Triple.fact ?_
      rintro ⟨⟨⟩, -⟩
    | cons z under g =>
      rw [segment_cons]
      simp only [iSup_mul, mul_assoc]
      refine Triple.iSup fun c' => Triple.iSup fun next => Triple.fact fun same => ?_
      obtain rfl := Option.some.inj same
      refine Triple.held fun item behind before above => ?_
      refine Triple.relink (fun fits => ⟨fits.type, fits.valueint, fits.valuedouble, fits.is_ref, fits.child⟩) ⟨rfl, rfl⟩ rfl ?_
      have relinked : own c { item with prev := new } z under ≤ held c next new (some a) z under := own_le_held behind rfl above
      refine (rest last).pre ?_
      rw [segment_cons]
      simp only [iSup_mul, mul_assoc]
      exact le_iSup₂_of_le c next (le_fact_mul rfl (mul_le_mul_left relinked _))

end

/-- The item is deleted with all below it, and its neighbours are linked to each other. -/
theorem deleteItem_spec {t : Spot} {xs : List Tinyjson.cJSON} (i : ℕ) : Triple (placed t a (.array xs))
    (fun n => cJSON_DeleteItemFromArray n a i) fun _ => placed t a (.array (xs.eraseIdx i)) := by
  simp only [cJSON_DeleteItemFromArray]
  cases at_index : xs[i]? with
  | none =>
    rw [← mul_one (placed t a (.array xs))]
    refine (getArrayItem_spec i).call (Triple.focus (fun _ => Triple.pure ?_) fun w t a some => by cases at_index.symm.trans some)
    rw [mul_one, List.eraseIdx_of_length_le (List.getElem?_eq_none_iff.mp at_index)]
  | some v =>
    obtain ⟨inside, rfl⟩ := List.getElem?_eq_some_iff.mp at_index
    have before : kids (.array xs) = items (xs.take i) ++ .cons (dataOf none xs[i]) (kids xs[i]) (items (xs.drop (i + 1))) := by
      have whole := congrArg items (List.set_getElem_self inside)
      rwa [List.set_eq_take_append_cons_drop, if_pos inside, items_append, items, eq_comm] at whole
    have after : kids (.array (xs.eraseIdx i)) = items (xs.take i) ++ items (xs.drop (i + 1)) := by
      rw [List.eraseIdx_eq_take_drop_succ, kids, items_append]
    rw [← mul_one (placed t a (.array xs)), placed, before]
    refine held_children (dataOf_ref _ _) fun top behind before above fits => ?_
    simp only [cJSON_GetArrayItem, bind_assoc]
    refine Triple.node ?_
    simp only [children, iSup_mul, mul_iSup]
    refine Triple.iSup fun l => ?_
    rw [mul_left_comm]
    refine (itemLoop_at inside).call fun r => ?_
    simp only [iSup_mul, mul_assoc]
    refine Triple.iSup fun b => Triple.iSup fun p => Triple.iSup fun next => Triple.fact ?_
    rintro rfl
    rw [mul_left_comm]
    refine Triple.held fun item behind' before' above' => Triple.node_own ?_
    simp only [behind', before']
    generalize strings : text top.valuestring _ * (text top.string _ * 1) = texts
    refine Triple.pre (P := pts a (.node top) * (segment (some a) none top.child (items (xs.take i)) p (some b) *
      (own b item (dataOf none xs[i]) (kids xs[i]) * (segment (some a) (some b) next (items (xs.drop (i + 1))) l none * texts))))
      (unlink_before fun child => ?_) (le_of_eq (by ac_rfl))
    refine Triple.pre (P := own b item (dataOf none xs[i]) (kids xs[i]) * (segment (some a) (some b) next (items (xs.drop (i + 1))) l none *
      (pts a (.node { top with child := child }) * (segment (some a) none child (items (xs.take i)) p next * texts))))
      (Triple.node_own ?_) (le_of_eq (by ac_rfl))
    simp only [behind', before']
    rw [mul_left_comm]
    refine unlink_after fun last => ?_
    rw [mul_left_comm]
    refine Triple.relink (fun fits => ⟨fits.type, fits.valueint, fits.valuedouble, fits.is_ref, fits.child⟩) ⟨rfl, rfl⟩ rfl ?_
    have alone : own b { item with next := none, prev := none, parent := none } (dataOf none xs[i]) (kids xs[i]) ≤
        json b none xs[i] := own_le_held rfl rfl rfl
    refine Triple.pre ?_ (mul_le_mul_left alone _)
    refine (delete_held.frame _).post fun _ => ?_
    rw [one_mul]
    have fits' : Fits { top with child := child } (dataOf t.key (.array (xs.eraseIdx i))) :=
      ⟨fits.type, fits.valueint, fits.valuedouble, fits.is_ref, by simp⟩
    have linked : segment (some a) none child (items (xs.take i)) p next * segment (some a) p next (items (xs.drop (i + 1))) last none ≤
        children a child (kids (.array (xs.eraseIdx i))) := by
      rw [after, children]
      refine le_iSup_of_le last ?_
      rw [segment_append]
      exact le_iSup₂_of_le p next le_rfl
    have back := children_held (a := a) (f := kids (.array (xs.eraseIdx i))) (dataOf_ref _ _) fits'
    rw [placed, ← behind, ← before, ← above]
    refine le_trans ?_ back
    rw [← strings, mul_one]
    refine le_trans (le_of_eq ?_) (mul_le_mul_right (mul_le_mul_left linked _) _)
    show _ = pts a _ * (_ * (text top.valuestring _ * text top.string _))
    ac_rfl

end

end Sa.NodeFocus
