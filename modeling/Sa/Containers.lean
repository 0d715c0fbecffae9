import Sa.Ownership

/-!
# Containers

Creating, deleting and adding nodes, for what they own.
-/

namespace Sa.Containers
open Sa.CStrings Sa.Doubles Sa.NumberTexts Sa.Separation Sa.Programs Sa.Nodes Sa.Ownership

variable {parent prev first last after next : Option Addr} {a b : Addr} {d e : Data} {f g below : Forest} {item : cJSON}
  {α : Type} {R : Assertion Addr Cell} {S : α → Assertion Addr Cell}

theorem free_text (p : Option Addr) (s : Option CString) : Triple (text p s) (fun _ => free p) fun _ => 1 := by
  cases p with
  | none =>
    cases s with
    | none => exact Triple.pure le_rfl
    | some s => exact Triple.pure bot_le
  | some a =>
    cases s with
    | none =>
      have never : Triple (⊥ * 1) (fun _ => free (some a)) fun _ => (1 : Assertion Addr Cell) := Triple.bot
      rwa [mul_one] at never
    | some s =>
      have freed : Triple (pts a (.chars s) * 1) (fun _ => dealloc a >>= fun x => Pure.pure x) fun _ => (1 : Assertion Addr Cell) :=
        Triple.dealloc (Triple.pure le_rfl)
      simpa only [mul_one, bind_pure, text, free] using freed

@[simp] theorem delete_none (n : ℕ) : cJSON_Delete n none = Pure.pure () := by
  cases n <;> rfl

/-- `cJSON_Delete` on what a node owns, which is nothing for a reference. -/
theorem delete_owned (n : ℕ) (item : cJSON) :
    (if item.is_ref then Pure.pure () else cJSON_Delete n item.child) = cJSON_Delete n (owned item) := by
  unfold owned
  split_ifs
  · rw [delete_none]
  · rfl

/-- All that the nodes own is freed, each part once. -/
theorem delete_segment : Triple (segment parent prev first f last none) (fun n => cJSON_Delete n first) fun _ => 1 := by
  induction f generalizing parent prev first last with
  | nil =>
    rw [segment_nil, ← mul_one (fact _)]
    refine Triple.fact ?_
    rintro ⟨rfl, -⟩
    simp only [delete_none]
    exact Triple.pure le_rfl
  | cons d below siblings ihb ihs =>
    rw [segment_cons]
    refine Triple.iSup fun a => Triple.iSup fun next => Triple.fact ?_
    rintro rfl
    refine Triple.held fun item behind _ _ => Triple.later ?_
    simp only [cJSON_Delete, delete_owned]
    refine Triple.node_own ?_
    have parts : own a item d below * segment parent (some a) next siblings last none ≤ children a (owned item) below *
        (text item.valuestring d.valuestring * (text item.string d.string *
          (pts a (.node item) * segment parent (some a) next siblings last none))) := by
      rw [own, mul_assoc]
      exact fact_mul_le fun _ => le_of_eq (by ac_rfl)
    refine Triple.pre ?_ parts
    have emptied : Triple (children a (owned item) below) (fun n => cJSON_Delete n (owned item)) fun _ => 1 :=
      Triple.iSup fun _ => ihb
    refine emptied.call fun _ => ?_
    rw [one_mul]
    refine (free_text _ _).call fun _ => ?_
    rw [one_mul]
    refine (free_text _ _).call fun _ => ?_
    rw [one_mul]
    refine Triple.dealloc ?_
    rw [behind]
    exact ihs

theorem delete_held : Triple (held a none prev parent d below) (fun n => cJSON_Delete n (some a)) fun _ => 1 :=
  delete_segment.pre held_segment

theorem own_le_held (behind : item.next = next) (before : item.prev = prev) (above : item.parent = parent) :
    own a item d below ≤ held a next prev parent d below :=
  le_iSup_of_le item (le_fact_mul ⟨behind, before, above⟩ le_rfl)

/-- A node without children. -/
theorem leaf_le_own (fits : Fits item d) (none : owned item = none) :
    pts a (.node item) * (text item.valuestring d.valuestring * text item.string d.string) ≤ own a item d .nil := by
  rw [own, none, children_none, fact_of rfl, mul_one]
  exact le_fact_mul fits le_rfl

/-- What a new node holds. -/
def blank (type : JsonType) : Data := ⟨type, none, 0, zero, none, none⟩

/-- A node without links and children. -/
theorem leaf_le_root {vs ks : Option Addr} {type : JsonType} {i : ℤ} {x : Double} (valuestring string : Option CString) :
    pts a (.node ⟨none, none, none, none, type, vs, i, x, ks, false⟩) * (text vs valuestring * text ks string) ≤
      root a ⟨type, valuestring, i, x, string, none⟩ .nil :=
  (leaf_le_own (d := ⟨type, valuestring, i, x, string, none⟩) ⟨rfl, rfl, rfl, rfl, by simp⟩ rfl).trans
    (own_le_held rfl rfl rfl)

variable (m : Allocator Addr Cell)

theorem new_root (type : JsonType) : Triple 1 (fun _ => cj_new m type) fun a => root a (blank type) .nil := by
  refine (Triple.alloc_last m).post fun a => ?_
  rw [← mul_one (1 : Assertion Addr Cell)]
  exact leaf_le_root none none

theorem createString_root (s : CString) : Triple 1 (fun _ => cJSON_CreateString m s)
    fun a => root a { blank .String with valuestring := some s } .nil := by
  refine Triple.alloc m fun a => Triple.alloc m fun copy => ?_
  rw [mul_left_comm]
  refine Triple.modify (Triple.pure ?_)
  exact leaf_le_root (some s) none

theorem createNumber_root (n : Double) : Triple 1 (fun _ => cJSON_CreateNumber m n)
    fun a => root a { blank .Number with valueint := to_int n, valuedouble := n } .nil := by
  refine Triple.alloc m fun a => Triple.modify (Triple.pure ?_)
  rw [← mul_one (1 : Assertion Addr Cell)]
  exact leaf_le_root none none

theorem lastChild_segment : Triple (segment parent prev (some a) (f ++ .single d below) last none) (fun n => lastChild n a)
    fun r => fact (last = some r) * segment parent prev (some a) (f ++ .single d below) last none := by
  induction f generalizing prev a with
  | nil =>
    rw [Forest.nil_append, segment_single]
    refine Triple.iSup fun a' => Triple.fact ?_
    rintro ⟨same, rfl⟩
    obtain rfl := Option.some.inj same
    rw [← mul_one (held _ _ _ _ _ _)]
    refine Triple.held fun item behind before above => Triple.later (Triple.node_own ?_)
    simp only [behind]
    refine Triple.pure (le_fact_mul rfl ?_)
    rw [mul_one]
    exact le_iSup_of_le a (le_fact_mul ⟨rfl, rfl⟩ (own_le_held behind before above))
  | cons e under f _ ih =>
    rw [Forest.cons_append, segment_cons]
    refine Triple.iSup fun a' => Triple.iSup fun next => Triple.fact fun same => ?_
    obtain rfl := Option.some.inj same
    refine Triple.held fun item behind before above => Triple.later (Triple.node_own ?_)
    cases next with
    | none =>
      rw [segment_none, mul_comm]
      refine Triple.fact fun ends => ?_
      cases f <;> cases ends.1
    | some next =>
      simp only [behind]
      rw [mul_comm]
      refine (ih.frame _).post fun r => ?_
      rw [mul_assoc]
      refine fact_mul_le fun found => le_fact_mul found ?_
      refine le_iSup₂_of_le a (some next) (le_fact_mul rfl ?_)
      rw [mul_comm]
      exact mul_le_mul_left (own_le_held behind before above) _

theorem own_eq (fits : Fits item d) : own a item d f = pts a (.node item) * (text item.valuestring d.valuestring *
    (text item.string d.string * children a (owned item) f)) := by
  rw [own, fact_of fits, one_mul]

theorem owned_eq (fits : Fits item d) (unshared : d.ref = none) : owned item = item.child := by
  have plain := fits.is_ref
  rw [unshared] at plain
  simp [owned, plain]

/-- The children of a container, as they are held. -/
theorem held_children (unshared : d.ref = none) {next prev parent : Option Addr} {c : ℕ → C α} {S : α → Assertion Addr Cell}
    (each : ∀ item : cJSON, item.next = next → item.prev = prev → item.parent = parent → Fits item d →
      Triple (pts a (.node item) * (children a item.child f * (text item.valuestring d.valuestring *
        (text item.string d.string * R)))) c S) : Triple (held a next prev parent d f * R) c S := by
  refine Triple.held fun item behind before above => Triple.own fun fits => ?_
  refine (each item behind before above fits).pre (le_of_eq ?_)
  rw [own_eq fits, owned_eq fits unshared]
  ac_rfl

/-- The children of a container are given back. -/
theorem children_held (unshared : d.ref = none) {item : cJSON} (fits : Fits item d) :
    pts a (.node item) * (children a item.child f * (text item.valuestring d.valuestring * text item.string d.string)) ≤
      held a item.next item.prev item.parent d f := by
  refine le_trans (le_of_eq ?_) (own_le_held rfl rfl rfl)
  rw [own_eq fits, owned_eq fits unshared]
  ac_rfl

theorem fill_held {outer : Data × Forest → Assertion Addr Cell} :
    held a next prev parent d f * hole (fun x : Data × Forest => held a next prev parent x.1 x.2) outer ≤ outer (d, f) := by
  have each : ∀ x : Data × Forest, held a next prev parent x.1 x.2 * hole (fun x : Data × Forest => held a next prev parent x.1 x.2)
      outer ≤ outer x := fill
  exact each (d, f)

/-- The node at `b` becomes the last child of the node at `a`, whose own links are kept;
    what goes in the place of the child goes into the container. -/
theorem append_child (unshared : d.ref = none) :
    Triple (held a next prev parent d f * held b after last first e g) (fun n => cj_append_child n a b)
      fun _ => ⨆ p, held b none p (some a) e g * hole (fun x : Data × Forest => held b none p (some a) x.1 x.2)
        fun x => held a next prev parent d (f ++ .single x.1 x.2) := by
  rw [mul_comm]
  refine Triple.held fun item _ _ _ => ?_
  refine Triple.relink (fun fits => ⟨fits.type, fits.valueint, fits.valuedouble, fits.is_ref, fits.child⟩) ⟨rfl, rfl⟩ rfl ?_
  rw [mul_comm]
  refine held_children unshared fun top behind before above fits => Triple.node ?_
  -- The strings of the container are not touched.
  have close (child : Option Addr) (f' : Forest) : pts a (.node { top with child := child }) * (children a child f' *
      (text top.valuestring d.valuestring * text top.string d.string)) ≤ held a next prev parent d f' := by
    have fits' : Fits { top with child := child } d :=
      ⟨fits.type, fits.valueint, fits.valuedouble, fits.is_ref, by simp [unshared]⟩
    rw [← behind, ← before, ← above]
    exact children_held unshared fits'
  generalize strings : text top.valuestring d.valuestring * text top.string d.string = texts at close
  have gathered : pts a (.node top) * (children a top.child f * (text top.valuestring d.valuestring * (text top.string d.string *
      own b { item with parent := some a, next := none } e g))) =
      own b { item with parent := some a, next := none } e g * (pts a (.node top) * (children a top.child f * texts)) := by
    rw [← strings]
    ac_rfl
  rw [gathered]
  cases child : top.child with
  | none =>
    rw [children_none, mul_left_comm (pts a _), mul_left_comm]
    refine Triple.fact ?_
    rintro rfl
    refine Triple.relink (fun fits => ⟨fits.type, fits.valueint, fits.valuedouble, fits.is_ref, fits.child⟩) ⟨rfl, rfl⟩ rfl ?_
    rw [mul_left_comm]
    refine Triple.modify_last.post fun _ => le_iSup_of_le none ?_
    have outside : pts a (.node { top with child := some b }) * texts ≤ hole (fun x : Data × Forest => held b none none (some a) x.1 x.2)
        fun x => held a next prev parent d (.nil ++ .single x.1 x.2) := by
      refine le_hole.mpr fun x => le_trans ?_ (close (some b) _)
      have alone : held b none none (some a) x.1 x.2 ≤ children a (some b) (.single x.1 x.2) :=
        held_segment.trans (le_iSup_of_le (some b) le_rfl)
      rw [mul_left_comm]
      exact mul_le_mul_right (mul_le_mul_left alone _) _
    have inside : own b { item with parent := some a, next := none, prev := none } e g ≤ held b none none (some a) e g :=
      own_le_held rfl rfl rfl
    rw [mul_left_comm]
    exact mul_le_mul' inside outside
  | some c =>
    rcases f.eq_nil_or_snoc with rfl | ⟨f, z, under, rfl⟩
    · have empty : children a (some c) .nil = ⊥ := by
        simp only [children, segment_some_nil, iSup_bot]
      rw [empty, Quantale.bot_mul, Quantale.mul_bot, Quantale.mul_bot, ← Quantale.bot_mul (x := texts)]
      exact Triple.bot
    · simp only [children, iSup_mul, mul_iSup]
      refine Triple.iSup fun l => ?_
      refine Triple.pre (P := segment (some a) none (some c) (f ++ .single z under) l none *
        (own b { item with parent := some a, next := none } e g * (pts a (.node top) * texts))) ?_ (le_of_eq (by ac_rfl))
      refine lastChild_segment.call fun r => ?_
      rw [mul_assoc]
      refine Triple.fact ?_
      rintro rfl
      rw [segment_append]
      simp only [segment_single, iSup_mul, mul_iSup]
      refine Triple.iSup fun p => Triple.iSup fun q => Triple.iSup fun r' => ?_
      refine Triple.pre (Triple.fact (p := q = some r' ∧ some r = some r') (P := held r' none p (some a) z under *
        (segment (some a) none (some c) f p q * (own b { item with parent := some a, next := none } e g * (pts a (.node top) * texts)))) ?_)
        (le_of_eq (by ac_rfl))
      rintro ⟨rfl, same⟩
      obtain rfl := Option.some.inj same
      refine Triple.held fun lastItem _ before' above' => ?_
      refine Triple.relink (fun fits => ⟨fits.type, fits.valueint, fits.valuedouble, fits.is_ref, fits.child⟩) ⟨rfl, rfl⟩ rfl ?_
      refine Triple.pre (P := own b { item with parent := some a, next := none } e g *
        (own r { lastItem with next := some b } z under * (segment (some a) none (some c) f p (some r) * (pts a (.node top) * texts))))
        ?_ (le_of_eq (by ac_rfl))
      refine (Triple.relink_last (fun fits => ⟨fits.type, fits.valueint, fits.valuedouble, fits.is_ref, fits.child⟩) ⟨rfl, rfl⟩
        rfl).post fun _ => le_iSup_of_le (some r) ?_
      have heldLast : own r { lastItem with next := some b } z under ≤ held r (some b) p (some a) z under :=
        own_le_held rfl before' above'
      have heldNew : own b { item with parent := some a, next := none, prev := some r } e g ≤ held b none (some r) (some a) e g :=
        own_le_held rfl rfl rfl
      refine mul_le_mul' heldNew (le_hole.mpr fun x => le_trans ?_ (close (some c) _))
      have linked : segment (some a) none (some c) f p (some r) * held r (some b) p (some a) z under *
          held b none (some r) (some a) x.1 x.2 ≤ children a (some c) (f ++ .single z under ++ .single x.1 x.2) :=
        ((mul_le_mul_left segment_snoc _).trans segment_snoc).trans (le_iSup_of_le (some b) le_rfl)
      have kept : ({ top with child := some c } : cJSON) = top := by rw [← child]
      rw [kept]
      calc _ ≤ held b none (some r) (some a) x.1 x.2 * (held r (some b) p (some a) z under * (segment (some a) none (some c) f p (some r) *
              (pts a (.node top) * texts))) := mul_le_mul_right (mul_le_mul_left heldLast _) _
        _ = pts a (.node top) * (segment (some a) none (some c) f p (some r) * held r (some b) p (some a) z under *
              held b none (some r) (some a) x.1 x.2 * texts) := by ac_rfl
        _ ≤ _ := mul_le_mul_right (mul_le_mul_left linked _) _

end Sa.Containers
