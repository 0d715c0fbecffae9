import Sa.CStrings
import Sa.Segments
import Mathlib.Data.List.Nodup
import Mathlib.Data.List.Pairwise

/-!
# The children of a container

`cJSON` nodes as they lie in memory: a store of nodes with the pointers between them.
The children of a container are a doubly linked list, and each of them owns what lies
below it; `cJSON_Delete` follows `next` as well as `child`, so a child is cut off first.
-/

namespace Sa.ChildList
open Sa.CStrings Sa.Segments

abbrev Addr := ℕ

/-- The pointers of a node and the key it owns; `none` is `NULL`. -/
structure cJSON where
  next : Option Addr
  prev : Option Addr
  child : Option Addr
  parent : Option Addr
  string : Option CString
  is_ref : Bool

/-- The nodes that are allocated. -/
abbrev Store := Addr → Option cJSON

/-- A write to a node; `none` where there is none to write to. -/
def modify (store : Store) (a : Addr) (write : cJSON → cJSON) : Option Store :=
  (store a).map fun node => Function.update store a (some (write node))

/-- `free(item)`; it must be allocated. -/
def free (store : Store) (item : Addr) : Option Store :=
  (store item).map fun _ => Function.update store item none

/-- At most `n` passes and calls. -/
def cJSON_Delete : ℕ → Store → Option Addr → Option Store
  | _, store, none => some store
  | 0, _, some _ => none
  | n + 1, store, some item => do
    let node ← store item
    let store ← (if node.is_ref then some store else cJSON_Delete n store node.child)
    let store ← free store item
    cJSON_Delete n store node.next

/-- The loop of `cj_append_child`. -/
def lastChild : ℕ → Store → Addr → Option Addr
  | 0, _, _ => none
  | n + 1, store, last => do
    let node ← store last
    match node.next with
    | some next => lastChild n store next
    | none => some last

def cj_append_child (n : ℕ) (store : Store) (parent item : Addr) : Option Store := do
  let store ← modify store item fun node => { node with parent := some parent, next := none }
  let node ← store parent
  match node.child with
  | none => do
    let store ← modify store item fun node => { node with prev := none }
    modify store parent fun node => { node with child := some item }
  | some first => do
    let last ← lastChild n store first
    let store ← modify store last fun node => { node with next := some item }
    modify store item fun node => { node with prev := some last }

def cJSON_AddItemToArray (n : ℕ) (store : Store) (array item : Option Addr) : Option Store :=
  match array, item with
  | some array, some item => cj_append_child n store array item
  | _, _ => some store

def cJSON_AddItemToObject (n : ℕ) (store : Store) (object : Option Addr) (key : Option CString)
    (item : Option Addr) : Option Store :=
  match object, key, item with
  | some object, some key, some item => do
    let store ← modify store item fun node => { node with string := some key }
    cj_append_child n store object item
  | _, _, _ => some store

/-- The loop of `cJSON_GetArrayItem`. -/
def itemLoop (store : Store) : ℕ → Option Addr → Option (Option Addr)
  | _, none => some none
  | 0, some c => some (some c)
  | index + 1, some c => do
    let node ← store c
    itemLoop store index node.next

def cJSON_GetArrayItem (store : Store) (array : Option Addr) (index : ℤ) : Option (Option Addr) :=
  match array with
  | none => some none
  | some array => do
    let node ← store array
    itemLoop store index.toNat node.child

/-- The nodes that `cJSON_ArrayForEach` visits. -/
def cJSON_ArrayForEach (n : ℕ) (store : Store) (arr : Option Addr) : Option (List Addr) :=
  match arr with
  | none => some []
  | some arr => do
    let node ← store arr
    walk cJSON.next store n node.child

def cJSON_GetArraySize (n : ℕ) (store : Store) (array : Option Addr) : Option ℕ :=
  (cJSON_ArrayForEach n store array).map List.length

def cJSON_DeleteItemFromArray (n : ℕ) (store : Store) (array : Addr) (index : ℤ) : Option Store := do
  match ← cJSON_GetArrayItem store (some array) index with
  | none => some store
  | some c => do
    let node ← store c
    let store ← (match node.prev with
      | some prev => modify store prev fun p => { p with next := node.next }
      | none => modify store array fun a => { a with child := node.next })
    let node ← store c
    let store ← (match node.next with
      | some next => modify store next fun x => { x with prev := node.prev }
      | none => some store)
    let store ← modify store c fun node => { node with next := none, prev := none, parent := none }
    cJSON_Delete n store (some c)

/-- The nodes below a node: the first of them, what is below it, and its siblings. -/
inductive Forest where
  | nil
  | cons (addr : Addr) (below siblings : Forest)

def Forest.addrs : Forest → List Addr
  | .nil => []
  | .cons addr below siblings => addr :: (below.addrs ++ siblings.addrs)

/-- The children that go with a node; those of a reference belong to another. -/
def cJSON.owned (node : cJSON) : Option Addr := if node.is_ref then none else node.child

/-- What `cJSON_Delete` comes to from `p`. -/
inductive Owns (store : Store) : Option Addr → Forest → Prop
  | nil : Owns store none .nil
  | cons {addr : Addr} {node : cJSON} {below siblings : Forest} (here : store addr = some node)
      (children : Owns store node.owned below) (rest : Owns store node.next siblings) :
      Owns store (some addr) (.cons addr below siblings)

/-- A store without these nodes. -/
def erase (store : Store) (addrs : List Addr) : Store := fun a => if a ∈ addrs then none else store a

theorem Owns.frame {store store' : Store} {p : Option Addr} {forest : Forest} (owns : Owns store p forest)
    (same : ∀ a ∈ forest.addrs, store' a = store a) : Owns store' p forest := by
  induction owns with
  | nil => exact .nil
  | cons here children rest ihc ihr =>
    refine .cons (by rw [same _ (by simp [Forest.addrs]), here]) (ihc fun a member => ?_) (ihr fun a member => ?_)
    · exact same a (by simp [Forest.addrs, member])
    · exact same a (by simp [Forest.addrs, member])

@[simp] theorem erase_nil (store : Store) : erase store [] = store := by
  funext a
  simp [erase]

theorem erase_of_notMem {store : Store} {addrs : List Addr} {a : Addr} (other : a ∉ addrs) : erase store addrs a = store a :=
  if_neg other

/-- `cJSON_Delete` on what a node owns, which is nothing for a reference. -/
theorem delete_owned (n : ℕ) (store : Store) (node : cJSON) :
    (if node.is_ref then some store else cJSON_Delete n store node.child) = cJSON_Delete n store node.owned := by
  unfold cJSON.owned
  split_ifs
  · cases n <;> rfl
  · rfl

/-- Just the nodes that go with it are freed, each of them once. -/
theorem delete_total {store : Store} {p : Option Addr} {forest : Forest} (owns : Owns store p forest)
    (distinct : forest.addrs.Nodup)
    {n : ℕ} (enough : forest.addrs.length ≤ n) : cJSON_Delete n store p = some (erase store forest.addrs) := by
  induction forest generalizing store p n with
  | nil =>
    cases owns
    cases n <;> simp [cJSON_Delete, Forest.addrs]
  | cons addr below siblings ihb ihs =>
    cases owns with
    | @cons _ node _ _ here children rest =>
      obtain ⟨first, apart⟩ := List.nodup_cons.mp distinct
      obtain ⟨distinctb, distincts, disjoint⟩ := List.nodup_append.mp apart
      rw [List.mem_append, not_or] at first
      cases n with
      | zero => simp [Forest.addrs] at enough
      | succ n =>
        simp only [Forest.addrs, List.length_cons, List.length_append] at enough
        have emptied := ihb children distinctb (n := n) (by omega)
        have still : erase store below.addrs addr = some node := by rw [erase_of_notMem first.1, here]
        have freed : free (erase store below.addrs) addr = some (Function.update (erase store below.addrs) addr none) := by
          rw [free, still]
          rfl
        have others : ∀ a ∈ siblings.addrs, Function.update (erase store below.addrs) addr none a = store a := by
          intro a member
          rw [Function.update_of_ne (by rintro rfl; exact first.2 member), erase_of_notMem]
          exact fun inside => disjoint a inside a member rfl
        have last := ihs (rest.frame others) distincts (n := n) (by omega)
        simp only [cJSON_Delete, here, Option.bind_eq_bind, Option.bind_some, delete_owned, emptied, freed, last]
        congr 1
        funext a
        by_cases self : a = addr
        · subst self
          simp [erase, Forest.addrs]
        · by_cases inside : a ∈ below.addrs <;> simp [erase, Forest.addrs, self, inside]

/-! ### The list of children -/

/-- A child and what lies below it. -/
structure Item where
  addr : Addr
  below : Forest

def Item.addrs (item : Item) : List Addr := item.addr :: item.below.addrs

/-- The item's node, which owns what lies below it. -/
def Item.Here (store : Store) (item : Item) : Prop := ∃ node, store item.addr = some node ∧ Owns store node.owned item.below

/-- `items` are the children of the container at `array`, and no node is in two places. -/
structure Children (store : Store) (array : Addr) (items : List Item) : Prop where
  linked : ∃ node last, store array = some node ∧
    Segment cJSON.next cJSON.prev store none node.child (items.map Item.addr) last none
  here : ∀ item ∈ items, item.Here store
  distinct : (array :: items.flatMap Item.addrs).Nodup

/-- Nodes below an item are neither the container nor children of it. -/
theorem below_apart {array : Addr} {items : List Item} (distinct : (array :: items.flatMap Item.addrs).Nodup) {item : Item}
    (member : item ∈ items) {a : Addr} (below : a ∈ item.below.addrs) : a ≠ array ∧ a ∉ items.map Item.addr := by
  obtain ⟨container, apart⟩ := List.nodup_cons.mp distinct
  obtain ⟨each, pairs⟩ := List.nodup_flatMap.mp apart
  have inside : a ∈ item.addrs := List.mem_cons_of_mem _ below
  constructor
  · rintro rfl
    exact container (List.mem_flatMap.mpr ⟨item, member, inside⟩)
  · intro top
    obtain ⟨other, member', rfl⟩ := List.mem_map.mp top
    by_cases same : other = item
    · subst same
      exact (List.nodup_cons.mp (each other member)).1 below
    · have symmetric : Std.Symm (Function.onFun List.Disjoint Item.addrs) :=
        ⟨fun _ _ disjoint _ first second => disjoint second first⟩
      exact pairs.forall member' member same List.mem_cons_self inside

theorem tops_sublist (items : List Item) : (items.map Item.addr).Sublist (items.flatMap Item.addrs) := by
  induction items with
  | nil => exact .slnil
  | cons item items ih =>
    rw [List.map_cons, List.flatMap_cons, Item.addrs, List.cons_append]
    exact (ih.trans (List.sublist_append_right _ _)).cons_cons _

/-- The children are at addresses of their own, and the container is at none of them. -/
theorem tops_distinct {array : Addr} {items : List Item} (distinct : (array :: items.flatMap Item.addrs).Nodup) :
    array ∉ items.map Item.addr ∧ (items.map Item.addr).Nodup :=
  List.nodup_cons.mp (distinct.sublist ((tops_sublist items).cons_cons array))

/-- A step that relinks the container and nodes of `tops`, and keeps what they own. -/
structure Relinks (array : Addr) (tops : List Addr) (store store' : Store) : Prop where
  others : ∀ a, a ≠ array → a ∉ tops → store' a = store a
  owned : ∀ a ∈ tops, ∀ node, store a = some node → ∃ node', store' a = some node' ∧ node'.owned = node.owned

theorem Relinks.refl {array : Addr} {tops : List Addr} {store : Store} : Relinks array tops store store :=
  ⟨fun _ _ _ => rfl, fun _ _ node here => ⟨node, here, rfl⟩⟩

theorem Relinks.trans {array : Addr} {tops : List Addr} {store store' store'' : Store} (first : Relinks array tops store store')
    (second : Relinks array tops store' store'') : Relinks array tops store store'' := by
  refine ⟨fun a container other => (second.others a container other).trans (first.others a container other), ?_⟩
  intro a top node here
  obtain ⟨node', here', same⟩ := first.owned a top node here
  obtain ⟨node'', here'', same'⟩ := second.owned a top node' here'
  exact ⟨node'', here'', same'.trans same⟩

theorem Relinks.item {array : Addr} {tops : List Addr} {store store' : Store}
    (relinks : Relinks array tops store store') {item : Item}
    (top : item.addr ∈ tops) (apart : ∀ a ∈ item.below.addrs, a ≠ array ∧ a ∉ tops)
    (here : item.Here store) : item.Here store' := by
  obtain ⟨node, at', owns⟩ := here
  obtain ⟨node', at'', same⟩ := relinks.owned _ top node at'
  exact ⟨node', at'', same ▸ owns.frame fun a below => relinks.others a (apart a below).1 (apart a below).2⟩

/-- What a write leaves. -/
structure Wrote (store store' : Store) (a : Addr) (node : cJSON) : Prop where
  here : store' a = some node
  others : ∀ b, b ≠ a → store' b = store b

theorem modify_total {store : Store} {a : Addr} {node : cJSON} (here : store a = some node) (write : cJSON → cJSON) :
    ∃ store', modify store a write = some store' ∧ Wrote store store' a (write node) := by
  refine ⟨Function.update store a (some (write node)), ?_, Function.update_self _ _ _,
    fun b other => Function.update_of_ne other _ _⟩
  rw [modify, here]
  rfl

/-- A write to the container. -/
theorem Wrote.container {array : Addr} {tops : List Addr} {store store' : Store} {node : cJSON}
    (wrote : Wrote store store' array node) (apart : array ∉ tops) : Relinks array tops store store' := by
  refine ⟨fun a other _ => wrote.others a other, fun a top was here => ⟨was, ?_, rfl⟩⟩
  rw [wrote.others a (by rintro rfl; exact apart top), here]

/-- A write to a child that leaves what the child owns. -/
theorem Wrote.child (array : Addr) {a : Addr} {tops : List Addr} {store store' : Store} {node node' : cJSON}
    (wrote : Wrote store store' a node')
    (top : a ∈ tops) (here : store a = some node) (same : node'.owned = node.owned) : Relinks array tops store store' := by
  refine ⟨fun b _ other => wrote.others b (by rintro rfl; exact other top), fun b _ was at' => ?_⟩
  by_cases self : b = a
  · subst self
    obtain rfl := Option.some.inj (here.symm.trans at')
    exact ⟨node', wrote.here, same⟩
  · exact ⟨was, by rw [wrote.others b self, at'], rfl⟩

theorem lastChild_total {store : Store} {before first last : Option Addr} {as : List Addr} {a : Addr}
    (segment : Segment cJSON.next cJSON.prev store before first (as ++ [a]) last none) :
    ∃ b, first = some b ∧ ∀ n, as.length < n → lastChild n store b = some a := by
  induction as generalizing before first with
  | nil =>
    obtain ⟨node, here, rfl, -, rest⟩ := Segment.cons_iff.mp segment
    obtain ⟨-, ends⟩ := Segment.nil_iff.mp rest
    refine ⟨a, rfl, fun n enough => ?_⟩
    cases n with
    | zero => cases enough
    | succ n => simp [lastChild, here, ← ends]
  | cons b as ih =>
    obtain ⟨node, here, rfl, -, rest⟩ := Segment.cons_iff.mp segment
    obtain ⟨c, second, found⟩ := ih rest
    refine ⟨b, rfl, fun n enough => ?_⟩
    cases n with
    | zero => cases enough
    | succ n => simp [lastChild, here, second, found n (by simpa using enough)]

theorem itemLoop_total {store : Store} {before first last : Option Addr} {as : List Addr}
    (segment : Segment cJSON.next cJSON.prev store before first as last none) (index : ℕ) :
    itemLoop store index first = some as[index]? := by
  induction as generalizing before first index with
  | nil =>
    obtain ⟨-, rfl⟩ := Segment.nil_iff.mp segment
    cases index <;> rfl
  | cons a as ih =>
    obtain ⟨node, here, rfl, -, rest⟩ := Segment.cons_iff.mp segment
    cases index with
    | zero => rfl
    | succ index => simp [itemLoop, here, ih rest index]

/-- An item that is nowhere in the container yet. -/
structure Fresh (store : Store) (array : Addr) (items : List Item) (item : Item) : Prop where
  here : item.Here store
  distinct : (array :: (items ++ [item]).flatMap Item.addrs).Nodup

theorem append_total {store : Store} {array : Addr} {items : List Item} (children : Children store array items) {item : Item}
    (fresh : Fresh store array items item) :
    ∃ store', (∀ n, items.length ≤ n → cj_append_child n store array item.addr = some store') ∧
      Children store' array (items ++ [item]) := by
  obtain ⟨container, apart⟩ := tops_distinct fresh.distinct
  obtain ⟨root, last, atRoot, segment⟩ := children.linked
  obtain ⟨node, atItem, owns⟩ := fresh.here
  have other : array ≠ item.addr := by
    rintro same
    simp [same] at container
  have top : item.addr ∈ (items ++ [item]).map Item.addr := by simp
  obtain ⟨store₁, reset, wrote₁⟩ := modify_total atItem fun node => { node with parent := some array, next := none }
  have relinked₁ := wrote₁.child array top atItem rfl
  have atRoot₁ := (wrote₁.others array other).trans atRoot
  have here (store' : Store) (relinks : Relinks array ((items ++ [item]).map Item.addr) store₁ store') :
      ∀ i ∈ items ++ [item], i.Here store' := by
    intro i member
    refine (relinked₁.trans relinks).item (List.mem_map_of_mem member) (fun a below => below_apart fresh.distinct member below) ?_
    rcases List.mem_append.mp member with old | new
    · exact children.here i old
    · rw [List.mem_singleton.mp new]
      exact fresh.here
  rcases List.eq_nil_or_concat' items with rfl | ⟨before, z, rfl⟩
  · -- The container is empty and the item becomes its first child.
    obtain ⟨-, empty⟩ := Segment.nil_iff.mp segment
    obtain ⟨store₂, second, wrote₂⟩ := modify_total wrote₁.here fun node => { node with prev := none }
    have atRoot₂ := (wrote₂.others array other).trans atRoot₁
    obtain ⟨store₃, third, wrote₃⟩ := modify_total atRoot₂ fun root => { root with child := some item.addr }
    have relinked₂ := wrote₂.child array top wrote₁.here rfl
    refine ⟨store₃, fun n _ => ?_, ⟨_, some item.addr, wrote₃.here, ?_⟩, here _ (relinked₂.trans (wrote₃.container container)),
      fresh.distinct⟩
    · simp only [cj_append_child, reset, atRoot₁, ← empty, second, third, Option.bind_eq_bind, Option.bind_some]
    · exact Segment.cons_iff.mpr ⟨_, (wrote₃.others _ other.symm).trans wrote₂.here, rfl, rfl, .nil _ _⟩
  · -- The item goes behind the last child.
    rw [List.map_append, List.map_singleton] at segment
    simp only [List.map_append, List.map_singleton, List.append_assoc, List.mem_append, List.mem_cons, not_or] at container
    rw [List.map_append, List.map_append, List.map_singleton, List.map_singleton, List.append_assoc, List.nodup_append] at apart
    have apartItem : item.addr ∉ before.map Item.addr := fun member => apart.2.2 _ member item.addr (by simp) rfl
    have zOnly : z.addr ∉ before.map Item.addr := fun member => apart.2.2 _ member z.addr (by simp) rfl
    have apartz : item.addr ≠ z.addr := by
      rintro same
      simp [same] at apart
    have segment₁ : Segment cJSON.next cJSON.prev store₁ _ _ _ _ _ := segment.frame fun a member => wrote₁.others a (by
      rintro rfl
      rcases List.mem_append.mp member with old | new
      · exact apartItem old
      · exact apartz (List.mem_singleton.mp new))
    obtain ⟨b, pointer, found⟩ := lastChild_total segment₁
    obtain ⟨nodez, atz, -⟩ := children.here z (by simp)
    have atz₁ := (wrote₁.others z.addr apartz.symm).trans atz
    obtain ⟨store₂, second, wrote₂⟩ := modify_total atz₁ fun node => { node with next := some item.addr }
    have atItem₂ := (wrote₂.others item.addr apartz).trans wrote₁.here
    obtain ⟨store₃, third, wrote₃⟩ := modify_total atItem₂ fun node => { node with prev := some z.addr }
    have topz : z.addr ∈ (before ++ [z] ++ [item]).map Item.addr := by simp
    have relinked₂ := wrote₂.child array topz atz₁ rfl
    have relinked₃ := wrote₃.child array top atItem₂ rfl
    have extended := segment₁.set_next atz₁ ((wrote₃.others z.addr apartz.symm).trans wrote₂.here) rfl fun b member => by
      rw [wrote₃.others b (by rintro rfl; exact apartItem member), wrote₂.others b (by rintro rfl; exact zOnly member)]
    refine ⟨store₃, fun n enough => ?_, ⟨root, some item.addr, ?_, ?_⟩, here _ (relinked₂.trans relinked₃), fresh.distinct⟩
    · rw [List.length_append, List.length_singleton] at enough
      have reached := found n (by rw [List.length_map]; exact enough)
      simp only [cj_append_child, reset, atRoot₁, pointer, reached, second, third, Option.bind_eq_bind, Option.bind_some]
    · rw [wrote₃.others array other, wrote₂.others array container.2.1.1, atRoot₁]
    · rw [List.map_append, List.map_append, List.map_singleton, List.map_singleton]
      exact Segment.append_iff.mpr ⟨_, _, extended, Segment.cons_iff.mpr ⟨_, wrote₃.here, rfl, rfl, .nil _ _⟩⟩

theorem Item.Here.frame {store store' : Store} {item : Item} (here : item.Here store)
    (same : ∀ a ∈ item.addrs, store' a = store a) :
    item.Here store' := by
  obtain ⟨node, at', owns⟩ := here
  exact ⟨node, by rw [same _ (by simp [Item.addrs]), at'], owns.frame fun a below => same a (List.mem_cons_of_mem _ below)⟩

theorem Children.frame {store store' : Store} {array : Addr} {items : List Item} (children : Children store array items)
    (same : ∀ a ∈ array :: items.flatMap Item.addrs, store' a = store a) : Children store' array items := by
  obtain ⟨root, last, atRoot, segment⟩ := children.linked
  refine ⟨⟨root, last, by rw [same _ (by simp), atRoot], segment.frame fun a member => ?_⟩,
    fun item member => ?_, children.distinct⟩
  · exact same a (List.mem_cons_of_mem _ ((tops_sublist items).mem member))
  · exact (children.here item member).frame fun a own => same a (List.mem_cons_of_mem _ (List.mem_flatMap.mpr ⟨item, member, own⟩))

/-! ### Deleting an item -/

section
variable {store : Store} {array : Addr} {root node : cJSON} {front back : List Item} {c : Item} {last : Option Addr}

/-- The pointer to the item, in the child before it or in the container, now leads past it. -/
theorem unlink_before (atRoot : store array = some root)
    (segment : Segment cJSON.next cJSON.prev store none root.child (front.map Item.addr) node.prev (some c.addr))
    (distinct : array ∉ front.map Item.addr ∧ (front.map Item.addr).Nodup) (here : ∀ i ∈ front, i.Here store) :
    ∃ store' root', (match node.prev with
        | some prev => modify store prev fun p => { p with next := node.next }
        | none => modify store array fun a => { a with child := node.next }) = some store' ∧
      store' array = some root' ∧
      Segment cJSON.next cJSON.prev store' none root'.child (front.map Item.addr) node.prev node.next ∧
      (∀ a, a ≠ array → a ∉ front.map Item.addr → store' a = store a) ∧
      ∀ tops, array ∉ tops → front.map Item.addr ⊆ tops → Relinks array tops store store' := by
  rcases List.eq_nil_or_concat' front with rfl | ⟨before, y, rfl⟩
  · obtain ⟨first, -⟩ := Segment.nil_iff.mp segment
    obtain ⟨store', written, wrote⟩ := modify_total atRoot fun a => { a with child := node.next }
    exact ⟨store', _, by rw [first]; exact written, wrote.here, Segment.nil_iff.mpr ⟨first, rfl⟩,
      fun a other _ => wrote.others a other, fun tops apart _ => wrote.container apart⟩
  · rw [List.map_append, List.map_singleton] at segment distinct ⊢
    have previous := segment.last_eq
    obtain ⟨nodey, aty, -⟩ := here y (by simp)
    obtain ⟨store', written, wrote⟩ := modify_total aty fun p => { p with next := node.next }
    obtain ⟨apart, each⟩ := distinct
    simp only [List.mem_append, List.mem_singleton, not_or] at apart
    rw [List.nodup_append] at each
    refine ⟨store', root, by rw [previous]; exact written, by rw [wrote.others array apart.2, atRoot], ?_, ?_, ?_⟩
    · have relinked := segment.set_next aty wrote.here rfl fun b member =>
        wrote.others b fun same => each.2.2 b member y.addr (by simp) same
      rw [previous]
      exact relinked
    · intro a _ other
      exact wrote.others a (by rintro rfl; simp at other)
    · intro tops _ inside
      exact wrote.child array (inside (by simp)) aty rfl

/-- The pointer back to the item, where there is a child after it, now leads past it. -/
theorem unlink_after (segment : Segment cJSON.next cJSON.prev store (some c.addr) node.next (back.map Item.addr) last none)
    (distinct : (back.map Item.addr).Nodup) (here : ∀ i ∈ back, i.Here store) :
    ∃ store' last', (match node.next with
        | some next => modify store next fun x => { x with prev := node.prev }
        | none => some store) = some store' ∧
      Segment cJSON.next cJSON.prev store' node.prev node.next (back.map Item.addr) last' none ∧
      (∀ a, a ∉ back.map Item.addr → store' a = store a) ∧
      ∀ (array : Addr) (tops : List Addr), back.map Item.addr ⊆ tops → Relinks array tops store store' := by
  cases back with
  | nil =>
    obtain ⟨-, ends⟩ := Segment.nil_iff.mp segment
    rw [← ends]
    exact ⟨store, node.prev, rfl, .nil _ _, fun _ _ => rfl, fun _ _ _ => .refl⟩
  | cons z rest =>
    rw [List.map_cons] at segment distinct ⊢
    obtain ⟨-, -, following, -⟩ := Segment.cons_iff.mp segment
    obtain ⟨nodez, atz, -⟩ := here z (by simp)
    obtain ⟨store', written, wrote⟩ := modify_total atz fun x => { x with prev := node.prev }
    have relinked := segment.set_prev atz wrote.here rfl fun b member => wrote.others b (by
      rintro rfl
      exact (List.nodup_cons.mp distinct).1 member)
    refine ⟨store', last, by rw [following]; exact written, by rw [following]; exact relinked, ?_, ?_⟩
    · intro a other
      exact wrote.others a (by rintro rfl; simp at other)
    · intro array tops inside
      exact wrote.child array (inside (by simp)) atz rfl

end

theorem Relinks.none_iff {array : Addr} {tops : List Addr} {store store' : Store} (relinks : Relinks array tops store store')
    {root root' : cJSON} (was : store array = some root) (still : store' array = some root')
    (full : ∀ a ∈ tops, ∃ node, store a = some node)
    (a : Addr) : store' a = none ↔ store a = none := by
  by_cases self : a = array
  · rw [self, was, still]
    simp
  by_cases top : a ∈ tops
  · obtain ⟨node, here⟩ := full a top
    obtain ⟨node', here', -⟩ := relinks.owned a top node here
    rw [here, here']
    simp
  · rw [relinks.others a self top]

theorem getArrayItem_total {store : Store} {array : Addr} {items : List Item} (children : Children store array items) (index : ℕ) :
    cJSON_GetArrayItem store (some array) index = some (items[index]?.map Item.addr) := by
  obtain ⟨root, last, atRoot, segment⟩ := children.linked
  simp [cJSON_GetArrayItem, atRoot, itemLoop_total segment]

section
variable {store : Store} {array : Addr} {front back : List Item} {c : Item}

/-- Before it is deleted the item is cut off, and the children around it are linked to each other. -/
theorem unlink_total (children : Children store array (front ++ c :: back)) : ∃ store' root last,
    (∀ n, cJSON_DeleteItemFromArray n store array front.length = cJSON_Delete n store' (some c.addr)) ∧
    store' array = some root ∧ Segment cJSON.next cJSON.prev store' none root.child ((front ++ back).map Item.addr) last none ∧
    Relinks array ((front ++ c :: back).map Item.addr) store store' ∧ ∃ node, store' c.addr = some node ∧ node.next = none := by
  obtain ⟨root, last, atRoot, segment⟩ := children.linked
  have found := getArrayItem_total children front.length
  rw [List.getElem?_append_right le_rfl, Nat.sub_self, List.getElem?_cons_zero, Option.map_some] at found
  have inside : front.map Item.addr ⊆ (front ++ c :: back).map Item.addr ∧
    back.map Item.addr ⊆ (front ++ c :: back).map Item.addr ∧
      c.addr ∈ (front ++ c :: back).map Item.addr := by
    rw [List.map_append, List.map_cons]
    exact ⟨List.subset_append_left _ _, List.Subset.trans (List.subset_cons_self _ _) (List.subset_append_right _ _), by simp⟩
  -- The container, the children before, the item and the children after are all at different addresses.
  obtain ⟨container, apart⟩ := tops_distinct children.distinct
  rw [List.map_append, List.map_cons, List.nodup_append, List.nodup_cons] at apart
  obtain ⟨distinctf, ⟨cOnly, distinctb⟩, fronts⟩ := apart
  have container' := container
  simp only [List.map_append, List.map_cons, List.mem_append, List.mem_cons, not_or] at container'
  have cFront : c.addr ∉ front.map Item.addr := fun member => fronts _ member c.addr (by simp) rfl
  have bFront : ∀ a ∈ back.map Item.addr, a ∉ front.map Item.addr :=
    fun a member member' => fronts a member' a (by simp [member]) rfl
  -- The two links that lead to the item.
  rw [List.map_append, List.map_cons] at segment
  obtain ⟨p, f, segmentf, segmentc⟩ := Segment.append_iff.mp segment
  obtain ⟨node, atC, rfl, rfl, segmentb⟩ := Segment.cons_iff.mp segmentc
  obtain ⟨store₁, root₁, step₁, atRoot₁, segmentf₁, others₁, relinks₁⟩ :=
    unlink_before atRoot segmentf ⟨container'.1, distinctf⟩ fun i member => children.here i (by simp [member])
  have r₁ := relinks₁ _ container inside.1
  have atC₁ := (others₁ c.addr (Ne.symm container'.2.1) cFront).trans atC
  have segmentb₁ : Segment cJSON.next cJSON.prev store₁ _ _ _ _ _ := segmentb.frame fun a member =>
    others₁ a (by rintro rfl; exact container'.2.2 member) (bFront a member)
  obtain ⟨store₂, last₂, step₂, segmentb₂, others₂, relinks₂⟩ := unlink_after segmentb₁ distinctb fun i member =>
    r₁.item (inside.2.1 (List.mem_map_of_mem member)) (fun a => below_apart children.distinct (by simp [member]))
      (children.here i (by simp [member]))
  have atC₂ := (others₂ c.addr cOnly).trans atC₁
  -- Its own links.
  obtain ⟨store₃, step₃, wrote₃⟩ := modify_total atC₂ fun node => { node with next := none, prev := none, parent := none }
  refine ⟨store₃, root₁, last₂, fun n => ?_, ?_, ?_,
    r₁.trans ((relinks₂ array _ inside.2.1).trans (wrote₃.child array inside.2.2 atC₂ rfl)),
    _, wrote₃.here, rfl⟩
  · simp only [cJSON_DeleteItemFromArray, found, Option.bind_eq_bind, Option.bind_some, atC, step₁, atC₁, step₂, step₃]
  · rw [wrote₃.others _ container'.2.1, others₂ _ container'.2.2, atRoot₁]
  · rw [List.map_append]
    refine Segment.append_iff.mpr ⟨_, _, segmentf₁.frame fun a member => ?_, segmentb₂.frame fun a member => ?_⟩
    · rw [wrote₃.others _ (by rintro rfl; exact cFront member), others₂ _ fun after => bFront _ after member]
    · rw [wrote₃.others _ (by rintro rfl; exact cOnly member)]

/-- The nodes of the other children and the container are not the item's. -/
theorem others_apart (distinct : (array :: (front ++ c :: back).flatMap Item.addrs).Nodup) :
    c.addrs.Nodup ∧ ∀ a ∈ array :: (front ++ back).flatMap Item.addrs, a ∉ c.addrs := by
  obtain ⟨container, nodes⟩ := List.nodup_cons.mp distinct
  rw [List.flatMap_append, List.flatMap_cons] at nodes container
  rw [List.nodup_append, List.nodup_append] at nodes
  obtain ⟨-, ⟨distinctc, -, backs⟩, fronts⟩ := nodes
  refine ⟨distinctc, fun a own taken => ?_⟩
  rw [List.flatMap_append] at own
  rcases List.mem_cons.mp own with rfl | own
  · exact container (by simp [taken])
  · rcases List.mem_append.mp own with before | after
    · exact fronts a before a (by simp [taken]) rfl
    · exact backs a taken a after rfl

end

/-- The item is unlinked, and it and what it owns are freed. -/
theorem deleteItem_total {store : Store} {array : Addr} {items : List Item} (children : Children store array items) (index : ℕ) :
    ∃ store', (∀ n, (∀ item ∈ items[index]?, item.addrs.length ≤ n) →
      cJSON_DeleteItemFromArray n store array index = some store') ∧
      Children store' array (items.eraseIdx index) ∧
        ∀ a, store' a = none ↔ store a = none ∨ ∃ item ∈ items[index]?, a ∈ item.addrs := by
  rcases Nat.lt_or_ge index items.length with inside | outside
  · obtain ⟨front, c, back, rfl, rfl⟩ : ∃ front c back, items = front ++ c :: back ∧ index = front.length := by
      refine ⟨items.take index, items[index], items.drop (index + 1), ?_, by simp; omega⟩
      rw [List.getElem_cons_drop, List.take_append_drop]
    have item : (front ++ c :: back)[front.length]? = some c := by simp
    rw [item, List.eraseIdx_append_of_length_le le_rfl, Nat.sub_self, List.eraseIdx_cons_zero]
    obtain ⟨root, last, atRoot, -⟩ := children.linked
    obtain ⟨store₁, root₁, last₁, unlinked, atRoot₁, segment, relinks, node, atC, alone⟩ := unlink_total children
    obtain ⟨distinctc, apart⟩ := others_apart children.distinct
    have full : ∀ a ∈ (front ++ c :: back).map Item.addr, ∃ node, store a = some node := by
      intro a top
      obtain ⟨i, member, rfl⟩ := List.mem_map.mp top
      obtain ⟨node, here, -⟩ := children.here i member
      exact ⟨node, here⟩
    have here₁ : ∀ i ∈ front ++ c :: back, i.Here store₁ := fun i member =>
      relinks.item (List.mem_map_of_mem member) (fun a => below_apart children.distinct member) (children.here i member)
    -- The item leads to no other child any more, so what is freed is its own.
    have deleted (n : ℕ) (enough : c.addrs.length ≤ n) : cJSON_Delete n store₁ (some c.addr) = some (erase store₁ c.addrs) := by
      obtain ⟨node', atC', owns⟩ := here₁ c (by simp)
      obtain rfl := Option.some.inj (atC.symm.trans atC')
      have addrs : (Forest.cons c.addr c.below .nil).addrs = c.addrs := by simp [Forest.addrs, Item.addrs]
      rw [← addrs] at distinctc enough ⊢
      exact delete_total (.cons atC owns (alone ▸ .nil)) distinctc enough
    have still : ∀ a ∈ array :: (front ++ back).flatMap Item.addrs, erase store₁ c.addrs a = store₁ a := fun a own =>
      erase_of_notMem (apart a own)
    have left : Children store₁ array (front ++ back) := by
      refine ⟨⟨root₁, last₁, atRoot₁, segment⟩, fun i member => here₁ i ?_, children.distinct.sublist (.cons_cons _ ?_)⟩
      · rcases List.mem_append.mp member with before | after
        · simp [before]
        · simp [after]
      · simp [List.flatMap_append]
    refine ⟨erase store₁ c.addrs, fun n enough => (unlinked n).trans (deleted n (enough c rfl)), left.frame still, fun a => ?_⟩
    have same := relinks.none_iff atRoot atRoot₁ full a
    by_cases taken : a ∈ c.addrs
    · simp [erase, taken]
    · simp [erase, taken, same]
  · have nothing : items[index]? = none := List.getElem?_eq_none outside
    refine ⟨store, fun n _ => ?_, ?_, ?_⟩
    · have found := getArrayItem_total children index
      rw [nothing, Option.map_none] at found
      simp [cJSON_DeleteItemFromArray, found]
    · rwa [List.eraseIdx_of_length_le outside]
    · simp [nothing]

/-- An operation on one container. -/
inductive Op where
  | addToArray (item : Item)
  | addToObject (key : CString) (item : Item)
  | deleteFromArray (index : ℕ)

def Op.run (n : ℕ) (store : Store) (array : Addr) : Op → Option Store
  | .addToArray item => cJSON_AddItemToArray n store (some array) (some item.addr)
  | .addToObject key item => cJSON_AddItemToObject n store (some array) (some key) (some item.addr)
  | .deleteFromArray index => cJSON_DeleteItemFromArray n store array index

/-- The same on a plain list. -/
def Op.plain (items : List Item) : Op → List Item
  | .addToArray item => items ++ [item]
  | .addToObject _ item => items ++ [item]
  | .deleteFromArray index => items.eraseIdx index

/-- The items that are added are fresh. -/
def Op.Allowed (store : Store) (array : Addr) (items : List Item) : Op → Prop
  | .addToArray item => Fresh store array items item
  | .addToObject _ item => Fresh store array items item
  | .deleteFromArray _ => True

/-- The operation ends, however many passes more it is given, and leaves `store'`. -/
def Op.Leaves (op : Op) (store : Store) (array : Addr) (store' : Store) : Prop :=
  ∃ k, ∀ n, k ≤ n → op.run n store array = some store'

/-- What a run of operations on a container comes to, with the plain list that the same
    operations give. Between them other code may do as it likes with other nodes. -/
inductive Run (array : Addr) : Store → List Item → Prop
  | start {store : Store} {node : cJSON} (here : store array = some node) (empty : node.child = none) : Run array store []
  | elsewhere {store store' : Store} {items : List Item} (run : Run array store items)
      (same : ∀ a ∈ array :: items.flatMap Item.addrs, store' a = store a) : Run array store' items
  | step {store store' : Store} {items : List Item} (op : Op) (run : Run array store items)
    (allowed : op.Allowed store array items)
      (leaves : op.Leaves store array store') : Run array store' (op.plain items)

theorem addToObject_total {store : Store} {array : Addr} {items : List Item} (children : Children store array items) {item : Item}
    (fresh : Fresh store array items item) (key : CString) : ∃ store',
      (∀ n, items.length ≤ n → cJSON_AddItemToObject n store (some array) (some key) (some item.addr) = some store') ∧
      Children store' array (items ++ [item]) := by
  obtain ⟨node, atItem, owns⟩ := fresh.here
  obtain ⟨store₁, named, wrote⟩ := modify_total atItem fun node => { node with string := some key }
  have distinct := fresh.distinct
  rw [List.flatMap_append, List.flatMap_singleton, ← List.cons_append, List.nodup_append] at distinct
  have children₁ : Children store₁ array items := children.frame fun a member => wrote.others a fun same =>
    distinct.2.2 a member item.addr (by simp [Item.addrs]) same
  have below : ∀ a ∈ item.below.addrs, store₁ a = store a := fun a member => wrote.others a (by
    rintro rfl
    exact (List.nodup_cons.mp distinct.2.1).1 member)
  have fresh₁ : Fresh store₁ array items item := ⟨⟨_, wrote.here, owns.frame below⟩, fresh.distinct⟩
  obtain ⟨store', added, children'⟩ := append_total children₁ fresh₁
  refine ⟨store', fun n enough => ?_, children'⟩
  simp only [cJSON_AddItemToObject, named, Option.bind_eq_bind, Option.bind_some, added n enough]

theorem Op.Leaves.unique {op : Op} {store store' store'' : Store} {array : Addr} (first : op.Leaves store array store')
    (second : op.Leaves store array store'') : store' = store'' := by
  obtain ⟨k, run⟩ := first
  obtain ⟨k', run'⟩ := second
  exact Option.some.inj ((run (max k k') (le_max_left _ _)).symm.trans (run' (max k k') (le_max_right _ _)))

/-- An operation ends and does to the children what it does to the plain list. -/
theorem op_total {store : Store} {array : Addr} {items : List Item} (children : Children store array items) {op : Op}
    (allowed : op.Allowed store array items) :
    ∃ store', op.Leaves store array store' ∧ Children store' array (op.plain items) := by
  cases op with
  | addToArray item =>
    obtain ⟨store', ends, children'⟩ := append_total children allowed
    exact ⟨store', ⟨items.length, ends⟩, children'⟩
  | addToObject key item =>
    obtain ⟨store', ends, children'⟩ := addToObject_total children allowed key
    exact ⟨store', ⟨items.length, ends⟩, children'⟩
  | deleteFromArray index =>
    obtain ⟨store', ends, children', -⟩ := deleteItem_total children index
    refine ⟨store', ⟨(items[index]?.map fun item => item.addrs.length).getD 0,
      fun n enough => ends n fun item found => ?_⟩, children'⟩
    simpa [Option.mem_def.mp found] using enough

theorem run_children {store : Store} {array : Addr} {items : List Item}
    (run : Run array store items) : Children store array items := by
  induction run with
  | start here empty => exact ⟨⟨_, none, here, empty ▸ .nil _ _⟩, by simp, by simp⟩
  | elsewhere _ same children => exact children.frame same
  | step op _ allowed leaves children =>
    obtain ⟨store', leaves', children'⟩ := op_total children allowed
    exact leaves.unique leaves' ▸ children'

theorem forEach_total {store : Store} {array : Addr} {items : List Item} (children : Children store array items) {n : ℕ}
    (enough : items.length ≤ n) : cJSON_ArrayForEach n store (some array) = some (items.map Item.addr) := by
  obtain ⟨root, last, atRoot, segment⟩ := children.linked
  simp [cJSON_ArrayForEach, atRoot, segment.walk_eq (n := n) (by simpa using enough)]

theorem getArraySize_total {store : Store} {array : Addr} {items : List Item} (children : Children store array items) {n : ℕ}
    (enough : items.length ≤ n) : cJSON_GetArraySize n store (some array) = some items.length := by
  simp [cJSON_GetArraySize, forEach_total children enough]

theorem Run.goes_on {store : Store} {array : Addr} {items : List Item} (op : Op) (run : Run array store items)
    (allowed : op.Allowed store array items) : ∃ store', Run array store' (op.plain items) := by
  obtain ⟨store', leaves, -⟩ := op_total (run_children run) allowed
  exact ⟨store', .step op run allowed leaves⟩

/-- In every run the children are a proper doubly linked list of the items of the plain
    list: `next` leads through them in order and ends, and `prev` leads back. Every
    operation on it ends, and a deletion frees the nodes of the item and no others. -/
theorem children_linked {store : Store} {array : Addr} {items : List Item} (run : Run array store items) :
    (∀ n, items.length ≤ n → cJSON_ArrayForEach n store (some array) = some (items.map Item.addr)) ∧
    Backward cJSON.prev store none (items.map Item.addr) ∧
    (∀ op : Op, op.Allowed store array items → ∃ store', op.Leaves store array store') ∧
    ∀ index : ℕ, ∃ store', (Op.deleteFromArray index).Leaves store array store' ∧
      ∀ a, store' a = none ↔ store a = none ∨ ∃ item ∈ items[index]?, a ∈ item.addrs := by
  have children := run_children run
  obtain ⟨root, last, atRoot, segment⟩ := children.linked
  refine ⟨fun n enough => forEach_total children enough, segment.backward, fun op allowed => ?_, fun index => ?_⟩
  · obtain ⟨store', leaves, -⟩ := op_total children allowed
    exact ⟨store', leaves⟩
  · obtain ⟨store', ends, -, freed⟩ := deleteItem_total children index
    refine ⟨store', ⟨(items[index]?.map fun item => item.addrs.length).getD 0, fun n enough => ends n fun item found => ?_⟩, freed⟩
    simpa [Option.mem_def.mp found] using enough

/-- A container at 1 and a node at 2 with a child at 3. -/
def fewNodes : Store
  | 1 => some ⟨none, none, none, none, none, false⟩
  | 2 => some ⟨none, none, some 3, none, none, false⟩
  | 3 => some ⟨none, none, none, some 2, none, false⟩
  | _ => none

/-- The node is added, a member is allocated and added, and the first child is deleted. -/
theorem children_linked_few : ∃ store, Run 1 store [⟨4, .nil⟩] ∧
    (∀ n, 1 ≤ n → cJSON_ArrayForEach n store (some 1) = some [4]) ∧ Backward cJSON.prev store none [4] ∧
    (∀ op : Op, op.Allowed store 1 [⟨4, .nil⟩] → ∃ store', op.Leaves store 1 store') ∧
    ∀ index : ℕ, ∃ store', (Op.deleteFromArray index).Leaves store 1 store' ∧
      ∀ a, store' a = none ↔ store a = none ∨ ∃ item ∈ ([⟨4, .nil⟩] : List Item)[index]?, a ∈ item.addrs := by
  have run : Run 1 fewNodes [] := .start rfl rfl
  have fresh : Fresh fewNodes 1 [] ⟨2, .cons 3 .nil .nil⟩ := ⟨⟨_, rfl, .cons rfl .nil .nil⟩, by decide⟩
  obtain ⟨store₁, run₁⟩ := run.goes_on (.addToArray ⟨2, .cons 3 .nil .nil⟩) fresh
  let store₂ : Store := fun a => if a = 4 then some ⟨none, none, none, none, none, false⟩ else store₁ a
  have run₂ : Run 1 store₂ [⟨2, .cons 3 .nil .nil⟩] := run₁.elsewhere fun a member => if_neg (by rintro rfl; revert member; decide)
  have fresh₂ : Fresh store₂ 1 [⟨2, .cons 3 .nil .nil⟩] ⟨4, .nil⟩ := ⟨⟨_, rfl, .nil⟩, by decide⟩
  obtain ⟨store₃, run₃⟩ := run₂.goes_on (.addToObject (cs "key") ⟨4, .nil⟩) fresh₂
  obtain ⟨store₄, run₄⟩ := run₃.goes_on (.deleteFromArray 0) trivial
  exact ⟨store₄, run₄, children_linked run₄⟩

end Sa.ChildList
