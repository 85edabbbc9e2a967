import Mathlib.Data.List.Induction
import ModuleLoader.Proofs.Bindings
/-!
Objects and what has been done to them.

An object is known under as many names as there are references to it, and whoever has one
may set its properties and delete them. What the object is like in the end is told by the
changes that were made to it, one after the other, no matter who made them and what was
done in between to others.

Each key has its own story. It counts whether the last change to it set it, and to what;
and its place among the keys is that of the first change that set it behind the last one
that deleted it. So a key keeps its place when it is set again, and loses it for good when
it is deleted. That an insertion keeps the place of a key that is there and otherwise adds
one at the end, and that an erasure keeps the order of the rest, is all that this takes.

Copies of the properties have a story of their own from then on, and namespaces have none.
-/

namespace ModuleLoader

/-! ### Changes -/

inductive Change where
  | set (key : String) (value : Value)
  | delete (key : String)

namespace Change

def key : Change → String
  | set key _ => key
  | delete key => key

def value? : Change → Option Value
  | set _ value => some value
  | delete _ => none

def sets (key : String) : Change → Bool
  | set k _ => k == key
  | delete _ => false

def deletes (key : String) : Change → Bool
  | set _ _ => false
  | delete k => k == key

def ofAction? {σ η : Type} (o : ObjectRef) : Action σ η → Option Change
  | .setProperty p key value => if p = o then some (set key value) else none
  | .deleteProperty p key => if p = o then some (delete key) else none
  | _ => none

def apply (properties : Properties) : Change → Properties
  | set key value => properties.insert key value
  | delete key => properties.erase key

end Change

/-- Changes in the order in which they were made. -/
abbrev Changes := List Change

namespace Changes

def ofPairs (pairs : List (String × Value)) : Changes := pairs.map fun p => .set p.1 p.2

def ofActions {σ η : Type} (o : ObjectRef) (actions : List (Action σ η)) : Changes :=
  actions.filterMap (Change.ofAction? o)

def last? (changes : Changes) (key : String) : Option Change :=
  (changes.filter (·.key == key)).getLast?

/-- What the last change to a key has left under it. -/
def value? (changes : Changes) (key : String) : Option Value :=
  (changes.last? key).bind Change.value?

/-- The changes behind the last one that deleted the key, or all of them. -/
def sinceDeleted (changes : Changes) (key : String) : Changes :=
  (changes.reverse.takeWhile fun c => !c.deletes key).reverse

/-- How many changes there are before the first one that set the key behind the last one that
deleted it. -/
def position (changes : Changes) (key : String) : Nat :=
  changes.length - (changes.sinceDeleted key).length +
    (changes.sinceDeleted key).findIdx (Change.sets key)

variable {changes : Changes} {key k : String}

/-! ### One more change -/

theorem last?_concat (changes : Changes) (c : Change) (key : String) :
    last? (changes ++ [c]) key = if c.key = key then some c else changes.last? key := by
  unfold last?
  by_cases hc : c.key = key
  · simp [hc]
  · simp [hc]

theorem value?_concat (changes : Changes) (c : Change) (key : String) :
    value? (changes ++ [c]) key = if c.key = key then c.value? else changes.value? key := by
  rw [value?, last?_concat]
  split <;> rfl

theorem sinceDeleted_concat (changes : Changes) (c : Change) (key : String) :
    sinceDeleted (changes ++ [c]) key =
      if c.deletes key then [] else changes.sinceDeleted key ++ [c] := by
  unfold sinceDeleted
  rw [List.reverse_append, List.reverse_singleton, List.singleton_append, List.takeWhile_cons]
  cases c.deletes key <;> simp

theorem length_sinceDeleted_le (changes : Changes) (key : String) :
    (changes.sinceDeleted key).length ≤ changes.length := by
  have hle := (List.takeWhile_prefix (l := changes.reverse) fun c => !c.deletes key).length_le
  simpa [sinceDeleted] using hle

/-- There is a value under a key if it has been set since it was deleted. -/
theorem isSome_value?_iff (changes : Changes) (key : String) :
    (changes.value? key).isSome ↔ ∃ c ∈ changes.sinceDeleted key, c.sets key := by
  induction changes using List.reverseRecOn with
  | nil => simp [value?, last?, sinceDeleted]
  | append_singleton changes c ih =>
      rw [value?_concat, sinceDeleted_concat]
      cases c with
      | set k value =>
          by_cases hk : k = key
          · simp [hk, Change.key, Change.value?, Change.deletes, Change.sets]
          · simpa [hk, Change.key, Change.deletes, Change.sets] using ih
      | delete k =>
          by_cases hk : k = key
          · simp [hk, Change.key, Change.value?, Change.deletes]
          · simpa [hk, Change.key, Change.deletes, Change.sets] using ih

theorem position_concat (h : (changes.value? key).isSome) {c : Change}
    (hc : c.deletes key = false) :
    position (changes ++ [c]) key = changes.position key := by
  have hfound := List.findIdx_lt_length.2 ((isSome_value?_iff changes key).1 h)
  rw [position, sinceDeleted_concat, hc, if_neg (by simp), List.findIdx_append, if_pos hfound,
    List.length_append, List.length_append, Nat.add_sub_add_right, position]

theorem position_lt (h : (changes.value? key).isSome) : changes.position key < changes.length := by
  have hfound := List.findIdx_lt_length.2 ((isSome_value?_iff changes key).1 h)
  have hle := changes.length_sinceDeleted_le key
  unfold position
  omega

theorem position_concat_set (h : changes.value? key = none) (value : Value) :
    position (changes ++ [.set key value]) key = changes.length := by
  have hnone : (changes.sinceDeleted key).findIdx (Change.sets key) =
      (changes.sinceDeleted key).length := by
    refine List.findIdx_eq_length.2 fun c hc => ?_
    by_contra hsets
    have hsome := (isSome_value?_iff changes key).2 ⟨c, hc, by simpa using hsets⟩
    rw [h] at hsome
    cases hsome
  have hle := changes.length_sinceDeleted_le key
  rw [position, sinceDeleted_concat, if_neg (by simp [Change.deletes]), List.findIdx_append, hnone,
    if_neg (Nat.lt_irrefl _)]
  simp [Change.sets]
  omega

end Changes

/-! ### Properties after changes -/

structure Properties.Follow (ps : Properties) (changes : Changes) : Prop where
  find? : ∀ key, ps.find? key = changes.value? key
  order : ps.keys.Pairwise fun k k' => changes.position k < changes.position k'

namespace OrderedMap

/-- The keys are those under which there is something. -/
theorem mem_keys_iff {α : Type} (m : OrderedMap α) (key : String) :
    key ∈ m.keys ↔ (m.find? key).isSome := by
  rw [keys, find?, List.lookup_isSome_iff]
  simp

end OrderedMap

namespace Properties.Follow

variable {ps : Properties} {changes : Changes}

theorem mem_keys (h : ps.Follow changes) (key : String) :
    key ∈ ps.keys ↔ (changes.value? key).isSome := by
  rw [ps.mem_keys_iff, h.find?]

theorem empty : Properties.Follow .empty [] := ⟨fun _ => rfl, .nil⟩

/-- The keys that a change leaves alone keep their order. -/
theorem order_concat (h : ps.Follow changes) {c : Change} {keys : List String}
    (hkeys : keys.Sublist ps.keys) (hc : ∀ key ∈ keys, c.deletes key = false) :
    keys.Pairwise fun k k' =>
      Changes.position (changes ++ [c]) k < Changes.position (changes ++ [c]) k' := by
  have hposition : ∀ key ∈ keys, Changes.position (changes ++ [c]) key = changes.position key :=
    fun key hkey => Changes.position_concat ((h.mem_keys key).1 (hkeys.subset hkey)) (hc key hkey)
  refine (h.order.sublist hkeys).imp_of_mem fun hk hk' hlt => ?_
  rwa [hposition _ hk, hposition _ hk']

theorem insert (h : ps.Follow changes) (key : String) (value : Value) :
    Properties.Follow (OrderedMap.insert ps key value) (changes ++ [.set key value]) where
  find? k := by
    rw [OrderedMap.find?_insert, Changes.value?_concat, h.find?]
    by_cases hk : k = key
    · simp [hk, Change.key, Change.value?]
    · simp [hk, Ne.symm hk, Change.key]
  order := by
    rw [OrderedMap.keys_insert]
    split
    · exact h.order_concat (List.Sublist.refl _) fun _ _ => rfl
    · rename_i hnew
      refine List.pairwise_append.2 ⟨h.order_concat (List.Sublist.refl _) fun _ _ => rfl,
        List.pairwise_singleton _ _, fun k hk k' hk' => ?_⟩
      obtain rfl := List.mem_singleton.1 hk'
      have hnone : changes.value? k' = none := by
        rwa [h.mem_keys, Option.not_isSome_iff_eq_none] at hnew
      have hsome := (h.mem_keys k).1 hk
      rw [Changes.position_concat_set hnone, Changes.position_concat hsome rfl]
      exact Changes.position_lt hsome

theorem erase (h : ps.Follow changes) (key : String) :
    Properties.Follow (OrderedMap.erase ps key) (changes ++ [.delete key]) where
  find? k := by
    rw [OrderedMap.find?_erase, Changes.value?_concat, h.find?]
    by_cases hk : k = key
    · simp [hk, Change.key, Change.value?]
    · simp [hk, Ne.symm hk, Change.key]
  order := by
    rw [OrderedMap.keys_erase]
    refine h.order_concat List.filter_sublist fun k hk => ?_
    have hne : key ≠ k := by simpa using (List.mem_filter.1 hk).2
    simpa [Change.deletes] using hne

theorem apply (h : ps.Follow changes) (c : Change) :
    Properties.Follow (c.apply ps) (changes ++ [c]) := by
  cases c with
  | set key value => exact h.insert key value
  | delete key => exact h.erase key

theorem ofList (pairs : List (String × Value)) :
    Properties.Follow (.ofList pairs) (.ofPairs pairs) := by
  induction pairs using List.reverseRecOn with
  | nil => exact empty
  | append_singleton pairs p ih =>
      rw [OrderedMap.ofList_concat, Changes.ofPairs, List.map_append]
      exact ih.insert p.1 p.2

end Properties.Follow

/-! ### Objects after actions -/

variable {σ η : Type}

structure Heap.Bears (h : Heap) (o : ObjectRef) (changes : Changes) : Prop where
  lt_size : o.index < h.objects.size
  follow : (h.properties o).Follow changes

namespace Heap.Bears

variable {h h' : Heap} {o : ObjectRef} {changes : Changes}

theorem newObject (h : Heap) {ps : Properties} (hps : ps.Follow changes) :
    (h.newObject ps).2.Bears (h.newObject ps).1 changes where
  lt_size := by simp [Heap.newObject]
  follow := by simpa [Heap.newObject, Heap.properties] using hps

theorem of_extends (ho : h.Bears o changes) (hx : h.Extends h') : h'.Bears o changes where
  lt_size := Nat.lt_of_lt_of_le ho.lt_size hx.size
  follow := hx.properties o ho.lt_size ▸ ho.follow

/-- A change to an object is one more change to it, and none to any other. -/
theorem change (ho : h.Bears o changes) (p : ObjectRef) (c : Change) :
    (h.setProperties p (c.apply (h.properties p))).Bears o
      (changes ++ (if p = o then some c else none).toList) where
  lt_size := by
    rw [size_setProperties]
    exact ho.lt_size
  follow := by
    by_cases hp : p = o
    · subst hp
      rw [properties_setProperties _ _ _ _ ho.lt_size, if_pos rfl, if_pos rfl]
      exact ho.follow.apply c
    · rw [properties_setProperties_of_ne (Ne.symm hp), if_neg hp]
      simpa using ho.follow

theorem carryOut {s : State σ η} (ho : s.heap.Bears o changes) (a : Action σ η) :
    (a.carryOut s).2.heap.Bears o (changes ++ (Change.ofAction? o a).toList) := by
  have hstay : s.heap.Bears o (changes ++ (none : Option Change).toList) := by simpa using ho
  cases a with
  | make l => exact hstay.of_extends (Literal.extends_make l s.heap)
  | newNamespace exports => exact hstay.of_extends (extends_newNamespace s.heap exports)
  | newContext name? => exact hstay.of_extends (State.extends_newContext s name?)
  | setProperty p key value => exact ho.change p (.set key value)
  | deleteProperty p key => exact ho.change p (.delete key)
  | _ => exact hstay

end Heap.Bears

namespace State

def after (s : State σ η) (actions : List (Action σ η)) : State σ η :=
  actions.foldl (fun s a => (a.carryOut s).2) s

/-- What is done to an object shows in its properties, and nothing else does. -/
theorem bears_after {s : State σ η} {o : ObjectRef} {changes : Changes}
    (ho : s.heap.Bears o changes) (actions : List (Action σ η)) :
    (s.after actions).heap.Bears o (changes ++ .ofActions o actions) := by
  induction actions generalizing s changes with
  | nil => simpa [after, Changes.ofActions] using ho
  | cons a rest ih =>
      have hrest := ih (ho.carryOut a)
      have hsplit : (Change.ofAction? o a).toList ++ Changes.ofActions o rest =
          Changes.ofActions o (a :: rest) := by
        unfold Changes.ofActions
        rw [List.filterMap_cons]
        cases Change.ofAction? o a <;> rfl
      rwa [List.append_assoc, hsplit] at hrest

end State

/-! ### What a value shows -/

theorem Changes.isSome_value?_iff_last? (changes : Changes) (key : String) :
    (changes.value? key).isSome ↔ ∃ value, changes.last? key = some (.set key value) := by
  unfold value?
  cases hlast : changes.last? key with
  | none => simp
  | some c =>
      have hkey : c.key = key := by
        simpa using (List.mem_filter.1 (List.mem_of_getLast? hlast)).2
      subst hkey
      cases c <;> simp [Change.value?, Change.key]

/-- The value lists exactly the keys to which the last change set them, in the order in which they
were first set behind the last change that deleted them; and under a key it has what it was last set
to, or undefined if that is not what the last change did. -/
structure Heap.Shows (h : Heap) (v : Value) (changes : Changes) : Prop where
  keys : ∃ keys, h.ownKeys? v = some keys ∧
    (∀ key, key ∈ keys ↔ ∃ value, changes.last? key = some (.set key value)) ∧
    keys.Pairwise fun k k' => changes.position k < changes.position k'
  get : ∀ key, h.get v key = (changes.value? key).getD .undefined

namespace Properties.Follow

variable {h : Heap} {changes : Changes}

theorem shows_object {o : ObjectRef} (hps : (h.properties o).Follow changes) :
    h.Shows (.object o) changes where
  keys := ⟨_, rfl, fun key => (hps.mem_keys key).trans (changes.isSome_value?_iff_last? key),
    hps.order⟩
  get key := congrArg (·.getD .undefined) (hps.find? key)

theorem shows_moduleNamespace {n : Namespace} (hps : Properties.Follow n.contents changes) :
    h.Shows (.moduleNamespace n) changes where
  keys := ⟨_, rfl, fun key => (hps.mem_keys key).trans (changes.isSome_value?_iff_last? key),
    hps.order⟩
  get key := congrArg (·.getD .undefined) (hps.find? key)

end Properties.Follow

/-- An object lists exactly the keys to which the last change set them, in the order in which they
were first set behind the last change that deleted them, each with what it was last set to. What is
done to it later shows neither in a namespace nor in a copy that was made of its properties. -/
theorem objects_follow_changes (s : State σ η) (pairs : List (String × Value))
    (actions later : List (Action σ η)) :
    let (o, heap) := s.heap.newObject (.ofList pairs)
    let t := { s with heap }.after actions
    let changes := Changes.ofPairs pairs ++ .ofActions o actions
    t.heap.Shows (.object o) changes ∧
    (∀ key, t.heap.remove o key = (changes.value? key, t.heap.delete o key)) ∧
    let (n, heap) := t.heap.newNamespace (t.heap.properties o)
    let (copy, heap) := heap.newObject (t.heap.properties o)
    let u := { t with heap }.after later
    u.heap.Shows (.object o) (changes ++ .ofActions o later) ∧
    u.heap.Shows (.object copy) (changes ++ .ofActions copy later) ∧
    u.heap.Shows (.moduleNamespace n) changes := by
  let begun : State σ η := { s with heap := (s.heap.newObject (.ofList pairs)).2 }
  let o := (s.heap.newObject (.ofList pairs)).1
  let t := begun.after actions
  have ho : t.heap.Bears o (.ofPairs pairs ++ .ofActions o actions) :=
    State.bears_after (s := begun) (.newObject s.heap (.ofList pairs)) actions
  let named := (t.heap.newNamespace (t.heap.properties o)).2
  let copied : State σ η := { t with heap := (named.newObject (t.heap.properties o)).2 }
  have hcopy := State.bears_after (s := copied) (.newObject named ho.follow) later
  have ho' : copied.heap.Bears o (.ofPairs pairs ++ .ofActions o actions) := by
    have hnamed := ho.of_extends (Heap.extends_newNamespace t.heap (t.heap.properties o))
    exact hnamed.of_extends (Heap.extends_newObject named _)
  refine ⟨ho.follow.shows_object, fun key => ?_, (State.bears_after ho' later).follow.shows_object,
    hcopy.follow.shows_object, Properties.Follow.shows_moduleNamespace ho.follow⟩
  exact congrArg (·, t.heap.delete o key) (ho.follow.find? key)

/-- A key that is set again keeps its place, and one that is deleted and set again comes last. -/
example :
    let s : State Unit Empty := .initial ()
    let (o, heap) := s.heap.newObject (.ofList [("zeta", .null), ("alpha", .null)])
    ({ s with heap }.after [.setProperty o "mid" .null, .setProperty o "zeta" .undefined,
      .deleteProperty o "alpha", .setProperty o "alpha" .null]).heap.ownKeys? (.object o) =
      some ["zeta", "mid", "alpha"] := by
  decide +kernel

end ModuleLoader
