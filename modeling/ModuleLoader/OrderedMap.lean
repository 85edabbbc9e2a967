/-!
Maps that remember the order in which keys came in.

An object lists its properties in the order in which they were first set, and
that order is seen: it is the order of the names a module exports. So a map is
the list of its pairs, with no key twice. Setting a key that is there changes
the value where it stands; setting a new one puts it last; erasing closes the
gap. A key that is erased and set again is new, and goes to the end.
-/

namespace ModuleLoader

structure OrderedMap (α : Type) where
  entries : List (String × α)
  deriving Repr

namespace OrderedMap

variable {α : Type}

instance : Inhabited (OrderedMap α) := ⟨⟨[]⟩⟩

def empty : OrderedMap α := ⟨[]⟩

def keys (m : OrderedMap α) : List String := m.entries.map Prod.fst

def size (m : OrderedMap α) : Nat := m.entries.length

def find? (m : OrderedMap α) (key : String) : Option α := m.entries.lookup key

def contains (m : OrderedMap α) (key : String) : Bool := (m.find? key).isSome

/-- Pairs with a key set: in its place if it has one, and last otherwise. -/
def setIn (key : String) (value : α) : List (String × α) → List (String × α)
  | [] => [(key, value)]
  | (k, v) :: rest => if key == k then (k, value) :: rest else (k, v) :: setIn key value rest

def insert (m : OrderedMap α) (key : String) (value : α) : OrderedMap α :=
  ⟨setIn key value m.entries⟩

def erase (m : OrderedMap α) (key : String) : OrderedMap α :=
  ⟨m.entries.filter (key != ·.1)⟩

/-- The map that results from setting the pairs in turn: of equal keys the first fixes the position
and the last the value. -/
def ofList (pairs : List (String × α)) : OrderedMap α :=
  pairs.foldl (fun m p => m.insert p.1 p.2) empty

/-! ### Reading an updated map -/

@[simp] theorem keys_empty : (empty : OrderedMap α).keys = [] := rfl

theorem lookup_setIn (key k : String) (value : α) (pairs : List (String × α)) :
    (setIn key value pairs).lookup k = if k == key then some value else pairs.lookup k := by
  induction pairs with
  | nil =>
    by_cases h : k = key
    · simp [setIn, h]
    · simp [setIn, List.lookup_cons, beq_eq_false_iff_ne.2 h]
  | cons p rest ih =>
    obtain ⟨k', v'⟩ := p
    by_cases hk : key = k'
    · subst hk
      by_cases h : k = key
      · subst h; simp [setIn]
      · simp [setIn, List.lookup_cons, beq_eq_false_iff_ne.2 h]
    · by_cases h : k = k'
      · subst h
        simp [setIn, beq_eq_false_iff_ne.2 hk, beq_eq_false_iff_ne.2 (Ne.symm hk)]
      · simp [setIn, List.lookup_cons, beq_eq_false_iff_ne.2 hk, beq_eq_false_iff_ne.2 h, ih]

@[simp] theorem find?_insert (m : OrderedMap α) (key k : String) (value : α) :
    (m.insert key value).find? k = if k == key then some value else m.find? k :=
  lookup_setIn key k value m.entries

theorem lookup_filter_ne (key k : String) (pairs : List (String × α)) :
    (pairs.filter (key != ·.1)).lookup k = if k == key then none else pairs.lookup k := by
  induction pairs with
  | nil => simp
  | cons p rest ih =>
    obtain ⟨k', v'⟩ := p
    by_cases hk : key = k'
    · subst hk
      rw [List.filter_cons_of_neg (by simp), ih]
      by_cases h : k = key
      · simp [h]
      · simp [List.lookup_cons, beq_eq_false_iff_ne.2 h]
    · rw [List.filter_cons_of_pos (by simpa using hk)]
      by_cases h : k = k'
      · subst h
        simp [Ne.symm hk]
      · simp [List.lookup_cons, beq_eq_false_iff_ne.2 h, ih]

@[simp] theorem find?_erase (m : OrderedMap α) (key k : String) :
    (m.erase key).find? k = if k == key then none else m.find? k :=
  lookup_filter_ne key k m.entries

theorem mem_keys_setIn (key k : String) (value : α) (pairs : List (String × α)) :
    k ∈ (setIn key value pairs).map Prod.fst ↔ k = key ∨ k ∈ pairs.map Prod.fst := by
  induction pairs with
  | nil => simp [setIn]
  | cons p rest ih =>
    obtain ⟨k', v'⟩ := p
    by_cases hk : key = k'
    · subst hk
      simp [setIn]
    · rw [setIn, if_neg (by simpa using hk), List.map_cons, List.map_cons, List.mem_cons,
        List.mem_cons, ih]
      exact or_left_comm

@[simp] theorem mem_keys_insert (m : OrderedMap α) (key k : String) (value : α) :
    k ∈ (m.insert key value).keys ↔ k = key ∨ k ∈ m.keys :=
  mem_keys_setIn key k value m.entries

/-! ### The order of the keys -/

theorem keys_setIn (key : String) (value : α) (pairs : List (String × α)) :
    (setIn key value pairs).map Prod.fst =
      if key ∈ pairs.map Prod.fst then pairs.map Prod.fst else pairs.map Prod.fst ++ [key] := by
  induction pairs with
  | nil => rfl
  | cons p rest ih =>
    obtain ⟨k, v⟩ := p
    by_cases hk : key = k
    · subst hk
      simp [setIn]
    · rw [setIn, if_neg (by simpa using hk), List.map_cons, ih]
      by_cases hmem : key ∈ rest.map Prod.fst <;> simp [hk, hmem]

/-- A key that is set keeps its place if it has one, and comes last otherwise. -/
theorem keys_insert (m : OrderedMap α) (key : String) (value : α) :
    (m.insert key value).keys = if key ∈ m.keys then m.keys else m.keys ++ [key] :=
  keys_setIn key value m.entries

/-- A key that is erased is taken out, and the others stay in their order. -/
theorem keys_erase (m : OrderedMap α) (key : String) :
    (m.erase key).keys = m.keys.filter (key != ·) := by
  rw [keys, keys, erase, List.filter_map]
  rfl

theorem nodup_keys_insert {m : OrderedMap α} (h : m.keys.Nodup) (key : String) (value : α) :
    (m.insert key value).keys.Nodup := by
  rw [keys_insert]
  split
  · exact h
  · rename_i hnew
    exact List.nodup_append.2 ⟨h, List.pairwise_singleton _ key, fun k hk k' hk' heq =>
      hnew (List.mem_singleton.1 hk' ▸ heq ▸ hk)⟩

theorem nodup_keys_erase {m : OrderedMap α} (h : m.keys.Nodup) (key : String) :
    (m.erase key).keys.Nodup := by
  rw [keys_erase]
  exact h.filter _

theorem ofList_concat (pairs : List (String × α)) (p : String × α) :
    ofList (pairs ++ [p]) = (ofList pairs).insert p.1 p.2 := by
  rw [ofList, List.foldl_append]
  rfl

end OrderedMap

/-! ### Sorted pairs

Where nothing records the order in which keys came in, they are listed in the
order of their characters. -/

def sortedInsert {α : Type} (key : String) (value : α) : List (String × α) → List (String × α)
  | [] => [(key, value)]
  | (k, v) :: rest =>
    if key = k then (key, value) :: rest
    else if key < k then (key, value) :: (k, v) :: rest
    else (k, v) :: sortedInsert key value rest

/-- The pairs in the order of their keys, the last of equal keys standing for all. -/
def sortedPairs {α : Type} (pairs : List (String × α)) : List (String × α) :=
  pairs.foldl (fun sorted p => sortedInsert p.1 p.2 sorted) []

end ModuleLoader
