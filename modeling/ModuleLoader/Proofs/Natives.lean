import ModuleLoader.State
/-!
Where native functions come from.

A literal may contain native functions, and making it puts them on the heap. A
document contains none, so what is made from a document leaves the native
functions as they are. Nothing that is done to an object changes them either.
-/

namespace ModuleLoader

variable {σ η : Type}

theorem mem_sortedInsert {α : Type} {key : String} {value : α} {pairs : List (String × α)}
    {p : String × α} (h : p ∈ sortedInsert key value pairs) : p = (key, value) ∨ p ∈ pairs := by
  induction pairs with
  | nil => simpa [sortedInsert] using h
  | cons q rest ih =>
      obtain ⟨k, v⟩ := q
      unfold sortedInsert at h
      split at h
      · rcases List.mem_cons.1 h with h | h
        · exact Or.inl h
        · exact Or.inr (List.mem_cons_of_mem _ h)
      split at h
      · simpa using h
      · rcases List.mem_cons.1 h with h | h
        · exact Or.inr (h ▸ List.mem_cons_self)
        · exact (ih h).imp id (List.mem_cons_of_mem _)

theorem mem_sortedPairs {α : Type} {pairs : List (String × α)} {p : String × α}
    (h : p ∈ sortedPairs pairs) : p ∈ pairs := by
  suffices H : ∀ sorted, p ∈ pairs.foldl (fun s q => sortedInsert q.1 q.2 s) sorted →
      p ∈ sorted ∨ p ∈ pairs by simpa using H [] h
  clear h
  induction pairs with
  | nil => exact fun _ h => Or.inl h
  | cons q rest ih =>
      intro sorted h
      rcases ih _ h with h | h
      · rcases mem_sortedInsert h with h | h
        · exact Or.inr (h ▸ List.mem_cons_self)
        · exact Or.inl h
      · exact Or.inr (List.mem_cons_of_mem _ h)

namespace Literal

def Plain (l : Literal) : Prop := ∀ h : Heap, (l.make h).2.functions = h.functions

theorem functions_makeFields {fields : List (String × Literal)} (hf : ∀ p ∈ fields, p.2.Plain)
    (h : Heap) : (makeFields fields h).2.functions = h.functions := by
  induction fields generalizing h with
  | nil => rw [makeFields]
  | cons p rest ih =>
      rw [makeFields]
      have hp : (p.2.make h).2.functions = h.functions := hf p List.mem_cons_self h
      have hrest := ih (fun q hq => hf q (List.mem_cons_of_mem _ hq)) (p.2.make h).2
      exact hrest.trans hp

theorem Plain.object {fields : List (String × Literal)} (hf : ∀ p ∈ fields, p.2.Plain) :
    (Literal.object fields).Plain := by
  intro h
  rw [make]
  exact functions_makeFields hf h

theorem plain_number (x : Float) : (Literal.number x).Plain := fun h => by rw [make]

theorem plain_arrayFields {items : List Literal} (hi : ∀ l ∈ items, l.Plain) :
    ∀ p ∈ arrayFields items, p.2.Plain := by
  intro p hp
  rcases List.mem_append.1 hp with hp | hp
  · obtain ⟨⟨l, i⟩, hl, rfl⟩ := List.mem_map.1 hp
    exact hi l (List.fst_mem_of_mem_zipIdx hl)
  · rw [List.mem_singleton.1 hp]
    exact plain_number _

mutual

theorem plain_ofJson : (j : Json) → (ofJson j).Plain
  | .null => fun h => by rw [ofJson, make]
  | .bool _ => fun h => by rw [ofJson, make]
  | .number _ => fun h => by rw [ofJson, make]
  | .string _ => fun h => by rw [ofJson, make]
  | .array items => by
      rw [ofJson]
      exact .object (plain_arrayFields (plain_ofItems items))
  | .object fields => by
      rw [ofJson]
      exact .object fun p hp => plain_ofFields fields p (mem_sortedPairs hp)

theorem plain_ofItems : (items : List Json) → ∀ l ∈ ofItems items, l.Plain
  | [] => by simp [ofItems]
  | j :: rest => by
      rw [ofItems]
      intro l hl
      rcases List.mem_cons.1 hl with rfl | hl
      · exact plain_ofJson j
      · exact plain_ofItems rest l hl

theorem plain_ofFields : (fields : List (String × Json)) → ∀ p ∈ ofFields fields, p.2.Plain
  | [] => by simp [ofFields]
  | (k, j) :: rest => by
      rw [ofFields]
      intro p hp
      rcases List.mem_cons.1 hp with rfl | hp
      · exact plain_ofJson j
      · exact plain_ofFields rest p hp

end

end Literal

end ModuleLoader
