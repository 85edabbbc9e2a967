import ModuleLoader.Proofs.Natives
import ModuleLoader.State
/-!
What may be reached from where in a heap.

Objects and the code of functions are the cells of a heap. A value refers to cells, and
an object to what its properties refer to. Nothing comes upon a cell but by such
references or by calling a function that knows of it. A set of cells is foreign to the
rest if no reference from the rest leads into it, and then it stays so while new cells
are made and values that avoid the set are written. What is not reached from given cells
is such a set (`Heap.closed_unreached`).

The contents of foreign objects can be replaced by anything without anybody else
noticing. `Heap.overlay` replaces them, and it does not matter whether that is done
before or after something that keeps out of them.
-/

namespace ModuleLoader

/-! ### A heap that grows -/

namespace Heap

structure Extends (h h' : Heap) : Prop where
  size : h.objects.size ≤ h'.objects.size
  properties : ∀ o : ObjectRef, o.index < h.objects.size → h'.properties o = h.properties o

variable {h h' h'' : Heap}

theorem Extends.refl (h : Heap) : h.Extends h := ⟨Nat.le_refl _, fun _ _ => rfl⟩

theorem Extends.trans (hx : h.Extends h') (hx' : h'.Extends h'') : h.Extends h'' where
  size := Nat.le_trans hx.size hx'.size
  properties o ho :=
    (hx'.properties o (Nat.lt_of_lt_of_le ho hx.size)).trans (hx.properties o ho)

theorem extends_newObject (h : Heap) (ps : Properties) : h.Extends (h.newObject ps).2 where
  size := by simp [newObject]
  properties o ho := by
    simp only [properties, newObject, Array.getElem?_push, if_neg (Nat.ne_of_lt ho)]

theorem extends_newNamespace (h : Heap) (exports : Properties) :
    h.Extends (h.newNamespace exports).2 := ⟨Nat.le_refl _, fun _ _ => rfl⟩

theorem properties_setProperties_of_ne {o p : ObjectRef} (hp : p ≠ o) (ps : Properties) :
    (h.setProperties o ps).properties p = h.properties p := by
  have hne : o.index ≠ p.index := fun heq => hp (by cases p; cases o; simp_all)
  simp [properties, setProperties, hne]

@[simp] theorem size_setProperties (h : Heap) (o : ObjectRef) (ps : Properties) :
    (h.setProperties o ps).objects.size = h.objects.size := by
  simp [setProperties]

end Heap

namespace Literal

mutual

theorem extends_make : (l : Literal) → (h : Heap) → h.Extends (l.make h).2
  | undefined, h | null, h | boolean _, h | number _, h | string _, h | existing _, h => by
      rw [make]
      exact .refl h
  | native _ _, h => by
      rw [make]
      exact ⟨Nat.le_refl _, fun _ _ => rfl⟩
  | moduleNamespace fields, h => by
      rw [make]
      exact (extends_makeFields fields h).trans ⟨Nat.le_refl _, fun _ _ => rfl⟩
  | object fields, h => by
      rw [make]
      exact (extends_makeFields fields h).trans (Heap.extends_newObject _ _)

theorem extends_makeFields : (fields : List (String × Literal)) → (h : Heap) →
    h.Extends (makeFields fields h).2
  | [], h => by
      rw [makeFields]
      exact .refl h
  | (_, l) :: rest, h => by
      rw [makeFields]
      exact (extends_make l h).trans (extends_makeFields rest _)

end

end Literal

/-! ### References -/

inductive Heap.Cell where
  | object (o : ObjectRef)
  | function (index : Nat)

inductive Value.Refers : Value → Heap.Cell → Prop
  | object (o : ObjectRef) : Refers (.object o) (.object o)
  | function (f : FunctionRef) : Refers (.function f) (.function f.index)
  | exports {n : Namespace} {entry : String × Value} {p : Heap.Cell}
      (hentry : entry ∈ n.contents.entries)
      (hp : entry.2.Refers p) : Refers (.moduleNamespace n) p

/-- The value leads to no cell of the set. -/
def Value.Avoids (F : Heap.Cell → Prop) (v : Value) : Prop := ∀ p, v.Refers p → ¬ F p

def Properties.Avoids (F : Heap.Cell → Prop) (ps : Properties) : Prop :=
  ∀ entry ∈ ps.entries, entry.2.Avoids F

/-- The function does not come up with a cell of the set that it was not given. -/
def NativeCode.Avoids (F : Heap.Cell → Prop) (code : NativeCode) : Prop :=
  ∀ arguments v, (∀ a ∈ arguments, a.Avoids F) → code arguments = .ok v → v.Avoids F

mutual

def Literal.Avoids (F : Heap.Cell → Prop) : Literal → Prop
  | .object fields => Literal.FieldsAvoid F fields
  | .moduleNamespace fields => Literal.FieldsAvoid F fields
  | .native _ code => code.Avoids F
  | .existing v => v.Avoids F
  | _ => True

def Literal.FieldsAvoid (F : Heap.Cell → Prop) : List (String × Literal) → Prop
  | [] => True
  | (_, l) :: rest => l.Avoids F ∧ Literal.FieldsAvoid F rest

end

section

variable {F : Heap.Cell → Prop}

theorem Value.avoids_undefined : Value.undefined.Avoids F := nofun

theorem Value.avoids_object {o : ObjectRef} (ho : ¬ F (.object o)) : (Value.object o).Avoids F := by
  rintro _ ⟨⟩
  exact ho

theorem Value.avoids_moduleNamespace {n : Namespace} (hn : Properties.Avoids F n.contents) :
    (Value.moduleNamespace n).Avoids F := by
  intro p hp
  cases hp with
  | exports hentry hp => exact hn _ hentry p hp

theorem Properties.avoids_empty : Properties.Avoids F .empty := nofun

theorem OrderedMap.eq_or_mem_of_mem_insert {α : Type} {m : OrderedMap α} {key : String} {value : α}
    {entry : String × α} (h : entry ∈ (m.insert key value).entries) :
    entry.2 = value ∨ entry ∈ m.entries := by
  unfold insert at h
  generalize m.entries = pairs at h
  induction pairs with
  | nil => exact Or.inl (congrArg Prod.snd (List.mem_singleton.1 h))
  | cons p rest ih =>
      dsimp only [setIn] at h
      split at h
      · rcases List.mem_cons.1 h with rfl | h
        · exact Or.inl rfl
        · exact Or.inr (List.mem_cons_of_mem _ h)
      · rcases List.mem_cons.1 h with rfl | h
        · exact Or.inr List.mem_cons_self
        · exact (ih h).imp id (List.mem_cons_of_mem _)

theorem Properties.Avoids.insert {ps : Properties} (h : Properties.Avoids F ps) (key : String)
    {v : Value} (hv : v.Avoids F) : Properties.Avoids F (ps.insert key v) := fun entry hentry =>
  (OrderedMap.eq_or_mem_of_mem_insert hentry).elim (fun heq => heq ▸ hv) (h entry)

theorem Properties.Avoids.erase {ps : Properties} (h : Properties.Avoids F ps) (key : String) :
    Properties.Avoids F (ps.erase key) :=
  fun entry hentry => h entry (List.mem_filter.1 hentry).1

theorem Properties.avoids_ofList {pairs : List (String × Value)}
    (h : ∀ pair ∈ pairs, pair.2.Avoids F) : Properties.Avoids F (.ofList pairs) := by
  suffices H : ∀ ps : Properties, Properties.Avoids F ps →
      Properties.Avoids F (pairs.foldl (fun m p => m.insert p.1 p.2) ps) from H _ avoids_empty
  induction pairs with
  | nil => exact fun _ hps => hps
  | cons pair rest ih =>
      intro ps hps
      exact ih (fun p hp => h p (List.mem_cons_of_mem _ hp)) _
        (hps.insert pair.1 (h pair List.mem_cons_self))

end

/-! ### Sets of cells that nothing else leads to -/

namespace Heap

def Has (h : Heap) : Cell → Prop
  | .object o => o.index < h.objects.size
  | .function i => i < h.functions.size

/-- The cells of the set are there, and nothing outside of it leads to one. -/
structure Closed (F : Cell → Prop) (h : Heap) : Prop where
  there : ∀ p, F p → h.Has p
  objects : ∀ o, ¬ F (.object o) → Properties.Avoids F (h.properties o)
  functions : ∀ i code, ¬ F (.function i) → h.functions[i]? = some code → code.Avoids F

/-- What is come upon from some cells. A function is given what one has come upon already, and it
may be any part of that. -/
inductive Reaches (h : Heap) (roots : Cell → Prop) : Cell → Prop
  | root {p : Cell} (hp : roots p) : Reaches h roots p
  | property {o : ObjectRef} {entry : String × Value} {p : Cell} (ho : Reaches h roots (.object o))
      (hentry : entry ∈ (h.properties o).entries) (hp : entry.2.Refers p) : Reaches h roots p
  | result {i : Nat} {code : NativeCode} {arguments : List Value} {v : Value} {p : Cell}
      (hi : Reaches h roots (.function i)) (hcode : h.functions[i]? = some code)
      (hargs : ∀ a ∈ arguments, ∀ q, a.Refers q → h.Has q → Reaches h roots q)
      (hv : code arguments = .ok v) (hp : v.Refers p) : Reaches h roots p

def Unreached (h : Heap) (roots : Cell → Prop) (p : Cell) : Prop := h.Has p ∧ ¬ h.Reaches roots p

variable {F : Cell → Prop} {h : Heap}

theorem properties_of_size_le {o : ObjectRef} (ho : h.objects.size ≤ o.index) :
    h.properties o = .empty := by
  simp [properties, Array.getElem?_eq_none ho]

theorem closed_unreached (h : Heap) (roots : Cell → Prop) : h.Closed (h.Unreached roots) where
  there p hp := hp.1
  objects o ho entry hentry p hp := fun hfar => by
    by_cases hlt : o.index < h.objects.size
    · -- an object that is there and not of the set has been reached, and so is all it leads to
      have hreached : h.Reaches roots (.object o) :=
        Classical.byContradiction fun hnot => ho ⟨hlt, hnot⟩
      exact hfar.2 (.property hreached hentry hp)
    · rw [properties_of_size_le (Nat.le_of_not_lt hlt)] at hentry
      cases hentry
  functions i code hi hcode arguments v hargs hv p hp := fun hfar => by
    have hreached : h.Reaches roots (.function i) := Classical.byContradiction fun hnot =>
      hi ⟨(Array.getElem?_eq_some_iff.1 hcode).1, hnot⟩
    refine hfar.2 (.result hreached hcode (fun a ha q hq hhas => ?_) hv hp)
    exact Classical.byContradiction fun hnot => hargs a ha q hq ⟨hhas, hnot⟩

theorem Closed.fresh_object (hh : h.Closed F) {o : ObjectRef} (ho : h.objects.size ≤ o.index) :
    ¬ F (.object o) := fun hF => absurd (hh.there _ hF) (Nat.not_lt.2 ho)

theorem Closed.newObject (hh : h.Closed F) {ps : Properties} (hps : Properties.Avoids F ps) :
    (h.newObject ps).2.Closed F where
  there p hp := by
    have hhas := hh.there p hp
    cases p with
    | object o => exact Nat.lt_of_lt_of_le hhas (h.extends_newObject ps).size
    | function i => exact hhas
  objects o ho := by
    rcases Nat.lt_trichotomy o.index h.objects.size with hlt | heq | hgt
    · rw [(h.extends_newObject ps).properties o hlt]
      exact hh.objects o ho
    · simpa [properties, Heap.newObject, Array.getElem?_push, heq] using hps
    · rw [properties_of_size_le (by simp [Heap.newObject]; omega)]
      exact Properties.avoids_empty
  functions := hh.functions

theorem Closed.newNamespace (hh : h.Closed F) (exports : Properties) :
    (h.newNamespace exports).2.Closed F where
  there p hp := by
    have hhas := hh.there p hp
    cases p <;> exact hhas
  objects := hh.objects
  functions := hh.functions

theorem Closed.newFunction (hh : h.Closed F) (name : String) {code : NativeCode}
    (hcode : code.Avoids F) : (h.newFunction name code).2.Closed F where
  there p hp := by
    have hhas := hh.there p hp
    cases p with
    | object o => exact hhas
    | function i => exact Nat.lt_of_lt_of_le hhas (by simp [Heap.newFunction])
  objects := hh.objects
  functions i code' hi hcode' := by
    rw [Heap.newFunction, Array.getElem?_push] at hcode'
    split at hcode'
    · exact Option.some.inj hcode' ▸ hcode
    · exact hh.functions i code' hi hcode'

theorem Closed.setProperties (hh : h.Closed F) {o : ObjectRef} {ps : Properties}
    (hps : Properties.Avoids F ps) : (h.setProperties o ps).Closed F where
  there p hp := by
    have hhas := hh.there p hp
    cases p with
    | object q => exact Nat.lt_of_lt_of_eq hhas (h.size_setProperties o ps).symm
    | function i => exact hhas
  objects q hq := by
    by_cases hqo : q = o
    · subst hqo
      by_cases hlt : q.index < h.objects.size
      · rw [properties_setProperties h q q ps hlt, if_pos rfl]
        exact hps
      · rw [properties_of_size_le (by simpa using Nat.le_of_not_lt hlt)]
        exact Properties.avoids_empty
    · rw [properties_setProperties_of_ne hqo]
      exact hh.objects q hq
  functions := hh.functions

end Heap

namespace Literal

variable {F : Heap.Cell → Prop}

mutual

/-- What is made avoids what the literal avoids. -/
theorem closed_make : (l : Literal) → (h : Heap) → l.Avoids F → h.Closed F →
    (l.make h).2.Closed F ∧ (l.make h).1.Avoids F
  | undefined, h, _, hh | null, h, _, hh | boolean _, h, _, hh | number _, h, _, hh
  | string _, h, _, hh => by
      rw [make]
      exact ⟨hh, nofun⟩
  | existing v, h, hv, hh => by
      rw [make]
      rw [Avoids] at hv
      exact ⟨hh, hv⟩
  | native name code, h, hcode, hh => by
      rw [make]
      rw [Avoids] at hcode
      refine ⟨hh.newFunction name hcode, ?_⟩
      rintro _ ⟨⟩ hF
      exact absurd (hh.there _ hF) (Nat.lt_irrefl _)
  | moduleNamespace fields, h, hfields, hh => by
      rw [Avoids] at hfields
      obtain ⟨hclosed, hpairs⟩ := closed_makeFields fields h hfields hh
      rw [make]
      exact ⟨hclosed.newNamespace (.ofList (makeFields fields h).1),
        Value.avoids_moduleNamespace (Properties.avoids_ofList hpairs)⟩
  | object fields, h, hfields, hh => by
      rw [Avoids] at hfields
      obtain ⟨hclosed, hpairs⟩ := closed_makeFields fields h hfields hh
      rw [make]
      exact ⟨hclosed.newObject (Properties.avoids_ofList hpairs),
        Value.avoids_object (hclosed.fresh_object (Nat.le_refl _))⟩

theorem closed_makeFields : (fields : List (String × Literal)) → (h : Heap) →
    FieldsAvoid F fields → h.Closed F →
    (makeFields fields h).2.Closed F ∧ ∀ pair ∈ (makeFields fields h).1, pair.2.Avoids F
  | [], h, _, hh => by
      rw [makeFields]
      exact ⟨hh, nofun⟩
  | (k, l) :: rest, h, hfields, hh => by
      rw [FieldsAvoid] at hfields
      obtain ⟨hclosed, hv⟩ := closed_make l h hfields.1 hh
      obtain ⟨hclosed', hpairs⟩ := closed_makeFields rest _ hfields.2 hclosed
      rw [makeFields]
      refine ⟨hclosed', fun pair hpair => ?_⟩
      rcases List.mem_cons.1 hpair with rfl | hpair
      · exact hv
      · exact hpairs pair hpair

end

end Literal

/-! ### Other contents -/

namespace Heap

/-- The heap in which some objects have other properties. -/
def overlay (ρ : ObjectRef → Option Properties) (h : Heap) : Heap :=
  { h with objects := h.objects.mapIdx fun i ps => (ρ ⟨i⟩).getD ps }

variable {ρ : ObjectRef → Option Properties} {h : Heap} {o : ObjectRef}

@[simp] theorem size_overlay : (h.overlay ρ).objects.size = h.objects.size := by
  simp [overlay]

theorem properties_overlay (ho : ρ o = none) : (h.overlay ρ).properties o = h.properties o := by
  have hmap : (h.overlay ρ).objects[o.index]? = h.objects[o.index]? := by
    simp only [overlay, Array.getElem?_mapIdx]
    rw [show (⟨o.index⟩ : ObjectRef) = o from rfl, ho]
    simp
  rw [properties, properties, hmap]

theorem overlay_setProperties (ho : ρ o = none) (ps : Properties) :
    (h.overlay ρ).setProperties o ps = (h.setProperties o ps).overlay ρ := by
  have hobjects : (h.overlay ρ).objects.setIfInBounds o.index ps =
      (h.objects.setIfInBounds o.index ps).mapIdx fun i ps => (ρ ⟨i⟩).getD ps := by
    refine Array.ext_getElem? fun i => ?_
    simp only [overlay, Array.getElem?_setIfInBounds, Array.getElem?_mapIdx, Array.size_mapIdx]
    by_cases heq : o.index = i
    · subst heq
      rw [show (⟨o.index⟩ : ObjectRef) = o from rfl, ho]
      simp only [if_true]
      split <;> rfl
    · simp only [if_neg heq]
  rw [setProperties, setProperties, hobjects]
  rfl

theorem overlay_newObject (hnew : ρ ⟨h.objects.size⟩ = none) (ps : Properties) :
    (h.overlay ρ).newObject ps = ((h.newObject ps).1, (h.newObject ps).2.overlay ρ) := by
  simp [newObject, overlay, hnew]

end Heap

namespace Literal

variable {ρ : ObjectRef → Option Properties}

mutual

/-- Nothing is looked up on the heap in order to make something. -/
theorem make_overlay : (l : Literal) → (h : Heap) → (∀ o, h.objects.size ≤ o.index → ρ o = none) →
    l.make (h.overlay ρ) = ((l.make h).1, (l.make h).2.overlay ρ)
  | undefined, h, _ | null, h, _ | boolean _, h, _ | number _, h, _ | string _, h, _
  | existing _, h, _ => by
      simp only [make]
  | native name code, h, _ => by
      simp only [make]
      rfl
  | moduleNamespace fields, h, hρ => by
      rw [make, make, makeFields_overlay fields h hρ]
      rfl
  | object fields, h, hρ => by
      have hnew := hρ ⟨(makeFields fields h).2.objects.size⟩ (extends_makeFields fields h).size
      rw [make, make, makeFields_overlay fields h hρ]
      dsimp only
      rw [Heap.overlay_newObject hnew]

theorem makeFields_overlay : (fields : List (String × Literal)) → (h : Heap) →
    (∀ o, h.objects.size ≤ o.index → ρ o = none) →
    makeFields fields (h.overlay ρ) = ((makeFields fields h).1, (makeFields fields h).2.overlay ρ)
  | [], h, _ => by
      rw [makeFields, makeFields]
  | (_, l) :: rest, h, hρ => by
      have hrest : ∀ o, (l.make h).2.objects.size ≤ o.index → ρ o = none :=
        fun o ho => hρ o (Nat.le_trans (extends_make l h).size ho)
      rw [makeFields, makeFields, make_overlay l h hρ]
      dsimp only
      rw [makeFields_overlay rest _ hrest]

end

end Literal

end ModuleLoader
