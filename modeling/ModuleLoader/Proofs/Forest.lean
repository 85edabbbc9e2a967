import Mathlib.Data.List.Induction
import ModuleLoader.Proofs.Soundness
/-!
The records below a record, as a forest.

What was linked for a record is a list of records, below each of which there is
again such a list. A `Forest` is this all the way down, written as data, and it
stands in a state if the dependencies of its records are what it has below them.
In a sound state there is one below every record. A way down is a list of
positions, one for each dependency that is followed, and because nothing is a
dependency twice, no record is found by two ways. So no record occurs in a
forest twice.
-/

namespace ModuleLoader

variable {σ η : Type}

/-! ### Ways down -/

namespace State

/-- The record that is found from another by following dependencies, each by its position. -/
def along (s : State σ η) : RecordId → List Nat → Option RecordId
  | r, [] => some r
  | r, i :: path =>
    match (s.dependenciesOf r)[i]? with
    | some dep => s.along dep.2 path
    | none => none

variable {host : Host σ η} {s t : State σ η} {r x : RecordId}

theorem along_cons_eq_some {i : Nat} {path : List Nat} :
    s.along r (i :: path) = some x ↔
      ∃ dep, (s.dependenciesOf r)[i]? = some dep ∧ s.along dep.2 path = some x := by
  rw [along]
  cases (s.dependenciesOf r)[i]? with
  | none => simp
  | some dep => simp

theorem along_append_eq_some {p q : List Nat} :
    s.along r (p ++ q) = some x ↔ ∃ y, s.along r p = some y ∧ s.along y q = some x := by
  induction p generalizing r with
  | nil => simp [along]
  | cons i p ih =>
      rw [List.cons_append, along_cons_eq_some]
      simp only [along_cons_eq_some, ih]
      constructor
      · rintro ⟨dep, hdep, y, hp, hq⟩
        exact ⟨y, ⟨dep, hdep, hp⟩, hq⟩
      · rintro ⟨y, ⟨dep, hdep, hp⟩, hq⟩
        exact ⟨dep, hdep, y, hp, hq⟩

theorem Sound.lt_of_mem (h : s.Sound host) {dep : String × RecordId}
    (hdep : dep ∈ s.dependenciesOf r) : r.index < dep.2.index := by
  obtain ⟨a, ha, hmem⟩ := mem_of_dependenciesOf hdep
  obtain ⟨c, -, hedge⟩ := h.edge r a ha dep hmem
  exact hedge.later

theorem Sound.le_of_along (h : s.Sound host) {path : List Nat} (hx : s.along r path = some x) :
    r.index + path.length ≤ x.index := by
  induction path generalizing r with
  | nil =>
      cases hx
      exact Nat.le_refl _
  | cons i path ih =>
      obtain ⟨dep, hdep, hrest⟩ := along_cons_eq_some.1 hx
      have hlater := h.lt_of_mem (List.mem_of_getElem? hdep)
      have hle := ih hrest
      rw [List.length_cons]
      omega

theorem Sound.evaluated_of_along (h : s.Sound host) {a : ModuleRecord σ η} {path : List Nat}
    (ha : s.record? r = some a) (hdone : a.status = .evaluated) (hx : s.along r path = some x) :
    ∃ b, s.record? x = some b ∧ b.status = .evaluated := by
  induction path generalizing r a with
  | nil =>
      cases hx
      exact ⟨a, ha, hdone⟩
  | cons i path ih =>
      obtain ⟨dep, hdep, hrest⟩ := along_cons_eq_some.1 hx
      rw [dependenciesOf_eq ha] at hdep
      obtain ⟨c, hc, hedge⟩ := h.edge r a ha dep (List.mem_of_getElem? hdep)
      exact ih hc (hedge.evaluated hdone) hrest

/-- No record is found by two ways from the same record. -/
theorem Sound.along_inj (h : s.Sound host) {p q : List Nat} (hp : s.along r p = some x)
    (hq : s.along r q = some x) : p = q := by
  -- on the last step, since it is the record above that is determined
  induction p using List.reverseRecOn generalizing q x with
  | nil =>
      cases hp
      have hle := h.le_of_along hq
      exact (List.length_eq_zero_iff.1 (by omega)).symm
  | append_singleton p i ih =>
      obtain ⟨y, hy, hlast⟩ := along_append_eq_some.1 hp
      obtain ⟨dep, hdep, hend⟩ := along_cons_eq_some.1 hlast
      cases hend
      cases q using List.reverseRecOn with
      | nil =>
          cases hq
          have hle := h.le_of_along hp
          rw [List.length_append, List.length_singleton] at hle
          omega
      | append_singleton q j =>
          obtain ⟨z, hz, hlast⟩ := along_append_eq_some.1 hq
          obtain ⟨dep', hdep', hend⟩ := along_cons_eq_some.1 hlast
          obtain ⟨hsame, hij⟩ := h.once y z i j dep dep' hdep hdep' (Option.some.inj hend).symm
          subst hsame
          rw [ih hy hz, hij]

end State

/-! ### Forests -/

inductive Forest where
  | nil
  | cons (specifier : String) (root : RecordId) (below rest : Forest)

namespace Forest

/-- The records in the row. -/
def edges : Forest → List (String × RecordId)
  | nil => []
  | cons specifier root _ rest => (specifier, root) :: rest.edges

/-- All the records, each after those below it. -/
def postorder : Forest → List RecordId
  | nil => []
  | cons _ root below rest => below.postorder ++ root :: rest.postorder

/-- In the state the dependencies of each record are what is below it here. -/
def Stands (s : State σ η) : Forest → Prop
  | nil => True
  | cons _ root below rest =>
    (∃ a, s.record? root = some a ∧ a.dependencies = below.edges) ∧ below.Stands s ∧ rest.Stands s

variable {host : Host σ η} {s t : State σ η} {f g : Forest} {x : RecordId}

instance decidableStands (s : State σ η) : (f : Forest) → Decidable (f.Stands s)
  | nil => .isTrue trivial
  | cons _ root below rest =>
    have := decidableStands s below
    have := decidableStands s rest
    have : Decidable (∃ a, s.record? root = some a ∧ a.dependencies = below.edges) :=
      decidable_of_iff ((s.record? root).map ModuleRecord.dependencies = some below.edges)
        Option.map_eq_some_iff
    inferInstanceAs (Decidable (_ ∧ below.Stands s ∧ rest.Stands s))

theorem Stands.congr (h : f.Stands s) (hsame : ∀ x ∈ f.postorder, t.record? x = s.record? x) :
    f.Stands t := by
  induction f with
  | nil => trivial
  | cons specifier root below rest ihbelow ihrest =>
      obtain ⟨⟨a, ha, hdeps⟩, hbelow, hrest⟩ := h
      refine ⟨⟨a, ?_, hdeps⟩, ihbelow hbelow fun x hx => ?_, ihrest hrest fun x hx => ?_⟩
      · rw [hsame root (by simp [postorder])]
        exact ha
      · exact hsame x (by simp [postorder, hx])
      · exact hsame x (by simp [postorder, hx])

theorem edges_eq_nil : f.edges = [] ↔ f = .nil := by
  cases f with
  | nil => simp [edges]
  | cons => simp [edges]

theorem Stands.exists_record? (h : f.Stands s) (hx : x ∈ f.postorder) :
    ∃ a, s.record? x = some a := by
  induction f with
  | nil => exact absurd hx List.not_mem_nil
  | cons specifier root below rest ihbelow ihrest =>
      obtain ⟨⟨a, ha, -⟩, hbelow, hrest⟩ := h
      rw [postorder, List.mem_append, List.mem_cons] at hx
      rcases hx with hx | rfl | hx
      · exact ihbelow hbelow hx
      · exact ⟨a, ha⟩
      · exact ihrest hrest hx

/-- What has been linked gets nothing more below it. -/
theorem Stands.grown (h : f.Stands s)
    (hst : ∀ r a, s.record? r = some a → ∃ b, t.record? r = some b ∧ a.Grows b)
    (hsettled : ∀ x ∈ f.postorder, ∀ a, s.record? x = some a → a.status.isSettled = true) :
    f.Stands t := by
  induction f with
  | nil => trivial
  | cons specifier root below rest ihbelow ihrest =>
      obtain ⟨⟨a, ha, hdeps⟩, hbelow, hrest⟩ := h
      obtain ⟨b, hb, hab⟩ := hst root a ha
      refine ⟨⟨b, hb, ?_⟩, ihbelow hbelow fun x hx => ?_, ihrest hrest fun x hx => ?_⟩
      · rw [hab.settled (hsettled root (by simp [postorder]) a ha), hdeps]
      · exact hsettled x (by simp [postorder, hx])
      · exact hsettled x (by simp [postorder, hx])

/-- Trees that are linked stay as they are. -/
theorem Stands.grown_of_linked (h : f.Stands s)
    (hlinked : ∀ x ∈ f.postorder, ∃ a, s.record? x = some a ∧ a.status = .linked)
    (hst : ∀ r a, s.record? r = some a → ∃ b, t.record? r = some b ∧ a.Grows b) : f.Stands t := by
  refine h.grown hst fun x hx a ha => ?_
  obtain ⟨b, hb, hblinked⟩ := hlinked x hx
  obtain rfl : a = b := by simpa [ha] using hb
  rw [hblinked]
  rfl

/-- There is one forest with these records in the row. -/
theorem Stands.unique (hf : f.Stands s) (hg : g.Stands s) (hedges : f.edges = g.edges) : f = g := by
  induction f generalizing g with
  | nil =>
      cases g with
      | nil => rfl
      | cons => simp [edges] at hedges
  | cons specifier root below rest ihbelow ihrest =>
      cases g with
      | nil => simp [edges] at hedges
      | cons specifier' root' below' rest' =>
          obtain ⟨⟨a, ha, hdeps⟩, hbelow, hrest⟩ := hf
          obtain ⟨⟨b, hb, hdeps'⟩, hbelow', hrest'⟩ := hg
          simp only [edges, List.cons.injEq, Prod.mk.injEq] at hedges
          obtain ⟨⟨rfl, rfl⟩, hedges⟩ := hedges
          obtain rfl : a = b := by simpa [ha] using hb
          rw [ihbelow hbelow hbelow' (hdeps.symm.trans hdeps'), ihrest hrest hrest' hedges]

/-- The records of a forest that stands are those that are found from its row. -/
theorem Stands.mem_postorder (h : f.Stands s) :
    x ∈ f.postorder ↔ ∃ (i : Nat) (dep : String × RecordId) (path : List Nat),
      f.edges[i]? = some dep ∧ s.along dep.2 path = some x := by
  induction f with
  | nil => simp [postorder, edges]
  | cons specifier root below rest ihbelow ihrest =>
      obtain ⟨⟨a, ha, hdeps⟩, hbelow, hrest⟩ := h
      have hroot : s.dependenciesOf root = below.edges := (State.dependenciesOf_eq ha).trans hdeps
      rw [postorder, List.mem_append, List.mem_cons, ihbelow hbelow, ihrest hrest]
      constructor
      · rintro (⟨i, dep, path, hdep, hx⟩ | rfl | ⟨i, dep, path, hdep, hx⟩)
        · refine ⟨0, (specifier, root), i :: path, rfl, State.along_cons_eq_some.2 ⟨dep, ?_, hx⟩⟩
          rw [hroot]
          exact hdep
        · exact ⟨0, (specifier, x), [], rfl, rfl⟩
        · exact ⟨i + 1, dep, path, hdep, hx⟩
      · rintro ⟨i, dep, path, hdep, hx⟩
        cases i with
        | zero =>
            obtain rfl : (specifier, root) = dep := by simpa [edges] using hdep
            cases path with
            | nil => exact Or.inr (Or.inl (Option.some.inj hx).symm)
            | cons i path =>
                obtain ⟨dep, hdep, hx⟩ := State.along_cons_eq_some.1 hx
                rw [hroot] at hdep
                exact Or.inl ⟨i, dep, path, hdep, hx⟩
        | succ i => exact Or.inr (Or.inr ⟨i, dep, path, hdep, hx⟩)

/-- A record and what is below it are what is found from the record. -/
theorem Stands.mem_tree_iff (h : f.Stands s) {r : RecordId}
    (hedges : s.dependenciesOf r = f.edges) :
    x ∈ r :: f.postorder ↔ ∃ path, s.along r path = some x := by
  rw [List.mem_cons, h.mem_postorder, ← hedges]
  constructor
  · rintro (rfl | ⟨i, dep, path, hdep, hx⟩)
    · exact ⟨[], rfl⟩
    · exact ⟨i :: path, State.along_cons_eq_some.2 ⟨dep, hdep, hx⟩⟩
  · rintro ⟨path, hx⟩
    cases path with
    | nil => exact Or.inl (Option.some.inj hx).symm
    | cons i path =>
        obtain ⟨dep, hdep, hx⟩ := State.along_cons_eq_some.1 hx
        exact Or.inr ⟨i, dep, path, hdep, hx⟩

/-- A record is not below itself. -/
theorem Stands.root_notMem (h : f.Stands s) (hs : s.Sound host) {r : RecordId}
    (hedges : s.dependenciesOf r = f.edges) : r ∉ f.postorder := by
  intro hr
  obtain ⟨i, dep, path, hdep, hx⟩ := h.mem_postorder.1 hr
  rw [← hedges] at hdep
  have hdown := State.along_cons_eq_some.2 ⟨dep, hdep, hx⟩
  exact absurd (hs.along_inj (p := []) rfl hdown) (by simp)

/-- No record occurs twice, if the row is a part of what was linked for a record. -/
theorem Stands.nodup_of_drop (h : f.Stands s) (hs : s.Sound host) {r : RecordId} {k : Nat}
    (hrow : f.edges = (s.dependenciesOf r).drop k) : f.postorder.Nodup := by
  induction f generalizing r k with
  | nil => exact List.nodup_nil
  | cons specifier root below rest ihbelow ihrest =>
      obtain ⟨⟨a, ha, hdeps⟩, hbelow, hrest⟩ := h
      have hroot : s.dependenciesOf root = below.edges := (State.dependenciesOf_eq ha).trans hdeps
      have hat : ∀ i, (s.dependenciesOf r)[k + i]? = ((specifier, root) :: rest.edges)[i]? := by
        intro i
        rw [← edges, hrow, List.getElem?_drop]
      have hrest' : rest.edges = (s.dependenciesOf r).drop (k + 1) := by
        refine List.ext_getElem? fun i => ?_
        rw [List.getElem?_drop, Nat.add_assoc, Nat.add_comm 1 i, hat]
        rfl
      -- the first tree is found through one place of the record, and the others through later ones
      have hapart : ∀ x ∈ root :: below.postorder, x ∉ rest.postorder := by
        intro x hx hmem
        obtain ⟨path, hpath⟩ := (hbelow.mem_tree_iff hroot).1 hx
        obtain ⟨i, dep, path', hdep, hpath'⟩ := hrest.mem_postorder.1 hmem
        have hfirst : s.along r (k :: path) = some x :=
          State.along_cons_eq_some.2 ⟨_, hat 0, hpath⟩
        have hlater : s.along r ((k + (i + 1)) :: path') = some x :=
          State.along_cons_eq_some.2 ⟨dep, (hat (i + 1)).trans hdep, hpath'⟩
        have hsame := hs.along_inj hfirst hlater
        simp only [List.cons.injEq] at hsame
        omega
      rw [postorder, List.nodup_append]
      refine ⟨ihbelow hbelow (k := 0) (by rw [hroot, List.drop_zero]), ?_, ?_⟩
      · exact List.nodup_cons.2 ⟨hapart root List.mem_cons_self, ihrest hrest hrest'⟩
      · rintro x hx y hy rfl
        rcases List.mem_cons.1 hy with rfl | hy
        · exact hbelow.root_notMem hs hroot hx
        · exact hapart x (List.mem_cons_of_mem _ hx) hy

end Forest

namespace State

variable {host : Host σ η} {s : State σ η} {r x : RecordId} {a : ModuleRecord σ η} {f : Forest}

theorem Sound.evaluated_of_edges (h : s.Sound host) (hf : f.Stands s)
    (hdone : ∀ dep ∈ f.edges, ∃ c, s.record? dep.2 = some c ∧ c.status = .evaluated) :
    ∀ x ∈ f.postorder, ∃ b, s.record? x = some b ∧ b.status = .evaluated := by
  intro x hx
  obtain ⟨i, dep, path, hdep, hpath⟩ := hf.mem_postorder.1 hx
  obtain ⟨c, hc, hcdone⟩ := hdone dep (List.mem_of_getElem? hdep)
  exact h.evaluated_of_along hc hcdone hpath

theorem exists_forest_of_forall (deps : List (String × RecordId))
    (h : ∀ dep ∈ deps, ∃ c f, s.record? dep.2 = some c ∧ c.dependencies = Forest.edges f ∧
      f.Stands s) :
    ∃ f : Forest, f.edges = deps ∧ f.Stands s := by
  induction deps with
  | nil => exact ⟨.nil, rfl, trivial⟩
  | cons dep rest ih =>
      obtain ⟨c, below, hc, hdeps, hbelow⟩ := h dep List.mem_cons_self
      obtain ⟨f, hedges, hf⟩ := ih fun d hd => h d (List.mem_cons_of_mem _ hd)
      refine ⟨.cons dep.1 dep.2 below f, ?_, ⟨c, hc, hdeps⟩, hbelow, hf⟩
      rw [Forest.edges, hedges]

/-- Below every record of a sound state there is a forest. -/
theorem Sound.exists_forest (h : s.Sound host) (ha : s.record? r = some a) :
    ∃ f : Forest, a.dependencies = f.edges ∧ f.Stands s := by
  -- on how many records come after this one
  generalize hn : s.records.size - r.index = n
  induction n using Nat.strongRecOn generalizing r a with
  | ind n ih =>
      obtain ⟨f, hedges, hf⟩ := exists_forest_of_forall (s := s) a.dependencies fun dep hdep => by
        obtain ⟨c, hc, hedge⟩ := h.edge r a ha dep hdep
        have hlater := hedge.later
        have hlt := lt_of_record? hc
        obtain ⟨below, hbelow⟩ := ih (s.records.size - dep.2.index) (by omega) hc rfl
        exact ⟨c, below, hc, hbelow⟩
      exact ⟨f, hedges.symm, hf⟩

section

variable (h : s.Sound host) (ha : s.record? r = some a) (hf : f.Stands s)
  (hedges : a.dependencies = f.edges)

include ha hf hedges

theorem mem_tree_iff : x ∈ r :: f.postorder ↔ ∃ path, s.along r path = some x :=
  hf.mem_tree_iff ((dependenciesOf_eq ha).trans hedges)

include h

/-- What is below an evaluated record is evaluated. -/
theorem Sound.evaluated_of_mem (hdone : a.status = .evaluated) (hx : x ∈ f.postorder ++ [r]) :
    ∃ b, s.record? x = some b ∧ b.status = .evaluated := by
  have hmem : x ∈ r :: f.postorder := by
    rw [List.mem_cons]
    rw [List.mem_append, List.mem_singleton] at hx
    exact hx.symm
  obtain ⟨path, hpath⟩ := (mem_tree_iff ha hf hedges).1 hmem
  exact h.evaluated_of_along ha hdone hpath

theorem Sound.nodup_tree : (r :: f.postorder).Nodup := by
  have hroot : s.dependenciesOf r = f.edges := (dependenciesOf_eq ha).trans hedges
  refine List.nodup_cons.2 ⟨hf.root_notMem h hroot, hf.nodup_of_drop h (r := r) (k := 0) ?_⟩
  rw [List.drop_zero, hroot]

theorem Sound.parent_mem_tree {y : RecordId} {dep : String × RecordId}
    (hdep : dep ∈ s.dependenciesOf y) (hmem : dep.2 ∈ f.postorder) : y ∈ r :: f.postorder := by
  have hr := hf.root_notMem h ((dependenciesOf_eq ha).trans hedges)
  obtain ⟨path, hpath⟩ := (mem_tree_iff ha hf hedges).1 (List.mem_cons_of_mem r hmem)
  cases path using List.reverseRecOn with
  | nil => exact absurd (Option.some.inj hpath ▸ hmem) hr
  | append_singleton path i =>
      obtain ⟨z, hz, hlast⟩ := along_append_eq_some.1 hpath
      obtain ⟨d, hd, hend⟩ := along_cons_eq_some.1 hlast
      obtain ⟨j, hj⟩ := List.mem_iff_getElem?.1 hdep
      obtain ⟨hsame, -⟩ := h.once z y i j d dep hd hj (Option.some.inj hend)
      rw [← hsame]
      exact (mem_tree_iff ha hf hedges).2 ⟨path, hz⟩

end

end State

end ModuleLoader
