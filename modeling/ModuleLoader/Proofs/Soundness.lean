import ModuleLoader.Proofs.Growth
/-!
What holds of the records in every state.

The dependencies of a record are what was linked for its requests so far, in the
order of the requests, and they are complete once the record is linked. Each of
them is a later record that has itself been linked, in the context of the record
and on its chain, and it is of the kind and name that its specifier means to the
record. No record is a dependency twice. This is `State.Sound`, and it survives
each of the steps that change a record.

Because dependencies come later and are nobody else's, the records below a
record form a tree, and because a record that has been linked gets no further
dependencies, the tree is there to stay.
-/

namespace ModuleLoader

variable {σ η : Type}

structure ModuleRecord.Consistent (a : ModuleRecord σ η) : Prop where
  formed : a.phase.WellFormed
  unlinked : a.status = .unlinked → a.dependencies = []
  part : a.dependencies.map Prod.fst <+: a.requests
  whole : a.status.isWhole = true → a.dependencies.map Prod.fst = a.requests

structure ModuleRecord.Edge (host : Host σ η) (r : RecordId) (a : ModuleRecord σ η)
    (dep : String × RecordId) (c : ModuleRecord σ η) : Prop where
  later : r.index < dep.2.index
  settled : c.status.isSettled = true
  complete : c.dependencies.map Prod.fst = c.requests
  context : c.context = a.context
  lineage : c.lineage = a.chain
  target : Linker.target host dep.1 a.referrer = .ok (c.dispatch, c.identifier)
  evaluated : a.status = .evaluated → c.status = .evaluated

namespace ModuleRecord

variable {host : Host σ η} {r : RecordId} {a a' c c' : ModuleRecord σ η} {dep : String × RecordId}

theorem consistent_fresh (identifier : String) (referrer : Referrer) (kind : ModuleKind σ η) :
    (fresh identifier referrer kind).Consistent where
  formed := .unlinked
  unlinked _ := rfl
  part := List.nil_prefix
  whole h := by simp [fresh, status, Status.isWhole] at h

theorem Edge.grow_child (h : Edge host r a dep c) (hc : c.Grows c') : Edge host r a dep c' where
  later := h.later
  settled := hc.status.isSettled h.settled
  complete := by rw [hc.settled h.settled, hc.requests, h.complete]
  context := hc.context.trans h.context
  lineage := hc.lineage.trans h.lineage
  target := by rw [h.target, hc.dispatch, hc.identifier]
  evaluated ha := by
    have hstatus := h.evaluated ha
    have hphase := hc.final (by rw [hstatus]; rfl)
    rw [status, hphase]
    exact hstatus

/-- A record may grow, unless it ends up evaluated before its dependency. -/
theorem Edge.grow_parent (h : Edge host r a dep c) (ha : a.Grows a')
    (hdone : a'.status = .evaluated → c.status = .evaluated) : Edge host r a' dep c where
  later := h.later
  settled := h.settled
  complete := h.complete
  context := by rw [h.context, ha.context]
  lineage := by rw [h.lineage, ha.chain]
  target := by rw [ha.referrer, h.target]
  evaluated := hdone

end ModuleRecord

namespace State

/-- What was linked for a record. -/
def dependenciesOf (s : State σ η) (r : RecordId) : List (String × RecordId) :=
  match s.record? r with
  | some a => a.dependencies
  | none => []

structure Sound (host : Host σ η) (s : State σ η) : Prop where
  kept : ∀ r a, s.record? r = some a → a.Consistent
  edge : ∀ r a, s.record? r = some a → ∀ dep ∈ a.dependencies,
    ∃ c, s.record? dep.2 = some c ∧ ModuleRecord.Edge host r a dep c
  once : ∀ (r₁ r₂ : RecordId) (i₁ i₂ : Nat) (d₁ d₂ : String × RecordId),
    (s.dependenciesOf r₁)[i₁]? = some d₁ → (s.dependenciesOf r₂)[i₂]? = some d₂ →
    d₁.2 = d₂.2 → r₁ = r₂ ∧ i₁ = i₂

variable {host : Host σ η} {s t : State σ η}

theorem dependenciesOf_eq {r : RecordId} {a : ModuleRecord σ η} (h : s.record? r = some a) :
    s.dependenciesOf r = a.dependencies := by
  simp [dependenciesOf, h]

theorem mem_of_dependenciesOf {r : RecordId} {dep : String × RecordId}
    (h : dep ∈ s.dependenciesOf r) : ∃ a, s.record? r = some a ∧ dep ∈ a.dependencies := by
  unfold dependenciesOf at h
  cases hr : s.record? r with
  | none => simp [hr] at h
  | some a => exact ⟨a, rfl, by simpa [hr] using h⟩

theorem Sound.of_records_eq (h : s.Sound host) (heq : t.records = s.records) : t.Sound host := by
  have hrecord := record?_congr heq
  have hdeps : t.dependenciesOf = s.dependenciesOf := by
    funext r
    rw [dependenciesOf, dependenciesOf, hrecord]
  refine ⟨?_, ?_, ?_⟩
  · rw [hrecord]
    exact h.kept
  · rw [hrecord]
    exact h.edge
  · rw [hdeps]
    exact h.once

theorem sound_of_size_eq_zero (hsize : s.records.size = 0) : s.Sound host := by
  have hnone : ∀ r a, s.record? r ≠ some a := by
    intro r a ha
    have hlt := lt_of_record? ha
    omega
  refine ⟨fun r a ha => absurd ha (hnone r a), fun r a ha => absurd ha (hnone r a), ?_⟩
  intro r₁ r₂ i₁ i₂ d₁ d₂ h₁ _ _
  obtain ⟨a, ha, -⟩ := mem_of_dependenciesOf (List.mem_of_getElem? h₁)
  exact absurd ha (hnone r₁ a)

/-- A record that is still to be linked is no dependency. -/
theorem Sound.ne_of_not_settled (h : s.Sound host) {x : RecordId} {c : ModuleRecord σ η}
    (hx : s.record? x = some c) (hc : c.status.isSettled = false) {r : RecordId}
    {dep : String × RecordId} (hdep : dep ∈ s.dependenciesOf r) : dep.2 ≠ x := by
  rintro rfl
  obtain ⟨a, ha, hdep⟩ := mem_of_dependenciesOf hdep
  obtain ⟨c', hc', hedge⟩ := h.edge r a ha dep hdep
  obtain rfl : c' = c := by simpa [hx, eq_comm] using hc'
  simp [hedge.settled] at hc

/-! ### Steps -/

theorem Sound.add (h : s.Sound host) (identifier : String) (referrer : Referrer)
    (kind : ModuleKind σ η) : (s.add (.fresh identifier referrer kind)).Sound host := by
  have hold : ∀ r a, s.record? r = some a → r ≠ s.next := by
    rintro r a ha rfl
    exact Nat.lt_irrefl _ (lt_of_record? ha)
  have hdeps : (s.add (.fresh identifier referrer kind)).dependenciesOf = s.dependenciesOf := by
    funext r
    rw [dependenciesOf, dependenciesOf, record?_add]
    by_cases hr : r = s.next
    · have hnone : s.record? r = none := by
        cases hs : s.record? r with
        | none => rfl
        | some a => exact absurd hr (hold r a hs)
      rw [if_pos hr, hnone]
      rfl
    · rw [if_neg hr]
  refine ⟨fun r a ha => ?_, fun r a ha dep hdep => ?_, ?_⟩
  · rw [record?_add] at ha
    split at ha
    · cases ha
      exact ModuleRecord.consistent_fresh _ _ _
    · exact h.kept r a ha
  · rw [record?_add] at ha
    split at ha
    · cases ha
      simp [ModuleRecord.fresh] at hdep
    · obtain ⟨c, hc, hedge⟩ := h.edge r a ha dep hdep
      refine ⟨c, ?_, hedge⟩
      rw [record?_add, if_neg (hold _ c hc)]
      exact hc
  · rw [hdeps]
    exact h.once

/-- A record may be changed into one that keeps what has to hold of it by itself, of its edges, and
of edges as a whole. -/
theorem Sound.modifyRecord (h : s.Sound host) {x : RecordId} {a : ModuleRecord σ η}
    {f : ModuleRecord σ η → ModuleRecord σ η} (ha : s.record? x = some a) (hgrows : a.Grows (f a))
    (hkept : (f a).Consistent)
    (hedge : ∀ dep ∈ (f a).dependencies, ∃ c, s.record? dep.2 = some c ∧
      ModuleRecord.Edge host x (f a) dep c)
    (honce : ∀ (r₁ r₂ : RecordId) (i₁ i₂ : Nat) (d₁ d₂ : String × RecordId),
      ((s.modifyRecord x f).dependenciesOf r₁)[i₁]? = some d₁ →
      ((s.modifyRecord x f).dependenciesOf r₂)[i₂]? = some d₂ →
      d₁.2 = d₂.2 → r₁ = r₂ ∧ i₁ = i₂) :
    (s.modifyRecord x f).Sound host := by
  have hx : (s.modifyRecord x f).record? x = some (f a) := by
    rw [record?_modifyRecord, if_pos rfl, ha]
    rfl
  have hother : ∀ r b, r ≠ x → (s.modifyRecord x f).record? r = some b → s.record? r = some b := by
    intro r b hr hb
    rwa [record?_modifyRecord, if_neg hr] at hb
  -- what is at the other end of an edge may be the record itself
  have hchild : ∀ r b dep c, s.record? dep.2 = some c → ModuleRecord.Edge host r b dep c →
      ∃ c', (s.modifyRecord x f).record? dep.2 = some c' ∧ ModuleRecord.Edge host r b dep c' := by
    intro r b dep c hc hbc
    by_cases hr : dep.2 = x
    · obtain rfl : c = a := by simpa [hr, ha, eq_comm] using hc
      rw [hr]
      exact ⟨f c, hx, hbc.grow_child hgrows⟩
    · refine ⟨c, ?_, hbc⟩
      rw [record?_modifyRecord, if_neg hr]
      exact hc
  refine ⟨fun r b hb => ?_, fun r b hb dep hdep => ?_, honce⟩
  · by_cases hr : r = x
    · obtain rfl : f a = b := by simpa [hr, hx] using hb
      exact hkept
    · exact h.kept r b (hother r b hr hb)
  · by_cases hr : r = x
    · obtain rfl : f a = b := by simpa [hr, hx] using hb
      obtain ⟨c, hc, hc'⟩ := hedge dep hdep
      exact hchild r _ dep c hc (hr ▸ hc')
    · obtain ⟨c, hc, hc'⟩ := h.edge r b (hother r b hr hb) dep hdep
      exact hchild r b dep c hc hc'

/-- A legal move, to the phase `linked` only when nothing is missing, and to the phase `evaluated`
only when every dependency is there already. -/
theorem Sound.setPhase (h : s.Sound host) {x : RecordId} {a : ModuleRecord σ η} {phase : Phase}
    (ha : s.record? x = some a) (hmove : a.status.canMove phase.status = true)
    (hformed : phase.WellFormed)
    (hwhole : phase.status = .linked → a.dependencies.map Prod.fst = a.requests)
    (hdone : phase.status = .evaluated → ∀ dep ∈ a.dependencies, ∃ c, s.record? dep.2 = some c ∧
      c.status = .evaluated) :
    (Linker.setPhaseIn s x phase).Sound host := by
  have hdeps : (Linker.setPhaseIn s x phase).dependenciesOf = s.dependenciesOf := by
    funext r
    rw [Linker.setPhaseIn, dependenciesOf, dependenciesOf, record?_modifyRecord]
    by_cases hr : r = x
    · rw [if_pos hr, hr, ha]
      rfl
    · rw [if_neg hr]
  have hgrows := ModuleRecord.grows_phase hmove hformed
  refine h.modifyRecord ha hgrows ⟨hformed, fun hstatus => ?_, (h.kept x a ha).part,
    fun hstatus => ?_⟩
    (fun dep hdep => ?_) ?_
  · exact absurd hstatus (Status.ne_unlinked_of_canMove hmove)
  · rcases Status.isWhole_of_canMove hmove hstatus with hlinked | hbefore
    · exact hwhole hlinked
    · exact (h.kept x a ha).whole hbefore
  · obtain ⟨c, hc, hedge⟩ := h.edge x a ha dep hdep
    refine ⟨c, hc, hedge.grow_parent hgrows fun hstatus => ?_⟩
    obtain ⟨c', hc', hevaluated⟩ := hdone hstatus dep hdep
    obtain rfl : c' = c := by simpa [hc, eq_comm] using hc'
    exact hevaluated
  · rw [← Linker.setPhaseIn, hdeps]
    exact h.once

/-- What was linked for the next request of a record is added to it. The new dependency has been
linked itself, and nobody else has it. -/
theorem Sound.addDependency (h : s.Sound host) {x : RecordId} {a : ModuleRecord σ η}
    {specifier : String} {dep : RecordId} (ha : s.record? x = some a)
    (hlinking : a.status = .linking)
    (hnext : (a.dependencies ++ [(specifier, dep)]).map Prod.fst <+: a.requests)
    (hnobody : ∀ r, ∀ d ∈ s.dependenciesOf r, d.2 ≠ dep) {c : ModuleRecord σ η}
    (hc : s.record? dep = some c) (hedge : ModuleRecord.Edge host x a (specifier, dep) c) :
    (Linker.addDependencyIn s x specifier dep).Sound host := by
  have hgrows := ModuleRecord.grows_dependency hlinking (specifier, dep)
  -- an edge of the new state is an edge of the old one, or the new one
  have hcases : ∀ (r : RecordId) (i : Nat) (d : String × RecordId),
      ((Linker.addDependencyIn s x specifier dep).dependenciesOf r)[i]? = some d →
      (s.dependenciesOf r)[i]? = some d ∨
        r = x ∧ i = a.dependencies.length ∧ d = (specifier, dep) := by
    intro r i d hd
    rw [Linker.addDependencyIn, dependenciesOf, record?_modifyRecord] at hd
    by_cases hr : r = x
    · rw [if_pos hr, hr, ha] at hd
      have hd : (a.dependencies ++ [(specifier, dep)])[i]? = some d := hd
      rw [hr, dependenciesOf_eq ha]
      rcases Nat.lt_or_ge i a.dependencies.length with hi | hi
      · rw [List.getElem?_append_left hi] at hd
        exact Or.inl hd
      · rw [List.getElem?_append_right hi, List.getElem?_singleton] at hd
        split at hd
        · exact Or.inr ⟨rfl, by omega, (Option.some.inj hd).symm⟩
        · simp at hd
    · rw [if_neg hr] at hd
      exact Or.inl hd
  refine h.modifyRecord ha hgrows
    ⟨(h.kept x a ha).formed, fun hstatus => ?_, hnext, fun hstatus => ?_⟩ (fun d hd => ?_) ?_
  · exact absurd (hlinking.symm.trans hstatus) (by decide)
  · have hwhole : a.status.isWhole = true := hstatus
    simp [hlinking, Status.isWhole] at hwhole
  · have hnot : a.status ≠ .evaluated := by simp [hlinking]
    rcases List.mem_append.1 hd with hd | hd
    · obtain ⟨c', hc', hedge'⟩ := h.edge x a ha d hd
      exact ⟨c', hc', hedge'.grow_parent hgrows fun hstatus => absurd hstatus hnot⟩
    · rw [List.mem_singleton.1 hd]
      exact ⟨c, hc, hedge.grow_parent hgrows fun hstatus => absurd hstatus hnot⟩
  · intro r₁ r₂ i₁ i₂ d₁ d₂ h₁ h₂ heq
    rcases hcases r₁ i₁ d₁ h₁ with hold₁ | ⟨hr₁, hi₁, hd₁⟩
    · rcases hcases r₂ i₂ d₂ h₂ with hold₂ | ⟨-, -, hd₂⟩
      · exact h.once r₁ r₂ i₁ i₂ d₁ d₂ hold₁ hold₂ heq
      · rw [hd₂] at heq
        exact absurd heq (hnobody r₁ d₁ (List.mem_of_getElem? hold₁))
    · rcases hcases r₂ i₂ d₂ h₂ with hold₂ | ⟨hr₂, hi₂, -⟩
      · rw [hd₁] at heq
        exact absurd heq.symm (hnobody r₂ d₂ (List.mem_of_getElem? hold₂))
      · exact ⟨hr₁.trans hr₂.symm, hi₁.trans hi₂.symm⟩

end State

end ModuleLoader
