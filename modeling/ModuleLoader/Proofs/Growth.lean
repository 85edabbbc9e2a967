import Mathlib.Logic.Relation
import ModuleLoader.Proofs.Origin
import ModuleLoader.Proofs.Steps
/-!
How records change over time.

A record keeps its name, its context, its lineage and what it is made from. It
moves from phase to phase, and it gains dependencies until it has been linked.
`ModuleRecord.Grows` is this, between a record now and the same record later.

Of a whole state more can be said, for an operation that was begun in it. The
records that were there are there still and have grown. Those that were under
way then are somebody else's to finish, and so they are as they were; only the
operations on the way down to this one may touch their own. And what becomes a
dependency is always new, so between records that were there no edge appears.
`State.Evolves` is this, and it is proved one step at a time.
-/

namespace ModuleLoader

variable {σ η : Type}

namespace Status

def Reaches : Status → Status → Prop := Relation.ReflTransGen fun a b => a.canMove b = true

/-- The record has been linked, or it has failed: no dependency will be added to it. -/
def isSettled : Status → Bool
  | unlinked => false
  | linking => false
  | _ => true

/-- The record is being linked or evaluated. -/
def isBusy : Status → Bool
  | linking => true
  | evaluating => true
  | _ => false

/-- The record has been linked, and has not failed since. -/
def isWhole : Status → Bool
  | linked => true
  | evaluating => true
  | evaluated => true
  | _ => false

theorem isSettled_of_canMove {a b : Status} (h : a.canMove b = true) (ha : a.isSettled = true) :
    b.isSettled = true := by
  cases a <;> cases b <;> simp_all [canMove, isSettled]

theorem isTerminal_of_canMove {a b : Status} (h : a.canMove b = true) : a.isTerminal = false := by
  cases a <;> cases b <;> simp_all [canMove, isTerminal]

theorem isSettled_of_isWhole {a : Status} (h : a.isWhole = true) : a.isSettled = true := by
  cases a <;> simp_all [isWhole, isSettled]

theorem ne_unlinked_of_isSettled {a : Status} (h : a.isSettled = true) : a ≠ .unlinked := by
  rintro rfl
  simp [isSettled] at h

theorem ne_linking_of_isSettled {a : Status} (h : a.isSettled = true) : a ≠ .linking := by
  rintro rfl
  simp [isSettled] at h

/-- Nothing becomes unlinked again. -/
theorem ne_unlinked_of_canMove {a b : Status} (h : a.canMove b = true) : b ≠ .unlinked := by
  cases a <;> cases b <;> simp_all [canMove]

/-- What becomes whole is linked now, or was whole before. -/
theorem isWhole_of_canMove {a b : Status} (h : a.canMove b = true) (hb : b.isWhole = true) :
    b = .linked ∨ a.isWhole = true := by
  cases a <;> cases b <;> simp_all [canMove, isWhole]

theorem Reaches.isSettled {a b : Status} (h : Reaches a b) (ha : a.isSettled = true) :
    b.isSettled = true := by
  induction h with
  | refl => exact ha
  | tail _ hmove ih => exact isSettled_of_canMove hmove ih

end Status

/-! ### What is known in a phase -/

namespace Phase

/-- The phases that records come to be in: each has what belongs to its status, and nothing else. -/
inductive WellFormed : Phase → Prop
  | unlinked : WellFormed .unlinked
  | linking : WellFormed .linking
  | linked : WellFormed .linked
  | evaluating : WellFormed .evaluating
  | evaluated (n : Namespace) : WellFormed (.evaluated n)
  | errored (reason : String) : WellFormed (.errored reason)

namespace WellFormed

variable {p : Phase}

theorem isSome_namespace? (h : p.WellFormed) : p.namespace?.isSome ↔ p.status = .evaluated := by
  cases h <;> simp [Phase.unlinked, Phase.linking, Phase.linked, Phase.evaluating, Phase.evaluated,
    Phase.errored]

theorem isSome_failure? (h : p.WellFormed) : p.failure?.isSome ↔ p.status = .errored := by
  cases h <;> simp [Phase.unlinked, Phase.linking, Phase.linked, Phase.evaluating, Phase.evaluated,
    Phase.errored]

theorem eq_of_status (h : p.WellFormed) {status : Status} (hstatus : p.status = status)
    (hopen : status.isTerminal = false) : p = ⟨status, none, none⟩ := by
  subst hstatus
  cases h <;> first | rfl | cases hopen

theorem exists_of_evaluated (h : p.WellFormed) (hstatus : p.status = .evaluated) :
    ∃ n, p = .evaluated n := by
  cases h <;> first | exact ⟨_, rfl⟩ | cases hstatus

theorem isTerminal_of_namespace? (h : p.WellFormed) {n : Namespace} (hn : p.namespace? = some n) :
    p.status.isTerminal = true := by
  rw [h.isSome_namespace?.1 (by rw [hn]; rfl)]
  rfl

theorem isTerminal_of_failure? (h : p.WellFormed) {reason : String}
    (hreason : p.failure? = some reason) : p.status.isTerminal = true := by
  rw [h.isSome_failure?.1 (by rw [hreason]; rfl)]
  rfl

end WellFormed

end Phase

/-! ### One record -/

namespace ModuleRecord

structure Grows (a b : ModuleRecord σ η) : Prop where
  identifier : b.identifier = a.identifier
  context : b.context = a.context
  lineage : b.lineage = a.lineage
  kind : b.kind = a.kind
  status : a.status.Reaches b.status
  final : a.status.isTerminal = true → b.phase = a.phase
  formed : a.phase.WellFormed → b.phase.WellFormed
  settled : a.status.isSettled = true → b.dependencies = a.dependencies
  dependencies : a.dependencies <+: b.dependencies

variable {a b c : ModuleRecord σ η}

theorem Grows.refl (a : ModuleRecord σ η) : Grows a a :=
  ⟨rfl, rfl, rfl, rfl, .refl, fun _ => rfl, id, fun _ => rfl, List.prefix_refl _⟩

theorem Grows.trans (h : Grows a b) (h' : Grows b c) : Grows a c where
  identifier := h'.identifier.trans h.identifier
  context := h'.context.trans h.context
  lineage := h'.lineage.trans h.lineage
  kind := h'.kind.trans h.kind
  status := Relation.ReflTransGen.trans h.status h'.status
  final ha := by
    have hphase := h.final ha
    have hb : b.status.isTerminal = true := by rw [ModuleRecord.status, hphase]; exact ha
    exact (h'.final hb).trans hphase
  formed ha := h'.formed (h.formed ha)
  settled ha := (h'.settled (h.status.isSettled ha)).trans (h.settled ha)
  dependencies := h.dependencies.trans h'.dependencies

theorem Grows.chain (h : Grows a b) : b.chain = a.chain := by
  rw [ModuleRecord.chain, ModuleRecord.chain, h.lineage, h.identifier]

theorem Grows.referrer (h : Grows a b) : b.referrer = a.referrer := by
  rw [ModuleRecord.referrer, ModuleRecord.referrer, h.identifier, h.context, h.chain]

theorem Grows.requests (h : Grows a b) : b.requests = a.requests := by
  rw [ModuleRecord.requests, ModuleRecord.requests, h.kind]

theorem Grows.dispatch (h : Grows a b) : b.dispatch = a.dispatch := by
  rw [ModuleRecord.dispatch, ModuleRecord.dispatch, h.kind]

/-- A legal move. -/
theorem grows_phase {phase : Phase} (h : a.status.canMove phase.status = true)
    (hformed : phase.WellFormed) : Grows a { a with phase } where
  identifier := rfl
  context := rfl
  lineage := rfl
  kind := rfl
  status := .single h
  final ha := by simp [Status.isTerminal_of_canMove h] at ha
  formed _ := hformed
  settled _ := rfl
  dependencies := List.prefix_refl _

/-- One more dependency, while the record is being linked. -/
theorem grows_dependency (h : a.status = .linking) (dep : String × RecordId) :
    Grows a { a with dependencies := a.dependencies ++ [dep] } where
  identifier := rfl
  context := rfl
  lineage := rfl
  kind := rfl
  status := .refl
  final ha := by simp [h, Status.isTerminal] at ha
  formed ha := ha
  settled ha := by simp [h, Status.isSettled] at ha
  dependencies := List.prefix_append _ _

end ModuleRecord

/-! ### Records in a state -/

namespace State

/-- The record of a name, if there is one. -/
def record? (s : State σ η) (r : RecordId) : Option (ModuleRecord σ η) := s.records[r.index]?

theorem record?_congr {s t : State σ η} (h : t.records = s.records) : t.record? = s.record? := by
  funext r
  rw [record?, record?, h]

theorem lt_of_record? {s : State σ η} {r : RecordId} {record : ModuleRecord σ η}
    (h : s.record? r = some record) : r.index < s.records.size := by
  obtain ⟨hlt, -⟩ := Array.getElem?_eq_some_iff.1 h
  exact hlt

theorem exists_record? {s : State σ η} {r : RecordId} (h : r.index < s.records.size) :
    ∃ record, s.record? r = some record :=
  ⟨s.records[r.index], Array.getElem?_eq_getElem h⟩

theorem record?_add (s : State σ η) (record : ModuleRecord σ η) (r : RecordId) :
    (s.add record).record? r = if r = s.next then some record else s.record? r := by
  by_cases hr : r = s.next
  · rw [hr, if_pos rfl]
    exact records_add_next s record
  · have hne : r.index ≠ s.records.size := fun he => hr (by cases r; exact congrArg RecordId.mk he)
    rw [if_neg hr, record?, record?, add, Array.getElem?_push, if_neg hne]

theorem record?_modifyRecord (s : State σ η) (x : RecordId)
    (f : ModuleRecord σ η → ModuleRecord σ η) (r : RecordId) :
    (s.modifyRecord x f).record? r = if r = x then (s.record? r).map f else s.record? r := by
  unfold record? modifyRecord
  by_cases hr : r = x
  · rw [hr, if_pos rfl, Array.getElem?_modify, if_pos rfl]
  · have hne : x.index ≠ r.index := fun he => hr (by
      cases r
      cases x
      exact congrArg RecordId.mk he.symm)
    rw [if_neg hr, Array.getElem?_modify, if_neg hne]

theorem record?_setPhaseIn {s : State σ η} {x : RecordId} {a : ModuleRecord σ η}
    (ha : s.record? x = some a) (phase : Phase) :
    (Linker.setPhaseIn s x phase).record? x = some { a with phase } := by
  rw [Linker.setPhaseIn, record?_modifyRecord, if_pos rfl, ha]
  rfl

theorem record?_setPhaseIn_of_ne (s : State σ η) {x r : RecordId} (hr : r ≠ x) (phase : Phase) :
    (Linker.setPhaseIn s x phase).record? r = s.record? r := by
  rw [Linker.setPhaseIn, record?_modifyRecord, if_neg hr]

theorem record?_setPhaseIn_of_status_ne {s : State σ η} {x r : RecordId} {a b : ModuleRecord σ η}
    (ha : s.record? x = some a) (hb : s.record? r = some b) (hne : b.status ≠ a.status)
    (phase : Phase) : (Linker.setPhaseIn s x phase).record? r = some b := by
  have hrx : r ≠ x := by
    rintro rfl
    obtain rfl : a = b := by simpa [ha] using hb
    exact hne rfl
  rw [record?_setPhaseIn_of_ne s hrx, hb]

/-- What is under way is not touched when a record is taken up that is not. -/
theorem record?_setPhaseIn_of_isBusy {s : State σ η} {x r : RecordId} {a b : ModuleRecord σ η}
    (ha : s.record? x = some a) (hidle : a.status.isBusy = false) (hb : s.record? r = some b)
    (hbusy : b.status.isBusy = true) (phase : Phase) :
    (Linker.setPhaseIn s x phase).record? r = some b := by
  refine record?_setPhaseIn_of_status_ne ha hb (fun heq => ?_) phase
  rw [heq, hidle] at hbusy
  exact absurd hbusy (by decide)

theorem record?_addDependencyIn {s : State σ η} {x : RecordId} {a : ModuleRecord σ η}
    (ha : s.record? x = some a) (specifier : String) (dep : RecordId) :
    (Linker.addDependencyIn s x specifier dep).record? x =
      some { a with dependencies := a.dependencies ++ [(specifier, dep)] } := by
  rw [Linker.addDependencyIn, record?_modifyRecord, if_pos rfl, ha]
  rfl

theorem record?_addDependencyIn_of_ne (s : State σ η) {x r : RecordId} (hr : r ≠ x)
    (specifier : String) (dep : RecordId) :
    (Linker.addDependencyIn s x specifier dep).record? r = s.record? r := by
  rw [Linker.addDependencyIn, record?_modifyRecord, if_neg hr]

theorem grows_addDependencyIn {s : State σ η} {r : RecordId} {a : ModuleRecord σ η}
    (ha : s.record? r = some a) (hlinking : a.status = .linking) (specifier : String)
    (dep : RecordId) {x : RecordId} {b : ModuleRecord σ η} (hb : s.record? x = some b) :
    ∃ b', (Linker.addDependencyIn s r specifier dep).record? x = some b' ∧ b.Grows b' := by
  by_cases hx : x = r
  · subst hx
    obtain rfl : a = b := by simpa [ha] using hb
    exact ⟨_, record?_addDependencyIn ha _ _, ModuleRecord.grows_dependency hlinking _⟩
  · exact ⟨b, (record?_addDependencyIn_of_ne s hx _ _).trans hb, .refl b⟩

@[simp] theorem size_modifyRecord (s : State σ η) (x : RecordId)
    (f : ModuleRecord σ η → ModuleRecord σ η) :
    (s.modifyRecord x f).records.size = s.records.size := by
  simp [modifyRecord]

@[simp] theorem size_add (s : State σ η) (record : ModuleRecord σ η) :
    (s.add record).records.size = s.records.size + 1 := by
  simp [add]

/-! ### A whole state -/

/-- What an operation that was begun in the first state may have made of it by the second. The
records of which `own` holds are being worked on by the operation, or by one it is part of. -/
structure Evolves (own : RecordId → Prop) (s t : State σ η) : Prop where
  grows : ∀ r a, s.record? r = some a → ∃ b, t.record? r = some b ∧ a.Grows b
  busy : ∀ r a, s.record? r = some a → a.status.isBusy = true → ¬ own r → t.record? r = some a
  edges : ∀ r b, t.record? r = some b → ∀ dep ∈ b.dependencies, dep.2.index < s.records.size →
    ∃ a, s.record? r = some a ∧ dep ∈ a.dependencies

/-- The same for an operation that works on no record that was under way before. -/
abbrev Follows (s t : State σ η) : Prop := Evolves (fun _ => False) s t

variable {own own' : RecordId → Prop} {s m t : State σ η}

theorem Evolves.size_le (h : Evolves own s t) : s.records.size ≤ t.records.size := by
  cases hsize : s.records.size with
  | zero => exact Nat.zero_le _
  | succ n =>
      obtain ⟨a, ha⟩ := exists_record? (s := s) (r := ⟨n⟩) (by simp [hsize])
      obtain ⟨b, hb, -⟩ := h.grows _ a ha
      exact lt_of_record? hb

theorem Evolves.of_records_eq (h : t.records = s.records) : Evolves own s t := by
  have hrecord := record?_congr h
  refine ⟨fun r a ha => ⟨a, ?_, .refl a⟩, fun r a ha _ _ => ?_, fun r b hb dep hdep _ => ?_⟩
  · rw [hrecord]
    exact ha
  · rw [hrecord]
    exact ha
  · rw [hrecord] at hb
    exact ⟨b, hb, hdep⟩

theorem Evolves.refl (s : State σ η) : Evolves own s s := .of_records_eq rfl

theorem Evolves.trans (h : Evolves own s m) (h' : Evolves own m t) : Evolves own s t where
  grows r a ha := by
    obtain ⟨b, hb, hab⟩ := h.grows r a ha
    obtain ⟨c, hc, hbc⟩ := h'.grows r b hb
    exact ⟨c, hc, hab.trans hbc⟩
  busy r a ha hbusy hown := h'.busy r a (h.busy r a ha hbusy hown) hbusy hown
  edges r c hc dep hdep hold := by
    obtain ⟨b, hb, hdep⟩ := h'.edges r c hc dep hdep (Nat.lt_of_lt_of_le hold h.size_le)
    exact h.edges r b hb dep hdep hold

theorem Evolves.mono (h : Evolves own s t) (hown : ∀ r, own r → own' r) : Evolves own' s t :=
  ⟨h.grows, fun r a ha hbusy hr => h.busy r a ha hbusy fun hr' => hr (hown r hr'), h.edges⟩

theorem Evolves.of_follows (h : Follows s t) : Evolves own s t := h.mono fun _ hf => hf.elim

theorem Evolves.final (h : Evolves own s t) {r : RecordId} {a : ModuleRecord σ η}
    (ha : s.record? r = some a) (hfinal : a.status.isTerminal = true) :
    ∃ b, t.record? r = some b ∧ b.phase = a.phase := by
  obtain ⟨b, hb, hab⟩ := h.grows r a ha
  exact ⟨b, hb, hab.final hfinal⟩

/-- A record that was not under way when the operation began need not be mentioned afterwards. -/
theorem Evolves.follows (h : Evolves own s t)
    (hown : ∀ r a, own r → s.record? r = some a → a.status.isBusy = false) : Follows s t where
  grows := h.grows
  busy r a ha hbusy _ := h.busy r a ha hbusy fun hr => by simp [hown r a hr ha] at hbusy
  edges := h.edges

theorem Evolves.add (identifier : String) (referrer : Referrer) (kind : ModuleKind σ η) :
    Evolves own s (s.add (.fresh identifier referrer kind)) := by
  have hold : ∀ r a, s.record? r = some a →
      (s.add (.fresh identifier referrer kind)).record? r = some a := by
    intro r a ha
    have hne : r ≠ s.next := fun he => Nat.ne_of_lt (lt_of_record? ha) (by rw [he]; rfl)
    rw [record?_add, if_neg hne]
    exact ha
  refine ⟨fun r a ha => ⟨a, hold r a ha, .refl a⟩, fun r a ha _ _ => hold r a ha, ?_⟩
  intro r b hb dep hdep _
  rw [record?_add] at hb
  split at hb
  · cases hb
    simp [ModuleRecord.fresh] at hdep
  · exact ⟨b, hb, hdep⟩

/-- A record of its own that an operation changes has to grow, and what is new among its
dependencies has to be a record that was not there when the operation began. -/
theorem Evolves.modifyRecord (h : Evolves own s m) {x : RecordId} {a : ModuleRecord σ η}
    {f : ModuleRecord σ η → ModuleRecord σ η} (ha : m.record? x = some a) (hown : own x)
    (hgrows : a.Grows (f a))
    (hnew : ∀ dep ∈ (f a).dependencies, dep ∉ a.dependencies → s.records.size ≤ dep.2.index) :
    Evolves own s (m.modifyRecord x f) where
  grows r c hc := by
    obtain ⟨b, hb, hcb⟩ := h.grows r c hc
    rw [record?_modifyRecord]
    by_cases hr : r = x
    · rw [hr, ha] at hb
      cases hb
      rw [if_pos hr, hr, ha]
      exact ⟨f a, rfl, hcb.trans hgrows⟩
    · rw [if_neg hr]
      exact ⟨b, hb, hcb⟩
  busy r c hc hbusy hr := by
    have hne : r ≠ x := fun he => hr (he ▸ hown)
    rw [record?_modifyRecord, if_neg hne]
    exact h.busy r c hc hbusy hr
  edges r b hb dep hdep hold := by
    rw [record?_modifyRecord] at hb
    split at hb
    · rename_i hr
      rw [hr, ha] at hb
      cases hb
      by_cases hmem : dep ∈ a.dependencies
      · exact hr ▸ h.edges x a ha dep hmem hold
      · exact absurd (hnew dep hdep hmem) (by omega)
    · exact h.edges r b hb dep hdep hold

theorem Evolves.setPhase (h : Evolves own s m) {x : RecordId} {a : ModuleRecord σ η} {phase : Phase}
    (ha : m.record? x = some a) (hown : own x) (hmove : a.status.canMove phase.status = true)
    (hformed : phase.WellFormed) : Evolves own s (Linker.setPhaseIn m x phase) :=
  h.modifyRecord ha hown (ModuleRecord.grows_phase hmove hformed) fun _ hdep hnot =>
    absurd hdep hnot

theorem Evolves.addDependency (h : Evolves own s m) {x : RecordId} {a : ModuleRecord σ η}
    {specifier : String} {dep : RecordId} (ha : m.record? x = some a) (hown : own x)
    (hlinking : a.status = .linking) (hdep : s.records.size ≤ dep.index) :
    Evolves own s (Linker.addDependencyIn m x specifier dep) := by
  refine h.modifyRecord ha hown (ModuleRecord.grows_dependency hlinking _) ?_
  intro d hd hnot
  rcases List.mem_append.1 hd with hd | hd
  · exact absurd hd hnot
  · rw [List.mem_singleton.1 hd]
    exact hdep

end State

end ModuleLoader
