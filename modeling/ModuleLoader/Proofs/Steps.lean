import ModuleLoader.Linker.Graph
import ModuleLoader.Proofs.Keeps
/-!
The steps by which linking and evaluating change a record.

A record is looked up, moved to another phase, given one more dependency, or
marked as failed. These four are all that the loader ever does to a record that
exists, and this is what each comes to when it is run. And this is what a lookup
comes to that has no hook before it.
-/

namespace ModuleLoader

variable {σ η α : Type}

theorem State.modifyRecord_modifyRecord (s : State σ η) (r : RecordId)
    (f g : ModuleRecord σ η → ModuleRecord σ η) :
    (s.modifyRecord r f).modifyRecord r g = s.modifyRecord r fun a => g (f a) := by
  have hrecords : (s.records.modify r.index f).modify r.index g =
      s.records.modify r.index fun a => g (f a) := by
    refine Array.ext (by simp) fun i hi _ => ?_
    rw [Array.getElem_modify, Array.getElem_modify, Array.getElem_modify]
    split <;> rfl
  simp only [modifyRecord, hrecords]

namespace Linker

open Eff

theorem runIn_recordAt {r : RecordId} {record : ModuleRecord σ η} {s : State σ η}
    (hr : s.records[r.index]? = some record) : (recordAt r).runIn s = (.ok record, s) := by
  rw [recordAt, runIn_bind]
  simp [hr]

theorem runIn_recordAt_of_eq_none {r : RecordId} {s : State σ η}
    (hr : s.records[r.index]? = none) :
    (recordAt r).runIn s = (.error (.panic "no such record"), s) := by
  rw [recordAt, runIn_bind]
  simp [hr]

theorem runIn_recordAt_cases (r : RecordId) (s : State σ η) :
    (∃ record, s.records[r.index]? = some record ∧ (recordAt r).runIn s = (.ok record, s)) ∨
      ∃ m, (recordAt r).runIn s = (.error (.panic m), s) := by
  cases hr : s.records[r.index]? with
  | some record => exact Or.inl ⟨record, rfl, runIn_recordAt hr⟩
  | none => exact Or.inr ⟨_, runIn_recordAt_of_eq_none hr⟩

theorem runIn_recordAt_eq_ok {r : RecordId} {record : ModuleRecord σ η} {s t : State σ η} :
    (recordAt r).runIn s = (.ok record, t) ↔ s.records[r.index]? = some record ∧ s = t := by
  constructor
  · intro h
    rcases runIn_recordAt_cases r s with ⟨found, hr, hrun⟩ | ⟨m, hrun⟩
    · rw [hrun, Prod.mk.injEq, Except.ok.injEq] at h
      exact ⟨h.1 ▸ hr, h.2⟩
    · simp [hrun] at h
  · rintro ⟨hr, rfl⟩
    exact runIn_recordAt hr

def setPhaseIn (s : State σ η) (r : RecordId) (phase : Phase) : State σ η :=
  s.modifyRecord r fun record => { record with phase }

def modifyPhaseIn (s : State σ η) (r : RecordId) (f : Phase → Phase) : State σ η :=
  s.modifyRecord r fun record => { record with phase := f record.phase }

def addDependencyIn (s : State σ η) (r : RecordId) (specifier : String) (dep : RecordId) :
    State σ η :=
  s.modifyRecord r fun record =>
    { record with dependencies := record.dependencies ++ [(specifier, dep)] }

@[simp] theorem runIn_addDependency (r : RecordId) (specifier : String) (dep : RecordId)
    (s : State σ η) :
    (addDependency r specifier dep).runIn s = (.ok (), addDependencyIn s r specifier dep) := rfl

@[simp] theorem runIn_modifyPhase (r : RecordId) (f : Phase → Phase) (s : State σ η) :
    (modifyPhase r f).runIn s = (.ok (), modifyPhaseIn s r f) := rfl

theorem modifyPhaseIn_eq {r : RecordId} {record : ModuleRecord σ η} {s : State σ η}
    (hr : s.records[r.index]? = some record) (f : Phase → Phase) :
    modifyPhaseIn s r f = setPhaseIn s r (f record.phase) := by
  have hrecords : (s.records.modify r.index fun a => { a with phase := f a.phase }) =
      s.records.modify r.index fun a => { a with phase := f record.phase } := by
    refine Array.ext (by simp) fun i hi _ => ?_
    rw [Array.getElem_modify, Array.getElem_modify]
    split
    · rename_i hri
      subst hri
      obtain ⟨_, hrecord⟩ := Array.getElem?_eq_some_iff.1 hr
      rw [hrecord]
    · rfl
  simp only [modifyPhaseIn, setPhaseIn, State.modifyRecord, hrecords]

theorem runIn_transition {r : RecordId} {record : ModuleRecord σ η} {s : State σ η}
    (hr : s.records[r.index]? = some record) (status : Status) :
    (transition r status).runIn s =
      if record.status.canMove status then (.ok (), setPhaseIn s r (record.phase.move status))
      else (.error (.error (.invalidStatus record.identifier record.status status)), s) := by
  rw [transition, runIn_bind, runIn_recordAt hr]
  dsimp only
  split
  · rw [runIn_modifyPhase, modifyPhaseIn_eq hr]
  · rfl

theorem runIn_complete {r : RecordId} {record : ModuleRecord σ η} {s : State σ η}
    (hr : s.records[r.index]? = some record) (n : Namespace) :
    (complete r n).runIn s =
      if record.status.canMove .evaluated then
        (.ok (), setPhaseIn s r ((record.phase.move .evaluated).keep n))
      else (.error (.error (.invalidStatus record.identifier record.status .evaluated)), s) := by
  rw [complete, runIn_bind, runIn_transition hr]
  by_cases hmove : record.status.canMove .evaluated = true
  · have hmoved : (setPhaseIn s r (record.phase.move .evaluated)).records[r.index]? =
        some { record with phase := record.phase.move .evaluated } := by
      rw [setPhaseIn, State.modifyRecord, Array.getElem?_modify, if_pos rfl, hr]
      rfl
    rw [if_pos hmove, if_pos hmove]
    dsimp only
    rw [runIn_modifyPhase, modifyPhaseIn_eq hmoved, setPhaseIn, setPhaseIn,
      State.modifyRecord_modifyRecord]
    rfl
  · rw [if_neg hmove, if_neg hmove]

theorem runIn_markFailed {r : RecordId} {record : ModuleRecord σ η} {s : State σ η}
    (hr : s.records[r.index]? = some record) (e : Error) :
    (markFailed r e).runIn s =
      (.ok (), if record.status.canMove .errored then setPhaseIn s r (record.phase.fail e.message)
        else s) := by
  rw [markFailed, runIn_bind, runIn_recordAt hr]
  dsimp only
  split
  · rw [runIn_modifyPhase, modifyPhaseIn_eq hr]
  · rfl

/-! ### What the steps leave alone -/

end Linker

def ModuleRecord.bare (a : ModuleRecord σ η) : ModuleRecord σ η :=
  { a with phase := .unlinked, dependencies := [] }

def State.bare (s : State σ η) : State σ η := { s with records := s.records.map ModuleRecord.bare }

theorem State.bare_modifyRecord (s : State σ η) (r : RecordId)
    {f : ModuleRecord σ η → ModuleRecord σ η} (hf : ∀ a, (f a).bare = a.bare) :
    (s.modifyRecord r f).bare = s.bare := by
  have hrecords : (s.records.modify r.index f).map ModuleRecord.bare =
      s.records.map ModuleRecord.bare := by
    refine Array.ext (by simp) fun i hi _ => ?_
    rw [Array.getElem_map, Array.getElem_map, Array.getElem_modify]
    split
    · exact hf _
    · rfl
  simp only [bare, modifyRecord, hrecords]

namespace Linker

open Eff

@[simp] theorem bare_setPhaseIn (s : State σ η) (r : RecordId) (phase : Phase) :
    (setPhaseIn s r phase).bare = s.bare :=
  s.bare_modifyRecord r fun _ => rfl

@[simp] theorem bare_addDependencyIn (s : State σ η) (r : RecordId) (specifier : String)
    (dep : RecordId) : (addDependencyIn s r specifier dep).bare = s.bare :=
  s.bare_modifyRecord r fun _ => rfl

/-! ### Linking and evaluating, step by step -/

def runBody (serve : (c : Call) → Eff σ η c.Reply) (r : RecordId) (record : ModuleRecord σ η)
    (m : SourceModule σ η) (imports : OrderedMap Namespace) : Eff σ η Namespace := do
  let importMeta ← Eff.ofExcept (ImportMeta.ofPath m.location)
  let env : ModuleEnvironment := ⟨record.context, importMeta, imports, record.importer⟩
  Eff.emit (.evaluate r env)
  (m.compiled.body env).exec serve

theorem evaluateSource_eq (serve : (c : Call) → Eff σ η c.Reply) (r : RecordId)
    (record : ModuleRecord σ η) (m : SourceModule σ η) :
    evaluateSource serve r record m =
      evaluateAll serve .empty record.dependencies >>= runBody serve r record m := rfl

theorem runIn_transition_of_phase {r : RecordId} {record : ModuleRecord σ η} {s : State σ η}
    {phase : Phase} {status : Status} (hr : s.records[r.index]? = some record)
    (hphase : record.phase = phase) (hmove : phase.status.canMove status = true) :
    (transition r status).runIn s = (.ok (), setPhaseIn s r (phase.move status)) := by
  subst hphase
  rw [runIn_transition hr, ModuleRecord.status, if_pos hmove]

theorem runIn_complete_of_phase {r : RecordId} {record : ModuleRecord σ η} {s : State σ η}
    {phase : Phase} (n : Namespace) (hr : s.records[r.index]? = some record)
    (hphase : record.phase = phase) (hmove : phase.status.canMove .evaluated = true) :
    (complete r n).runIn s = (.ok (), setPhaseIn s r ((phase.move .evaluated).keep n)) := by
  subst hphase
  rw [runIn_complete hr, ModuleRecord.status, if_pos hmove]

/-- A record that is not linked yet is taken up, and then its requests are linked. -/
theorem runIn_linkModule_of_status {host : Host σ η} {serve : (c : Call) → Eff σ η c.Reply}
    {r : RecordId} {record : ModuleRecord σ η} {s : State σ η}
    (hr : s.records[r.index]? = some record) (hstatus : record.status = .unlinked) :
    (linkModule host serve r).runIn s =
      (onBehalf r (linkRequests host serve r record.referrer record.requests) >>= fun _ =>
        transition r .linked).runIn (setPhaseIn s r (record.phase.move .linking)) := by
  have hmove : record.status.canMove .linking = true := by
    rw [hstatus]
    rfl
  rw [linkModule, runIn_bind, runIn_recordAt hr]
  dsimp only
  rw [hstatus]
  dsimp only
  rw [runIn_bind, runIn_transition hr, if_pos hmove]

theorem runIn_linkModule_of_unlinked {host : Host σ η} {serve : (c : Call) → Eff σ η c.Reply}
    {r : RecordId} {record : ModuleRecord σ η} {s : State σ η}
    (hr : s.records[r.index]? = some record) (hphase : record.phase = .unlinked) :
    (linkModule host serve r).runIn s =
      (onBehalf r (linkRequests host serve r record.referrer record.requests) >>= fun _ =>
        transition r .linked).runIn (setPhaseIn s r .linking) := by
  rw [runIn_linkModule_of_status hr (congrArg Phase.status hphase), hphase]
  rfl

/-- A record that is linked is taken up, and then what it is made from is evaluated. -/
theorem runIn_evaluate_of_status {serve : (c : Call) → Eff σ η c.Reply} {r : RecordId}
    {record : ModuleRecord σ η} {s : State σ η} (hr : s.records[r.index]? = some record)
    (hstatus : record.status = .linked) :
    (evaluate serve r).runIn s =
      (onBehalf r (evaluateKind serve r record) >>= fun n => complete r n >>= fun _ =>
        pure n).runIn (setPhaseIn s r (record.phase.move .evaluating)) := by
  have hmove : record.status.canMove .evaluating = true := by
    rw [hstatus]
    rfl
  rw [evaluate, runIn_bind, runIn_recordAt hr]
  dsimp only
  rw [hstatus]
  dsimp only
  rw [evaluateAnew, runIn_bind, runIn_transition hr, if_pos hmove]

theorem runIn_evaluate_of_linked {serve : (c : Call) → Eff σ η c.Reply} {r : RecordId}
    {record : ModuleRecord σ η} {s : State σ η} (hr : s.records[r.index]? = some record)
    (hphase : record.phase = .linked) :
    (evaluate serve r).runIn s =
      (onBehalf r (evaluateKind serve r record) >>= fun n => complete r n >>= fun _ =>
        pure n).runIn (setPhaseIn s r .evaluating) := by
  rw [runIn_evaluate_of_status hr (congrArg Phase.status hphase), hphase]
  rfl

theorem runIn_evaluate_of_namespace? {serve : (c : Call) → Eff σ η c.Reply} {r : RecordId}
    {record : ModuleRecord σ η} {s : State σ η} {n : Namespace}
    (hr : s.records[r.index]? = some record) (hstatus : record.status = .evaluated)
    (hn : record.phase.namespace? = some n) : (evaluate serve r).runIn s = (.ok n, s) := by
  rw [evaluate, runIn_bind, runIn_recordAt hr]
  dsimp only
  rw [hstatus]
  dsimp only
  rw [hn]
  rfl

theorem runIn_evaluate_of_errored {serve : (c : Call) → Eff σ η c.Reply} {r : RecordId}
    {record : ModuleRecord σ η} {s : State σ η} (hr : s.records[r.index]? = some record)
    (hstatus : record.status = .errored) :
    (evaluate serve r).runIn s = (.error (.error record.failed), s) := by
  rw [evaluate, runIn_bind, runIn_recordAt hr]
  simp only [hstatus]
  rfl

/-- A record that is not linked, or is being evaluated, cannot be evaluated. -/
theorem runIn_evaluate_of_unready {serve : (c : Call) → Eff σ η c.Reply} {r : RecordId}
    {record : ModuleRecord σ η} {s : State σ η} (hr : s.records[r.index]? = some record)
    (h : record.status = .unlinked ∨ record.status = .linking ∨ record.status = .evaluating) :
    (evaluate serve r).runIn s = (.error (.error (.notLinked record.identifier)), s) := by
  rw [evaluate, runIn_bind, runIn_recordAt hr]
  rcases h with hstatus | hstatus | hstatus <;> simp only [hstatus] <;> rfl

/-- A record that was evaluated without a namespace could not be evaluated once more. -/
theorem runIn_evaluate_of_namespace?_eq_none {serve : (c : Call) → Eff σ η c.Reply} {r : RecordId}
    {record : ModuleRecord σ η} {s : State σ η} (hr : s.records[r.index]? = some record)
    (hstatus : record.status = .evaluated) (hnone : record.phase.namespace? = none) :
    (evaluate serve r).runIn s =
      (.error (.error (.invalidStatus record.identifier .evaluated .evaluating)), s) := by
  have hmove : ¬ record.status.canMove .evaluating = true := by
    rw [hstatus]
    decide
  rw [evaluate, runIn_bind, runIn_recordAt hr]
  dsimp only
  rw [hstatus]
  dsimp only
  rw [hnone, evaluateAnew, runIn_bind, runIn_transition hr, if_neg hmove, hstatus]

theorem leads_recordAt {I : State σ η → Prop} {E : Error → Prop} {s : State σ η} (hs : I s)
    (r : RecordId) :
    Leads I E s (recordAt r) fun record t => s = t ∧ s.records[r.index]? = some record := by
  rcases runIn_recordAt_cases r s with ⟨record, hr, hrun⟩ | ⟨m, hrun⟩
  · rw [Leads, hrun]
    exact ⟨hs, rfl, hr⟩
  · rw [Leads, hrun]
    exact ⟨hs, trivial⟩

/-- Work on behalf of a record that exists when the work has come to its end. -/
theorem leads_onBehalf {I J : State σ η → Prop} {E : Error → Prop} {r : RecordId}
    {work : Eff σ η α} {s : State σ η} {P : α → State σ η → Prop} (hwork : Leads I E s work P)
    (hI : ∀ t, I t → J t)
    (hfailed : ∀ t (e : Error), I t → ∃ record, t.records[r.index]? = some record ∧
      J (if record.status.canMove .errored then setPhaseIn t r (record.phase.fail e.message)
        else t)) :
    Leads J E s (onBehalf r work) P := by
  obtain ⟨hend, hends⟩ := hwork
  unfold onBehalf Leads
  rw [runIn_bind, runIn_settle]
  cases hrun : work.runIn s with
  | mk o t =>
      rw [hrun] at hend hends
      match o with
      | .ok a => exact ⟨hI t hend, hends⟩
      | .error (.panic m) => exact ⟨hI t hend, trivial⟩
      | .error .outOfDepth => exact ⟨hI t hend, trivial⟩
      | .error (.error e) =>
          obtain ⟨record, hr, hJ⟩ := hfailed t e hend
          dsimp only
          rw [runIn_bind, runIn_markFailed hr]
          exact ⟨hJ, hends⟩

/-- A record is taken to a phase, something is done on its behalf, and it is taken to the next. What
is done on its behalf leaves it in its phase. -/
theorem leads_during {I J : State σ η → Prop} {E : Error → Prop} {r : RecordId} {s : State σ η}
    {status : Status} {phase : Phase} (next : α → Phase) {work : Eff σ η α}
    {finish : α → Eff σ η Unit} {P Q : α → State σ η → Prop}
    (hbegin : (transition r status).runIn s = (.ok (), setPhaseIn s r phase))
    (hbusy : phase.status.canMove .errored = true)
    (hfinish : ∀ v t b, t.records[r.index]? = some b → b.phase = phase →
      (finish v).runIn t = (.ok (), setPhaseIn t r (next v)))
    (hwork : Leads I E (setPhaseIn s r phase) work P) (hend : ∀ t, I t → J t)
    (hkept : ∀ t, I t → ∃ b, t.records[r.index]? = some b ∧ b.phase = phase)
    (hfailed : ∀ t (e : Error), I t → J (setPhaseIn t r (phase.fail e.message)))
    (hdone : ∀ v t, I t → P v t → J (setPhaseIn t r (next v)) ∧ Q v (setPhaseIn t r (next v))) :
    Leads J E s (do transition r status; let v ← onBehalf r work; finish v; return v) Q := by
  have hbehalf := leads_onBehalf (J := J) (hwork.weaken fun _ ht => ht) hend fun t e ht => by
    obtain ⟨b, hb, hphase⟩ := hkept t ht
    refine ⟨b, hb, ?_⟩
    rw [ModuleRecord.status, hphase, if_pos hbusy]
    exact hfailed t e ht
  refine .bind_of_eq_ok hbegin (hbehalf.bind fun v t _ _ hv => ?_)
  obtain ⟨b, hb, hphase⟩ := hkept t hv.1
  obtain ⟨hJ, hQ⟩ := hdone v t hv.1 hv.2
  exact .bind_of_eq_ok (hfinish v t b hb hphase) (.pure hJ hQ)

theorem leads_during_linking {I J : State σ η → Prop} {E : Error → Prop} {r : RecordId}
    {record : ModuleRecord σ η} {s : State σ η} {work : Eff σ η Unit} {P Q : State σ η → Prop}
    (hr : s.records[r.index]? = some record) (hphase : record.phase = .unlinked)
    (hwork : Leads I E (setPhaseIn s r .linking) work fun _ t => P t) (hend : ∀ t, I t → J t)
    (hkept : ∀ t, I t → ∃ b, t.records[r.index]? = some b ∧ b.phase = .linking)
    (hfailed : ∀ t (e : Error), I t → J (setPhaseIn t r (.errored e.message)))
    (hdone : ∀ t, I t → P t → J (setPhaseIn t r .linked) ∧ Q (setPhaseIn t r .linked)) :
    Leads J E s (do transition r .linking; onBehalf r work; transition r .linked)
      fun _ t => Q t := by
  have hreturn : Leads J E s
      (do transition r .linking; let v ← onBehalf r work; transition r .linked; return v)
      fun _ t => Q t :=
    leads_during (fun _ => .linked) (runIn_transition_of_phase hr hphase rfl) rfl
      (fun _ _ _ hb hphase => runIn_transition_of_phase hb hphase rfl) hwork hend hkept hfailed
      fun _ => hdone
  simpa only [bind_pure_unit] using hreturn

theorem leads_evaluateAnew {serve : (c : Call) → Eff σ η c.Reply} {I J : State σ η → Prop}
    {E : Error → Prop} {r : RecordId} {record : ModuleRecord σ η} {s : State σ η}
    {P Q : Namespace → State σ η → Prop}
    (hr : s.records[r.index]? = some record) (hphase : record.phase = .linked)
    (hwork : Leads I E (setPhaseIn s r .evaluating) (evaluateKind serve r record) P)
    (hend : ∀ t, I t → J t)
    (hkept : ∀ t, I t → ∃ b, t.records[r.index]? = some b ∧ b.phase = .evaluating)
    (hfailed : ∀ t (e : Error), I t → J (setPhaseIn t r (.errored e.message)))
    (hdone : ∀ n t, I t → P n t →
      J (setPhaseIn t r (.evaluated n)) ∧ Q n (setPhaseIn t r (.evaluated n))) :
    Leads J E s (evaluateAnew serve r record) Q :=
  leads_during .evaluated (runIn_transition_of_phase hr hphase rfl) rfl
    (fun n _ _ hb hphase => runIn_complete_of_phase n hb hphase rfl) hwork hend hkept hfailed hdone

/-! ### What was done if it succeeded -/

theorem runIn_transition_eq_ok {r : RecordId} {status : Status} {s t : State σ η}
    (h : (transition r status).runIn s = (.ok (), t)) :
    ∃ record, s.records[r.index]? = some record ∧ record.status.canMove status = true ∧
      t = setPhaseIn s r (record.phase.move status) := by
  rcases runIn_recordAt_cases r s with ⟨record, hr, -⟩ | ⟨m, hrun⟩
  · rw [runIn_transition hr] at h
    split at h
    · rename_i hmove
      exact ⟨record, hr, hmove, (Prod.mk.inj h).2.symm⟩
    · simp at h
  · rw [transition, runIn_bind, hrun] at h
    simp at h

theorem runIn_complete_eq_ok {r : RecordId} {n : Namespace} {s t : State σ η}
    (h : (complete r n).runIn s = (.ok (), t)) :
    ∃ record, s.records[r.index]? = some record ∧ record.status.canMove .evaluated = true ∧
      t = setPhaseIn s r ((record.phase.move .evaluated).keep n) := by
  obtain ⟨_, _, hmoved, -⟩ := runIn_bind_eq_ok.1 h
  obtain ⟨record, hr, hmove, -⟩ := runIn_transition_eq_ok hmoved
  rw [runIn_complete hr, if_pos hmove] at h
  exact ⟨record, hr, hmove, (Prod.mk.inj h).2.symm⟩

theorem runIn_onBehalf_eq_ok {r : RecordId} {work : Eff σ η α} {s t : State σ η} {v : α}
    (h : (onBehalf r work).runIn s = (.ok v, t)) : work.runIn s = (.ok v, t) := by
  rw [onBehalf, runIn_bind, runIn_settle] at h
  cases hrun : work.runIn s with
  | mk o u =>
      rw [hrun] at h
      match o with
      | .ok w => exact h
      | .error (.panic m) => simp at h
      | .error .outOfDepth => simp at h
      | .error (.error e) =>
          obtain ⟨_, m, -, h⟩ := runIn_bind_eq_ok.1 h
          simp at h

/-- A record that is linked now was linked before, or its requests have been linked. -/
theorem linkModule_eq_ok {host : Host σ η} {serve : (c : Call) → Eff σ η c.Reply} {r : RecordId}
    {s t : State σ η} (h : (linkModule host serve r).runIn s = (.ok (), t)) :
    ∃ record, s.records[r.index]? = some record ∧ (record.phase = .unlinked →
      ∃ u b, (linkRequests host serve r record.referrer record.requests).runIn
          (setPhaseIn s r .linking) = (.ok (), u) ∧
        u.records[r.index]? = some b ∧ t = setPhaseIn u r (b.phase.move .linked)) := by
  obtain ⟨record, m, hat, -⟩ := runIn_bind_eq_ok.1 h
  obtain ⟨hr, -⟩ := runIn_recordAt_eq_ok.1 hat
  refine ⟨record, hr, fun hphase => ?_⟩
  rw [runIn_linkModule_of_unlinked hr hphase] at h
  obtain ⟨_, u, hwork, hend⟩ := runIn_bind_eq_ok.1 h
  obtain ⟨b, hb, -, rfl⟩ := runIn_transition_eq_ok hend
  exact ⟨u, b, runIn_onBehalf_eq_ok hwork, hb, rfl⟩

/-- A record that is evaluated now was linked before if it was not evaluated before, and what it is
made from has been evaluated. -/
theorem evaluate_eq_ok {serve : (c : Call) → Eff σ η c.Reply} {r : RecordId} {s t : State σ η}
    {n : Namespace} (h : (evaluate serve r).runIn s = (.ok n, t)) :
    ∃ record, s.records[r.index]? = some record ∧ (record.status = .linked →
      ∃ u b, (evaluateKind serve r record).runIn
          (setPhaseIn s r (record.phase.move .evaluating)) = (.ok n, u) ∧
        u.records[r.index]? = some b ∧ t = setPhaseIn u r ((b.phase.move .evaluated).keep n)) := by
  obtain ⟨record, m, hat, -⟩ := runIn_bind_eq_ok.1 h
  obtain ⟨hr, -⟩ := runIn_recordAt_eq_ok.1 hat
  refine ⟨record, hr, fun hstatus => ?_⟩
  rw [runIn_evaluate_of_status hr hstatus] at h
  obtain ⟨v, u, hwork, h⟩ := runIn_bind_eq_ok.1 h
  obtain ⟨_, u', hend, h⟩ := runIn_bind_eq_ok.1 h
  obtain ⟨b, hb, -, rfl⟩ := runIn_complete_eq_ok hend
  rw [runIn_pure, Prod.mk.injEq, Except.ok.injEq] at h
  obtain ⟨rfl, rfl⟩ := h
  exact ⟨u, b, runIn_onBehalf_eq_ok hwork, hb, rfl⟩

/-! ### What was done if it failed -/

/-- If the work for a record has failed then the record is marked, where it may be. -/
theorem runIn_onBehalf_eq_error {r : RecordId} {work : Eff σ η α} {s t : State σ η} {e : Error}
    (h : (onBehalf r work).runIn s = (.error (.error e), t)) :
    ∃ u, work.runIn s = (.error (.error e), u) ∧ ∃ record, u.records[r.index]? = some record ∧
      t = if record.status.canMove .errored then setPhaseIn u r (record.phase.fail e.message)
        else u := by
  rw [onBehalf, runIn_bind, runIn_settle] at h
  cases hrun : work.runIn s with
  | mk o u =>
      rw [hrun] at h
      match o with
      | .ok w => simp at h
      | .error (.panic m) => simp at h
      | .error .outOfDepth => simp at h
      | .error (.error e') =>
          rcases runIn_recordAt_cases r u with ⟨record, hr, -⟩ | ⟨m, hpanic⟩
          · dsimp only at h
            rw [runIn_bind, runIn_markFailed hr] at h
            simp only [runIn_fail, Prod.mk.injEq, Except.error.injEq, Fault.error.injEq] at h
            obtain ⟨rfl, rfl⟩ := h
            exact ⟨u, rfl, record, hr, rfl⟩
          · dsimp only at h
            rw [markFailed, bind_assoc, runIn_bind, hpanic] at h
            simp at h

/-- Requests that could not all be linked were linked up to one for which no record could be built,
or for which the record that was built could not be linked. -/
theorem linkRequests_eq_error {host : Host σ η} {serve : (c : Call) → Eff σ η c.Reply}
    {r : RecordId} {referrer : Referrer} {specifiers : List String} {s t : State σ η} {e : Error}
    (h : (linkRequests host serve r referrer specifiers).runIn s = (.error (.error e), t)) :
    ∃ done specifier rest m, specifiers = done ++ specifier :: rest ∧
      (linkRequests host serve r referrer done).runIn s = (.ok (), m) ∧
      ((link host serve specifier referrer).runIn m = (.error (.error e), t) ∨
        ∃ dep m', (link host serve specifier referrer).runIn m = (.ok dep, m') ∧
          (serve (.linkModule dep)).runIn m' = (.error (.error e), t)) := by
  induction specifiers generalizing s with
  | nil => simp [linkRequests] at h
  | cons specifier rest ih =>
      rcases runIn_bind_eq_error.1 h with hlink | ⟨dep, m, hlink, h⟩
      · exact ⟨[], specifier, rest, s, rfl, rfl, Or.inl hlink⟩
      rcases runIn_bind_eq_error.1 h with hdep | ⟨_, t₁, hdep, h⟩
      · exact ⟨[], specifier, rest, s, rfl, rfl, Or.inr ⟨dep, m, hlink, hdep⟩⟩
      rw [runIn_bind, runIn_addDependency] at h
      obtain ⟨done, specifier', rest', m', hsplit, hdone, hfailed⟩ := ih h
      refine ⟨specifier :: done, specifier', rest', m', by rw [hsplit]; rfl, ?_, hfailed⟩
      refine runIn_bind_eq_ok.2 ⟨dep, m, hlink, runIn_bind_eq_ok.2 ⟨(), t₁, hdep, ?_⟩⟩
      rw [runIn_bind, runIn_addDependency]
      exact hdone

/-- A record that could not be linked was under way when that was found out, or its requests have
been linked and it was not under way any more. -/
theorem linkModule_eq_error {host : Host σ η} {serve : (c : Call) → Eff σ η c.Reply} {r : RecordId}
    {s t : State σ η} {e : Error} {record : ModuleRecord σ η}
    (hr : s.records[r.index]? = some record) (hphase : record.phase = .unlinked)
    (h : (linkModule host serve r).runIn s = (.error (.error e), t)) :
    ∃ u, ((linkRequests host serve r record.referrer record.requests).runIn
      (setPhaseIn s r .linking) =
          (.error (.error e), u) ∧ ∃ b, u.records[r.index]? = some b ∧
          t = if b.status.canMove .errored then setPhaseIn u r (b.phase.fail e.message) else u) ∨
      ((linkRequests host serve r record.referrer record.requests).runIn (setPhaseIn s r .linking) =
          (.ok (), u) ∧ (transition r .linked).runIn u = (.error (.error e), t)) := by
  rw [runIn_linkModule_of_unlinked hr hphase] at h
  rcases runIn_bind_eq_error.1 h with hwork | ⟨_, u, hwork, hend⟩
  · obtain ⟨u, hrequests, hmarked⟩ := runIn_onBehalf_eq_error hwork
    exact ⟨u, Or.inl ⟨hrequests, hmarked⟩⟩
  · exact ⟨u, Or.inr ⟨runIn_onBehalf_eq_ok hwork, hend⟩⟩

/-- A record that could not be evaluated was under way when that was found out, or what it is made
from has been evaluated and it was not under way any more. -/
theorem evaluate_eq_error {serve : (c : Call) → Eff σ η c.Reply} {r : RecordId} {s t : State σ η}
    {e : Error} {record : ModuleRecord σ η} (hr : s.records[r.index]? = some record)
    (hphase : record.phase = .linked) (h : (evaluate serve r).runIn s = (.error (.error e), t)) :
    ∃ u, ((evaluateKind serve r record).runIn (setPhaseIn s r .evaluating) =
      (.error (.error e), u) ∧
          ∃ b, u.records[r.index]? = some b ∧
          t = if b.status.canMove .errored then setPhaseIn u r (b.phase.fail e.message) else u) ∨
      ∃ n, (evaluateKind serve r record).runIn (setPhaseIn s r .evaluating) = (.ok n, u) ∧
        (complete r n).runIn u = (.error (.error e), t) := by
  rw [runIn_evaluate_of_linked hr hphase] at h
  rcases runIn_bind_eq_error.1 h with hwork | ⟨n, u, hwork, hend⟩
  · obtain ⟨u, hkind, hmarked⟩ := runIn_onBehalf_eq_error hwork
    exact ⟨u, Or.inl ⟨hkind, hmarked⟩⟩
  · refine ⟨u, Or.inr ⟨n, runIn_onBehalf_eq_ok hwork, ?_⟩⟩
    rcases runIn_bind_eq_error.1 hend with hmoved | ⟨_, v, -, hreturned⟩
    · exact hmoved
    · simp at hreturned

/-- What a record is made from fails only if it is source: one of the dependencies failed, or all of
them are evaluated and what is left has failed. -/
theorem evaluateKind_eq_error {serve : (c : Call) → Eff σ η c.Reply} {r : RecordId}
    {record : ModuleRecord σ η} {s t : State σ η} {e : Error}
    (h : (evaluateKind serve r record).runIn s = (.error (.error e), t)) :
    ∃ m, record.kind = .source m ∧
      ((evaluateAll serve .empty record.dependencies).runIn s = (.error (.error e), t) ∨
        ∃ imports v, (evaluateAll serve .empty record.dependencies).runIn s = (.ok imports, v) ∧
          (runBody serve r record m imports).runIn v = (.error (.error e), t)) := by
  cases hkind : record.kind with
  | synthetic m =>
      rw [evaluateKind, hkind] at h
      dsimp only at h
      rw [evaluateSynthetic, runIn_bind, runIn_get] at h
      dsimp only at h
      rw [runIn_perform] at h
      simp at h
  | source m =>
      rw [evaluateKind, hkind] at h
      dsimp only at h
      rw [evaluateSource_eq] at h
      exact ⟨m, rfl, runIn_bind_eq_error.1 h⟩

/-- What is left has failed because there is no saying where the module is, and then nothing was
run, or because its body has. -/
theorem runBody_eq_error {serve : (c : Call) → Eff σ η c.Reply} {r : RecordId}
    {record : ModuleRecord σ η} {m : SourceModule σ η} {imports : OrderedMap Namespace}
    {s t : State σ η} {e : Error}
    (h : (runBody serve r record m imports).runIn s = (.error (.error e), t)) :
    (ImportMeta.ofPath m.location = .error e ∧ s = t) ∨
      ∃ importMeta, ImportMeta.ofPath m.location = .ok importMeta ∧
        ((m.compiled.body ⟨record.context, importMeta, imports, record.importer⟩).exec serve).runIn
          (s.emit (.evaluate r ⟨record.context, importMeta, imports, record.importer⟩)) =
            (.error (.error e), t) := by
  rcases runIn_bind_eq_error.1 h with hmeta | ⟨importMeta, u, hmeta, h⟩
  · exact Or.inl (runIn_ofExcept_eq_error.1 hmeta)
  · obtain ⟨hplace, rfl⟩ := runIn_ofExcept_eq_ok.1 hmeta
    rw [runIn_bind, runIn_emit] at h
    exact Or.inr ⟨importMeta, hplace, h⟩

end Linker

namespace Legacy

open Eff

/-- Without hooks a lookup leaves its event and goes on to load. -/
theorem runIn_require_of_layers_eq_nil {host : Host σ η} {serve : (c : Call) → Eff σ η c.Reply}
    {s : State σ η} (hlayers : s.hooks.layers = []) (hlookup : host.lookup? = none)
    (call : LookupCall) :
    (require host serve call).runIn s = (load host serve call).runIn (s.emit (.lookup call)) := by
  have hbase : base host serve call = Eff.emit (.lookup call) >>=
    fun _ => load host serve call := by
    rw [base, hlookup]
  change (intercept host serve call (base host serve call) s.hooks.outermostFirst).runIn s = _
  rw [HookStack.outermostFirst, hlayers, hbase]
  rfl

end Legacy

end ModuleLoader
