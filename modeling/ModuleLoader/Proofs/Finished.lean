import Mathlib.Data.List.Nodup
import ModuleLoader.Proofs.BegunRecords
import ModuleLoader.Proofs.Partition
/-!
What is finished stays as it is.

A record may be linked and evaluated by whoever has it, and whenever they like:
before the records that import it, after them, or while its own body is running.
That its body is run once all the same is a matter of accounting. As long as
evaluating it has not begun a record has one turn, and it loses that turn when
evaluating begins. Nothing gives a turn back, so the bodies that were run
and the turns that are left never come to more than they did before.

And a record that is under way is held by whoever took it up. Everybody else
finds it linking, or evaluating, and moves it nowhere. So whoever took it up
finds it where they left it, and it ends as their work ends. A record that has
ended is not moved by anybody.

None of this asks how a state has come about. It is so in every state, also in one
in which records have been left halfway by a panic.
-/

namespace ModuleLoader

open Eff

variable {σ η α : Type}

/-- The record is under way, or it has ended: it is not for others to move it. -/
def Status.isHeld : Status → Bool
  | unlinked => false
  | linked => false
  | _ => true

theorem Status.isHeld_of_isBusy {a : Status} (h : a.isBusy = true) : a.isHeld = true := by
  cases a <;> simp_all [isBusy, isHeld]

theorem Status.isHeld_of_isTerminal {a : Status} (h : a.isTerminal = true) : a.isHeld = true := by
  cases a <;> simp_all [isTerminal, isHeld]

theorem Status.isPast_of_isTerminal {a : Status} (h : a.isTerminal = true) : a.isPast = true := by
  cases a <;> simp_all [isTerminal, isPast]

theorem Status.canMove_errored_of_isBusy {a : Status} (h : a.isBusy = true) :
    a.canMove .errored = true := by
  cases a <;> simp_all [isBusy, canMove]

namespace State

/-! ### Turns -/

/-- How often the body of the record was run. -/
def runsOf (s : State σ η) (r : RecordId) : Nat := (s.trace.evaluations.map Prod.fst).count r

/-- How often it may be run from now on. A record that is not there yet has its turn to come. -/
def turnsLeft (s : State σ η) (r : RecordId) : Nat :=
  if (s.record? r).any (·.status.isPast) then 0 else 1

def turns (s : State σ η) (r : RecordId) : Nat := s.runsOf r + s.turnsLeft r

variable {s m t : State σ η} {r : RecordId} {a : ModuleRecord σ η}

theorem turnsLeft_of_record? (ha : s.record? r = some a) :
    s.turnsLeft r = if a.status.isPast then 0 else 1 := by
  rw [turnsLeft, ha]
  rfl

theorem turnsLeft_le_one (s : State σ η) (r : RecordId) : s.turnsLeft r ≤ 1 := by
  unfold turnsLeft
  split
  · exact Nat.zero_le 1
  · exact Nat.le_refl 1

theorem turns_congr (hrecords : t.records = s.records)
    (hruns : t.trace.evaluations = s.trace.evaluations) : t.turns = s.turns := by
  funext r
  simp only [turns, runsOf, turnsLeft, record?_congr hrecords, hruns]

theorem turns_add (s : State σ η) (identifier : String) (referrer : Referrer)
    (kind : ModuleKind σ η) : (s.add (.fresh identifier referrer kind)).turns = s.turns := by
  funext r
  refine congrArg (s.runsOf r + ·) ?_
  rw [turnsLeft, turnsLeft, record?_add]
  by_cases hr : r = s.next
  · have hnone : s.record? s.next = none := Array.getElem?_eq_none (Nat.le_refl _)
    rw [if_pos hr, hr, hnone]
    rfl
  · rw [if_neg hr]

theorem turns_addDependencyIn (s : State σ η) (x : RecordId) (specifier : String)
    (dep : RecordId) : (Linker.addDependencyIn s x specifier dep).turns = s.turns := by
  funext r
  refine congrArg (s.runsOf r + ·) ?_
  rw [turnsLeft, turnsLeft, Linker.addDependencyIn, record?_modifyRecord]
  by_cases hr : r = x
  · rw [if_pos hr, Option.any_map]
    rfl
  · rw [if_neg hr]

theorem turns_setPhaseIn_le (ha : s.record? r = some a) {phase : Phase}
    (hmove : a.status.canMove phase.status = true) (x : RecordId) :
    (Linker.setPhaseIn s r phase).turns x ≤ s.turns x := by
  refine Nat.add_le_add_left ?_ (s.runsOf x)
  by_cases hx : x = r
  · subst hx
    cases hpast : a.status.isPast with
    | false =>
        rw [turnsLeft_of_record? ha, hpast]
        exact turnsLeft_le_one _ x
    | true =>
        have hpast' : phase.status.isPast = true := Status.Reaches.isPast (.single hmove) hpast
        rw [turnsLeft_of_record? (record?_setPhaseIn ha phase), ModuleRecord.status, if_pos hpast']
        exact Nat.zero_le _
  · exact Nat.le_of_eq (by rw [turnsLeft, turnsLeft, record?_setPhaseIn_of_ne s hx])

theorem turns_take_evaluating (ha : s.record? r = some a) (hlinked : a.status = .linked)
    (x : RecordId) :
    (Linker.setPhaseIn s r (a.phase.move .evaluating)).turns x + (if x = r then 1 else 0) ≤
      s.turns x := by
  by_cases hx : x = r
  · subst hx
    rw [if_pos rfl, turns, turns, turnsLeft_of_record? ha,
      turnsLeft_of_record? (record?_setPhaseIn ha _), hlinked]
    exact Nat.le_refl _
  · rw [if_neg hx, Nat.add_zero]
    exact turns_setPhaseIn_le ha (by rw [hlinked]; rfl) x

/-- The turn that a record spends is spent on its body. -/
theorem turns_emit_evaluate (s : State σ η) (r : RecordId) (env : ModuleEnvironment)
    (x : RecordId) :
    (s.emit (.evaluate r env)).turns x = s.turns x + if x = r then 1 else 0 := by
  have hpush : (s.emit (.evaluate r env)).trace.evaluations = s.trace.evaluations ++ [(r, env)] :=
    Trace.evaluations_push _ _
  have hruns : (s.emit (.evaluate r env)).runsOf x = s.runsOf x + if x = r then 1 else 0 := by
    rw [runsOf, runsOf, hpush, List.map_append, List.count_append, List.map_singleton,
      List.count_singleton]
    simp only [beq_iff_eq, @eq_comm _ r x]
  rw [turns, hruns, turns, Nat.add_right_comm]
  rfl

/-! ### What is kept, step by step -/

/-- What may have come of the first state by the second, for a bound on the turns: more bodies have
been run, within the bound, and a record that was held is where it was, with dependencies at most
that are new. -/
structure Holds (bound : RecordId → Nat) (s t : State σ η) : Prop where
  runs : s.trace.evaluations <+: t.trace.evaluations
  turns : ∀ r, t.turns r ≤ bound r
  held : ∀ r a, s.record? r = some a → a.status.isHeld = true →
    ∃ deps, t.record? r = some { a with dependencies := deps }

variable {bound bound' : RecordId → Nat}

theorem Holds.refl (h : ∀ r, s.turns r ≤ bound r) : Holds bound s s :=
  ⟨List.prefix_rfl, h, fun _ a ha _ => ⟨a.dependencies, ha⟩⟩

theorem Holds.mono (h : Holds bound s t) (hle : ∀ r, bound r ≤ bound' r) : Holds bound' s t :=
  ⟨h.runs, fun r => Nat.le_trans (h.turns r) (hle r), h.held⟩

theorem Holds.trans (h : Holds bound s m) (h' : Holds bound' m t) : Holds bound' s t where
  runs := h.runs.trans h'.runs
  turns := h'.turns
  held r a ha hheld := by
    obtain ⟨deps, hm⟩ := h.held r a ha hheld
    obtain ⟨deps', ht⟩ := h'.held r _ hm hheld
    exact ⟨deps', ht⟩

/-- What goes on from a state is bounded by what is left there. -/
theorem Holds.andThen (h : Holds bound s m) (h' : Holds m.turns m t) : Holds bound s t :=
  h.trans (h'.mono h.turns)

theorem Holds.congr (h : Holds bound s m) (hrecords : t.records = m.records)
    (hruns : t.trace.evaluations = m.trace.evaluations) : Holds bound s t where
  runs := by rw [hruns]; exact h.runs
  turns := by rw [turns_congr hrecords hruns]; exact h.turns
  held := by rw [record?_congr hrecords]; exact h.held

theorem Holds.add (h : Holds bound s m) (identifier : String) (referrer : Referrer)
    (kind : ModuleKind σ η) : Holds bound s (m.add (.fresh identifier referrer kind)) where
  runs := h.runs
  turns := by rw [turns_add]; exact h.turns
  held r a ha hheld := by
    obtain ⟨deps, hm⟩ := h.held r a ha hheld
    have hne : r ≠ m.next := fun he => Nat.ne_of_lt (lt_of_record? hm) (by rw [he]; rfl)
    exact ⟨deps, by rwa [record?_add, if_neg hne]⟩

theorem Holds.addDependency (h : Holds bound s m) (x : RecordId) (specifier : String)
    (dep : RecordId) : Holds bound s (Linker.addDependencyIn m x specifier dep) where
  runs := h.runs
  turns := by rw [turns_addDependencyIn]; exact h.turns
  held r a ha hheld := by
    obtain ⟨deps, hm⟩ := h.held r a ha hheld
    by_cases hr : r = x
    · subst hr
      exact ⟨_, record?_addDependencyIn hm specifier dep⟩
    · exact ⟨deps, by rwa [record?_addDependencyIn_of_ne m hr]⟩

theorem Holds.setPhase (h : Holds bound s m) (ha : m.record? r = some a) {phase : Phase}
    (hmove : a.status.canMove phase.status = true)
    (hfree : ∀ b, s.record? r = some b → b.status.isHeld = false) :
    Holds bound s (Linker.setPhaseIn m r phase) where
  runs := h.runs
  turns x := Nat.le_trans (turns_setPhaseIn_le ha hmove x) (h.turns x)
  held x b hb hheld := by
    obtain ⟨deps, hm⟩ := h.held x b hb hheld
    have hne : x ≠ r := by
      rintro rfl
      rw [hfree b hb] at hheld
      exact absurd hheld (by decide)
    exact ⟨deps, by rwa [record?_setPhaseIn_of_ne m hne]⟩

theorem Holds.emit_evaluate (h : Holds bound s m) {env : ModuleEnvironment}
    (hturn : ∀ x, bound x + (if x = r then 1 else 0) ≤ bound' x) :
    Holds bound' s (m.emit (.evaluate r env)) where
  runs := by
    have hpush : (m.emit (.evaluate r env)).trace.evaluations = m.trace.evaluations ++ [(r, env)] :=
      Trace.evaluations_push _ _
    rw [hpush]
    exact h.runs.trans (List.prefix_append _ _)
  turns x := by
    rw [turns_emit_evaluate]
    exact Nat.le_trans (Nat.add_le_add_right (h.turns x) _) (hturn x)
  held := h.held

/-- Between two states without a gain in turns no body is run twice, and none that had no turn left.
-/
theorem Holds.exists_runs (h : Holds s.turns s t) :
    ∃ runs, t.trace.evaluations = s.trace.evaluations ++ runs ∧
      ∀ r, (runs.map Prod.fst).count r ≤ s.turnsLeft r := by
  obtain ⟨runs, hruns⟩ := h.runs
  refine ⟨runs, hruns.symm, fun r => ?_⟩
  have hturns : t.runsOf r + t.turnsLeft r ≤ s.runsOf r + s.turnsLeft r := h.turns r
  have hruns' : t.runsOf r = s.runsOf r + (runs.map Prod.fst).count r := by
    rw [runsOf, runsOf, ← hruns, List.map_append, List.count_append]
  omega

end State

/-! ### Servers -/

/-- A server whose calls give no turns and move nothing that is held. -/
def KeepsHeld (serve : (c : Call) → Eff σ η c.Reply) : Prop :=
  ∀ c s, State.Holds s.turns s ((serve c).runIn s).2

section

variable {host : Host σ η} {serve : (c : Call) → Eff σ η c.Reply} (h : KeepsHeld serve)
  {bound : RecordId → Nat} {s : State σ η} {r : RecordId} {a : ModuleRecord σ η}

include h

theorem stays_call (bound : RecordId → Nat) (s : State σ η) (c : Call) :
    Eff.Stays (State.Holds bound s) (fun _ => True) (serve c) :=
  .of_runIn fun t hst => ⟨hst.andThen (h c t), ends_true _⟩

theorem keeps_program (bound : RecordId → Nat) (s : State σ η) (p : Program σ η α)
    (E : Error → Prop) :
    Keeps (State.Holds bound s) E (fun _ => True) (p.run serve) (p.run serve) :=
  p.keeps_run (fun a _ hst => hst.congr (a.records_carryOut _) (a.evaluations_carryOut _))
    (stays_call h bound s) E

theorem loadInvariant_holds (host : Host σ η) (bound : RecordId → Nat) (s : State σ η) :
    LoadInvariant (State.Holds bound s) (fun _ => True) (fun _ => True) (fun _ => True) host serve
      serve where
  core _ _ heq hst := hst.congr (congrArg (·.1) heq) (congrArg (·.2.2.1) heq)
  error _ _ := trivial
  add _ identifier referrer kind hst _ := ⟨hst.add identifier referrer kind, trivial⟩
  foreign := host.every_of_forall
    (fun _ _ p hP E' => (keeps_program h bound s p E').imp (fun _ h => h) fun a _ => hP a)
    (fun _ => trivial) fun _ => trivial

namespace Linker

theorem stays_linkRequests (host : Host σ η) (bound : RecordId → Nat) (s : State σ η) (r : RecordId)
    (referrer : Referrer) (specifiers : List String) :
    Eff.Stays (State.Holds bound s) (fun _ => True)
      (linkRequests host serve r referrer specifiers) := by
  induction specifiers with
  | nil => exact .pure trivial
  | cons specifier rest ih =>
      have hcode := loadInvariant_holds h host bound s
      refine .bind (hcode.link (fun _ => trivial) specifier referrer) fun dep _ => ?_
      refine .bind (stays_call h bound s (.linkModule dep)) fun _ _ => ?_
      exact .bind (.modify fun t hst => hst.addDependency r specifier dep) fun _ _ => ih

theorem stays_evaluateAll (bound : RecordId → Nat) (s : State σ η) (imports : OrderedMap Namespace)
    (deps : List (String × RecordId)) :
    Eff.Stays (State.Holds bound s) (fun _ => True) (evaluateAll serve imports deps) := by
  induction deps generalizing imports with
  | nil => exact .pure trivial
  | cons dep rest ih => exact .bind (stays_call h bound s (.evaluate dep.2)) fun _ _ => ih _

/-- The turn of the record that is evaluated is spent on its body, which is run once at most. -/
theorem holds_evaluateKind {s₁ : State σ η}
    (hturn : ∀ x, s₁.turns x + (if x = r then 1 else 0) ≤ bound x) (a : ModuleRecord σ η) :
    State.Holds bound s₁ ((evaluateKind serve r a).runIn s₁).2 := by
  have hless : ∀ x, s₁.turns x ≤ bound x := fun x => Nat.le_trans (Nat.le_add_right _ _) (hturn x)
  unfold evaluateKind
  cases a.kind with
  | synthetic m => exact (State.Holds.refl hless).congr rfl rfl
  | source m =>
      have hall : Leads (State.Holds s₁.turns s₁) (fun _ => True) s₁ _ _ :=
        .of_keeps (stays_evaluateAll h s₁.turns s₁ .empty a.dependencies)
          (.refl fun _ => Nat.le_refl _)
      have hsource : Leads (State.Holds bound s₁) (fun _ => True) s₁ (evaluateSource serve r a m)
          fun _ _ => True := by
        refine (hall.weaken fun _ hst => hst.mono hless).bind fun imports u _ _ hu => ?_
        cases hmeta : ImportMeta.ofPath m.location with
        | error e =>
            refine .bind (P := fun _ _ => False) ?_ fun _ _ _ _ h => h.elim
            exact .fail (hu.1.mono hless) trivial
        | ok importMeta =>
            let env : ModuleEnvironment := ⟨a.context, importMeta, imports, a.importer⟩
            refine .bind_of_eq_ok (a := importMeta) rfl (.bind_of_eq_ok (runIn_emit _ u) ?_)
            have hbody := keeps_program h bound s₁ (m.compiled.body env).run fun _ => True
            exact .of_keeps (Script.keeps_exec (hbody.imp (fun _ h => h) fun o _ =>
              answers_of_forall (fun _ => trivial) (fun _ => trivial) o)) (hu.1.emit_evaluate hturn)
      exact hsource.1

omit h in
/-- Whoever has taken a record up finds it where they left it, and takes it on from there. -/
theorem holds_during {status : Status} (next : α → Phase) {finish : α → Eff σ η Unit}
    (ha : s.record? r = some a) (hfree : a.status.isHeld = false)
    (hmove : a.status.canMove status = true) (hbusy : status.isBusy = true)
    (hnext : ∀ v, status.canMove (next v).status = true)
    (hfinish : ∀ v t b, t.records[r.index]? = some b → b.phase = a.phase.move status →
      (finish v).runIn t = (.ok (), setPhaseIn t r (next v)))
    {work : Eff σ η α}
    (hwork : State.Holds s.turns (setPhaseIn s r (a.phase.move status))
      (work.runIn (setPhaseIn s r (a.phase.move status))).2) :
    Leads (State.Holds s.turns s) (fun _ => True) s
      (do transition r status; let v ← onBehalf r work; finish v; return v)
      fun _ _ => True := by
  have hnobody : ∀ b, s.record? r = some b → b.status.isHeld = false := fun b hb => by
    obtain rfl : a = b := by simpa [ha] using hb
    exact hfree
  have htaken : State.Holds s.turns s (setPhaseIn s r (a.phase.move status)) :=
    (State.Holds.refl fun _ => Nat.le_refl _).setPhase ha hmove hnobody
  have hkept : ∀ t, State.Holds s.turns (setPhaseIn s r (a.phase.move status)) t →
      (∃ b, t.record? r = some b ∧ b.phase = a.phase.move status) ∧ State.Holds s.turns s t :=
    fun t hst => by
      obtain ⟨deps, hb⟩ := hst.held r _ (State.record?_setPhaseIn ha _)
        (Status.isHeld_of_isBusy hbusy)
      exact ⟨⟨_, hb, rfl⟩, htaken.trans hst⟩
  refine leads_during next (P := fun _ _ => True) (runIn_transition_of_phase ha rfl hmove)
    (Status.canMove_errored_of_isBusy hbusy) hfinish ⟨hwork, ends_true _⟩
    (fun t hst => (hkept t hst).2) (fun t hst => (hkept t hst).1) ?_ ?_
  · intro t e hst
    obtain ⟨⟨b, hb, hphase⟩, hst⟩ := hkept t hst
    refine hst.setPhase hb ?_ hnobody
    rw [ModuleRecord.status, hphase]
    exact Status.canMove_errored_of_isBusy hbusy
  · intro v t hst _
    obtain ⟨⟨b, hb, hphase⟩, hst⟩ := hkept t hst
    refine ⟨hst.setPhase hb ?_ hnobody, trivial⟩
    rw [ModuleRecord.status, hphase]
    exact hnext v

theorem holds_linkModule (s : State σ η) (r : RecordId) :
    State.Holds s.turns s ((linkModule host serve r).runIn s).2 := by
  have hself : State.Holds s.turns s s := .refl fun _ => Nat.le_refl _
  refine ((leads_recordAt (E := fun _ => True) hself r).bind (Q := fun _ _ => True) ?_).1
  rintro a _ - - ⟨rfl, ha⟩
  have ha : s.record? r = some a := ha
  cases hstatus : a.status with
  | unlinked =>
      have hmove : a.status.canMove .linking = true := by rw [hstatus]; rfl
      have hless : ∀ x, (setPhaseIn s r (a.phase.move .linking)).turns x ≤ s.turns x :=
        State.turns_setPhaseIn_le ha hmove
      have hwork := stays_linkRequests h host s.turns (setPhaseIn s r (a.phase.move .linking)) r
        a.referrer a.requests _ (.refl hless)
      have hduring := holds_during (fun _ => (a.phase.move .linking).move .linked) ha
        (by rw [hstatus]; rfl) hmove rfl (fun _ => rfl)
        (fun _ _ _ hb hphase => runIn_transition_of_phase hb hphase rfl) hwork.1
      simpa only [bind_pure_unit] using hduring
  | linking => exact .fail hself trivial
  | errored => exact .fail hself trivial
  | linked => exact .pure hself trivial
  | evaluating => exact .pure hself trivial
  | evaluated => exact .pure hself trivial

theorem holds_evaluate (s : State σ η) (r : RecordId) :
    State.Holds s.turns s ((evaluate serve r).runIn s).2 := by
  have hself : State.Holds s.turns s s := .refl fun _ => Nat.le_refl _
  rcases runIn_recordAt_cases r s with ⟨a, ha, hrun⟩ | ⟨m, hrun⟩
  · cases hstatus : a.status with
    | linked =>
        refine ((leads_recordAt (E := fun _ => True) hself r).bind (Q := fun _ _ => True) ?_).1
        rintro a' _ - - ⟨rfl, ha'⟩
        obtain rfl := Option.some.inj (ha.symm.trans ha')
        rw [hstatus]
        exact holds_during (fun n => ((a.phase.move .evaluating).move .evaluated).keep n) ha
          (by rw [hstatus]; rfl) (by rw [hstatus]; rfl) rfl (fun _ => rfl)
          (fun n _ _ hb hphase => runIn_complete_of_phase n hb hphase rfl)
          (holds_evaluateKind h (State.turns_take_evaluating ha hstatus) a)
    | evaluated =>
        cases hn : a.phase.namespace? with
        | some n => rwa [runIn_evaluate_of_namespace? ha hstatus hn]
        | none => rwa [runIn_evaluate_of_namespace?_eq_none ha hstatus hn]
    | errored => rwa [runIn_evaluate_of_errored ha hstatus]
    | unlinked => rwa [runIn_evaluate_of_unready ha (.inl hstatus)]
    | linking => rwa [runIn_evaluate_of_unready ha (.inr (.inl hstatus))]
    | evaluating => rwa [runIn_evaluate_of_unready ha (.inr (.inr hstatus))]
  · rwa [evaluate, runIn_bind, hrun]

end Linker

theorem KeepsHeld.answer (host : Host σ η) : KeepsHeld (ModuleLoader.answer host serve) := by
  intro c s
  have hcode := loadInvariant_holds h host s.turns s
  have hself : State.Holds s.turns s s := .refl fun _ => Nat.le_refl _
  cases c with
  | require lookup => exact (hcode.require lookup s hself).1
  | link specifier referrer => exact (hcode.link (fun _ => trivial) specifier referrer s hself).1
  | buildSource specifier referrer => exact (hcode.buildSource specifier referrer s hself).1
  | buildSynthetic specifier referrer => exact (hcode.buildSynthetic specifier referrer s hself).1
  | linkModule r => exact Linker.holds_linkModule h s r
  | evaluate r => exact Linker.holds_evaluate h s r

omit h in
theorem keepsHeld_serve (host : Host σ η) (depth : Nat) :
    KeepsHeld (ModuleLoader.serve host depth) := by
  induction depth with
  | zero => exact fun _ _ => .refl fun _ => Nat.le_refl _
  | succ depth ih => exact ih.answer host

omit h in
theorem Host.holds_exec (host : Host σ η) (depth : Nat) (p : Program σ η α) (s : State σ η) :
    State.Holds s.turns s (host.exec depth p s).2 :=
  (keeps_program (keepsHeld_serve host depth) s.turns s p (fun _ => True) s
    (.refl fun _ => Nat.le_refl _)).1

end

/-! ### Answers that cost nothing -/

/-- The call comes to its end at once, whatever depth it is given, and leaves everything as it is:
no file is read for it, and no code of others is run. -/
def Host.Idles (host : Host σ η) (c : Call) (o : Except Error c.Reply) (s : State σ η) : Prop :=
  ∀ depth, (serve host (depth + 1) c).runIn s = (o.mapError .error, s)

/-- From the state on, whatever is run, linking the record and evaluating it come to these ends at
once, and its body is not run. -/
structure Host.Retires (host : Host σ η) (s : State σ η) (r : RecordId) (linked : Except Error Unit)
    (evaluated : Except Error Namespace) : Prop where
  idles : ∀ (β : Type) depth (p : Program σ η β),
    host.Idles (.linkModule r) linked (host.exec depth p s).2 ∧
      host.Idles (.evaluate r) evaluated (host.exec depth p s).2
  runs : ∀ (β : Type) depth (p : Program σ η β), ∃ runs,
    (host.exec depth p s).2.trace.evaluations = s.trace.evaluations ++ runs ∧
      ∀ run ∈ runs, run.1 ≠ r

section

variable {host : Host σ η} {serve : (c : Call) → Eff σ η c.Reply} {s t : State σ η} {r : RecordId}
  {a : ModuleRecord σ η}

theorem idles_evaluate_of_namespace? (ha : s.record? r = some a) (hstatus : a.status = .evaluated)
    {n : Namespace} (hn : a.phase.namespace? = some n) : host.Idles (.evaluate r) (.ok n) s :=
  fun _ => Linker.runIn_evaluate_of_namespace? ha hstatus hn

theorem idles_evaluate_of_errored (ha : s.record? r = some a) (hstatus : a.status = .errored) :
    host.Idles (.evaluate r) (.error a.failed) s :=
  fun _ => Linker.runIn_evaluate_of_errored ha hstatus

/-- A record that is not linked, or is being evaluated, cannot be evaluated. -/
theorem idles_evaluate_of_unready (ha : s.record? r = some a)
    (h : a.status = .unlinked ∨ a.status = .linking ∨ a.status = .evaluating) :
    host.Idles (.evaluate r) (.error (.notLinked a.identifier)) s :=
  fun _ => Linker.runIn_evaluate_of_unready ha h

/-- There is nothing left to link for a record that has been linked. -/
theorem idles_linkModule_of_isWhole (ha : s.record? r = some a) (h : a.status.isWhole = true) :
    host.Idles (.linkModule r) (.ok ()) s := by
  intro depth
  change (Linker.linkModule host _ r).runIn s = _
  rw [Linker.linkModule, runIn_bind, Linker.runIn_recordAt ha]
  cases hstatus : a.status <;> simp only [hstatus] <;>
    first | rfl | simp [hstatus, Status.isWhole] at h

theorem idles_linkModule_of_errored (ha : s.record? r = some a) (hstatus : a.status = .errored) :
    host.Idles (.linkModule r) (.error a.failed) s := by
  intro depth
  change (Linker.linkModule host _ r).runIn s = _
  rw [Linker.linkModule, runIn_bind, Linker.runIn_recordAt ha]
  simp only [hstatus]
  rfl

/-- A record that has ended is the same record after whatever is run, and its body is not run. -/
theorem ended_stays (host : Host σ η) (ha : s.record? r = some a)
    (hend : a.status.isTerminal = true)
    (depth : Nat) (p : Program σ η α) :
    (∃ deps, (host.exec depth p s).2.record? r = some { a with dependencies := deps }) ∧
      ∃ runs, (host.exec depth p s).2.trace.evaluations = s.trace.evaluations ++ runs ∧
        ∀ run ∈ runs, run.1 ≠ r := by
  have hholds := host.holds_exec depth p s
  refine ⟨hholds.held r a ha (Status.isHeld_of_isTerminal hend), ?_⟩
  obtain ⟨runs, hruns, hcount⟩ := hholds.exists_runs
  refine ⟨runs, hruns, fun run hrun heq => ?_⟩
  have hnone : (runs.map Prod.fst).count r = 0 := by
    have hleft : s.turnsLeft r = 0 := by
      rw [State.turnsLeft_of_record? ha, if_pos (Status.isPast_of_isTerminal hend)]
    exact Nat.le_zero.1 (hleft ▸ hcount r)
  exact List.count_eq_zero.1 hnone (heq ▸ List.mem_map_of_mem hrun)

theorem retires_of_evaluated (ha : s.record? r = some a) (hstatus : a.status = .evaluated)
    {n : Namespace} (hn : a.phase.namespace? = some n) : host.Retires s r (.ok ()) (.ok n) := by
  have hend : a.status.isTerminal = true := by rw [hstatus]; rfl
  refine ⟨fun _ depth p => ?_, fun _ depth p => (ended_stays host ha hend depth p).2⟩
  obtain ⟨⟨deps, ht⟩, -⟩ := ended_stays host ha hend depth p
  have hwhole : ({ a with dependencies := deps } : ModuleRecord σ η).status.isWhole = true := by
    change a.status.isWhole = true
    rw [hstatus]
    rfl
  exact ⟨idles_linkModule_of_isWhole ht hwhole, idles_evaluate_of_namespace? ht hstatus hn⟩

theorem retires_of_errored (ha : s.record? r = some a) (hstatus : a.status = .errored)
    {reason : String} (hreason : a.phase.failure? = some reason) :
    host.Retires s r (.error (.moduleErrored a.identifier reason))
      (.error (.moduleErrored a.identifier reason)) := by
  have hfailed : a.failed = .moduleErrored a.identifier reason := by
    rw [ModuleRecord.failed, hreason]
    rfl
  have hend : a.status.isTerminal = true := by rw [hstatus]; rfl
  rw [← hfailed]
  refine ⟨fun _ depth p => ?_, fun _ depth p => (ended_stays host ha hend depth p).2⟩
  obtain ⟨⟨deps, ht⟩, -⟩ := ended_stays host ha hend depth p
  have hstill : ({ a with dependencies := deps } : ModuleRecord σ η).failed = a.failed := rfl
  rw [← hstill]
  exact ⟨idles_linkModule_of_errored ht hstatus, idles_evaluate_of_errored ht hstatus⟩

/-! ### How a record ends -/

namespace Linker

/-- If what is done for a record fails, or the record cannot be taken on from there, then it has
failed and keeps what it failed with. As it is where it was left, the second does not happen. -/
theorem errored_of_during {work : Eff σ η α} {phase : Phase} {finish : α → Eff σ η Unit}
    (next : α → Phase) (hbusy : phase.status.isBusy = true)
    (hfinish : ∀ v t b, t.records[r.index]? = some b → b.phase = phase →
      (finish v).runIn t = (.ok (), setPhaseIn t r (next v)))
    (hkept : ∃ deps, (work.runIn s).2.record? r = some { a with phase, dependencies := deps })
    {e : Error} (hrun : (onBehalf r work >>= fun v => finish v >>= fun _ => pure v).runIn s =
      (.error (.error e), t)) :
    ∃ deps, t.record? r =
      some { a with phase := phase.fail e.message, dependencies := deps } := by
  obtain ⟨deps, hkept⟩ := hkept
  have hfail : ({ a with phase, dependencies := deps } : ModuleRecord σ η).status.canMove .errored =
      true := Status.canMove_errored_of_isBusy hbusy
  rcases runIn_bind_eq_error.1 hrun with hfailed | ⟨v, u, hdone, hmoved⟩
  · obtain ⟨u, hwork, b, hb, rfl⟩ := runIn_onBehalf_eq_error hfailed
    rw [hwork] at hkept
    obtain rfl := Option.some.inj (hb.symm.trans hkept)
    rw [if_pos hfail]
    exact ⟨deps, State.record?_setPhaseIn hkept _⟩
  · rw [runIn_onBehalf_eq_ok hdone] at hkept
    rw [runIn_bind, hfinish v u _ hkept rfl] at hmoved
    simp at hmoved

/-- A record that could not be linked has failed. -/
theorem errored_of_linkModule (h : KeepsHeld serve) (ha : s.record? r = some a)
    (hstatus : a.status = .unlinked) {e : Error}
    (hrun : (linkModule host serve r).runIn s = (.error (.error e), t)) :
    ∃ deps, t.record? r =
      some { a with phase := (a.phase.move .linking).fail e.message, dependencies := deps } := by
  rw [runIn_linkModule_of_status ha hstatus] at hrun
  have hwork := stays_linkRequests h host (setPhaseIn s r (a.phase.move .linking)).turns _ r
    a.referrer a.requests _ (.refl fun _ => Nat.le_refl _)
  refine errored_of_during (fun _ => (a.phase.move .linking).move .linked) rfl
    (fun _ _ _ hb hphase => runIn_transition_of_phase hb hphase rfl)
    (hwork.1.held r _ (State.record?_setPhaseIn ha _) rfl) ?_
  simpa only [bind_pure_unit] using hrun

/-- A record that could not be evaluated has failed. -/
theorem errored_of_evaluate (h : KeepsHeld serve) (ha : s.record? r = some a)
    (hstatus : a.status = .linked) {e : Error}
    (hrun : (evaluate serve r).runIn s = (.error (.error e), t)) :
    ∃ deps, t.record? r =
      some { a with phase := (a.phase.move .evaluating).fail e.message, dependencies := deps } := by
  rw [runIn_evaluate_of_status ha hstatus] at hrun
  have hholds := holds_evaluateKind h (State.turns_take_evaluating ha hstatus) a
  exact errored_of_during (fun n => ((a.phase.move .evaluating).move .evaluated).keep n) rfl
    (fun n _ _ hb hphase => runIn_complete_of_phase n hb hphase rfl)
    (hholds.held r _ (State.record?_setPhaseIn ha _) rfl) hrun

/-- A record for which evaluating has a namespace to show has ended, and keeps that. -/
theorem evaluated_of_evaluate {n : Namespace} (hrun : (evaluate serve r).runIn s = (.ok n, t)) :
    ∃ b, t.record? r = some b ∧ b.status = .evaluated ∧ b.phase.namespace? = some n := by
  obtain ⟨a, ha, hlinked⟩ := evaluate_eq_ok hrun
  cases hstatus : a.status with
  | linked =>
      obtain ⟨u, b, -, hb, rfl⟩ := hlinked hstatus
      exact ⟨_, State.record?_setPhaseIn hb _, rfl, rfl⟩
  | evaluated =>
      cases hn : a.phase.namespace? with
      | some n' =>
          rw [runIn_evaluate_of_namespace? ha hstatus hn] at hrun
          obtain ⟨⟨⟩, rfl⟩ := Prod.mk.inj hrun
          exact ⟨a, ha, hstatus, hn⟩
      | none => simp [runIn_evaluate_of_namespace?_eq_none ha hstatus hn] at hrun
  | errored => simp [runIn_evaluate_of_errored ha hstatus] at hrun
  | unlinked => simp [runIn_evaluate_of_unready ha (.inl hstatus)] at hrun
  | linking => simp [runIn_evaluate_of_unready ha (.inr (.inl hstatus))] at hrun
  | evaluating => simp [runIn_evaluate_of_unready ha (.inr (.inr hstatus))] at hrun

end Linker

end

/-- No body is run twice, whatever is run in whatever order. A record that is evaluated or has
failed answers at once with what it came to first, and one that is under way is not taken up again.
Nothing at all is changed by asking. -/
theorem finished_records_are_inert (host : Host σ η) (s : State σ η) :
    (∀ (β : Type) depth (p : Program σ η β), ∃ runs,
      (host.exec depth p s).2.trace.evaluations = s.trace.evaluations ++ runs ∧
        (runs.map Prod.fst).Nodup) ∧
    (∀ (β : Type) store depth (p : Program σ η β),
      ((host.exec depth p (State.initial store)).2.trace.evaluations.map Prod.fst).Nodup) ∧
    ∀ (r : RecordId) a, s.records[r.index]? = some a →
      (∀ n, a.status = .evaluated → a.phase.namespace? = some n →
        host.Retires s r (.ok ()) (.ok n)) ∧
      (∀ reason, a.status = .errored → a.phase.failure? = some reason →
        host.Retires s r (.error (.moduleErrored a.identifier reason))
          (.error (.moduleErrored a.identifier reason))) ∧
      (∀ depth n t, (serve host depth (.evaluate r)).runIn s = (.ok n, t) →
        host.Retires t r (.ok ()) (.ok n)) ∧
      (∀ depth e t, a.status = .unlinked ∧
            (serve host depth (.linkModule r)).runIn s = (.error (.error e), t) ∨
          a.status = .linked ∧ (serve host depth (.evaluate r)).runIn s = (.error (.error e), t) →
        host.Retires t r (.error (.moduleErrored a.identifier e.message))
          (.error (.moduleErrored a.identifier e.message))) ∧
      (a.status = .unlinked ∨ a.status = .linking ∨ a.status = .evaluating →
        host.Idles (.evaluate r) (.error (.notLinked a.identifier)) s) ∧
      (a.status = .linked ∨ a.status = .evaluating ∨ a.status = .evaluated →
        host.Idles (.linkModule r) (.ok ()) s) := by
  have honce : ∀ (s : State σ η) (β : Type) depth (p : Program σ η β), ∃ runs,
      (host.exec depth p s).2.trace.evaluations = s.trace.evaluations ++ runs ∧
        (runs.map Prod.fst).Nodup := by
    intro s β depth p
    obtain ⟨runs, hruns, hcount⟩ := (host.holds_exec depth p s).exists_runs
    exact ⟨runs, hruns, List.nodup_iff_count_le_one.2 fun r =>
      Nat.le_trans (hcount r) (s.turnsLeft_le_one r)⟩
  refine ⟨honce s, fun β store depth p => ?_, fun r a ha => ?_⟩
  · obtain ⟨runs, hruns, hnodup⟩ := honce (.initial store) β depth p
    rw [hruns]
    exact hnodup
  have ha : s.record? r = some a := ha
  refine ⟨fun n hstatus hn => retires_of_evaluated ha hstatus hn,
    fun reason hstatus hreason => retires_of_errored ha hstatus hreason, fun depth n t hrun => ?_,
    fun depth e t hfails => ?_, idles_evaluate_of_unready ha, fun hstatus => ?_⟩
  · cases depth with
    | zero => simp [serve] at hrun
    | succ depth =>
        obtain ⟨b, hb, hstatus, hn⟩ := Linker.evaluated_of_evaluate hrun
        exact retires_of_evaluated hb hstatus hn
  · cases depth with
    | zero => simp [serve] at hfails
    | succ depth =>
        have hserve := keepsHeld_serve host depth
        rcases hfails with ⟨hstatus, hrun⟩ | ⟨hstatus, hrun⟩
        · obtain ⟨deps, hb⟩ := Linker.errored_of_linkModule hserve ha hstatus hrun
          exact retires_of_errored hb rfl rfl
        · obtain ⟨deps, hb⟩ := Linker.errored_of_evaluate hserve ha hstatus hrun
          exact retires_of_errored hb rfl rfl
  · have hwhole : a.status.isWhole = true := by
      rcases hstatus with h | h | h <;> rw [h] <;> rfl
    exact idles_linkModule_of_isWhole ha hwhole

/-- In a graph of five records the root is evaluated, and fails because the body of the third one
throws. The root and the third one have failed for good with what was thrown, and the second one,
which was evaluated before them, keeps its namespace and is linked. The last record was linked and
not looked at. The bodies that were run are those of the second and the third record. -/
theorem finished_records_are_inert_throwingWorld :
    let s := (throwingWorld.exec 3 twiceLink (State.initial .initial)).2
    let t := ((serve throwingWorld 3 (.evaluate ⟨0⟩)).runIn s).2
    throwingWorld.Retires t ⟨0⟩ (.error (.moduleErrored "/a.mjs" "no"))
        (.error (.moduleErrored "/a.mjs" "no")) ∧
      throwingWorld.Retires t ⟨2⟩ (.error (.moduleErrored "/d.mjs" "no"))
        (.error (.moduleErrored "/d.mjs" "no")) ∧
      (∃ n, throwingWorld.Retires t ⟨1⟩ (.ok ()) (.ok n)) ∧
      throwingWorld.Idles (.linkModule ⟨4⟩) (.ok ()) t ∧
      t.trace.evaluations.map Prod.fst = [⟨1⟩, ⟨2⟩] := by
  intro s t
  have hroot :
      s.records[0]?.map (fun a => (a.identifier, a.status)) = some ("/a.mjs", .linked) := by
    decide +kernel
  have hfails :
      error? ((serve throwingWorld 3 (.evaluate ⟨0⟩)).runIn s).1 = some (.engine "no") := by
    decide +kernel
  have hthrown : t.records[2]?.map (fun a => (a.identifier, a.status, a.phase.failure?)) =
      some ("/d.mjs", .errored, some "no") := by decide +kernel
  have hdone : t.records[1]?.map (fun a => (a.status, a.phase.namespace?.isSome)) =
      some (.evaluated, true) := by decide +kernel
  have hlinked : t.records[4]?.map ModuleRecord.status = some .linked := by decide +kernel
  refine ⟨?_, ?_, ?_, ?_, by decide +kernel⟩
  · obtain ⟨a, ha, hpair⟩ := Option.map_eq_some_iff.1 hroot
    obtain ⟨hname, hstatus⟩ := Prod.mk.inj hpair
    obtain ⟨-, -, hrecord⟩ := finished_records_are_inert throwingWorld s
    obtain ⟨-, -, -, hfailed, -⟩ := hrecord ⟨0⟩ a ha
    rw [← hname]
    exact hfailed 3 (.engine "no") t (.inr ⟨hstatus, runIn_eq_error_of_error? hfails⟩)
  all_goals obtain ⟨-, -, hrecord⟩ := finished_records_are_inert throwingWorld t
  · obtain ⟨a, ha, hpair⟩ := Option.map_eq_some_iff.1 hthrown
    obtain ⟨hname, hpair⟩ := Prod.mk.inj hpair
    obtain ⟨hstatus, hreason⟩ := Prod.mk.inj hpair
    rw [← hname]
    exact (hrecord ⟨2⟩ a ha).2.1 "no" hstatus hreason
  · obtain ⟨a, ha, hpair⟩ := Option.map_eq_some_iff.1 hdone
    obtain ⟨hstatus, hsome⟩ := Prod.mk.inj hpair
    obtain ⟨n, hn⟩ := Option.isSome_iff_exists.1 hsome
    exact ⟨n, (hrecord ⟨1⟩ a ha).1 n hstatus hn⟩
  · obtain ⟨a, ha, hstatus⟩ := Option.map_eq_some_iff.1 hlinked
    exact (hrecord ⟨4⟩ a ha).2.2.2.2.2 (.inl hstatus)

end ModuleLoader
