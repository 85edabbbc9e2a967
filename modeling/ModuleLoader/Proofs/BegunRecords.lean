import ModuleLoader.Proofs.GoodStates
/-!
Bodies run late.

A record is linked first and evaluated afterwards, and its body is run while it
is being evaluated. So a body that has been run is that of a record of which
evaluating has begun, and this is a thing that can be seen of the record from then
on: it has come past the phase `linked`, with something linked for each of its
requests. A record of which linking broke off has failed as well, but something
is missing below it.

What follows is about records that do not look like this in the end. Whatever
has been going on before, no body of theirs was run in it.
-/

namespace ModuleLoader

open Eff

variable {σ η α : Type}

/-- The phase comes after `linked`, or the record has failed. -/
def Status.isPast : Status → Bool
  | evaluating => true
  | evaluated => true
  | errored => true
  | _ => false

theorem Status.Reaches.isPast {a b : Status} (h : a.Reaches b) (ha : a.isPast = true) :
    b.isPast = true := by
  induction h with
  | refl => exact ha
  | @tail b c _ hmove ih => cases b <;> cases c <;> simp_all [canMove, Status.isPast]

theorem Status.isSettled_of_isPast {a : Status} (h : a.isPast = true) : a.isSettled = true := by
  cases a <;> simp_all [isPast, isSettled]

structure ModuleRecord.Begun (a : ModuleRecord σ η) : Prop where
  past : a.status.isPast = true
  whole : a.dependencies.map Prod.fst = a.requests

theorem ModuleRecord.Begun.grow {a b : ModuleRecord σ η} (h : a.Begun) (hab : a.Grows b) :
    b.Begun where
  past := hab.status.isPast h.past
  whole := by rw [hab.settled (Status.isSettled_of_isPast h.past), hab.requests, h.whole]

namespace State

/-- All bodies that were run between the two states are of records that have begun to be evaluated
by the second one. -/
def Begins (s t : State σ η) : Prop :=
  ∃ runs, t.trace.evaluations = s.trace.evaluations ++ runs ∧
    ∀ run ∈ runs, ∃ a, t.record? run.1 = some a ∧ a.Begun

variable {s m t : State σ η}

theorem begins_of_eq (hruns : t.trace.evaluations = s.trace.evaluations) : Begins s t :=
  ⟨[], by rw [hruns, List.append_nil], by simp⟩

theorem Begins.refl (s : State σ η) : Begins s s := begins_of_eq rfl

/-- What has begun stays begun. -/
theorem Begins.trans (h : Begins s m)
    (hmt : ∀ x a, m.record? x = some a → ∃ b, t.record? x = some b ∧ a.Grows b)
    (h' : Begins m t) : Begins s t := by
  obtain ⟨before, hbefore, hfirst⟩ := h
  obtain ⟨after, hafter, hsecond⟩ := h'
  refine ⟨before ++ after, by rw [hafter, hbefore, List.append_assoc], fun run hrun => ?_⟩
  rcases List.mem_append.1 hrun with hrun | hrun
  · obtain ⟨a, ha, hbegun⟩ := hfirst run hrun
    obtain ⟨b, hb, hab⟩ := hmt _ a ha
    exact ⟨b, hb, hbegun.grow hab⟩
  · exact hsecond run hrun

theorem Begins.setPhase (h : Begins s m) {r : RecordId} {a : ModuleRecord σ η} {phase : Phase}
    (ha : m.record? r = some a) (hmove : a.status.canMove phase.status = true)
    (hformed : phase.WellFormed) : Begins s (Linker.setPhaseIn m r phase) := by
  have hstart : Evolves (· = r) m m := .refl m
  exact h.trans (hstart.setPhase ha rfl hmove hformed).grows (begins_of_eq rfl)

theorem begins_emit {r : RecordId} {a : ModuleRecord σ η} (ha : s.record? r = some a)
    (hbegun : a.Begun) (env : ModuleEnvironment) : Begins s (s.emit (.evaluate r env)) := by
  refine ⟨[(r, env)], Trace.evaluations_push _ _, fun run hrun => ?_⟩
  rw [List.mem_singleton.1 hrun]
  exact ⟨a, ha, hbegun⟩

structure FollowsBegun (host : Host σ η) (E : Error → Prop) (B : Compiled σ η → Prop)
    (s t : State σ η) : Prop where
  good : t.Good host E B
  follows : Follows s t
  begins : Begins s t

variable {host : Host σ η} {E : Error → Prop} {B : Compiled σ η → Prop}

theorem FollowsBegun.refl (hs : s.Good host E B) : FollowsBegun host E B s s :=
    ⟨hs, .refl s, .refl s⟩

theorem FollowsBegun.trans (h : FollowsBegun host E B s m) (h' : FollowsBegun host E B m t) :
    FollowsBegun host E B s t :=
  ⟨h'.good, h.follows.trans h'.follows, h.begins.trans h'.follows.grows h'.begins⟩

end State

/-! ### Servers -/

def RunsBegun (host : Host σ η) (E : Error → Prop) (B : Compiled σ η → Prop)
    (serve : (c : Call) → Eff σ η c.Reply) : Prop :=
  ∀ c s, s.Good host E B → State.Begins s ((serve c).runIn s).2

section

variable {host : Host σ η} {E : Error → Prop} {B : Compiled σ η → Prop}
  {serve : (c : Call) → Eff σ η c.Reply} (h : KeepsGood host E B serve)
    (ht : RunsBegun host E B serve)
  (hhost : host.CodeFailsWithin E B)

include h ht

theorem leads_call {s : State σ η} (hs : s.Good host E B) (c : Call) :
    Leads (State.FollowsBegun host E B s) E s (serve c) fun _ _ => True := by
  obtain ⟨⟨hgood, hfollows⟩, hends⟩ := h.call c s hs
  exact ⟨⟨hgood, hfollows, ht c s hs⟩, hends⟩

/-- Programs run no bodies but by their calls. -/
theorem followsBegun_program (s : State σ η) {P : α → Prop} {p : Program σ η α}
    (hp : p.FailsWithin E P)
    (E' : Error → Prop) :
    Keeps (State.FollowsBegun host E B s) E' P (p.run serve) (p.run serve) := by
  refine hp.keeps (fun t hst => hst.good.heap) (fun a t ha hst => ?_) (fun c => ?_) E'
  · exact hst.trans ⟨hst.good.carryOut ha, .of_records_eq (a.records_carryOut t),
      State.begins_of_eq (a.evaluations_carryOut t)⟩
  · refine .of_runIn fun t hst => ?_
    obtain ⟨hseq, hends⟩ := leads_call h ht hst.good c
    exact ⟨hst.trans hseq, hends⟩

include hhost

theorem loadInvariant_followsBegun (s : State σ η) :
    LoadInvariant (State.FollowsBegun host E B s) E B (fun r => s.records.size ≤ r.index) host
      serve serve where
  core _ _ heq hst := hst.trans ⟨hst.good.congr (congrArg (·.1) heq) (congrArg (·.2.1) heq),
    .of_records_eq (congrArg (·.1) heq), State.begins_of_eq (congrArg (·.2.2.1) heq)⟩
  error e he := hhost.error e he.not_isMove
  add _ identifier referrer _ hst hkind :=
    ⟨hst.trans ⟨hst.good.add identifier referrer hkind, .add identifier referrer _,
      State.begins_of_eq rfl⟩, hst.follows.size_le⟩
  foreign := hhost.code.imp fun _ _ _ hp => followsBegun_program h ht s hp

namespace Linker

theorem begins_linkRequests {s₀ : State σ η} {r : RecordId} (hr : r.index < s₀.records.size)
    {referrer : Referrer} (specifiers : List String) {s : State σ η} {a : ModuleRecord σ η}
    (hs : s.Good host E B) (hown : State.Evolves (· = r) s₀ s) (hbegins : State.Begins s₀ s)
    (ha : s.record? r = some a) (hphase : a.phase = .linking) (hreferrer : a.referrer = referrer)
    (hrest : a.requests = a.dependencies.map Prod.fst ++ specifiers) :
    Leads (State.Begins s₀) E s (linkRequests host serve r referrer specifiers)
      fun _ _ => True := by
  have hlinking : a.status = .linking := by rw [ModuleRecord.status, hphase]; rfl
  induction specifiers generalizing s a with
  | nil => exact .pure hbegins trivial
  | cons specifier rest ih =>
      have hkept : ∀ t, State.FollowsBegun host E B s t → State.Begins s₀ t :=
        fun t hst => hbegins.trans hst.follows.grows hst.begins
      have hkeeps := loadInvariant_followsBegun h ht hhost s
      have hlinked :
          Leads (State.FollowsBegun host E B s) E s (link host serve specifier referrer) _ :=
        .of_keeps (hkeeps.link (fun _ => hhost.error _ id) specifier referrer)
          (.refl hs)
      refine (hlinked.weaken hkept).bind fun dep m hlink _ hsm => ?_
      have hcall := leads_call h ht hsm.1.good (.linkModule dep)
      refine (hcall.weaken fun t hmt => hkept t (hsm.1.trans hmt)).bind
        fun _ t hdep hbegun hmt => ?_
      subst hreferrer
      obtain ⟨hgood, hevolves, hat⟩ :=
        good_addDependency h hhost hr hown ha hphase hrest hlink hs hdep
      have hbusy := (hsm.1.trans hmt.1).follows.busy r a ha (by rw [hlinking]; rfl) fun hf => hf
      have hrest' : a.requests =
          (a.dependencies ++ [(specifier, dep)]).map Prod.fst ++ rest := by simp [hrest]
      refine .bind_of_eq_ok (runIn_addDependency r specifier dep t)
        (ih hgood hevolves (hbegun.trans ?_ (State.begins_of_eq rfl)) hat hphase rfl
          hrest' hlinking)
      exact fun x b => State.grows_addDependencyIn hbusy hlinking specifier dep

theorem begins_linkModule {s : State σ η} (hs : s.Good host E B) (r : RecordId) :
    Leads (State.Begins s) E s (linkModule host serve r) fun _ _ => True := by
  refine (leads_recordAt (.refl s) r).bind ?_
  rintro a _ - - ⟨rfl, ha⟩
  have ha : s.record? r = some a := ha
  cases hstatus : a.status with
  | unlinked =>
      have hphase : a.phase = .unlinked := (hs.formed ha).eq_of_status hstatus rfl
      have hmove : a.status.canMove Phase.linking.status = true := by rw [hstatus]; rfl
      obtain ⟨hgood, hevolves, hnone⟩ := hs.take_linking ha hstatus
      have hrest : a.requests = a.dependencies.map Prod.fst ++ a.requests := by
        rw [hnone]
        rfl
      have hlinking := State.record?_setPhaseIn ha .linking
      have hsame : ({ a with phase := .linking } : ModuleRecord σ η).referrer = a.referrer := rfl
      have hkeepsGood := leads_linkRequests h hhost (State.lt_of_record? ha) a.requests
        hgood hevolves
        hlinking rfl hsame hrest
      have hbegins := begins_linkRequests h ht hhost (State.lt_of_record? ha) a.requests hgood
        hevolves ((State.Begins.refl s).setPhase ha hmove .linking) hlinking rfl hsame hrest
      refine leads_during_linking (Q := fun _ => True) ha hphase (hkeepsGood.and hbegins)
        (fun t hst => hst.2) (fun t hst => hst.1.2) ?_ ?_
      · rintro t e ⟨⟨-, b, hb, hbphase⟩, hst⟩
        exact hst.setPhase hb (by rw [ModuleRecord.status, hbphase]; rfl) (.errored e.message)
      · rintro t ⟨-, hst⟩ ⟨⟨b, hb, hbphase, -⟩, -⟩
        exact ⟨hst.setPhase hb (by rw [ModuleRecord.status, hbphase]; rfl) .linked, trivial⟩
  | linking => exact .fail (.refl s) (hhost.error _ fun h => h)
  | errored => exact .fail (.refl s) (hhost.error _ fun h => h)
  | linked => exact .pure (.refl s) trivial
  | evaluating => exact .pure (.refl s) trivial
  | evaluated => exact .pure (.refl s) trivial

omit hhost in
theorem followsBegun_evaluateAll {s : State σ η} (hs : s.Good host E B)
    (imports : OrderedMap Namespace)
    (deps : List (String × RecordId)) :
    Leads (State.FollowsBegun host E B s) E s (evaluateAll serve imports deps) fun _ _ => True := by
  induction deps generalizing imports s with
  | nil => exact .pure (.refl hs) trivial
  | cons dep rest ih =>
      refine (leads_call h ht hs (.evaluate dep.2)).bind fun n m _ hsm _ => ?_
      exact (ih hsm.good (imports.insert dep.1 n)).imp (fun _ hmt => hsm.trans hmt)
        fun _ _ _ _ h => h

/-- The body of a record is run when the record is being evaluated. -/
theorem begins_evaluateKind {s : State σ η} (hs : s.Good host E B) {r : RecordId}
    {a : ModuleRecord σ η} (ha : s.record? r = some { a with phase := .evaluating })
    (hwhole : a.dependencies.map Prod.fst = a.requests) :
    Leads (State.Begins s) E s (evaluateKind serve r a) fun _ _ => True := by
  unfold evaluateKind
  cases hkind : a.kind with
  | synthetic m => exact ⟨State.begins_of_eq rfl, trivial⟩
  | source m =>
      have hall := followsBegun_evaluateAll h ht hs .empty a.dependencies
      refine (hall.weaken fun t hst => hst.begins).bind fun imports u _ _ hsu => ?_
      have hu := hsu.1.follows.busy r _ ha rfl fun hf => hf
      cases hmeta : ImportMeta.ofPath m.location with
      | error e =>
          refine .bind (P := fun _ _ => False) (.fail hsu.1.begins ?_) fun _ _ _ _ h => h.elim
          have hplain := ImportMeta.plain_ofPath m.location
          rw [hmeta] at hplain
          exact hhost.error e (Error.IsPlain.not_isMove hplain)
      | ok importMeta =>
          let env : ModuleEnvironment := ⟨a.context, importMeta, imports, a.importer⟩
          have hemit : State.FollowsBegun host E B u (u.emit (.evaluate r env)) :=
            ⟨hsu.1.good.congr rfl rfl, .of_records_eq rfl,
              State.begins_emit hu ⟨rfl, hwhole⟩ env⟩
          have hbody := hhost.body _ (hs.bodies r _ m ha hkind) env
          have hexec := Leads.of_keeps (Script.keeps_exec (followsBegun_program h ht _ hbody E))
            (State.FollowsBegun.refl hemit.good)
          refine .bind_of_eq_ok (a := importMeta) rfl (.bind_of_eq_ok (runIn_emit _ u) ?_)
          exact hexec.imp (fun t hut => ((hsu.1.trans hemit).trans hut).begins) fun _ _ _ _ h => h

theorem begins_evaluate {s : State σ η} (hs : s.Good host E B) (r : RecordId) :
    Leads (State.Begins s) E s (evaluate serve r) fun _ _ => True := by
  refine (leads_recordAt (.refl s) r).bind ?_
  rintro a _ - - ⟨rfl, ha⟩
  have ha : s.record? r = some a := ha
  cases hstatus : a.status with
  | linked =>
      have hphase : a.phase = .linked := (hs.formed ha).eq_of_status hstatus rfl
      have hmove : a.status.canMove Phase.evaluating.status = true := by rw [hstatus]; rfl
      obtain ⟨hgood, -, hwhole⟩ := hs.take_evaluating ha hstatus
      have hevaluating := State.record?_setPhaseIn ha .evaluating
      have hkeepsGood := leads_evaluateKind h hhost hgood r (fun m => hs.bodies r a m ha) hwhole
      have hbegins := begins_evaluateKind h ht hhost hgood hevaluating hwhole
      have hkept : ∀ t, (t.Good host E B ∧ State.Follows (setPhaseIn s r .evaluating) t) ∧
          State.Begins (setPhaseIn s r .evaluating) t → State.Begins s t ∧
            t.record? r = some { a with phase := .evaluating } := fun t hst =>
        ⟨((State.Begins.refl s).setPhase ha hmove .evaluating).trans hst.1.2.grows hst.2,
          hst.1.2.busy r _ hevaluating rfl fun hf => hf⟩
      refine leads_evaluateAnew (Q := fun _ _ => True) ha hphase (hkeepsGood.and hbegins)
        (fun t hst => (hkept t hst).1) (fun t hst => ⟨_, (hkept t hst).2, rfl⟩) ?_ ?_
      · intro t e hst
        obtain ⟨hbegun, hat⟩ := hkept t hst
        exact hbegun.setPhase hat rfl (.errored e.message)
      · intro n t hst _
        obtain ⟨hbegun, hat⟩ := hkept t hst
        exact ⟨hbegun.setPhase hat rfl (.evaluated n), trivial⟩
  | evaluated =>
      obtain ⟨n, hphase⟩ := (hs.formed ha).exists_of_evaluated hstatus
      rw [hphase]
      exact .pure (.refl s) trivial
  | unlinked => exact .fail (.refl s) (hhost.error _ fun h => h)
  | linking => exact .fail (.refl s) (hhost.error _ fun h => h)
  | evaluating => exact .fail (.refl s) (hhost.error _ fun h => h)
  | errored => exact .fail (.refl s) (hhost.error _ fun h => h)

end Linker

theorem RunsBegun.answer : RunsBegun host E B (ModuleLoader.answer host serve) := by
  intro c s hs
  have hcode := loadInvariant_followsBegun h ht hhost s
  cases c with
  | require lookup => exact (hcode.require lookup s (.refl hs)).1.begins
  | link specifier referrer =>
      exact (hcode.link (fun _ => hhost.error _ id) specifier referrer s (.refl hs)).1.begins
  | buildSource specifier referrer =>
      exact (hcode.buildSource specifier referrer s (.refl hs)).1.begins
  | buildSynthetic specifier referrer =>
      exact (hcode.buildSynthetic specifier referrer s (.refl hs)).1.begins
  | linkModule r => exact (Linker.begins_linkModule h ht hhost hs r).1
  | evaluate r => exact (Linker.begins_evaluate h ht hhost hs r).1

omit h ht in
/-- Whatever the depth, the loader runs no bodies but of records that it begins to evaluate. -/
theorem runsBegun_serve (depth : Nat) : RunsBegun host E B (ModuleLoader.serve host depth) := by
  induction depth with
  | zero => exact fun c s _ => .refl s
  | succ depth ih => exact ih.answer (keepsGood_serve hhost depth) hhost

end

end ModuleLoader
