import ModuleLoader.Proofs.LoadInvariant
/-!
The trace is written and never read.

Neither the loader nor the code that it runs has a way to look into the trace. So what is in it by
the time that something is done makes no difference to what is done, and two runs that begin in
states which are told apart only by the trace come to the same end, in states that are told apart
only by the trace. It is this that allows one event to be left in place of another.

The rules for what computations are made of come first. Then the loader is gone through, from the
code between calls up to calls of any depth.
-/

namespace ModuleLoader

variable {σ η α β : Type}

namespace Eff

/-- The trace makes no difference to how the computation ends, and none to the state that it leaves
but for the trace. -/
def Forgets (x : Eff σ η α) : Prop :=
  ∀ s trace, ∃ trace',
    x.runIn { s with trace } = ((x.runIn s).1, { (x.runIn s).2 with trace := trace' })

namespace Forgets

variable {x : Eff σ η α}

theorem pure (a : α) : (Pure.pure a : Eff σ η α).Forgets := fun _ trace => ⟨trace, rfl⟩

theorem throw (f : Fault) : (MonadExcept.throw f : Eff σ η α).Forgets := fun _ trace => ⟨trace, rfl⟩

theorem fail (e : Error) : (Eff.fail e : Eff σ η α).Forgets := throw (.error e)

theorem ofExcept (o : Except Error α) : (Eff.ofExcept o : Eff σ η α).Forgets := by
  cases o with
  | ok a => exact pure a
  | error e => exact fail e

theorem ofOutcome (o : Except Fault α) : (Eff.ofOutcome o : Eff σ η α).Forgets := by
  cases o with
  | ok a => exact pure a
  | error f => exact throw f

theorem bind {f : α → Eff σ η β} (hx : x.Forgets) (hf : ∀ a, (f a).Forgets) :
    (x >>= f).Forgets := by
  intro s trace
  obtain ⟨trace', hx⟩ := hx s trace
  rw [runIn_bind, runIn_bind, hx]
  rcases x.runIn s with ⟨e | a, t⟩
  · exact ⟨trace', rfl⟩
  · exact hf a t trace'

theorem outcome (hx : x.Forgets) : x.outcome.Forgets := by
  intro s trace
  obtain ⟨trace', hx⟩ := hx s trace
  refine ⟨trace', ?_⟩
  rw [runIn_outcome, runIn_outcome, hx]

theorem settle (hx : x.Forgets) : x.settle.Forgets := by
  refine hx.outcome.bind fun o => ?_
  match o with
  | .ok a => exact pure _
  | .error (.error e) => exact pure _
  | .error (.panic m) => exact throw _
  | .error .outOfDepth => exact throw _

theorem modifyGet {f : State σ η → α × State σ η}
    (h : ∀ s trace, ∃ trace', f { s with trace } = ((f s).1, { (f s).2 with trace := trace' })) :
    (modifyGet f : Eff σ η α).Forgets := by
  intro s trace
  obtain ⟨trace', h⟩ := h s trace
  refine ⟨trace', ?_⟩
  rw [runIn_modifyGet, runIn_modifyGet, h]

theorem modify {f : State σ η → State σ η}
    (h : ∀ s trace, ∃ trace', f { s with trace } = { f s with trace := trace' }) :
    (modify f : Eff σ η PUnit).Forgets := by
  refine modifyGet (f := fun s => (PUnit.unit, f s)) fun s trace => ?_
  obtain ⟨trace', h⟩ := h s trace
  exact ⟨trace', congrArg (Prod.mk PUnit.unit) h⟩

theorem get {f : State σ η → Eff σ η α} (hread : ∀ s trace, f { s with trace } = f s)
    (h : ∀ s, (f s).Forgets) : (get >>= f).Forgets := by
  intro s trace
  change ∃ trace', (f { s with trace }).runIn { s with trace } =
    (((f s).runIn s).1, { ((f s).runIn s).2 with trace := trace' })
  rw [hread]
  exact h s s trace

theorem emit (e : Event) : (Eff.emit e : Eff σ η Unit).Forgets :=
  modify fun _ trace => ⟨trace.push e, rfl⟩

theorem perform (a : Action σ η) : (Eff.perform a : Eff σ η a.Reply).Forgets := by
  refine modifyGet fun s trace => ?_
  cases a with
  | writeExports r value => exact ⟨trace.push (.assign r value), rfl⟩
  | evict p => exact ⟨trace.push (.evict p (s.cache.contains p)), rfl⟩
  | note line => exact ⟨trace.push (.note line), rfl⟩
  | _ => exact ⟨trace, rfl⟩

/-! ### The code between calls -/

theorem modifyCache (f : Cache → Cache) :
    (Legacy.modifyCache f : Eff σ η Unit).Forgets :=
  modify fun _ trace => ⟨trace, rfl⟩

theorem record (e : Event) (f : Cache → Cache) : (Legacy.record e f : Eff σ η Unit).Forgets :=
  modify fun _ trace => ⟨trace.push e, rfl⟩

theorem newExports : (Legacy.newExports : Eff σ η (Value × ExportsRef)).Forgets :=
  modifyGet fun _ trace => ⟨trace, rfl⟩

theorem fetch (host : Host σ η) (p : Path) : (Legacy.fetch host p : Eff σ η String).Forgets := by
  refine (emit _).bind fun _ => ?_
  cases host.files.read p with
  | ok text => exact pure text
  | error e => exact fail _

section

variable {host : Host σ η} {serve : (c : Call) → Eff σ η c.Reply} (hserve : ∀ c, (serve c).Forgets)

include hserve

theorem program (p : Program σ η α) : (p.run serve).Forgets := by
  induction p with
  | done a => exact pure a
  | panic m => exact throw _
  | act a next ih => exact (perform a).bind ih
  | call c next ih => exact (hserve c).settle.bind ih

theorem script (x : Script σ η α) : (x.exec serve).Forgets :=
  (program hserve x.run).bind ofExcept

theorem runBody (p : Path) (text : String) (r : ExportsRef) :
    (Legacy.runBody host serve p text r).Forgets := by
  refine (script hserve _).settle.bind fun o => ?_
  cases o with
  | ok _ => exact get (fun _ _ => rfl) fun s => (record _ _).bind fun _ => pure _
  | error e => exact (record _ _).bind fun _ => fail e

theorem loadScript (p parent : Path) : (Legacy.loadScript host serve p parent).Forgets := by
  refine (modifyCache _).bind fun _ => get (fun _ _ => rfl) fun s => ?_
  cases s.cache.exports? p with
  | some exports => exact pure exports
  | none =>
      refine (fetch host p).bind fun text => newExports.bind fun start => ?_
      exact (record _ _).bind fun _ => runBody hserve p text start.2

omit hserve in
theorem loadJson (p parent : Path) : (Legacy.loadJson host p parent : Eff σ η Value).Forgets := by
  refine (modifyCache _).bind fun _ => get (fun _ _ => rfl) fun s => ?_
  cases s.cache.exports? p with
  | some exports => exact pure exports
  | none =>
      refine (fetch host p).bind fun text => ?_
      cases Json.read? text with
      | none => exact fail _
      | some json => exact (perform _).bind fun value => (record _ _).bind fun _ => pure value

omit hserve in
theorem answering (p : Path) {exports : Eff σ η Value} (h : exports.Forgets) :
    (Legacy.answering p exports).Forgets :=
  h.bind fun value => (emit _).bind fun _ => pure value

theorem provide (builtins : Registry (Provider σ η)) (specifier : String) :
    (Legacy.provide serve builtins specifier).Forgets := by
  unfold Legacy.provide
  cases builtins.find? specifier with
  | none => exact fail _
  | some provider => exact (emit _).bind fun _ => program hserve provider

theorem load (call : LookupCall) : (Legacy.load host serve call).Forgets := by
  refine (ofExcept _).bind fun found => ?_
  cases found with
  | builtin name => exact provide hserve _ name
  | script p => exact answering p (loadScript hserve p call.parent)
  | json p => exact answering p (loadJson p call.parent)
  | native p => exact fail _

theorem base (call : LookupCall) : (Legacy.base host serve call).Forgets := by
  refine (emit _).bind fun _ => ?_
  cases host.lookup? with
  | none => exact load hserve call
  | some f => exact script hserve (f call)

theorem callback (event : Event) (call : LookupCall)
    (f : Option (LookupCall → Program σ η Unit)) :
    (Hook.callback serve event call f).Forgets := by
  cases f with
  | none => exact pure ()
  | some f => exact (emit event).bind fun _ => program hserve (f call)

theorem intercept (call : LookupCall) {x : Eff σ η Value} (hx : x.Forgets)
    (layers : List (Layer η)) : (ModuleLoader.intercept host serve call x layers).Forgets := by
  induction layers with
  | nil => exact hx
  | cons outer inner ih =>
      refine (callback hserve _ call _).bind fun _ => ih.outcome.bind fun o => ?_
      match o with
      | .error .outOfDepth => exact throw _
      | .ok _ | .error (.error _) | .error (.panic _) =>
          exact (callback hserve _ call _).bind fun _ => ofOutcome _

theorem require (call : LookupCall) : (Legacy.require host serve call).Forgets :=
  get (fun _ _ => rfl) fun s => intercept hserve call (base hserve call) s.hooks.outermostFirst

omit hserve in
theorem addRecord (a : ModuleRecord σ η) : (Linker.addRecord a : Eff σ η RecordId).Forgets :=
  modifyGet fun _ trace => ⟨trace, rfl⟩

theorem buildSource (specifier : String) (referrer : Referrer) :
    (Linker.buildSource host serve specifier referrer).Forgets := by
  refine (ofExcept _).bind fun p => (fetch host p).bind fun text => ?_
  cases p.fileUrl? with
  | none => exact fail _
  | some url => exact (emit _).bind fun _ => (script hserve _).bind fun c => addRecord _

theorem buildSynthetic (specifier : String) (referrer : Referrer) :
    (Linker.buildSynthetic host serve specifier referrer).Forgets := by
  have horigin : (Linker.originOf host serve specifier referrer).Forgets := by
    unfold Linker.originOf
    split
    · exact (provide hserve _ specifier).bind fun _ => pure _
    · exact (ofExcept _).bind fun p => (require hserve _).bind fun _ => pure _
  exact horigin.bind fun origin => get (fun _ _ => rfl) fun s => addRecord _

theorem link (specifier : String) (referrer : Referrer) :
    (Linker.link host serve specifier referrer).Forgets := by
  rw [Linker.link_eq_plan]
  refine (ofExcept _).bind fun plan => ?_
  obtain ⟨dispatch, name⟩ := plan
  cases dispatch with
  | source => exact buildSource hserve name referrer
  | synthetic => exact buildSynthetic hserve name referrer

/-! ### Calls -/

section

omit hserve

theorem recordAt (r : RecordId) : (Linker.recordAt r : Eff σ η (ModuleRecord σ η)).Forgets := by
  refine get (fun _ _ => rfl) fun s => ?_
  cases s.records[r.index]? with
  | some a => exact pure a
  | none => exact throw _

theorem modifyPhase (r : RecordId) (f : Phase → Phase) :
    (Linker.modifyPhase r f : Eff σ η Unit).Forgets :=
  modify fun _ trace => ⟨trace, rfl⟩

theorem addDependency (r : RecordId) (specifier : String) (dep : RecordId) :
    (Linker.addDependency r specifier dep : Eff σ η Unit).Forgets :=
  modify fun _ trace => ⟨trace, rfl⟩

theorem transition (r : RecordId) (status : Status) :
    (Linker.transition r status : Eff σ η Unit).Forgets := by
  refine (recordAt r).bind fun a => ?_
  split
  · exact modifyPhase r _
  · exact fail _

theorem onBehalf (r : RecordId) {work : Eff σ η α} (hwork : work.Forgets) :
    (Linker.onBehalf r work).Forgets := by
  refine hwork.settle.bind fun o => ?_
  cases o with
  | ok a => exact pure a
  | error e =>
      refine ((recordAt r).bind fun a => ?_).bind fun _ => fail e
      split
      · exact modifyPhase r _
      · exact pure ()

end

theorem linkRequests (r : RecordId) (referrer : Referrer) (specifiers : List String) :
    (Linker.linkRequests host serve r referrer specifiers).Forgets := by
  induction specifiers with
  | nil => exact pure ()
  | cons specifier rest ih =>
      refine (link hserve specifier referrer).bind fun dep => ?_
      exact (hserve (.linkModule dep)).bind fun _ => (addDependency r _ dep).bind fun _ => ih

theorem linkModule (r : RecordId) : (Linker.linkModule host serve r).Forgets := by
  refine (recordAt r).bind fun a => ?_
  cases a.status with
  | unlinked =>
      refine (transition r _).bind fun _ => ?_
      exact (onBehalf r (linkRequests hserve r _ _)).bind fun _ => transition r _
  | linking => exact fail _
  | errored => exact fail _
  | linked => exact pure ()
  | evaluating => exact pure ()
  | evaluated => exact pure ()

theorem evaluateAll (imports : OrderedMap Namespace) (deps : List (String × RecordId)) :
    (Linker.evaluateAll serve imports deps).Forgets := by
  induction deps generalizing imports with
  | nil => exact pure imports
  | cons dep rest ih => exact (hserve (.evaluate dep.2)).bind fun n => ih _

theorem evaluateKind (r : RecordId) (a : ModuleRecord σ η) :
    (Linker.evaluateKind serve r a).Forgets := by
  unfold Linker.evaluateKind
  cases a.kind with
  | source m =>
      refine (evaluateAll hserve _ _).bind fun imports => (ofExcept _).bind fun importMeta => ?_
      exact (emit _).bind fun _ => script hserve _
  | synthetic m => exact get (fun _ _ => rfl) fun s => perform _

theorem evaluateAnew (r : RecordId) (a : ModuleRecord σ η) :
    (Linker.evaluateAnew serve r a).Forgets := by
  refine (transition r _).bind fun _ => ?_
  refine (onBehalf r (evaluateKind hserve r a)).bind fun n => ?_
  exact ((transition r _).bind fun _ => modifyPhase r _).bind fun _ => pure n

theorem evaluate (r : RecordId) : (Linker.evaluate serve r).Forgets := by
  refine (recordAt r).bind fun a => ?_
  cases a.status with
  | linked => exact evaluateAnew hserve r a
  | evaluated =>
      cases a.phase.namespace? with
      | some n => exact pure n
      | none => exact evaluateAnew hserve r a
  | errored => exact fail _
  | unlinked => exact fail _
  | linking => exact fail _
  | evaluating => exact fail _

theorem answer (c : Call) : (ModuleLoader.answer host serve c).Forgets := by
  cases c with
  | require lookup => exact require hserve lookup
  | link specifier referrer => exact link hserve specifier referrer
  | buildSource specifier referrer => exact buildSource hserve specifier referrer
  | buildSynthetic specifier referrer => exact buildSynthetic hserve specifier referrer
  | linkModule r => exact linkModule hserve r
  | evaluate r => exact evaluate hserve r

end

theorem serve (host : Host σ η) (depth : Nat) (c : Call) :
    (ModuleLoader.serve host depth c).Forgets := by
  induction depth generalizing c with
  | zero => exact throw _
  | succ depth ih => exact answer ih c

end Forgets

end Eff

end ModuleLoader
