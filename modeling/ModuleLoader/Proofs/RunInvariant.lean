import ModuleLoader.Proofs.KnownRecords
/-!
Calls on behalf of some contexts, and what they keep.

A record belongs to a context, and whoever imports does it for a context. So of
a set of contexts one may ask what is done on their behalf. Links are made for
referrers in them, and of records only those are named that were handed out by
such links. Between these calls the loader looks up, reads, compiles, wraps and
runs code that it has not seen.

Here all of this is gone through once more, and for any property of states,
whatever part of the state it looks at. A `RunInvariant` says what the loader's own
steps and the code that it runs have to keep, step by step: each event that it
leaves, each change of the cache, of the heap and of a record. What comes of it is
that every call keeps the property (`RunInvariant.answer`), and that the records it
hands out are of the kind that may be named again.
-/

namespace ModuleLoader

variable {σ η α β : Type}

abbrev Eff.Stays (I : State σ η → Prop) (P : α → Prop) (x : Eff σ η α) : Prop :=
  Eff.Keeps I (fun _ => True) P x x

/-- The call is for contexts of the first set, and the records it names are of the second. -/
def Call.OnBehalf (own : ContextId → Prop) (known : RecordId → Prop) : Call → Prop
  | .require _ => True
  | .link _ referrer => own referrer.context
  | .buildSource _ referrer => own referrer.context
  | .buildSynthetic _ referrer => own referrer.context
  | .linkModule r => known r
  | .evaluate r => known r

def Call.Gives (c : Call) (known : RecordId → Prop) (reply : c.Reply) : Prop :=
  ∀ x, c.Hands (.ok reply) x → known x

/-- The record belongs to one of the contexts, its source is such that `C` holds, and what it
depends on is in the set. -/
def ModuleRecord.Within (own : ContextId → Prop) (known : RecordId → Prop)
    (C : Compiled σ η → Prop) (a : ModuleRecord σ η) : Prop :=
  own a.context ∧ (∀ m, a.kind = .source m → C m.compiled) ∧ ∀ dep ∈ a.dependencies, known dep.2

structure Host.Runs (host : Host σ η) (own : ContextId → Prop)
    (Q : (α : Type) → (α → Prop) → Program σ η α → Prop) (C : Compiled σ η → Prop) : Prop where
  compile : ∀ text options, own options.context →
    Q _ (Eff.Answers (fun _ => True) C) (host.compile text options).run
  body : ∀ c, C c → ∀ env, own env.context → env.importer.context = env.context →
    Q _ (Eff.Answers (fun _ => True) fun _ => True) (c.body env).run
  script : ∀ text m, m.context = host.scriptContext →
    Q _ (Eff.Answers (fun _ => True) fun _ => True) (host.runScript text m).run
  lookup : ∀ f, host.lookup? = some f → ∀ call,
    Q _ (Eff.Answers (fun _ => True) fun _ => True) (f call).run
  provider : ∀ b ∈ [host.builtins, host.linkerBuiltins], ∀ name p, b.find? name = some p →
    Q _ (fun _ => True) p
  before : ∀ h f, (host.hook h).before? = some f → ∀ call, Q _ (fun _ => True) (f call)
  after : ∀ h f, (host.hook h).after? = some f → ∀ call, Q _ (fun _ => True) (f call)

theorem Host.Runs.imp {host : Host σ η} {own : ContextId → Prop}
    {Q R : (α : Type) → (α → Prop) → Program σ η α → Prop} {C : Compiled σ η → Prop}
    (h : host.Runs own Q C) (hQ : ∀ α P p, Q α P p → R α P p) : host.Runs own R C where
  compile text options ho := hQ _ _ _ (h.compile text options ho)
  body c hc env ho hi := hQ _ _ _ (h.body c hc env ho hi)
  script text m hm := hQ _ _ _ (h.script text m hm)
  lookup f hf call := hQ _ _ _ (h.lookup f hf call)
  provider b hb name p hp := hQ _ _ _ (h.provider b hb name p hp)
  before x f hf call := hQ _ _ _ (h.before x f hf call)
  after x f hf call := hQ _ _ _ (h.after x f hf call)

theorem Host.Runs.and {host : Host σ η} {own : ContextId → Prop}
    {Q R : (α : Type) → (α → Prop) → Program σ η α → Prop} {C : Compiled σ η → Prop}
    (h : host.Runs own Q C) (h' : host.Runs own R C) :
    host.Runs own (fun α P p => Q α P p ∧ R α P p) C where
  compile text options ho := ⟨h.compile text options ho, h'.compile text options ho⟩
  body c hc env ho hi := ⟨h.body c hc env ho hi, h'.body c hc env ho hi⟩
  script text m hm := ⟨h.script text m hm, h'.script text m hm⟩
  lookup f hf call := ⟨h.lookup f hf call, h'.lookup f hf call⟩
  provider b hb name p hp := ⟨h.provider b hb name p hp, h'.provider b hb name p hp⟩
  before x f hf call := ⟨h.before x f hf call, h'.before x f hf call⟩
  after x f hf call := ⟨h.after x f hf call, h'.after x f hf call⟩

theorem Host.runs_of_forall (host : Host σ η) (own : ContextId → Prop)
    {Q : (α : Type) → (α → Prop) → Program σ η α → Prop}
    (h : ∀ (α : Type) (P : α → Prop) p, (∀ a, P a) → Q α P p) :
    host.Runs own Q fun _ => True where
  compile _ _ _ := h _ _ _ (Eff.answers_of_forall (fun _ => trivial) fun _ => trivial)
  body _ _ _ _ _ := h _ _ _ (Eff.answers_of_forall (fun _ => trivial) fun _ => trivial)
  script _ _ _ := h _ _ _ (Eff.answers_of_forall (fun _ => trivial) fun _ => trivial)
  lookup _ _ _ := h _ _ _ (Eff.answers_of_forall (fun _ => trivial) fun _ => trivial)
  provider _ _ _ _ _ := h _ _ _ fun _ => trivial
  before _ _ _ _ := h _ _ _ fun _ => trivial
  after _ _ _ _ := h _ _ _ fun _ => trivial

/-! ### What happens to a required file -/

/-- A lookup may come to the file at the path. -/
def Host.Finds (host : Host σ η) (p : Path) : Prop :=
  ∃ id parent found,
    RequireId.resolve host.files host.builtins id parent = .ok found ∧ found.path? = some p

structure ModuleRecord.MadeOf (host : Host σ η) (a : ModuleRecord σ η) (m : SourceModule σ η) :
    Prop where
  found : ∃ specifier referrer, Linker.resolveFile host specifier referrer = .ok m.location ∧
    a.context = referrer.context ∧ a.lineage = referrer.lineage
  text : ∃ text, host.files.read m.location = .ok text
  url : m.location.fileUrl? = some m.url
  identifier : a.identifier = m.location.text

namespace State

def enter (host : Host σ η) (s : State σ η) (p parent : Path) : State σ η :=
  let start := Value.object (s.heap.newObject .empty).1
  State.emit { s with
    heap := (s.heap.newObject .empty).2
    exports := s.exports.push start
    cache := s.cache.insert p (.loading p (some parent) start) }
      (.enter p host.scriptContext ⟨s.exports.size⟩ start)

def leave (s : State σ η) (p : Path) : Except Error Value → State σ η
  | .ok exports => { s with cache := s.cache.finish p exports }.emit (.leave p (.ok exports))
  | .error e => { s with cache := s.cache.erase p }.emit (.leave p (.error e))

def parse (s : State σ η) (p parent : Path) (value : Value) : State σ η :=
  { s with
    cache := s.cache.insert p ((CachedModule.loading p (some parent) value).finish value) }.emit
    (.parse p value)

end State

/-- The event is left on the way, and is not about a module: a lookup, what is read for it, or a
hook or a provider that is run. -/
def Event.IsPassing : Event → Prop
  | .read _ | .provide _ | .lookup _ | .answer .. | .before .. | .after .. => True
  | _ => False

/-- The event is left on the way, or tells that a module is compiled or run. Nothing in the state
changes with it. -/
def Event.IsReport : Event → Prop
  | .read _ | .provide _ | .lookup _ | .answer .. | .before .. | .after .. | .compile ..
  | .evaluate .. => True
  | _ => False

theorem Event.IsPassing.isReport {e : Event} (he : e.IsPassing) : e.IsReport := by
  cases e <;> trivial

/-! ### Invariants of runs -/

structure RunInvariant (I : State σ η → Prop) (own : ContextId → Prop) (new : RecordId → Prop)
    (C : Compiled σ η → Prop) (host : Host σ η) (serve : (c : Call) → Eff σ η c.Reply) : Prop where
  passing : ∀ s (e : Event), e.IsPassing → I s → I (s.emit e)
  compile : ∀ s identifier url context, own context → I s →
    I (s.emit (.compile identifier url context))
  body : ∀ s r (env : ModuleEnvironment), new r → own env.context →
    env.importer.context = env.context → I s → I (s.emit (.evaluate r env))
  addChild : ∀ s parent child, I s → I { s with cache := s.cache.addChild parent child }
  enter : ∀ s p parent, host.Finds p → I s → I (s.enter host p parent)
  leave : ∀ s p outcome, I s → I (s.leave p outcome)
  parse : ∀ s p parent value, I s → I (s.parse p parent value)
  make : ∀ s (l : Literal), l.Plain → I s → I ((Action.make l).carryOut s).2
  newNamespace : ∀ s exports, I s → I ((Action.newNamespace exports).carryOut s).2
  add : ∀ s identifier (referrer : Referrer) (kind : ModuleKind σ η), own referrer.context →
    (∀ m, kind = .source m →
      C m.compiled ∧ (ModuleRecord.fresh identifier referrer kind).MadeOf host m) → I s →
    I (s.add (.fresh identifier referrer kind)) ∧ new s.next
  record : ∀ s r (a : ModuleRecord σ η), I s → new r → s.record? r = some a → a.Within own new C
  modifyPhase : ∀ s r f, I s → new r → I (Linker.modifyPhaseIn s r f)
  addDependency : ∀ s r specifier dep, I s → new r → new dep →
    I (Linker.addDependencyIn s r specifier dep)
  foreign : host.Runs own (fun _ P p => Eff.Stays I P (p.run serve)) C
  call : ∀ c : Call, c.OnBehalf own new → Eff.Stays I (c.Gives new) (serve c)

namespace RunInvariant

variable {I : State σ η → Prop} {own : ContextId → Prop} {new : RecordId → Prop}
  {C : Compiled σ η → Prop} {host : Host σ η} {serve : (c : Call) → Eff σ η c.Reply}
  (h : RunInvariant I own new C host serve)

theorem ofExcept (o : Except Error α) :
    Eff.Stays I (fun _ => True) (Eff.ofExcept o : Eff σ η α) :=
  .ofExcept (Eff.answers_of_forall (fun _ => trivial) (fun _ => trivial) o)

theorem ofExcept_eq (o : Except Error α) :
    Eff.Stays I (o = .ok ·) (Eff.ofExcept o : Eff σ η α) := by
  cases o with
  | ok a => exact .pure rfl
  | error e => exact .fail trivial

include h

theorem emit {e : Event} (he : e.IsPassing) :
    Eff.Stays I (fun _ => True) (Eff.emit e : Eff σ η Unit) :=
  .modify fun s hs => h.passing s e he hs

theorem fetch (p : Path) :
    Eff.Stays I (host.files.read p = .ok ·) (Legacy.fetch host p) := by
  refine .bind (h.emit trivial) fun _ _ => ?_
  cases hread : host.files.read p with
  | ok text => exact .pure rfl
  | error e => exact .fail trivial

/-! #### Lookups -/

theorem runBody (p : Path) (text : String) (r : ExportsRef) :
    Eff.Stays I (fun _ => True) (Legacy.runBody host serve p text r) := by
  refine .bind (Script.keeps_exec (h.foreign.script _ _ rfl)).settle fun o _ => ?_
  cases o with
  | ok _ =>
      refine .bind .get fun s _ => ?_
      exact .bind (.modify fun t ht => h.leave t p (.ok _) ht) fun _ _ => .pure trivial
  | error e =>
      exact .bind (.modify fun t ht => h.leave t p (.error e) ht) fun _ _ => .fail trivial

theorem loadScript {p : Path} (hp : host.Finds p) (parent : Path) :
    Eff.Stays I (fun _ => True) (Legacy.loadScript host serve p parent) := by
  refine .bind (.modify fun s hs => h.addChild s parent p hs) fun _ _ => ?_
  refine .bind .get fun s _ => ?_
  cases s.cache.exports? p with
  | some exports => exact .pure trivial
  | none =>
      refine .bind (h.fetch p) fun text _ => ?_
      -- the object, the variable and the entry are three steps of the loader and one of its state
      intro t ht
      exact h.runBody p text ⟨t.exports.size⟩ (t.enter host p parent) (h.enter t p parent hp ht)

theorem loadJson (p parent : Path) :
    Eff.Stays I (fun _ => True) (Legacy.loadJson host p parent) := by
  refine .bind (.modify fun s hs => h.addChild s parent p hs) fun _ _ => ?_
  refine .bind .get fun s _ => ?_
  cases s.cache.exports? p with
  | some exports => exact .pure trivial
  | none =>
      refine .bind (h.fetch p) fun text _ => ?_
      cases Json.read? text with
      | none => exact .fail trivial
      | some json =>
          have hmake : Eff.Stays I (fun _ => True) (Eff.perform (.make (.ofJson json))) :=
            .of_runIn fun s hs => ⟨h.make s _ (Literal.plain_ofJson json) hs, trivial⟩
          refine .bind hmake fun value _ => ?_
          exact .bind (.modify fun s hs => h.parse s p parent value hs) fun _ _ => .pure trivial

theorem answering (p : Path) {x : Eff σ η Value} (hx : Eff.Stays I (fun _ => True) x) :
    Eff.Stays I (fun _ => True) (Legacy.answering p x) :=
  .bind hx fun _ _ => .bind (h.emit trivial) fun _ _ => .pure trivial

theorem provide {b : Registry (Provider σ η)} (hb : b ∈ [host.builtins, host.linkerBuiltins])
    (specifier : String) : Eff.Stays I (fun _ => True) (Legacy.provide serve b specifier) := by
  unfold Legacy.provide
  cases hp : b.find? specifier with
  | none => exact .fail trivial
  | some provider =>
      exact .bind (h.emit trivial) fun _ _ => h.foreign.provider b hb specifier provider hp

theorem load (call : LookupCall) : Eff.Stays I (fun _ => True) (Legacy.load host serve call) := by
  refine .bind (ofExcept_eq _) fun found hfound => ?_
  cases found with
  | builtin name => exact h.provide List.mem_cons_self name
  | script p => exact h.answering p (h.loadScript ⟨_, _, _, hfound, rfl⟩ call.parent)
  | json p => exact h.answering p (h.loadJson p call.parent)
  | native p => exact .fail trivial

theorem base (call : LookupCall) : Eff.Stays I (fun _ => True) (Legacy.base host serve call) := by
  refine .bind (h.emit trivial) fun _ _ => ?_
  cases hf : host.lookup? with
  | some f => exact Script.keeps_exec (h.foreign.lookup f hf call)
  | none => exact h.load call

theorem callback (event : Event) (he : event.IsPassing) (call : LookupCall)
    {f? : Option (LookupCall → Program σ η Unit)}
    (hf : ∀ f, f? = some f → Eff.Stays I (fun _ => True) ((f call).run serve)) :
    Eff.Stays I (fun _ => True) (Hook.callback serve event call f?) := by
  cases f? with
  | none => exact .pure trivial
  | some f => exact .bind (h.emit he) fun _ _ => hf f rfl

/-- What is done after a lookup however that has ended, unless it has not come to an end. -/
theorem after (outer : Layer η) (call : LookupCall) (o : Except Fault Value) :
    Eff.Stays I (fun _ => True) (do
      Hook.callback serve (.after outer.guard call) call (host.hook outer.hook).after?
      Eff.ofOutcome o) :=
  .bind (h.callback (.after outer.guard call) trivial call fun f hf =>
    h.foreign.after outer.hook f hf call) fun _ _ =>
    .of_runIn fun s hs => by
      rw [Eff.runIn_ofOutcome]
      exact ⟨hs, by
        match o with
        | .ok _ | .error (.error _) | .error (.panic _) | .error .outOfDepth => trivial⟩

theorem intercept (call : LookupCall) {x : Eff σ η Value} (hx : Eff.Stays I (fun _ => True) x)
    (layers : List (Layer η)) :
    Eff.Stays I (fun _ => True) (ModuleLoader.intercept host serve call x layers) := by
  induction layers with
  | nil => exact hx
  | cons outer inner ih =>
      have hbefore := h.callback (.before outer.guard call) trivial call fun f hf =>
        h.foreign.before outer.hook f hf call
      refine .bind hbefore fun _ _ => .bind_outcome ih rfl fun o _ => ?_
      match o with
      | .ok _ => exact h.after outer call _
      | .error (.error _) => exact h.after outer call _
      | .error (.panic _) => exact h.after outer call _
      | .error .outOfDepth => exact .outOfDepth _

theorem require (call : LookupCall) :
    Eff.Stays I (fun _ => True) (Legacy.require host serve call) :=
  .bind .get fun _ _ => h.intercept call (h.base call) _

/-! #### New records -/

section

variable {referrer : Referrer} (hown : own referrer.context)

include hown

theorem addRecord (identifier : String) {kind : ModuleKind σ η}
    (hk : ∀ m, kind = .source m →
      C m.compiled ∧ (ModuleRecord.fresh identifier referrer kind).MadeOf host m) :
    Eff.Stays I new (Linker.addRecord (.fresh identifier referrer kind)) :=
  .modifyGet fun s hs => h.add s identifier referrer kind hown hk hs

theorem buildSource (specifier : String) :
    Eff.Stays I new (Linker.buildSource host serve specifier referrer) := by
  refine .bind (ofExcept_eq _) fun p hp => .bind (h.fetch p) fun text htext => ?_
  cases hurl : p.fileUrl? with
  | none => exact .fail trivial
  | some url =>
      refine .bind (.modify fun s hs => h.compile s p.text url _ hown hs) fun _ _ => ?_
      refine .bind (Script.keeps_exec (h.foreign.compile text ⟨p.text, _, url⟩ hown)) fun c hc => ?_
      refine h.addRecord hown _ fun m hm => ?_
      cases hm
      exact ⟨hc, ⟨_, referrer, hp, rfl, rfl⟩, ⟨text, htext⟩, hurl, rfl⟩

omit hown in
theorem originOf (specifier : String) :
    Eff.Stays I (fun _ => True) (Linker.originOf host serve specifier referrer) := by
  unfold Linker.originOf
  split
  · exact .bind (h.provide (List.mem_cons_of_mem _ List.mem_cons_self) _) fun _ _ => .pure trivial
  · exact .bind (ofExcept _) fun p _ => .bind (h.require _) fun _ _ => .pure trivial

theorem buildSynthetic (specifier : String) :
    Eff.Stays I new (Linker.buildSynthetic host serve specifier referrer) := by
  refine .bind (h.originOf specifier) fun origin _ => .bind .get fun s _ => ?_
  exact h.addRecord hown _ fun m hm => by cases hm

theorem link (specifier : String) :
    Eff.Stays I new (Linker.link host serve specifier referrer) := by
  rw [Linker.link_eq_plan]
  refine .bind (ofExcept _) fun plan _ => ?_
  obtain ⟨dispatch, name⟩ := plan
  cases dispatch with
  | source => exact h.buildSource hown name
  | synthetic => exact h.buildSynthetic hown name

end

/-! #### Linking and evaluating -/

/-- A record that may be named is one that is known in what matters. -/
theorem recordAt {r : RecordId} (hr : new r) :
    Eff.Stays I (fun a => a.Within own new C) (Linker.recordAt r) := by
  refine .of_runIn fun s hs => ?_
  rcases Linker.runIn_recordAt_cases r s with ⟨a, ha, hrun⟩ | ⟨m, hrun⟩
  · rw [hrun]
    exact ⟨hs, h.record s r a hs hr ha⟩
  · rw [hrun]
    exact ⟨hs, trivial⟩

theorem stays_modifyPhase {r : RecordId} (hr : new r) (f : Phase → Phase) :
    Eff.Stays I (fun _ => True) (Linker.modifyPhase r f) :=
  .modify fun s hs => h.modifyPhase s r f hs hr

theorem transition {r : RecordId} (hr : new r) (status : Status) :
    Eff.Stays I (fun _ => True) (Linker.transition r status) := by
  refine .bind (h.recordAt hr) fun a _ => ?_
  split
  · exact h.stays_modifyPhase hr _
  · exact .fail trivial

theorem onBehalf {r : RecordId} (hr : new r) {work : Eff σ η α} {P : α → Prop}
    (hwork : Eff.Stays I P work) : Eff.Stays I P (Linker.onBehalf r work) := by
  refine .bind hwork.settle fun o ho => ?_
  cases o with
  | ok a => exact .pure ho
  | error e =>
      refine .bind (P := fun _ => True) (.bind (h.recordAt hr) fun a _ => ?_)
        fun _ _ => .fail trivial
      split
      · exact h.stays_modifyPhase hr _
      · exact .pure trivial

theorem linkRequests {r : RecordId} (hr : new r) {referrer : Referrer}
    (hown : own referrer.context) (specifiers : List String) :
    Eff.Stays I (fun _ => True) (Linker.linkRequests host serve r referrer specifiers) := by
  induction specifiers with
  | nil => exact .pure trivial
  | cons specifier rest ih =>
      refine .bind (h.link hown specifier) fun dep hdep => ?_
      refine .bind (h.call (.linkModule dep) hdep) fun _ _ => ?_
      exact .bind (.modify fun s hs => h.addDependency s r specifier dep hs hr hdep) fun _ _ => ih

theorem linkModule {r : RecordId} (hr : new r) :
    Eff.Stays I (fun _ => True) (Linker.linkModule host serve r) := by
  refine .bind (h.recordAt hr) fun a ha => ?_
  cases a.status with
  | unlinked =>
      refine .bind (h.transition hr _) fun _ _ => ?_
      exact .bind (h.onBehalf hr (h.linkRequests hr ha.1 _)) fun _ _ => h.transition hr _
  | linking => exact .fail trivial
  | errored => exact .fail trivial
  | linked => exact .pure trivial
  | evaluating => exact .pure trivial
  | evaluated => exact .pure trivial

theorem evaluateAll (imports : OrderedMap Namespace) (deps : List (String × RecordId))
    (hdeps : ∀ dep ∈ deps, new dep.2) :
    Eff.Stays I (fun _ => True) (Linker.evaluateAll serve imports deps) := by
  induction deps generalizing imports with
  | nil => exact .pure trivial
  | cons dep rest ih =>
      refine .bind (h.call (.evaluate dep.2) (hdeps dep List.mem_cons_self)) fun n _ => ?_
      exact ih _ fun d hd => hdeps d (List.mem_cons_of_mem _ hd)

theorem evaluateKind {r : RecordId} (hr : new r) {a : ModuleRecord σ η} (ha : a.Within own new C) :
    Eff.Stays I (fun _ => True) (Linker.evaluateKind serve r a) := by
  obtain ⟨hown, hbody, hdeps⟩ := ha
  unfold Linker.evaluateKind
  split
  · rename_i m hkind
    refine .bind (h.evaluateAll _ _ hdeps) fun imports _ => .bind (ofExcept _)
      fun importMeta _ => ?_
    refine .bind (.modify fun s hs => h.body s r _ hr hown rfl hs) fun _ _ => ?_
    exact Script.keeps_exec (h.foreign.body _ (hbody m hkind) _ hown rfl)
  · rename_i m hkind
    refine .bind .get fun s _ => ?_
    exact .of_runIn fun t ht => ⟨h.newNamespace t (m.snapshot s.heap) ht, trivial⟩

theorem evaluateAnew {r : RecordId} (hr : new r) {a : ModuleRecord σ η} (ha : a.Within own new C) :
    Eff.Stays I (fun _ => True) (Linker.evaluateAnew serve r a) := by
  refine .bind (h.transition hr _) fun _ _ => ?_
  refine .bind (h.onBehalf hr (h.evaluateKind hr ha)) fun n _ => ?_
  refine .bind (P := fun _ => True) (.bind (h.transition hr _) fun _ _ => ?_)
    fun _ _ => .pure trivial
  exact h.stays_modifyPhase hr _

theorem evaluate {r : RecordId} (hr : new r) :
    Eff.Stays I (fun _ => True) (Linker.evaluate serve r) := by
  refine .bind (h.recordAt hr) fun a ha => ?_
  cases a.status with
  | linked => exact h.evaluateAnew hr ha
  | evaluated =>
      cases a.phase.namespace? with
      | some n => exact .pure trivial
      | none => exact h.evaluateAnew hr ha
  | errored => exact .fail trivial
  | unlinked => exact .fail trivial
  | linking => exact .fail trivial
  | evaluating => exact .fail trivial

/-- Every call on behalf of the contexts keeps the property, and hands out new records only. -/
theorem answer (c : Call) (hc : c.OnBehalf own new) :
    Eff.Stays I (c.Gives new) (ModuleLoader.answer host serve c) := by
  have hgives {r : RecordId} (hr : new r) : ∀ x, x = r → new x := fun x hx => hx ▸ hr
  cases c with
  | require lookup => exact (h.require lookup).imp (fun _ h => h) fun _ _ _ hx => hx.elim
  | link specifier referrer =>
      exact (h.link hc specifier).imp (fun _ h => h) fun _ hr => hgives hr
  | buildSource specifier referrer =>
      exact (h.buildSource hc specifier).imp (fun _ h => h) fun _ hr => hgives hr
  | buildSynthetic specifier referrer =>
      exact (h.buildSynthetic hc specifier).imp (fun _ h => h) fun _ hr => hgives hr
  | linkModule r => exact (h.linkModule hc).imp (fun _ h => h) fun _ _ _ hx => hx.elim
  | evaluate r => exact (h.evaluate hc).imp (fun _ h => h) fun _ _ _ hx => hx.elim

end RunInvariant

/-- Calls of any depth keep what the loader's own steps keep. The properties may come in a family,
so that a call that nests in another can be told where the other began. -/
theorem runInvariant_serve {ι : Type} {I : ι → State σ η → Prop} {own : ContextId → Prop}
    {new : RecordId → Prop} {C : Compiled σ η → Prop} (host : Host σ η)
    (h : ∀ serve : (c : Call) → Eff σ η c.Reply,
      (∀ i (c : Call), c.OnBehalf own new → Eff.Stays (I i) (c.Gives new) (serve c)) →
      ∀ i, RunInvariant (I i) own new C host serve)
    (depth : Nat) (i : ι) (c : Call) (hc : c.OnBehalf own new) :
    Eff.Stays (I i) (c.Gives new) (serve host depth c) := by
  induction depth generalizing i c with
  | zero => exact .outOfDepth _
  | succ depth ih => exact (h _ ih i).answer c hc

/-! ### What everything keeps -/

structure Survives (I : State σ η → Prop) (host : Host σ η) : Prop where
  emit : ∀ s (e : Event), e.IsReport → I s → I (s.emit e)
  action : ∀ (a : Action σ η) s, I s → I (a.carryOut s).2
  addChild : ∀ s parent child, I s → I { s with cache := s.cache.addChild parent child }
  enter : ∀ s p parent, host.Finds p → I s → I (s.enter host p parent)
  leave : ∀ s p outcome, I s → I (s.leave p outcome)
  parse : ∀ s p parent value, I s → I (s.parse p parent value)
  add : ∀ s a, (∀ m, a.kind = .source m → a.MadeOf host m) → I s → I (s.add a)
  modifyRecord : ∀ s r f, (∀ a : ModuleRecord σ η, (f a).bare = a.bare) → I s →
    I (s.modifyRecord r f)

namespace Survives

variable {I : State σ η → Prop} {host : Host σ η} (h : Survives I host)

include h

theorem program {serve : (c : Call) → Eff σ η c.Reply}
    (hserve : ∀ c : Call, Eff.Stays I (fun _ => True) (serve c)) (p : Program σ η α) :
    Eff.Stays I (fun _ => True) (p.run serve) :=
  p.keeps_run h.action hserve _

theorem runInvariant {serve : (c : Call) → Eff σ η c.Reply}
    (hserve : ∀ c : Call, Eff.Stays I (fun _ => True) (serve c)) :
    RunInvariant I (fun _ => True) (fun _ => True) (fun _ => True) host serve where
  passing s e he := h.emit s e he.isReport
  compile s _ _ _ _ := h.emit s _ trivial
  body s _ _ _ _ _ := h.emit s _ trivial
  addChild := h.addChild
  enter := h.enter
  leave := h.leave
  parse := h.parse
  make s l _ := h.action (.make l) s
  newNamespace s exports := h.action (.newNamespace exports) s
  add s _ _ _ _ hmade hs := ⟨h.add s _ (fun m hm => (hmade m hm).2) hs, trivial⟩
  record _ _ _ _ _ _ := ⟨trivial, fun _ _ => trivial, fun _ _ => trivial⟩
  modifyPhase s r _ hs _ := h.modifyRecord s r _ (fun _ => rfl) hs
  addDependency s r _ _ hs _ _ := h.modifyRecord s r _ (fun _ => rfl) hs
  foreign := host.runs_of_forall _ fun _ _ p hP => (h.program hserve p).imp (fun _ h => h)
    fun a _ => hP a
  call c _ := (hserve c).imp (fun _ h => h) fun _ _ _ _ => trivial

theorem serve (depth : Nat) (c : Call) :
    Eff.Stays I (fun _ => True) (ModuleLoader.serve host depth c) := by
  have hall (c : Call) : c.OnBehalf (fun _ => True) fun _ => True := by cases c <;> trivial
  have hserve := runInvariant_serve (I :=
    fun _ : Unit => I) host (fun serve hserve _ => h.runInvariant fun c =>
    (hserve () c (hall c)).imp (fun _ h => h) fun _ _ => trivial) depth () c (hall c)
  exact hserve.imp (fun _ h => h) fun _ _ => trivial

theorem exec (depth : Nat) (p : Program σ η α) {s : State σ η} (hs : I s) :
    I (host.exec depth p s).2 :=
  (h.program (h.serve depth) p s hs).1

end Survives

/-! ### Records stay what they are -/

/-- A record that is there stays, and nothing about it ever changes but how far it has come. -/
theorem survives_bare (x : RecordId) (a : ModuleRecord σ η) (host : Host σ η) :
    Survives (fun s => ∃ b, s.record? x = some b ∧ b.bare = a) host where
  emit _ _ _ hs := hs
  action a s hs := by rwa [State.record?_congr (a.records_carryOut s)]
  addChild _ _ _ hs := hs
  enter _ _ _ _ hs := hs
  leave _ _ outcome hs := by cases outcome <;> exact hs
  parse _ _ _ _ hs := hs
  add s c _ hs := by
    obtain ⟨b, hb, hbare⟩ := hs
    have hne : x ≠ s.next := fun he => Nat.ne_of_lt (State.lt_of_record? hb) (by rw [he]; rfl)
    exact ⟨b, by rwa [State.record?_add, if_neg hne], hbare⟩
  modifyRecord s r f hf hs := by
    obtain ⟨b, hb, hbare⟩ := hs
    rw [State.record?_modifyRecord]
    split
    · exact ⟨f b, by rw [hb]; rfl, (hf b).trans hbare⟩
    · exact ⟨b, hb, hbare⟩

section

variable {host : Host σ η} {depth : Nat} {c : Call} {s t : State σ η} {o : Except Fault c.Reply}

/-- Whatever a call comes to, a record that was there is the same one afterwards. -/
theorem bare_of_serve (hrun : (serve host depth c).runIn s = (o, t)) {x : RecordId}
    {a : ModuleRecord σ η} (ha : s.record? x = some a) :
    ∃ b, t.record? x = some b ∧ b.bare = a.bare := by
  have hkept := ((survives_bare x a.bare host).serve depth c s ⟨a, ha, rfl⟩).1
  rwa [hrun] at hkept

theorem size_le_of_serve (hrun : (serve host depth c).runIn s = (o, t)) :
    s.records.size ≤ t.records.size := by
  refine Nat.le_of_not_lt fun hlt => ?_
  obtain ⟨a, ha⟩ := State.exists_record? (r := ⟨t.records.size⟩) hlt
  obtain ⟨b, hb, -⟩ := bare_of_serve hrun ha
  exact Nat.lt_irrefl _ (State.lt_of_record? hb)

end

end ModuleLoader
