import ModuleLoader.Proofs.Natives
import ModuleLoader.Proofs.Origin
import ModuleLoader.Proofs.Refusal
/-!
What the loader's own code keeps between the calls that move records.

Looking up, reading, compiling, wrapping and running through hooks make up most
of the loader, and hardly anything that is promised of records depends on them.
They add new records, and for the rest they touch the cache, the heap and the
log. So all of it is gone through once, for a property of states that is left
open: if the programs of others keep the property, if adding a record keeps it,
and if it looks at nothing but the records, the native functions and the bodies
that were run, then every lookup and every link keeps it. That is `LoadInvariant`,
and `LoadInvariant.require` and `LoadInvariant.link` are what comes of it.

Linking and evaluating a record are left out, because these do move records.
-/

namespace ModuleLoader

variable {σ η α β : Type}

/-! ### What the statements about records look at -/

def Event.evaluation? : Event → Option (RecordId × ModuleEnvironment)
  | .evaluate r env => some (r, env)
  | _ => none

def Trace.evaluations (t : Trace) : List (RecordId × ModuleEnvironment) :=
  t.toList.filterMap Event.evaluation?

theorem Trace.evaluations_push (t : Trace) (e : Event) :
    Trace.evaluations (t.push e) = t.evaluations ++ e.evaluation?.toList := by
  cases h : e.evaluation? <;> simp [Trace.evaluations, h]

theorem Trace.evaluations_emit (s : State σ η) {e : Event} (h : e.evaluation? = none) :
    (s.emit e).trace.evaluations = s.trace.evaluations := by
  simp [State.emit, Trace.evaluations_push, h]

/-- The records, the native functions, the bodies that were run, and what the code of others
remembers. -/
def State.core (s : State σ η) :
    Array (ModuleRecord σ η) × Array NativeCode × List (RecordId × ModuleEnvironment) × σ :=
  (s.records, s.heap.functions, s.trace.evaluations, s.store)

theorem State.core_emit {s : State σ η} {e : Event} (h : e.evaluation? = none) :
    (s.emit e).core = s.core := by
  rw [State.core, Trace.evaluations_emit s h]
  rfl

theorem State.core_make {l : Literal} (hl : l.Plain) (s : State σ η) :
    ((Action.make l).carryOut s).2.core = s.core := by
  change (s.records, (l.make s.heap).2.functions, s.trace.evaluations, s.store) = _
  rw [hl]
  rfl

theorem Action.records_carryOut (a : Action σ η) (s : State σ η) :
    (a.carryOut s).2.records = s.records := by
  cases a <;> rfl

theorem Action.evaluations_carryOut (a : Action σ η) (s : State σ η) :
    (a.carryOut s).2.trace.evaluations = s.trace.evaluations := by
  cases a with
  | note line => exact Trace.evaluations_emit s rfl
  | writeExports r value => exact Trace.evaluations_emit { s with exports := _ } rfl
  | evict p => exact Trace.evaluations_emit { s with cache := _ } rfl
  | _ => rfl

/-! ### The programs of others -/

structure Host.Every (host : Host σ η) (Q : (α : Type) → (α → Prop) → Program σ η α → Prop)
    (E : Error → Prop) (C : Compiled σ η → Prop) : Prop where
  compile : ∀ text options, Q _ (Eff.Answers E C) (host.compile text options).run
  script : ∀ text m, Q _ (Eff.Answers E fun _ => True) (host.runScript text m).run
  lookup : ∀ f, host.lookup? = some f → ∀ call, Q _ (Eff.Answers E fun _ => True) (f call).run
  provider : ∀ b ∈ [host.builtins, host.linkerBuiltins], ∀ name p, b.find? name = some p →
    Q _ (fun _ => True) p
  before : ∀ h f, (host.hook h).before? = some f → ∀ call, Q _ (fun _ => True) (f call)
  after : ∀ h f, (host.hook h).after? = some f → ∀ call, Q _ (fun _ => True) (f call)

/-- What holds of every program, whatever its results are to be, holds of the host's. -/
theorem Host.every_of_forall (host : Host σ η)
    {Q : (α : Type) → (α → Prop) → Program σ η α → Prop} {E : Error → Prop}
    {C : Compiled σ η → Prop} (h : ∀ (α : Type) (P : α → Prop) p, (∀ a, P a) → Q α P p)
    (hE : ∀ e, E e) (hC : ∀ c, C c) : host.Every Q E C where
  compile _ _ := h _ _ _ (Eff.answers_of_forall hE hC)
  script _ _ := h _ _ _ (Eff.answers_of_forall hE fun _ => trivial)
  lookup _ _ _ := h _ _ _ (Eff.answers_of_forall hE fun _ => trivial)
  provider _ _ _ _ _ := h _ _ _ fun _ => trivial
  before _ _ _ _ := h _ _ _ fun _ => trivial
  after _ _ _ _ := h _ _ _ fun _ => trivial

theorem Host.Every.imp {host : Host σ η} {Q R : (α : Type) → (α → Prop) → Program σ η α → Prop}
    {E : Error → Prop} {C : Compiled σ η → Prop} (h : host.Every Q E C)
    (hQ : ∀ α P p, Q α P p → R α P p) : host.Every R E C where
  compile text options := hQ _ _ _ (h.compile text options)
  script text m := hQ _ _ _ (h.script text m)
  lookup f hf call := hQ _ _ _ (h.lookup f hf call)
  provider b hb name p hp := hQ _ _ _ (h.provider b hb name p hp)
  before x f hf call := hQ _ _ _ (h.before x f hf call)
  after x f hf call := hQ _ _ _ (h.after x f hf call)

section

variable {I : State σ η → Prop} {E : Error → Prop} {P : α → Prop} {C : Compiled σ η → Prop}
  {F : RecordId → Prop} {serve serve' : (c : Call) → Eff σ η c.Reply}

/-- A program keeps what its actions and its calls keep. It cannot fail, since every failure of a
call comes back to it as a value. -/
theorem Program.keeps_run (hact : ∀ (a : Action σ η) s, I s → I (a.carryOut s).2)
    (hserve : ∀ c, Eff.Keeps I E (fun _ => True) (serve c) (serve' c)) (p : Program σ η α)
    (E' : Error → Prop) : Eff.Keeps I E' (fun _ => True) (p.run serve) (p.run serve') := by
  induction p with
  | done a => exact .pure trivial
  | panic m => exact .panic m
  | act a next ih =>
      refine .bind (P := fun _ => True) (.of_runIn fun s hs => ⟨hact a s hs, trivial⟩) ?_
      exact fun r _ => ih r
  | call c next ih => exact .bind (hserve c).settle fun r _ => ih r

theorem Script.keeps_exec {s : Script σ η α}
    (h : Eff.Keeps I E (Eff.Answers E P) (Program.run serve s.run) (Program.run serve' s.run)) :
    Eff.Keeps I E P (s.exec serve) (s.exec serve') :=
  .bind h fun _ ho => .ofExcept ho

/-! ### The code in between -/

/-- What the code between the calls rests on: the property looks at the core of a state only, it
survives a new record, and the programs of others keep it. A new record has a name of which `F`
holds, and if it is made from source then the source is one of which `C` holds. -/
structure LoadInvariant (I : State σ η → Prop) (E : Error → Prop) (C : Compiled σ η → Prop)
    (F : RecordId → Prop) (host : Host σ η) (serve serve' : (c : Call) → Eff σ η c.Reply) :
    Prop where
  core : ∀ s t : State σ η, t.core = s.core → I s → I t
  error : ∀ e : Error, e.IsPlain → E e
  add : ∀ s identifier referrer (kind : ModuleKind σ η), I s →
    (∀ m, kind = .source m → C m.compiled) →
    I (s.add (.fresh identifier referrer kind)) ∧ F ⟨s.records.size⟩
  foreign : host.Every
    (fun _ P p => ∀ E', Eff.Keeps I E' P (p.run serve) (p.run serve')) E C

namespace LoadInvariant

variable {host : Host σ η} (h : LoadInvariant I E C F host serve serve')

include h

theorem emit {e : Event} (he : e.evaluation? = none) :
    Eff.Keeps I E (fun _ => True) (Eff.emit e : Eff σ η Unit) (Eff.emit e) :=
  .of_runIn fun s hs => ⟨h.core s _ (State.core_emit he) hs, trivial⟩

theorem ofExcept {o : Except Error α} (ho : FailsPlainly o) :
    Eff.Keeps I E (fun _ => True) (Eff.ofExcept o : Eff σ η α) (Eff.ofExcept o) := by
  refine .ofExcept ?_
  cases o with
  | ok a => trivial
  | error e => exact h.error e ho

theorem modifyCache (f : Cache → Cache) :
    Eff.Keeps I E (fun _ => True) (Legacy.modifyCache f : Eff σ η Unit) (Legacy.modifyCache f) :=
  .modify fun s hs => h.core s _ rfl hs

theorem record {e : Event} (he : e.evaluation? = none) (f : Cache → Cache) :
    Eff.Keeps I E (fun _ => True) (Legacy.record e f : Eff σ η Unit) (Legacy.record e f) :=
  .modify fun s hs => h.core s _ (State.core_emit he) hs

theorem fetch (p : Path) :
    Eff.Keeps I E (fun _ => True) (Legacy.fetch host p) (Legacy.fetch host p) := by
  refine .bind (h.emit rfl) fun _ _ => ?_
  cases host.files.read p with
  | ok text => exact .pure trivial
  | error e => exact .fail (h.error _ trivial)

theorem newExports :
    Eff.Keeps I E (fun _ => True) (Legacy.newExports : Eff σ η (Value × ExportsRef))
      Legacy.newExports :=
  .modifyGet fun s hs => ⟨h.core s _ rfl hs, trivial⟩

/-! ### Lookups -/

theorem runBody (p : Path) (text : String) (r : ExportsRef) :
    Eff.Keeps I E (fun _ => True) (Legacy.runBody host serve p text r)
      (Legacy.runBody host serve' p text r) := by
  refine .bind (Script.keeps_exec (h.foreign.script _ _ _)).settle fun o ho => ?_
  cases o with
  | ok _ =>
      refine .bind .get fun s _ => ?_
      exact .bind (h.record rfl _) fun _ _ => .pure trivial
  | error e => exact .bind (h.record rfl _) fun _ _ => .fail ho

theorem loadScript (p parent : Path) :
    Eff.Keeps I E (fun _ => True) (Legacy.loadScript host serve p parent)
      (Legacy.loadScript host serve' p parent) := by
  refine .bind (h.modifyCache _) fun _ _ => ?_
  refine .bind .get fun s _ => ?_
  cases s.cache.exports? p with
  | some exports => exact .pure trivial
  | none =>
      refine .bind (h.fetch p) fun text _ => ?_
      refine .bind h.newExports fun start _ => ?_
      exact .bind (h.record rfl _) fun _ _ => h.runBody _ _ _

theorem loadJson (p parent : Path) :
    Eff.Keeps I E (fun _ => True) (Legacy.loadJson host p parent)
      (Legacy.loadJson host p parent) := by
  refine .bind (h.modifyCache _) fun _ _ => ?_
  refine .bind .get fun s _ => ?_
  cases s.cache.exports? p with
  | some exports => exact .pure trivial
  | none =>
      refine .bind (h.fetch p) fun text _ => ?_
      cases Json.read? text with
      | none => exact .fail (h.error _ trivial)
      | some json =>
          have hmake : Eff.Keeps I E (fun _ => True) (Eff.perform (.make (.ofJson json)))
              (Eff.perform (.make (.ofJson json))) := .of_runIn fun s hs =>
            ⟨h.core s _ (State.core_make (Literal.plain_ofJson json) s) hs, trivial⟩
          refine .bind hmake fun value _ => ?_
          exact .bind (h.record rfl _) fun _ _ => .pure trivial

theorem answering (p : Path) {x y : Eff σ η Value} (hxy : Eff.Keeps I E (fun _ => True) x y) :
    Eff.Keeps I E (fun _ => True) (Legacy.answering p x) (Legacy.answering p y) :=
  .bind hxy fun _ _ => .bind (h.emit rfl) fun _ _ => .pure trivial

theorem provide {b : Registry (Provider σ η)} (hb : b ∈ [host.builtins, host.linkerBuiltins])
    (specifier : String) :
    Eff.Keeps I E (fun _ => True) (Legacy.provide serve b specifier)
      (Legacy.provide serve' b specifier) := by
  unfold Legacy.provide
  cases hp : b.find? specifier with
  | none => exact .fail (h.error _ trivial)
  | some provider =>
      exact .bind (h.emit rfl) fun _ _ => h.foreign.provider b hb specifier provider hp E

theorem load (call : LookupCall) :
    Eff.Keeps I E (fun _ => True) (Legacy.load host serve call) (Legacy.load host serve' call) := by
  refine .bind (h.ofExcept (RequireId.plain_resolve _ _ _ _)) fun found _ => ?_
  cases found with
  | builtin name => exact h.provide List.mem_cons_self name
  | script p => exact h.answering p (h.loadScript p call.parent)
  | json p => exact h.answering p (h.loadJson p call.parent)
  | native p => exact .fail (h.error _ trivial)

theorem base (call : LookupCall) :
    Eff.Keeps I E (fun _ => True) (Legacy.base host serve call) (Legacy.base host serve' call) := by
  refine .bind (h.emit rfl) fun _ _ => ?_
  cases hf : host.lookup? with
  | some f => exact Script.keeps_exec (h.foreign.lookup f hf call _)
  | none => exact h.load call

theorem callback {event : Event} (he : event.evaluation? = none) (call : LookupCall)
    {f? : Option (LookupCall → Program σ η Unit)}
    (hf : ∀ f, f? = some f → Eff.Keeps I E (fun _ => True) ((f call).run serve)
      ((f call).run serve')) :
    Eff.Keeps I E (fun _ => True) (Hook.callback serve event call f?)
      (Hook.callback serve' event call f?) := by
  cases f? with
  | none => exact .pure trivial
  | some f => exact .bind (h.emit he) fun _ _ => hf f rfl

theorem intercept (call : LookupCall) {x y : Eff σ η Value}
    (hxy : Eff.Keeps I E (fun _ => True) x y) (layers : List (Layer η)) :
    Eff.Keeps I E (fun _ => True) (ModuleLoader.intercept host serve call x layers)
      (ModuleLoader.intercept host serve' call y layers) := by
  induction layers with
  | nil => exact hxy
  | cons outer inner ih =>
      refine .bind (h.callback rfl call fun f hf => h.foreign.before _ f hf call E) fun _ _ => ?_
      refine .bind_outcome ih rfl fun o ho => ?_
      have hafter : Eff.Keeps I E (fun _ => True)
          (do Hook.callback serve (.after outer.guard call) call (host.hook outer.hook).after?
              Eff.ofOutcome o)
          (do Hook.callback serve' (.after outer.guard call) call (host.hook outer.hook).after?
              Eff.ofOutcome o) :=
        .bind (h.callback rfl call fun f hf => h.foreign.after _ f hf call E) fun _ _ =>
          .of_runIn fun s hs => ⟨by simpa using hs, by simpa using ho⟩
      -- the match on the end tells nothing but want of depth from the rest
      match o with
      | .ok _ => exact hafter
      | .error (.error _) => exact hafter
      | .error (.panic _) => exact hafter
      | .error .outOfDepth => exact .outOfDepth _

/-- Every lookup keeps what the programs of others keep. -/
theorem require (call : LookupCall) :
    Eff.Keeps I E (fun _ => True) (Legacy.require host serve call)
      (Legacy.require host serve' call) :=
  .bind .get fun _ _ => h.intercept call (h.base call) _

/-! ### New records -/

theorem addRecord (identifier : String) (referrer : Referrer) {kind : ModuleKind σ η}
    (hk : ∀ m, kind = .source m → C m.compiled) :
    Eff.Keeps I E F (Linker.addRecord (.fresh identifier referrer kind))
      (Linker.addRecord (.fresh identifier referrer kind)) :=
  .modifyGet fun s hs => h.add s identifier referrer kind hs hk

theorem buildSource (specifier : String) (referrer : Referrer) :
    Eff.Keeps I E F (Linker.buildSource host serve specifier referrer)
      (Linker.buildSource host serve' specifier referrer) := by
  refine .bind (h.ofExcept (Linker.plain_resolveFile _ _ _)) fun p _ => ?_
  refine .bind (h.fetch p) fun text _ => ?_
  cases p.fileUrl? with
  | none => exact .fail (h.error _ trivial)
  | some url =>
      refine .bind (h.emit rfl) fun _ _ => ?_
      refine .bind (Script.keeps_exec (h.foreign.compile _ _ _)) fun compiled hc => ?_
      exact h.addRecord _ _ fun m hm => by cases hm; exact hc

theorem originOf (specifier : String) (referrer : Referrer) :
    Eff.Keeps I E (fun _ => True) (Linker.originOf host serve specifier referrer)
      (Linker.originOf host serve' specifier referrer) := by
  unfold Linker.originOf
  split
  · exact .bind (h.provide (List.mem_cons_of_mem _ List.mem_cons_self) _) fun _ _ => .pure trivial
  · refine .bind (h.ofExcept (Linker.plain_resolveFile _ _ _)) fun p _ => ?_
    exact .bind (h.require _) fun _ _ => .pure trivial

theorem buildSynthetic (specifier : String) (referrer : Referrer) :
    Eff.Keeps I E F (Linker.buildSynthetic host serve specifier referrer)
      (Linker.buildSynthetic host serve' specifier referrer) := by
  refine .bind (h.originOf specifier referrer) fun origin _ => ?_
  refine .bind .get fun s _ => ?_
  exact h.addRecord _ _ fun m hm => by cases hm

theorem buildAt (hcircular : ∀ chain, E (.circularImport chain)) (specifier : String)
    (referrer : Referrer) (p : Path) :
    Eff.Keeps I E F (Linker.buildAt host serve specifier referrer p)
      (Linker.buildAt host serve' specifier referrer p) := by
  refine .bind (h.ofExcept (Config.plain_detect _ _ _)) fun dispatch _ => ?_
  match dispatch with
  | some .source =>
      dsimp only
      split
      · exact .fail (hcircular _)
      · exact h.buildSource _ _
  | some .synthetic => exact h.buildSynthetic _ _
  | none => exact .fail (h.error _ trivial)

/-- Linking a specifier keeps what the programs of others keep, and the name of the new record is
one of which `F` holds. -/
theorem link (hcircular : ∀ chain, E (.circularImport chain)) (specifier : String)
    (referrer : Referrer) :
    Eff.Keeps I E F (Linker.link host serve specifier referrer)
      (Linker.link host serve' specifier referrer) := by
  unfold Linker.link
  split
  · exact h.buildSynthetic _ _
  · refine .bind (h.ofExcept (Linker.plain_resolve _ _ _)) fun location _ => ?_
    cases location.path? with
    | some p => exact h.buildAt hcircular _ _ p
    | none => exact h.buildSynthetic _ _

/-- The last thing that is done to build a source record is to add it, and the property holds until
then. -/
theorem before_buildSource {specifier : String} {referrer : Referrer} {s t : State σ η}
    {r : RecordId} (hs : I s)
    (hrun : (Linker.buildSource host serve specifier referrer).runIn s = (.ok r, t)) :
    ∃ (m : State σ η) (name : String) (kind : ModuleKind σ η), I m ∧ r = m.next ∧
      t = m.add (.fresh name referrer kind) := by
  obtain ⟨p, _, hp, hrun⟩ := Eff.runIn_bind_eq_ok.1 hrun
  obtain ⟨-, rfl⟩ := Eff.runIn_ofExcept_eq_ok.1 hp
  obtain ⟨text, m, htext, hrun⟩ := Eff.runIn_bind_eq_ok.1 hrun
  have hm := ((h.fetch p).of_eq_ok hs htext).1
  cases hurl : p.fileUrl? with
  | none => simp [hurl] at hrun
  | some url =>
      rw [hurl] at hrun
      obtain ⟨_, m', hemit, hrun⟩ := Eff.runIn_bind_eq_ok.1 hrun
      have hm' := ((h.emit rfl).of_eq_ok hm hemit).1
      obtain ⟨compiled, m'', hcompile, hrun⟩ := Eff.runIn_bind_eq_ok.1 hrun
      have hkeeps := Script.keeps_exec (h.foreign.compile text ⟨p.text, referrer.context, url⟩ E)
      have hm'' := (hkeeps.of_eq_ok hm' hcompile).1
      rw [Linker.runIn_addRecord, Prod.mk.injEq, Except.ok.injEq] at hrun
      exact ⟨m'', _, _, hm'', hrun.1.symm, hrun.2.symm⟩

/-- The last thing that a link does is to add its record, and the property holds until then. -/
theorem before_link {specifier : String} {referrer : Referrer} {s t : State σ η} {r : RecordId}
    (hs : I s) (hrun : (Linker.link host serve specifier referrer).runIn s = (.ok r, t)) :
    ∃ (m : State σ η) (name : String) (kind : ModuleKind σ η), I m ∧ r = m.next ∧
      t = m.add (.fresh name referrer kind) := by
  rw [Linker.link_eq_plan] at hrun
  obtain ⟨⟨dispatch, specifier⟩, _, hplan, hrun⟩ := Eff.runIn_bind_eq_ok.1 hrun
  obtain ⟨-, rfl⟩ := Eff.runIn_ofExcept_eq_ok.1 hplan
  cases dispatch with
  | source => exact h.before_buildSource hs hrun
  | synthetic =>
      obtain ⟨⟨name, origin⟩, m, horigin, hrun⟩ := Eff.runIn_bind_eq_ok.1 hrun
      have hm := ((h.originOf specifier referrer).of_eq_ok hs horigin).1
      obtain ⟨_, _, hget, hrun⟩ := Eff.runIn_bind_eq_ok.1 hrun
      rw [Eff.runIn_get, Prod.mk.injEq] at hget
      obtain ⟨-, rfl⟩ := hget
      rw [Linker.runIn_addRecord, Prod.mk.injEq, Except.ok.injEq] at hrun
      exact ⟨m, _, _, hm, hrun.1.symm, hrun.2.symm⟩

end LoadInvariant

end

end ModuleLoader
