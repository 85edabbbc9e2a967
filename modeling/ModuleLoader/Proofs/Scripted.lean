import ModuleLoader.Proofs.ContextRuns
import ModuleLoader.Scripted.Run
/-!
What scripted worlds ask of the linker.

The language of scripts has no word for a record. A module body comes upon one
only by importing a module, and then what it evaluates is what it has linked, so
that whatever a script says it asks for nothing that it was not handed. It has no
word for a context either, and imports only for the one in whose name its body is
run. What hooks remember are guards and no records. Only a probe is given a record
by name, and that is one that was there before.
-/

namespace ModuleLoader

namespace Scripted

variable {α β : Type} {own : ContextId → Prop} {known : RecordId → Prop} {P : α → Prop}
  {Q : β → Prop}

def NamesNone (_ : Session) (_ : RecordId) : Prop := False

/-- The routine evaluates only known records and comes back for no other contexts. -/
structure AsksWithin (own : ContextId → Prop) (known : RecordId → Prop) (P : α → Prop)
    (p : Routine α) : Prop where
  evaluatesKnown : p.EvaluatesKnown NamesNone P known
  onBehalf : p.OnBehalf own P known

/-- What the code does is within the same bounds, and it may fail. -/
abbrev CodeAsksWithin (own : ContextId → Prop) (known : RecordId → Prop) (P : α → Prop)
    (c : Code α) : Prop :=
  AsksWithin own known (Eff.Answers (fun _ => True) P) c.run

theorem AsksWithin.ofAll {p : Routine α} (hp : AsksWithin (fun _ => True) known P p) :
    p.EvaluatesKnown NamesNone P known :=
  hp.evaluatesKnown

/-! ### Putting routines together -/

theorem AsksWithin.bind {p : Routine α} {f : α → Routine β} (hp : AsksWithin own known P p)
    (hf : ∀ a, P a → AsksWithin own known Q (f a)) : AsksWithin own known Q (p >>= f) where
  evaluatesKnown := Program.EvaluatesAmong.bind hp.evaluatesKnown
    fun a ha => (hf a ha).evaluatesKnown
  onBehalf := Program.OnBehalf.bind hp.onBehalf fun a ha => (hf a ha).onBehalf

theorem AsksWithin.pure {a : α} (ha : P a) : AsksWithin own known P (pure a : Routine α) := ⟨ha, ha⟩

theorem AsksWithin.perform (a : Action Session HookPlan) (ha : a.Within NamesNone known) :
    AsksWithin own known (fun _ => True) (Program.perform a) :=
  ⟨⟨ha.mono fun _ => Or.inl, fun _ => trivial⟩, fun _ => trivial⟩

theorem AsksWithin.modifyStore (f : Session → Session) :
    AsksWithin own known (fun _ => True) (Program.perform (.modifyStore f)) :=
  .perform _ fun _ _ hx => hx.elim

theorem AsksWithin.attempt {c : Call} (hc : c.OnBehalf own known) :
    AsksWithin own known (fun _ => True) (Program.attempt c) where
  evaluatesKnown := by
    refine ⟨fun x hx => Or.inl ?_, fun _ => trivial⟩
    subst hx
    exact hc
  onBehalf := ⟨hc, fun _ => trivial⟩

/-! ### Putting code together -/

theorem CodeAsksWithin.bind {c : Code α} {f : α → Code β} (hc : CodeAsksWithin own known P c)
    (hf : ∀ a, P a → CodeAsksWithin own known Q (f a)) : CodeAsksWithin own known Q (c >>= f) := by
  refine AsksWithin.bind hc fun o ho => ?_
  cases o with
  | ok a => exact hf a ho
  | error e => exact .pure trivial

theorem CodeAsksWithin.pure {a : α} (ha : P a) : CodeAsksWithin own known P (pure a) :=
  AsksWithin.pure ha

theorem CodeAsksWithin.throw (e : Error) : CodeAsksWithin own known P (throw e : Code α) :=
  AsksWithin.pure trivial

theorem CodeAsksWithin.attempt {c : Code α} (hc : CodeAsksWithin own known P c) :
    CodeAsksWithin own known (fun _ => True) c.attempt :=
  AsksWithin.bind hc fun _ _ => .pure trivial

theorem asksWithin_perform (a : Action Session HookPlan) (ha : a.Within NamesNone known) :
    CodeAsksWithin own known (fun _ => True) (Script.perform a) :=
  AsksWithin.bind (.perform a ha) fun _ _ => .pure trivial

theorem asksWithin_ofExcept (o : Except Error α) :
    CodeAsksWithin own known (fun _ => True) (Script.ofExcept o) := by
  cases o with
  | ok a => exact .pure trivial
  | error e => exact .throw e

/-! ### Expressions -/

theorem asksWithin_use (s : Operand) : CodeAsksWithin own known (fun _ => True) (use s) := by
  cases s with
  | none => exact .throw _
  | some s => exact .pure trivial

theorem asksWithin_getProperty (v : Value) (key : String) :
    CodeAsksWithin own known (fun _ => True) (getProperty v key) := by
  cases v with
  | object o => exact (asksWithin_perform (.properties o) trivial).bind fun _ _ => .pure trivial
  | _ => exact .pure trivial

theorem asksWithin_ownKeys (v : Value) : CodeAsksWithin own known (fun _ => True) (ownKeys v) := by
  cases v with
  | object o => exact (asksWithin_perform (.properties o) trivial).bind fun _ _ => .pure trivial
  | _ => exact .pure trivial

theorem asksWithin_globalObject (frame : Frame) :
    CodeAsksWithin own known (fun _ => True) (globalObject frame) :=
  asksWithin_perform (.globalObject frame.around.context) trivial

theorem asksWithin_newObject (pairs : List (String × Value)) :
    CodeAsksWithin own known (fun _ => True) (newObject pairs) := by
  unfold newObject
  exact asksWithin_perform (.make _) trivial

theorem asksWithin_aboutSelf (around : Surroundings) (key : String) :
    CodeAsksWithin own known (fun _ => True) (aboutSelf around key) := by
  unfold aboutSelf
  split
  · split
    · exact .pure trivial
    · exact .pure trivial
    · exact .pure trivial
    · exact asksWithin_perform (.make _) trivial
    · exact (asksWithin_ofExcept _).bind fun _ _ => .pure trivial
  · split
    · exact .pure trivial
    · exact .pure trivial
    · exact .throw _

mutual

theorem asksWithin_eval (frame : Frame) (e : Expr) :
    CodeAsksWithin own known (fun _ => True) (eval frame e) := by
  match e with
  | .literal l =>
      rw [eval]
      exact asksWithin_perform (.make l) trivial
  | .globalName name =>
      rw [eval]
      refine (asksWithin_use name).bind
        fun name _ => (asksWithin_globalObject frame).bind fun o _ => ?_
      exact asksWithin_getProperty _ name
  | .binding name =>
      rw [eval]
      refine (asksWithin_use name).bind fun name _ => ?_
      split
      · exact .pure trivial
      · exact .throw _
  | .member e key =>
      rw [eval]
      exact (asksWithin_eval frame e).bind fun v _ => (asksWithin_use key).bind
        fun key _ => asksWithin_getProperty v key
  | .object fields =>
      rw [eval]
      exact (asksWithin_evalFields frame fields).bind fun pairs _ => asksWithin_newObject pairs
  | .typeName e =>
      rw [eval]
      exact (asksWithin_eval frame e).bind fun _ _ => .pure trivial
  | .same a b =>
      rw [eval]
      exact (asksWithin_eval frame a).bind fun _ _ => (asksWithin_eval frame b).bind
        fun _ _ => .pure trivial
  | .add a b =>
      rw [eval]
      exact (asksWithin_eval frame a).bind fun _ _ => (asksWithin_eval frame b).bind
        fun _ _ => .pure trivial
  | .concat parts =>
      rw [eval]
      exact (asksWithin_evalAll frame parts).bind fun _ _ => .pure trivial
  | .keys e =>
      rw [eval]
      exact (asksWithin_eval frame e).bind fun v _ => (asksWithin_ownKeys v).bind
        fun _ _ => .pure trivial
  | .exports =>
      rw [eval]
      exact .pure trivial
  | .imports =>
      rw [eval]
      exact .pure trivial
  | .about key =>
      rw [eval]
      exact (asksWithin_use key).bind fun key _ => asksWithin_aboutSelf frame.around key
  | .importer =>
      rw [eval]
      exact .pure trivial
  | .bad =>
      rw [eval]
      exact .throw _

theorem asksWithin_evalAll (frame : Frame) (es : List Expr) :
    CodeAsksWithin own known (fun _ => True) (evalAll frame es) := by
  match es with
  | [] =>
      rw [evalAll]
      exact .pure trivial
  | e :: rest =>
      rw [evalAll]
      exact (asksWithin_eval frame e).bind fun _ _ => (asksWithin_evalAll frame rest).bind
        fun _ _ => .pure trivial

theorem asksWithin_evalFields (frame : Frame) (fields : List (Operand × Expr)) :
    CodeAsksWithin own known (fun _ => True) (evalFields frame fields) := by
  match fields with
  | [] =>
      rw [evalFields]
      exact .pure trivial
  | (key, e) :: rest =>
      rw [evalFields]
      refine (asksWithin_use key).bind fun _ _ => (asksWithin_eval frame e).bind fun _ _ => ?_
      exact (asksWithin_evalFields frame rest).bind fun _ _ => .pure trivial

end

/-! ### Statements -/

theorem asksWithin_bind (frame : Frame) (binding : Operand) (v : Value) :
    CodeAsksWithin own known (·.around = frame.around) (frame.bind binding v) :=
  (asksWithin_use binding).bind fun _ _ => .pure rfl

theorem CodeAsksWithin.orBrief {P : Value → Prop} {c : Code Value}
    (hc : CodeAsksWithin own known P c) :
    CodeAsksWithin own known (fun _ => True) (orBrief c) := by
  refine hc.attempt.bind fun o _ => ?_
  cases o with
  | ok v => exact .pure trivial
  | error e => exact .pure trivial

theorem asksWithin_importValue {env : ModuleEnvironment} (henv : own env.importer.context)
    (specifier : String) : CodeAsksWithin own known (fun _ => True)
    (importValue env specifier) := by
  have himport :
      CodeAsksWithin own known (fun _ => True) (Script.importModule env.importer specifier) := {
    evaluatesKnown := Script.evaluatesKnown_importModule env.importer specifier
    onBehalf := Script.onBehalf_importModule henv specifier
      (Eff.answers_of_forall (fun _ => trivial) fun _ => trivial) }
  exact himport.bind fun _ _ => .pure trivial

theorem asksWithin_requireValue (m : ScriptModule) (id : String) :
    CodeAsksWithin own known (fun _ => True) (requireValue m id) where
  evaluatesKnown := ⟨fun _ hx => Call.noConfusion hx, fun o => by cases o <;> trivial⟩
  onBehalf := ⟨trivial, fun o => by cases o <;> trivial⟩

theorem asksWithin_exportsObject (frame : Frame) :
    CodeAsksWithin own known (·.1.around = frame.around) (exportsObject frame) := by
  unfold exportsObject
  split
  · exact .pure rfl
  · refine (asksWithin_newObject []).bind fun v _ => ?_
    split
    · exact .pure rfl
    · exact .pure rfl

def Surroundings.Within (own : ContextId → Prop) : Surroundings → Prop
  | module env => own env.importer.context
  | script _ => True

section

variable {frame : Frame}

theorem asksWithin_exec_staticImport (specifier : Operand) (binding? : Option Operand) :
    CodeAsksWithin own known (·.around = frame.around)
      (exec frame (.staticImport specifier binding?)) := by
  rw [exec]
  split
  · exact .throw _
  · refine (asksWithin_use specifier).bind fun specifier _ => ?_
    split
    · exact .pure rfl
    · split
      · exact asksWithin_bind _ _ _
      · exact asksWithin_bind _ _ _

theorem asksWithin_exec_dynamicImport (hframe : frame.around.Within own)
    (binding specifier : Operand) :
    CodeAsksWithin own known (·.around = frame.around)
      (exec frame (.dynamicImport binding specifier)) := by
  rw [exec]
  split
  · exact .throw _
  · rename_i env henv
    rw [henv] at hframe
    refine (asksWithin_use specifier).bind fun specifier _ => ?_
    exact (asksWithin_importValue hframe specifier).bind fun v _ => asksWithin_bind frame binding v

theorem asksWithin_exec_tryImport (hframe : frame.around.Within own) (binding specifier : Operand) :
    CodeAsksWithin own known (·.around = frame.around)
      (exec frame (.tryImport binding specifier)) := by
  rw [exec]
  split
  · exact .throw _
  · rename_i env henv
    rw [henv] at hframe
    refine (asksWithin_use specifier).bind fun specifier _ => ?_
    exact (asksWithin_importValue hframe specifier).orBrief.bind
      fun v _ => asksWithin_bind frame binding v

theorem asksWithin_exec_require (binding id : Operand) :
    CodeAsksWithin own known (·.around = frame.around) (exec frame (.require binding id)) := by
  rw [exec]
  split
  · exact .throw _
  · refine (asksWithin_use id).bind fun id _ => ?_
    exact (asksWithin_requireValue _ id).bind fun v _ => asksWithin_bind frame binding v

theorem asksWithin_exec_tryRequire (binding id : Operand) :
    CodeAsksWithin own known (·.around = frame.around) (exec frame (.tryRequire binding id)) := by
  rw [exec]
  split
  · exact .throw _
  · refine (asksWithin_use id).bind fun id _ => ?_
    exact (asksWithin_requireValue _ id).orBrief.bind fun v _ => asksWithin_bind frame binding v

theorem asksWithin_exec_replaceExports (e : Expr) :
    CodeAsksWithin own known (·.around = frame.around) (exec frame (.replaceExports e)) := by
  rw [exec]
  split
  · exact .throw _
  · exact (asksWithin_eval frame e).bind fun _ _ => .pure rfl

theorem asksWithin_exec_exportAs (name : Operand) (e : Expr) :
    CodeAsksWithin own known (·.around = frame.around) (exec frame (.exportAs name e)) := by
  rw [exec]
  refine (asksWithin_use name).bind fun name _ => (asksWithin_eval frame e).bind fun v _ => ?_
  refine (asksWithin_exportsObject frame).bind fun p hp => ?_
  exact (asksWithin_perform (.setProperty p.2 name v) trivial).bind fun _ _ => .pure hp

theorem asksWithin_exec_setGlobal (name : Operand) (e : Expr) :
    CodeAsksWithin own known (·.around = frame.around) (exec frame (.setGlobal name e)) := by
  rw [exec]
  refine (asksWithin_use name).bind fun name _ => (asksWithin_eval frame e).bind fun v _ => ?_
  refine (asksWithin_globalObject frame).bind fun o _ => ?_
  exact (asksWithin_perform (.setProperty o name v) trivial).bind fun _ _ => .pure rfl

theorem asksWithin_exec_addGlobal (name : Operand) (e : Expr) :
    CodeAsksWithin own known (·.around = frame.around) (exec frame (.addGlobal name e)) := by
  rw [exec]
  refine (asksWithin_use name).bind fun name _ => (asksWithin_eval frame e).bind fun v _ => ?_
  refine (asksWithin_globalObject frame).bind fun o _ => (asksWithin_getProperty _ name).bind
    fun old _ => ?_
  exact (asksWithin_perform (.setProperty o name (sum old v)) trivial).bind fun _ _ => .pure rfl

theorem asksWithin_exec_setProperty (object : Expr) (key : Operand) (e : Expr) :
    CodeAsksWithin own known (·.around = frame.around)
      (exec frame (.setProperty object key e)) := by
  rw [exec]
  refine (asksWithin_eval frame object).bind fun v _ => ?_
  split
  · rename_i o
    refine (asksWithin_use key).bind fun key _ => (asksWithin_eval frame e).bind fun v _ => ?_
    exact (asksWithin_perform (.setProperty o key v) trivial).bind fun _ _ => .pure rfl
  · exact .throw _

theorem asksWithin_exec_deleteProperty (object : Expr) (key : Operand) :
    CodeAsksWithin own known (·.around = frame.around)
      (exec frame (.deleteProperty object key)) := by
  rw [exec]
  refine (asksWithin_eval frame object).bind fun v _ => ?_
  split
  · rename_i o
    refine (asksWithin_use key).bind fun key _ => ?_
    exact (asksWithin_perform (.deleteProperty o key) trivial).bind fun _ _ => .pure rfl
  · exact .throw _

theorem asksWithin_exec_call (binding : Operand) (function : Expr) (arguments : List Expr) :
    CodeAsksWithin own known (·.around = frame.around)
      (exec frame (.call binding function arguments)) := by
  rw [exec]
  refine (asksWithin_eval frame function).bind fun v _ => ?_
  split
  · rename_i f
    refine (asksWithin_evalAll frame arguments).bind fun vs _ => ?_
    refine (asksWithin_perform (.apply f vs) trivial).bind fun r _ => ?_
    exact (asksWithin_ofExcept r).bind fun v _ => asksWithin_bind frame binding v
  · exact .throw _

end

theorem asksWithin_exec {frame : Frame} (hframe : frame.around.Within own) (s : Statement) :
    CodeAsksWithin own known (·.around = frame.around) (exec frame s) := by
  match s with
  | .unless condition body =>
      rw [exec_unless]
      refine (asksWithin_eval frame condition).bind fun v _ => ?_
      split
      · exact .pure rfl
      · exact asksWithin_exec hframe body
  | .assign binding e =>
      rw [exec]
      exact (asksWithin_eval frame e).bind fun v _ => asksWithin_bind frame binding v
  | .log e =>
      rw [exec]
      refine (asksWithin_eval frame e).bind fun v _ => ?_
      exact (asksWithin_perform (.note v.display) trivial).bind fun _ _ => .pure rfl
  | .throw message =>
      rw [exec]
      exact (asksWithin_use message).bind fun _ _ => .throw _
  | .unknown keyword =>
      rw [exec]
      exact .throw _
  | .staticImport specifier binding? => exact asksWithin_exec_staticImport specifier binding?
  | .dynamicImport binding specifier => exact asksWithin_exec_dynamicImport hframe binding specifier
  | .tryImport binding specifier => exact asksWithin_exec_tryImport hframe binding specifier
  | .require binding id => exact asksWithin_exec_require binding id
  | .tryRequire binding id => exact asksWithin_exec_tryRequire binding id
  | .replaceExports e => exact asksWithin_exec_replaceExports e
  | .exportAs name e => exact asksWithin_exec_exportAs name e
  | .setGlobal name e => exact asksWithin_exec_setGlobal name e
  | .addGlobal name e => exact asksWithin_exec_addGlobal name e
  | .setProperty object key e => exact asksWithin_exec_setProperty object key e
  | .deleteProperty object key => exact asksWithin_exec_deleteProperty object key
  | .call binding function arguments => exact asksWithin_exec_call binding function arguments

theorem asksWithin_execAll {frame : Frame} (hframe : frame.around.Within own)
    (statements : List Statement) :
    CodeAsksWithin own known (·.around = frame.around) (execAll frame statements) := by
  induction statements generalizing frame with
  | nil => exact .pure rfl
  | cons s rest ih =>
      refine (asksWithin_exec hframe s).bind fun next hnext => ?_
      exact hnext ▸ ih (hnext ▸ hframe)

/-! ### The engine -/

theorem asksWithin_parse (text : String) :
    CodeAsksWithin own known (fun _ => True) (parse text) := by
  unfold parse
  split
  · exact .pure trivial
  · exact .throw _

theorem asksWithin_runModule (statements : List Statement) {env : ModuleEnvironment}
    (henv : own env.importer.context) :
    CodeAsksWithin own known (fun _ => True) (runModule statements env) := by
  refine (asksWithin_newObject []).bind fun start _ => ?_
  have hframe : (⟨.module env, [], start⟩ : Frame).around.Within own := henv
  refine (asksWithin_execAll hframe statements).bind fun frame _ => ?_
  split
  · rename_i o _
    exact (asksWithin_perform (.properties o) trivial).bind fun ps _ =>
      asksWithin_perform (.newNamespace ps) trivial
  · exact asksWithin_perform (.newNamespace .empty) trivial

theorem asksWithin_runScript (text : String) (m : ScriptModule) :
    CodeAsksWithin own known (fun _ => True) (runScript text m) := by
  refine (asksWithin_parse text).bind fun statements _ => ?_
  refine (asksWithin_perform (.readExports m.exports) trivial).bind fun start _ => ?_
  have hframe : (⟨.script m, [], start⟩ : Frame).around.Within own := trivial
  exact (asksWithin_execAll hframe statements).bind fun frame _ =>
    asksWithin_perform (.writeExports m.exports frame.exports) trivial

theorem asksWithin_compile (text : String) (options : CompileOptions)
    {C : Compiled Session HookPlan → Prop}
    (hC : ∀ statements, C ⟨requests statements, runModule statements⟩) :
    CodeAsksWithin own known C (compile text options) :=
  (asksWithin_parse text).bind fun statements _ => .pure (hC statements)

/-! ### Hooks and built-ins -/

theorem asksWithin_restoreHook (name : String) :
    AsksWithin own known (fun _ => True) (restoreHook name) := by
  have hguard : AsksWithin own known (fun _ => True) (guard? name) :=
    (AsksWithin.perform .store trivial).bind fun _ _ => .pure trivial
  refine hguard.bind fun g? _ => ?_
  cases g? with
  | none => exact .pure trivial
  | some g => exact .perform (.restore g) trivial

theorem asksWithin_nestedCall (id parent : String) :
    AsksWithin own known (fun _ => True) (nestedCall id parent) := by
  refine (AsksWithin.perform .store trivial).bind fun session _ => ?_
  split
  · exact .pure trivial
  · refine (AsksWithin.modifyStore _).bind fun _ _ => ?_
    have hrequire : AsksWithin own known (fun _ => True)
        (Program.attempt (.require ⟨id, ⟨parent⟩⟩)) := .attempt trivial
    refine hrequire.bind fun _ _ => ?_
    exact (AsksWithin.modifyStore _).bind fun _ _ => .perform (.note _) trivial

theorem asksWithin_run (lookup : LookupCall) (a : HookAction) :
    AsksWithin own known (fun _ => True) (a.run lookup) := by
  cases a with
  | log tag => exact .perform (.note _) trivial
  | evict path? =>
      exact (AsksWithin.perform (.evict _) trivial).bind fun _ _ => .perform (.note _) trivial
  | restore name => exact asksWithin_restoreHook name
  | drop name => exact (asksWithin_restoreHook name).bind fun _ _ => .modifyStore _
  | install name before? after? =>
      refine (AsksWithin.perform (.install _) trivial).bind fun g _ => ?_
      exact (asksWithin_restoreHook name).bind fun _ _ => .modifyStore _
  | call id parent => exact asksWithin_nestedCall id parent
  | panic message => exact ⟨trivial, trivial⟩

theorem asksWithin_runActions (lookup : LookupCall) (actions : List HookAction) :
    AsksWithin own known (fun _ => True) (runActions lookup actions) := by
  induction actions with
  | nil => exact .pure trivial
  | cons a rest ih => exact (asksWithin_run lookup a).bind fun _ _ => ih

def ProviderPlan.Within (known : RecordId → Prop) : ProviderPlan → Prop
  | probe _ (some r) => known r
  | _ => True

theorem asksWithin_probeUnderWay (name : String) {r : RecordId} (hr : known r) (status : Status) :
    AsksWithin own known (fun _ => True) (probeUnderWay name r status) := by
  have hlink : AsksWithin own known (fun _ => True) (Program.attempt (.linkModule r)) := .attempt hr
  have heval : AsksWithin own known (fun _ => True) (Program.attempt (.evaluate r)) := .attempt hr
  refine hlink.bind fun _ _ => heval.bind fun _ _ => ?_
  exact (AsksWithin.perform (.status r) trivial).bind fun _ _ => .perform (.note _) trivial

theorem asksWithin_runProbe (name : String) {record? : Option RecordId}
    (h : (ProviderPlan.probe name record?).Within known) :
    AsksWithin own known (fun _ => True) (runProbe name record?) := by
  cases record? with
  | none => exact .perform (.note _) trivial
  | some r =>
      refine (AsksWithin.perform (.status r) trivial).bind fun status? _ => ?_
      split
      · exact .perform (.note _) trivial
      · exact asksWithin_probeUnderWay name h _
      · exact asksWithin_probeUnderWay name h _
      · exact .perform (.note _) trivial

theorem asksWithin_countUp (memory : ObjectRef) :
    AsksWithin own known (fun _ => True) (countUp memory) := by
  refine (AsksWithin.perform (.properties memory) trivial).bind fun ps _ => ?_
  exact (AsksWithin.perform (.setProperty memory _ _) trivial).bind fun _ _ => .pure trivial

theorem asksWithin_provide {plan : ProviderPlan} (h : plan.Within known) :
    AsksWithin own known (fun _ => True) plan.provide := by
  cases plan with
  | constant v => exact .pure trivial
  | fresh l => exact .perform (.make l) trivial
  | counter memory key =>
      exact (asksWithin_countUp memory).bind fun _ _ => .perform (.make _) trivial
  | probe name record? =>
      exact (asksWithin_runProbe name h).bind fun _ _ => .perform (.make _) trivial

/-! ### The host -/

theorem asksWithin_before {plan : HookPlan} {f : LookupCall → Routine Unit}
    (hf : plan.hook.before? = some f) (lookup : LookupCall) :
    AsksWithin own known (fun _ => True) (f lookup) := by
  obtain ⟨actions, -, rfl⟩ := Option.map_eq_some_iff.1 hf
  exact asksWithin_runActions lookup actions

theorem asksWithin_after {plan : HookPlan} {f : LookupCall → Routine Unit}
    (hf : plan.hook.after? = some f) (lookup : LookupCall) :
    AsksWithin own known (fun _ => True) (f lookup) := by
  obtain ⟨actions, -, rfl⟩ := Option.map_eq_some_iff.1 hf
  exact asksWithin_runActions lookup actions

section

variable (files : FileTree) (config : Config) {builtins : Registry ProviderPlan}
  {linkerBuiltins? : Option (Registry ProviderPlan)} (scriptContext : ContextId)
  (hprobe : ∀ b ∈ [builtins, linkerBuiltins?.getD builtins], ∀ entry ∈ b.providers,
    entry.2.Within known)

include hprobe

theorem asksWithin_provider {b : Registry (Provider Session HookPlan)}
    (hb : b ∈ [(host files config builtins linkerBuiltins? scriptContext).builtins,
      (host files config builtins linkerBuiltins? scriptContext).linkerBuiltins])
    {name : String} {p : Provider Session HookPlan} (hp : b.find? name = some p) :
    AsksWithin own known (fun _ => True) p := by
  obtain ⟨plans, hplans, rfl⟩ : ∃ plans ∈ [builtins, linkerBuiltins?.getD builtins],
      b = plans.map ProviderPlan.provide := by
    rcases List.mem_cons.1 hb with rfl | hb
    · exact ⟨builtins, List.mem_cons_self, rfl⟩
    · refine ⟨_, List.mem_cons_of_mem _ List.mem_cons_self, (List.mem_singleton.1 hb).trans ?_⟩
      cases linkerBuiltins? <;> rfl
  rw [Registry.find?_map] at hp
  obtain ⟨plan, hplan, rfl⟩ := Option.map_eq_some_iff.1 hp
  obtain ⟨key, hmem⟩ := Registry.exists_mem_of_find? hplan
  exact asksWithin_provide (hprobe plans hplans _ hmem)

theorem evaluatesKnown_host :
    (host files config builtins linkerBuiltins? scriptContext).EvaluatesKnown NamesNone known where
  compile text options :=
    (asksWithin_compile text options fun statements _ =>
      (asksWithin_runModule statements trivial).ofAll).ofAll
  script text m := (asksWithin_runScript text m).ofAll
  lookup _ hf := nomatch hf
  provider _ hb _ _ hp := (asksWithin_provider files config scriptContext hprobe hb hp).ofAll
  before _ _ hf call := (asksWithin_before hf call).ofAll
  after _ _ hf call := (asksWithin_after hf call).ofAll

end

/-- A scripted world without probes does everything on behalf of the context that it is given,
whatever the files. -/
theorem onBehalf_host (files : FileTree) (config : Config) (builtins : Registry ProviderPlan)
    (linkerBuiltins? : Option (Registry ProviderPlan)) (scriptContext : ContextId)
    (hprobe : ∀ b ∈ [builtins, linkerBuiltins?.getD builtins], ∀ entry ∈ b.providers,
      entry.2.Within fun _ => False) (own : ContextId → Prop) :
    (host files config builtins linkerBuiltins? scriptContext).OnBehalf own
      fun c => ∃ statements, c.body = runModule statements where
  compile text options _ :=
    (asksWithin_compile text options fun statements => ⟨statements, rfl⟩).onBehalf
  body := by
    rintro c ⟨statements, hbody⟩ env hown himporter
    rw [hbody]
    exact (asksWithin_runModule statements (himporter ▸ hown)).onBehalf
  script text m _ := (asksWithin_runScript text m).onBehalf
  lookup _ hf := nomatch hf
  provider b hb name p hp := (asksWithin_provider files config scriptContext hprobe hb hp).onBehalf
  before h f hf call := (asksWithin_before hf call).onBehalf
  after h f hf call := (asksWithin_after hf call).onBehalf

section

variable (files : FileTree) (config : Config) (scheme name : String) (v : Value)
  (scriptContext : ContextId)

theorem within_constant :
    ∀ b ∈ [(⟨scheme, [(name, .constant v)]⟩ : Registry ProviderPlan),
      Option.getD none ⟨scheme, [(name, .constant v)]⟩], ∀ entry ∈ b.providers,
        entry.2.Within known := by
  intro b hb entry hentry
  obtain rfl : b = ⟨scheme, [(name, .constant v)]⟩ := by simpa using hb
  rw [List.mem_singleton.1 hentry]
  trivial

theorem evaluatesKnown_constant :
    (host files config ⟨scheme, [(name, .constant v)]⟩ none scriptContext).EvaluatesKnown
      NamesNone known :=
  evaluatesKnown_host _ _ _ (within_constant scheme name v)

theorem onBehalf_constant (own : ContextId → Prop) :
    (host files config ⟨scheme, [(name, .constant v)]⟩ none scriptContext).OnBehalf own
      fun c => ∃ statements, c.body = runModule statements :=
  onBehalf_host _ _ _ _ _ (within_constant scheme name v) own

end

end Scripted

end ModuleLoader
