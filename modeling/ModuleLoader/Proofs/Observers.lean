import ModuleLoader.Proofs.ContextRuns
import ModuleLoader.Proofs.Brackets
import ModuleLoader.Proofs.Worlds
/-!
Hooks that only observe.

A hook may be there for nothing but to see what is looked up. It writes lines to the
log, it looks at what it is shown, and it keeps its notes where nobody else looks. Then
it makes no difference to anyone. What is shown here is that a run with such hooks goes
as the same run would have gone with none, to the same end, and that the lookups in
between are answered alike. The two differ only in what the hooks leave in the trace, and in
their notes.

Where the notes are is left open. The store is what all code that is not the loader's has
in common, and `view` is as much of it as the code that is loaded goes by. There is one
thing more that tells the two runs apart. Whoever holds a guard can ask it whether its hook
is installed; so that must not matter either.
-/

namespace ModuleLoader

open Eff

variable {σ η α β τ : Type}

/-! ### Code that is observed, and code that observes -/

namespace Action

/-- How one goes on after the action does not depend on the notes of hooks, or on whether there are
any hooks. -/
def Overlooks (view : σ → τ) : (a : Action σ η) → (a.Reply → β) → Prop
  | store, next => ∀ x y, view x = view y → next x = next y
  | modifyStore f, _ => ∀ x y, view x = view y → view (f x) = view (f y)
  | isActive _, next => ∀ x y, next x = next y
  | _, _ => True

def Observes (view : σ → τ) : Action σ η → Prop
  | properties _ | apply .. | readExports _ | globalObject _ | status _ | isActive _ | note _
  | store =>
    True
  | modifyStore f => ∀ x, view (f x) = view x
  | _ => False

theorem Overlooks.comp {γ : Type} {view : σ → τ} {a : Action σ η} {next : a.Reply → β}
    (h : a.Overlooks view next) (f : β → γ) : a.Overlooks view fun r => f (next r) := by
  cases a with
  | store => exact fun x y hxy => congrArg f (h x y hxy)
  | isActive g => exact fun x y => congrArg f (h x y)
  | _ => exact h

end Action

namespace Program

def Overlooks (view : σ → τ) (P : α → Prop) : Program σ η α → Prop
  | done a => P a
  | panic _ => True
  | act a next => a.Overlooks view next ∧ ∀ r, (next r).Overlooks view P
  | call _ next => ∀ r, (next r).Overlooks view P

/-- The program does nothing to the loader, and it does not panic. -/
def Observes (view : σ → τ) : Program σ η α → Prop
  | done _ => True
  | panic _ => False
  | act a next => a.Observes view ∧ ∀ r, (next r).Observes view
  | call _ _ => False

end Program

def Compiled.Overlooks (view : σ → τ) (c : Compiled σ η) : Prop :=
  ∀ env, (c.body env).run.Overlooks view fun _ => True

def ModuleRecord.Overlooks (view : σ → τ) (a : ModuleRecord σ η) : Prop :=
  ∀ m, a.kind = .source m → m.compiled.Overlooks view

/-- The hooks of the host only observe, and its other code does not depend on that. -/
structure Host.Observed (host : Host σ η) (view : σ → τ) : Prop where
  before : ∀ hook f, (host.hook hook).before? = some f → ∀ call, (f call).Observes view
  after : ∀ hook f, (host.hook hook).after? = some f → ∀ call, (f call).Observes view
  compile : ∀ text options, (host.compile text options).run.Overlooks view
    (Answers (fun _ => True) (Compiled.Overlooks view))
  script : ∀ text m, (host.runScript text m).run.Overlooks view fun _ => True
  lookup : ∀ f, host.lookup? = some f → ∀ call, (f call).run.Overlooks view fun _ => True
  provider : ∀ b ∈ [host.builtins, host.linkerBuiltins], ∀ name p, b.find? name = some p →
    p.Overlooks view fun _ => True

/-! ### States without hooks -/

def Event.OfHook : Event → Prop
  | .before .. | .after .. | .note _ => True
  | _ => False

inductive History.DropsHookEvents : History → History → Prop
  | nil : DropsHookEvents [] []
  | keep (e : Event) {v w : History} : DropsHookEvents v w → DropsHookEvents (e :: v) (e :: w)
  | drop {e : Event} {v w : History} : e.OfHook → DropsHookEvents v w → DropsHookEvents (e :: v) w

namespace History.DropsHookEvents

variable {v v' w w' : History}

theorem refl (w : History) : w.DropsHookEvents w := by
  induction w with
  | nil => exact .nil
  | cons e _ ih => exact .keep e ih

theorem append (h : v.DropsHookEvents w) (h' : v'.DropsHookEvents w') :
    (v ++ v').DropsHookEvents (w ++ w') := by
  induction h with
  | nil => exact h'
  | keep e _ ih => exact .keep e ih
  | drop he _ ih => exact .drop he ih

end History.DropsHookEvents

inductive State.Unhooked (view : σ → τ) (s : State σ η) : State σ η → Prop
  | mk {trace : Trace} {store : σ} :
      view store = view s.store → s.history.DropsHookEvents trace.toList →
      Unhooked view s { s with hooks := .empty, trace, store }

namespace State.Unhooked

variable {view : σ → τ} {s t : State σ η}

theorem of_empty (view : σ → τ) (s : State σ η) : s.Unhooked view { s with hooks := .empty } :=
  .mk rfl (.refl _)

theorem emit (h : s.Unhooked view t) (e : Event) : (s.emit e).Unhooked view (t.emit e) := by
  obtain ⟨hstore, htrace⟩ := h
  refine .mk hstore ?_
  rw [history_emit, Array.toList_push]
  exact htrace.append (.refl [e])

/-- What a hook leaves is not there without hooks. -/
theorem emit_left (h : s.Unhooked view t) {e : Event} (he : e.OfHook) :
    (s.emit e).Unhooked view t := by
  obtain ⟨hstore, htrace⟩ := h
  refine Unhooked.mk (s := s.emit e) hstore ?_
  rw [history_emit]
  simpa using htrace.append (.drop he .nil)

end State.Unhooked

/-! ### With hooks and without -/

/-- Runs with these hooks, and with none. Nothing is said from where the hooks are changed. -/
def unhooking (view : σ → τ) (hooks : HookStack η) : Worlds σ η where
  lost s := hooks.changes < s.hooks.changes
  alike s t := s.hooks = hooks ∧ s.NewRecords 0 (·.Overlooks view) ∧ s.Unhooked view t

namespace Unhooking

variable {view : σ → τ} {hooks : HookStack η} {p : Prop} {P : α → Prop} {Q : β → Prop}
  {s t : State σ η}

theorem changes_carryOut_le (a : Action σ η) (s : State σ η) :
    s.hooks.changes ≤ (a.carryOut s).2.hooks.changes := by
  cases a with
  | install hook => exact Nat.le_of_lt (s.hooks.changes_lt_install hook)
  | restore g =>
      by_cases hg : s.hooks.isActive g
      · exact Nat.le_of_lt (HookStack.changes_lt_restore hg)
      · exact Nat.le_of_eq (congrArg _ (HookStack.restore_of_not_isActive hg).symm)
  | _ => exact Nat.le_refl _

theorem survives (hooks : HookStack η) (host : Host σ η) :
    Survives (fun s => hooks.changes < s.hooks.changes) host where
  emit _ _ _ hs := hs
  action a s hs := Nat.lt_of_lt_of_le hs (changes_carryOut_le a s)
  addChild _ _ _ hs := hs
  enter _ _ _ _ hs := hs
  leave _ _ outcome hs := by cases outcome <;> exact hs
  parse _ _ _ _ hs := hs
  add _ _ _ hs := hs
  modifyRecord _ _ _ _ hs := hs

theorem carryOut (hst : (unhooking view hooks).alike s t) {a : Action σ η} {next : a.Reply → β}
    (ha : a.Overlooks view next) :
    (unhooking view hooks).lost (a.carryOut s).2 ∨
      (unhooking view hooks).alike (a.carryOut s).2 (a.carryOut t).2 ∧
        next (a.carryOut t).1 = next (a.carryOut s).1 := by
  obtain ⟨rfl, hrecords, hbare⟩ := hst
  cases a with
  | install hook => exact Or.inl (s.hooks.changes_lt_install hook)
  | restore g =>
      by_cases hg : s.hooks.isActive g
      · exact Or.inl (HookStack.changes_lt_restore hg)
      · obtain ⟨hstore, htrace⟩ := hbare
        refine Or.inr ⟨⟨HookStack.restore_of_not_isActive hg, hrecords.congr rfl, ?_⟩, rfl⟩
        exact .mk (s := { s with hooks := s.hooks.restore g }) hstore htrace
  | writeExports r value =>
      obtain ⟨hstore, htrace⟩ := hbare
      have hs : State.Unhooked view { s with exports := s.exports.setIfInBounds r.index value } _ :=
        .mk hstore htrace
      exact Or.inr ⟨⟨rfl, hrecords.congr rfl, hs.emit (.assign r value)⟩, rfl⟩
  | evict path =>
      obtain ⟨hstore, htrace⟩ := hbare
      have hs : State.Unhooked view { s with cache := s.cache.erase path } _ := .mk hstore htrace
      exact Or.inr ⟨⟨rfl, hrecords.congr rfl, hs.emit (.evict path (s.cache.contains path))⟩, rfl⟩
  | note line => exact Or.inr ⟨⟨rfl, hrecords.congr rfl, hbare.emit _⟩, rfl⟩
  | modifyStore f =>
      obtain ⟨hstore, htrace⟩ := hbare
      refine Or.inr ⟨⟨rfl, hrecords.congr rfl, ?_⟩, rfl⟩
      exact .mk (s := { s with store := f s.store }) (ha _ _ hstore) htrace
  | store =>
      obtain ⟨hstore, htrace⟩ := hbare
      exact Or.inr ⟨⟨rfl, hrecords, .mk hstore htrace⟩, ha _ _ hstore⟩
  | isActive g =>
      obtain ⟨hstore, htrace⟩ := hbare
      exact Or.inr ⟨⟨rfl, hrecords, .mk hstore htrace⟩, ha _ _⟩
  | _ =>
      obtain ⟨hstore, htrace⟩ := hbare
      exact Or.inr ⟨⟨rfl, hrecords.congr rfl, .mk hstore htrace⟩, rfl⟩

/-! ### The loader, with hooks and without -/

section Steps

theorem modifyState {f : State σ η → State σ η} (hhooks : ∀ s, (f s).hooks = s.hooks)
    (hrecords : ∀ s, s.NewRecords 0 (·.Overlooks view) → (f s).NewRecords 0 (·.Overlooks view))
    (hf : ∀ s t, s.Unhooked view t → (f s).Unhooked view (f t)) :
    (unhooking view hooks).Shows p (fun _ => True) (modify f : Eff σ η PUnit) := by
  refine .modify (fun s hs => ?_) fun _ s t ⟨hs, hrec, hst⟩ =>
    ⟨(hhooks s).trans hs, hrecords s hrec, hf s t hst⟩
  change hooks.changes < (f s).hooks.changes
  rwa [hhooks]

theorem emit (e : Event) :
    (unhooking view hooks).Shows p (fun _ => True) (Eff.emit e : Eff σ η Unit) :=
  modifyState (fun _ => rfl) (fun _ h => h.congr rfl) fun _ _ h => h.emit e

theorem modifyCache (f : Cache → Cache) :
    (unhooking view hooks).Shows p (fun _ => True) (Legacy.modifyCache f : Eff σ η Unit) :=
  modifyState (fun _ => rfl) (fun _ h => h.congr rfl) fun _ _ ⟨hstore, htrace⟩ => .mk hstore htrace

theorem record (e : Event) (f : Cache → Cache) :
    (unhooking view hooks).Shows p (fun _ => True) (Legacy.record e f : Eff σ η Unit) :=
  modifyState (fun _ => rfl) (fun _ h => h.congr rfl) fun s _ ⟨hstore, htrace⟩ =>
    State.Unhooked.emit (s := { s with cache := f s.cache }) (.mk hstore htrace) e

theorem newExports :
    (unhooking view hooks).Shows p (fun _ => True)
      (Legacy.newExports : Eff σ η (Value × ExportsRef)) :=
  .modifyGet (fun _ hs => hs) fun _ _ _ ⟨hs, hrec, ⟨hstore, htrace⟩⟩ =>
    ⟨⟨hs, hrec.congr rfl, .mk hstore htrace⟩, trivial, rfl⟩

theorem fetch (host : Host σ η) (path : Path) :
    (unhooking view hooks).Shows p (fun _ => True) (Legacy.fetch host path : Eff σ η String) := by
  refine .bind (emit _) fun _ => ?_
  cases host.files.read path with
  | ok text => exact .pure fun _ => trivial
  | error e => exact .fail _

theorem get {f : State σ η → Eff σ η α}
    (hread : ∀ s trace store, f { s with hooks := .empty, trace, store } = f s)
    (h : ∀ s, (unhooking view hooks).Shows p P (f s)) :
    (unhooking view hooks).Shows p P (get >>= f) :=
  .get (fun s _ ⟨_, _, hst⟩ => by cases hst; exact hread s _ _) h

theorem act {a : Action σ η} {next : a.Reply → Eff σ η α} (ha : p → a.Overlooks view next)
    (hnext : ∀ r, (unhooking view hooks).Shows p P (next r)) :
    (unhooking view hooks).Shows p P (Eff.perform a >>= next) where
  lost s hs := (hnext _).lost _ (Nat.lt_of_lt_of_le hs (changes_carryOut_le a s))
  alike hp s t hst := by
    change _ ∨ (unhooking view hooks).alike _ ((next (a.carryOut t).1).runIn (a.carryOut t).2).2 ∧
      _ ∧
      ((next (a.carryOut t).1).runIn (a.carryOut t).2).1 = _
    rcases carryOut hst (ha hp) with hlost | ⟨halike, heq⟩
    · exact Or.inl ((hnext _).lost _ hlost)
    · rw [heq]
      exact (hnext _).alike hp _ _ halike

end Steps

section

variable {host : Host σ η} {serve : (c : Call) → Eff σ η c.Reply}

/-- Whatever an observer is called for, it comes back to where it was called. -/
theorem runIn_of_observes {pr : Program σ η α} (hpr : pr.Observes view)
    (hst : (unhooking view hooks).alike s t) :
    ∃ a u, (pr.run serve).runIn s = (.ok a, u) ∧ (unhooking view hooks).alike u t := by
  induction pr generalizing s with
  | done a => exact ⟨a, s, rfl, hst⟩
  | panic m => exact hpr.elim
  | call c next _ => exact hpr.elim
  | act a next ih =>
      have hact : (unhooking view hooks).alike (a.carryOut s).2 t := by
        obtain ⟨hs, hrec, hbare⟩ := hst
        cases a with
        | note line => exact ⟨hs, hrec.congr rfl, hbare.emit_left trivial⟩
        | modifyStore f =>
            obtain ⟨hstore, htrace⟩ := hbare
            have hview := hstore.trans (hpr.1 s.store).symm
            exact ⟨hs, hrec.congr rfl, .mk (s := { s with store := f s.store }) hview htrace⟩
        | _ => first | exact ⟨hs, hrec, hbare⟩ | exact hpr.1.elim
      exact ih _ (hpr.2 _) hact

variable (serve) in
theorem runIn_callback {event : Event} (hevent : event.OfHook) {call : LookupCall}
    {f? : Option (LookupCall → Program σ η Unit)} (hf : ∀ f, f? = some f → (f call).Observes view)
    (hst : (unhooking view hooks).alike s t) :
    ∃ u, (Hook.callback serve event call f?).runIn s = (.ok (), u) ∧
      (unhooking view hooks).alike u t := by
  cases f? with
  | none => exact ⟨s, rfl, hst⟩
  | some f =>
      obtain ⟨hs, hrec, hbare⟩ := hst
      have hemit : (unhooking view hooks).alike (s.emit event) t :=
        ⟨hs, hrec.congr rfl, hbare.emit_left hevent⟩
      obtain ⟨_, u, hrun, hut⟩ := runIn_of_observes (hf f rfl) hemit
      exact ⟨u, hrun, hut⟩

variable (hserve : ∀ c : Call, (unhooking view hooks).Shows True (fun _ => True) (serve c))

include hserve

theorem call (c : Call) : (unhooking view hooks).Shows p (fun _ => True) (serve c) :=
  (hserve c).imp (fun _ => trivial) fun _ _ h => h

theorem program {pr : Program σ η α} (hpr : p → pr.Overlooks view P) :
    (unhooking view hooks).Shows p P (pr.run serve) := by
  induction pr generalizing p with
  | done a => exact .pure hpr
  | panic m => exact .panic m
  | act a next ih =>
      exact act (fun hp => (hpr hp).1.comp (Program.run serve)) fun r => ih r fun hp => (hpr hp).2 r
  | call c next ih => exact .bind (call hserve c).settle fun r => ih r fun hp => hpr hp.1 r

theorem script {x : Script σ η α} (hx : p → x.run.Overlooks view (Answers (fun _ => True) P)) :
    (unhooking view hooks).Shows p P (x.exec serve) :=
  .bind (program hserve hx) fun _ => .ofExcept And.right

theorem script_any {x : Script σ η α} (hx : p → x.run.Overlooks view fun _ => True) :
    (unhooking view hooks).Shows p (fun _ => True) (x.exec serve) :=
  .bind (program hserve hx) fun o => .ofExcept_any o

variable (hhost : host.Observed view)

include hhost

/-! #### Lookups -/

theorem runBody (path : Path) (text : String) (r : ExportsRef) :
    (unhooking view hooks).Shows p (fun _ => True) (Legacy.runBody host serve path text r) := by
  have hbody : (unhooking view hooks).Shows p (fun _ => True) _ :=
    script_any hserve fun _ => hhost.script text ⟨path, Legacy.dirname path, host.scriptContext, r⟩
  refine .bind hbody.settle fun o => ?_
  cases o with
  | ok _ =>
      refine get (fun _ _ _ => rfl) fun s => ?_
      exact .bind (record _ _) fun _ => .pure fun _ => trivial
  | error e => exact .bind (record _ _) fun _ => .fail e

theorem loadScript (path parent : Path) :
    (unhooking view hooks).Shows p (fun _ => True) (Legacy.loadScript host serve path parent) := by
  refine .bind (modifyCache _) fun _ => get (fun _ _ _ => rfl) fun s => ?_
  cases s.cache.exports? path with
  | some exports => exact .pure fun _ => trivial
  | none =>
      refine .bind (fetch host path) fun text => .bind newExports fun start => ?_
      exact .bind (record _ _) fun _ => runBody hserve hhost path text start.2

omit hserve hhost in
theorem perform {a : Action σ η} (ha : p → a.Overlooks view (id : a.Reply → a.Reply)) :
    (unhooking view hooks).Shows p (fun _ => True) (Eff.perform a) where
  lost s hs := Nat.lt_of_lt_of_le hs (changes_carryOut_le a s)
  alike hp _ _ hst := (carryOut hst (ha hp)).imp id fun ⟨halike, heq⟩ =>
    ⟨halike, trivial, congrArg Except.ok heq⟩

omit hserve hhost in
theorem loadJson (path parent : Path) :
    (unhooking view hooks).Shows p (fun _ => True) (Legacy.loadJson host path parent) := by
  refine .bind (modifyCache _) fun _ => get (fun _ _ _ => rfl) fun s => ?_
  cases s.cache.exports? path with
  | some exports => exact .pure fun _ => trivial
  | none =>
      refine .bind (fetch host path) fun text => ?_
      cases Json.read? text with
      | none => exact .fail _
      | some json =>
          refine .bind (perform fun _ => trivial) fun value => ?_
          exact .bind (record _ _) fun _ => .pure fun _ => trivial

theorem provide {b : Registry (Provider σ η)} (hb : b ∈ [host.builtins, host.linkerBuiltins])
    (specifier : String) :
    (unhooking view hooks).Shows p (fun _ => True) (Legacy.provide serve b specifier) := by
  unfold Legacy.provide
  cases hprovider : b.find? specifier with
  | none => exact .fail _
  | some provider =>
      refine .bind (emit _) fun _ => ?_
      exact program hserve fun _ => hhost.provider b hb specifier provider hprovider

theorem load (call : LookupCall) :
    (unhooking view hooks).Shows p (fun _ => True) (Legacy.load host serve call) := by
  have hanswer {q : Prop} (path : Path) {x : Eff σ η Value}
      (hx : (unhooking view hooks).Shows q (fun _ => True) x) :
      (unhooking view hooks).Shows q (fun _ => True) (Legacy.answering path x) :=
    .bind hx fun _ => .bind (emit _) fun _ => .pure fun _ => trivial
  refine .bind (.ofExcept_any _) fun found => ?_
  cases found with
  | builtin name => exact provide hserve hhost List.mem_cons_self name
  | script path => exact hanswer path (loadScript hserve hhost path call.parent)
  | json path => exact hanswer path (loadJson path call.parent)
  | native path => exact .fail _

theorem base (call : LookupCall) :
    (unhooking view hooks).Shows p (fun _ => True) (Legacy.base host serve call) := by
  refine .bind (emit _) fun _ => ?_
  cases hf : host.lookup? with
  | some f => exact script_any hserve fun _ => hhost.lookup f hf call
  | none => exact load hserve hhost call

/-- A lookup through the hooks goes as it would go behind them. -/
theorem intercept (call : LookupCall) {x : Eff σ η Value}
    (hx : (unhooking view hooks).Shows True (fun _ => True) x) (layers : List (Layer η))
    (hst : (unhooking view hooks).alike s t) :
    (unhooking view hooks).lost ((ModuleLoader.intercept host serve call x layers).runIn s).2 ∨
      (unhooking view hooks).alike ((ModuleLoader.intercept host serve call x layers).runIn s).2
          (x.runIn t).2 ∧
        (x.runIn t).1 = ((ModuleLoader.intercept host serve call x layers).runIn s).1 := by
  induction layers generalizing s with
  | nil => exact (hx.alike trivial s t hst).imp id fun ⟨halike, _, heq⟩ => ⟨halike, heq⟩
  | cons outer inner ih =>
      have hcallback : (Event.before outer.guard call).OfHook ∧
        (Event.after outer.guard call).OfHook :=
        ⟨trivial, trivial⟩
      obtain ⟨a, hbefore, hat⟩ := runIn_callback serve hcallback.1
        (fun f hf => hhost.before outer.hook f hf call) hst
      have hlater (o : Except Fault Value) {b : State σ η} (hb : (unhooking view hooks).lost b) :=
        (((survives hooks host).runInvariant fun c => (hserve c).keeps).after outer call o b hb).1
      have hinner := ih hat
      rw [ModuleLoader.intercept, runIn_bind, hbefore]
      dsimp only
      rw [runIn_bind, runIn_outcome]
      generalize (ModuleLoader.intercept host serve call x inner).runIn a = second at hinner ⊢
      obtain ⟨o, b⟩ := second
      rcases hinner with hb | ⟨hb, heq⟩
      · refine Or.inl ?_
        rcases o with (_ | _ | _) | _
        · exact hlater _ hb
        · exact hlater _ hb
        · exact hb
        · exact hlater _ hb
      · refine Or.inr ?_
        obtain ⟨c, hafter, hc⟩ := runIn_callback serve hcallback.2
          (fun f hf => hhost.after outer.hook f hf call) hb
        have hend (q : Except Fault Value) (hq : (x.runIn t).1 = q) := by
          have hlast : (do
              Hook.callback serve (.after outer.guard call) call (host.hook outer.hook).after?
              Eff.ofOutcome q).runIn b = (q, c) := by
            rw [runIn_bind, hafter]
            exact runIn_ofOutcome q c
          have hgoal := congrArg (fun r => (unhooking view hooks).alike r.2 (x.runIn t).2 ∧
            (x.runIn t).1 = r.1) hlast
          exact hgoal.mpr ⟨hc, hq⟩
        rcases o with (_ | _ | _) | _
        · exact hend _ heq
        · exact hend _ heq
        · exact ⟨hb, heq⟩
        · exact hend _ heq

theorem require (call : LookupCall) :
    (unhooking view hooks).Shows p (fun _ => True) (Legacy.require host serve call) where
  lost s hs := (((survives hooks host).runInvariant fun c => (hserve c).keeps).require call s hs).1
  alike _ s t hst := by
    have hbare : t.hooks.outermostFirst = [] := by
      obtain ⟨-, -, ⟨-, -⟩⟩ := hst
      rfl
    have hrun :
        (Legacy.require host serve call).runIn t = (Legacy.base host serve call).runIn t := by
      change (ModuleLoader.intercept host serve call _ t.hooks.outermostFirst).runIn t = _
      rw [hbare]
      rfl
    rw [hrun]
    refine (intercept hserve hhost call (base hserve hhost call) _ hst).imp id ?_
    rintro ⟨halike, heq⟩
    refine ⟨halike, ?_, heq⟩
    match ((Legacy.require host serve call).runIn s).1 with
    | .ok _ | .error (.error _) | .error (.panic _) | .error .outOfDepth => trivial

/-! #### Records -/

omit hserve hhost in
theorem addRecord (identifier : String) (referrer : Referrer) {kind : ModuleKind σ η}
    (hkind : p → ∀ m, kind = .source m → m.compiled.Overlooks view) :
    (unhooking view hooks).Shows p (fun _ => True)
      (Linker.addRecord (.fresh identifier referrer kind) : Eff σ η RecordId) :=
  .modifyGet (fun _ hs => hs) fun hp _ _ ⟨hs, hrec, ⟨hstore, htrace⟩⟩ =>
    ⟨⟨hs, hrec.add (hkind hp), .mk hstore htrace⟩, trivial, rfl⟩

theorem buildSource (specifier : String) (referrer : Referrer) :
    (unhooking view hooks).Shows p (fun _ => True)
      (Linker.buildSource host serve specifier referrer) := by
  refine .bind (.ofExcept_any _) fun path => .bind (fetch host path) fun text => ?_
  cases path.fileUrl? with
  | none => exact .fail _
  | some url =>
      refine .bind (emit _) fun _ => ?_
      refine .bind (script hserve fun _ => hhost.compile text ⟨path.text, referrer.context, url⟩) ?_
      exact fun c => addRecord path.text referrer fun hp m hm => by cases hm; exact hp.2

theorem buildSynthetic (specifier : String) (referrer : Referrer) :
    (unhooking view hooks).Shows p (fun _ => True)
      (Linker.buildSynthetic host serve specifier referrer) := by
  have horigin : (unhooking view hooks).Shows p (fun _ => True)
      (Linker.originOf host serve specifier referrer) := by
    unfold Linker.originOf
    split
    · exact .bind (provide hserve hhost (List.mem_cons_of_mem _ List.mem_cons_self) _) fun _ =>
        .pure fun _ => trivial
    · exact .bind (.ofExcept_any _) fun _ => .bind (require hserve hhost _) fun _ =>
        .pure fun _ => trivial
  refine .bind horigin fun origin => get (fun _ _ _ => rfl) fun s => ?_
  exact addRecord _ referrer fun _ m hm => by cases hm

theorem link (specifier : String) (referrer : Referrer) :
    (unhooking view hooks).Shows p (fun _ => True) (Linker.link host serve specifier referrer) := by
  rw [Linker.link_eq_plan]
  refine .bind (.ofExcept_any _) fun plan => ?_
  obtain ⟨dispatch, name⟩ := plan
  cases dispatch with
  | source => exact buildSource hserve hhost name referrer
  | synthetic => exact buildSynthetic hserve hhost name referrer

/-! #### Linking and evaluating -/

section

omit hserve hhost

theorem recordAt (r : RecordId) :
    (unhooking view hooks).Shows p (·.Overlooks view)
      (Linker.recordAt r : Eff σ η (ModuleRecord σ η)) where
  lost s hs := by
    rcases Linker.runIn_recordAt_cases r s with ⟨a, -, hrun⟩ | ⟨m, hrun⟩ <;> exact hrun ▸ hs
  alike _ s t hst := by
    have hrecords : t.records = s.records := by
      obtain ⟨-, -, ⟨-, -⟩⟩ := hst
      rfl
    refine Or.inr ?_
    cases ha : s.records[r.index]? with
    | some a =>
        rw [Linker.runIn_recordAt ha, Linker.runIn_recordAt (hrecords.symm ▸ ha)]
        exact ⟨hst, hst.2.1.all r a (Nat.zero_le _) ha, rfl⟩
    | none =>
        rw [Linker.runIn_recordAt_of_eq_none ha,
          Linker.runIn_recordAt_of_eq_none (hrecords.symm ▸ ha)]
        exact ⟨hst, trivial, rfl⟩

theorem modifyRecord (r : RecordId) {f : ModuleRecord σ η → ModuleRecord σ η}
    (hf : ∀ a, (f a).kind = a.kind) :
    (unhooking view hooks).Shows p (fun _ => True)
      (modify (·.modifyRecord r f) : Eff σ η PUnit) :=
  modifyState (fun _ => rfl)
    (fun _ h => h.modifyRecord fun a ha m hm => ha m ((hf a).symm.trans hm))
    fun _ _ ⟨hstore, htrace⟩ => .mk hstore htrace

theorem transition (r : RecordId) (status : Status) :
    (unhooking view hooks).Shows p (fun _ => True) (Linker.transition r status : Eff σ η Unit) := by
  refine .bind (recordAt r) fun a => ?_
  split
  · exact modifyRecord r fun _ => rfl
  · exact .fail _

theorem onBehalf (r : RecordId) {work : Eff σ η α} (hwork : (unhooking view hooks).Shows p P work) :
    (unhooking view hooks).Shows p P (Linker.onBehalf r work) := by
  refine .bind hwork.settle fun o => ?_
  cases o with
  | ok a => exact .pure And.right
  | error e =>
      refine .bind (P := fun _ => True) (.bind (recordAt r) fun a => ?_) fun _ => .fail e
      split
      · exact modifyRecord r fun _ => rfl
      · exact .pure fun _ => trivial

end

theorem linkRequests (r : RecordId) (referrer : Referrer) (specifiers : List String) :
    (unhooking view hooks).Shows p (fun _ => True)
      (Linker.linkRequests host serve r referrer specifiers) := by
  induction specifiers generalizing p with
  | nil => exact .pure fun _ => trivial
  | cons specifier rest ih =>
      refine .bind (link hserve hhost specifier referrer) fun dep => ?_
      refine .bind (call hserve (.linkModule dep)) fun _ => ?_
      exact .bind (modifyRecord r fun _ => rfl) fun _ => ih

theorem linkModule (r : RecordId) :
    (unhooking view hooks).Shows p (fun _ => True) (Linker.linkModule host serve r) := by
  refine .bind (recordAt r) fun a => ?_
  cases a.status with
  | unlinked =>
      refine .bind (transition r _) fun _ => ?_
      exact .bind (onBehalf r (linkRequests hserve hhost r _ _)) fun _ => transition r _
  | linking => exact .fail _
  | errored => exact .fail _
  | linked => exact .pure fun _ => trivial
  | evaluating => exact .pure fun _ => trivial
  | evaluated => exact .pure fun _ => trivial

omit hhost in
theorem evaluateAll (imports : OrderedMap Namespace) (deps : List (String × RecordId)) :
    (unhooking view hooks).Shows p (fun _ => True) (Linker.evaluateAll serve imports deps) := by
  induction deps generalizing imports p with
  | nil => exact .pure fun _ => trivial
  | cons dep rest ih => exact .bind (call hserve (.evaluate dep.2)) fun n => ih _

omit hhost in
theorem evaluateKind (r : RecordId) {a : ModuleRecord σ η} (ha : p → a.Overlooks view) :
    (unhooking view hooks).Shows p (fun _ => True) (Linker.evaluateKind serve r a) := by
  unfold Linker.evaluateKind
  cases hkind : a.kind with
  | source m =>
      refine .bind (evaluateAll hserve _ _) fun imports => .bind (.ofExcept_any _)
        fun importMeta => ?_
      exact .bind (emit _) fun _ => script_any hserve fun hp => ha hp.1.1.1 m hkind _
  | synthetic m =>
      refine get (fun _ _ _ => rfl) fun s => ?_
      exact perform (a := .newNamespace (m.snapshot s.heap)) fun _ => trivial

omit hhost in
theorem evaluateAnew (r : RecordId) {a : ModuleRecord σ η} (ha : p → a.Overlooks view) :
    (unhooking view hooks).Shows p (fun _ => True) (Linker.evaluateAnew serve r a) := by
  refine .bind (transition r _) fun _ => ?_
  refine .bind (onBehalf r (evaluateKind hserve r fun hp => ha hp.1)) fun n => ?_
  refine .bind (P := fun _ => True) (.bind (transition r _) fun _ => ?_)
    fun _ => .pure fun _ => trivial
  exact modifyRecord r fun _ => rfl

omit hhost in
theorem evaluate (r : RecordId) :
    (unhooking view hooks).Shows p (fun _ => True) (Linker.evaluate serve r) := by
  refine .bind (recordAt r) fun a => ?_
  cases a.status with
  | linked => exact evaluateAnew hserve r And.right
  | evaluated =>
      cases a.phase.namespace? with
      | some n => exact .pure fun _ => trivial
      | none => exact evaluateAnew hserve r And.right
  | errored => exact .fail _
  | unlinked => exact .fail _
  | linking => exact .fail _
  | evaluating => exact .fail _

theorem answer (c : Call) :
    (unhooking view hooks).Shows p (fun _ => True) (ModuleLoader.answer host serve c) := by
  cases c with
  | require lookup => exact require hserve hhost lookup
  | link specifier referrer => exact link hserve hhost specifier referrer
  | buildSource specifier referrer => exact buildSource hserve hhost specifier referrer
  | buildSynthetic specifier referrer => exact buildSynthetic hserve hhost specifier referrer
  | linkModule r => exact linkModule hserve hhost r
  | evaluate r => exact evaluate hserve r

end

/-- A call goes the same way with hooks that only observe and with none. -/
theorem serve {host : Host σ η} (hhost : host.Observed view) (depth : Nat) (c : Call) :
    (unhooking view hooks).Shows p (fun _ => True) (ModuleLoader.serve host depth c) := by
  induction depth generalizing p c with
  | zero => exact .outOfDepth
  | succ depth ih => exact answer (fun c => ih c) hhost c

/-- A run with hooks that are left as they are goes the same way in every state that differs only in
that it has none. -/
theorem exists_unhooked {x : Eff σ η α} (hx : (unhooking view s.hooks).Shows True P x)
    (hrecords : ∀ r a, s.record? r = some a → a.Overlooks view) {o : Except Fault α}
    {s' : State σ η}
    (hrun : x.runIn s = (o, t)) (hhooks : t.hooks = s.hooks) (hs' : s.Unhooked view s') :
    ∃ t', x.runIn s' = (o, t') ∧ t.Unhooked view t' := by
  have hshows := hx.alike trivial s s' ⟨rfl, ⟨Nat.zero_le _, fun r a _ => hrecords r a⟩, hs'⟩
  rw [hrun] at hshows
  rcases hshows with hlost | ⟨⟨-, -, ht⟩, -, ho⟩
  · exact absurd hlost (hhooks ▸ Nat.lt_irrefl _)
  · exact ⟨(x.runIn s').2, Prod.ext ho rfl, ht⟩

end Unhooking

end ModuleLoader
