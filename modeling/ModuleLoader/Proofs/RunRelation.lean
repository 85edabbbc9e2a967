import ModuleLoader.Loader
import ModuleLoader.Proofs.Ledger
import ModuleLoader.Proofs.Depth
import ModuleLoader.Proofs.Steps
/-!
Relations between where a run begins and where it ends.

Some of what is said of the loader is not about one state but about two, the one
in which a computation began and the one in which it has ended. How it has ended
matters as well. With a value or an error the computation is over, and all that
it had begun is over too. With a panic it has stopped somewhere in the middle, and
what is done after a panic is still done. For want of depth it has just stopped.
So a `RunRelation` has three parts, each weaker than the one before: `returns` for
the first kind of end, `unwinds` for a panic and `reaches` for any end. They may
be followed one after the other, and that is enough for a rule for each way in
which computations are put together.

A relation that holds of every step that has nothing to do with required files, of
lookups and of the actions of programs, holds of all that the loader does
(`RunRelation.HoldsOfSteps.answer`).
-/

namespace ModuleLoader

variable {σ η α β : Type}

namespace Eff

/-- Wherever the computation ends `I` holds. If it ends with a panic `K` holds as well, and if it
ends with an error then `J` does; if it ends with a value then so does `P`. -/
def Returns (I K J : State σ η → Prop) (s : State σ η) (x : Eff σ η α)
    (P : α → State σ η → Prop) : Prop :=
  I (x.runIn s).2 ∧
    match (x.runIn s).1 with
    | .ok a => J (x.runIn s).2 ∧ P a (x.runIn s).2
    | .error (.error _) => J (x.runIn s).2
    | .error (.panic _) => K (x.runIn s).2
    | .error .outOfDepth => True

namespace Returns

variable {I K J I' K' J' : State σ η → Prop} {s : State σ η} {x : Eff σ η α}
  {P P' : α → State σ η → Prop} {Q : β → State σ η → Prop}

theorem of_eq_ok (hx : Returns I K J s x P) {a : α} {t : State σ η} (h : x.runIn s = (.ok a, t)) :
    J t ∧ P a t := by
  obtain ⟨-, hends⟩ := hx
  rwa [h] at hends

theorem pure {a : α} (hI : I s) (hJ : J s) (h : P a s) : Returns I K J s (Pure.pure a) P :=
  ⟨hI, hJ, h⟩

theorem fail {e : Error} (hI : I s) (hJ : J s) : Returns I K J s (Eff.fail e : Eff σ η α) P :=
  ⟨hI, hJ⟩

theorem bind {f : α → Eff σ η β} (hx : Returns I K J s x P)
    (hf : ∀ a t, I t → J t → P a t → Returns I K J t (f a) Q) : Returns I K J s (x >>= f) Q := by
  obtain ⟨hI, hends⟩ := hx
  unfold Returns
  rw [runIn_bind]
  cases hrun : x.runIn s with
  | mk o t =>
      rw [hrun] at hI hends
      match o with
      | .ok a => exact hf a t hI hends.1 hends.2
      | .error (.error e) => exact ⟨hI, hends⟩
      | .error (.panic m) => exact ⟨hI, hends⟩
      | .error .outOfDepth => exact ⟨hI, trivial⟩

/-- A first part that is known leads nowhere but to the second. -/
theorem bind_of_eq_ok {f : α → Eff σ η β} {a : α} {t : State σ η} (hx : x.runIn s = (.ok a, t))
    (hf : Returns I K J t (f a) Q) : Returns I K J s (x >>= f) Q := by
  unfold Returns
  rw [runIn_bind, hx]
  exact hf

theorem settle (hx : Returns I K J s x P) :
    Returns I K J s x.settle fun o t => Answers (fun _ => True) (fun a => P a t) o := by
  obtain ⟨hI, hends⟩ := hx
  unfold Returns
  rw [runIn_settle]
  cases hrun : x.runIn s with
  | mk o t =>
      rw [hrun] at hI hends
      match o with
      | .ok a => exact ⟨hI, hends⟩
      | .error (.error e) => exact ⟨hI, hends, trivial⟩
      | .error (.panic m) => exact ⟨hI, hends⟩
      | .error .outOfDepth => exact ⟨hI, trivial⟩

theorem bind_settle {f : Except Error α → Eff σ η β} (hx : Returns I K J s x P)
    (hI : ∀ t, I t → I' t) (hK : ∀ t, I t → K t → K' t)
    (hf : ∀ o t, I t → J t → Returns I' K' J' t (f o) Q) :
    Returns I' K' J' s (x.settle >>= f) Q := by
  obtain ⟨hreaches, hends⟩ := hx
  unfold Returns
  rw [runIn_bind, runIn_settle]
  cases hrun : x.runIn s with
  | mk o t =>
      rw [hrun] at hreaches hends
      match o with
      | .ok a => exact hf (.ok a) t hreaches hends.1
      | .error (.error e) => exact hf (.error e) t hreaches hends
      | .error (.panic m) => exact ⟨hI t hreaches, hK t hreaches hends⟩
      | .error .outOfDepth => exact ⟨hI t hreaches, trivial⟩

theorem imp (hx : Returns I K J s x P) (hI : ∀ t, I t → I' t) (hK : ∀ t, I t → K t → K' t)
    (hJ : ∀ t, I t → J t → J' t) (hP : ∀ a t, J t → P a t → P' a t) : Returns I' K' J' s x P' := by
  obtain ⟨hI', hends⟩ := hx
  refine ⟨hI _ hI', ?_⟩
  cases hrun : x.runIn s with
  | mk o t =>
      rw [hrun] at hI' hends
      match o with
      | .ok a => exact ⟨hJ t hI' hends.1, hP a t hends.1 hends.2⟩
      | .error (.error e) => exact hJ t hI' hends
      | .error (.panic m) => exact hK t hI' hends
      | .error .outOfDepth => trivial

end Returns

end Eff

open Eff

/-- Relations between the state in which a computation began and one in which it has ended. -/
structure RunRelation (σ η : Type) where
  /-- It has ended, in whatever way. -/
  reaches : State σ η → State σ η → Prop
  /-- It has ended, and not for want of depth. -/
  unwinds : State σ η → State σ η → Prop
  /-- It has ended with a value or an error. -/
  returns : State σ η → State σ η → Prop
  refl : ∀ s, returns s s
  trans : ∀ {s t u}, returns s t → returns t u → returns s u
  unwinds_of_returns : ∀ {s t}, returns s t → unwinds s t
  unwinds_trans : ∀ {s t u}, unwinds s t → unwinds t u → unwinds s u
  reaches_of_unwinds : ∀ {s t}, unwinds s t → reaches s t
  reaches_trans : ∀ {s t u}, reaches s t → reaches t u → reaches s u

namespace RunRelation

variable {C : RunRelation σ η} {s t : State σ η} {x : Eff σ η α}

theorem reaches_of_returns (C : RunRelation σ η) (h : C.returns s t) : C.reaches s t :=
  C.reaches_of_unwinds (C.unwinds_of_returns h)

def From (C : RunRelation σ η) (s : State σ η) (x : Eff σ η α) (P : α → State σ η → Prop) : Prop :=
  Returns (C.reaches s) (C.unwinds s) (C.returns s) s x P

/-- From every state on. -/
def Carries (C : RunRelation σ η) (x : Eff σ η α) : Prop :=
  ∀ s, C.From s x fun _ _ => True

theorem From.of_returns {P : α → State σ η → Prop} (h : C.From t x P) (hst : C.returns s t) :
    Returns (C.reaches s) (C.unwinds s) (C.returns s) t x P :=
  h.imp (fun _ hu => C.reaches_trans (C.reaches_of_returns hst) hu)
    (fun _ _ hu => C.unwinds_trans (C.unwinds_of_returns hst) hu) (fun _ _ hu => C.trans hst hu)
    fun _ _ _ hP => hP

theorem Carries.after (h : C.Carries x) (hst : C.returns s t) :
    Returns (C.reaches s) (C.unwinds s) (C.returns s) t x fun _ _ => True :=
  (h t).of_returns hst

theorem From.imp {P P' : α → State σ η → Prop} (h : C.From s x P)
    (hP : ∀ a t, C.returns s t → P a t → P' a t) : C.From s x P' :=
  Returns.imp h (fun _ h => h) (fun _ _ h => h) (fun _ _ h => h) hP

theorem From.of_eq_ok {P : α → State σ η → Prop} (h : C.From s x P) {a : α}
    (hrun : x.runIn s = (.ok a, t)) : C.returns s t ∧ P a t :=
  Returns.of_eq_ok h hrun

theorem From.pure {a : α} {P : α → State σ η → Prop} (h : P a s) : C.From s (Pure.pure a) P :=
  Returns.pure (C.reaches_of_returns (C.refl s)) (C.refl s) h

theorem From.fail {e : Error} {P : α → State σ η → Prop} : C.From s (Eff.fail e : Eff σ η α) P :=
  Returns.fail (C.reaches_of_returns (C.refl s)) (C.refl s)

theorem From.bind {P : α → State σ η → Prop} {Q : β → State σ η → Prop} {f : α → Eff σ η β}
    (hx : C.From s x P) (hf : ∀ a t, C.returns s t → P a t → C.From t (f a) Q) :
    C.From s (x >>= f) Q :=
  Returns.bind hx fun a t _ hst hP => (hf a t hst hP).of_returns hst

theorem From.bind_of_eq_ok {Q : β → State σ η → Prop} {f : α → Eff σ η β} {a : α}
    (hx : x.runIn s = (.ok a, t)) (hst : C.returns s t) (hf : C.From t (f a) Q) :
    C.From s (x >>= f) Q :=
  Returns.bind_of_eq_ok hx (hf.of_returns hst)

namespace Carries

theorem of_runIn (h : ∀ s, ∃ a, (x.runIn s).1 = .ok a ∧ C.returns s (x.runIn s).2) :
    C.Carries x := by
  intro s
  obtain ⟨a, hok, hst⟩ := h s
  refine ⟨C.reaches_of_returns hst, ?_⟩
  rw [hok]
  exact ⟨hst, trivial⟩

theorem pure (a : α) : C.Carries (Pure.pure a : Eff σ η α) := fun _ => From.pure trivial

theorem fail (e : Error) : C.Carries (Eff.fail e : Eff σ η α) := fun _ => From.fail

theorem panic (m : String) : C.Carries (throw (.panic m) : Eff σ η α) :=
  fun s => ⟨C.reaches_of_returns (C.refl s), C.unwinds_of_returns (C.refl s)⟩

theorem outOfDepth : C.Carries (throw .outOfDepth : Eff σ η α) :=
  fun s => ⟨C.reaches_of_returns (C.refl s), trivial⟩

theorem ofExcept (o : Except Error α) : C.Carries (Eff.ofExcept o : Eff σ η α) := by
  cases o with
  | ok a => exact pure a
  | error e => exact fail e

theorem get : C.Carries (get : Eff σ η (State σ η)) := of_runIn fun s => ⟨s, rfl, C.refl s⟩

theorem modify {f : State σ η → State σ η} (h : ∀ s, C.returns s (f s)) :
    C.Carries (modify f : Eff σ η PUnit) := of_runIn fun s => ⟨⟨⟩, rfl, h s⟩

theorem modifyGet {f : State σ η → α × State σ η} (h : ∀ s, C.returns s (f s).2) :
    C.Carries (modifyGet f : Eff σ η α) := of_runIn fun s => ⟨(f s).1, rfl, h s⟩

theorem bind {f : α → Eff σ η β} (hx : C.Carries x) (hf : ∀ a, C.Carries (f a)) :
    C.Carries (x >>= f) :=
  fun s => (hx s).bind fun a t _ _ => hf a t

theorem settle (hx : C.Carries x) : C.Carries x.settle := fun s =>
  From.imp (Returns.settle (hx s)) fun _ _ _ _ => trivial

theorem recordAt (r : RecordId) : C.Carries (Linker.recordAt r : Eff σ η (ModuleRecord σ η)) := by
  refine bind get fun s => ?_
  cases s.records[r.index]? with
  | some record => exact pure _
  | none => exact panic _

theorem andAfter {y : Eff σ η Unit} {f : Except Fault α → Eff σ η α} (hx : C.Carries x)
    (hy : C.Carries y) (hends : ∀ s, Ends (fun _ => False) (fun _ => True) (y.runIn s).1)
    (hf : ∀ o, o ≠ .error .outOfDepth → f o = (do y; Eff.ofOutcome o))
    (hstop : f (.error .outOfDepth) = throw .outOfDepth) : C.Carries (x.outcome >>= f) := by
  intro s
  obtain ⟨hreaches, hreturns⟩ := hx s
  refine Returns.bind_of_eq_ok (runIn_outcome x s) ?_
  cases hrun : x.runIn s with
  | mk o t =>
      rw [hrun] at hreaches hreturns
      match o with
      | .ok a =>
          rw [hf _ (by simp)]
          exact (hy.bind fun _ => pure a).after hreturns.1
      | .error (.error e) =>
          rw [hf _ (by simp)]
          exact (hy.bind fun _ => fail e).after hreturns
      | .error (.panic m) =>
          rw [hf _ (by simp)]
          -- a panic goes on from wherever what is done after it has ended
          have hreaches' := C.reaches_trans hreaches (hy t).1
          have hlast := (hy t).2
          have hends' := hends t
          unfold Returns
          rw [runIn_bind]
          generalize y.runIn t = end_ at *
          match end_ with
          | (.ok (), u) =>
              exact ⟨hreaches', C.unwinds_trans hreturns (C.unwinds_of_returns hlast.1)⟩
          | (.error (.panic _), u) => exact ⟨hreaches', C.unwinds_trans hreturns hlast⟩
          | (.error .outOfDepth, u) => exact ⟨hreaches', trivial⟩
      | .error .outOfDepth =>
          rw [hstop]
          exact ⟨hreaches, trivial⟩

end Carries

/-! ### Relations that hold of all that the loader does -/

structure HoldsOfSteps (C : RunRelation σ η) (serve : (c : Call) → Eff σ η c.Reply) : Prop where
  /-- What lies apart from the required files, and from the hooks, may change. -/
  apart : ∀ s t : State σ η, t.cache = s.cache → t.exports = s.exports → t.trace = s.trace →
    t.hooks = s.hooks → C.returns s t
  ordinary : ∀ s (e : Event), e.IsOrdinary → C.returns s (s.emit e)
  action : ∀ (a : Action σ η) s, C.returns s (a.carryOut s).2
  call : ∀ c, C.Carries (serve c)

namespace HoldsOfSteps

variable {host : Host σ η} {serve : (c : Call) → Eff σ η c.Reply} (h : C.HoldsOfSteps serve)

include h

theorem emit {e : Event} (he : e.IsOrdinary) : C.Carries (Eff.emit e : Eff σ η Unit) :=
  .modify fun s => h.ordinary s e he

theorem perform (a : Action σ η) : C.Carries (Eff.perform a) :=
  .modifyGet fun s => h.action a s

theorem program (p : Program σ η α) : C.Carries (p.run serve) := by
  induction p with
  | done a => exact .pure a
  | panic m => exact .panic m
  | act a next ih => exact .bind (h.perform a) fun r => ih r
  | call c next ih => exact .bind (h.call c).settle fun r => ih r

theorem script (x : Script σ η α) : C.Carries (x.exec serve) :=
  .bind (h.program _) fun _ => .ofExcept _

theorem from_fetch (p : Path) (s : State σ η) :
    C.From s (Legacy.fetch host p) fun _ t => t = s.emit (.read p) := by
  refine From.bind_of_eq_ok (runIn_emit (.read p) s) (h.ordinary s _ trivial) ?_
  cases host.files.read p with
  | ok text => exact From.pure rfl
  | error e => exact From.fail

theorem fetch (p : Path) : C.Carries (Legacy.fetch host p) := fun s =>
  (h.from_fetch p s).imp fun _ _ _ _ => trivial

theorem provide (b : Registry (Provider σ η)) (specifier : String) :
    C.Carries (Legacy.provide serve b specifier) := by
  unfold Legacy.provide
  cases b.find? specifier with
  | none => exact .fail _
  | some provider => exact .bind (h.emit trivial) fun _ => h.program _

omit h in
/-- A callback has no way to fail. -/
theorem ends_callback (event : Event) (call : LookupCall)
    (f? : Option (LookupCall → Program σ η Unit)) (s : State σ η) :
    Ends (fun _ => False) (fun _ => True) ((Hook.callback serve event call f?).runIn s).1 := by
  cases f? with
  | none => trivial
  | some f =>
      have hrun : Keeps (fun _ : State σ η => True) (fun _ => False) (fun _ => True)
          ((f call).run serve) ((f call).run serve) :=
        (f call).keeps_run (fun _ _ _ => trivial) (fun c => Continues.refl (serve c)) _
      exact (((Keeps.modify fun _ _ => trivial).bind fun _ _ => hrun) s trivial).2.1

section

variable (hhook : ∀ s (e : Event), e.IsHook → C.returns s (s.emit e))

include hhook

theorem callback (event : Event) (he : event.IsHook) (call : LookupCall)
    (f? : Option (LookupCall → Program σ η Unit)) :
    C.Carries (Hook.callback serve event call f?) := by
  cases f? with
  | none => exact .pure ()
  | some f => exact .bind (.modify fun s => hhook s event he) fun _ => h.program _

theorem intercept (call : LookupCall) {x : Eff σ η Value} (hx : C.Carries x)
    (layers : List (Layer η)) : C.Carries (ModuleLoader.intercept host serve call x layers) := by
  induction layers with
  | nil => exact hx
  | cons outer inner ih =>
      refine .bind (h.callback hhook (.before outer.guard call) trivial call _) fun _ => ?_
      have hafter := h.callback hhook (.after outer.guard call) trivial call
        (host.hook outer.hook).after?
      refine ih.andAfter hafter (ends_callback _ _ _) (fun o ho => ?_) rfl
      match o, ho with
      | .ok _, _ => rfl
      | .error (.error _), _ => rfl
      | .error (.panic _), _ => rfl

/-- A lookup that has a value has it from behind the hooks, which lead there and back. -/
theorem intercept_eq_ok (call : LookupCall) {x : Eff σ η Value} (layers : List (Layer η))
    {v : Value} (hrun : (ModuleLoader.intercept host serve call x layers).runIn s = (.ok v, t)) :
    ∃ m m', C.returns s m ∧ x.runIn m = (.ok v, m') ∧ C.returns m' t := by
  induction layers generalizing s t with
  | nil => exact ⟨s, t, C.refl s, hrun, C.refl t⟩
  | cons outer inner ih =>
      obtain ⟨_, a, hbefore, hrun⟩ := runIn_bind_eq_ok.1 hrun
      obtain ⟨o, b, hinner, hrun⟩ := runIn_bind_eq_ok.1 hrun
      rw [runIn_outcome, Prod.mk.injEq, Except.ok.injEq] at hinner
      obtain ⟨rfl, rfl⟩ := hinner
      have hsa := (From.of_eq_ok
        (h.callback hhook (.before outer.guard call) trivial call _ s) hbefore).1
      generalize hin : (ModuleLoader.intercept host serve call x inner).runIn a = inside at hrun
      obtain ⟨o, b⟩ := inside
      have hpass : (do
          Hook.callback serve (.after outer.guard call) call (host.hook outer.hook).after?
          Eff.ofOutcome o).runIn b = (.ok v, t) := by
        match o with
        | .ok _ => exact hrun
        | .error (.error _) => exact hrun
        | .error (.panic _) => exact hrun
        | .error .outOfDepth => simp at hrun
      obtain ⟨_, c, hafter, hend⟩ := runIn_bind_eq_ok.1 hpass
      rw [runIn_ofOutcome, Prod.mk.injEq] at hend
      obtain ⟨rfl, rfl⟩ := hend
      obtain ⟨m, m', ham, hm, hmb⟩ := ih hin
      have hbc := (From.of_eq_ok
        (h.callback hhook (.after outer.guard call) trivial call _ b) hafter).1
      exact ⟨m, m', C.trans hsa ham, hm, C.trans hmb hbc⟩

theorem require (hbase : ∀ call, C.Carries (Legacy.base host serve call)) (call : LookupCall) :
    C.Carries (Legacy.require host serve call) :=
  .bind .get fun _ => h.intercept hhook call (hbase call) _

end

/-! #### Records -/

theorem addRecord (record : ModuleRecord σ η) : C.Carries (Linker.addRecord record) :=
  .modifyGet fun s => h.apart s _ rfl rfl rfl rfl

theorem buildSource (specifier : String) (referrer : Referrer) :
    C.Carries (Linker.buildSource host serve specifier referrer) := by
  refine .bind (.ofExcept _) fun p => .bind (h.fetch p) fun text => ?_
  cases p.fileUrl? with
  | none => exact .fail _
  | some url =>
      exact .bind (h.emit trivial) fun _ => .bind (h.script _) fun _ => h.addRecord _

theorem modifyPhase (r : RecordId) (f : Phase → Phase) : C.Carries (Linker.modifyPhase r f) :=
  .modify fun s => h.apart s _ rfl rfl rfl rfl

theorem transition (r : RecordId) (status : Status) : C.Carries (Linker.transition r status) := by
  refine .bind (.recordAt r) fun record => ?_
  split
  · exact h.modifyPhase r _
  · exact .fail _

theorem onBehalf (r : RecordId) {work : Eff σ η α} (hwork : C.Carries work) :
    C.Carries (Linker.onBehalf r work) := by
  refine .bind hwork.settle fun o => ?_
  cases o with
  | ok a => exact .pure a
  | error e =>
      refine .bind (.bind (.recordAt r) fun record => ?_) fun _ => .fail e
      split
      · exact h.modifyPhase r _
      · exact .pure ()

theorem evaluateAll (imports : OrderedMap Namespace) (deps : List (String × RecordId)) :
    C.Carries (Linker.evaluateAll serve imports deps) := by
  induction deps generalizing imports with
  | nil => exact .pure imports
  | cons dep rest ih => exact .bind (h.call _) fun n => ih _

theorem evaluateKind (r : RecordId) (record : ModuleRecord σ η) :
    C.Carries (Linker.evaluateKind serve r record) := by
  unfold Linker.evaluateKind
  cases record.kind with
  | source m =>
      refine .bind (h.evaluateAll _ _) fun imports => .bind (.ofExcept _) fun importMeta => ?_
      exact .bind (h.emit trivial) fun _ => h.script _
  | synthetic m => exact .bind .get fun _ => h.perform _

theorem evaluateAnew (r : RecordId) (record : ModuleRecord σ η) :
    C.Carries (Linker.evaluateAnew serve r record) := by
  refine .bind (h.transition r _) fun _ => ?_
  refine .bind (h.onBehalf r (h.evaluateKind r record)) fun n => ?_
  exact .bind (.bind (h.transition r _) fun _ => h.modifyPhase r _) fun _ => .pure n

theorem evaluate (r : RecordId) : C.Carries (Linker.evaluate serve r) := by
  refine .bind (.recordAt r) fun record => ?_
  cases record.status with
  | linked => exact h.evaluateAnew r record
  | evaluated =>
      cases record.phase.namespace? with
      | some n => exact .pure n
      | none => exact h.evaluateAnew r record
  | errored => exact .fail _
  | unlinked => exact .fail _
  | linking => exact .fail _
  | evaluating => exact .fail _

/-! #### Calls

From here on the relation is known to hold of lookups as well. -/

variable (hrequire : ∀ call, C.Carries (Legacy.require host serve call))

include hrequire

theorem originOf (specifier : String) (referrer : Referrer) :
    C.Carries (Linker.originOf host serve specifier referrer) := by
  unfold Linker.originOf
  split
  · exact .bind (h.provide _ _) fun _ => .pure _
  · exact .bind (.ofExcept _) fun _ => .bind (hrequire _) fun _ => .pure _

theorem buildSynthetic (specifier : String) (referrer : Referrer) :
    C.Carries (Linker.buildSynthetic host serve specifier referrer) :=
  .bind (h.originOf hrequire specifier referrer) fun _ => .bind .get fun _ => h.addRecord _

theorem buildAt (specifier : String) (referrer : Referrer) (p : Path) :
    C.Carries (Linker.buildAt host serve specifier referrer p) := by
  refine .bind (.ofExcept _) fun dispatch => ?_
  match dispatch with
  | some .source =>
      dsimp only
      split
      · exact .fail _
      · exact h.buildSource _ _
  | some .synthetic => exact h.buildSynthetic hrequire _ _
  | none => exact .fail _

theorem link (specifier : String) (referrer : Referrer) :
    C.Carries (Linker.link host serve specifier referrer) := by
  unfold Linker.link
  split
  · exact h.buildSynthetic hrequire _ _
  · refine .bind (.ofExcept _) fun location => ?_
    cases location.path? with
    | some p => exact h.buildAt hrequire _ _ p
    | none => exact h.buildSynthetic hrequire _ _

theorem linkRequests (r : RecordId) (referrer : Referrer) (specifiers : List String) :
    C.Carries (Linker.linkRequests host serve r referrer specifiers) := by
  induction specifiers with
  | nil => exact .pure ()
  | cons specifier rest ih =>
      refine .bind (h.link hrequire specifier referrer) fun dep => .bind (h.call _) fun _ => ?_
      exact .bind (.modify fun s => h.apart s _ rfl rfl rfl rfl) fun _ => ih

theorem linkModule (r : RecordId) : C.Carries (Linker.linkModule host serve r) := by
  refine .bind (.recordAt r) fun record => ?_
  cases record.status with
  | unlinked =>
      refine .bind (h.transition r _) fun _ => ?_
      exact .bind (h.onBehalf r (h.linkRequests hrequire r _ _)) fun _ => h.transition r _
  | linking => exact .fail _
  | errored => exact .fail _
  | linked => exact .pure ()
  | evaluating => exact .pure ()
  | evaluated => exact .pure ()

/-- The relation holds of whatever is asked of the loader. -/
theorem answer (c : Call) : C.Carries (ModuleLoader.answer host serve c) := by
  cases c with
  | require lookup => exact hrequire lookup
  | link specifier referrer => exact h.link hrequire specifier referrer
  | buildSource specifier referrer => exact h.buildSource specifier referrer
  | buildSynthetic specifier referrer => exact h.buildSynthetic hrequire specifier referrer
  | linkModule r => exact h.linkModule hrequire r
  | evaluate r => exact h.evaluate r

end HoldsOfSteps

end RunRelation

end ModuleLoader
