import ModuleLoader.Proofs.Confined
import ModuleLoader.Proofs.Worlds
/-!
Runs that cannot tell what is outside.

Let the same run be made twice, once as things are and once with something else in the
objects that are foreign to it. If the code that is run keeps inside, the two go the
same way step by step and end in the same way, and the states that they lead to differ
in those objects alone, which are in each what they were before. This is proved by going
through the linker once more, with each computation in both worlds.

It holds as long as only modules are loaded. What scripts require is shared by all
contexts, and a script runs in a context of its own. So when the run comes to look
something up for a script, or to provide a built-in module, it has strayed, and no more
is said of it.
-/

namespace ModuleLoader

open Eff

variable {σ η α β : Type}

/-! ### Straying -/

/-- The event is of something being loaded that is not a module: a lookup is made, or there is a
hook to be called before, or a built-in module is provided. -/
def Event.IsLegacy : Event → Prop
  | .lookup _ | .provide _ | .before .. => True
  | _ => False

instance : DecidablePred Event.IsLegacy
  | .lookup _ | .provide _ | .before .. => .isTrue trivial
  | .note _ | .read _ | .parse .. | .compile .. | .evaluate .. | .answer .. | .enter .. | .leave ..
  | .assign .. | .evict .. | .after .. => .isFalse id

def State.Strays (mark : Nat) (s : State σ η) : Prop :=
  ∃ e ∈ s.trace.toList.drop mark, e.IsLegacy

theorem State.Strays.emit {mark : Nat} {s : State σ η} (h : s.Strays mark) (e : Event) :
    (s.emit e).Strays mark := by
  obtain ⟨e', he', hlegacy⟩ := h
  refine ⟨e', ?_, hlegacy⟩
  rw [State.emit, Array.toList_push, List.drop_append]
  exact List.mem_append_left _ he'

theorem State.strays_emit {mark : Nat} {s : State σ η} (hmark : mark ≤ s.trace.size) {e : Event}
    (he : e.IsLegacy) : (s.emit e).Strays mark := by
  refine ⟨e, ?_, he⟩
  rw [State.emit, Array.toList_push, List.drop_append_of_le_length (by simpa using hmark)]
  exact List.mem_append_right _ (List.mem_singleton.2 rfl)

theorem State.Strays.carryOut {mark : Nat} {s : State σ η} (h : s.Strays mark) (a : Action σ η) :
    (a.carryOut s).2.Strays mark := by
  cases a with
  | note line => exact h.emit (.note line)
  | writeExports r value => exact State.Strays.emit (s := { s with exports := _ }) h _
  | evict p => exact State.Strays.emit (s := { s with cache := _ }) h _
  | _ => exact h

theorem survives_strays (mark : Nat) (host : Host σ η) : Survives (State.Strays mark) host where
  emit _ e _ hs := hs.emit e
  action a _ hs := hs.carryOut a
  addChild _ _ _ hs := hs
  enter s _ _ _ hs := State.Strays.emit (s := { s with heap := _, exports := _, cache := _ }) hs _
  leave s _ outcome hs := by
    cases outcome <;> exact State.Strays.emit (s := { s with cache := _ }) hs _
  parse s _ _ _ hs := State.Strays.emit (s := { s with cache := _ }) hs _
  add _ _ _ hs := hs
  modifyRecord _ _ _ _ hs := hs

/-! ### Two worlds -/

structure Overlay (σ η : Type) where
  fence : Fence σ
  /-- What modules are made of. -/
  compiled : Compiled σ η → Prop
  /-- The first record of the run. -/
  first : Nat
  /-- Where in the trace the run begins. -/
  mark : Nat
  contents : ObjectRef → Option Properties
  foreign : ∀ o ps, contents o = some ps → fence.foreign (.object o)

namespace Overlay

/-- The state as it is in the other world. -/
def image (M : Overlay σ η) (s : State σ η) : State σ η := s.overlay M.contents

abbrev Sealed (M : Overlay σ η) (s : State σ η) : Prop :=
  s.Sealed M.fence M.compiled M.first M.mark

/-- Runs from a sealed state, as things are and as they are in the other world. A run is lost when
it has strayed. -/
def worlds (M : Overlay σ η) : Worlds σ η where
  lost := State.Strays M.mark
  alike s t := M.Sealed s ∧ t = M.image s

abbrev Shows (M : Overlay σ η) (p : Prop) (P : α → Prop) (x : Eff σ η α) : Prop :=
  M.worlds.Shows p P x

variable {M : Overlay σ η} {p : Prop} {P : α → Prop} {x : Eff σ η α}

namespace Shows

theorem strays (h : M.Shows p P x) : Eff.Stays (State.Strays M.mark) (fun _ => True) x :=
  Worlds.Shows.keeps h

theorem shows (h : M.Shows p P x) (hp : p) (s : State σ η) (hs : M.Sealed s) :
    (x.runIn s).2.Strays M.mark ∨
      M.Sealed (x.runIn s).2 ∧ Ends (fun _ => True) P (x.runIn s).1 ∧
        x.runIn (M.image s) = ((x.runIn s).1, M.image (x.runIn s).2) :=
  (h.alike hp s (M.image s) ⟨hs, rfl⟩).imp id fun ⟨⟨ht, himage⟩, hends, heq⟩ =>
    ⟨ht, hends, Prod.ext heq himage⟩

theorem of_not (hx : Eff.Stays (State.Strays M.mark) (fun _ => True) x) (hp : ¬ p) :
    M.Shows p P x := Worlds.Shows.of_not (fun s hs => (hx s hs).1) hp

theorem of_strays (hx : Eff.Stays (State.Strays M.mark) (fun _ => True) x)
    (h : ∀ s, M.mark ≤ s.trace.size → (x.runIn s).2.Strays M.mark) : M.Shows p P x :=
  ⟨fun s hs => (hx s hs).1, fun _ s _ hst => Or.inl (h s hst.1.mark)⟩

theorem modifyGet {f : State σ η → α × State σ η}
    (hstrays : ∀ s, s.Strays M.mark → (f s).2.Strays M.mark)
    (h : p → ∀ s, M.Sealed s → M.Sealed (f s).2 ∧ P (f s).1 ∧
      f (M.image s) = ((f s).1, M.image (f s).2)) : M.Shows p P (modifyGet f : Eff σ η α) := by
  refine Worlds.Shows.modifyGet hstrays fun hp s t ⟨hs, hst⟩ => ?_
  obtain ⟨ht, hP, heq⟩ := h hp s hs
  rw [hst, heq]
  exact ⟨⟨ht, rfl⟩, hP, rfl⟩

theorem modify {f : State σ η → State σ η} (hstrays : ∀ s, s.Strays M.mark → (f s).Strays M.mark)
    (h : p → ∀ s, M.Sealed s → M.Sealed (f s) ∧ f (M.image s) = M.image (f s)) :
    M.Shows p (fun _ => True) (modify f : Eff σ η PUnit) := by
  refine Worlds.Shows.modify hstrays fun hp s t ⟨hs, hst⟩ => ?_
  obtain ⟨ht, heq⟩ := h hp s hs
  exact ⟨ht, hst ▸ heq⟩

theorem emit (e : Event) : M.Shows p (fun _ => True) (Eff.emit e : Eff σ η Unit) :=
  .modify (f := (·.emit e)) (fun _ hs => hs.emit e) fun _ _ hs => ⟨State.Sealed.emit hs e, rfl⟩

theorem perform {a : Action σ η} (ha : p → a.Confined M.fence) :
    M.Shows p (fun r => a.Clean M.fence r ∧ ∀ x, a.Reveals (M.first ≤ ·.index) r x →
      M.first ≤ x.index)
      (Eff.perform a) := by
  refine .modifyGet (fun _ hs => hs.carryOut a) fun hp s hs => ?_
  obtain ⟨ht, hclean⟩ := State.Sealed.carryOut hs (ha hp)
  have hshown : ∀ x, a.Reveals (M.first ≤ ·.index) (a.carryOut s).1 x → M.first ≤ x.index :=
    fun _ => hs.records.of_reveals fun _ h => h.1.2.2
  exact ⟨ht, ⟨hclean, hshown⟩, Action.carryOut_overlay M.foreign hs (ha hp)⟩

theorem recordAt (r : RecordId) :
    M.Shows (M.first ≤ r.index) (·.Inside M.fence M.compiled M.first)
      (Linker.recordAt r : Eff σ η (ModuleRecord σ η)) where
  lost s hs := by
    rcases Linker.runIn_recordAt_cases r s with ⟨a, -, hrun⟩ | ⟨m, hrun⟩ <;> exact hrun ▸ hs
  alike hr s t hst := by
    obtain ⟨hs, rfl⟩ := hst
    refine Or.inr ?_
    cases ha : s.records[r.index]? with
    | some a =>
        have himage : (M.image s).records[r.index]? = some a := ha
        rw [Linker.runIn_recordAt ha, Linker.runIn_recordAt himage]
        exact ⟨⟨hs, rfl⟩, hs.records.all r a hr ha, rfl⟩
    | none =>
        have himage : (M.image s).records[r.index]? = none := ha
        rw [Linker.runIn_recordAt_of_eq_none ha, Linker.runIn_recordAt_of_eq_none himage]
        exact ⟨⟨hs, rfl⟩, trivial, rfl⟩

theorem addRecord (identifier : String) {referrer : Referrer} {m : SourceModule σ η}
    (hown : p → M.fence.own referrer.context) (hm : p → M.compiled m.compiled) :
    M.Shows p (M.first ≤ ·.index)
      (Linker.addRecord (.fresh identifier referrer (.source m)) : Eff σ η RecordId) := by
  refine .modifyGet (fun s hs => hs) fun hp s hs => ⟨?_, hs.records.le, rfl⟩
  refine State.Sealed.add hs ⟨⟨hown hp, ?_, nofun⟩, ⟨m, rfl⟩, nofun⟩
  rintro _ ⟨⟩
  exact hm hp

theorem modifyPhase (r : RecordId) {f : Phase → Phase}
    (hf : p → ∀ q n, (f q).namespace? = some n →
      q.namespace? = some n ∨ Properties.Avoids M.fence.foreign n.contents) :
    M.Shows p (fun _ => True) (Linker.modifyPhase r f : Eff σ η Unit) :=
  .modify (fun _ hs => hs) fun hp _ hs =>
    ⟨State.Sealed.modifyRecord hs r fun a ha => ⟨ha.1, ha.2.1, fun n hn =>
      (hf hp a.phase n hn).elim (ha.2.2 n) id⟩, rfl⟩

theorem addDependency (r : RecordId) (specifier : String) {dep : RecordId}
    (hdep : p → M.first ≤ dep.index) :
    M.Shows p (fun _ => True) (Linker.addDependency r specifier dep : Eff σ η Unit) := by
  refine .modify (fun _ hs => hs)
    fun hp _ hs => ⟨State.Sealed.modifyRecord hs r fun a ha => ?_, rfl⟩
  refine ⟨⟨ha.1.1, ha.1.2.1, fun d hd => ?_⟩, ha.2⟩
  rcases List.mem_append.1 hd with hd | hd
  · exact ha.1.2.2 d hd
  · exact List.mem_singleton.1 hd ▸ hdep hp

theorem transition {r : RecordId} (hr : p → M.first ≤ r.index) (status : Status) :
    M.Shows p (fun _ => True) (Linker.transition r status : Eff σ η Unit) := by
  refine .bind ((recordAt r).imp hr fun _ _ h => h) fun a => ?_
  split
  · exact modifyPhase r fun _ _ _ => Or.inl
  · exact .fail _

theorem complete {r : RecordId} (hr : p → M.first ≤ r.index) {n : Namespace}
    (hn : p → Properties.Avoids M.fence.foreign n.contents) :
    M.Shows p (fun _ => True) (Linker.complete r n : Eff σ η Unit) := by
  refine .bind (transition hr _) fun _ => modifyPhase r ?_
  rintro hp _ _ ⟨⟩
  exact Or.inr (hn hp.1)

theorem onBehalf {r : RecordId} (hr : p → M.first ≤ r.index) {work : Eff σ η α}
    (hwork : M.Shows p P work) : M.Shows p P (Linker.onBehalf r work) := by
  refine .bind hwork.settle fun o => ?_
  cases o with
  | ok a => exact .pure And.right
  | error e =>
      have hmark : M.Shows (p ∧ Answers (fun _ => True) P (.error e)) (fun _ => True)
          (Linker.markFailed r e : Eff σ η Unit) := by
        refine .bind ((recordAt r).imp (fun hp => hr hp.1) fun _ _ h => h) fun a => ?_
        split
        · exact modifyPhase r fun _ _ _ => Or.inl
        · exact .pure fun _ => trivial
      exact .bind hmark fun _ => .fail e

theorem fetch (host : Host σ η) (path : Path) :
    M.Shows p (fun _ => True) (Legacy.fetch host path : Eff σ η String) := by
  refine .bind (emit (.read path)) fun _ => ?_
  cases host.files.read path with
  | ok text => exact .pure fun _ => trivial
  | error e => exact .fail _

end Shows

/-! ### Programs -/

section

variable {host : Host σ η} {serve : (c : Call) → Eff σ η c.Reply}

abbrev ShowsCall (M : Overlay σ η) (c : Call) (x : Eff σ η c.Reply) : Prop :=
  M.Shows (c.OnBehalf M.fence.own (M.first ≤ ·.index))
    (fun r => c.Gives (M.first ≤ ·.index) r ∧ c.Clean M.fence.foreign r) x

variable (hserve : ∀ c : Call, M.ShowsCall c (serve c))

include hserve

theorem shows_program {pr : Program σ η α} {known : RecordId → Prop} {P Q : α → Prop}
    (hpr : p → pr.OnBehalf M.fence.own P known) (hconf : p → pr.Confined M.fence Q)
    (hknown : p → ∀ x, known x → M.first ≤ x.index) :
    M.Shows p (fun a => P a ∧ Q a) (pr.run serve) := by
  induction pr generalizing p known with
  | done a => exact .pure fun hp => ⟨hpr hp, hconf hp⟩
  | panic m => exact .panic m
  | act a next ih =>
      refine .bind (Shows.perform fun hp => (hconf hp).1) fun r => ?_
      refine ih r (fun hp => hpr hp.1 r) (fun hp => (hconf hp.1).2 r hp.2.1) fun hp x hx => ?_
      exact hx.elim (hknown hp.1 x) fun hshown => hp.2.2 x (hshown.mono (hknown hp.1))
  | call c next ih =>
      have hcall := (hserve c).imp (fun hp => (hpr hp).1.mono (hknown hp)) fun _ _ h => h
      refine .bind hcall.settle fun r => ?_
      refine ih r (fun hp => (hpr hp.1).2 r) (fun hp => hconf hp.1 r ?_) fun hp x hx => ?_
      · cases r with
        | ok reply => exact hp.2.2
        | error e => trivial
      · refine hx.elim (hknown hp.1 x) fun hx => ?_
        cases r with
        | ok reply => exact hp.2.1 x hx
        | error e => cases c <;> exact hx.elim

theorem shows_script {x : Script σ η α} {P Q : α → Prop}
    (hx : p → x.run.OnBehalf M.fence.own (Answers (fun _ => True) P) fun _ => False)
    (hconf : p → x.run.Confined M.fence (Answers (fun _ => True) Q)) :
    M.Shows p (fun a => P a ∧ Q a) (x.exec serve) := by
  refine .bind (shows_program hserve hx hconf fun _ _ => False.elim) fun o => .ofExcept fun hp => ?_
  cases o with
  | ok a => exact hp.2
  | error e => trivial

/-! ### What strays -/

omit hserve in
theorem strays_after_emit {e : Event} (he : e.IsLegacy) {y : Eff σ η α}
    (hy : Eff.Stays (State.Strays M.mark) (fun _ => True) y) {s : State σ η}
    (hmark : M.mark ≤ s.trace.size) :
    (((Eff.emit e : Eff σ η Unit) >>= fun _ => y).runIn s).2.Strays M.mark :=
  (hy _ (State.strays_emit hmark he)).1

theorem strays_base (call : LookupCall) {s : State σ η} (hmark : M.mark ≤ s.trace.size) :
    ((Legacy.base host serve call).runIn s).2.Strays M.mark := by
  have hinvariant := (survives_strays M.mark host).runInvariant fun c => (hserve c).strays
  refine strays_after_emit (e := .lookup call) trivial ?_ hmark
  cases hf : host.lookup? with
  | some f => exact Script.keeps_exec (hinvariant.foreign.lookup f hf call)
  | none => exact hinvariant.load call

/-- A lookup through hooks is made in the end, or there is a hook to be called before. -/
theorem strays_intercept (call : LookupCall) (layers : List (Layer η)) {s : State σ η}
    (hmark : M.mark ≤ s.trace.size) :
    ((intercept host serve call (Legacy.base host serve call) layers).runIn s).2.Strays M.mark := by
  have hinvariant := (survives_strays M.mark host).runInvariant fun c => (hserve c).strays
  induction layers generalizing s with
  | nil => exact strays_base hserve call hmark
  | cons outer inner ih =>
      have hinner := hinvariant.intercept call (hinvariant.base call) inner
      -- what comes after the first hook strays, if the run has not strayed by then
      have hrest : ∀ u : State σ η, (M.mark ≤ u.trace.size ∨ u.Strays M.mark) →
          ((intercept host serve call (Legacy.base host serve call) inner).runIn u).2.Strays
            M.mark := fun u hu => hu.elim ih fun hu => (hinner u hu).1
      rw [intercept, runIn_bind]
      generalize hbefore : (Hook.callback serve (.before outer.guard call) call
        (host.hook outer.hook).before?).runIn s = first
      obtain ⟨o, u⟩ := first
      have hu : (o = .ok () ∧ u = s) ∨ u.Strays M.mark := by
        cases hf : (host.hook outer.hook).before? with
        | none =>
            rw [hf] at hbefore
            obtain ⟨rfl, rfl⟩ := Prod.mk.inj hbefore
            exact Or.inl ⟨rfl, rfl⟩
        | some f =>
            rw [hf] at hbefore
            have hstrays : ((Hook.callback serve (.before outer.guard call) call (some f)).runIn
                s).2.Strays M.mark :=
              strays_after_emit (e := .before outer.guard call) trivial
                (hinvariant.foreign.before outer.hook f hf call) hmark
            rw [hbefore] at hstrays
            exact Or.inr hstrays
      match o with
      | .error e => exact hu.resolve_left fun h => by cases h.1
      | .ok () =>
          have ht := hrest u (hu.imp (fun h : _ ∧ u = s => h.2 ▸ hmark) id)
          dsimp only
          rw [runIn_bind, runIn_outcome]
          generalize
            (intercept host serve call (Legacy.base host serve call) inner).runIn u = second
            at ht
          match second with
          | (.ok _, t) => exact (hinvariant.after outer call _ t ht).1
          | (.error (.error _), t) => exact (hinvariant.after outer call _ t ht).1
          | (.error (.panic _), t) => exact (hinvariant.after outer call _ t ht).1
          | (.error .outOfDepth, t) => exact ht

theorem shows_require (call : LookupCall) :
    M.Shows p (fun _ => False) (Legacy.require host serve call) := by
  have hinvariant := (survives_strays M.mark host).runInvariant fun c => (hserve c).strays
  exact Shows.of_strays (hinvariant.require call)
    fun s hmark => strays_intercept hserve call _ hmark

theorem shows_provide (specifier : String) :
    M.Shows p (fun _ => False) (Legacy.provide serve host.linkerBuiltins specifier) := by
  unfold Legacy.provide
  cases host.linkerBuiltins.find? specifier with
  | none => exact .fail _
  | some provider =>
      have hrun := (survives_strays M.mark host).program (fun c => (hserve c).strays) provider
      refine Shows.of_strays (.bind ((Shows.emit (p := p) (.provide specifier)).strays)
        fun _ _ => hrun) ?_
      exact fun s hmark => strays_after_emit (e := .provide specifier) trivial hrun hmark

/-! ### Building records -/

/-- A module that is not made from source has no record, unless the run has strayed. -/
theorem shows_buildSynthetic (specifier : String) (referrer : Referrer) :
    M.Shows p (M.first ≤ ·.index) (Linker.buildSynthetic host serve specifier referrer) := by
  have horigin : M.Shows p (fun _ => False) (Linker.originOf host serve specifier referrer) := by
    unfold Linker.originOf
    split
    · exact .bind (shows_provide hserve _) fun _ => .pure And.right
    · exact .bind (.ofExcept_any _) fun _ => .bind (shows_require hserve _) fun _ => .pure And.right
  have hinvariant := (survives_strays M.mark host).runInvariant fun c => (hserve c).strays
  -- there is no value to wrap but after a lookup or from a provider
  refine .bind horigin fun origin => Shows.of_not ?_ And.right
  exact .bind .get fun s _ =>
    (hinvariant.addRecord trivial _ fun m hm => by cases hm).imp (fun _ h => h) fun _ _ => trivial

section

variable (hhost : host.OnBehalf M.fence.own M.compiled)
  (hconf : host.Confined M.fence.own M.fence.holds M.compiled)

include hhost hconf

theorem shows_buildSource (specifier : String) {referrer : Referrer}
    (hown : p → M.fence.own referrer.context) :
    M.Shows p (M.first ≤ ·.index) (Linker.buildSource host serve specifier referrer) := by
  refine .bind (.ofExcept_any _) fun path => .bind (Shows.fetch host path) fun text => ?_
  cases path.fileUrl? with
  | none => exact .fail _
  | some url =>
      have hcompile : M.Shows p (fun c => M.compiled c ∧ True)
          ((host.compile text ⟨path.text, referrer.context, url⟩).exec serve) :=
        shows_script hserve (fun hp => hhost.compile text _ (hown hp)) fun hp =>
          hconf.compile M.fence.foreign text _ (hown hp)
      refine .bind (Shows.emit _)
        fun _ => .bind (hcompile.imp (fun hp => hp.1.1.1) fun _ _ h => h) ?_
      exact fun c => Shows.addRecord _ (fun hp => hown hp.1.1.1.1) fun hp => hp.2.1

theorem shows_link (specifier : String) {referrer : Referrer}
    (hown : p → M.fence.own referrer.context) :
    M.Shows p (M.first ≤ ·.index) (Linker.link host serve specifier referrer) := by
  rw [Linker.link_eq_plan]
  refine .bind (.ofExcept_any _) fun plan => ?_
  obtain ⟨dispatch, name⟩ := plan
  cases dispatch with
  | source => exact shows_buildSource hserve hhost hconf name fun hp => hown hp.1
  | synthetic => exact shows_buildSynthetic hserve name referrer

end

/-! ### Linking and evaluating -/

section

variable (hhost : host.OnBehalf M.fence.own M.compiled)
  (hconf : host.Confined M.fence.own M.fence.holds M.compiled)

include hhost hconf

theorem shows_linkRequests {r : RecordId} {referrer : Referrer}
    (hown : p → M.fence.own referrer.context) (specifiers : List String) :
    M.Shows p (fun _ => True) (Linker.linkRequests host serve r referrer specifiers) := by
  induction specifiers generalizing p with
  | nil => exact .pure fun _ => trivial
  | cons specifier rest ih =>
      refine .bind (shows_link hserve hhost hconf specifier hown) fun dep => ?_
      refine .bind ((hserve (.linkModule dep)).imp And.right fun _ _ h => h) fun _ => ?_
      refine .bind (Shows.addDependency r specifier fun hp => hp.1.2) fun _ => ?_
      exact ih fun hp => hown hp.1.1.1

theorem shows_linkModule (r : RecordId) :
    M.Shows (M.first ≤ r.index) (fun _ => True) (Linker.linkModule host serve r) := by
  refine .bind (Shows.recordAt r) fun a => ?_
  cases a.status with
  | unlinked =>
      refine .bind (Shows.transition And.left _) fun _ => ?_
      have hwork : M.Shows ((M.first ≤ r.index ∧ a.Inside M.fence M.compiled M.first) ∧ True)
          (fun _ => True) (Linker.linkRequests host serve r a.referrer a.requests) :=
        shows_linkRequests hserve hhost hconf (fun hp => hp.1.2.1.1) a.requests
      exact .bind (Shows.onBehalf (fun hp => hp.1.1) hwork) fun _ =>
        Shows.transition (fun hp => hp.1.1.1) _
  | linking => exact .fail _
  | errored => exact .fail _
  | linked => exact .pure fun _ => trivial
  | evaluating => exact .pure fun _ => trivial
  | evaluated => exact .pure fun _ => trivial

omit hhost hconf in
theorem shows_evaluateAll {imports : OrderedMap Namespace} {deps : List (String × RecordId)}
    (hdeps : p → ∀ dep ∈ deps, M.first ≤ dep.2.index)
    (himports : p → ∀ entry ∈ imports.entries, Properties.Avoids M.fence.foreign entry.2.contents) :
    M.Shows p (fun all => ∀ entry ∈ all.entries, Properties.Avoids M.fence.foreign entry.2.contents)
      (Linker.evaluateAll serve imports deps) := by
  induction deps generalizing imports p with
  | nil => exact .pure himports
  | cons dep rest ih =>
      have hcall := (hserve (.evaluate dep.2)).imp (fun hp => hdeps hp dep List.mem_cons_self)
        fun _ _ h => h
      refine .bind hcall fun n => ih (fun hp d hd => hdeps hp.1 d (List.mem_cons_of_mem _ hd)) ?_
      intro hp entry hentry
      rcases OrderedMap.eq_or_mem_of_mem_insert hentry with rfl | hold
      · exact hp.2.2
      · exact himports hp.1 entry hold

theorem shows_evaluateKind (r : RecordId) (a : ModuleRecord σ η) :
    M.Shows (M.first ≤ r.index ∧ a.Inside M.fence M.compiled M.first)
      (fun n => Properties.Avoids M.fence.foreign n.contents) (Linker.evaluateKind serve r a) := by
  unfold Linker.evaluateKind
  cases hkind : a.kind with
  | source m =>
      refine .bind (shows_evaluateAll hserve (fun hp => hp.2.1.2.2) fun _ => nofun)
        fun imports => ?_
      refine .bind (.ofExcept_any _) fun importMeta => .bind (Shows.emit _) fun _ => ?_
      refine (shows_script (P := fun _ => True) hserve (fun hp => ?_) fun hp => ?_).imp id
        fun _ _ h => h.2
      · exact hhost.body _ (hp.1.1.1.2.1.2.1 m hkind) _ hp.1.1.1.2.1.1 rfl
      · exact hconf.body M.fence.foreign _ (hp.1.1.1.2.1.2.1 m hkind) _ hp.1.1.1.2.1.1 rfl hp.1.1.2
  | synthetic m =>
      have hstays : Eff.Stays (State.Strays M.mark) (fun _ => True)
          (Linker.evaluateSynthetic m : Eff σ η Namespace) :=
        .bind .get fun s _ => .of_runIn
          fun t ht => ⟨ht.carryOut (.newNamespace (m.snapshot s.heap)), trivial⟩
      refine Shows.of_not hstays fun hp => ?_
      -- no record inside is of that kind
      obtain ⟨m', hm'⟩ := hp.2.2.1
      cases hkind.symm.trans hm'

theorem shows_evaluateAnew (r : RecordId) (a : ModuleRecord σ η) :
    M.Shows (M.first ≤ r.index ∧ a.Inside M.fence M.compiled M.first)
      (fun n => Properties.Avoids M.fence.foreign n.contents) (Linker.evaluateAnew serve r a) := by
  refine .bind (Shows.transition And.left _) fun _ => ?_
  have hwork := (shows_evaluateKind hserve hhost hconf r a).imp (q := _ ∧ True) And.left
    fun _ _ h => h
  refine .bind (Shows.onBehalf (fun hp => hp.1.1) hwork) fun n => ?_
  exact .bind (Shows.complete (fun hp => hp.1.1.1) And.right) fun _ => .pure fun hp => hp.1.2

theorem shows_evaluate (r : RecordId) :
    M.Shows (M.first ≤ r.index) (fun n => Properties.Avoids M.fence.foreign n.contents)
      (Linker.evaluate serve r) := by
  refine .bind (Shows.recordAt r) fun a => ?_
  cases a.status with
  | linked => exact shows_evaluateAnew hserve hhost hconf r a
  | evaluated =>
      cases hkept : a.phase.namespace? with
      | some n => exact .pure fun hp => hp.2.2.2 n hkept
      | none => exact shows_evaluateAnew hserve hhost hconf r a
  | errored => exact .fail _
  | unlinked => exact .fail _
  | linking => exact .fail _
  | evaluating => exact .fail _

theorem shows_answer (c : Call) : M.ShowsCall c (answer host serve c) := by
  have hnew {r : RecordId} (hr : M.first ≤ r.index) : ∀ x, x = r → M.first ≤ x.index :=
    fun x hx => hx ▸ hr
  cases c with
  | require lookup => exact (shows_require hserve lookup).imp (fun _ => trivial) fun _ _ h => h.elim
  | link specifier referrer =>
      exact (shows_link hserve hhost hconf specifier id).imp id fun _ _ hr => ⟨hnew hr, trivial⟩
  | buildSource specifier referrer =>
      exact (shows_buildSource hserve hhost hconf specifier id).imp id
        fun _ _ hr => ⟨hnew hr, trivial⟩
  | buildSynthetic specifier referrer =>
      exact (shows_buildSynthetic hserve specifier referrer).imp id fun _ _ hr => ⟨hnew hr, trivial⟩
  | linkModule r =>
      exact (shows_linkModule hserve hhost hconf r).imp id fun _ _ _ => ⟨nofun, trivial⟩
  | evaluate r =>
      exact (shows_evaluate hserve hhost hconf r).imp id fun _ _ h => ⟨nofun, h⟩

end

end

theorem shows_serve {host : Host σ η} (hhost : host.OnBehalf M.fence.own M.compiled)
    (hconf : host.Confined M.fence.own M.fence.holds M.compiled) (depth : Nat) (c : Call) :
    M.ShowsCall c (serve host depth c) := by
  induction depth generalizing c with
  | zero => exact .outOfDepth
  | succ depth ih => exact shows_answer ih hhost hconf c

end Overlay

end ModuleLoader
