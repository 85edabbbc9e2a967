import ModuleLoader.Proofs.RunRelation
/-!
The ledger is right.

The cache of a loader, the variables of the scripts that it runs and the trace
that it leaves are three parts of one state, and each is changed where something
happens to a required file. What the trace says about these files is true: the
ledger that it amounts to has for every path what the cache has, and for every
variable what the variable holds, and no event in it came before it was due.

Every run of a loader keeps this so (`State.LedgerHolds`), and with an end that is
not a break it also comes back to the bodies that were running when it began. The
two together are a `RunRelation`, and the work is at the few places where a file is
taken up, settled or handed out: `Legacy.runBody`, `Legacy.loadScript` and
`Legacy.loadJson`.
-/

namespace ModuleLoader

variable {σ η α : Type}

open Eff History RunRelation

def CachedModule.standing (m : CachedModule) : Standing :=
  if m.loaded then .loaded m.exports else .loading m.exports

@[simp] theorem CachedModule.exports_standing (m : CachedModule) :
    m.standing.exports = m.exports := by
  unfold standing
  split <;> rfl

@[simp] theorem CachedModule.standing_addChild (m : CachedModule) (child : Path) :
    (m.addChild child).standing = m.standing := by
  unfold addChild
  split <;> rfl

namespace State

def history (s : State σ η) : History := s.trace.toList

structure LedgerHolds (s : State σ η) : Prop where
  legal : s.history.Legal
  kept : ∀ p, s.history.ledger.kept p = (s.cache.get? p).map CachedModule.standing
  held : ∀ r, s.history.ledger.held r = s.exports[r.index]?

variable {s t u : State σ η} {e : Event} {p : Path}

theorem history_of_trace_eq (h : t.trace = s.trace.push e) : t.history = s.history ++ [e] := by
  simp [history, h]

@[simp] theorem history_emit (s : State σ η) (e : Event) : (s.emit e).history = s.history ++ [e] :=
  history_of_trace_eq rfl

theorem ledgerHolds_initial (store : σ) : (State.initial store : State σ η).LedgerHolds where
  legal := legal_nil
  kept _ := rfl
  held _ := rfl

theorem LedgerHolds.of_eq (h : s.LedgerHolds)
    (hcache : ∀ p, (t.cache.get? p).map CachedModule.standing =
      (s.cache.get? p).map CachedModule.standing)
    (hexports : t.exports = s.exports) (htrace : t.trace = s.trace) : t.LedgerHolds := by
  have hhistory : t.history = s.history := congrArg Array.toList htrace
  exact ⟨hhistory ▸ h.legal, fun p => by rw [hhistory, h.kept, hcache],
    fun r => by rw [hhistory, h.held, hexports]⟩

theorem LedgerHolds.next (h : s.LedgerHolds) (e : Event) (hdue : Due s.history e)
    (htrace : t.trace = s.trace.push e)
    (hcache : ∀ p, (s.history.ledger.next e).kept p = (t.cache.get? p).map CachedModule.standing)
    (hexports : ∀ r, (s.history.ledger.next e).held r = t.exports[r.index]?) : t.LedgerHolds := by
  have hhistory := history_of_trace_eq htrace
  have hledger : t.history.ledger = s.history.ledger.next e := by rw [hhistory, ledger_concat]
  exact ⟨hhistory ▸ h.legal.concat hdue, fun p => by rw [hledger, hcache],
    fun r => by rw [hledger, hexports]⟩

theorem LedgerHolds.kept_of_exports? (h : s.LedgerHolds) {exports : Value}
    (hp : s.cache.exports? p = some exports) :
    (s.history.ledger.kept p).map Standing.exports = some exports := by
  rw [h.kept, Option.map_map]
  simpa [Cache.exports?, Function.comp_def] using hp

theorem LedgerHolds.kept_of_exports?_eq_none (h : s.LedgerHolds) (hp : s.cache.exports? p = none) :
    s.history.ledger.kept p = none := by
  rw [h.kept]
  simpa [Cache.exports?] using hp

end State

/-- The ledger holds in the end if it did before. What has ended, but not broken off, has come back
to the bodies that were running before. -/
def ledgerRelation : RunRelation σ η where
  reaches s t := s.history <+: t.history ∧ (s.LedgerHolds → t.LedgerHolds)
  unwinds s t := s.history <+: t.history ∧ (s.LedgerHolds → t.LedgerHolds)
  returns s t := (s.history <+: t.history ∧ (s.LedgerHolds → t.LedgerHolds)) ∧
    t.history.ledger.running = s.history.ledger.running
  refl _ := ⟨⟨List.prefix_refl _, id⟩, rfl⟩
  trans hst htu := ⟨⟨hst.1.1.trans htu.1.1, htu.1.2 ∘ hst.1.2⟩, htu.2.trans hst.2⟩
  unwinds_of_returns hst := hst.1
  unwinds_trans hst htu := ⟨hst.1.trans htu.1, htu.2 ∘ hst.2⟩
  reaches_of_unwinds hst := hst
  reaches_trans hst htu := ⟨hst.1.trans htu.1, htu.2 ∘ hst.2⟩

namespace State

variable {s t : State σ η} {e : Event} {p : Path}

theorem returns_of_eq
    (hcache : ∀ p, (t.cache.get? p).map CachedModule.standing =
      (s.cache.get? p).map CachedModule.standing)
    (hexports : t.exports = s.exports) (htrace : t.trace = s.trace) :
    ledgerRelation.returns s t := by
  have hhistory : t.history = s.history := congrArg Array.toList htrace
  exact ⟨⟨⟨[], by rw [hhistory, List.append_nil]⟩, fun h => h.of_eq hcache hexports htrace⟩,
    by rw [hhistory]⟩

theorem reaches_next (e : Event) (htrace : t.trace = s.trace.push e)
    (h : s.LedgerHolds → t.LedgerHolds) :
    ledgerRelation.reaches s t :=
  ⟨⟨[e], (history_of_trace_eq htrace).symm⟩, h⟩

theorem returns_next (e : Event) (htrace : t.trace = s.trace.push e)
    (hrunning : (s.history.ledger.next e).running = s.history.ledger.running)
    (h : s.LedgerHolds → t.LedgerHolds) : ledgerRelation.returns s t := by
  refine ⟨reaches_next e htrace h, ?_⟩
  rw [history_of_trace_eq htrace, ledger_concat, hrunning]

theorem returns_emit (he : s.history.ledger.next e = s.history.ledger)
    (hdue : s.LedgerHolds → Due s.history e) : ledgerRelation.returns s (s.emit e) :=
  returns_next e rfl (by rw [he]) fun h =>
    h.next e (hdue h) rfl (fun p => by rw [he]; exact h.kept p) fun r => by rw [he]; exact h.held r

end State

theorem Event.IsAside.next_eq {e : Event} (he : e.IsAside) (l : Ledger) : l.next e = l := by
  cases e <;> first | rfl | exact he.elim

theorem Event.IsAside.due {e : Event} (he : e.IsAside) (h : History) : Due h e := by
  cases e <;> trivial

theorem State.LedgerHolds.kept_erase {s : State σ η} (h : s.LedgerHolds) (p q : Path) :
    (s.history.ledger.keep p none).kept q =
      ((s.cache.erase p).get? q).map CachedModule.standing := by
  rw [Cache.get?_erase]
  by_cases hq : q.same p
  · simp [Ledger.keep, hq]
  · simp [Ledger.keep, hq, h.kept]

theorem State.LedgerHolds.kept_insert {s : State σ η} (h : s.LedgerHolds) (p q : Path)
    (m : CachedModule) :
    (s.history.ledger.keep p (some m.standing)).kept q =
      ((s.cache.insert p m).get? q).map CachedModule.standing := by
  rw [Cache.get?_insert]
  by_cases hq : q.same p
  · simp [Ledger.keep, hq]
  · simp [Ledger.keep, hq, h.kept]

theorem State.LedgerHolds.kept_finish {s : State σ η} (h : s.LedgerHolds) (p q : Path)
    (exports : Value) :
    (s.history.ledger.keep p ((s.history.ledger.kept p).map fun _ => .loaded exports)).kept q =
      ((s.cache.finish p exports).get? q).map CachedModule.standing := by
  rw [Cache.finish, Cache.get?_modify]
  by_cases hq : q.same p
  · simp [Ledger.keep, hq, h.kept, s.cache.get?_congr hq, Function.comp_def, CachedModule.finish,
      CachedModule.standing]
  · simp [Ledger.keep, hq, h.kept]

theorem ledger_action (a : Action σ η) (s : State σ η) :
    ledgerRelation.returns s (a.carryOut s).2 := by
  cases a with
  | note line => exact State.returns_emit rfl fun _ => trivial
  | writeExports r value =>
      refine State.returns_next (.assign r value) rfl rfl fun h =>
        h.next (.assign r value) trivial rfl h.kept fun x => ?_
      change (s.history.ledger.hold r _).held x = (s.exports.setIfInBounds r.index value)[x.index]?
      rw [Array.getElem?_setIfInBounds, Ledger.held_hold, h.held, h.held]
      by_cases hx : x = r
      · subst hx
        by_cases hlt : x.index < s.exports.size <;> simp [hlt]
      · simp [hx, mt ExportsRef.eq_iff_index.2 (Ne.symm hx)]
  | evict p =>
      refine State.returns_next (.evict p (s.cache.contains p)) rfl rfl fun h =>
        h.next (.evict p (s.cache.contains p)) ?_ rfl (h.kept_erase p) h.held
      simp [Due, h.kept, Cache.contains]
  | _ => exact State.returns_of_eq (fun _ => rfl) rfl rfl

/-- An event that tells the ledger nothing may come at any time. -/
theorem ledger_aside (s : State σ η) {e : Event} (he : e.IsAside) :
    ledgerRelation.returns s (s.emit e) :=
  State.returns_emit (he.next_eq _) fun _ => he.due _

theorem ledger_hook (s : State σ η) (e : Event) (he : e.IsHook) :
    ledgerRelation.returns s (s.emit e) :=
  ledger_aside s (by cases e <;> trivial)

theorem ledger_holdsOfSteps {serve : (c : Call) → Eff σ η c.Reply}
    (h : ∀ c, ledgerRelation.Carries (serve c)) :
    ledgerRelation.HoldsOfSteps serve where
  apart s t hcache hexports htrace _ :=
    State.returns_of_eq (fun p => by rw [hcache]) hexports htrace
  ordinary s e he := ledger_aside s he.isAside
  action := ledger_action
  call := h

/-! ### Required files -/

section

variable {host : Host σ η} {serve : (c : Call) → Eff σ η c.Reply} {s t : State σ η}
  {p parent : Path}
  {r : ExportsRef}

structure Entered (p : Path) (r : ExportsRef) (s t : State σ η) : Prop where
  reaches : ledgerRelation.reaches s t
  running : t.history.ledger.running = (p, r) :: s.history.ledger.running
  held : (t.history.ledger.held r).isSome

/-- The body of a script ends with its own event, and then those run again that ran before. -/
theorem returns_leave {u v : State σ η} (hent : Entered p r s t) (htu : ledgerRelation.returns t u)
    (outcome : Except Error Value) (htrace : v.trace = u.trace.push (.leave p outcome))
    (h : u.LedgerHolds → v.LedgerHolds) : ledgerRelation.returns s v := by
  refine ⟨ledgerRelation.reaches_trans hent.reaches (ledgerRelation.reaches_trans
    (ledgerRelation.reaches_of_returns htu) (State.reaches_next _ htrace h)), ?_⟩
  have hrunning : u.history.ledger.running = (p, r) :: s.history.ledger.running :=
    htu.2.trans hent.running
  rw [State.history_of_trace_eq htrace, ledger_concat, Ledger.running_next_leave, hrunning]
  rfl

def Answering (p : Path) (v : Value) (t : State σ η) : Prop :=
  t.LedgerHolds → Due t.history (.answer p v)

/-- A lookup may be answered with what a body has just come to. -/
theorem returns_runBody (h : ledgerRelation.HoldsOfSteps serve) (text : String)
    (hent : Entered p r s t) :
    Returns (ledgerRelation.reaches s) (ledgerRelation.unwinds s) (ledgerRelation.returns s) t
      (Legacy.runBody host serve p text r) (Answering p) := by
  refine Returns.bind_settle (h.script _ t)
    (fun u hu => ledgerRelation.reaches_trans hent.reaches hu)
    (fun u _ hu => ledgerRelation.unwinds_trans hent.reaches hu) fun o u _ htu => ?_
  have hrunning : u.history.ledger.running = (p, r) :: s.history.ledger.running :=
    htu.2.trans hent.running
  cases o with
  | ok _ =>
      let exports := u.exportsOf r
      let v := { u with cache := u.cache.finish p exports }.emit (.leave p (.ok exports))
      have hv : ledgerRelation.returns s v := by
        refine returns_leave hent htu (.ok exports) rfl fun hu =>
          hu.next (.leave p (.ok exports)) ⟨r, _, hrunning, fun w hw => ?_⟩ rfl
            (hu.kept_finish p · _) hu.held
        have hsome := held_isSome_of_prefix htu.1.1 hent.held
        rw [hu.held] at hsome ⊢
        cases hw
        obtain ⟨w, hw⟩ := Option.isSome_iff_exists.1 hsome
        simp [exports, State.exportsOf, hw]
      refine Returns.bind_of_eq_ok (runIn_get u) (Returns.bind_of_eq_ok (t := v) rfl ?_)
      refine Returns.pure (ledgerRelation.reaches_of_returns hv) hv fun _ => Or.inr (Or.inl ?_)
      simp [v]
      rfl
  | error e =>
      let v := { u with cache := u.cache.erase p }.emit (.leave p (.error e))
      have hv : ledgerRelation.returns s v :=
        returns_leave hent htu (.error e) rfl fun hu =>
          hu.next (.leave p (.error e)) ⟨r, _, hrunning, fun w hw => by cases hw⟩ rfl
            (hu.kept_erase p) hu.held
      exact Returns.bind_of_eq_ok (t := v) rfl
        (Returns.fail (ledgerRelation.reaches_of_returns hv) hv)

/-- Being told of one more file that was asked for changes nothing that the ledger knows. -/
theorem returns_addChild (s : State σ η) (parent p : Path) :
    ledgerRelation.returns s { s with cache := s.cache.addChild parent p } := by
  refine State.returns_of_eq (fun q => ?_) rfl rfl
  change ((s.cache.addChild parent p).get? q).map _ = _
  rw [Cache.addChild, Cache.get?_modify]
  split
  · simp [Function.comp_def]
  · rfl

theorem entered_enter (s : State σ η) (p parent : Path) (hp : s.cache.exports? p = none) :
    let start := Value.object (s.heap.newObject .empty).1
    let r : ExportsRef := ⟨s.exports.size⟩
    Entered p r s (State.emit { s with
      heap := (s.heap.newObject .empty).2
      exports := s.exports.push start
      cache := s.cache.insert p (.loading p (some parent) start) }
        (.enter p host.scriptContext r start)) := by
  intro start r
  refine ⟨State.reaches_next (.enter p host.scriptContext r start) rfl fun h => ?_, ?_, ?_⟩
  · refine h.next (.enter p host.scriptContext r start) ⟨h.kept_of_exports?_eq_none hp, ?_⟩ rfl
      (fun q => h.kept_insert p q (.loading p (some parent) start)) fun x => ?_
    · rw [h.held]
      simp [r]
    · change (s.history.ledger.hold r (some start)).held x = (s.exports.push start)[x.index]?
      rw [Array.getElem?_push, Ledger.held_hold, h.held]
      simp only [ExportsRef.eq_iff_index, r]
  · rw [State.history_emit, ledger_concat]
    rfl
  · rw [State.history_emit, ledger_concat, Ledger.held_next_enter]
    rfl

/-- A file that is required right after a lookup began is answered with what is kept for it, or else
it is loaded. -/
theorem from_cached (p parent : Path) (hlookup : ∃ call, s.history.getLast? = some (.lookup call))
    {load : Eff σ η Value}
    (hload : ∀ t, t.cache.exports? p = none → ledgerRelation.From t load (Answering p)) :
    ledgerRelation.From s
      (do Legacy.modifyCache (·.addChild parent p)
          match (← get).cache.exports? p with
          | some exports => return exports
          | none => load) (Answering p) := by
  let t := { s with cache := s.cache.addChild parent p }
  refine From.bind_of_eq_ok (t := t) rfl (returns_addChild s parent p) ?_
  refine From.bind_of_eq_ok (runIn_get t) (ledgerRelation.refl t) ?_
  cases hp : t.cache.exports? p with
  | some exports =>
      obtain ⟨call, hlast⟩ := hlookup
      exact From.pure fun ht => Or.inl ⟨call, hlast, ht.kept_of_exports? hp⟩
  | none => exact hload t hp

theorem from_loadScript (h : ledgerRelation.HoldsOfSteps serve) (p parent : Path)
    (hlookup : ∃ call, s.history.getLast? = some (.lookup call)) :
    ledgerRelation.From s (Legacy.loadScript host serve p parent) (Answering p) := by
  refine from_cached p parent hlookup fun t hp => ?_
  refine (h.from_fetch p t).bind fun text u _ hread => ?_
  replace hp : u.cache.exports? p = none := by
    rw [hread]
    exact hp
  refine Returns.bind_of_eq_ok (runIn_modifyGet _ u) (Returns.bind_of_eq_ok (runIn_modify _ _) ?_)
  exact returns_runBody h text (entered_enter u p parent hp)

theorem from_loadJson (h : ledgerRelation.HoldsOfSteps serve) (p parent : Path)
    (hlookup : ∃ call, s.history.getLast? = some (.lookup call)) :
    ledgerRelation.From s (Legacy.loadJson host p parent) (Answering p) := by
  refine from_cached p parent hlookup fun t hp => ?_
  refine (h.from_fetch p t).bind fun text u _ hread => ?_
  replace hp : u.cache.exports? p = none := by
    rw [hread]
    exact hp
  cases Json.read? text with
  | none => exact From.fail
  | some json =>
      refine From.bind_of_eq_ok (runIn_perform _ u) (h.action _ u) ?_
      generalize hu : ((Action.make (.ofJson json)).carryOut u) = made
      obtain ⟨value, v⟩ := made
      have hp : v.cache.exports? p = none := by
        have hv : v = ((Action.make (.ofJson json)).carryOut u).2 := by rw [hu]
        rw [hv]
        exact hp
      let entry := (CachedModule.loading p (some parent) value).finish value
      let w := { v with cache := v.cache.insert p entry }.emit (.parse p value)
      have hw : ledgerRelation.returns v w := State.returns_next (.parse p value) rfl rfl fun hv =>
        hv.next (.parse p value) (hv.kept_of_exports?_eq_none hp) rfl (hv.kept_insert p · entry)
          hv.held
      refine From.bind_of_eq_ok (t := w) rfl hw (From.pure fun _ => Or.inr (Or.inr ?_))
      simp [w]

/-- A file that may answer a lookup does. -/
theorem from_answering {x : Eff σ η Value} (hx : ledgerRelation.From s x (Answering p)) :
    ledgerRelation.From s (Legacy.answering p x) fun v t =>
      ∃ u, ledgerRelation.returns s u ∧ t = u.emit (.answer p v) := by
  refine hx.bind fun v u hsu hanswering => ?_
  refine From.bind_of_eq_ok (runIn_emit _ u) (State.returns_emit rfl hanswering) ?_
  exact From.pure ⟨u, hsu, rfl⟩

/-- What a lookup behind the hooks that finds a file has left: its answer is the last event. -/
def Answered (host : Host σ η) (call : LookupCall) (s : State σ η) (v : Value) (t : State σ η) :
    Prop :=
  ∀ found q, RequireId.resolve host.files host.builtins call.id call.parent = .ok found →
    found.path? = some q → ∃ u, ledgerRelation.returns s u ∧ t = u.emit (.answer q v)

theorem from_load (h : ledgerRelation.HoldsOfSteps serve) (call : LookupCall)
    (hlookup : ∃ call, s.history.getLast? = some (.lookup call)) :
    ledgerRelation.From s (Legacy.load host serve call) (Answered host call s) := by
  unfold Legacy.load Answered
  cases RequireId.resolve host.files host.builtins call.id call.parent with
  | error e => exact From.fail
  | ok found =>
      refine From.bind_of_eq_ok (t := s) rfl (ledgerRelation.refl s) ?_
      cases found with
      | builtin name =>
          refine From.imp (h.provide _ name s) ?_
          rintro v t - - found q ⟨⟩ ⟨⟩
      | script p =>
          refine (from_answering (from_loadScript h p call.parent hlookup)).imp ?_
          rintro v t - hv found q ⟨⟩ ⟨⟩
          exact hv
      | json p =>
          refine (from_answering (from_loadJson h p call.parent hlookup)).imp ?_
          rintro v t - hv found q ⟨⟩ ⟨⟩
          exact hv
      | native p => exact From.fail

theorem from_base (h : ledgerRelation.HoldsOfSteps serve) (call : LookupCall) (s : State σ η) :
    ledgerRelation.From s (Legacy.base host serve call) fun v t =>
      host.lookup? = none → Answered host call (s.emit (.lookup call)) v t := by
  let t := s.emit (.lookup call)
  have hst : ledgerRelation.returns s t := ledger_aside s trivial
  refine From.bind_of_eq_ok (t := t) rfl hst ?_
  cases host.lookup? with
  | some f => exact From.imp (h.script _ t) fun _ _ _ _ hnone => by cases hnone
  | none => exact (from_load h call ⟨call, by simp [t]⟩).imp fun _ _ _ hanswered _ => hanswered

theorem carries_base (h : ledgerRelation.HoldsOfSteps serve) (call : LookupCall) :
    ledgerRelation.Carries (Legacy.base host serve call) := fun s =>
  (from_base h call s).imp fun _ _ _ _ => trivial

/-- A lookup that finds a file and has a value leaves an event as it gets behind the hooks, and
another as it is answered. The hooks are called before the one and after the other. -/
theorem answered_of_require (h : ledgerRelation.HoldsOfSteps serve) (hlookup : host.lookup? = none)
    {call : LookupCall} {found : Resolution} {v : Value}
    (hfound : RequireId.resolve host.files host.builtins call.id call.parent = .ok found)
    (hp : found.path? = some p) (hrun : (Legacy.require host serve call).runIn s = (.ok v, t)) :
    ∃ m u, ledgerRelation.returns s m ∧ ledgerRelation.returns (m.emit (.lookup call)) u ∧
      ledgerRelation.returns (u.emit (.answer p v)) t := by
  obtain ⟨_, _, hget, hrun⟩ := runIn_bind_eq_ok.1 hrun
  rw [runIn_get, Prod.mk.injEq] at hget
  obtain ⟨-, rfl⟩ := hget
  obtain ⟨m, m', hsm, hbase, hmt⟩ := h.intercept_eq_ok ledger_hook call _ hrun
  obtain ⟨-, hanswered⟩ := (from_base h call m).of_eq_ok hbase
  obtain ⟨u, hmu, rfl⟩ := hanswered hlookup found p hfound hp
  exact ⟨m, u, hsm, hmu, hmt⟩

theorem carries_answer (h : ledgerRelation.HoldsOfSteps serve) (c : Call) :
    ledgerRelation.Carries (answer host serve c) :=
  h.answer (h.require ledger_hook (carries_base h)) c

end

/-! ### Runs -/

theorem ledger_serve (host : Host σ η) (depth : Nat) (c : Call) :
    ledgerRelation.Carries (serve host depth c) := by
  induction depth generalizing c with
  | zero => exact .outOfDepth
  | succ depth ih => exact carries_answer (ledger_holdsOfSteps ih) c

/-- Whatever program is run, it leaves a state of which the ledger is right. -/
theorem Host.ledgerHolds_exec (host : Host σ η) (depth : Nat) (p : Program σ η α) (store : σ) :
    (host.exec depth p (State.initial store)).2.LedgerHolds :=
  ((ledger_holdsOfSteps (ledger_serve host depth)).program p (State.initial store)).1.2
    (State.ledgerHolds_initial store)

/-- A lookup that finds a file, and has a value, has left its answer in the trace; and as it was
answered the same bodies were running as when it began. -/
def Host.TracesAnswers (host : Host σ η) : Prop :=
  ∀ (depth : Nat) (call : LookupCall) (s : State σ η) (v : Value) (t : State σ η) found p,
    RequireId.resolve host.files host.builtins call.id call.parent = .ok found →
    found.path? = some p → (serve host depth (.require call)).runIn s = (.ok v, t) →
    ∃ before after, t.history = before ++ .answer p v :: after ∧ s.history <+: before ∧
      (ledger before).running = s.history.ledger.running

theorem Host.tracesAnswers {host : Host σ η} (hlookup : host.lookup? = none) :
    host.TracesAnswers := by
  intro depth call s v t found p hfound hp hrun
  cases depth with
  | zero => simp [serve] at hrun
  | succ depth =>
      obtain ⟨m, u, hsm, hmu, hut⟩ :=
        answered_of_require (ledger_holdsOfSteps (ledger_serve host depth)) hlookup hfound hp hrun
      obtain ⟨after, hafter⟩ := hut.1.1
      have hlooked : ledgerRelation.returns m (m.emit (.lookup call)) := ledger_aside m trivial
      have hsu := ledgerRelation.trans hsm (ledgerRelation.trans hlooked hmu)
      exact ⟨u.history, after, by simp [← hafter], hsu.1.1, hsu.2⟩

end ModuleLoader
