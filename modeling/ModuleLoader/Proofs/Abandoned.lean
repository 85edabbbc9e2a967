import ModuleLoader.Proofs.InProgress
import ModuleLoader.Proofs.Settlement
import ModuleLoader.Proofs.Unfinished
/-!
What a panic leaves of the loads that it goes through.

A body that fails takes the entry of its file with it, since the failure comes back
to the load as an answer. A panic does not. It goes through the load as it goes
through everything else, and the entry stays as it was when the body began: not
loaded, and with the object that the body has started from. Nobody is left who would
settle it. So after a panic the entries that are not loaded are those of the bodies
that were begun and have not ended, unless their files were evicted since, and a
lookup that comes later is answered with what such a body had exported by then.

A loader can be used again after a panic. So what is said here is said of programs
that are run one after the other, each to an end of whatever kind.
-/

namespace ModuleLoader

variable {σ η α : Type}

open Eff History

/-! ### Loads that have not come to an end -/

namespace History

variable {h before after : History} {e : Event} {p : Path} {start : Value}

/-- The body of the script was begun with this object. Since then it has not ended, and its file was
not evicted. -/
def Abandoned (p : Path) (start : Value) (h : History) : Prop :=
  ∃ before q context r after, h = before ++ .enter q context r start :: after ∧ q.same p ∧
    ∀ e ∈ after, ¬ e.Leaves p ∧ ¬ e.Evicts p

theorem Abandoned.concat (h : Abandoned p start before) (he : ¬ e.Touches p) :
    Abandoned p start (before ++ [e]) := by
  obtain ⟨b, q, context, r, c, rfl, hsame, hc⟩ := h
  refine ⟨b, q, context, r, c ++ [e], by simp, hsame, ?_⟩
  simp only [List.forall_mem_append, List.forall_mem_singleton]
  exact ⟨hc, mt Event.Leaves.touches he, mt Event.Evicts.touches he⟩

/-- What is kept of a load that has not come to an end is that it is under way. -/
theorem kept_of_abandoned (hlegal : h.Legal) (habandoned : Abandoned p start h) :
    (ledger h).kept p = some (.loading start) := by
  obtain ⟨b, q, context, r, c, rfl, hsame, hc⟩ := habandoned
  have hentered := kept_of_enter b (Path.same_symm hsame) context r start
  rw [List.append_cons, ← List.append_nil (_ ++ c)] at hlegal
  rw [List.append_cons]
  exact (kept_of_unfinished hlegal (by rw [hentered]; rfl) hc).1.trans hentered

theorem enters_of_kept_loading (he : e.Touches p)
    (hkept : (ledger (before ++ [e])).kept p = some (.loading start)) :
    ∃ q context r, e = .enter q context r start ∧ q.same p := by
  rw [ledger_concat] at hkept
  cases e with
  | enter q context r v =>
      have hnew := Ledger.kept_keep_same (ledger before) (Path.same_symm he) (some (.loading v))
      cases hnew.symm.trans hkept
      exact ⟨q, context, r, rfl, he⟩
  | leave q outcome =>
      rw [Ledger.kept_next_leave _ he] at hkept
      cases outcome with
      | ok v =>
          obtain ⟨_, -, hloaded⟩ := Option.map_eq_some_iff.1 hkept
          cases hloaded
      | error cause => cases hkept
  | parse q v => cases (Ledger.kept_keep_same _ (Path.same_symm he) _).symm.trans hkept
  | evict q dropped => cases (Ledger.kept_keep_same _ (Path.same_symm he) _).symm.trans hkept
  | _ => exact he.elim

/-- A file is kept as being loaded only on account of such a load. -/
theorem abandoned_of_kept (hkept : (ledger h).kept p = some (.loading start)) :
    Abandoned p start h := by
  induction h using List.reverseRecOn with
  | nil => cases hkept
  | append_singleton before e ih =>
      by_cases he : e.Touches p
      · obtain ⟨q, context, r, rfl, hsame⟩ := enters_of_kept_loading he hkept
        exact ⟨before, q, context, r, [], rfl, hsame, nofun⟩
      · rw [ledger_concat, Ledger.kept_next_of_not_touches _ he] at hkept
        exact (ih hkept).concat he

theorem kept_eq_loading_iff (hlegal : h.Legal) :
    (ledger h).kept p = some (.loading start) ↔ Abandoned p start h :=
  ⟨abandoned_of_kept, kept_of_abandoned hlegal⟩

end History

/-- An entry that is not loaded is the entry of such a load, and has the object that its body began
with. -/
theorem State.LedgerHolds.loading_iff {s : State σ η}
    (h : s.LedgerHolds) {p : Path} {start : Value} :
    (∃ m, s.cache.get? p = some m ∧ m.loaded = false ∧ m.exports = start) ↔
      Abandoned p start s.history := by
  rw [← kept_eq_loading_iff h.legal, h.kept, Option.map_eq_some_iff]
  refine exists_congr fun m => and_congr_right fun _ => ?_
  unfold CachedModule.standing
  cases m.loaded <;> simp

/-! ### One program after another -/

/-- Run programs one after the other, each in the state in which the one before it has stopped,
whatever its end. -/
def Host.execAll (host : Host σ η) (depth : Nat) :
    List (Program σ η α) → State σ η → List (Except Fault α) × State σ η
  | [], s => ([], s)
  | program :: rest, s =>
    let (o, t) := host.exec depth program s
    let (ends, u) := host.execAll depth rest t
    (o :: ends, u)

namespace Host

variable (host : Host σ η) (depth : Nat) (programs : List (Program σ η α)) {s : State σ η}

theorem ledgerHolds_execAll (hs : s.LedgerHolds) :
    (host.execAll depth programs s).2.LedgerHolds := by
  induction programs generalizing s with
  | nil => exact hs
  | cons program rest ih =>
      exact ih (((ledger_holdsOfSteps (ledger_serve host depth)).program program s).1.2 hs)

theorem filed_execAll (hs : s.cache.Filed) : (host.execAll depth programs s).2.cache.Filed := by
  induction programs generalizing s with
  | nil => exact hs
  | cons program rest ih => exact ih ((survives_filed host).exec depth program hs)

theorem running_execAll (hends : ∀ o ∈ (host.execAll depth programs s).1, ∃ a, o = .ok a) :
    (host.execAll depth programs s).2.history.ledger.running = s.history.ledger.running := by
  induction programs generalizing s with
  | nil => rfl
  | cons program rest ih =>
      obtain ⟨⟨a, ha⟩, hrest⟩ := List.forall_mem_cons.1 hends
      have hcourse := (ledger_holdsOfSteps (ledger_serve host depth)).program program s
      exact (ih hrest).trans (hcourse.of_eq_ok (Prod.ext ha rfl)).1.2

end Host

/-! ### Lookups that find an entry -/

/-- A script of which something is kept is not run. A lookup that no hook stands before is answered
with what is kept. -/
theorem Legacy.runIn_require_cached {host : Host σ η} {serve : (c : Call) → Eff σ η c.Reply}
    {s : State σ η} {call : LookupCall} {p : Path} {v : Value} (hlookup : host.lookup? = none)
    (hlayers : s.hooks.layers = [])
    (hfound : RequireId.resolve host.files host.builtins call.id call.parent = .ok (.script p))
    (hp : s.cache.exports? p = some v) :
    ∃ t, (require host serve call).runIn s = (.ok v, t) ∧
      t.history = s.history ++ [.lookup call, .answer p v] := by
  let u := s.emit (.lookup call)
  let w := { u with cache := u.cache.addChild call.parent p }
  have hw : w.cache.exports? p = some v := (Cache.exports?_addChild ..).trans hp
  have hload : (loadScript host serve p call.parent).runIn u = (.ok v, w) := by
    rw [loadScript, modifyCache, runIn_bind, runIn_modify]
    dsimp only
    rw [runIn_bind, runIn_get]
    dsimp only
    rw [hw]
    rfl
  refine ⟨w.emit (.answer p v), ?_, ?_⟩
  · rw [runIn_require_of_layers_eq_nil hlayers hlookup, load, hfound]
    change (answering p (loadScript host serve p call.parent)).runIn u = _
    rw [answering, runIn_bind, hload]
    rfl
  · rw [State.history_emit]
    change (s.emit (.lookup call)).history ++ _ = _
    rw [State.history_emit, List.append_assoc]
    rfl

/-- An entry is left unloaded just by the loads that were begun and have not come to an end, and has
the object that the body began with. A lookup that meets no hooks is answered with that object, and
no body is run for it. Programs that come to their ends leave no such load. -/
theorem unsettled_entries_are_abandoned (host : Host σ η) (store : σ) (depth : Nat)
    (programs : List (Program σ η α)) (ends : List (Except Fault α)) (s : State σ η)
    (hrun : host.execAll depth programs (State.initial store) = (ends, s)) :
    (∀ p start, (∃ m, s.cache.get? p = some m ∧ m.loaded = false ∧ m.exports = start) ↔
      Abandoned p start s.history) ∧
    ((∀ entry ∈ s.cache.entries, entry.2.loaded = true) ↔
      ∀ p start, ¬ Abandoned p start s.history) ∧
    ((∀ o ∈ ends, ∃ a, o = .ok a) → ∀ p start, ¬ Abandoned p start s.history) ∧
    (host.lookup? = none → s.hooks.layers = [] → ∀ p start, Abandoned p start s.history →
      ∀ call q, RequireId.resolve host.files host.builtins call.id call.parent = .ok (.script q) →
        q.same p → ∀ depth', ∃ t,
          (serve host (depth' + 1) (.require call)).runIn s = (.ok start, t) ∧
          t.history = s.history ++ [.lookup call, .answer q start]) := by
  have hholds : s.LedgerHolds := by
    simpa [hrun] using host.ledgerHolds_execAll depth programs (State.ledgerHolds_initial store)
  have hfiled : s.cache.Filed := by
    have hempty : (State.initial store : State σ η).cache.Filed := Cache.filed_empty
    simpa [hrun] using host.filed_execAll depth programs hempty
  refine ⟨fun p start => hholds.loading_iff, ⟨fun hloaded p start habandoned => ?_,
    fun hnone entry hentry => ?_⟩, fun hends p start habandoned => ?_, ?_⟩
  · obtain ⟨m, hm, hfalse, -⟩ := hholds.loading_iff.2 habandoned
    obtain ⟨entry, hentry, rfl⟩ := Option.map_eq_some_iff.1 hm
    rw [hloaded entry (List.mem_of_find?_eq_some hentry)] at hfalse
    cases hfalse
  · by_contra hfalse
    exact hnone entry.1 entry.2.exports (hholds.loading_iff.1
      ⟨entry.2, hfiled.get?_of_mem hentry, by simpa using hfalse, rfl⟩)
  · obtain ⟨script, hscript, -⟩ :=
      hholds.legal.loadingRuns p start (kept_of_abandoned hholds.legal habandoned)
    have hended : ∀ o ∈ (host.execAll depth programs (State.initial store)).1, ∃ a, o = .ok a := by
      rwa [hrun]
    have hrunning := host.running_execAll depth programs hended
    rw [hrun] at hrunning
    rw [hrunning] at hscript
    cases hscript
  · intro hlookup hlayers p start habandoned call q hfound hsame depth'
    obtain ⟨m, hm, -, rfl⟩ := hholds.loading_iff.2 habandoned
    refine Legacy.runIn_require_cached hlookup hlayers hfound ?_
    rw [Cache.exports?, s.cache.get?_congr hsame, hm]
    rfl

/-- A host with one script, which sets a property of the object that it starts from and then panics.
-/
def panickingWorld : Host Unit Empty where
  files := ⟨[(["a.cjs"], .file (some ""))]⟩
  config := {}
  builtins := ⟨"node:", []⟩
  linkerBuiltins? := none
  scriptContext := ⟨0⟩
  compile _ _ := pure ⟨[], fun _ => throw (.engine "")⟩
  runScript _ m := do
    match ← Script.perform (.readExports m.exports) with
    | .object o => Script.perform (.setProperty o "x" (.boolean true))
    | _ => pure ()
    Script.panic "stopped"
  hook h := nomatch h
  lookup? := none

def panickingCall : LookupCall := ⟨"./a.cjs", ⟨"/main.cjs"⟩⟩

def panickedLoader : List (Except Fault (Except Error Value)) × State Unit Empty :=
  panickingWorld.execAll 2 [.attempt (.require panickingCall)] (State.initial ())

/-- The load of the script is abandoned, and the next lookup is answered with its object. -/
theorem unsettled_entries_are_abandoned_panickedLoader :
    panickedLoader.1 = [.error (.panic "stopped")] ∧
    Abandoned ⟨"/a.cjs"⟩ (.object ⟨0⟩) panickedLoader.2.history ∧
    ∃ t, (serve panickingWorld 2 (.require panickingCall)).runIn panickedLoader.2 =
        (.ok (.object ⟨0⟩), t) ∧
      t.history = panickedLoader.2.history ++
        [.lookup panickingCall, .answer ⟨"/a.cjs"⟩ (.object ⟨0⟩)] := by
  obtain ⟨hloading, -, -, hanswer⟩ := unsettled_entries_are_abandoned panickingWorld () 2
    [.attempt (.require panickingCall)] panickedLoader.1 panickedLoader.2 rfl
  have habandoned := (hloading ⟨"/a.cjs"⟩ (.object ⟨0⟩)).1 ⟨_, rfl, rfl, rfl⟩
  exact ⟨rfl, habandoned, hanswer rfl rfl _ _ habandoned panickingCall ⟨"/a.cjs"⟩ rfl
    (Path.same_refl _) 1⟩

/-- After the panic has come out there is an entry that is not loaded. The next lookup has its
partial exports for an answer, and does not come to the panic again. -/
theorem panic_leaves_partial_exports :
    panickedLoader.1 = [.error (.panic "stopped")] ∧
    (∃ entry ∈ panickedLoader.2.cache.entries, entry.2.loaded = false) ∧
    ∃ t, (serve panickingWorld 2 (.require panickingCall)).runIn panickedLoader.2 =
      (.ok (.object ⟨0⟩), t) ∧ t.heap.get (.object ⟨0⟩) "x" = .boolean true :=
  ⟨rfl, ⟨_, List.mem_cons_self, rfl⟩, _, rfl, rfl⟩

end ModuleLoader
