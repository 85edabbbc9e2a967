import Mathlib.Data.Set.Card
import ModuleLoader.Proofs.LoadedOnce
import ModuleLoader.Proofs.Path.Lookup
import ModuleLoader.Proofs.Path.Place
import ModuleLoader.Proofs.RunInvariant
/-!
How deep requires nest.

A script that requires runs another script in the middle of its own body, and
that may require in turn. What keeps this from going on forever is the cache: the
entry of a file is there from before its body runs until after it has ended, so
no file is begun again below itself. The scripts whose bodies are running at one
time are therefore different files, and a lookup comes only to what is a file, of
which there are finitely many. So bodies do not nest deeper than there are files
to come to.

That every lookup comes to an end is the same fact, read from below. A run that
stops for want of depth stops where it is, with all the bodies still running in
which it went down: one for every call that it was allowed.
-/

namespace ModuleLoader

variable {σ η α β : Type}

open Eff History

/-! ### Where lookups lead -/

/-- The files that a lookup may come to. Two paths are one file if they take the same steps. -/
def Host.locations (host : Host σ η) : Set (List Path.Component) :=
  Path.components '' {p | host.Finds p}

namespace Host

variable {host : Host σ η}

theorem Finds.isFile {p : Path} (h : host.Finds p) : host.files.isFile p := by
  obtain ⟨id, parent, found, hfound, hp⟩ := h
  unfold RequireId.resolve at hfound
  split at hfound
  · cases hfound
    cases hp
  · split at hfound
    · cases hfound
    · rename_i q hq
      cases hfound
      rw [RequireId.path?_ofFile] at hp
      cases hp
      exact RequireId.isFile_of_file? hq
    · cases hfound

theorem finite_locations (host : Host σ η) : host.locations.Finite :=
  (host.files.finite_isFile.subset fun _ hp => Finds.isFile hp).image _

/-- Different files that lookups come to are no more than there are. -/
theorem length_le_locations {paths : List Path} (hdistinct : paths.Pairwise fun p q => ¬ p.same q)
    (hfinds : ∀ p ∈ paths, host.Finds p) : paths.length ≤ host.locations.ncard := by
  have hnodup : (paths.map Path.components).Nodup := by
    refine List.pairwise_map.2 (hdistinct.imp ?_)
    exact fun hne => mt Path.same_iff.2 hne
  have hsub :
      ((paths.map Path.components).toFinset : Set (List Path.Component)) ⊆ host.locations := by
    intro steps hsteps
    obtain ⟨p, hp, rfl⟩ := List.mem_map.1 (List.mem_toFinset.1 hsteps)
    exact ⟨p, hfinds p hp, rfl⟩
  have hle := Set.ncard_le_ncard hsub host.finite_locations
  rwa [Set.ncard_coe_finset, List.toFinset_card_of_nodup hnodup, List.length_map] at hle

end Host

/-! ### The bodies that are running -/

def Event.Located (host : Host σ η) : Event → Prop
  | .enter p .. => host.Finds p
  | _ => True

def State.Located (host : Host σ η) (s : State σ η) : Prop := ∀ e ∈ s.history, e.Located host

theorem State.Located.next {host : Host σ η} {s t : State σ η} (hs : s.Located host) {e : Event}
    (he : e.Located host) (htrace : t.trace = s.trace.push e) : t.Located host := by
  rw [Located, history_of_trace_eq htrace]
  exact fun x hx => (List.mem_append.1 hx).elim (hs x) fun hx => List.mem_singleton.1 hx ▸ he

theorem survives_located (host : Host σ η) : Survives (State.Located host) host where
  emit s e he hs := hs.next (e := e) (by cases e <;> first | exact he.elim | trivial) rfl
  action a s hs := by
    cases a with
    | note line => exact hs.next (e := .note line) trivial rfl
    | writeExports r value => exact hs.next (e := .assign r value) trivial rfl
    | evict p => exact hs.next (e := .evict p (s.cache.contains p)) trivial rfl
    | _ => exact hs
  addChild _ _ _ hs := hs
  enter s p parent hp hs := hs.next (e := .enter p host.scriptContext _ _) hp rfl
  leave s p outcome hs := by
    cases outcome with
    | ok exports => exact hs.next (e := .leave p (.ok exports)) trivial rfl
    | error e => exact hs.next (e := .leave p (.error e)) trivial rfl
  parse s p parent value hs := hs.next (e := .parse p value) trivial rfl
  add _ _ _ hs := hs
  modifyRecord _ _ _ _ hs := hs

namespace History

variable {host : Host σ η} {h : History}

theorem finds_of_mem_running (hlocated : ∀ e ∈ h, e.Located host) :
    ∀ script ∈ (ledger h).running, host.Finds script.1 := by
  induction h using List.reverseRecOn with
  | nil => exact fun script hscript => by cases hscript
  | append_singleton h e ih =>
      have hbefore := ih fun x hx => hlocated x (List.mem_append_left _ hx)
      have he := hlocated e (List.mem_append_right _ (List.mem_singleton_self e))
      rw [ledger_concat]
      intro script hscript
      cases e with
      | enter p context r start =>
          rcases List.mem_cons.1 hscript with rfl | hscript
          · exact he
          · exact hbefore script hscript
      | leave p outcome =>
          refine hbefore script (List.mem_of_mem_tail ?_)
          cases outcome <;> exact hscript
      | _ => exact hbefore script hscript

structure Nests (host : Host σ η) (h : History) : Prop where
  distinct : (ledger h).running.Pairwise fun a b => ¬ a.1.same b.1
  loading : ∀ script ∈ (ledger h).running, ∃ start, (ledger h).kept script.1 = some (.loading start)
  finds : ∀ script ∈ (ledger h).running, host.Finds script.1
  length_le : (ledger h).running.length ≤ host.locations.ncard

theorem Legal.nests (hlegal : h.Legal) (hrest : h.EvictsAtRest)
    (hlocated : ∀ e ∈ h, e.Located host) : h.Nests host := by
  have hiffRuns := hlegal.loadingIffRuns hrest
  have hfinds := finds_of_mem_running hlocated
  refine ⟨hiffRuns.distinct, hiffRuns.loading, hfinds, ?_⟩
  have hle : _ ≤ host.locations.ncard :=
    Host.length_le_locations (List.pairwise_map.2 hiffRuns.distinct) fun p hp => by
      obtain ⟨script, hscript, rfl⟩ := List.mem_map.1 hp
      exact hfinds script hscript
  rwa [List.length_map] at hle

end History

/-! ### Stopping for want of depth -/

/-- How many bodies are running. -/
def State.bodies (s : State σ η) : Nat := s.history.ledger.running.length

namespace Eff

/-- If the computation stops for want of depth, then it has gone down so many bodies by then. -/
def Sinks (n : Nat) (x : Eff σ η α) : Prop :=
  ∀ s, (x.runIn s).1 = .error .outOfDepth → s.bodies + n ≤ (x.runIn s).2.bodies

namespace Sinks

variable {n : Nat} {x : Eff σ η α}

/-- What does not stop has not gone down at all, or as far as one likes. -/
theorem of_ends (h : ∀ s, (x.runIn s).1 ≠ .error .outOfDepth) : Sinks n x :=
  fun s hstop => (h s hstop).elim

theorem ends (h : ∀ n, Sinks n x) (s : State σ η) : (x.runIn s).1 ≠ .error .outOfDepth := by
  intro hstop
  have hle := h ((x.runIn s).2.bodies + 1) s hstop
  omega

theorem pure (a : α) : Sinks n (Pure.pure a : Eff σ η α) := of_ends fun _ => by simp

theorem fail (e : Error) : Sinks n (Eff.fail e : Eff σ η α) := of_ends fun _ => by simp

theorem ofExcept (o : Except Error α) : Sinks n (Eff.ofExcept o : Eff σ η α) := by
  cases o with
  | ok a => exact pure a
  | error e => exact fail e

theorem modify (f : State σ η → State σ η) : Sinks n (modify f : Eff σ η PUnit) :=
  of_ends fun _ => by simp

theorem get : Sinks n (get : Eff σ η (State σ η)) := of_ends fun _ => by simp

theorem perform (a : Action σ η) : Sinks n (Eff.perform a) := of_ends fun s => by
  rw [runIn_perform]
  simp

theorem bind {f : α → Eff σ η β} (hcarries : ledgerRelation.Carries x) (hx : Sinks n x)
    (hf : ∀ a, Sinks n (f a)) : Sinks n (x >>= f) := by
  intro s hstop
  rw [runIn_bind] at hstop ⊢
  cases hrun : x.runIn s with
  | mk o t =>
      rw [hrun] at hstop
      cases o with
      | ok a =>
          have hback : t.bodies = s.bodies :=
            congrArg List.length (RunRelation.From.of_eq_ok (hcarries s) hrun).1.2
          have hle := hf a t hstop
          rwa [hback] at hle
      | error e =>
          have hfirst := hx s
          rw [hrun] at hfirst
          exact hfirst (by simpa using hstop)

theorem bind_of_ends {f : α → Eff σ η β} (hx : Sinks n x)
    (hf : ∀ a s, ((f a).runIn s).1 ≠ .error .outOfDepth) : Sinks n (x >>= f) := by
  intro s hstop
  have hle := hx s
  rw [runIn_bind] at hstop ⊢
  cases hrun : x.runIn s with
  | mk o t =>
      rw [hrun] at hstop hle
      cases o with
      | ok a => exact (hf a t hstop).elim
      | error e => exact hle (by simpa using hstop)

theorem settle (hx : Sinks n x) : Sinks n x.settle := by
  intro s hstop
  have hle := hx s
  rw [runIn_settle] at hstop ⊢
  cases hrun : x.runIn s with
  | mk o t =>
      rw [hrun] at hstop hle
      match o with
      | .ok _ | .error (.error _) | .error (.panic _) => simp at hstop
      | .error .outOfDepth => exact hle rfl

end Sinks

end Eff

/-! ### Who calls whom -/

def Program.Calls (Q : Call → Prop) : Program σ η α → Prop
  | .done _ => True
  | .panic _ => True
  | .act _ next => ∀ r, (next r).Calls Q
  | .call c next => Q c ∧ ∀ r, (next r).Calls Q

theorem Script.calls_ofExcept {Q : Call → Prop} (o : Except Error α) :
    (ofExcept o : Script σ η α).run.Calls Q := by
  cases o <;> trivial

/-- The bodies of scripts require, and do not ask for anything else. What runs around them, which is
providers and hooks, asks for nothing. -/
structure Host.OnlyBodiesRequire (host : Host σ η) : Prop where
  script : ∀ text m, (host.runScript text m).run.Calls fun c => ∃ call, c = .require call
  lookup : ∀ f, host.lookup? = some f → ∀ call, (f call).run.Calls fun _ => False
  provider : ∀ name p, host.builtins.find? name = some p → p.Calls fun _ => False
  before : ∀ h f, (host.hook h).before? = some f → ∀ call, (f call).Calls fun _ => False
  after : ∀ h f, (host.hook h).after? = some f → ∀ call, (f call).Calls fun _ => False

section

variable {host : Host σ η} {serve : (c : Call) → Eff σ η c.Reply} {n : Nat}
  (h : ledgerRelation.HoldsOfSteps serve)

include h

theorem Program.Calls.sinks {Q : Call → Prop} {p : Program σ η α} (hp : p.Calls Q)
    (hserve : ∀ c, Q c → Sinks n (serve c)) : Sinks n (p.run serve) := by
  induction p with
  | done a => exact .pure a
  | panic m => exact .of_ends fun _ => by simp [Program.run]
  | act a next ih =>
      exact .bind (h.perform a) (.perform a) fun r => ih r (hp r)
  | call c next ih =>
      exact .bind (h.call c).settle (hserve c hp.1).settle fun r => ih r (hp.2 r)

theorem Program.Calls.sinks_of_none {p : Program σ η α} (hp : p.Calls fun _ => False) :
    Sinks n (p.run serve) :=
  hp.sinks h fun _ => False.elim

theorem Script.sinks_exec {x : Script σ η α} {Q : Call → Prop} (hx : x.run.Calls Q)
    (hserve : ∀ c, Q c → Sinks n (serve c)) : Sinks n (x.exec serve) :=
  .bind (h.program _) (hx.sinks h hserve) fun _ => .ofExcept _

namespace Legacy

theorem sinks_fetch (p : Path) : Sinks n (fetch host p) := by
  refine .bind (h.emit trivial) (.modify _) fun _ => ?_
  cases host.files.read p with
  | ok text => exact .pure text
  | error e => exact .fail _

theorem sinks_callback {event : Event} (he : event.IsHook) (call : LookupCall)
    {f? : Option (LookupCall → Program σ η Unit)}
    (hf : ∀ f, f? = some f → (f call).Calls fun _ => False) :
    Sinks n (Hook.callback serve event call f?) := by
  cases f? with
  | none => exact .pure ()
  | some f =>
      refine .bind (.modify fun s => ledger_hook s event he) (.modify _) fun _ => ?_
      exact (hf f rfl).sinks_of_none h

variable (hhost : host.OnlyBodiesRequire)

include hhost

theorem sinks_provide (specifier : String) : Sinks n (provide serve host.builtins specifier) := by
  unfold provide
  cases hp : host.builtins.find? specifier with
  | none => exact .fail _
  | some provider =>
      exact .bind (h.emit trivial) (.modify _) fun _ => (hhost.provider _ _ hp).sinks_of_none h

/-- The hooks do not stop, and they pass on that the lookup behind them has. -/
theorem sinks_intercept (call : LookupCall) {x : Eff σ η Value} (hx : Sinks n x)
    (layers : List (Layer η)) : Sinks n (intercept host serve call x layers) := by
  induction layers with
  | nil => exact hx
  | cons outer inner ih =>
      have hcallback : (Event.before outer.guard call).IsHook ∧
        (Event.after outer.guard call).IsHook :=
        ⟨trivial, trivial⟩
      have hbefore := sinks_callback (n := n) h hcallback.1 call fun f hf =>
        hhost.before outer.hook f hf call
      have hafter := Sinks.ends fun n => sinks_callback (n := n) h hcallback.2 call fun f hf =>
        hhost.after outer.hook f hf call
      refine .bind (h.callback ledger_hook (.before outer.guard call) trivial call _)
        hbefore fun _ => ?_
      intro s hstop
      have hinner := ih s
      rw [runIn_bind, runIn_outcome] at hstop ⊢
      generalize (intercept host serve call x inner).runIn s = end_ at hstop hinner ⊢
      obtain ⟨o, t⟩ := end_
      have hpass : ∀ o : Except Fault Value, o ≠ .error .outOfDepth →
          ((do
            Hook.callback serve (.after outer.guard call) call (host.hook outer.hook).after?
            Eff.ofOutcome o).runIn t).1 ≠ .error .outOfDepth := by
        intro o ho
        have hends := hafter t
        rw [runIn_bind]
        generalize (Hook.callback serve (.after outer.guard call) call
          (host.hook outer.hook).after?).runIn t = last at hends ⊢
        obtain ⟨a | a, u⟩ := last
        · simpa using hends
        · simpa using ho
      match o with
      | .error .outOfDepth => exact hinner rfl
      | .ok _ | .error (.error _) | .error (.panic _) => exact (hpass _ (by simp) hstop).elim

variable (hrequire : ∀ call, Sinks n (serve (.require call)))

include hrequire

theorem sinks_runBody (p : Path) (text : String) (r : ExportsRef) :
    Sinks n (runBody host serve p text r) := by
  have hbody :=
    Script.sinks_exec h (hhost.script text ⟨p, dirname p, host.scriptContext, r⟩) (n := n)
    (by rintro _ ⟨call, rfl⟩; exact hrequire call)
  refine .bind (h.script _).settle hbody.settle fun o => ?_
  cases o with
  | ok _ => exact .of_ends fun t => by change Except.ok _ ≠ _; simp
  | error e => exact .of_ends fun t => by change Except.error (Fault.error e) ≠ _; simp

/-- A body that is begun is one more. -/
theorem sinks_loadScript (p parent : Path) : Sinks (n + 1) (loadScript host serve p parent) := by
  refine .bind (.modify fun s => returns_addChild s parent p) (.modify _) fun _ => ?_
  refine .bind .get .get fun s => ?_
  cases s.cache.exports? p with
  | some exports => exact .pure exports
  | none =>
      refine .bind (h.fetch p) (sinks_fetch h p) fun text => ?_
      intro t hstop
      have hle := sinks_runBody h hhost hrequire p text
        ⟨t.exports.size⟩ (t.enter host p parent) hstop
      have hentered : (t.enter host p parent).bodies = t.bodies + 1 := by
        rw [State.bodies, State.enter, State.history_emit, ledger_concat]
        rfl
      rw [hentered, Nat.add_right_comm, Nat.add_assoc] at hle
      exact hle

omit hhost hrequire in
theorem sinks_loadJson (p parent : Path) : Sinks n (loadJson host p parent) := by
  refine .bind (.modify fun s => returns_addChild s parent p) (.modify _) fun _ => ?_
  refine .bind .get .get fun s => ?_
  cases s.cache.exports? p with
  | some exports => exact .pure exports
  | none =>
      refine .bind (h.fetch p) (sinks_fetch h p) fun text => ?_
      cases Json.read? text with
      | none => exact .fail _
      | some json =>
          refine .bind (h.perform _) (.perform _) fun value => ?_
          exact .bind_of_ends (.modify _) fun _ _ => by simp

omit h hhost hrequire in
theorem sinks_answering (p : Path) {x : Eff σ η Value} (hx : Sinks n x) :
    Sinks n (answering p x) :=
  hx.bind_of_ends fun v s => by change Except.ok v ≠ _; simp

/-- Nothing but the body of a script goes down. -/
theorem sinks_load (call : LookupCall) : Sinks (n + 1) (load host serve call) := by
  refine .bind (.ofExcept _) (.ofExcept _) fun found => ?_
  cases found with
  | builtin name => exact sinks_provide h hhost name
  | script p => exact sinks_answering p (sinks_loadScript h hhost hrequire p call.parent)
  | json p => exact sinks_answering p (sinks_loadJson h p call.parent)
  | native p => exact .fail _

theorem sinks_base (call : LookupCall) : Sinks (n + 1) (base host serve call) := by
  refine .bind (.modify fun s => ledger_aside s trivial) (.modify _) fun _ => ?_
  cases hf : host.lookup? with
  | some f => exact Script.sinks_exec h (hhost.lookup f hf call) fun _ => False.elim
  | none => exact sinks_load h hhost hrequire call

theorem sinks_require (call : LookupCall) : Sinks (n + 1) (require host serve call) :=
  .bind .get .get fun _ =>
    sinks_intercept h hhost call (sinks_base h hhost hrequire call) _

end Legacy

end

/-- A lookup that stops for want of depth has gone down one body for every call it was allowed. -/
theorem sinks_serve {host : Host σ η} (hhost : host.OnlyBodiesRequire) (depth : Nat)
    (call : LookupCall) : Sinks depth (serve host depth (.require call)) := by
  induction depth generalizing call with
  | zero => exact fun s _ => Nat.le_refl _
  | succ depth ih =>
      exact Legacy.sinks_require (ledger_holdsOfSteps (ledger_serve host depth)) hhost ih call

/-! ### Every lookup comes to an end -/

/-- At every moment that a state has come through, where files were evicted at rest only. -/
theorem State.LedgerHolds.nests {host : Host σ η} {s : State σ η} (hholds : s.LedgerHolds)
    (hlocated : s.Located host)
    (hrest : s.history.EvictsAtRest) (before : History) (hbefore : before <+: s.history) :
    before.Nests host := by
  obtain ⟨after, hsplit⟩ := hbefore
  have hlegal : Legal (before ++ after) := hsplit ▸ hholds.legal
  rw [← hsplit] at hrest
  refine hlegal.take.nests hrest.take fun e he => ?_
  exact hlocated e (hsplit ▸ List.mem_append_left _ he)

/-- The scripts whose bodies are running are different ones of the files that lookups may come to.
So if only bodies require, then every lookup comes to an end, within as many nested calls as there
are such files and one more. -/
theorem requires_nest_within_locations (host : Host σ η) (store : σ) (depth : Nat)
    (program : Program σ η α) (s : State σ η)
    (hs : s = (host.exec depth program (State.initial store)).2) (hrest : s.history.EvictsAtRest) :
    host.locations.Finite ∧
    (∀ before, before <+: s.history → Nests host before) ∧
    (∀ p, s.cache.exports? p = none → ¬ s.history.ledger.Runs p) ∧
    (host.OnlyBodiesRequire → ∀ call,
      let end_ := (serve host (host.locations.ncard + 1) (.require call)).runIn s
      end_.2.history.EvictsAtRest →
        end_.1 ≠ .error .outOfDepth ∧
        (∀ before, before <+: end_.2.history → Nests host before) ∧
        ∀ depth, host.locations.ncard < depth →
          (serve host depth (.require call)).runIn s = end_) := by
  have hholds : s.LedgerHolds := hs ▸ host.ledgerHolds_exec depth program store
  have hlocated : s.Located host := hs ▸ (survives_located host).exec depth program nofun
  refine ⟨host.finite_locations, hholds.nests hlocated hrest, fun p hp => ?_, fun hhost call => ?_⟩
  · exact (hholds.legal.loadingIffRuns hrest).not_runs (hholds.kept_of_exports?_eq_none hp)
  · intro end_ hend
    have hholds' : end_.2.LedgerHolds := (ledger_serve host _ (.require call) s).1.2 hholds
    have hlocated' : end_.2.Located host :=
      ((survives_located host).serve _ (.require call) s hlocated).1
    have hnests := hholds'.nests hlocated' hend
    have hends : end_.1 ≠ .error .outOfDepth := by
      intro hstop
      have hdeep : s.bodies + (host.locations.ncard + 1) ≤ end_.2.bodies :=
        sinks_serve hhost _ call s hstop
      have hle : end_.2.bodies ≤ host.locations.ncard := (hnests _ (List.prefix_refl _)).length_le
      omega
    exact ⟨hends, hnests, fun depth hdepth =>
      (continues_serve host hdepth (.require call)).runIn_eq hends⟩

/-- Every script requires the file that its text names: the first two each other, and the third,
which then fails, itself. -/
def circlingWorld : Host Unit Empty where
  files := ⟨[(["a.cjs"], .file (some "./b.cjs")), (["b.cjs"], .file (some "./a.cjs")),
    (["c.cjs"], .file (some "./c.cjs"))]⟩
  config := {}
  builtins := ⟨"node:", []⟩
  linkerBuiltins? := none
  scriptContext := ⟨0⟩
  compile _ _ := throw (.engine "")
  runScript text m := do
    let _ ← Script.request (.require ⟨text, m.filename⟩)
    Script.ofExcept (if text = "./c.cjs" then .error (.engine "") else .ok ())
  hook h := nomatch h
  lookup? := none

theorem circlingWorld_onlyBodiesRequire : circlingWorld.OnlyBodiesRequire where
  script text m := by
    refine ⟨⟨_, rfl⟩, fun r => ?_⟩
    cases r with
    | error e => trivial
    | ok v => exact Script.calls_ofExcept _
  lookup f hf := nomatch hf
  provider name p hp := nomatch hp
  before h := nomatch h
  after h := nomatch h

/-- In the middle of the circle the first two are running, and the third can still be required. -/
theorem requires_nest_within_locations_circlingWorld :
    let s := (circlingWorld.exec 2 (Program.attempt (.require ⟨"./a.cjs", ⟨"/main.cjs"⟩⟩))
      (State.initial ())).2
    let end_ := (serve circlingWorld (circlingWorld.locations.ncard + 1)
      (.require ⟨"./c.cjs", ⟨"/main.cjs"⟩⟩)).runIn s
    s.history.EvictsAtRest ∧ circlingWorld.OnlyBodiesRequire ∧ end_.2.history.EvictsAtRest ∧
      s.history.ledger.running.map Prod.fst = [⟨"/b.cjs"⟩, ⟨"/a.cjs"⟩] ∧
      2 ≤ circlingWorld.locations.ncard ∧ end_.1 ≠ .error .outOfDepth := by
  intro s end_
  let call : LookupCall := ⟨"./c.cjs", ⟨"/main.cjs"⟩⟩
  have hfacts : s.history.EvictsAtRest ∧
      s.history.ledger.running.map Prod.fst = [⟨"/b.cjs"⟩, ⟨"/a.cjs"⟩] ∧
      (∀ d < 4, ((serve circlingWorld d (.require call)).runIn s).2.history.EvictsAtRest) ∧
      error? ((serve circlingWorld 3 (.require call)).runIn s).1 = some (.engine "") := by
    decide +kernel
  obtain ⟨hrest, hrunning, hshallow, herror⟩ := hfacts
  have hends : ((serve circlingWorld 3 (.require call)).runIn s).1 ≠ .error .outOfDepth := by
    rw [runIn_eq_error_of_error? herror]
    simp
  -- three calls are enough, and so it does not matter how many files there are
  have hdeep (d : Nat) :
      ((serve circlingWorld d (.require call)).runIn s).2.history.EvictsAtRest := by
    rcases Nat.lt_or_ge d 4 with hd | hd
    · exact hshallow d hd
    · rw [(continues_serve circlingWorld (Nat.le_of_succ_le hd) (.require call)).runIn_eq hends]
      exact hshallow 3 (by decide)
  obtain ⟨-, hmoments, -, hlookups⟩ := requires_nest_within_locations circlingWorld () 2
    (Program.attempt (.require ⟨"./a.cjs", ⟨"/main.cjs"⟩⟩)) s rfl hrest
  have hle := (hmoments s.history (List.prefix_refl _)).length_le
  rw [← List.length_map Prod.fst, hrunning] at hle
  exact ⟨hrest, circlingWorld_onlyBodiesRequire, hdeep _, hrunning, hle,
    (hlookups circlingWorld_onlyBodiesRequire call (hdeep _)).1⟩

end ModuleLoader
