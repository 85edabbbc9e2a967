import ModuleLoader.Proofs.BegunRecords
import ModuleLoader.Proofs.Bodies
import ModuleLoader.Proofs.FirstFailure
/-!
Everything is linked before anything is evaluated.

A request for a module, by a run or by an import that a body makes, has its
record built, then linked, and only then evaluated. What linking needs is done by
linking: the files of the whole static graph are read and compiled, its scripts
are required and its providers run, in depth first order, and no body of the
graph is run meanwhile. If that fails none ever will be, since no one has the
records but the request that has failed. Otherwise what is left to be done is to
run the bodies.

Requests nest. While a body runs it may make another, and while a file is compiled
or a script is run the code that does it may as well. All these are requests like
any other, and what is said here is said of each of them, from the state in which
it is made.
-/

namespace ModuleLoader

open Eff

variable {σ η α β : Type}

/-! ### Scripts in parts -/

section

variable {serve : (c : Call) → Eff σ η c.Reply}

theorem Program.run_bind (p : Program σ η α) (f : α → Program σ η β) :
    (p.bind f).run serve = p.run serve >>= fun a => (f a).run serve := by
  induction p with
  | done a => exact (LawfulMonad.pure_bind a fun a => (f a).run serve).symm
  | panic m => rfl
  | act a next ih =>
      simp only [Program.bind, Program.run, ih]
      exact (LawfulMonad.bind_assoc ..).symm
  | call c next ih =>
      simp only [Program.bind, Program.run, ih]
      exact (LawfulMonad.bind_assoc ..).symm

theorem Script.exec_bind (x : Script σ η α) (f : α → Script σ η β) :
    (x >>= f).exec serve = x.exec serve >>= fun a => (f a).exec serve := by
  have hrun : (x >>= f).run = Program.bind x.run (ExceptT.bindCont f) := rfl
  rw [exec, hrun, Program.run_bind, bind_assoc, exec, bind_assoc]
  congr 1
  funext o
  cases o <;> rfl

theorem Script.exec_request (c : Call) :
    (request c : Script σ η c.Reply).exec serve = serve c := by
  funext s
  change (((serve c).settle >>= Pure.pure) >>= fun o => Eff.ofExcept o).runIn s = (serve c).runIn s
  rw [runIn_bind, runIn_bind, runIn_settle]
  generalize (serve c).runIn s = end_
  obtain ⟨(_ | _ | _) | _, t⟩ := end_ <;> rfl

theorem Script.exec_request_bind (c : Call) (f : c.Reply → Script σ η β) :
    (request c >>= f).exec serve = serve c >>= fun r => (f r).exec serve := by
  rw [exec_bind, exec_request]

theorem Script.exec_importModule (referrer : Referrer) (specifier : String) :
    (importModule referrer specifier : Script σ η Namespace).exec serve =
      (do let r ← serve (.link specifier referrer)
          serve (.linkModule r)
          serve (.evaluate r)) := by
  refine (exec_request_bind (.link specifier referrer) _).trans (congrArg _ (funext fun r => ?_))
  refine (exec_request_bind (.linkModule r) _).trans (congrArg _ (funext fun _ => ?_))
  exact exec_request (.evaluate r)

theorem Script.exec_runEntry {entry : Path} (habsolute : entry.isAbsolute)
    (context? : Option ContextId) :
    (runEntry entry context? : Script σ η RecordId).exec serve =
      (do let context ← (contextFor context?).exec serve
          let r ← serve (.buildSource entry.text (.root entry.text context))
          serve (.linkModule r)
          let _ ← serve (.evaluate r)
          return r) := by
  rw [runEntry, if_pos habsolute, exec_bind]
  refine congrArg _ (funext fun c => ?_)
  refine (exec_request_bind (.buildSource ..) _).trans (congrArg _ (funext fun r => ?_))
  refine (exec_request_bind (.linkModule r) _).trans (congrArg _ (funext fun _ => ?_))
  exact exec_request_bind (.evaluate r) fun _ => pure r

end

/-! ### Bodies that are not run -/

namespace State

/-- Of the records in the list no body is run from the first state to the second. -/
def RunsNoneOf (nodes : List RecordId) (s t : State σ η) : Prop :=
  ∃ runs, t.trace.evaluations = s.trace.evaluations ++ runs ∧ ∀ run ∈ runs, run.1 ∉ nodes

variable {s t : State σ η} {nodes : List RecordId}

/-- No body is run of records that have not begun to be evaluated in the end. -/
theorem Begins.runsNoneOf (h : Begins s t)
    (hnot : ∀ x ∈ nodes, ∃ a, t.record? x = some a ∧ ¬ a.Begun) : RunsNoneOf nodes s t := by
  obtain ⟨runs, hruns, hbegun⟩ := h
  refine ⟨runs, hruns, fun run hrun hx => ?_⟩
  obtain ⟨a, ha, ha'⟩ := hnot _ hx
  obtain ⟨b, hb, hb'⟩ := hbegun run hrun
  obtain rfl : a = b := by simpa [ha] using hb
  exact ha' hb'

theorem RunsNoneOf.append {nodes' : List RecordId} (h : RunsNoneOf nodes s t)
    (h' : RunsNoneOf nodes' s t) : RunsNoneOf (nodes ++ nodes') s t := by
  obtain ⟨runs, hruns, hnone⟩ := h
  obtain ⟨runs', hruns', hnone'⟩ := h'
  obtain rfl : runs = runs' := List.append_cancel_left (hruns.symm.trans hruns')
  refine ⟨runs, hruns, fun run hrun hx => ?_⟩
  exact (List.mem_append.1 hx).elim (hnone run hrun) (hnone' run hrun)

end State

theorem ModuleRecord.not_begun_of_linked {a : ModuleRecord σ η} (h : a.status = .linked) :
    ¬ a.Begun := fun hbegun => by
  have hpast := hbegun.past
  rw [h] at hpast
  exact absurd hpast (by decide)

/-- A record of which linking broke off never begins to be evaluated. -/
theorem ModuleRecord.BreaksOff.not_begun {t : State σ η} {reason specifier : String}
    {done : Forest} {a b : ModuleRecord σ η} (h : a.BreaksOff t reason done specifier)
    (hab : a.Grows b) : ¬ b.Begun := fun hbegun => by
  have hdeps : b.dependencies = done.edges := by
    rw [hab.settled (by rw [ModuleRecord.status, h.phase]; rfl), h.dependencies]
  have hshort := h.requests.length_le
  rw [← hab.requests, ← hbegun.whole, hdeps, List.length_append, List.length_singleton] at hshort
  omega

/-! ### Requests -/

/-- The request has its record built: from the first state on, this record, by the second one. A run
is of an entry that nobody imports, in a context that is given or new. -/
inductive Script.Builds (host : Host σ η) (depth : Nat) :
    {β : Type} → Script σ η β → State σ η → RecordId → State σ η → Prop
  | entry {entry : Path} {context? : Option ContextId} {c : ContextId} {s u m : State σ η}
      {r : RecordId} (habsolute : entry.isAbsolute)
      (hcontext : ((Script.contextFor context?).exec (serve host depth)).runIn s = (.ok c, u))
      (hbuild : (serve host depth (.buildSource entry.text (.root entry.text c))).runIn u =
        (.ok r, m)) : Builds host depth (Script.runEntry entry context?) s r m
  | imported {specifier : String} {referrer : Referrer} {s m : State σ η} {r : RecordId}
      (hlink : (serve host depth (.link specifier referrer)).runIn s = (.ok r, m)) :
      Builds host depth (Script.importModule referrer specifier) s r m

namespace Script.Builds

variable {host : Host σ η} {depth : Nat} {x : Script σ η β} {s m : State σ η} {r : RecordId}

/-- What is left of a request is to link the record and then to evaluate it. -/
theorem exec_eq (h : x.Builds host depth s r m) :
    ∃ finish : Namespace → β, (x.exec (serve host depth)).runIn s =
      (do serve host depth (.linkModule r)
          let n ← serve host depth (.evaluate r)
          return finish n : Eff σ η β).runIn m := by
  cases h with
  | entry habsolute hcontext hbuild =>
      refine ⟨fun _ => r, ?_⟩
      rw [exec_runEntry habsolute, runIn_bind, hcontext]
      dsimp only
      rw [runIn_bind, hbuild]
  | imported hlink =>
      refine ⟨id, ?_⟩
      rw [exec_importModule, runIn_bind, hlink]
      simp only [id, bind_pure]

variable {names : σ → RecordId → Prop} {known : RecordId → Prop}

theorem core_contextFor {context? : Option ContextId} {c : ContextId} {u : State σ η}
    (h : ((Script.contextFor context?).exec (serve host depth)).runIn s = (.ok c, u)) :
    u.core = s.core := by
  cases context? with
  | some c =>
      obtain ⟨-, rfl⟩ := Prod.mk.inj h
      rfl
  | none =>
      obtain ⟨-, rfl⟩ := Prod.mk.inj h
      rfl

theorem fresh (h : x.Builds host depth s r m) (hhost : host.EvaluatesKnown names known)
    (hs : s.Good host (fun _ => True) (Compiled.EvaluatesKnown names known))
    (hnone : s.Hides names known fun _ => False) :
    State.FollowsBegun host (fun _ => True) (Compiled.EvaluatesKnown names known) s m ∧
      m.Hides names known (· = r) ∧ ∃ a, m.record? r = some a ∧ a.phase = .unlinked := by
  have hsparing := sparesHidden_serve hhost
  -- a record that was added last of all is hidden as soon as it is there
  have hmade : ∀ {u m' : State σ η} {name : String} {referrer : Referrer} {kind : ModuleKind σ η},
      State.KeepsHidden host names known (fun _ => False) u m' →
      (m'.add (.fresh name referrer kind)).Hides names known (· = m'.next) ∧
        ∃ a, (m'.add (.fresh name referrer kind)).record? m'.next = some a ∧
          a.phase = .unlinked := by
    intro u m' name referrer kind hm'
    have hhides := hm'.hides.hide_next hm'.good.sound name referrer kind
    simp only [false_or] at hhides
    exact ⟨hhides, _, State.records_add_next m' _, rfl⟩
  cases h with
  | @entry entry _ c _ u _ _ _ hcontext hbuild =>
      have hcore := core_contextFor hcontext
      have hrecords : u.records = s.records := congrArg (·.1) hcore
      have hu := hs.congr hrecords (congrArg (·.2.1) hcore)
      have hunone : u.Hides names known fun _ => False := by
        refine hnone.of_eq hrecords ?_
        rw [show u.store = s.store from congrArg (·.2.2.2) hcore]
        exact hnone.named
      have hsu :
          State.FollowsBegun host (fun _ => True) (Compiled.EvaluatesKnown names known) s u :=
        ⟨hu, .of_records_eq hrecords, State.begins_of_eq (congrArg (·.2.2.1) hcore)⟩
      have hum := (leads_call (keepsGood_serve hhost.codeFailsWithin depth)
        (runsBegun_serve hhost.codeFailsWithin depth) hu
        (.buildSource entry.text (.root entry.text c))).of_eq_ok hbuild
      refine ⟨hsu.trans hum.1, ?_⟩
      cases depth with
      | zero => simp [serve] at hbuild
      | succ depth =>
          obtain ⟨m', name, kind, hm', rfl, rfl⟩ :=
            ((hsparing depth).loadInvariant hhost u).before_buildSource (.refl hu hunone) hbuild
          exact hmade hm'
  | @imported specifier referrer _ _ _ hlink =>
      have hsm := (leads_call (keepsGood_serve hhost.codeFailsWithin depth)
        (runsBegun_serve hhost.codeFailsWithin depth) hs
        (.link specifier referrer)).of_eq_ok hlink
      refine ⟨hsm.1, ?_⟩
      cases depth with
      | zero => simp [serve] at hlink
      | succ depth =>
          obtain ⟨m', name, kind, hm', rfl, rfl⟩ :=
            ((hsparing depth).loadInvariant hhost s).before_link (.refl hs hnone) hlink
          exact hmade hm'

end Script.Builds

/-! ### The phases of a request -/

section

variable {host : Host σ η} {names : σ → RecordId → Prop} {known : RecordId → Prop} {depth : Nat}
  {s m u : State σ η} {r : RecordId} {a : ModuleRecord σ η}
  (hhost : host.EvaluatesKnown names known)
  (hsm : State.FollowsBegun host (fun _ => True) (Compiled.EvaluatesKnown names known) s m)
  (hhides : m.Hides names known (· = r)) (ha : m.record? r = some a) (hphase : a.phase = .unlinked)

include hhost hsm hhides ha hphase

/-- A graph that has been linked is there as a whole, and is ready to be evaluated. No body of it
has been run. -/
theorem ready_of_linkModule (hrun : (serve host depth (.linkModule r)).runIn m = (.ok (), u)) :
    ∃ f b, u.record? r = some b ∧ b.status = .linked ∧ b.dependencies = f.edges ∧
      Linker.Ready host names known (r :: f.postorder) f u ∧ (r :: f.postorder).Nodup ∧
      Linker.Links host depth (f.preorder r) m u ∧ State.RunsNoneOf (f.postorder ++ [r]) s u := by
  have hkeepsGood := keepsGood_serve hhost.codeFailsWithin depth
  obtain ⟨f, b, hb, hlinked, hdeps, hf, hflinked, hfhides⟩ :=
    (sparesHidden_serve hhost depth).linkModule
    (· = r) r m a u hsm.good hhides ha hphase hrun
  obtain ⟨g, c, hc, hcdeps, hg, hlinks⟩ :=
    Linker.links_linkModule hhost.codeFailsWithin depth r m u a hsm.good ha hphase hrun
  obtain rfl : b = c := by simpa [hb] using hc
  obtain rfl := hf.unique hg (hdeps.symm.trans hcdeps)
  have hmu := ((leads_call hkeepsGood (runsBegun_serve hhost.codeFailsWithin depth) hsm.good
    (.linkModule r)).of_eq_ok hrun).1
  have hnodup := hmu.good.sound.nodup_tree hb hf hdeps
  have hhidden : u.Hides names known (· ∈ r :: f.postorder) := by
    simpa only [List.mem_cons] using hfhides rfl
  refine ⟨f, b, hb, hlinked, hdeps, ⟨hmu.good, hhidden, fun x hx => List.mem_cons_of_mem _ hx, hf,
    hflinked, (List.nodup_cons.1 hnodup).2⟩, hnodup, hlinks, ?_⟩
  refine (hsm.trans hmu).begins.runsNoneOf fun x hx => ?_
  rcases List.mem_append.1 hx with hx | hx
  · obtain ⟨c, hc, hclinked⟩ := hflinked x hx
    exact ⟨c, hc, c.not_begun_of_linked hclinked⟩
  · exact ⟨b, List.mem_singleton.1 hx ▸ hb, b.not_begun_of_linked hlinked⟩

/-- Of a graph that could not be linked no body has been run, and none is run by code that does not
name a record of it. -/
theorem runsNoneOf_of_linkModule {e : Error}
    (hrun : (serve host depth (.linkModule r)).runIn m = (.error (.error e), u)) :
    ∃ d : Descent, d.Stands host u e.message r ∧ State.RunsNoneOf (d.way r ++ d.done) s u ∧
      ∀ (γ : Type) (depth' : Nat) (P : γ → Prop) (q : Program σ η γ),
        q.EvaluatesKnown names P (fun x => x.index < u.records.size ∧ x ∉ d.way r ++ d.done) →
        State.RunsNoneOf (d.way r ++ d.done) u (host.exec depth' q u).2 := by
  have hkeepsGood := keepsGood_serve hhost.codeFailsWithin
  have hbegins := runsBegun_serve hhost.codeFailsWithin
  obtain ⟨d, hd⟩ :=
    Linker.fails_linkModule hhost.codeFailsWithin depth r m u a e hsm.good ha hphase hrun
  have hmu := (leads_call (hkeepsGood depth) (hbegins depth) hsm.good (.linkModule r)).of_eq hrun
  have huhides := hd.hides names known (· = r) hhost hsm.good hhides
  -- what has become of the records on the way down is no record that is being evaluated
  have hway : ∀ t : State σ η, State.Follows u t → ∀ x ∈ d.way r,
      ∃ b, t.record? x = some b ∧ ¬ b.Begun := by
    intro t hut x hx
    obtain ⟨b, done, specifier, hb, hbroken⟩ := hd.stands.breaksOff hx
    obtain ⟨b', hb', hbb'⟩ := hut.grows x b hb
    exact ⟨b', hb', hbroken.not_begun hbb'⟩
  refine ⟨d, hd.stands, (hsm.trans hmu).begins.runsNoneOf fun x hx => ?_, ?_⟩
  · rcases List.mem_append.1 hx with hx | hx
    · exact hway u (.refl u) x hx
    · obtain ⟨c, hc, hclinked⟩ := hd.linked names known (· = r) hhost hsm.good hhides x hx
      exact ⟨c, hc, c.not_begun_of_linked hclinked⟩
  · intro γ depth' P q hq
    have hseq := (followsBegun_program (hkeepsGood depth') (hbegins depth') u hq.failsWithin
      (fun _ => True) u
      (.refl hmu.good)).1
    have hown : ∀ x, x.index < u.records.size ∧ x ∉ d.way r ++ d.done →
        x.index < u.records.size ∧ ¬ (x = r ∨ x ∈ d.done) := by
      rintro x ⟨hlt, hx⟩
      rw [List.mem_append, not_or] at hx
      refine ⟨hlt, ?_⟩
      rintro (rfl | hdone)
      · exact hx.1 (d.mem_way x)
      · exact hx.2 hdone
    have hkeep := ((sparesHidden_serve hhost depth').leads_program hmu.good huhides hq hown
      fun _ => True).1
    refine (hseq.begins.runsNoneOf fun x hx => hway _ hseq.follows x hx).append ?_
    obtain ⟨runs, hruns, hspared⟩ := hkeep.spares.runs
    exact ⟨runs, hruns, fun run hrun hx => (hspared run hrun).1 (Or.inr hx)⟩

end

/-- No body of a graph is run before all of the graph is linked, and none at all if that fails. What
comes after linking is nothing but the bodies of the graph in postorder, with what they themselves
have done. This is so of runs and of imports, at any point in the course of others. -/
theorem linking_precedes_evaluation (host : Host σ η) (names : σ → RecordId → Prop)
    (known : RecordId → Prop) (hhost : host.EvaluatesKnown names known) (s : State σ η)
    (hs : s.Good host (fun _ => True) (Compiled.EvaluatesKnown names known))
    (hknown : ∀ x, known x → x.index < s.records.size)
    (hnamed : ∀ x, names s.store x → x.index < s.records.size) (depth : Nat) :
    (∀ (β : Type) (x : Script σ η β) (r : RecordId) (m : State σ η), x.Builds host depth s r m →
      (∀ fault u, (serve host depth (.linkModule r)).runIn m = (.error fault, u) →
        (x.exec (serve host depth)).runIn s = (.error fault, u)) ∧
      (∀ e u, (serve host depth (.linkModule r)).runIn m = (.error (.error e), u) →
        ∃ d : Descent, d.Stands host u e.message r ∧ State.RunsNoneOf (d.way r ++ d.done) s u ∧
          ∀ (γ : Type) (depth' : Nat) (P : γ → Prop) (q : Program σ η γ),
            q.EvaluatesKnown names P (fun y => y.index < u.records.size ∧ y ∉ d.way r ++ d.done) →
            State.RunsNoneOf (d.way r ++ d.done) u (host.exec depth' q u).2) ∧
      (∀ u, (serve host depth (.linkModule r)).runIn m = (.ok (), u) →
        ∃ (f : Forest) (o : Except Fault Namespace) (t : State σ η),
          (∃ b, u.records[r.index]? = some b ∧ b.dependencies = f.edges) ∧ f.Stands u ∧
          (∀ y ∈ f.postorder ++ [r], ∃ b, u.records[y.index]? = some b ∧ b.status = .linked ∧
            b.dependencies.map Prod.fst = b.requests) ∧
          Linker.Links host depth (f.preorder r) m u ∧
          State.RunsNoneOf (f.postorder ++ [r]) s u ∧
          (serve host depth (.evaluate r)).runIn u = (o, t) ∧
          Linker.Evaluates host (f.postorder ++ [r]) u o t ∧
          ((x.exec (serve host depth)).runIn s).2 = t)) ∧
    (∀ entry context? r t,
      ((Script.runEntry entry context?).exec (serve host depth)).runIn s = (.ok r, t) →
      ∃ b n, t.records[r.index]? = some b ∧ b.phase = .evaluated n) := by
  have hnone : s.Hides names known fun _ => False :=
    ⟨fun _ => False.elim, fun x hx => ⟨hknown x hx, id⟩, fun x hx => ⟨hnamed x hx, id⟩,
      fun _ _ _ _ _ _ _ => id⟩
  refine ⟨fun β x r m hx => ?_, fun entry context? r t hrun => ?_⟩
  · obtain ⟨hsm, hhides, a, ha, hphase⟩ := hx.fresh hhost hs hnone
    obtain ⟨finish, hexec⟩ := hx.exec_eq
    refine ⟨fun fault u hlink => ?_, fun e u hlink => ?_, fun u hlink => ?_⟩
    · rw [hexec, runIn_bind, hlink]
    · exact runsNoneOf_of_linkModule hhost hsm hhides ha hphase hlink
    · obtain ⟨f, b, hb, hlinked, hdeps, hready, hnodup, hlinks, hruns⟩ :=
        ready_of_linkModule hhost hsm hhides ha hphase hlink
      cases heval : (serve host depth (.evaluate r)).runIn u with
      | mk o t =>
          refine ⟨f, o, t, ⟨b, hb, hdeps⟩, hready.stands,
            fun y hy => ?_, hlinks, hruns, rfl, ?_, ?_⟩
          · obtain ⟨c, hc, hclinked⟩ : ∃ c, u.record? y = some c ∧ c.status = .linked := by
              rcases List.mem_append.1 hy with hy | hy
              · exact hready.linked y hy
              · exact ⟨b, List.mem_singleton.1 hy ▸ hb, hlinked⟩
            exact ⟨c, hc, hclinked, (hready.good.sound.kept y c hc).whole (by rw [hclinked]; rfl)⟩
          · exact evaluates_serve hhost depth _ r f u t b o hready hb hlinked hdeps hnodup heval
          · rw [hexec, runIn_bind, hlink]
            dsimp only
            rw [runIn_bind, heval]
            cases o <;> rfl
  · by_cases habsolute : entry.isAbsolute
    · rw [Script.exec_runEntry habsolute] at hrun
      obtain ⟨c, u₁, hcontext, hrun⟩ := runIn_bind_eq_ok.1 hrun
      obtain ⟨r', m, hbuild, hrun⟩ := runIn_bind_eq_ok.1 hrun
      obtain ⟨_, u, hlink, hrun⟩ := runIn_bind_eq_ok.1 hrun
      obtain ⟨n, t', heval, hrun⟩ := runIn_bind_eq_ok.1 hrun
      rw [runIn_pure, Prod.mk.injEq, Except.ok.injEq] at hrun
      obtain ⟨rfl, rfl⟩ := hrun
      have hx := Script.Builds.entry habsolute hcontext hbuild
      obtain ⟨hsm, hhides, a, ha, hphase⟩ := hx.fresh hhost hs hnone
      obtain ⟨f, b, -, -, -, hready, -⟩ := ready_of_linkModule hhost hsm hhides ha hphase hlink
      obtain ⟨b, hb, hbphase⟩ :=
        (keepsGood_serve hhost.codeFailsWithin depth).evaluate _ u n _ hready.good heval
      exact ⟨b, n, hb, hbphase⟩
    · rw [Script.runEntry, if_neg habsolute] at hrun
      cases (Prod.mk.inj hrun).1

def Scripted.newLoader : State Scripted.Session Scripted.HookPlan := .initial .initial

def Scripted.readyToRun : State Scripted.Session Scripted.HookPlan :=
  (Action.carryOut newLoader (.newContext none)).2

def Scripted.twiceBuilt : Except Fault RecordId × State Scripted.Session Scripted.HookPlan :=
  (serve twiceWorld 3 (.buildSource "/a.mjs" (.root "/a.mjs" ⟨0⟩))).runIn readyToRun

def Scripted.twiceLinked : Except Fault Unit × State Scripted.Session Scripted.HookPlan :=
  (serve twiceWorld 3 (.linkModule ⟨0⟩)).runIn twiceBuilt.2

def Scripted.twiceEnded : Except Fault RecordId × State Scripted.Session Scripted.HookPlan :=
  ((Script.runEntry ⟨"/a.mjs"⟩ none).exec (serve twiceWorld 3)).runIn newLoader

def Scripted.brokenFound : Except Fault RecordId × State Scripted.Session Scripted.HookPlan :=
  (serve brokenWorld 3 (.link "./a.mjs" (.root "/x.mjs" ⟨0⟩))).runIn newLoader

def Scripted.brokenLinked : Except Fault Unit × State Scripted.Session Scripted.HookPlan :=
  (serve brokenWorld 3 (.linkModule ⟨0⟩)).runIn brokenFound.2

open Scripted in
/-- The file that imports a built-in twice, and once more while it runs, is run: two records are
linked for it before its body is run, and what comes of the run is evaluated. The file that cannot
be linked is imported: its body is not run, nor is that of the file it leads to. -/
theorem linking_precedes_evaluation_worlds :
    (∃ (f : Forest) (o : Except Fault Namespace),
      (Script.runEntry ⟨"/a.mjs"⟩ none).Builds twiceWorld 3 newLoader ⟨0⟩ twiceBuilt.2 ∧
      twiceLinked.1.toOption = some () ∧ f.edges.map Prod.fst = ["b", "b"] ∧
      Linker.Links twiceWorld 3 (f.preorder ⟨0⟩) twiceBuilt.2 twiceLinked.2 ∧
      State.RunsNoneOf (f.postorder ++ [⟨0⟩]) newLoader twiceLinked.2 ∧
      Linker.Evaluates twiceWorld (f.postorder ++ [⟨0⟩]) twiceLinked.2 o twiceEnded.2) ∧
    (∃ b n, twiceEnded.2.records[0]? = some b ∧ b.phase = .evaluated n) ∧
    ∃ d : Descent,
      (Script.importModule (.root "/x.mjs" ⟨0⟩) "./a.mjs").Builds brokenWorld 3 newLoader ⟨0⟩
        brokenFound.2 ∧
      error? brokenLinked.1 = some (.sourceRead ⟨"/d.mjs"⟩ .notFound) ∧
      d.Stands brokenWorld brokenLinked.2 (Error.sourceRead ⟨"/d.mjs"⟩ .notFound).message ⟨0⟩ ∧
      State.RunsNoneOf (d.way ⟨0⟩ ++ d.done) newLoader brokenLinked.2 := by
  have hphases (host : Host Session HookPlan) (hhost : host.EvaluatesKnown NamesNone
    fun _ => False) :=
    linking_precedes_evaluation host NamesNone (fun _ => False) hhost newLoader
      (State.good_initial _) (fun _ hx => hx.elim) (fun _ hx => hx.elim) 3
  have htwice := hphases twiceWorld (evaluatesKnown_constant _ _ _ _ _ _)
  have hbroken := hphases brokenWorld (evaluatesKnown_constant _ _ _ _ _ _)
  refine ⟨?_, ?_, ?_⟩
  · have hbuilt : twiceBuilt.1.toOption = some ⟨0⟩ := by decide +kernel
    have hlinked : twiceLinked.1.toOption = some () := by decide +kernel
    have hnames : ∀ b, twiceLinked.2.record? ⟨0⟩ = some b →
        b.dependencies.map Prod.fst = ["b", "b"] := by
      have hmap : (twiceLinked.2.record? ⟨0⟩).map (fun b => b.dependencies.map Prod.fst) =
          some ["b", "b"] := by decide +kernel
      intro b hb
      rw [hb] at hmap
      exact Option.some.inj hmap
    have hx : (Script.runEntry ⟨"/a.mjs"⟩ none).Builds twiceWorld 3 newLoader ⟨0⟩ twiceBuilt.2 :=
      .entry (by decide) (u := readyToRun) rfl (runIn_eq_ok_of_toOption hbuilt)
    obtain ⟨f, o, t, ⟨b, hb, hdeps⟩, -, -, hlinks, hruns, -, hevaluates, ht⟩ :=
      (htwice.1 _ _ _ _ hx).2.2 twiceLinked.2 (runIn_eq_ok_of_toOption hlinked)
    obtain rfl : twiceEnded.2 = t := ht
    exact ⟨f, o, hx, hlinked, hdeps ▸ hnames b hb, hlinks, hruns, hevaluates⟩
  · have hrun : twiceEnded.1.toOption = some ⟨0⟩ := by decide +kernel
    exact htwice.2 ⟨"/a.mjs"⟩ none ⟨0⟩ _ (runIn_eq_ok_of_toOption hrun)
  · have hfound : brokenFound.1.toOption = some ⟨0⟩ := by decide +kernel
    have hfails : error? brokenLinked.1 = some (.sourceRead ⟨"/d.mjs"⟩ .notFound) := by
      decide +kernel
    have hx : (Script.importModule (.root "/x.mjs" ⟨0⟩) "./a.mjs").Builds brokenWorld 3 newLoader
        ⟨0⟩ brokenFound.2 := .imported (runIn_eq_ok_of_toOption hfound)
    obtain ⟨d, hd, hruns, -⟩ :=
      (hbroken.1 _ _ _ _ hx).2.1 _ _ (runIn_eq_error_of_error? hfails)
    exact ⟨d, hx, hfails, hd, hruns⟩

end ModuleLoader
