import ModuleLoader.Proofs.PostOrder
/-!
What is left to do once everything is linked.

Evaluating a tree that is linked is no more than running its bodies. The loader
goes through the records in postorder. For one that wraps a value it takes the
exports as they are, for one that is made from source it runs the body, and in
between it changes nothing but how far records have come. It does not look
anything up, nor read, nor compile, nor run a provider: where the trace tells of
such a thing, a body has asked for it.

This is so however the evaluation ends. If it does not end with a value then it
stops somewhere on this way, between two bodies or in one, and nothing happens
any more after that.
-/

namespace ModuleLoader

open Eff

variable {σ η α β : Type}

/-! ### Bodies in turn -/

namespace Linker

/-- The records are evaluated one after the other. For a synthetic record its namespace is made, and
for a source record its body is run, to its end. Between them nothing changes but how far records
have come. -/
inductive Bodies (host : Host σ η) : List RecordId → State σ η → State σ η → Prop
  | nil {s t : State σ η} (hbare : t.bare = s.bare) : Bodies host [] s t
  | synthetic {s u t : State σ η} {x : RecordId} {a : ModuleRecord σ η} {m : SyntheticModule}
      {rest : List RecordId} (hbare : u.bare = s.bare) (ha : u.record? x = some a)
      (hkind : a.kind = .synthetic m)
      (hrest : Bodies host rest (Action.carryOut u (.newNamespace (m.snapshot u.heap))).2 t) :
      Bodies host (x :: rest) s t
  | source {s u v t : State σ η} {x : RecordId} {a : ModuleRecord σ η} {m : SourceModule σ η}
      {env : ModuleEnvironment} {depth : Nat} {n : Namespace} {rest : List RecordId}
      (hbare : u.bare = s.bare) (ha : u.record? x = some a) (hkind : a.kind = .source m)
      (hrun : ((m.compiled.body env).exec (serve host depth)).runIn (u.emit (.evaluate x env)) =
        (.ok n, v))
      (hrest : Bodies host rest v t) : Bodies host (x :: rest) s t

/-- The body of the record is run, and does not come to a value. -/
inductive Throws (host : Host σ η) (x : RecordId) (s t : State σ η) : Prop
  | intro {u v : State σ η} {a : ModuleRecord σ η} {m : SourceModule σ η} {env : ModuleEnvironment}
      {depth : Nat} {fault : Fault} (hbare : u.bare = s.bare) (ha : u.record? x = some a)
      (hkind : a.kind = .source m)
      (hrun : ((m.compiled.body env).exec (serve host depth)).runIn (u.emit (.evaluate x env)) =
        (.error fault, v))
      (hend : t.bare = v.bare)

/-- The records are evaluated in turn, all of them if this ends with a value. If it does not, it is
some of them, and then nothing, or the body of the next, which does not come to a value either. -/
def Evaluates (host : Host σ η) (nodes : List RecordId) (s : State σ η) :
    Except Fault α → State σ η → Prop
  | .ok _, t => Bodies host nodes s t
  | .error _, t => ∃ done rest m, nodes = done ++ rest ∧ Bodies host done s m ∧
      (t.bare = m.bare ∨ ∃ x after, rest = x :: after ∧ Throws host x m t)

variable {host : Host σ η} {nodes nodes' : List RecordId} {s s' m t t' : State σ η}

theorem Bodies.of_bare (hbare : s.bare = s'.bare) (h : Bodies host nodes s t) :
    Bodies host nodes s' t := by
  cases h with
  | nil hbare' => exact .nil (hbare'.trans hbare)
  | synthetic hbare' ha hkind hrest => exact .synthetic (hbare'.trans hbare) ha hkind hrest
  | source hbare' ha hkind hrun hrest => exact .source (hbare'.trans hbare) ha hkind hrun hrest

theorem Bodies.append (h : Bodies host nodes s m) (h' : Bodies host nodes' m t) :
    Bodies host (nodes ++ nodes') s t := by
  induction h with
  | nil hbare => exact h'.of_bare hbare
  | synthetic hbare ha hkind _ ih => exact .synthetic hbare ha hkind (ih h')
  | source hbare ha hkind hrun _ ih => exact .source hbare ha hkind hrun (ih h')

theorem Bodies.bare_end (h : Bodies host nodes s t) (hbare : t'.bare = t.bare) :
    Bodies host nodes s t' := by
  simpa using h.append (.nil hbare)

/-- All have been evaluated, whatever is made of it. -/
theorem Bodies.evaluates (h : Bodies host nodes s t) (o : Except Fault α) :
    Evaluates host nodes s o t := by
  cases o with
  | ok a => exact h
  | error fault => exact ⟨nodes, [], t, by simp, h, .inl rfl⟩

theorem Evaluates.of_bare {o : Except Fault α} (hbare : s.bare = s'.bare)
    (h : Evaluates host nodes s o t) : Evaluates host nodes s' o t := by
  cases o with
  | ok a => exact Bodies.of_bare hbare h
  | error fault =>
      obtain ⟨done, rest, m, hnodes, hdone, hstop⟩ := h
      exact ⟨done, rest, m, hnodes, hdone.of_bare hbare, hstop⟩

theorem Bodies.append_evaluates {o : Except Fault α} (h : Bodies host nodes s m)
    (h' : Evaluates host nodes' m o t) : Evaluates host (nodes ++ nodes') s o t := by
  cases o with
  | ok a => exact Bodies.append h h'
  | error fault =>
      obtain ⟨done, rest, m', rfl, hdone, hstop⟩ := h'
      exact ⟨nodes ++ done, rest, m', by simp, h.append hdone, hstop⟩

/-- What has stopped has stopped for good. -/
theorem Evaluates.stop {fault fault' : Fault} (more : List RecordId)
    (h : Evaluates host nodes s (.error fault : Except Fault α) t) (hbare : t'.bare = t.bare) :
    Evaluates host (nodes ++ more) s (.error fault' : Except Fault β) t' := by
  obtain ⟨done, rest, m, rfl, hdone, hstop⟩ := h
  refine ⟨done, rest ++ more, m, by simp, hdone, ?_⟩
  rcases hstop with hsame | ⟨x, after, rfl, hu, ha, hkind, hrun, hend⟩
  · exact .inl (hbare.trans hsame)
  · exact .inr ⟨x, after ++ more, rfl, hu, ha, hkind, hrun, hbare.trans hend⟩

/-! ### Evaluating -/

/-- What is done on behalf of a record that fails changes nothing but how far the record has come.
-/
theorem runIn_onBehalf_of_error {r : RecordId} {work : Eff σ η α} {fault : Fault} {u : State σ η}
    (h : work.runIn s = (.error fault, u)) :
    ∃ fault' t, (onBehalf r work).runIn s = (.error fault', t) ∧ t.bare = u.bare := by
  rw [onBehalf, runIn_bind, runIn_settle, h]
  cases fault with
  | panic message => exact ⟨_, u, rfl, rfl⟩
  | outOfDepth => exact ⟨_, u, rfl, rfl⟩
  | error e =>
      dsimp only
      rcases runIn_recordAt_cases r u with ⟨a, ha, -⟩ | ⟨message, hpanic⟩
      · rw [runIn_bind, runIn_markFailed ha]
        refine ⟨_, _, rfl, ?_⟩
        split
        · exact bare_setPhaseIn u r _
        · rfl
      · rw [markFailed, bind_assoc, runIn_bind, hpanic]
        exact ⟨_, u, rfl, rfl⟩

theorem runIn_onBehalf_of_ok {r : RecordId} {work : Eff σ η α} {v : α} {u : State σ η}
    (h : work.runIn s = (.ok v, u)) : (onBehalf r work).runIn s = (.ok v, u) := by
  rw [onBehalf, runIn_bind, runIn_settle, h]
  rfl

theorem bare_complete (r : RecordId) (n : Namespace) (s : State σ η) :
    ((complete r n).runIn s).2.bare = s.bare := by
  rcases runIn_recordAt_cases r s with ⟨a, ha, -⟩ | ⟨message, hpanic⟩
  · rw [runIn_complete ha]
    split
    · exact bare_setPhaseIn s r _
    · rfl
  · rw [complete, transition, bind_assoc, runIn_bind, hpanic]

section

variable {names : σ → RecordId → Prop} {known : RecordId → Prop} {depth : Nat}
  (hhost : host.EvaluatesKnown names known)
  (ih : ∀ (hidden : List RecordId) (r : RecordId) (f : Forest) (s t : State σ η)
    (a : ModuleRecord σ η) (o : Except Fault Namespace), Ready host names known hidden f s →
    s.record? r = some a → a.status = .linked → a.dependencies = f.edges →
    (r :: f.postorder).Nodup → (serve host depth (.evaluate r)).runIn s = (o, t) →
    Evaluates host (f.postorder ++ [r]) s o t)

include hhost ih

theorem evaluates_evaluateAll {hidden : List RecordId} {f : Forest}
    {imports : OrderedMap Namespace} {o : Except Fault (OrderedMap Namespace)}
    (hs : Ready host names known hidden f s)
    (hrun : (evaluateAll (serve host depth) imports f.edges).runIn s = (o, t)) :
    Evaluates host f.postorder s o t := by
  induction f generalizing s imports with
  | nil =>
      rw [Forest.edges, evaluateAll, runIn_pure, Prod.mk.injEq] at hrun
      obtain ⟨rfl, rfl⟩ := hrun
      exact .nil rfl
  | cons specifier root below rest _ ihrest =>
      obtain ⟨a, ha, hstatus, hdeps, hnodup, hbelow⟩ := hs.first
      have horder : (Forest.cons specifier root below rest).postorder =
          (below.postorder ++ [root]) ++ rest.postorder := by simp [Forest.postorder]
      rw [Forest.edges, evaluateAll, runIn_bind] at hrun
      rw [horder]
      cases hfirst : (serve host depth (.evaluate root)).runIn s with
      | mk first m =>
          have htree := ih hidden root below s m a first hbelow ha hstatus hdeps hnodup hfirst
          rw [hfirst] at hrun
          cases first with
          | error fault =>
              obtain ⟨rfl, rfl⟩ := Prod.mk.inj hrun
              exact htree.stop rest.postorder rfl
          | ok n =>
              obtain ⟨-, -, -, -, hothers, -⟩ :=
                visits_root (keepsGood_serve hhost.codeFailsWithin depth)
                  (evaluatesInPostorder_serve hhost depth) hs hfirst
              exact Bodies.append_evaluates htree (ihrest hothers hrun)

/-- What is below a record is evaluated, and then the record itself. -/
theorem evaluates_evaluateKind {hidden : List RecordId} {f : Forest} {r : RecordId}
    {a : ModuleRecord σ η} {o : Except Fault Namespace} (hs : Ready host names known hidden f s)
    (ha : s.record? r = some { a with phase := .evaluating }) (hdeps : a.dependencies = f.edges)
    (hwhole : a.dependencies.map Prod.fst = a.requests)
    (hrun : (evaluateKind (serve host depth) r a).runIn s = (o, t)) :
    Evaluates host (f.postorder ++ [r]) s o t := by
  cases hkind : a.kind with
  | synthetic m =>
      have hnone : f = .nil := by
        rw [ModuleRecord.requests, hkind, List.map_eq_nil_iff, hdeps] at hwhole
        exact Forest.edges_eq_nil.1 hwhole
      subst hnone
      rw [evaluateKind, hkind] at hrun
      obtain ⟨rfl, rfl⟩ := Prod.mk.inj hrun
      exact .synthetic rfl ha hkind (.nil rfl)
  | source m =>
      rw [evaluateKind, hkind] at hrun
      dsimp only at hrun
      rw [evaluateSource_eq, runIn_bind, hdeps] at hrun
      cases hall : (evaluateAll (serve host depth) .empty f.edges).runIn s with
      | mk collected v =>
          have hbelow := evaluates_evaluateAll hhost ih hs hall
          rw [hall] at hrun
          cases collected with
          | error fault =>
              obtain ⟨rfl, rfl⟩ := Prod.mk.inj hrun
              exact hbelow.stop [r] rfl
          | ok imports =>
              have hfollows := ((leads_evaluateAll
                (keepsGood_serve hhost.codeFailsWithin depth) hs.good _
                _).of_eq_ok hall).1.2
              have hv := hfollows.busy r _ ha rfl fun hf => hf
              refine Bodies.append_evaluates hbelow ?_
              dsimp only at hrun
              rw [runBody, runIn_bind] at hrun
              cases hmeta : ImportMeta.ofPath m.location with
              | error e =>
                  rw [hmeta] at hrun
                  obtain ⟨rfl, rfl⟩ := Prod.mk.inj hrun
                  exact ⟨[], [r], v, rfl, .nil rfl, .inl rfl⟩
              | ok importMeta =>
                  rw [hmeta] at hrun
                  cases o with
                  | ok n => exact .source rfl hv hkind hrun (.nil rfl)
                  | error fault =>
                      exact ⟨[], [r], v, rfl, .nil rfl,
                        .inr ⟨r, [], rfl, rfl, hv, hkind, hrun, rfl⟩⟩

/-- A linked record is moved on before its forest and its own body are evaluated, and again after
that. -/
theorem evaluates_evaluate {hidden : List RecordId} {f : Forest} {r : RecordId}
    {a : ModuleRecord σ η} {o : Except Fault Namespace} (hs : Ready host names known hidden f s)
    (ha : s.record? r = some a) (hstatus : a.status = .linked) (hdeps : a.dependencies = f.edges)
    (hnodup : (r :: f.postorder).Nodup)
    (hrun : (evaluate (serve host depth) r).runIn s = (o, t)) :
    Evaluates host (f.postorder ++ [r]) s o t := by
  have hphase : a.phase = .linked := (hs.good.formed ha).eq_of_status hstatus rfl
  obtain ⟨-, -, hwhole⟩ := hs.good.take_evaluating ha hstatus
  have hready := Ready.evaluating hs.good (hs.hides.setPhase ha (by simp)) hs.hidden hs.stands
    hs.linked hnodup ha hstatus
  rw [runIn_evaluate_of_linked ha hphase, runIn_bind] at hrun
  refine Evaluates.of_bare (bare_setPhaseIn s r .evaluating) ?_
  cases hwork : (evaluateKind (serve host depth) r a).runIn (setPhaseIn s r .evaluating) with
  | mk work u =>
      have htree := evaluates_evaluateKind hhost ih hready (State.record?_setPhaseIn ha .evaluating)
        hdeps hwhole hwork
      cases work with
      | error fault =>
          obtain ⟨fault', t', hbehalf, hbare⟩ := runIn_onBehalf_of_error (r := r) hwork
          rw [hbehalf] at hrun
          obtain ⟨rfl, rfl⟩ := Prod.mk.inj hrun
          simpa using htree.stop [] hbare
      | ok n =>
          rw [runIn_onBehalf_of_ok hwork] at hrun
          dsimp only at hrun
          have hend := bare_complete r n u
          have ht : t.bare = u.bare := by
            rw [runIn_bind] at hrun
            generalize (complete r n).runIn u = end_ at hrun hend
            obtain ⟨_ | _, u'⟩ := end_ <;> (cases hrun; exact hend)
          exact (Bodies.bare_end htree ht).evaluates o

end

end Linker

/-- However it ends, evaluating a tree that is linked is running its bodies in turn. -/
theorem evaluates_serve {host : Host σ η} {names : σ → RecordId → Prop} {known : RecordId → Prop}
    (hhost : host.EvaluatesKnown names known) (depth : Nat) (hidden : List RecordId) (r : RecordId)
    (f : Forest) (s t : State σ η) (a : ModuleRecord σ η) (o : Except Fault Namespace)
    (hs : Linker.Ready host names known hidden f s) (ha : s.record? r = some a)
    (hstatus : a.status = .linked) (hdeps : a.dependencies = f.edges)
    (hnodup : (r :: f.postorder).Nodup)
    (hrun : (serve host depth (.evaluate r)).runIn s = (o, t)) :
    Linker.Evaluates host (f.postorder ++ [r]) s o t := by
  induction depth generalizing hidden r f s t a o with
  | zero =>
      obtain ⟨rfl, rfl⟩ := Prod.mk.inj hrun
      exact ⟨[], _, s, rfl, .nil rfl, .inl rfl⟩
  | succ depth ih => exact Linker.evaluates_evaluate hhost ih hs ha hstatus hdeps hnodup hrun

end ModuleLoader
