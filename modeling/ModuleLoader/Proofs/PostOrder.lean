import ModuleLoader.Proofs.Unfolding
/-!
Evaluating a tree runs its bodies in postorder.

The records of a tree are evaluated from the left to the right, each after those
below it, and each body is given what those below have come to. While a body runs
it may import whole other trees, and those are evaluated in between. They are not
of the tree, so of the bodies that are run the ones of the tree are still run in
its order. What is said of an evaluation is therefore said of the bodies that it
has run, those of the tree and others, and it is put together from what is said
of the evaluations that it is made of.
-/

namespace ModuleLoader

open Eff

variable {σ η α : Type}

/-! ### What a body is given -/

/-- The environment is the one for the body of the record: its own context, what is known of its own
place, and for each of its requests the namespace that the record came to which was linked for that
request last. -/
structure ModuleRecord.Given (t : State σ η) (a : ModuleRecord σ η) (env : ModuleEnvironment) :
    Prop where
  settled : a.status.isSettled = true
  context : env.context = a.context
  importer : env.importer = a.importer
  location : ∃ m, a.kind = .source m ∧ ImportMeta.ofPath m.location = .ok env.importMeta
  keys : ∀ key, key ∈ env.imports.keys ↔ key ∈ a.requests
  found : ∀ key ∈ a.requests, ∃ dep c n, a.dependencies.reverse.lookup key = some dep ∧
    t.record? dep = some c ∧ c.phase = .evaluated n ∧ env.imports.find? key = some n

structure Collects (t : State σ η) (deps : List (String × RecordId))
    (imports imports' : OrderedMap Namespace) : Prop where
  keys : ∀ key, key ∈ imports'.keys ↔ key ∈ imports.keys ∨ key ∈ deps.map Prod.fst
  last : ∀ key dep, deps.reverse.lookup key = some dep → ∃ c n, t.record? dep = some c ∧
    c.phase = .evaluated n ∧ imports'.find? key = some n
  other : ∀ key, deps.reverse.lookup key = none → imports'.find? key = imports.find? key

section

variable {own : RecordId → Prop} {s m t : State σ η}

theorem ModuleRecord.Given.later {a : ModuleRecord σ η} {env : ModuleEnvironment} {x : RecordId}
    (h : a.Given m env) (ha : m.record? x = some a) (hmt : State.Evolves own m t) :
    ∃ b, t.record? x = some b ∧ b.Given t env := by
  obtain ⟨b, hb, hab⟩ := hmt.grows x a ha
  obtain ⟨source, hkind, hmeta⟩ := h.location
  refine ⟨b, hb, hab.status.isSettled h.settled, ?_, ?_, ⟨source, ?_, hmeta⟩, ?_, ?_⟩
  · rw [hab.context, h.context]
  · rw [h.importer, ModuleRecord.importer, ModuleRecord.importer, hab.identifier, hab.context]
  · rw [hab.kind, hkind]
  · rw [hab.requests]
    exact h.keys
  · intro key hkey
    rw [hab.requests] at hkey
    obtain ⟨dep, c, n, hdep, hc, hphase, hn⟩ := h.found key hkey
    have hfinal : c.status.isTerminal = true := by rw [ModuleRecord.status, hphase]; rfl
    obtain ⟨c', hc', hphase'⟩ := hmt.final hc hfinal
    refine ⟨dep, c', n, ?_, hc', hphase'.trans hphase, hn⟩
    rw [hab.settled h.settled]
    exact hdep

theorem Collects.nil (t : State σ η) (imports : OrderedMap Namespace) :
    Collects t [] imports imports :=
  ⟨fun key => by simp, fun key dep h => by simp at h, fun key _ => rfl⟩

theorem Collects.cons {deps : List (String × RecordId)} {imports imports' : OrderedMap Namespace}
    {specifier : String} {dep : RecordId} {c : ModuleRecord σ η} {n : Namespace}
    (h : Collects t deps (imports.insert specifier n) imports') (hc : t.record? dep = some c)
    (hphase : c.phase = .evaluated n) :
    Collects t ((specifier, dep) :: deps) imports imports' where
  keys key := by
    rw [h.keys, OrderedMap.mem_keys_insert, List.map_cons, List.mem_cons]
    exact or_assoc.trans or_left_comm
  last key x hx := by
    rw [List.reverse_cons, List.lookup_append] at hx
    cases hlook : deps.reverse.lookup key with
    | some y =>
        rw [hlook] at hx
        exact h.last key x (hlook.trans hx)
    | none =>
        simp only [hlook, Option.none_or, List.lookup_cons, List.lookup_nil] at hx
        split at hx
        · rename_i hkey
          cases hx
          refine ⟨c, n, hc, hphase, ?_⟩
          rw [h.other key hlook, OrderedMap.find?_insert, if_pos hkey]
        · simp at hx
  other key hx := by
    rw [List.reverse_cons, List.lookup_append, Option.or_eq_none_iff] at hx
    rw [h.other key hx.1, OrderedMap.find?_insert]
    cases hkey : key == specifier with
    | false => rfl
    | true => simp [List.lookup_cons, hkey] at hx

/-- What has been collected for the dependencies of a record is what its body has to be given. -/
theorem Collects.given {a : ModuleRecord σ η} {source : SourceModule σ η} {importMeta : ImportMeta}
    {imports : OrderedMap Namespace} (h : Collects t a.dependencies .empty imports)
    (hsettled : a.status.isSettled = true) (hkind : a.kind = .source source)
    (hmeta : ImportMeta.ofPath source.location = .ok importMeta)
    (hwhole : a.dependencies.map Prod.fst = a.requests) :
    a.Given t ⟨a.context, importMeta, imports, a.importer⟩ where
  settled := hsettled
  context := rfl
  importer := rfl
  location := ⟨source, hkind, hmeta⟩
  keys key := by
    rw [h.keys, hwhole]
    simp
  found key hkey := by
    rw [← hwhole] at hkey
    cases hlook : a.dependencies.reverse.lookup key with
    | none =>
        rw [List.lookup_eq_none_iff] at hlook
        obtain ⟨dep, hdep, rfl⟩ := List.mem_map.1 hkey
        simpa using hlook dep (List.mem_reverse.2 hdep)
    | some dep =>
        obtain ⟨c, n, hc, hphase, hn⟩ := h.last key dep hlook
        exact ⟨dep, c, n, rfl, hc, hphase, hn⟩

end

/-! ### The bodies that were run -/

namespace State

def isSource (s : State σ η) (x : RecordId) : Bool :=
  match s.record? x with
  | some a => a.dispatch == .source
  | none => false

structure Ran (s : State σ η) (hidden nodes : List RecordId)
    (runs : List (RecordId × ModuleEnvironment)) : Prop where
  only : ∀ run ∈ runs, run.1 ∈ hidden → run.1 ∈ nodes
  idle : ∀ run ∈ runs, ∀ a, s.record? run.1 = some a → a.status.isBusy = false
  order : (runs.filter (·.1 ∈ nodes)).map Prod.fst = nodes.filter s.isSource

variable {s m t : State σ η} {hidden hidden' nodes nodes' : List RecordId}
  {runs runs' : List (RecordId × ModuleEnvironment)}

theorem Ran.mono (h : s.Ran hidden nodes runs) (hsub : ∀ x ∈ hidden', x ∈ hidden) :
    s.Ran hidden' nodes runs :=
  ⟨fun run hrun hx => h.only run hrun (hsub _ hx), h.idle, h.order⟩

/-- A record that is under way counts as hidden, since its body is not run. -/
theorem Ran.insert (h : s.Ran hidden nodes runs) {r : RecordId} {a : ModuleRecord σ η}
    (ha : s.record? r = some a) (hbusy : a.status.isBusy = true) :
    s.Ran (r :: hidden) nodes runs := by
  refine ⟨fun run hrun hx => ?_, h.idle, h.order⟩
  rcases List.mem_cons.1 hx with heq | hx
  · rw [h.idle run hrun a (heq ▸ ha)] at hbusy
    exact absurd hbusy (by decide)
  · exact h.only run hrun hx

theorem Ran.begin (h : m.Ran hidden nodes runs)
    (hbusy : ∀ x a, s.record? x = some a → a.status.isBusy = true → m.record? x = some a)
    (hsource : ∀ x ∈ nodes, m.isSource x = s.isSource x) : s.Ran hidden nodes runs := by
  refine ⟨h.only, fun run hrun a ha => ?_, h.order.trans (List.filter_congr hsource)⟩
  cases hstatus : a.status.isBusy with
  | false => rfl
  | true =>
      rw [← hstatus]
      exact h.idle run hrun a (hbusy _ a ha hstatus)

/-- What is run before what is run of others, in a list that is counted over both. -/
theorem Ran.filter_append (h : s.Ran hidden nodes runs) (hsub : ∀ x ∈ nodes', x ∈ hidden)
    (horder : ∀ x, x ∈ nodes' ∨ x ∈ nodes ↔ x ∈ hidden') :
    (runs.filter (·.1 ∈ hidden')).map Prod.fst = nodes.filter s.isSource := by
  rw [← h.order]
  congr 1
  refine List.filter_congr fun run hrun => ?_
  simp only [decide_eq_decide, ← horder]
  exact ⟨fun hx => hx.elim (fun hx => h.only run hrun (hsub _ hx)) id, Or.inr⟩

/-- First these and then those. -/
theorem Ran.append (h : s.Ran hidden nodes runs) (h' : s.Ran hidden nodes' runs')
    (hsub : ∀ x ∈ nodes, x ∈ hidden) (hsub' : ∀ x ∈ nodes', x ∈ hidden) :
    s.Ran hidden (nodes ++ nodes') (runs ++ runs') where
  only run hrun hx := by
    rcases List.mem_append.1 hrun with hrun | hrun
    · exact List.mem_append_left _ (h.only run hrun hx)
    · exact List.mem_append_right _ (h'.only run hrun hx)
  idle run hrun := (List.mem_append.1 hrun).elim (h.idle run) (h'.idle run)
  order := by
    have hfirst : (runs.filter (·.1 ∈ nodes ++ nodes')).map Prod.fst = nodes.filter s.isSource :=
      h.filter_append hsub' (by simp [or_comm])
    have hsecond : (runs'.filter (·.1 ∈ nodes ++ nodes')).map Prod.fst = nodes'.filter s.isSource :=
      h'.filter_append hsub (by simp)
    rw [List.filter_append, List.map_append, List.filter_append, hfirst, hsecond]

/-- Runs of others only. -/
theorem ran_nil (honly : ∀ run ∈ runs, run.1 ∉ hidden)
    (hidle : ∀ run ∈ runs, ∀ a, s.record? run.1 = some a → a.status.isBusy = false) :
    s.Ran hidden [] runs :=
  ⟨fun run hrun hx => absurd hx (honly run hrun), hidle, by simp⟩

theorem ran_synthetic {r : RecordId} {a : ModuleRecord σ η} (ha : s.record? r = some a)
    (hsynthetic : a.dispatch = .synthetic) : s.Ran hidden [r] [] := by
  have hsource : s.isSource r = false := by simp [isSource, ha, hsynthetic]
  exact ⟨by simp, by simp, by simp [hsource]⟩

theorem ran_body {r : RecordId} {a : ModuleRecord σ η} {env : ModuleEnvironment}
    (ha : s.record? r = some a) (hsource : a.dispatch = .source) (hr : a.status.isBusy = false)
    (hrhidden : r ∈ hidden) (honly : ∀ run ∈ runs, run.1 ∉ hidden)
    (hidle : ∀ run ∈ runs, ∀ a, s.record? run.1 = some a → a.status.isBusy = false) :
    s.Ran hidden [r] ((r, env) :: runs) := by
  have hothers : runs.filter (·.1 ∈ [r]) = [] := by
    refine List.filter_eq_nil_iff.2 fun run hrun hx => ?_
    have heq : run.1 = r := by simpa using hx
    exact honly run hrun (heq ▸ hrhidden)
  refine ⟨fun run hrun hx => ?_, fun run hrun b hb => ?_, ?_⟩
  · rcases List.mem_cons.1 hrun with rfl | hrun
    · exact List.mem_singleton_self r
    · exact absurd hx (honly run hrun)
  · rcases List.mem_cons.1 hrun with rfl | hrun
    · obtain rfl : a = b := by simpa [ha] using hb
      exact hr
    · exact hidle run hrun b hb
  · have hat : s.isSource r = true := by simp [isSource, ha, hsource]
    rw [List.filter_cons_of_pos (by simp), hothers, List.filter_cons_of_pos hat]
    rfl

/-- A body that was run in a state that came later, and the runs of others that it was spared by. -/
theorem Spares.ran_body {u v : State σ η} {r : RecordId} {a b : ModuleRecord σ η}
    {env : ModuleEnvironment} (h : Spares (· ∈ hidden) (v.emit (.evaluate r env)) u)
    (hkept : ∀ x c, s.record? x = some c → c.status.isBusy = true → v.record? x = some c)
    (ha : s.record? r = some a) (hsource : a.dispatch = .source) (hidle : a.status.isBusy = false)
    (hb : v.record? r = some b) (hbusy : b.status.isBusy = true) :
    ∃ after, u.trace.evaluations = v.trace.evaluations ++ (r, env) :: after ∧
      (∀ run ∈ after, run.1 ∉ r :: hidden) ∧ s.Ran (r :: hidden) [r] ((r, env) :: after) := by
  obtain ⟨after, hafter, hothers⟩ := h.runs
  have hforeign : ∀ run ∈ after, run.1 ∉ r :: hidden := by
    intro run hrun hx
    rcases List.mem_cons.1 hx with heq | hx
    · rw [(hothers run hrun).2 b (heq ▸ hb)] at hbusy
      exact absurd hbusy (by decide)
    · exact (hothers run hrun).1 hx
  have hemitted : (v.emit (.evaluate r env)).trace.evaluations =
      v.trace.evaluations ++ [(r, env)] := Trace.evaluations_push _ _
  refine ⟨after, by simp [hafter, hemitted], hforeign, ?_⟩
  refine State.ran_body ha hsource hidle List.mem_cons_self hforeign fun run hrun c hc => ?_
  cases hcbusy : c.status.isBusy with
  | false => rfl
  | true =>
      rw [← hcbusy]
      exact (hothers run hrun).2 c (hkept _ c hc hcbusy)

/-- From the first state to the second, of the records in the first list only those in the second
had their bodies run, in this order, and each was given what is its. -/
def Runs (hidden nodes : List RecordId) (s t : State σ η) : Prop :=
  ∃ runs, t.trace.evaluations = s.trace.evaluations ++ runs ∧ s.Ran hidden nodes runs ∧
    ∀ run ∈ runs, run.1 ∈ nodes → ∃ a, t.record? run.1 = some a ∧ a.Given t run.2

/-- From the first state to the second, of the records in the first list those in the second have
been evaluated, in this order, and the rest is as it was. -/
structure Visits (hidden nodes : List RecordId) (s t : State σ η) : Prop where
  kept : ∀ x a, x ∈ hidden → x ∉ nodes → s.record? x = some a → a.status ≠ .unlinked →
    t.record? x = some a
  runs : Runs hidden nodes s t

theorem Follows.isSource (h : Follows s t) {x : RecordId} {a : ModuleRecord σ η}
    (ha : s.record? x = some a) : t.isSource x = s.isSource x := by
  obtain ⟨b, hb, hab⟩ := h.grows x a ha
  rw [State.isSource, State.isSource, ha, hb]
  dsimp only
  rw [hab.dispatch]

theorem Runs.refl (hidden : List RecordId) (s : State σ η) : Runs hidden [] s s :=
  ⟨[], by simp, ran_nil (by simp) (by simp), by simp⟩

theorem Runs.trans (h : Runs hidden nodes s m) (hsm : Follows s m) (h' : Runs hidden nodes' m t)
    (hmt : Follows m t) (hsub : ∀ x ∈ nodes, x ∈ hidden) (hsub' : ∀ x ∈ nodes', x ∈ hidden)
    (hthere : ∀ x ∈ nodes', ∃ a, s.record? x = some a) : Runs hidden (nodes ++ nodes') s t := by
  obtain ⟨before, hbefore, hran, hgiven⟩ := h
  obtain ⟨after, hafter, hran', hgiven'⟩ := h'
  have hran'' : s.Ran hidden nodes' after := by
    refine hran'.begin (fun x a ha hbusy => hsm.busy x a ha hbusy fun hf => hf) fun x hx => ?_
    obtain ⟨a, ha⟩ := hthere x hx
    exact hsm.isSource ha
  refine ⟨before ++ after, by rw [hafter, hbefore, List.append_assoc],
    hran.append hran'' hsub hsub', fun run hrun hx => ?_⟩
  -- a run of a record that is hidden is of those that were to be run then
  have hhidden : run.1 ∈ hidden := (List.mem_append.1 hx).elim (hsub _) (hsub' _)
  rcases List.mem_append.1 hrun with hrun | hrun
  · obtain ⟨a, ha, hmgiven⟩ := hgiven run hrun (hran.only run hrun hhidden)
    exact hmgiven.later ha hmt
  · exact hgiven' run hrun (hran'.only run hrun hhidden)

theorem Runs.mono (h : Runs hidden nodes s t) (hsub : ∀ x ∈ hidden', x ∈ hidden) :
    Runs hidden' nodes s t := by
  obtain ⟨runs, hruns, hran, hgiven⟩ := h
  exact ⟨runs, hruns, hran.mono hsub, hgiven⟩

theorem Runs.setPhase {own : RecordId → Prop} {x : RecordId} {phase : Phase}
    (h : Runs hidden nodes s t) (htu : Evolves own t (Linker.setPhaseIn t x phase)) :
    Runs hidden nodes s (Linker.setPhaseIn t x phase) := by
  obtain ⟨runs, hruns, hran, hgiven⟩ := h
  refine ⟨runs, hruns, hran, fun run hrun hx => ?_⟩
  obtain ⟨b, hb, hbgiven⟩ := hgiven run hrun hx
  exact hbgiven.later hb htu

theorem Visits.refl (hidden : List RecordId) (s : State σ η) : Visits hidden [] s s :=
  ⟨fun _ _ _ _ ha _ => ha, .refl hidden s⟩

theorem Visits.trans (h : Visits hidden nodes s m) (hsm : Follows s m)
    (h' : Visits hidden nodes' m t) (hmt : Follows m t) (hsub : ∀ x ∈ nodes, x ∈ hidden)
    (hsub' : ∀ x ∈ nodes', x ∈ hidden) (hthere : ∀ x ∈ nodes', ∃ a, s.record? x = some a) :
    Visits hidden (nodes ++ nodes') s t where
  kept x a hx hnot ha hstatus := by
    rw [List.mem_append, not_or] at hnot
    exact h'.kept x a hx hnot.2 (h.kept x a hx hnot.1 ha hstatus) hstatus
  runs := h.runs.trans hsm h'.runs hmt hsub hsub' hthere

end State

/-! ### Evaluating -/

def EvaluatesInPostorder (host : Host σ η) (names : σ → RecordId → Prop) (known : RecordId → Prop)
    (serve : (c : Call) → Eff σ η c.Reply) : Prop :=
  ∀ (hidden : List RecordId) (r : RecordId) (f : Forest) (s t : State σ η) (a : ModuleRecord σ η)
    (n : Namespace), s.Good host (fun _ => True) (Compiled.EvaluatesKnown names known) →
    s.Hides names known (· ∈ hidden) → (∀ x ∈ f.postorder, x ∈ hidden) →
    s.record? r = some a → a.status = .linked → a.dependencies = f.edges → f.Stands s →
    (∀ x ∈ f.postorder, ∃ c, s.record? x = some c ∧ c.status = .linked) →
    (r :: f.postorder).Nodup → (serve (.evaluate r)).runIn s = (.ok n, t) →
    t.Hides names known (· ∈ hidden) ∧ State.Visits hidden (f.postorder ++ [r]) s t

namespace Linker

structure Ready (host : Host σ η) (names : σ → RecordId → Prop) (known : RecordId → Prop)
    (hidden : List RecordId) (f : Forest) (s : State σ η) : Prop where
  good : s.Good host (fun _ => True) (Compiled.EvaluatesKnown names known)
  hides : s.Hides names known (· ∈ hidden)
  hidden : ∀ x ∈ f.postorder, x ∈ hidden
  stands : f.Stands s
  linked : ∀ x ∈ f.postorder, ∃ c, s.record? x = some c ∧ c.status = .linked
  nodup : f.postorder.Nodup

section

variable {host : Host σ η} {names : σ → RecordId → Prop} {known : RecordId → Prop}
  {hidden : List RecordId} {specifier : String} {root : RecordId} {below rest : Forest}
    {s : State σ η}

theorem Ready.first (h : Ready host names known hidden (.cons specifier root below rest) s) :
    ∃ a, s.record? root = some a ∧ a.status = .linked ∧ a.dependencies = below.edges ∧
      (root :: below.postorder).Nodup ∧ Ready host names known hidden below s := by
  obtain ⟨⟨a, ha, hdeps⟩, hbelow, -⟩ := h.stands
  obtain ⟨c, hc, hstatus⟩ := h.linked root (by simp [Forest.postorder])
  obtain rfl : a = c := by simpa [ha] using hc
  obtain ⟨hnbelow, -, hapart⟩ := List.nodup_append.1 h.nodup
  have hmem : ∀ x ∈ below.postorder, x ∈ (Forest.cons specifier root below rest).postorder :=
    fun x hx => by simp [Forest.postorder, hx]
  refine ⟨a, ha, hstatus, hdeps, List.nodup_cons.2 ⟨fun hx => ?_, hnbelow⟩, ?_⟩
  · exact hapart root hx root List.mem_cons_self rfl
  · exact ⟨h.good, h.hides, fun x hx => h.hidden x (hmem x hx), hbelow,
      fun x hx => h.linked x (hmem x hx), hnbelow⟩

/-- What is below a record is still ready when the record begins to be evaluated. -/
theorem Ready.evaluating {r : RecordId} {f : Forest} {a : ModuleRecord σ η}
    (hs : s.Good host (fun _ => True) (Compiled.EvaluatesKnown names known))
    (hhides : (setPhaseIn s r .evaluating).Hides names known (· ∈ hidden))
    (hsub : ∀ x ∈ f.postorder, x ∈ hidden) (hf : f.Stands s)
    (hlinked : ∀ x ∈ f.postorder, ∃ c, s.record? x = some c ∧ c.status = .linked)
    (hnodup : (r :: f.postorder).Nodup) (ha : s.record? r = some a) (hstatus : a.status = .linked) :
    Ready host names known hidden f (setPhaseIn s r .evaluating) := by
  obtain ⟨hr, hnodup⟩ := List.nodup_cons.1 hnodup
  have hother : ∀ x ∈ f.postorder, (setPhaseIn s r .evaluating).record? x = s.record? x := by
    intro x hx
    refine State.record?_setPhaseIn_of_ne s ?_ _
    rintro rfl
    exact hr hx
  exact ⟨(hs.take_evaluating ha hstatus).1, hhides, hsub, hf.congr hother,
    fun x hx => by rw [hother x hx]; exact hlinked x hx, hnodup⟩

end

variable {host : Host σ η} {names : σ → RecordId → Prop} {known : RecordId → Prop}
  {serve : (c : Call) → Eff σ η c.Reply}
  (h : KeepsGood host (fun _ => True) (Compiled.EvaluatesKnown names known) serve)
  (ho : EvaluatesInPostorder host names known serve)

include h ho

/-- The first tree of a forest has been evaluated, and the others have been left alone. -/
theorem visits_root {hidden : List RecordId} {specifier : String} {root : RecordId}
    {below rest : Forest} {s m : State σ η} {n : Namespace}
    (hs : Ready host names known hidden (.cons specifier root below rest) s)
    (hrun : (serve (.evaluate root)).runIn s = (.ok n, m)) :
    State.Follows s m ∧ State.Visits hidden (below.postorder ++ [root]) s m ∧
      (∃ b, m.record? root = some b ∧ b.phase = .evaluated n ∧ b.dependencies = below.edges) ∧
      below.Stands m ∧ Ready host names known hidden rest m ∧
      ∀ x ∈ rest.postorder, m.record? x = s.record? x := by
  obtain ⟨a, ha, hrootlinked, hdeps, htree, hbelow⟩ := hs.first
  obtain ⟨-, hnrest, hapart⟩ := List.nodup_append.1 hs.nodup
  have hmem : ∀ x ∈ rest.postorder, x ∈ (Forest.cons specifier root below rest).postorder :=
    fun x hx => by simp [Forest.postorder, hx]
  obtain ⟨hmhides, hsm⟩ :=
    ho hidden root below s m a n hs.good hs.hides hbelow.hidden ha hrootlinked
    hdeps hbelow.stands hbelow.linked htree hrun
  obtain ⟨hm, hfollows⟩ := ((h.call (.evaluate root) s hs.good).of_eq_ok hrun).1
  obtain ⟨b, hb, hbphase⟩ := h.evaluate root s n m hs.good hrun
  obtain ⟨b', hb', hab⟩ := hfollows.grows root a ha
  obtain rfl : b = b' := by simpa [hb] using hb'
  have hbdeps : b.dependencies = below.edges := by
    rw [hab.settled (by rw [hrootlinked]; rfl), hdeps]
  have hsame : ∀ x ∈ rest.postorder, m.record? x = s.record? x := by
    intro x hx
    obtain ⟨c, hc, hstatus⟩ := hs.linked x (hmem x hx)
    have hnot : x ∉ below.postorder ++ [root] := by
      rw [List.mem_append, List.mem_singleton]
      rintro (hxbelow | rfl)
      · exact hapart x hxbelow x (List.mem_cons_of_mem _ hx) rfl
      · exact (List.nodup_cons.1 hnrest).1 hx
    rw [hc]
    exact hsm.kept x c (hs.hidden x (hmem x hx)) hnot hc (by simp [hstatus])
  refine ⟨hfollows, hsm, ⟨b, hb, hbphase, hbdeps⟩,
    hbelow.stands.grown_of_linked hbelow.linked hfollows.grows, ?_, hsame⟩
  exact {
    good := hm
    hides := hmhides
    hidden := fun x hx => hs.hidden x (hmem x hx)
    stands := hs.stands.2.2.congr hsame
    linked := fun x hx => by
      rw [hsame x hx]
      exact hs.linked x (hmem x hx)
    nodup := hnrest.of_cons }

/-- The trees of a forest are evaluated from the left to the right, and what they have come to is
collected. -/
theorem visits_evaluateAll {hidden : List RecordId} {f : Forest} {s t : State σ η}
    {imports imports' : OrderedMap Namespace} (hs : Ready host names known hidden f s)
    (hrun : (evaluateAll serve imports f.edges).runIn s = (.ok imports', t)) :
    t.Hides names known (· ∈ hidden) ∧ State.Visits hidden f.postorder s t ∧
      Collects t f.edges imports imports' := by
  induction f generalizing s imports with
  | nil =>
      rw [Forest.edges, evaluateAll, runIn_pure, Prod.mk.injEq, Except.ok.injEq] at hrun
      obtain ⟨rfl, rfl⟩ := hrun
      exact ⟨hs.hides, .refl _ _, .nil _ _⟩
  | cons specifier root below rest _ ih =>
      obtain ⟨n, m, hfirst, hlast⟩ := runIn_bind_eq_ok.1 hrun
      obtain ⟨hfollows, hsm, ⟨b, hb, hbphase, -⟩, -, hm, hsame⟩ := visits_root h ho hs hfirst
      obtain ⟨hthides, hmt, hcollects⟩ := ih hm hlast
      obtain ⟨⟨-, hmfollows⟩, -⟩ := (leads_evaluateAll h hm.good _ _).of_eq_ok hlast
      have hfinal : b.status.isTerminal = true := by rw [ModuleRecord.status, hbphase]; rfl
      obtain ⟨c, hc, hcphase⟩ := hmfollows.final hb hfinal
      refine ⟨hthides, ?_, hcollects.cons hc (hcphase.trans hbphase)⟩
      have horder : (Forest.cons specifier root below rest).postorder =
          (below.postorder ++ [root]) ++ rest.postorder := by simp [Forest.postorder]
      have hsub := hs.hidden
      rw [horder] at hsub ⊢
      refine hsm.trans hfollows hmt hmfollows (fun x hx => hsub x (List.mem_append_left _ hx))
        (fun x hx => hsub x (List.mem_append_right _ hx)) fun x hx => ?_
      obtain ⟨c, hc, -⟩ := hm.linked x hx
      exact ⟨c, hsame x hx ▸ hc⟩

omit h ho in
/-- What is run below a record that is being evaluated is no run of the record. -/
theorem runs_take {hidden nodes : List RecordId} {r : RecordId} {s t : State σ η}
    {a : ModuleRecord σ η} (h : State.Runs hidden nodes (setPhaseIn s r .evaluating) t)
    (ha : s.record? r = some a) (hidle : a.status.isBusy = false) (hne : ∀ x ∈ nodes, x ≠ r) :
    State.Runs (r :: hidden) nodes s t := by
  obtain ⟨runs, hruns, hran, hgiven⟩ := h
  refine ⟨runs, hruns, ?_, hgiven⟩
  refine (hran.insert (State.record?_setPhaseIn ha .evaluating) rfl).begin ?_ fun x hx => ?_
  · exact fun x b hb hbusy => State.record?_setPhaseIn_of_isBusy ha hidle hb hbusy _
  · rw [State.isSource, State.isSource, State.record?_setPhaseIn_of_ne s (hne x hx)]

omit h ho in
/-- The body of a record is run after those below it, and it is given what is its. -/
theorem runs_body {hidden : List RecordId} {f : Forest} {r : RecordId} {s v u : State σ η}
    {a : ModuleRecord σ η} {m : SourceModule σ η} {imports : OrderedMap Namespace}
    {importMeta : ImportMeta} (hsub : ∀ x ∈ f.postorder, x ∈ hidden) (ha : s.record? r = some a)
    (hstatus : a.status = .linked) (hr : r ∉ f.postorder) (hkind : a.kind = .source m)
    (hwhole : a.dependencies.map Prod.fst = a.requests)
    (hmeta : ImportMeta.ofPath m.location = .ok importMeta)
    (hsv : State.Runs hidden f.postorder (setPhaseIn s r .evaluating) v)
    (hfollows : State.Follows (setPhaseIn s r .evaluating) v)
    (hcollects : Collects v a.dependencies .empty imports)
    (hkeep : State.KeepsHidden host names known (· ∈ hidden)
      (v.emit (.evaluate r ⟨a.context, importMeta, imports, a.importer⟩)) u) :
    State.Runs (r :: hidden) (f.postorder ++ [r]) s u ∧ ∃ b, u.record? r = some b ∧
      b.Given u ⟨a.context, importMeta, imports, a.importer⟩ := by
  have hidle : a.status.isBusy = false := by rw [hstatus]; rfl
  have hevaluating := State.record?_setPhaseIn ha .evaluating
  have hvr := hfollows.busy r _ hevaluating rfl fun hf => hf
  have hbusy : ∀ x b, s.record? x = some b → b.status.isBusy = true →
      (setPhaseIn s r .evaluating).record? x = some b :=
    fun x b hb hbbusy => State.record?_setPhaseIn_of_isBusy ha hidle hb hbbusy _
  have hcollects' : Collects v
      ({ a with phase := .evaluating } : ModuleRecord σ η).dependencies .empty imports := hcollects
  have hown : ({ a with phase := .evaluating } : ModuleRecord σ η).Given v
      ⟨a.context, importMeta, imports, a.importer⟩ := hcollects'.given rfl hkind hmeta hwhole
  generalize (⟨a.context, importMeta, imports, a.importer⟩ : ModuleEnvironment) = env
    at hkeep hown ⊢
  have hemit : State.Follows v (v.emit (.evaluate r env)) := .of_records_eq rfl
  have hvu := hemit.trans hkeep.follows
  obtain ⟨before, hbefore, hfirst, hgiven⟩ := runs_take hsv ha hidle fun x hx => by
    rintro rfl
    exact hr hx
  obtain ⟨after, hafter, hforeign, hsecond⟩ := hkeep.spares.ran_body
    (fun x b hb hbbusy => hfollows.busy x b (hbusy x b hb hbbusy) hbbusy fun hf => hf) ha
    (by simp [ModuleRecord.dispatch, hkind]) hidle hvr rfl
  refine ⟨⟨before ++ (r, env) :: after, ?_, ?_, fun run hrun hx => ?_⟩, hown.later hvr hvu⟩
  · rw [hafter, hbefore, List.append_assoc]
  · exact hfirst.append hsecond (fun x hx => List.mem_cons_of_mem _ (hsub x hx)) (by simp)
  · have hin : run.1 ∈ r :: hidden := by
      rcases List.mem_append.1 hx with hx | hx
      · exact List.mem_cons_of_mem _ (hsub _ hx)
      · exact List.mem_cons.2 (Or.inl (List.mem_singleton.1 hx))
    rcases List.mem_append.1 hrun with hrun | hrun
    · obtain ⟨b, hb, hbgiven⟩ := hgiven run hrun (hfirst.only run hrun hin)
      exact hbgiven.later hb hvu
    · rcases List.mem_cons.1 hrun with rfl | hrun
      · exact hown.later hvr hvu
      · exact absurd hin (hforeign run hrun)

variable (hm : SparesHidden host names known serve)

include hm

theorem visits_evaluateKind {hidden : List RecordId} {f : Forest} {r : RecordId}
    {s u : State σ η} {a : ModuleRecord σ η} {n : Namespace}
    (hs : Ready host names known hidden f (setPhaseIn s r .evaluating))
    (ha : s.record? r = some a) (hstatus : a.status = .linked) (hdeps : a.dependencies = f.edges)
    (hwhole : a.dependencies.map Prod.fst = a.requests) (hr : r ∉ f.postorder)
    (hrun : (evaluateKind serve r a).runIn (setPhaseIn s r .evaluating) = (.ok n, u)) :
    u.Hides names known (· ∈ hidden) ∧
      (∀ x b, x ∈ hidden → x ∉ f.postorder → (setPhaseIn s r .evaluating).record? x = some b →
        b.status ≠ .unlinked → u.record? x = some b) ∧
      State.Runs (r :: hidden) (f.postorder ++ [r]) s u := by
  cases hkind : a.kind with
  | synthetic m =>
      have hnone : f = .nil := by
        rw [ModuleRecord.requests, hkind, List.map_eq_nil_iff, hdeps] at hwhole
        exact Forest.edges_eq_nil.1 hwhole
      subst hnone
      rw [evaluateKind, hkind] at hrun
      obtain ⟨_, _, hget, hrun⟩ := runIn_bind_eq_ok.1 hrun
      rw [runIn_get, Prod.mk.injEq] at hget
      obtain ⟨-, rfl⟩ := hget
      rw [runIn_perform, Prod.mk.injEq] at hrun
      obtain ⟨-, rfl⟩ := hrun
      exact ⟨hs.hides.of_eq rfl hs.hides.named,
        fun x b _ _ hb _ => hb, [], by rw [List.append_nil]; rfl,
        State.ran_synthetic ha (by simp [ModuleRecord.dispatch, hkind]), by simp⟩
  | source m =>
      rw [evaluateKind, hkind] at hrun
      dsimp only at hrun
      rw [evaluateSource_eq] at hrun
      obtain ⟨imports, v, hall, hbody⟩ := runIn_bind_eq_ok.1 hrun
      obtain ⟨⟨hv, hfollows⟩, -⟩ := (leads_evaluateAll h hs.good _ _).of_eq_ok hall
      rw [hdeps] at hall
      obtain ⟨hvhides, hsv, hcollects⟩ := visits_evaluateAll h ho hs hall
      rw [← hdeps] at hcollects
      have hcompiled := hs.good.bodies r _ m (State.record?_setPhaseIn ha .evaluating) hkind
      obtain ⟨importMeta, hmeta, hkeep⟩ :=
        ((keepsHidden_runBody hm r a imports hv hvhides hcompiled).of_eq_ok hbody).2
      refine ⟨hkeep.hides, fun x b hx hnot hb hbstatus => ?_, ?_⟩
      · exact hkeep.spares.records x b hx (hsv.kept x b hx hnot hb hbstatus) hbstatus
      · exact (runs_body hs.hidden ha hstatus hr hkind hwhole hmeta hsv.runs hfollows
          hcollects hkeep).1

variable (hhost : host.EvaluatesKnown names known)

include hhost

/-- A tree that is linked is evaluated in postorder. -/
theorem visits_evaluate {hidden : List RecordId} {f : Forest} {r : RecordId} {s t : State σ η}
    {a : ModuleRecord σ η} {n : Namespace}
    (hs : s.Good host (fun _ => True) (Compiled.EvaluatesKnown names known))
    (hhides : (setPhaseIn s r .evaluating).Hides names known (· ∈ hidden))
    (hsub : ∀ x ∈ f.postorder, x ∈ hidden) (ha : s.record? r = some a)
    (hstatus : a.status = .linked)
    (hdeps : a.dependencies = f.edges) (hf : f.Stands s)
    (hlinked : ∀ x ∈ f.postorder, ∃ c, s.record? x = some c ∧ c.status = .linked)
    (hnodup : (r :: f.postorder).Nodup) (hrun : (evaluate serve r).runIn s = (.ok n, t)) :
    t.Hides names known (· ∈ hidden) ∧ State.Visits hidden (f.postorder ++ [r]) s t := by
  have hphase : a.phase = .linked := (hs.formed ha).eq_of_status hstatus rfl
  obtain ⟨a', ha', hwork⟩ := evaluate_eq_ok hrun
  obtain rfl : a = a' := by simpa [ha] using (show s.record? r = some a' from ha')
  obtain ⟨u, b, hkind, hb, rfl⟩ := hwork hstatus
  have hkind : (evaluateKind serve r a).runIn (setPhaseIn s r .evaluating) = (.ok n, u) := by
    rw [hphase] at hkind
    exact hkind
  obtain ⟨hgood, -, hwhole⟩ := hs.take_evaluating ha hstatus
  have hready := Ready.evaluating hs hhides hsub hf hlinked hnodup ha hstatus
  obtain ⟨huhides, hukept, huruns⟩ := visits_evaluateKind h ho hm hready ha hstatus hdeps hwhole
    (List.nodup_cons.1 hnodup).1 hkind
  -- the record is still being evaluated then
  have hkeepsGood := leads_evaluateKind h hhost.codeFailsWithin hgood r
    (fun m => hs.bodies r a m ha) hwhole
  have hur := (hkeepsGood.of_eq_ok hkind).1.2.busy r _ (State.record?_setPhaseIn ha .evaluating) rfl
    fun hf => hf
  have hdone : (b.phase.move .evaluated).keep n = .evaluated n := by
    rw [← Option.some.inj (hur.symm.trans hb)]
    rfl
  rw [hdone]
  have hut : State.Evolves (· = r) u (setPhaseIn u r (.evaluated n)) :=
    (State.Evolves.refl u).setPhase hur rfl rfl (.evaluated n)
  refine ⟨huhides.setPhase hur (by simp), fun x b hx hnot hb hbstatus => ?_, ?_⟩
  · rw [List.mem_append, List.mem_singleton, not_or] at hnot
    rw [State.record?_setPhaseIn_of_ne u hnot.2]
    exact hukept x b hx hnot.1 ((State.record?_setPhaseIn_of_ne s hnot.2 _).trans hb) hbstatus
  · exact (huruns.mono fun x hx => List.mem_cons_of_mem _ hx).setPhase hut

end Linker

/-- Whatever the depth, trees of hidden records are evaluated in postorder. -/
theorem evaluatesInPostorder_serve {host : Host σ η} {names : σ → RecordId → Prop}
    {known : RecordId → Prop}
    (hhost : host.EvaluatesKnown names known) (depth : Nat) :
    EvaluatesInPostorder host names known (serve host depth) := by
  induction depth with
  | zero =>
      intro hidden r f s t a n _ _ _ _ _ _ _ _ _ hrun
      simp [serve] at hrun
  | succ depth ih =>
      intro hidden r f s t a n hs hhides hsub ha hstatus hdeps hf hlinked hnodup hrun
      refine Linker.visits_evaluate (keepsGood_serve hhost.codeFailsWithin depth) ih
        (sparesHidden_serve hhost depth) hhost hs ?_ hsub ha hstatus hdeps hf hlinked hnodup hrun
      exact hhides.setPhase ha (by simp)

/-- What is above a hidden record in a tree is hidden as well, or it is the root of the tree. -/
theorem State.Sound.hides_forest {host : Host σ η} {names : σ → RecordId → Prop}
    {known : RecordId → Prop} {s : State σ η} {r : RecordId} {a : ModuleRecord σ η} {f : Forest}
    (h : s.Sound host) (ha : s.record? r = some a) (hdeps : a.dependencies = f.edges)
    (hf : f.Stands s) (hknown : ∀ x, known x → x.index < s.records.size ∧ x ∉ f.postorder)
    (hnamed : ∀ x, names s.store x → x.index < s.records.size ∧ x ∉ f.postorder) :
    (Linker.setPhaseIn s r .evaluating).Hides names known (· ∈ f.postorder) := by
  have hsize : (Linker.setPhaseIn s r .evaluating).records.size = s.records.size :=
    State.size_modifyRecord _ _ _
  refine ⟨fun x hx => ?_, fun x hx => ?_, fun x hx => ?_, fun x b hb hstatus hx dep hdep hmem => ?_⟩
  · obtain ⟨c, hc⟩ := hf.exists_record? hx
    rw [hsize]
    exact State.lt_of_record? hc
  · rw [hsize]
    exact hknown x hx
  · rw [hsize]
    exact hnamed x hx
  · have hne : x ≠ r := by
      rintro rfl
      rw [State.record?_setPhaseIn ha] at hb
      cases hb
      simp [ModuleRecord.status] at hstatus
    rw [State.record?_setPhaseIn_of_ne s hne] at hb
    have hmem' : dep ∈ s.dependenciesOf x := by
      rw [State.dependenciesOf_eq hb]
      exact hdep
    rcases List.mem_cons.1 (h.parent_mem_tree ha hf hdeps hmem' hmem) with hxr | hxf
    · exact hne hxr
    · exact hx hxf

/-- Evaluating a tree runs the bodies of its source records, each once and after those below it,
from the left to the right. Each is given the context of its record and the namespaces of what it
requests, and where a specifier is repeated that of what was linked for it last. -/
theorem evaluation_postorder (host : Host σ η) (store : σ) (depth : Nat) (p : Program σ η α)
    (s : State σ η) (hs : s = (host.exec depth p (State.initial store)).2) (r : RecordId)
    (a : ModuleRecord σ η) (ha : s.records[r.index]? = some a) (hstatus : a.status = .linked)
    (f : Forest) (hdeps : a.dependencies = f.edges) (hf : f.Stands s)
    (hlinked : ∀ x ∈ f.postorder, ∃ c, s.records[x.index]? = some c ∧ c.status = .linked)
    (names : σ → RecordId → Prop)
    (hnamed : ∀ x, names s.store x → x.index < s.records.size ∧ x ∉ f.postorder)
    (hhost : host.EvaluatesKnown names fun x => x.index < s.records.size ∧ x ∉ f.postorder)
    (depth' : Nat) (n : Namespace) (t : State σ η)
    (hrun : (serve host depth' (.evaluate r)).runIn s = (.ok n, t)) :
    (∃ b, t.records[r.index]? = some b ∧ b.phase = .evaluated n) ∧
    (f.postorder ++ [r]).Nodup ∧
    (∀ x ∈ f.postorder ++ [r], ∃ b, t.records[x.index]? = some b ∧ b.status = .evaluated) ∧
    ∃ runs, t.trace.evaluations = s.trace.evaluations ++ runs ∧
      (runs.filter (·.1 ∈ f.postorder ++ [r])).map Prod.fst =
        (f.postorder ++ [r]).filter s.isSource ∧
      ∀ run ∈ runs, run.1 ∈ f.postorder ++ [r] →
        ∃ b, t.records[run.1.index]? = some b ∧ b.Given t run.2 := by
  have ha : s.record? r = some a := ha
  have hgood : s.Good host (fun _ => True)
      (Compiled.EvaluatesKnown names fun x => x.index < s.records.size ∧ x ∉ f.postorder) := by
    have hexec := host.good_exec hhost.codeFailsWithin depth
      (p.failsWithin_of_forall fun _ => trivial) store
    rwa [← hs] at hexec
  have hkeepsGood := keepsGood_serve hhost.codeFailsWithin depth'
  obtain ⟨⟨ht, hst⟩, -⟩ := (hkeepsGood.call (.evaluate r) s hgood).of_eq_ok hrun
  obtain ⟨b, hb, hbphase⟩ := hkeepsGood.evaluate r s n t hgood hrun
  have hnodup := hgood.sound.nodup_tree ha hf hdeps
  refine ⟨⟨b, hb, hbphase⟩, (List.perm_append_singleton r f.postorder).nodup_iff.2 hnodup,
    fun x hx => ?_, ?_⟩
  · -- the tree is still there, and evaluated from the root down
    have hft : f.Stands t := hf.grown hst.grows fun x hx c hc => by
      obtain ⟨c', hc', hclinked⟩ := hlinked x hx
      obtain rfl : c = c' := by simpa [hc] using (show s.record? x = some c' from hc')
      rw [hclinked]
      rfl
    obtain ⟨b', hb', hab⟩ := hst.grows r a ha
    obtain rfl : b = b' := by simpa [hb] using hb'
    have hbdeps : b.dependencies = f.edges := by
      rw [hab.settled (by rw [hstatus]; rfl), hdeps]
    have hmem : x ∈ r :: f.postorder := by
      rw [List.mem_cons]
      rw [List.mem_append, List.mem_singleton] at hx
      exact hx.symm
    obtain ⟨path, hpath⟩ := (State.mem_tree_iff hb hft hbdeps).1 hmem
    exact ht.sound.evaluated_of_along hb (by rw [ModuleRecord.status, hbphase]; rfl) hpath
  · cases depth' with
    | zero => simp [serve] at hrun
    | succ depth' =>
        have hhides := hgood.sound.hides_forest ha hdeps hf (fun _ hx => hx) hnamed
        obtain ⟨-, -, runs, hruns, hran, hgiven⟩ := Linker.visits_evaluate
          (keepsGood_serve hhost.codeFailsWithin depth') (evaluatesInPostorder_serve hhost depth')
          (sparesHidden_serve hhost depth') hhost hgood hhides (fun _ hx => hx) ha hstatus
            hdeps hf hlinked
          hnodup hrun
        exact ⟨runs, hruns, hran.order, hgiven⟩

def twiceLink : Program Scripted.Session Scripted.HookPlan (Except Error Unit) :=
  twiceBuild.bind fun _ => Program.attempt (.linkModule ⟨0⟩)

/-- The body of the file imports a fourth record while it runs. Of the three that were linked it is
the only body, and it is run last. -/
theorem evaluation_postorder_twiceWorld :
    let s := (twiceWorld.exec 2 twiceLink (State.initial .initial)).2
    let t := ((serve twiceWorld 2 (.evaluate ⟨0⟩)).runIn s).2
    (∀ x ∈ [⟨1⟩, ⟨2⟩, ⟨0⟩], ∃ b, t.records[RecordId.index x]? = some b ∧ b.status = .evaluated) ∧
    ∃ runs, t.trace.evaluations = s.trace.evaluations ++ runs ∧
      (runs.filter (·.1 ∈ [⟨1⟩, ⟨2⟩, ⟨0⟩])).map Prod.fst = [⟨0⟩] ∧
      ∀ run ∈ runs, run.1 ∈ [⟨1⟩, ⟨2⟩, ⟨0⟩] →
        ∃ b, t.records[run.1.index]? = some b ∧ b.Given t run.2 := by
  intro s t
  let f : Forest := .cons "b" ⟨1⟩ .nil (.cons "b" ⟨2⟩ .nil .nil)
  let before : List (Status × List (String × RecordId)) :=
    [(.linked, f.edges), (.linked, []), (.linked, [])]
  have hbefore : s.records.toList.map (fun a => (a.status, a.dependencies)) = before := by
    decide +kernel
  have hsource : [⟨1⟩, ⟨2⟩, ⟨0⟩].filter s.isSource = [⟨0⟩] := by decide +kernel
  have hend : ((serve twiceWorld 2 (.evaluate ⟨0⟩)).runIn s).1.toOption.isSome = true := by
    decide +kernel
  obtain ⟨n, hn⟩ := Option.isSome_iff_exists.1 hend
  have hrun : (serve twiceWorld 2 (.evaluate ⟨0⟩)).runIn s = (.ok n, t) :=
    runIn_eq_ok_of_toOption hn
  have hs : s = (twiceWorld.exec 2 twiceLink (State.initial .initial)).2 := rfl
  clear_value t
  clear_value s
  have hat : ∀ i : Nat, s.records[i]?.map (fun a => (a.status, a.dependencies)) = before[i]? := by
    intro i
    rw [← hbefore, List.getElem?_map, Array.getElem?_toList]
  obtain ⟨a, ha, hpair⟩ := Option.map_eq_some_iff.1 ((hat 0).trans rfl)
  obtain ⟨b, hb, hbpair⟩ := Option.map_eq_some_iff.1 ((hat 1).trans rfl)
  obtain ⟨c, hc, hcpair⟩ := Option.map_eq_some_iff.1 ((hat 2).trans rfl)
  obtain ⟨hstatus, hdeps⟩ := Prod.mk.inj hpair
  obtain ⟨hbstatus, hbdeps⟩ := Prod.mk.inj hbpair
  obtain ⟨hcstatus, hcdeps⟩ := Prod.mk.inj hcpair
  have hf : f.Stands s := ⟨⟨b, hb, hbdeps⟩, trivial, ⟨c, hc, hcdeps⟩, trivial, trivial⟩
  have hlinked : ∀ x ∈ f.postorder, ∃ c, s.records[x.index]? = some c ∧ c.status = .linked := by
    intro x hx
    have hx : x ∈ [⟨1⟩, ⟨2⟩] := hx
    rw [List.mem_cons, List.mem_singleton] at hx
    rcases hx with rfl | rfl
    · exact ⟨b, hb, hbstatus⟩
    · exact ⟨c, hc, hcstatus⟩
  obtain ⟨-, -, hdone, runs, hruns, horder, hgiven⟩ :=
    evaluation_postorder twiceWorld .initial 2 twiceLink s hs ⟨0⟩ a ha hstatus f hdeps hf hlinked
      Scripted.NamesNone (fun _ hx => hx.elim)
        (Scripted.evaluatesKnown_constant _ _ _ _ _ _) 2 n t hrun
  exact ⟨hdone, runs, hruns, horder.trans hsource, hgiven⟩

end ModuleLoader
