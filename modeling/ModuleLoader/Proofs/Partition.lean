import ModuleLoader.Proofs.Depth
import ModuleLoader.Proofs.PostOrder
/-!
A failure divides the tree that is being evaluated.

The records of a tree are evaluated in postorder, so that when one of them fails
those before it have been evaluated and those after it have not been looked at.
The only ones that are neither are those above it: each of them waits for what
is below it, and gets to see the failure on the way out. So a place in the tree
says all there is to say, and the place is where a body has raised the error.

Where a record stands is said by `Forest.At`, along the constructors of a
forest, and the way out of the evaluation is the way up along the same
constructors.
-/

namespace ModuleLoader

open Eff

variable {σ η α : Type}

/-! ### Places in a forest -/

namespace Forest

/-- The record is in the forest: what comes before it in postorder, the records on the way down to
it with itself as the last one, and what comes after it. -/
inductive At : Forest → List RecordId → List RecordId → RecordId → List RecordId → Prop
  | here (specifier : String) (x : RecordId) (below rest : Forest) :
      At (cons specifier x below rest) below.postorder [x] x rest.postorder
  | under {specifier : String} {root x : RecordId} {below rest : Forest}
      {before way after : List RecordId} (h : At below before way x after) :
      At (cons specifier root below rest) before (root :: way) x (after ++ root :: rest.postorder)
  | later {specifier : String} {root x : RecordId} {below rest : Forest}
      {before way after : List RecordId} (h : At rest before way x after) :
      At (cons specifier root below rest) (below.postorder ++ root :: before) way x after

variable {s : State σ η} {f : Forest} {before way after : List RecordId} {x : RecordId}

theorem At.postorder (h : f.At before way x after) : f.postorder = before ++ x :: after := by
  induction h with
  | here specifier x below rest => rfl
  | under _ ih => rw [Forest.postorder, ih, List.append_assoc, List.cons_append]
  | later _ ih => rw [Forest.postorder, ih, List.append_assoc, List.cons_append]

theorem At.mem_postorder (h : f.At before way x after) {y : RecordId} (hy : y ∈ before ++ [x]) :
    y ∈ f.postorder := by
  rw [h.postorder, List.append_cons]
  exact List.mem_append_left _ hy

theorem At.followed {specifier : String} {root : RecordId} {below : Forest}
    (h : (cons specifier root below nil).At before way x after) (rest : Forest) :
    (cons specifier root below rest).At before way x (after ++ rest.postorder) := by
  cases h with
  | here => exact .here specifier x below rest
  | under h =>
      rw [List.append_assoc]
      exact .under h
  | later h => nomatch h

/-- The way down follows the dependencies. -/
theorem At.along (h : f.At before way x after) (hf : f.Stands s) :
    ∃ (i : Nat) (dep : String × RecordId) (path : List Nat), f.edges[i]? = some dep ∧
      s.along dep.2 path = some x ∧
      ∀ y, y ∈ way ↔ ∃ q, q <+: path ∧ s.along dep.2 q = some y := by
  induction h with
  | here specifier x below rest =>
      refine ⟨0, (specifier, x), [], rfl, rfl, fun y => ?_⟩
      simp [State.along, eq_comm]
  | @under specifier root x below rest before way after h ih =>
      obtain ⟨⟨a, ha, hdeps⟩, hbelow, -⟩ := hf
      obtain ⟨i, dep, path, hdep, hx, hway⟩ := ih hbelow
      have hroot : (s.dependenciesOf root)[i]? = some dep := by
        rw [State.dependenciesOf_eq ha, hdeps]
        exact hdep
      refine ⟨0, (specifier, root), i :: path, rfl, State.along_cons_eq_some.2 ⟨dep, hroot, hx⟩,
        fun y => ?_⟩
      rw [List.mem_cons, hway]
      constructor
      · rintro (rfl | ⟨q, hq, hy⟩)
        · exact ⟨[], List.nil_prefix, rfl⟩
        · exact ⟨i :: q, List.cons_prefix_cons.2 ⟨rfl, hq⟩,
            State.along_cons_eq_some.2 ⟨dep, hroot, hy⟩⟩
      · rintro ⟨q, hq, hy⟩
        cases q with
        | nil => exact Or.inl (Option.some.inj hy).symm
        | cons j q =>
            obtain ⟨rfl, hrest⟩ := List.cons_prefix_cons.1 hq
            obtain ⟨dep', hdep', hy⟩ := State.along_cons_eq_some.1 hy
            obtain rfl := Option.some.inj (hroot.symm.trans hdep')
            exact Or.inr ⟨q, hrest, hy⟩
  | later h ih =>
      obtain ⟨i, dep, path, hdep, hx, hway⟩ := ih hf.2.2
      exact ⟨i + 1, dep, path, hdep, hx, hway⟩

end Forest

/-! ### Failures -/

/-- The record itself has failed. Either there was no saying where it is, and then no body was run,
or its body was run last, on what it is to be given, and raised the error. -/
inductive State.Raises (host : Host σ η) (depth : Nat) (e : Error) (x : RecordId) (t : State σ η) :
    List RecordId → Prop
  | place {b : ModuleRecord σ η} {m : SourceModule σ η} (hb : t.record? x = some b)
      (hkind : b.kind = .source m) (hplace : ImportMeta.ofPath m.location = .error e) :
      Raises host depth e x t []
  | body {b : ModuleRecord σ η} {m : SourceModule σ η} {env : ModuleEnvironment} {u v : State σ η}
      (hb : t.record? x = some b) (hkind : b.kind = .source m) (hgiven : b.Given t env)
      (hrun : ((m.compiled.body env).exec (serve host depth)).runIn (u.emit (.evaluate x env)) =
        (.error (.error e), v)) (hbare : t.bare = v.bare) :
      Raises host depth e x t [x]

/-- From the first state to the second, of the hidden records those before have been evaluated,
those on the way have failed with the error, and the rest is as it was. -/
structure State.Parts (hidden : List RecordId) (e : Error) (before way : List RecordId)
    (s t : State σ η) : Prop where
  evaluated : ∀ y ∈ before, ∃ b n, t.record? y = some b ∧ b.phase = .evaluated n
  errored : ∀ y ∈ way, ∃ b, t.record? y = some b ∧ b.phase = .errored e.message
  kept : ∀ y b, y ∈ hidden → y ∉ before → y ∉ way → s.record? y = some b →
    b.status ≠ .unlinked → t.record? y = some b

structure State.Breaks (host : Host σ η) (depth : Nat) (hidden : List RecordId) (e : Error)
    (before way : List RecordId) (x : RecordId) (s t : State σ η) : Prop
    extends State.Parts hidden e before way s t where
  raises : ∃ own, State.Raises host depth e x t own ∧ State.Runs hidden (before ++ own) s t

namespace State

variable {host : Host σ η} {depth depth' : Nat} {e : Error} {x : RecordId} {s m t u : State σ η}
  {own hidden hidden' before way after : List RecordId}

theorem Raises.subset (h : t.Raises host depth e x own) : ∀ y ∈ own, y = x := by
  cases h with
  | place => simp
  | body => simp

theorem Raises.mono (h : t.Raises host depth e x own) (hdepth : depth ≤ depth') :
    t.Raises host depth' e x own := by
  cases h with
  | place hb hkind hplace => exact .place hb hkind hplace
  | @body b m env u v hb hkind hgiven hrun hbare =>
      refine .body (u := u) hb hkind hgiven ?_ hbare
      have hcontinues :=
        Script.continues_exec (fun c => continues_serve host hdepth c) (m.compiled.body env)
      rw [hcontinues.runIn_eq (by rw [hrun]; simp), hrun]

theorem Raises.later {mine : RecordId → Prop} (h : s.Raises host depth e x own)
    (hst : Evolves mine s t) (hbare : t.bare = s.bare) : t.Raises host depth e x own := by
  cases h with
  | place hb hkind hplace =>
      obtain ⟨b', hb', hgrows⟩ := hst.grows x _ hb
      exact .place hb' (hgrows.kind.trans hkind) hplace
  | body hb hkind hgiven hrun hbare' =>
      obtain ⟨b', hb', hgiven'⟩ := hgiven.later hb hst
      obtain ⟨b'', hb'', hgrows⟩ := hst.grows x _ hb
      obtain rfl : b' = b'' := by simpa [hb'] using hb''
      exact .body hb' (hgrows.kind.trans hkind) hgiven' hrun (hbare.trans hbare')

theorem Breaks.mono (h : Breaks host depth hidden e before way x s t) (hdepth : depth ≤ depth')
    (hsub : ∀ y ∈ hidden', y ∈ hidden) : Breaks host depth' hidden' e before way x s t where
  evaluated := h.evaluated
  errored := h.errored
  kept y b hy := h.kept y b (hsub y hy)
  raises := by
    obtain ⟨own, hraises, hruns⟩ := h.raises
    exact ⟨own, hraises.mono hdepth, hruns.mono hsub⟩

theorem Visits.breaks {nodes : List RecordId} (h : Visits hidden nodes s m) (hsm : Follows s m)
    (hdone : ∀ y ∈ nodes, ∃ b n, m.record? y = some b ∧ b.phase = .evaluated n)
    (hsub : ∀ y ∈ nodes, y ∈ hidden) (h' : Breaks host depth hidden e before way x m t)
    (hmt : Follows m t) (hsub' : ∀ y ∈ before ++ [x], y ∈ hidden ∧ ∃ b, s.record? y = some b) :
    Breaks host depth hidden e (nodes ++ before) way x s t where
  evaluated y hy := by
    rcases List.mem_append.1 hy with hy | hy
    · obtain ⟨b, n, hb, hphase⟩ := hdone y hy
      obtain ⟨b', hb', hphase'⟩ := hmt.final hb (by rw [ModuleRecord.status, hphase]; rfl)
      exact ⟨b', n, hb', hphase'.trans hphase⟩
    · exact h'.evaluated y hy
  errored := h'.errored
  kept y b hy hnot hway hb hstatus := by
    rw [List.mem_append, not_or] at hnot
    exact h'.kept y b hy hnot.2 hway (h.kept y b hy hnot.1 hb hstatus) hstatus
  raises := by
    obtain ⟨own, hraises, hruns⟩ := h'.raises
    have hown : ∀ y ∈ before ++ own, y ∈ before ++ [x] := by
      intro y hy
      rcases List.mem_append.1 hy with hy | hy
      · exact List.mem_append_left _ hy
      · rw [hraises.subset y hy]
        exact List.mem_append_right _ List.mem_cons_self
    refine ⟨own, hraises, ?_⟩
    rw [List.append_assoc]
    exact h.runs.trans hsm hruns hmt hsub (fun y hy => (hsub' y (hown y hy)).1)
      fun y hy => (hsub' y (hown y hy)).2

/-- A record on behalf of which all this was done is marked as well. -/
theorem Parts.above {r : RecordId} {a : ModuleRecord σ η}
    (h : Parts hidden e before way (Linker.setPhaseIn s r .evaluating) u)
    (hur : u.record? r = some a) (hbusy : a.status = .evaluating) :
    Parts (r :: hidden) e before (r :: way) s (Linker.setPhaseIn u r (.errored e.message)) := by
  have hother : ∀ y b, u.record? y = some b → b.status.isTerminal = true →
      (Linker.setPhaseIn u r (.errored e.message)).record? y = some b := by
    intro y b hb hfinal
    refine record?_setPhaseIn_of_status_ne hur hb (fun heq => ?_) _
    rw [heq, hbusy] at hfinal
    exact absurd hfinal (by decide)
  refine ⟨fun y hy => ?_, fun y hy => ?_, fun y b hy hnot hway hb hstatus => ?_⟩
  · obtain ⟨b, n, hb, hphase⟩ := h.evaluated y hy
    exact ⟨b, n, hother y b hb (by rw [ModuleRecord.status, hphase]; rfl), hphase⟩
  · rcases List.mem_cons.1 hy with rfl | hy
    · exact ⟨_, record?_setPhaseIn hur _, rfl⟩
    · obtain ⟨b, hb, hphase⟩ := h.errored y hy
      exact ⟨b, hother y b hb (by rw [ModuleRecord.status, hphase]; rfl), hphase⟩
  · rw [List.mem_cons, not_or] at hway
    have hmem : y ∈ hidden := (List.mem_cons.1 hy).resolve_left hway.1
    rw [record?_setPhaseIn_of_ne u hway.1]
    exact h.kept y b hmem hnot hway.2 ((record?_setPhaseIn_of_ne s hway.1 _).trans hb) hstatus

end State

/-! ### Evaluating -/

def Breaking (host : Host σ η) (names : σ → RecordId → Prop) (known : RecordId → Prop)
    (depth : Nat) : Prop :=
  ∀ (specifier : String) (hidden : List RecordId) (r : RecordId) (f : Forest) (s t : State σ η)
    (a : ModuleRecord σ η) (e : Error),
    s.Good host (fun _ => True) (Compiled.EvaluatesKnown names known) →
    s.Hides names known (· ∈ hidden) → (∀ x ∈ f.postorder, x ∈ hidden) →
    s.record? r = some a → a.status = .linked → a.dependencies = f.edges → f.Stands s →
    (∀ x ∈ f.postorder, ∃ c, s.record? x = some c ∧ c.status = .linked) →
    (r :: f.postorder).Nodup → (serve host depth (.evaluate r)).runIn s = (.error (.error e), t) →
    ∃ before way x after, (Forest.cons specifier r f .nil).At before way x after ∧
      State.Breaks host depth (r :: hidden) e before way x s t

namespace Linker

variable {host : Host σ η} {names : σ → RecordId → Prop} {known : RecordId → Prop} {depth : Nat}
  (hhost : host.EvaluatesKnown names known) (hb : Breaking host names known depth)

include hhost hb

/-- Of the trees of a forest those before the failure are evaluated, and those after it are left
alone. -/
theorem breaks_evaluateAll {hidden : List RecordId} {f : Forest} {s t : State σ η} {e : Error}
    {imports : OrderedMap Namespace} (hs : Ready host names known hidden f s)
    (hrun : (evaluateAll (serve host depth) imports f.edges).runIn s = (.error (.error e), t)) :
    ∃ before way x after, f.At before way x after ∧
      State.Breaks host depth hidden e before way x s t := by
  have h := keepsGood_serve hhost.codeFailsWithin depth
  induction f generalizing s imports with
  | nil => simp [Forest.edges, evaluateAll] at hrun
  | cons specifier root below rest _ ih =>
      rcases runIn_bind_eq_error.1 hrun with hfirst | ⟨n, m, hfirst, hlast⟩
      · obtain ⟨a, ha, hrootlinked, hdeps, htree, hbelow⟩ := hs.first
        obtain ⟨before, way, x, after, hat, hbreaks⟩ :=
          hb specifier hidden root below s t a e hs.good
          hs.hides hbelow.hidden ha hrootlinked hdeps hbelow.stands hbelow.linked htree hfirst
        exact ⟨before, way, x, _, hat.followed rest,
          hbreaks.mono (Nat.le_refl depth) fun y hy => List.mem_cons_of_mem _ hy⟩
      · obtain ⟨hsm, hvisits, ⟨b, hbm, hbphase, hbdeps⟩, hmbelow, hm, hsame⟩ :=
          visits_root h (evaluatesInPostorder_serve hhost depth) hs hfirst
        have hmt : State.Follows m t := ((leads_evaluateAll h hm.good _ _).of_eq hlast).2
        have hroots : ∀ x ∈ below.postorder ++ [root], x ∈ hidden := by
          intro x hx
          refine hs.hidden x ?_
          rw [Forest.postorder, List.mem_append, List.mem_cons]
          rw [List.mem_append, List.mem_singleton] at hx
          exact hx.imp id Or.inl
        obtain ⟨before, way, x, after, hat, hbreaks⟩ := ih hm hlast
        have hdone : ∀ y ∈ below.postorder ++ [root],
            ∃ b n, m.record? y = some b ∧ b.phase = .evaluated n := by
          intro y hy
          obtain ⟨c, hc, hstatus⟩ := hm.good.sound.evaluated_of_mem hbm hmbelow hbdeps
            (by rw [ModuleRecord.status, hbphase]; rfl) hy
          obtain ⟨n, hn⟩ := (hm.good.formed hc).exists_of_evaluated hstatus
          exact ⟨c, n, hc, hn⟩
        have horder : below.postorder ++ root :: before = below.postorder ++ [root] ++ before := by
          simp
        refine ⟨_, way, x, after, hat.later, ?_⟩
        rw [horder]
        refine hvisits.breaks hsm hdone hroots hbreaks hmt fun y hy => ?_
        have hrest := hat.mem_postorder hy
        obtain ⟨c, hc, -⟩ := hm.linked y hrest
        exact ⟨hm.hidden y hrest, c, hsame y hrest ▸ hc⟩

omit hb in
/-- What is left to do for a record fails at the record itself, when all that is below it has been
evaluated. -/
theorem raises_runBody {hidden : List RecordId} {f : Forest} {r : RecordId} {s v u : State σ η}
    {a : ModuleRecord σ η} {m : SourceModule σ η} {imports : OrderedMap Namespace} {e : Error}
    (hv : v.Good host (fun _ => True) (Compiled.EvaluatesKnown names known))
    (hhides : v.Hides names known (· ∈ hidden)) (hbody : m.compiled.EvaluatesKnown names known)
    (hsub : ∀ x ∈ f.postorder, x ∈ hidden) (ha : s.record? r = some a)
    (hstatus : a.status = .linked)
    (hr : r ∉ f.postorder) (hkind : a.kind = .source m)
    (hwhole : a.dependencies.map Prod.fst = a.requests)
    (hfollows : State.Follows (setPhaseIn s r .evaluating) v)
    (hsv : State.Visits hidden f.postorder (setPhaseIn s r .evaluating) v)
    (hdone : ∀ x ∈ f.postorder, ∃ b, v.record? x = some b ∧ b.status = .evaluated)
    (hcollects : Collects v a.dependencies .empty imports)
    (hrun : (runBody (serve host depth) r a m imports).runIn v = (.error (.error e), u)) :
    State.Parts hidden e f.postorder [] (setPhaseIn s r .evaluating) u ∧
      ∃ own, u.Raises host depth e r own ∧ State.Runs (r :: hidden) (f.postorder ++ own) s u := by
  have hidle : a.status.isBusy = false := by rw [hstatus]; rfl
  have hevaluating := State.record?_setPhaseIn ha .evaluating
  have hparts : ∀ w, State.Follows v w → (∀ y b, y ∈ hidden → v.record? y = some b →
      b.status ≠ .unlinked → w.record? y = some b) →
      State.Parts hidden e f.postorder [] (setPhaseIn s r .evaluating) w := by
    intro w hvw hspared
    refine ⟨fun y hy => ?_, by simp, fun y b hy hnot _ hb hbstatus => ?_⟩
    · obtain ⟨b, hb, hbstatus⟩ := hdone y hy
      obtain ⟨n, hn⟩ := (hv.formed hb).exists_of_evaluated hbstatus
      obtain ⟨b', hb', hphase⟩ := hvw.final hb (by rw [hbstatus]; rfl)
      exact ⟨b', n, hb', hphase.trans hn⟩
    · exact hspared y b hy (hsv.kept y b hy hnot hb hbstatus) hbstatus
  rcases runBody_eq_error hrun with ⟨hplace, rfl⟩ | ⟨importMeta, hmeta, hexec⟩
  · refine ⟨hparts v (.refl v) fun y b _ hb _ => hb, [],
      .place (hfollows.busy r _ hevaluating rfl fun hf => hf) hkind hplace, ?_⟩
    rw [List.append_nil]
    refine runs_take hsv.runs ha hidle fun x hx => ?_
    rintro rfl
    exact hr hx
  · generalize henv : (⟨a.context, importMeta, imports, a.importer⟩ : ModuleEnvironment) = env
      at hexec
    have hemit : State.Follows v (v.emit (.evaluate r env)) := .of_records_eq rfl
    have hgood : (v.emit (.evaluate r env)).Good host (fun _ => True)
        (Compiled.EvaluatesKnown names known) := hv.congr rfl rfl
    have hkeep := ((sparesHidden_serve hhost depth).leads_script hgood
      (hhides.of_eq rfl hhides.named)
      (hbody env)).of_eq hexec
    obtain ⟨hruns, b, hb, hgiven⟩ :=
      runs_body hsub ha hstatus hr hkind hwhole hmeta hsv.runs hfollows
      hcollects (henv ▸ hkeep)
    rw [henv] at hgiven
    have hvu := hemit.trans hkeep.follows
    obtain rfl := Option.some.inj
      (((hfollows.trans hvu).busy r _ hevaluating rfl fun hf => hf).symm.trans hb)
    exact ⟨hparts u hvu hkeep.spares.records, [r], .body hb hkind hgiven hexec rfl, hruns⟩

theorem raises_evaluateKind {specifier : String} {hidden : List RecordId} {f : Forest}
    {r : RecordId}
    {s u : State σ η} {a : ModuleRecord σ η} {e : Error}
    (hs : Ready host names known hidden f (setPhaseIn s r .evaluating))
    (ha : s.record? r = some a) (hstatus : a.status = .linked) (hdeps : a.dependencies = f.edges)
    (hwhole : a.dependencies.map Prod.fst = a.requests) (hr : r ∉ f.postorder)
    (hrun : (evaluateKind (serve host depth) r a).runIn (setPhaseIn s r .evaluating) =
      (.error (.error e), u)) :
    ∃ before way x after, (Forest.cons specifier r f .nil).At before (r :: way) x after ∧
      State.Parts hidden e before way (setPhaseIn s r .evaluating) u ∧
      ∃ own, u.Raises host depth e x own ∧ State.Runs (r :: hidden) (before ++ own) s u := by
  have h := keepsGood_serve hhost.codeFailsWithin depth
  obtain ⟨m, hkind, hall | ⟨imports, v, hall, hbody⟩⟩ := evaluateKind_eq_error hrun
  · rw [hdeps] at hall
    obtain ⟨before, way, x, after, hat, hbreaks⟩ :=
      breaks_evaluateAll hhost hb hs hall
    obtain ⟨own, hraises, hruns⟩ := hbreaks.raises
    refine ⟨before, way, x, _, hat.under, hbreaks.toParts, own, hraises, ?_⟩
    refine runs_take hruns ha (by rw [hstatus]; rfl) fun y hy => ?_
    rintro rfl
    refine hr (hat.mem_postorder (List.mem_append.2 ?_))
    exact (List.mem_append.1 hy).imp id fun hy => List.mem_singleton.2 (hraises.subset y hy)
  · obtain ⟨⟨hv, hfollows⟩, hdone⟩ := (leads_evaluateAll h hs.good _ _).of_eq_ok hall
    rw [hdeps] at hall hdone
    obtain ⟨hvhides, hsv, hcollects⟩ :=
      visits_evaluateAll h (evaluatesInPostorder_serve hhost depth) hs hall
    rw [← hdeps] at hcollects
    have hfv : f.Stands v := hs.stands.grown_of_linked hs.linked hfollows.grows
    have hcompiled := hs.good.bodies r _ m (State.record?_setPhaseIn ha .evaluating) hkind
    exact ⟨f.postorder, [], r, [], .here specifier r f .nil,
      raises_runBody hhost hv hvhides hcompiled
      hs.hidden ha hstatus hr hkind hwhole hfollows hsv (hv.sound.evaluated_of_edges hfv hdone)
        hcollects hbody⟩

/-- A tree that is linked fails at one of its records. -/
theorem breaks_evaluate (specifier : String) {hidden : List RecordId} {f : Forest} {r : RecordId}
    {s t : State σ η} {a : ModuleRecord σ η} {e : Error}
    (hs : s.Good host (fun _ => True) (Compiled.EvaluatesKnown names known))
    (hhides : (setPhaseIn s r .evaluating).Hides names known (· ∈ hidden))
    (hsub : ∀ x ∈ f.postorder, x ∈ hidden) (ha : s.record? r = some a)
    (hstatus : a.status = .linked)
    (hdeps : a.dependencies = f.edges) (hf : f.Stands s)
    (hlinked : ∀ x ∈ f.postorder, ∃ c, s.record? x = some c ∧ c.status = .linked)
    (hnodup : (r :: f.postorder).Nodup)
    (hrun : (evaluate (serve host depth) r).runIn s = (.error (.error e), t)) :
    ∃ before way x after, (Forest.cons specifier r f .nil).At before way x after ∧
      State.Breaks host depth (r :: hidden) e before way x s t := by
  have hphase : a.phase = .linked := (hs.formed ha).eq_of_status hstatus rfl
  obtain ⟨hgood, -, hwhole⟩ := hs.take_evaluating ha hstatus
  have hready := Ready.evaluating hs hhides hsub hf hlinked hnodup ha hstatus
  have hevaluating := State.record?_setPhaseIn ha .evaluating
  have hleads := leads_evaluateKind (keepsGood_serve hhost.codeFailsWithin depth)
    hhost.codeFailsWithin hgood r
    (fun m => hs.bodies r a m ha) hwhole
  obtain ⟨u, ⟨hkind, b, hbu, rfl⟩ | ⟨n, hkind, hend⟩⟩ := evaluate_eq_error ha hphase hrun
  · have hur := (hleads.of_eq hkind).2.busy r _ hevaluating rfl fun hf => hf
    obtain rfl := Option.some.inj (hur.symm.trans hbu)
    rw [if_pos (by rfl)]
    have hut : State.Evolves (· = r) u (setPhaseIn u r (.errored e.message)) :=
      (State.Evolves.refl u).setPhase hur rfl rfl (.errored e.message)
    obtain ⟨before, way, x, after, hat, hparts, own, hraises, hruns⟩ :=
      raises_evaluateKind hhost hb hready ha hstatus hdeps hwhole (List.nodup_cons.1 hnodup).1 hkind
    exact ⟨before, r :: way, x, after, hat, hparts.above hur rfl, own,
      hraises.later hut (bare_setPhaseIn _ _ _), hruns.setPhase hut⟩
  · -- the record is still being evaluated, so that the last move cannot fail
    obtain ⟨⟨-, hu⟩, -⟩ := hleads.of_eq_ok hkind
    rw [runIn_complete_of_phase n (hu.busy r _ hevaluating rfl fun hf => hf) rfl rfl] at hend
    simp at hend

end Linker

theorem breaking_serve {host : Host σ η} {names : σ → RecordId → Prop} {known : RecordId → Prop}
    (hhost : host.EvaluatesKnown names known) (depth : Nat) : Breaking host names known depth := by
  induction depth with
  | zero =>
      intro specifier hidden r f s t a e _ _ _ _ _ _ _ _ _ hrun
      simp [serve] at hrun
  | succ depth ih =>
      intro specifier hidden r f s t a e hs hhides hsub ha hstatus hdeps hf hlinked hnodup hrun
      obtain ⟨before, way, x, after, hat, hbreaks⟩ := Linker.breaks_evaluate hhost ih _ hs
        (hhides.setPhase ha (by simp)) hsub ha hstatus hdeps hf hlinked hnodup hrun
      exact ⟨before, way, x, after, hat, hbreaks.mono (Nat.le_succ depth) fun y hy => hy⟩

/-- If evaluating a tree fails then the error is that of one of its records. The record and those
above it have failed with the error, those before it in postorder are evaluated, and the others are
linked as they were. Of the bodies of the tree just those before it were run, and perhaps its own.
-/
theorem failing_evaluation_partitions (host : Host σ η) (store : σ) (depth : Nat)
    (p : Program σ η α) (s : State σ η) (hs : s = (host.exec depth p (State.initial store)).2)
    (r : RecordId) (a : ModuleRecord σ η) (ha : s.records[r.index]? = some a)
    (hstatus : a.status = .linked) (f : Forest) (hdeps : a.dependencies = f.edges) (hf : f.Stands s)
    (hlinked : ∀ x ∈ f.postorder, ∃ c, s.records[x.index]? = some c ∧ c.status = .linked)
    (names : σ → RecordId → Prop)
    (hnamed : ∀ x, names s.store x → x.index < s.records.size ∧ x ∉ f.postorder)
    (hhost : host.EvaluatesKnown names fun x => x.index < s.records.size ∧ x ∉ f.postorder)
    (depth' : Nat) (e : Error) (t : State σ η)
    (hrun : (serve host depth' (.evaluate r)).runIn s = (.error (.error e), t)) :
    ∃ (path : List Nat) (x : RecordId) (before after own : List RecordId),
      s.along r path = some x ∧
      f.postorder ++ [r] = before ++ x :: after ∧ (f.postorder ++ [r]).Nodup ∧
      (∀ q y, q <+: path → s.along r q = some y →
        ∃ b, t.records[y.index]? = some b ∧ b.phase = .errored e.message) ∧
      (∀ y ∈ before, ∃ b n, t.records[y.index]? = some b ∧ b.phase = .evaluated n) ∧
      (∀ y ∈ after, (∀ q, q <+: path → s.along r q ≠ some y) →
        t.records[y.index]? = s.records[y.index]? ∧
          ∃ b, t.records[y.index]? = some b ∧ b.status = .linked) ∧
      t.Raises host depth' e x own ∧
      ∃ runs, t.trace.evaluations = s.trace.evaluations ++ runs ∧
        (runs.filter (·.1 ∈ f.postorder ++ [r])).map Prod.fst = (before ++ own).filter s.isSource ∧
        ∀ run ∈ runs, run.1 ∈ f.postorder ++ [r] →
          ∃ b, t.records[run.1.index]? = some b ∧ b.Given t run.2 := by
  have ha : s.record? r = some a := ha
  have hgood : s.Good host (fun _ => True)
      (Compiled.EvaluatesKnown names fun x => x.index < s.records.size ∧ x ∉ f.postorder) := by
    have hexec := host.good_exec hhost.codeFailsWithin depth
      (p.failsWithin_of_forall fun _ => trivial) store
    rwa [← hs] at hexec
  have hnodup := hgood.sound.nodup_tree ha hf hdeps
  have htree : (f.postorder ++ [r]).Nodup :=
    (List.perm_append_singleton r f.postorder).nodup_iff.2 hnodup
  cases depth' with
  | zero => simp [serve] at hrun
  | succ depth' =>
      have hhides := hgood.sound.hides_forest ha hdeps hf (fun _ hx => hx) hnamed
      obtain ⟨before, way, x, after, hat, hbreaks⟩ := Linker.breaks_evaluate hhost
        (breaking_serve hhost depth') "" hgood hhides (fun _ hx => hx) ha hstatus hdeps hf
          hlinked hnodup
        hrun
      have horder : f.postorder ++ [r] = before ++ x :: after := hat.postorder
      obtain ⟨own, hraises, runs, hruns, hran, hgiven⟩ := hbreaks.raises
      -- the way down from the record
      obtain ⟨i, dep, path, hdep, hx, hway⟩ := hat.along ⟨⟨a, ha, hdeps⟩, hf, trivial⟩
      obtain ⟨-, rfl⟩ : i = 0 ∧ dep = ("", r) := by
        cases i with
        | zero => exact ⟨rfl, (Option.some.inj hdep).symm⟩
        | succ i => simp [Forest.edges] at hdep
      have hmem : ∀ y ∈ f.postorder ++ [r], y ∈ r :: f.postorder := by
        intro y hy
        rw [List.mem_append, List.mem_singleton] at hy
        exact List.mem_cons.2 hy.symm
      refine ⟨path, x, before, after, own, hx, horder, htree,
        fun q y hq hy => ?_, hbreaks.evaluated,
        fun y hy hnot => ?_, hraises.mono (Nat.le_succ depth'), runs, hruns, ?_,
          fun run hrun hy => ?_⟩
      · exact hbreaks.errored y ((hway y).2 ⟨q, hq, hy⟩)
      · have hytree : y ∈ f.postorder ++ [r] := by
          rw [horder]
          exact List.mem_append_right _ (List.mem_cons_of_mem _ hy)
        have hbefore : y ∉ before := by
          intro hin
          rw [horder, List.nodup_append] at htree
          exact htree.2.2 y hin y (List.mem_cons_of_mem _ hy) rfl
        have hyway : y ∉ way := by
          intro hin
          obtain ⟨q, hq, hyq⟩ := (hway y).1 hin
          exact hnot q hq hyq
        obtain ⟨b, hb, hblinked⟩ : ∃ b, s.record? y = some b ∧ b.status = .linked := by
          rcases List.mem_cons.1 (hmem y hytree) with rfl | hin
          · exact ⟨a, ha, hstatus⟩
          · exact hlinked y hin
        have hbt := hbreaks.kept y b (hmem y hytree) hbefore hyway hb (by simp [hblinked])
        exact ⟨hbt.trans hb.symm, b, hbt, hblinked⟩
      · have hown : ∀ y ∈ before ++ own, y ∈ f.postorder ++ [r] := by
          intro y hy
          refine hat.mem_postorder (List.mem_append.2 ?_)
          exact (List.mem_append.1 hy).imp id fun hy => List.mem_singleton.2 (hraises.subset y hy)
        exact hran.filter_append hmem fun y => ⟨fun hy => hy.elim id (hown y), Or.inl⟩
      · exact hgiven run hrun (hran.only run hrun (hmem run.1 hy))

/-- A scripted world with three files. The first imports the others and a built-in, and the body of
the last one throws. -/
def throwingWorld : Host Scripted.Session Scripted.HookPlan :=
  Scripted.host
    ⟨[(["a.mjs"], .file (some
        "[[\"import\", \"./c.mjs\"], [\"import\", \"./d.mjs\"], [\"import\", \"b\"]]")),
      (["c.mjs"], .file (some "[]")),
      (["d.mjs"], .file (some "[[\"import\", \"b\"], [\"throw\", \"no\"]]"))]⟩
    {} ⟨"node:", [("b", .constant .undefined)]⟩ none ⟨0⟩

/-- The second file and the built-in of the third are evaluated, the third file and the first are
errored, and the built-in of the first has not been looked at. -/
theorem failing_evaluation_partitions_throwingWorld :
    let s := (throwingWorld.exec 3 twiceLink (State.initial .initial)).2
    let t := ((serve throwingWorld 3 (.evaluate ⟨0⟩)).runIn s).2
    let e := Error.engine "no"
    t.records.toList.map ModuleRecord.status =
      [.errored, .evaluated, .errored, .evaluated, .linked] ∧
      ∃ (path : List Nat) (x : RecordId) (before after own : List RecordId),
        s.along ⟨0⟩ path = some x ∧
        [⟨1⟩, ⟨3⟩, ⟨2⟩, ⟨4⟩, ⟨0⟩] = before ++ x :: after ∧
        (∀ q y, q <+: path → s.along ⟨0⟩ q = some y →
          ∃ b, t.records[y.index]? = some b ∧ b.phase = .errored e.message) ∧
        (∀ y ∈ before, ∃ b n, t.records[RecordId.index y]? = some b ∧ b.phase = .evaluated n) ∧
        t.Raises throwingWorld 3 e x own := by
  intro s t e
  let f : Forest := .cons "./c.mjs" ⟨1⟩ .nil
    (.cons "./d.mjs" ⟨2⟩ (.cons "b" ⟨3⟩ .nil .nil) (.cons "b" ⟨4⟩ .nil .nil))
  have hroot : s.records[0]?.map (fun a => (a.status, a.dependencies)) = some (.linked,
    f.edges) := by
    decide +kernel
  have hf : f.Stands s := by decide +kernel
  have hall : ∀ x ∈ f.postorder, s.records[x.index]?.map ModuleRecord.status = some .linked := by
    decide +kernel
  have hend : error? ((serve throwingWorld 3 (.evaluate ⟨0⟩)).runIn s).1 = some e := by
    decide +kernel
  have hrun : (serve throwingWorld 3 (.evaluate ⟨0⟩)).runIn s = (.error (.error e), t) :=
    runIn_eq_error_of_error? hend
  refine ⟨by decide +kernel, ?_⟩
  have hs : s = (throwingWorld.exec 3 twiceLink (State.initial .initial)).2 := rfl
  clear_value t
  clear_value s
  obtain ⟨a, ha, hpair⟩ := Option.map_eq_some_iff.1 hroot
  obtain ⟨hstatus, hdeps⟩ := Prod.mk.inj hpair
  obtain ⟨path, x, before, after, own, hx, horder, -, herrored, hevaluated, -, hraises, -⟩ :=
    failing_evaluation_partitions throwingWorld .initial 3 twiceLink s hs
      ⟨0⟩ a ha hstatus f hdeps hf
      (fun x hx => Option.map_eq_some_iff.1 (hall x hx)) Scripted.NamesNone (fun _ hx => hx.elim)
      (Scripted.evaluatesKnown_constant _ _ _ _ _ _) 3 e t hrun
  exact ⟨path, x, before, after, own, hx, horder, herrored, hevaluated, hraises⟩

end ModuleLoader
