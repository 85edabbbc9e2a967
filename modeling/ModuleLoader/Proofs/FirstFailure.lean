import ModuleLoader.Proofs.Depth
import ModuleLoader.Proofs.Unfolding
/-!
Linking stops at the first failure.

Linking follows the edges of the graph in depth first order, and an edge that
cannot be linked is the last one that is followed. What had been linked by then
stays as it is, a row of trees at each record on the way down to the edge, and
the records on the way keep the reason. Nothing else happens any more: whatever
the edges before and the failing edge have done to the cache, the heap and the
log is all that is done.

The proof follows the operation. The requests of a record have been linked up to
one, and for that one there was either no record to be built, or a record was
built and linking that one came to the same end.
-/

namespace ModuleLoader

open Eff

variable {σ η α : Type}

/-! ### What was followed -/

/-- The edges of the trees in a row below a record, in depth first order: from which record, for
which specifier, and to which record. -/
def Forest.preorder (r : RecordId) : Forest → List (RecordId × String × RecordId)
  | nil => []
  | cons specifier root below rest =>
    (r, specifier, root) :: (below.preorder root ++ rest.preorder r)

/-- The edges are linked one after the other, each on behalf of a record that is being linked.
Between them nothing changes but how far records have come. -/
inductive Linker.Links (host : Host σ η) (depth : Nat) :
    List (RecordId × String × RecordId) → State σ η → State σ η → Prop
  | nil {s t : State σ η} (hbare : t.bare = s.bare) : Links host depth [] s t
  | cons {s u m t : State σ η} {r root : RecordId} {specifier : String} {a : ModuleRecord σ η}
      {rest : List (RecordId × String × RecordId)} (hbare : u.bare = s.bare)
      (ha : u.record? r = some a) (hphase : a.phase = .linking)
      (hlink : (serve host depth (.link specifier a.referrer)).runIn u = (.ok root, m))
      (hrest : Links host depth rest m t) : Links host depth ((r, specifier, root) :: rest) s t

namespace Linker.Links

variable {host : Host σ η} {depth depth' : Nat} {es es' : List (RecordId × String × RecordId)}
  {s m t : State σ η}

theorem of_bare (hbare : m.bare = s.bare) (h : Links host depth es m t) :
    Links host depth es s t := by
  cases h with
  | nil hbare' => exact .nil (hbare'.trans hbare)
  | cons hbare' ha hphase hlink hrest => exact .cons (hbare'.trans hbare) ha hphase hlink hrest

theorem trans (h : Links host depth es s m) (h' : Links host depth es' m t) :
    Links host depth (es ++ es') s t := by
  induction h with
  | nil hbare => exact h'.of_bare hbare
  | cons hbare ha hphase hlink _ ih => exact .cons hbare ha hphase hlink (ih h')

theorem mono (hdepth : depth ≤ depth') (h : Links host depth es s t) :
    Links host depth' es s t := by
  induction h with
  | nil hbare => exact .nil hbare
  | cons hbare ha hphase hlink _ ih =>
      refine .cons hbare ha hphase ?_ ih
      rw [(continues_serve host hdepth _).runIn_eq (by rw [hlink]; simp), hlink]

end Linker.Links

/-! ### Up to where -/

/-- The way down to an edge that could not be linked. At each record on it there is a row of trees
that had been linked before, and the specifier with which it went on. -/
inductive Descent where
  | stop (done : Forest) (specifier : String)
  | down (done : Forest) (specifier : String) (root : RecordId) (rest : Descent)

namespace Descent

/-- The records on the way down. -/
def way (r : RecordId) : Descent → List RecordId
  | stop _ _ => [r]
  | down _ _ root rest => r :: rest.way root

theorem mem_way (d : Descent) (r : RecordId) : r ∈ d.way r := by
  cases d <;> exact List.mem_cons_self

/-- The records that had been linked. -/
def done : Descent → List RecordId
  | stop done _ => done.postorder
  | down done _ _ rest => done.postorder ++ rest.done

/-- The edges that were followed before the last one. -/
def preorder (r : RecordId) : Descent → List (RecordId × String × RecordId)
  | stop done _ => done.preorder r
  | down done specifier root rest => done.preorder r ++ (r, specifier, root) :: rest.preorder root

/-- The last edge: on behalf of which record, and for which specifier. -/
def last (r : RecordId) : Descent → RecordId × String
  | stop _ specifier => (r, specifier)
  | down _ _ root rest => rest.last root

end Descent

/-- A record of which linking broke off: the row is what had been linked for it, and the specifier
is the next one in turn. -/
structure ModuleRecord.BreaksOff (t : State σ η) (reason : String) (done : Forest)
    (specifier : String) (b : ModuleRecord σ η) : Prop where
  phase : b.phase = .errored reason
  dependencies : b.dependencies = done.edges
  requests : done.edges.map Prod.fst ++ [specifier] <+: b.requests
  stands : done.Stands t

/-- In the state every record on the way down is one of which linking broke off, and the next one is
what was built for the specifier that was in turn. -/
def Descent.Stands (host : Host σ η) (t : State σ η) (reason : String) :
    RecordId → Descent → Prop
  | r, stop done specifier => ∃ b, t.record? r = some b ∧ b.BreaksOff t reason done specifier
  | r, down done specifier root rest =>
    (∃ b c, t.record? r = some b ∧ b.BreaksOff t reason done specifier ∧
      t.record? root = some c ∧ b.ChildOf host specifier c) ∧ rest.Stands host t reason root

/-- The edge is linked on behalf of its record, which is being linked, and that fails. After it
nothing changes but how far records have come. -/
def Linker.Fails (host : Host σ η) (depth : Nat) (edge : RecordId × String) (e : Error)
    (s t : State σ η) : Prop :=
  ∃ a u, s.record? edge.1 = some a ∧ a.phase = .linking ∧
    (serve host depth (.link edge.2 a.referrer)).runIn s = (.error (.error e), u) ∧ t.bare = u.bare

theorem Linker.Fails.mono {host : Host σ η} {depth depth' : Nat} {edge : RecordId × String}
    {e : Error} {s t t' : State σ η} (hdepth : depth ≤ depth') (h : Fails host depth edge e s t)
    (hbare : t'.bare = t.bare) : Fails host depth' edge e s t' := by
  obtain ⟨a, u, ha, hphase, hlink, htu⟩ := h
  refine ⟨a, u, ha, hphase, ?_, hbare.trans htu⟩
  rw [(continues_serve host hdepth _).runIn_eq (by rw [hlink]; simp), hlink]

/-! ### Growth -/

section

variable {host : Host σ η} {s t : State σ η} {r : RecordId} {reason : String}

theorem ModuleRecord.BreaksOff.grow {done : Forest} {specifier : String} {b b' : ModuleRecord σ η}
    (h : b.BreaksOff s reason done specifier) (hb : b.Grows b') (hdone : done.Stands t) :
    b'.BreaksOff t reason done specifier where
  phase := by rw [hb.final (by rw [ModuleRecord.status, h.phase]; rfl), h.phase]
  dependencies := by
    rw [hb.settled (by rw [ModuleRecord.status, h.phase]; rfl), h.dependencies]
  requests := by
    rw [hb.requests]
    exact h.requests
  stands := hdone

theorem ModuleRecord.ChildOf.grow {specifier : String} {b b' c c' : ModuleRecord σ η}
    (h : b.ChildOf host specifier c) (hb : b.Grows b') (hc : c.Grows c') :
    b'.ChildOf host specifier c' := by
  refine childOf_of_target ?_ ?_ ?_
  · rw [hc.context, h.context, hb.context]
  · rw [hc.lineage, h.lineage, hb.chain]
    rfl
  · rw [hb.referrer, h.target, hc.dispatch, hc.identifier]

theorem Descent.Stands.grown {d : Descent} (h : d.Stands host s reason r) (hs : s.Sound host)
    (hst : ∀ x a, s.record? x = some a → ∃ b, t.record? x = some b ∧ a.Grows b) :
    d.Stands host t reason r := by
  have hdone : ∀ (x : RecordId) (b : ModuleRecord σ η) done specifier, s.record? x = some b →
      b.BreaksOff s reason done specifier → done.Stands t := fun x b done specifier hb hbroken =>
    hs.stands_of_grows hb hbroken.dependencies hbroken.stands hst
  induction d generalizing r with
  | stop done specifier =>
      obtain ⟨b, hb, hbroken⟩ := h
      obtain ⟨b', hb', hgrows⟩ := hst r b hb
      exact ⟨b', hb', hbroken.grow hgrows (hdone r b done specifier hb hbroken)⟩
  | down done specifier root rest ih =>
      obtain ⟨⟨b, c, hb, hbroken, hc, hchild⟩, hrest⟩ := h
      obtain ⟨b', hb', hgrows⟩ := hst r b hb
      obtain ⟨c', hc', hcgrows⟩ := hst root c hc
      exact ⟨⟨b', c', hb', hbroken.grow hgrows (hdone r b done specifier hb hbroken), hc',
        hchild.grow hgrows hcgrows⟩, ih hrest⟩

/-- All that had been linked has been linked as a tree, in the context of the record. -/
theorem Descent.Stands.unfolds {d : Descent} {a : ModuleRecord σ η} {x : RecordId}
    (h : d.Stands host t reason r) (ht : t.Sound host) (ha : t.record? r = some a)
    (hx : x ∈ d.done) : ∃ b, t.record? x = some b ∧ b.Unfolds host t a.context := by
  induction d generalizing r a with
  | stop done specifier =>
      obtain ⟨b, hb, hbroken⟩ := h
      obtain rfl : a = b := by simpa [ha] using hb
      exact ht.unfolds_of_mem ha hbroken.dependencies hbroken.stands hx
  | down done specifier root rest ih =>
      obtain ⟨⟨b, c, hb, hbroken, hc, hchild⟩, hrest⟩ := h
      obtain rfl : a = b := by simpa [ha] using hb
      rcases List.mem_append.1 hx with hx | hx
      · exact ht.unfolds_of_mem ha hbroken.dependencies hbroken.stands hx
      · rw [← hchild.context]
        exact ih hrest hc hx

end

/-! ### Linking that succeeds -/

namespace Linker

variable {host : Host σ η} {E : Error → Prop} {B : Compiled σ η → Prop}

section

variable {depth : Nat}
  (ih : ∀ (r : RecordId) (s t : State σ η) a, s.Good host E B → s.record? r = some a →
    a.phase = .unlinked → (serve host depth (.linkModule r)).runIn s = (.ok (), t) →
    ∃ f b, t.record? r = some b ∧ b.dependencies = Forest.edges f ∧ f.Stands t ∧
      Links host depth (f.preorder r) s t)
  (hhost : host.CodeFailsWithin E B)

include ih hhost

/-- A request that is linked leads to a record that is linked, with the row of trees below it. -/
theorem links_request {specifier : String} {referrer : Referrer} {dep : RecordId}
    {s m t : State σ η}
    (hs : s.Good host E B)
    (hlink : (link host (serve host depth) specifier referrer).runIn s = (.ok dep, m))
    (hdep : (serve host depth (.linkModule dep)).runIn m = (.ok (), t)) :
    t.Good host E B ∧ State.Follows s t ∧ ∃ g c, t.record? dep = some c ∧
      c.dependencies = Forest.edges g ∧ c.status.isSettled = true ∧ g.Stands t ∧
      Links host depth (g.preorder dep) m t := by
  have h := keepsGood_serve hhost depth
  obtain ⟨⟨hm, hsm⟩, -⟩ := (leads_link h hhost hs specifier referrer).of_eq_ok hlink
  obtain ⟨⟨ht, hmt⟩, -⟩ := (h.call (.linkModule dep) m hm).of_eq_ok hdep
  obtain ⟨name, kind, m', rfl, rfl, -⟩ := link_eq_ok hlink
  obtain ⟨g, c, hc, hcdeps, hg, hlinks⟩ :=
    ih m'.next _ t _ hm (State.records_add_next m' _) rfl hdep
  obtain ⟨d, hd, hwhole⟩ := h.linkModule _ _ t hm hdep
  obtain rfl : c = d := by simpa [hc] using hd
  exact ⟨ht, hsm.trans hmt, g, c, hc, hcdeps, Status.isSettled_of_isWhole hwhole, hg, hlinks⟩

/-- Requests that are linked are linked edge by edge, in depth first order. -/
theorem links_linkRequests (specifiers : List String) {r : RecordId} {s t : State σ η}
    {a : ModuleRecord σ η} (hs : s.Good host E B) (ha : s.record? r = some a)
    (hphase : a.phase = .linking)
    (hrest : a.dependencies.map Prod.fst ++ specifiers <+: a.requests)
    (hrun : (linkRequests host (serve host depth) r a.referrer specifiers).runIn s = (.ok (), t)) :
    t.Good host E B ∧ State.Evolves (· = r) s t ∧
      ∃ f : Forest, f.edges.map Prod.fst = specifiers ∧
        t.record? r = some { a with dependencies := a.dependencies ++ f.edges } ∧ f.Stands t ∧
        Links host (depth + 1) (f.preorder r) s t := by
  have h := keepsGood_serve hhost depth
  have hlinking : a.status = .linking := by rw [ModuleRecord.status, hphase]; rfl
  induction specifiers generalizing s a with
  | nil =>
      rw [linkRequests, runIn_pure, Prod.mk.injEq] at hrun
      obtain ⟨-, rfl⟩ := hrun
      exact ⟨hs, .refl s, .nil, rfl, by simpa [Forest.edges] using ha, trivial, .nil rfl⟩
  | cons specifier rest ihrest =>
      obtain ⟨dep, m, hlink, hthen⟩ := runIn_bind_eq_ok.1 hrun
      obtain ⟨_, t₁, hdep, hadded⟩ := runIn_bind_eq_ok.1 hthen
      rw [runIn_bind, runIn_addDependency] at hadded
      dsimp only at hadded
      obtain ⟨after, hafter⟩ := hrest
      have hnow : a.requests = a.dependencies.map Prod.fst ++ specifier :: (rest ++ after) := by
        rw [← hafter, List.append_assoc, List.cons_append]
      obtain ⟨hgood, hevolves, hat⟩ := good_addDependency h hhost (State.lt_of_record? ha) (.refl s)
        ha hphase hnow hlink hs hdep
      obtain ⟨ht₁, hst₁, g, c, hc, hcdeps, hcsettled, hg, hglinks⟩ :=
        links_request ih hhost hs hlink hdep
      have hrest' : (a.dependencies ++ [(specifier, dep)]).map Prod.fst ++ rest <+: a.requests :=
        ⟨after, by simp [hnow]⟩
      obtain ⟨ht, htevolves, f, hnames, hrec, hf, hflinks⟩ :=
        ihrest hgood hat hphase hrest' hadded hlinking
      -- the tree that was linked for the specifier stays as it is
      have hbusy : t₁.record? r = some a :=
        hst₁.busy r a ha (by rw [hlinking]; rfl) fun hf => hf
      have hgrows : ∀ x b, t₁.record? x = some b → ∃ b', t.record? x = some b' ∧ b.Grows b' := by
        intro x b hb
        obtain ⟨b', hb', hbb'⟩ := State.grows_addDependencyIn hbusy hlinking specifier dep hb
        obtain ⟨b'', hb'', hbb''⟩ := htevolves.grows x b' hb'
        exact ⟨b'', hb'', hbb'.trans hbb''⟩
      obtain ⟨c', hc', hcgrows⟩ := hgrows dep c hc
      have hgt := ht₁.sound.stands_of_grows hc hcdeps hg hgrows
      refine ⟨ht, hevolves.trans htevolves, .cons specifier dep g f, ?_, ?_,
        ⟨⟨c', hc', ?_⟩, hgt, hf⟩, ?_⟩
      · rw [Forest.edges, List.map_cons, hnames]
      · rw [hrec, Forest.edges]
        simp
      · rw [hcgrows.settled hcsettled, hcdeps]
      · refine .cons rfl ha hphase hlink ((hglinks.mono (Nat.le_succ depth)).trans ?_)
        exact hflinks.of_bare (bare_addDependencyIn _ _ _ _)

end

/-- A record that is linked has below it what its edges lead to, linked in depth first order. -/
theorem links_linkModule (hhost : host.CodeFailsWithin E B) (depth : Nat) (r : RecordId)
    (s t : State σ η)
    (a : ModuleRecord σ η) (hs : s.Good host E B) (ha : s.record? r = some a)
    (hphase : a.phase = .unlinked)
    (hrun : (serve host depth (.linkModule r)).runIn s = (.ok (), t)) :
    ∃ f b, t.record? r = some b ∧ b.dependencies = Forest.edges f ∧ f.Stands t ∧
      Links host depth (f.preorder r) s t := by
  induction depth generalizing r s t a with
  | zero => simp [serve] at hrun
  | succ depth ih =>
      have hstatus : a.status = .unlinked := by rw [ModuleRecord.status, hphase]; rfl
      obtain ⟨a', ha', hunlinked⟩ := linkModule_eq_ok hrun
      obtain rfl : a = a' := by simpa [ha] using (show s.record? r = some a' from ha')
      obtain ⟨u, b, hwork, hb, rfl⟩ := hunlinked hphase
      obtain ⟨hgood, -, hnone⟩ := hs.take_linking ha hstatus
      have hrest : a.dependencies.map Prod.fst ++ a.requests <+: a.requests := by
        rw [hnone]
        exact List.prefix_refl _
      obtain ⟨hu, -, f, -, hrec, hf, hlinks⟩ := links_linkRequests ih hhost a.requests hgood
        (State.record?_setPhaseIn ha .linking) rfl hrest hwork
      have hmoved : b.phase.move .linked = .linked := by
        rw [← Option.some.inj (hrec.symm.trans hb)]
        rfl
      rw [hmoved]
      have hut : State.Evolves (· = r) u (setPhaseIn u r .linked) :=
        (State.Evolves.refl u).setPhase hrec rfl rfl .linked
      have hdeps : (a.dependencies ++ f.edges : List (String × RecordId)) = f.edges := by
        rw [hnone, List.nil_append]
      have hbegin : Links host (depth + 1) (f.preorder r) s u :=
        hlinks.of_bare (bare_setPhaseIn s r .linking)
      refine ⟨f, _, State.record?_setPhaseIn hrec _, hdeps,
        hu.sound.stands_of_grows hrec hdeps hf hut.grows, ?_⟩
      simpa using hbegin.trans (.nil (bare_setPhaseIn u r .linked))

/-! ### Linking that fails -/

section

variable {names : σ → RecordId → Prop} {known hidden : RecordId → Prop}

/-- What has been linked for some of the requests of a record is just linked and nobody knows of it,
if nobody knows what is to be hidden. -/
theorem hides_linkRequests (hhost : host.EvaluatesKnown names known) {depth : Nat}
    (specifiers : List String) {r : RecordId} {s t : State σ η} {a : ModuleRecord σ η} {f : Forest}
    (hs : s.Good host (fun _ => True) (Compiled.EvaluatesKnown names known))
    (hhides : s.Hides names known hidden) (ha : s.record? r = some a) (hphase : a.phase = .linking)
    (hrest : a.dependencies.map Prod.fst ++ specifiers <+: a.requests)
    (hrun : (linkRequests host (serve host depth) r a.referrer specifiers).runIn s = (.ok (), t))
    (hrec : t.record? r = some { a with dependencies := a.dependencies ++ f.edges })
    (hf : f.Stands t) :
    t.Good host (fun _ => True) (Compiled.EvaluatesKnown names known) ∧
      (∀ x ∈ f.postorder, ∃ c, t.record? x = some c ∧ c.status = .linked) ∧
      t.Hides names known fun x => hidden x ∨ x ∈ f.postorder := by
  obtain ⟨g, hgrec, hg, hglinked, hghides, -⟩ := forest_linkRequests
    (keepsGood_serve hhost.codeFailsWithin depth) (sparesHidden_serve hhost depth) hhost
    (State.lt_of_record? ha)
    specifiers hs (.refl s) ha hphase rfl hrest hhides hrun
  obtain ⟨ht, -⟩ := links_linkRequests (links_linkModule hhost.codeFailsWithin depth)
    hhost.codeFailsWithin
    specifiers hs ha hphase hrest hrun
  have hedges : f.edges = g.edges := by
    have hsame := hrec.symm.trans hgrec
    simpa using congrArg (Option.map ModuleRecord.dependencies) hsame
  obtain rfl := hf.unique hg hedges
  exact ⟨ht, hglinked, hghides⟩

/-- Marking a record as failed that was being linked leaves what is linked, and what is spared stays
linked until then. -/
theorem linked_setPhaseIn {m u : State σ η} {r : RecordId} {b : ModuleRecord σ η} {f : Forest}
    {phase : Phase} (hflinked : ∀ x ∈ f.postorder, ∃ c, m.record? x = some c ∧ c.status = .linked)
    (hspares : State.Spares (fun x => hidden x ∨ x ∈ f.postorder) m u) (hur : u.record? r = some b)
    (hlinking : b.status = .linking) :
    ∀ x ∈ f.postorder, ∃ c, (setPhaseIn u r phase).record? x = some c ∧ c.status = .linked := by
  intro x hx
  obtain ⟨c, hc, hclinked⟩ := hflinked x hx
  have hcu := hspares.records x c (Or.inr hx) hc (by simp [hclinked])
  have hne : c.status ≠ b.status := by simp [hclinked, hlinking]
  exact ⟨c, State.record?_setPhaseIn_of_status_ne hur hcu hne phase, hclinked⟩

end

structure Halfway (host : Host σ η) (E : Error → Prop) (B : Compiled σ η → Prop) (depth : Nat)
    (r : RecordId) (a : ModuleRecord σ η) (f : Forest) (specifier : String) (s m : State σ η) :
    Prop where
  good : m.Good host E B
  record : m.record? r = some { a with phase := .linking, dependencies := f.edges }
  stands : f.Stands m
  next : f.edges.map Prod.fst ++ [specifier] <+: a.requests
  links : Links host depth (f.preorder r) s m
  hides : ∀ (names : σ → RecordId → Prop) (known hidden : RecordId → Prop),
    host.EvaluatesKnown names known →
      s.Good host (fun _ => True) (Compiled.EvaluatesKnown names known) →
    s.Hides names known hidden →
    m.Good host (fun _ => True) (Compiled.EvaluatesKnown names known) ∧
      (∀ x ∈ f.postorder, ∃ c, m.record? x = some c ∧ c.status = .linked) ∧
      m.Hides names known fun x => hidden x ∨ x ∈ f.postorder

structure Broken (host : Host σ η) (depth : Nat) (r : RecordId) (e : Error) (d : Descent)
    (s t : State σ η) : Prop where
  stands : d.Stands host t e.message r
  follows : ∃ m, Links host depth (d.preorder r) s m ∧ Fails host depth (d.last r) e m t
  linked : ∀ (names : σ → RecordId → Prop) (known hidden : RecordId → Prop),
    host.EvaluatesKnown names known →
      s.Good host (fun _ => True) (Compiled.EvaluatesKnown names known) →
    s.Hides names known hidden → ∀ x ∈ d.done, ∃ c, t.record? x = some c ∧ c.status = .linked
  hides : ∀ (names : σ → RecordId → Prop) (known hidden : RecordId → Prop),
    host.EvaluatesKnown names known →
      s.Good host (fun _ => True) (Compiled.EvaluatesKnown names known) →
    s.Hides names known hidden → t.Hides names known fun x => hidden x ∨ x ∈ d.done

section

variable {depth : Nat} {r : RecordId} {a : ModuleRecord σ η} {s m u : State σ η}
  {specifier : String}

theorem halfway_linkRequests (hhost : host.CodeFailsWithin E B) (hs : s.Good host E B)
    (ha : s.record? r = some a) (hstatus : a.status = .unlinked) {done rest : List String}
    (hsplit : a.requests = done ++ specifier :: rest)
    (hrun : (linkRequests host (serve host depth) r a.referrer done).runIn
      (setPhaseIn s r .linking) =
      (.ok (), m)) :
    ∃ f, Halfway host E B (depth + 1) r a f specifier s m := by
  obtain ⟨hgood, -, hnone⟩ := hs.take_linking ha hstatus
  have hlinking := State.record?_setPhaseIn ha .linking
  have hbefore : a.dependencies.map Prod.fst ++ done <+: a.requests := by
    rw [hnone, hsplit]
    exact List.prefix_append _ _
  obtain ⟨hm, -, f, rfl, hrec, hf, hlinks⟩ := links_linkRequests (links_linkModule hhost depth)
    hhost done hgood hlinking rfl hbefore hrun
  refine ⟨f, hm, by simpa [hnone] using hrec, hf, ⟨rest, by simp [hsplit]⟩,
    hlinks.of_bare (bare_setPhaseIn s r .linking),
      fun names known hidden hevaluates hsgood hhides => ?_⟩
  exact hides_linkRequests hevaluates _ (hsgood.take_linking ha hstatus).1
    (hhides.setPhase ha (by simp)) hlinking rfl hbefore hrun hrec hf

namespace Halfway

variable {f : Forest} (h : Halfway host E B (depth + 1) r a f specifier s m)

include h

/-- Whatever is run, the record is still being linked, and it is one of which linking broke off if
it is then marked as failed. -/
theorem breaksOff (reason : String) (hmu : State.Follows m u) :
    u.record? r = some { a with phase := .linking, dependencies := f.edges } ∧
      State.Evolves (· = r) u (setPhaseIn u r (.errored reason)) ∧
      ({ a with phase := .errored reason, dependencies := f.edges } : ModuleRecord σ η).BreaksOff
        (setPhaseIn u r (.errored reason)) reason f specifier := by
  have hur := hmu.busy r _ h.record rfl fun hf => hf
  have hut : State.Evolves (· = r) u (setPhaseIn u r (.errored reason)) :=
    (State.Evolves.refl u).setPhase hur rfl rfl (.errored reason)
  exact ⟨hur, hut, rfl, rfl, h.next, h.good.sound.stands_of_grows h.record rfl h.stands
    ((State.Evolves.of_follows hmu).trans hut).grows⟩

/-- What was linked for the first requests is spared when the next one is linked. -/
theorem keepsHidden_of_link {o : Except Fault RecordId} {names : σ → RecordId → Prop}
    {known hidden : RecordId → Prop} (hevaluates : host.EvaluatesKnown names known)
    (hsgood : s.Good host (fun _ => True) (Compiled.EvaluatesKnown names known))
    (hhides : s.Hides names known hidden)
    (hlink : (link host (serve host depth) specifier a.referrer).runIn m = (o, u)) :
    (∀ x ∈ f.postorder, ∃ c, m.record? x = some c ∧ c.status = .linked) ∧
      State.KeepsHidden host names known (fun x => hidden x ∨ x ∈ f.postorder) m u := by
  obtain ⟨hmgood, hlinked, hmhides⟩ := h.hides names known hidden hevaluates hsgood hhides
  have hspares := sparesHidden_serve hevaluates depth
  have hleads := keepsHidden_link hspares hevaluates hmgood hmhides specifier a.referrer
  rw [Leads, hlink] at hleads
  exact ⟨hlinked, hleads.1⟩

theorem broken_of_link (hhost : host.CodeFailsWithin E B) {e : Error}
    (hlink : (link host (serve host depth) specifier a.referrer).runIn m = (.error (.error e), u)) :
    Broken host (depth + 1) r e (.stop f specifier) s (setPhaseIn u r (.errored e.message)) := by
  have hlinked := leads_link (keepsGood_serve hhost depth) hhost h.good specifier a.referrer
  have hmu := (hlinked.of_eq hlink).2
  obtain ⟨hur, -, hbroken⟩ := h.breaksOff e.message hmu
  refine ⟨⟨_, State.record?_setPhaseIn hur _, hbroken⟩,
    ⟨m, h.links, _, u, h.record, rfl, hlink, bare_setPhaseIn _ _ _⟩, ?_, ?_⟩
  · intro names known hidden hevaluates hsgood hhides
    obtain ⟨hlinked, hmu⟩ := h.keepsHidden_of_link hevaluates hsgood hhides hlink
    exact linked_setPhaseIn hlinked hmu.spares hur rfl
  · intro names known hidden hevaluates hsgood hhides
    obtain ⟨-, hmu⟩ := h.keepsHidden_of_link hevaluates hsgood hhides hlink
    exact hmu.hides.setPhase hur (by simp)

theorem broken_of_linkModule (hhost : host.CodeFailsWithin E B) {e : Error} {dep : RecordId}
    {m' : State σ η} {d : Descent}
    (hlink : (link host (serve host depth) specifier a.referrer).runIn m = (.ok dep, m'))
    (hdep : (serve host depth (.linkModule dep)).runIn m' = (.error (.error e), u))
    (hd : Broken host depth dep e d m' u) :
    Broken host (depth + 1) r e (.down f specifier dep d) s
      (setPhaseIn u r (.errored e.message)) := by
  have hkeepsGood := keepsGood_serve hhost depth
  obtain ⟨hm', hmm'⟩ := (leads_link hkeepsGood hhost h.good specifier a.referrer).of_eq hlink
  obtain ⟨hu, hm'u⟩ := (hkeepsGood.call (.linkModule dep) m' hm').of_eq hdep
  obtain ⟨hur, hut, hbroken⟩ := h.breaksOff e.message (hmm'.trans hm'u)
  obtain ⟨m₁, hlinks, hfails⟩ := hd.follows
  refine ⟨⟨?_, hd.stands.grown hu.sound hut.grows⟩,
    ⟨m₁, h.links.trans (.cons rfl h.record rfl hlink (hlinks.mono (Nat.le_succ depth))),
      hfails.mono (Nat.le_succ depth) (bare_setPhaseIn _ _ _)⟩, ?_, ?_⟩
  · -- the record that was built is still what it was built as
    obtain ⟨name, kind, m₀, rfl, rfl, htarget⟩ := link_eq_ok hlink
    have hmade := State.records_add_next m₀ (.fresh name a.referrer kind)
    obtain ⟨c, hc, hgrown⟩ := ((State.Evolves.of_follows hm'u).trans hut).grows _ _ hmade
    refine ⟨_, c, State.record?_setPhaseIn hur _, hbroken, hc, ?_⟩
    refine ModuleRecord.childOf_of_target hgrown.context hgrown.lineage ?_
    rw [hgrown.dispatch, hgrown.identifier]
    exact htarget
  · intro names known hidden hevaluates hsgood hhides x hx
    obtain ⟨hlinked, hmm'⟩ := h.keepsHidden_of_link hevaluates hsgood hhides hlink
    have hspares := sparesHidden_serve hevaluates depth
    have hm'u := (hspares.leads_linkModule hmm'.good hmm'.hides _).of_eq hdep
    rcases List.mem_append.1 hx with hx | hx
    · exact linked_setPhaseIn hlinked (hmm'.trans hm'u).spares hur rfl x hx
    · obtain ⟨c, hc, hclinked⟩ := hd.linked names known _ hevaluates hmm'.good hmm'.hides x hx
      refine ⟨c, State.record?_setPhaseIn_of_status_ne hur hc ?_ _, hclinked⟩
      rw [hclinked]
      exact (by decide : Status.linked ≠ .linking)
  · intro names known hidden hevaluates hsgood hhides
    obtain ⟨-, hmm'⟩ := h.keepsHidden_of_link hevaluates hsgood hhides hlink
    have huhides := hd.hides names known _ hevaluates hmm'.good hmm'.hides
    simp only [Descent.done, List.mem_append, ← or_assoc]
    exact huhides.setPhase hur (by simp)

end Halfway

end

/-- A record that cannot be linked is one of which linking broke off, on the way down to an edge
that could not be linked. -/
theorem fails_linkModule (hhost : host.CodeFailsWithin E B) (depth : Nat) (r : RecordId)
    (s t : State σ η)
    (a : ModuleRecord σ η) (e : Error) (hs : s.Good host E B) (ha : s.record? r = some a)
    (hphase : a.phase = .unlinked)
    (hrun : (serve host depth (.linkModule r)).runIn s = (.error (.error e), t)) :
    ∃ d, Broken host depth r e d s t := by
  induction depth generalizing r s t a with
  | zero => simp [serve] at hrun
  | succ depth ih =>
      have h := keepsGood_serve hhost depth
      have hstatus : a.status = .unlinked := by rw [ModuleRecord.status, hphase]; rfl
      obtain ⟨u, ⟨hwork, b, hb, rfl⟩ | ⟨hwork, hend⟩⟩ := linkModule_eq_error ha hphase hrun
      · -- the requests were linked up to one
        obtain ⟨done, specifier, rest, m, hsplit, hdone, hfailed⟩ := linkRequests_eq_error hwork
        obtain ⟨f, hhalfway⟩ := halfway_linkRequests hhost hs ha hstatus hsplit hdone
        have hlinked := leads_link h hhost hhalfway.good specifier a.referrer
        rcases hfailed with hlink | ⟨dep, m', hlink, hdep⟩
        · obtain ⟨hur, -⟩ := hhalfway.breaksOff e.message (hlinked.of_eq hlink).2
          obtain rfl := Option.some.inj (hur.symm.trans hb)
          exact ⟨_, hhalfway.broken_of_link hhost hlink⟩
        · obtain ⟨hm', hmm'⟩ := hlinked.of_eq hlink
          have hm'u := ((h.call (.linkModule dep) m' hm').of_eq hdep).2
          obtain ⟨hur, -⟩ := hhalfway.breaksOff e.message (hmm'.trans hm'u)
          obtain rfl := Option.some.inj (hur.symm.trans hb)
          obtain ⟨name, kind, m₀, hdep₀, rfl, -⟩ := link_eq_ok hlink
          obtain ⟨d, hd⟩ := ih dep _ u _ hm' (hdep₀ ▸ State.records_add_next m₀ _) rfl hdep
          exact ⟨_, hhalfway.broken_of_linkModule hhost hlink hdep hd⟩
      · -- the record is still being linked, so that the last move cannot fail
        obtain ⟨hgood, hevolves, hnone⟩ := hs.take_linking ha hstatus
        have hrest : a.requests = a.dependencies.map Prod.fst ++ a.requests := by
          rw [hnone]
          rfl
        obtain ⟨-, b, hb, hbphase, -⟩ := (leads_linkRequests h hhost (State.lt_of_record? ha)
          a.requests hgood hevolves (State.record?_setPhaseIn ha .linking) rfl rfl hrest).of_eq_ok
            hwork
        rw [runIn_transition_of_phase hb hbphase rfl] at hend
        simp at hend

end Linker

/-- Linking broke off of every record on the way down. -/
theorem Descent.Stands.breaksOff {host : Host σ η} {t : State σ η} {reason : String} {d : Descent}
    {r x : RecordId} (h : d.Stands host t reason r) (hx : x ∈ d.way r) :
    ∃ b done specifier, t.record? x = some b ∧ b.BreaksOff t reason done specifier := by
  induction d generalizing r with
  | stop done specifier =>
      obtain ⟨b, hb, hbroken⟩ := h
      rw [way, List.mem_singleton] at hx
      exact ⟨b, done, specifier, hx ▸ hb, hbroken⟩
  | down done specifier root rest ih =>
      obtain ⟨⟨b, c, hb, hbroken, -, -⟩, hrest⟩ := h
      rcases List.mem_cons.1 hx with rfl | hx
      · exact ⟨b, done, specifier, hb, hbroken⟩
      · exact ih hrest hx

theorem Descent.Stands.errored {host : Host σ η} {t : State σ η} {reason : String} {d : Descent}
    {r x : RecordId} (h : d.Stands host t reason r) (hx : x ∈ d.way r) :
    ∃ b, t.record? x = some b ∧ b.phase = .errored reason := by
  obtain ⟨b, done, specifier, hb, hbroken⟩ := h.breaksOff hx
  exact ⟨b, hb, hbroken.phase⟩

/-- If a record cannot be linked then there is a way down from it to the edge that could not be
linked, and the edges before that in depth first order were linked one after the other. Nothing is
done after it. The records on the way have failed with the error, and keep what had been linked for
them. A record among those is just linked, unless code has reached and evaluated it. -/
theorem linking_stops_at_first_failure (host : Host σ η) (store : σ) (depth : Nat)
    (p : Program σ η α) (s : State σ η) (hs : s = (host.exec depth p (State.initial store)).2)
    (r : RecordId) (a : ModuleRecord σ η) (ha : s.records[r.index]? = some a)
    (hunlinked : a.status = .unlinked) (depth' : Nat) (e : Error) (t : State σ η)
    (hrun : (serve host depth' (.linkModule r)).runIn s = (.error (.error e), t)) :
    ∃ d : Descent,
      (∃ m, Linker.Links host depth' (d.preorder r) s m ∧
        Linker.Fails host depth' (d.last r) e m t) ∧
      d.Stands host t e.message r ∧
      (∀ x ∈ d.way r, ∃ b, t.records[x.index]? = some b ∧ b.phase = .errored e.message) ∧
      (∀ x ∈ d.done, ∃ b, t.records[x.index]? = some b ∧ b.Unfolds host t a.context) ∧
      ∀ names : σ → RecordId → Prop, (∀ x, names s.store x → x.index < s.records.size) →
        host.EvaluatesKnown names (fun x => x.index < s.records.size) →
        ∀ x ∈ d.done, ∃ b, t.records[x.index]? = some b ∧ b.status = .linked := by
  have ha : s.record? r = some a := ha
  have hfree := host.failsWithin_true.codeFailsWithin fun _ _ => trivial
  have hgood : s.Good host (fun _ => True) (Compiled.FailsWithin fun _ => True) :=
    hs ▸ host.good_exec hfree depth (p.failsWithin_of_forall fun _ => trivial) store
  obtain ⟨d, hd, hfails, hlinked⟩ :=
    Linker.fails_linkModule hfree depth' r s t a e hgood ha
      ((hgood.formed ha).eq_of_status hunlinked rfl) hrun
  obtain ⟨ht, hst⟩ := ((keepsGood_serve hfree depth').call (.linkModule r) s hgood).of_eq hrun
  obtain ⟨b, hb, hgrows⟩ := hst.grows r a ha
  refine ⟨d, hfails, hd, fun x hx => hd.errored hx, fun x hx => ?_,
    fun names hnames hevaluates => ?_⟩
  · rw [← hgrows.context]
    exact hd.unfolds ht.sound hb hx
  · -- nothing needs to be hidden for nobody to know of what is still to be made
    have hdgood : s.Good host (fun _ => True)
        (Compiled.EvaluatesKnown names fun x => x.index < s.records.size) := by
      have hexec := host.good_exec hevaluates.codeFailsWithin depth
        (p.failsWithin_of_forall fun _ => trivial) store
      rwa [← hs] at hexec
    exact hlinked names _ _ hevaluates hdgood (State.hides_nothing hnames)

/-- A scripted world with two files. The first imports a built-in and the second, and the second
imports the built-in and a file that is not there. -/
def brokenWorld : Host Scripted.Session Scripted.HookPlan :=
  Scripted.host
    ⟨[(["a.mjs"],
        .file (some "[[\"import\", \"b\"], [\"import\", \"./c.mjs\"], [\"import\", \"b\"]]")),
      (["c.mjs"], .file (some "[[\"import\", \"b\"], [\"import\", \"./d.mjs\"]]"))]⟩
    {} ⟨"node:", [("b", .constant .undefined)]⟩ none ⟨0⟩

/-- Linking the first file fails as the file that is not there cannot be read. The files are
errored, with one dependency each of which the other requests are none, and these two are linked. -/
theorem linking_stops_at_first_failure_brokenWorld :
    let s := (brokenWorld.exec 1 twiceBuild (State.initial .initial)).2
    let t := ((serve brokenWorld 3 (.linkModule ⟨0⟩)).runIn s).2
    let e := Error.sourceRead ⟨"/d.mjs"⟩ .notFound
    t.records.toList.map (fun b => (b.identifier, b.status, b.dependencies)) =
        [("/a.mjs", .errored, [("b", ⟨1⟩)]), ("b", .linked, []),
          ("/c.mjs", .errored, [("b", ⟨3⟩)]), ("b", .linked, [])] ∧
      ∃ d : Descent,
        (∃ m, Linker.Links brokenWorld 3 (d.preorder ⟨0⟩) s m ∧
          Linker.Fails brokenWorld 3 (d.last ⟨0⟩) e m t) ∧
        d.Stands brokenWorld t e.message ⟨0⟩ ∧
        ∀ x ∈ d.done, ∃ b, t.records[x.index]? = some b ∧ b.status = .linked := by
  intro s t e
  have hbefore : s.records[0]?.map ModuleRecord.status = some .unlinked := by decide +kernel
  obtain ⟨a, ha, hunlinked⟩ := Option.map_eq_some_iff.1 hbefore
  have hend : error? ((serve brokenWorld 3 (.linkModule ⟨0⟩)).runIn s).1 = some e := by
    decide +kernel
  have hrun : (serve brokenWorld 3 (.linkModule ⟨0⟩)).runIn s = (.error (.error e), t) :=
    runIn_eq_error_of_error? hend
  refine ⟨by decide +kernel, ?_⟩
  have hs : s = (brokenWorld.exec 1 twiceBuild (State.initial .initial)).2 := rfl
  clear_value t
  clear_value s
  obtain ⟨d, hfails, hd, -, -, hlinked⟩ := linking_stops_at_first_failure brokenWorld .initial 1
    twiceBuild s hs ⟨0⟩ a ha hunlinked 3 e t hrun
  exact ⟨d, hfails, hd, hlinked _ (fun _ hx => hx.elim)
    (Scripted.evaluatesKnown_constant _ _ _ _ _ _)⟩

/-- The third request of the module fails, and what was linked for the first has been evaluated by
then. The script in the cache has been required by none of them. -/
theorem linked_prefix_is_evaluated :
    let s := (reentrantWorld.exec 2 (reentrantBuild "/broken.mjs") (State.initial none)).2
    let linked := (serve reentrantWorld 4 (.linkModule ⟨0⟩)).runIn s
    s.records.toList.map ModuleRecord.status = [.unlinked] ∧
    error? linked.1 = some (.sourceRead ⟨"/d.mjs"⟩ .notFound) ∧
    linked.2.records.toList.map (fun b => (b.identifier, b.status, b.dependencies)) =
      [("/broken.mjs", .errored, [("./c.mjs", ⟨1⟩), ("b", ⟨2⟩)]), ("/c.mjs", .evaluated, []),
        ("b", .linked, [])] ∧
    linked.2.cache.contains ⟨"/z.cjs"⟩ := by
  decide +kernel

end ModuleLoader
