import ModuleLoader.Proofs.Depth
import ModuleLoader.Proofs.Path.Lookup
import ModuleLoader.Proofs.Path.Place
/-!
Static cycles.

An import that leads back to a module on the chain of its importer is to be
reported, not followed. The test compares texts: the path that the specifier
was resolved to, and the identifiers on the chain. An identifier is always
canonical, since the path found for a source module is resolved a second time
before the record is made, and that normalises it. So the test is right exactly
where the first resolution gives a canonical path, and the one case in which it
does not is a blurred specifier.

Such a specifier slips through. It may name a module on the chain in a spelling
that no identifier has, and then that module is built again below itself, where
it requests the same again. Everything here is therefore said of graphs in which
no edge slips, together with what an edge has to be like to slip.
-/

namespace ModuleLoader

open Path

variable {σ η : Type}

namespace Linker

variable {host : Host σ η} {entry : Path} {context : ContextId}

/-! ### The static graph -/

/-- The records of the static graph below an entry, as they are when they are made: the one that is
built for the entry, and whatever linking makes of a request of one of them. -/
inductive Below (host : Host σ η) (entry : Path) (context : ContextId) : ModuleRecord σ η → Prop
  | entry {serve : (c : Call) → Eff σ η c.Reply} {s s' : State σ η} {r : RecordId}
      {record : ModuleRecord σ η} :
      (buildSource host serve entry.text (.root entry.text context)).runIn s = (.ok r, s') →
      s'.records[r.index]? = some record → Below host entry context record
  | link {parent : ModuleRecord σ η} {specifier : String} {serve : (c : Call) → Eff σ η c.Reply}
      {s s' : State σ η} {r : RecordId} {record : ModuleRecord σ η} :
      Below host entry context parent → specifier ∈ parent.requests →
      (link host serve specifier parent.referrer).runIn s = (.ok r, s') →
      s'.records[r.index]? = some record → Below host entry context record

/-- The edge leads back: the specifier was found to mean a source file at a path, and the module of
that file is on the chain of the referrer. -/
structure LeadsBack (host : Host σ η) (specifier : String) (referrer : Referrer) (p : Path) :
    Prop where
  notBuiltin : host.linkerBuiltins.isBuiltin specifier = false
  found : ∃ location, resolve host specifier referrer = .ok location ∧ location.path? = some p
  source : host.config.detect host.files p = .ok (some .source)
  onChain : p.normalize.text ∈ referrer.lineage

/-- The edge leads back under another spelling, and a record is built for it nevertheless. -/
def Slips (host : Host σ η) (specifier : String) (referrer : Referrer) : Prop :=
  ∃ p, LeadsBack host specifier referrer p ∧ p.normalize ≠ p ∧
    ∃ (serve : (c : Call) → Eff σ η c.Reply) (s s' : State σ η) (r : RecordId),
      (link host serve specifier referrer).runIn s = (.ok r, s')

/-! ### What is found, and how it is spelled -/

theorem resolveFile_eq_ok {specifier : String} {referrer : Referrer} {p : Path} :
    resolveFile host specifier referrer = .ok p ↔
      ∃ location, resolve host specifier referrer = .ok location ∧ location.path? = some p := by
  unfold resolveFile
  cases resolve host specifier referrer with
  | error e => simp [bind, Except.bind]
  | ok location =>
      cases hp : location.path? with
      | none => simp [bind, Except.bind, hp]
      | some q => simp [bind, Except.bind, hp]

/-- Whoever has a file found for a specifier has an absolute path for a name. -/
theorem isAbsolute_of_resolve {specifier : String} {referrer : Referrer} {location : Location}
    {p : Path} (h : resolve host specifier referrer = .ok location) (hp : location.path? = some p) :
    (⟨referrer.identifier⟩ : Path).isAbsolute = true := by
  unfold resolve Location.resolve at h
  dsimp only at h
  split at h
  · cases h
    simp [Location.path?] at hp
  split at h
  · simp at h
  · rename_i habs
    simpa using habs

theorem resolveFile_of_isAbsolute {specifier : String} {referrer : Referrer} {p : Path}
    (habs : (⟨specifier⟩ : Path).isAbsolute = true)
    (h : resolveFile host specifier referrer = .ok p) : p = (⟨specifier⟩ : Path).normalize := by
  obtain ⟨location, hresolve, hp⟩ := resolveFile_eq_ok.1 h
  unfold resolve Location.resolve at hresolve
  dsimp only at hresolve
  split at hresolve
  · cases hresolve
    simp [Location.path?] at hp
  split at hresolve
  · simp at hresolve
  cases hresolve
  exact (Option.some.inj hp).symm

/-- A new source record for an absolute path has the normal form of the path for a name, and there
is a file at it. -/
theorem source_of_isAbsolute {serve : (c : Call) → Eff σ η c.Reply} {p : Path}
    {referrer : Referrer} {s s' : State σ η} {r : RecordId} {record : ModuleRecord σ η}
    (habs : p.isAbsolute = true)
    (h : (buildSource host serve p.text referrer).runIn s = (.ok r, s'))
    (hr : s'.records[r.index]? = some record) :
    record.identifier = p.normalize.text ∧
      record.lineage = referrer.lineage ∧ host.files.Holds record.identifier := by
  obtain ⟨q, text, url, compiled, _, m, hq, hread, -, -, rfl, rfl⟩ := buildSource_eq_ok h
  rw [State.records_add_next, Option.some.injEq] at hr
  subst hr
  have hpath : q = p.normalize := resolveFile_of_isAbsolute habs hq
  subst hpath
  exact ⟨rfl, rfl, FileTree.holds_of_read (canonical_normalize habs) hread⟩

/-- A record of source that is linked was found at an absolute path, and is built for that path. -/
theorem link_source {serve : (c : Call) → Eff σ η c.Reply} {specifier : String}
    {referrer : Referrer} {s s' : State σ η} {r : RecordId} {record : ModuleRecord σ η}
    (h : (link host serve specifier referrer).runIn s = (.ok r, s'))
    (hr : s'.records[r.index]? = some record) (hsource : record.dispatch = .source) :
    ∃ p, host.linkerBuiltins.isBuiltin specifier = false ∧
      (∃ location, resolve host specifier referrer = .ok location ∧ location.path? = some p) ∧
      host.config.detect host.files p = .ok (some .source) ∧ p.text ∉ referrer.lineage ∧
      p.isAbsolute = true ∧ (buildSource host serve p.text referrer).runIn s = (.ok r, s') := by
  rw [link_eq_plan] at h
  obtain ⟨⟨d, name⟩, _, hok, hbuild⟩ := Eff.runIn_bind_eq_ok.1 h
  obtain ⟨hplan, rfl⟩ := Eff.runIn_ofExcept_eq_ok.1 hok
  obtain ⟨_, _, m, -, hd, rfl, rfl⟩ := build_eq_ok hbuild
  rw [State.records_add_next, Option.some.injEq] at hr
  subst hr
  obtain rfl : d = .source := hd.symm.trans hsource
  obtain ⟨location, p, hbuiltin, hresolve, hp, hdetect, hchain, rfl⟩ := plan_eq_source hplan
  have habs := (Location.spelling_of_resolve hresolve hp).1
  exact ⟨p, hbuiltin, ⟨location, hresolve, hp⟩, hdetect, hchain, habs, hbuild⟩

/-! ### Chains -/

variable {record parent : ModuleRecord σ η}

/-- Only source records request anything. -/
theorem dispatch_of_mem_requests {specifier : String} (h : specifier ∈ parent.requests) :
    parent.dispatch = .source := by
  unfold ModuleRecord.dispatch
  cases hkind : parent.kind with
  | source m => rfl
  | synthetic m => simp [ModuleRecord.requests, hkind] at h

/-- A record that is linked has the chain of its referrer for a lineage. -/
theorem lineage_of_link {serve : (c : Call) → Eff σ η c.Reply} {specifier : String}
    {referrer : Referrer} {s s' : State σ η} {r : RecordId}
    (h : (link host serve specifier referrer).runIn s = (.ok r, s'))
    (hr : s'.records[r.index]? = some record) : record.lineage = referrer.lineage := by
  obtain ⟨name, kind, m, rfl, rfl, -⟩ := link_eq_ok h
  rw [State.records_add_next, Option.some.injEq] at hr
  rw [← hr]
  rfl

/-- Every module on a chain is a file, and so is every source module at its end. -/
theorem Below.holds (h : Below host entry context record) :
    (∀ c ∈ record.lineage, host.files.Holds c) ∧
      (record.dispatch = .source → host.files.Holds record.identifier) := by
  induction h with
  | entry hbuild hr =>
      obtain ⟨p, _, _, _, _, _, hp, -⟩ := buildSource_eq_ok hbuild
      obtain ⟨location, hresolve, hpath⟩ := resolveFile_eq_ok.1 hp
      have habs : entry.isAbsolute = true := isAbsolute_of_resolve hresolve hpath
      obtain ⟨-, hlineage, hholds⟩ := source_of_isAbsolute habs hbuild hr
      rw [hlineage]
      exact ⟨by simp [Referrer.root], fun _ => hholds⟩
  | @link parent specifier _ _ _ _ record _ hmem hlink hr ih =>
      have hparent := ih.2 (dispatch_of_mem_requests hmem)
      have hlineage : record.lineage = parent.chain := lineage_of_link hlink hr
      refine ⟨?_, fun hsource => ?_⟩
      · intro c hc
        rw [hlineage] at hc
        rcases List.mem_append.1 hc with hc | hc
        · exact ih.1 c hc
        · rw [List.mem_singleton.1 hc]
          exact hparent
      · obtain ⟨p, -, -, -, -, habs, hbuild⟩ := link_source hlink hr hsource
        exact (source_of_isAbsolute habs hbuild hr).2.2

theorem Below.canonical_of_mem_chain (h : Below host entry context parent)
    (hsource : parent.dispatch = .source) {c : String} (hc : c ∈ parent.chain) :
    Canonical ⟨c⟩ := by
  rcases List.mem_append.1 hc with hc | hc
  · exact (h.holds.1 c hc).canonical
  · rw [List.mem_singleton.1 hc]
    exact (h.holds.2 hsource).canonical

/-! ### Edges that lead back -/

theorem LeadsBack.plan_eq {specifier : String} {referrer : Referrer} {p : Path}
    (h : LeadsBack host specifier referrer p) :
    plan host specifier referrer =
      if p.text ∈ referrer.lineage then .error (.circularImport (referrer.lineage ++ [p.text]))
      else .ok (.source, p.text) := by
  obtain ⟨location, hresolve, hp⟩ := h.found
  simp [plan, h.notBuiltin, hresolve, hp, h.source]

/-- An edge that leads back to a canonical path is reported, before anything is read or run. -/
theorem LeadsBack.link_eq_fail {specifier : String} {referrer : Referrer} {p : Path}
    (h : LeadsBack host specifier referrer p) (hp : p.normalize = p)
    (serve : (c : Call) → Eff σ η c.Reply) :
    link host serve specifier referrer =
      Eff.fail (.circularImport (referrer.lineage ++ [p.text])) := by
  have hmem : p.text ∈ referrer.lineage := hp ▸ h.onChain
  rw [link_eq_plan, h.plan_eq, if_pos hmem]
  rfl

/-- An edge that leads back to any other path has a blurred specifier, and the module is built. -/
theorem LeadsBack.link_eq_buildSource (hparent : Below host entry context parent)
    {specifier : String} (hmem : specifier ∈ parent.requests) {p : Path}
    (h : LeadsBack host specifier parent.referrer p) (hp : p.normalize ≠ p) :
    RequireId.Blurred specifier ∧ p.isAbsolute = true ∧
      ∀ serve : (c : Call) → Eff σ η c.Reply, link host serve specifier parent.referrer =
        buildSource host serve p.text parent.referrer := by
  have hsource := dispatch_of_mem_requests hmem
  obtain ⟨location, hresolve, hpath⟩ := h.found
  have hreferrer : Canonical ⟨parent.referrer.identifier⟩ := (hparent.holds.2 hsource).canonical
  obtain ⟨habs, hspelled⟩ := Location.spelling_of_resolve hresolve hpath
  have hchain : p.text ∉ parent.referrer.lineage := fun hc =>
    hp (hparent.canonical_of_mem_chain hsource hc).normalize_eq
  refine ⟨(hspelled hreferrer).resolve_left fun hc => hp hc.normalize_eq, habs, fun serve => ?_⟩
  rw [link_eq_plan, h.plan_eq, if_neg hchain]
  rfl

/-- What is built for an edge that slips has its name in its lineage. -/
theorem LeadsBack.mem_lineage (hparent : Below host entry context parent) {specifier : String}
    (hmem : specifier ∈ parent.requests) {p : Path}
    (h : LeadsBack host specifier parent.referrer p) (hp : p.normalize ≠ p)
    {serve : (c : Call) → Eff σ η c.Reply} {s s' : State σ η} {r : RecordId}
    (hlink : (link host serve specifier parent.referrer).runIn s = (.ok r, s'))
    (hr : s'.records[r.index]? = some record) : record.identifier ∈ record.lineage := by
  obtain ⟨-, habs, hbuild⟩ := h.link_eq_buildSource hparent hmem hp
  rw [hbuild] at hlink
  obtain ⟨hid, hlineage, -⟩ := source_of_isAbsolute habs hlink hr
  rw [hid, hlineage]
  exact h.onChain

theorem LeadsBack.dispatch_eq (hparent : Below host entry context parent) {specifier : String}
    (hmem : specifier ∈ parent.requests) {p : Path}
    (h : LeadsBack host specifier parent.referrer p) (hp : p.normalize ≠ p)
    {serve : (c : Call) → Eff σ η c.Reply} {s s' : State σ η} {r : RecordId}
    (hlink : (link host serve specifier parent.referrer).runIn s = (.ok r, s'))
    (hr : s'.records[r.index]? = some record) : record.dispatch = .source := by
  obtain ⟨-, -, hbuild⟩ := h.link_eq_buildSource hparent hmem hp
  rw [hbuild] at hlink
  obtain ⟨_, _, _, _, _, m, -, -, -, -, rfl, rfl⟩ := buildSource_eq_ok hlink
  rw [State.records_add_next, Option.some.injEq] at hr
  rw [← hr]
  rfl

/-! ### The law -/

/-- No edge below the entry slips. -/
def NoSlips (host : Host σ η) (entry : Path) (context : ContextId) : Prop :=
  ∀ parent, Below host entry context parent → ∀ specifier ∈ parent.requests,
    ¬ Slips host specifier parent.referrer

theorem NoSlips.not_mem_lineage (hnoSlips : NoSlips host entry context)
    (h : Below host entry context record) (hsource : record.dispatch = .source) :
    record.identifier ∉ record.lineage := by
  cases h with
  | entry hbuild hr =>
      obtain ⟨_, _, _, _, _, m, -, -, -, -, rfl, rfl⟩ := buildSource_eq_ok hbuild
      rw [State.records_add_next, Option.some.injEq] at hr
      rw [← hr]
      simp [ModuleRecord.fresh, Referrer.root]
  | @link parent specifier serve s s' r _ hparent hmem hlink hr =>
      obtain ⟨p, hbuiltin, hfound, hdetect, hchain, habs, hbuild⟩ := link_source hlink hr hsource
      obtain ⟨hid, hlineage, -⟩ := source_of_isAbsolute habs hbuild hr
      rw [hid, hlineage]
      intro hback
      refine hnoSlips parent hparent specifier hmem ⟨p, ⟨hbuiltin, hfound, hdetect, hback⟩, ?_, ?_⟩
      · intro hp
        have hback : p.normalize.text ∈ parent.referrer.lineage := hback
        exact hchain (hp ▸ hback)
      · exact ⟨serve, s, s', r, hlink⟩

/-- The chain of a source module names different files. -/
theorem NoSlips.nodup_chain (hnoSlips : NoSlips host entry context)
    (h : Below host entry context record) :
    record.lineage.Nodup ∧ (record.dispatch = .source → record.chain.Nodup) := by
  have hchain : ∀ record : ModuleRecord σ η, Below host entry context record →
      record.lineage.Nodup → record.dispatch = .source → record.chain.Nodup := by
    intro record h hlineage hsource
    refine List.Nodup.append hlineage (List.nodup_singleton _) ?_
    rw [List.disjoint_singleton]
    exact hnoSlips.not_mem_lineage h hsource
  suffices hlineage : record.lineage.Nodup from ⟨hlineage, hchain record h hlineage⟩
  induction h with
  | entry hbuild hr =>
      obtain ⟨_, _, _, _, _, m, -, -, -, -, rfl, rfl⟩ := buildSource_eq_ok hbuild
      rw [State.records_add_next, Option.some.injEq] at hr
      rw [← hr]
      exact List.nodup_nil
  | @link parent specifier _ _ _ _ record hparent hmem hlink hr ih =>
      have hlineage : record.lineage = parent.chain := lineage_of_link hlink hr
      rw [hlineage]
      exact hchain parent hparent ih (dispatch_of_mem_requests hmem)

theorem NoSlips.length_chain (hnoSlips : NoSlips host entry context)
    (h : Below host entry context record) (hsource : record.dispatch = .source) :
    record.chain.length ≤ host.files.fileCount := by
  refine FileTree.length_le_fileCount ((hnoSlips.nodup_chain h).2 hsource) fun c hc => ?_
  rcases List.mem_append.1 hc with hc | hc
  · exact h.holds.1 c hc
  · rw [List.mem_singleton.1 hc]
    exact h.holds.2 hsource

end Linker

end ModuleLoader
