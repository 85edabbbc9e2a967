import ModuleLoader.Proofs.Cycle
import ModuleLoader.Proofs.Growth
/-!
What kind of record a link makes.

A built-in specifier is wrapped and keeps its spelling. Any other is first
resolved to a path, and the format of the file at that path decides. The path is
then handed on as text, and whoever builds the record asks once more whether
this is a built-in and where it leads. The two answers agree: the path is
absolute, so as a specifier it means itself in normal form, whatever the
referrer; and a table of built-ins that happens to know the path as a name has a
say in what is wrapped, but not in what kind of record is made.
-/

namespace ModuleLoader

variable {σ η : Type}

theorem Location.exists_path? {Provider : Type} {builtins : Registry Provider}
    {packages : String → Path → Except Error Path} {specifier referrer : String}
    {location : Location} (hbuiltin : builtins.isBuiltin specifier = false)
    (h : Location.resolve builtins packages specifier referrer = .ok location) :
    ∃ p, location.path? = some p := by
  unfold Location.resolve at h
  simp only [hbuiltin, Bool.false_eq_true, if_false] at h
  split at h
  · cases h
  split at h
  · cases h
    exact ⟨_, rfl⟩
  split at h
  · cases h
    exact ⟨_, rfl⟩
  · cases hpackage : packages specifier ⟨referrer⟩ with
    | error e => simp [hpackage, Except.map] at h
    | ok p =>
        rw [hpackage] at h
        cases h
        exact ⟨p, rfl⟩

namespace Linker

variable {host : Host σ η} {serve : (c : Call) → Eff σ η c.Reply} {specifier : String}
  {referrer : Referrer} {s t : State σ η} {r : RecordId}

/-! ### Where the specifier leads -/

/-- The specifier is no built-in of the linker, and leads to a file. -/
structure LeadsTo (host : Host σ η) (specifier : String) (referrer : Referrer) (p : Path) :
    Prop where
  notBuiltin : host.linkerBuiltins.isBuiltin specifier = false
  resolved : ∃ location, resolve host specifier referrer = .ok location ∧ location.path? = some p

/-- The path is absolute, from wherever the specifier was resolved. -/
theorem LeadsTo.isAbsolute {p : Path} (h : LeadsTo host specifier referrer p) :
    p.isAbsolute = true := by
  obtain ⟨location, hresolve, hp⟩ := h.resolved
  exact (Location.spelling_of_resolve hresolve hp).1

/-- A specifier leads to at most one file. -/
theorem LeadsTo.eq {p q : Path} (hp : LeadsTo host specifier referrer p)
    (hq : LeadsTo host specifier referrer q) : p = q := by
  obtain ⟨location, hresolve, hp⟩ := hp.resolved
  obtain ⟨location', hresolve', hq⟩ := hq.resolved
  rw [hresolve] at hresolve'
  cases hresolve'
  exact Option.some.inj (hp.symm.trans hq)

theorem LeadsTo.plan_eq {p : Path} (h : LeadsTo host specifier referrer p) :
    plan host specifier referrer =
      match host.config.detect host.files p with
      | .error e => .error e
      | .ok none => .error (.unsupportedFormat specifier)
      | .ok (some .synthetic) => .ok (.synthetic, p.text)
      | .ok (some .source) =>
        if referrer.lineage.contains p.text then
          .error (.circularImport (referrer.lineage ++ [p.text]))
        else .ok (.source, p.text) := by
  obtain ⟨location, hresolve, hp⟩ := h.resolved
  rw [plan, h.notBuiltin, hresolve]
  dsimp only
  rw [hp]
  rfl

/-- What is to be built is what the format of the file asks for, and the builder is given the path.
-/
theorem LeadsTo.plan_eq_ok {p : Path} (h : LeadsTo host specifier referrer p) {d : Dispatch}
    {name : String} (hplan : plan host specifier referrer = .ok (d, name)) :
    host.config.detect host.files p = .ok (some d) ∧ name = p.text := by
  rw [h.plan_eq] at hplan
  split at hplan
  · cases hplan
  · cases hplan
  · cases hplan
    exact ⟨by assumption, rfl⟩
  · split at hplan
    · cases hplan
    · cases hplan
      exact ⟨by assumption, rfl⟩

theorem target_eq_ok {d : Dispatch} {name : String}
    (h : target host specifier referrer = .ok (d, name)) :
    ∃ given, plan host specifier referrer = .ok (d, given) ∧
      builtName host d given referrer = .ok name := by
  unfold target at h
  cases hplan : plan host specifier referrer with
  | error e => simp [hplan] at h
  | ok planned =>
      rw [hplan] at h
      cases hname : builtName host planned.1 planned.2 referrer with
      | error e => simp [hname, Except.map] at h
      | ok built =>
          obtain ⟨rfl, rfl⟩ : planned.1 = d ∧ built = name := by simpa [hname, Except.map] using h
          exact ⟨planned.2, rfl, hname⟩

/-- A record that is built for an absolute path has its normal form for a name, unless the path is
the name of a built-in that is wrapped in its place. -/
theorem builtName_of_isAbsolute {p : Path} (hp : p.isAbsolute = true) {d : Dispatch} {name : String}
    (h : builtName host d p.text referrer = .ok name) :
    name = p.normalize.text ∨
      d = .synthetic ∧ host.linkerBuiltins.isBuiltin p.text = true ∧ name = p.text := by
  have hfile (h : (resolveFile host p.text referrer).map Path.text = .ok name) :
      name = p.normalize.text := by
    cases hq : resolveFile host p.text referrer with
    | error e => simp [hq, Except.map] at h
    | ok q =>
        rw [hq] at h
        rw [← Except.ok.inj h, resolveFile_of_isAbsolute hp hq]
  cases d with
  | source => exact .inl (hfile h)
  | synthetic =>
      unfold builtName at h
      dsimp only at h
      split at h
      · exact .inr ⟨rfl, by assumption, (Except.ok.inj h).symm⟩
      · exact .inl (hfile h)

/-! ### What is made -/

theorem runIn_link_of_plan_eq_error {e : Error} (h : plan host specifier referrer = .error e)
    (serve : (c : Call) → Eff σ η c.Reply) (s : State σ η) :
    (link host serve specifier referrer).runIn s = (.error (.error e), s) := by
  rw [link_eq_plan, h]
  rfl

/-- The format decides which kind of record a link makes, and whether it makes one. The record is
not linked yet and has nothing put down about it. A built-in goes by its specifier as it is written,
and a file by the normal form of its path, except where the path as it was found names a built-in.
-/
theorem link_follows_format (host : Host σ η) (serve : (c : Call) → Eff σ η c.Reply)
    (specifier : String) (referrer : Referrer) (s : State σ η) :
    (∀ r t, (link host serve specifier referrer).runIn s = (.ok r, t) →
      ∃ record, t.record? r = some record ∧
        record.status = .unlinked ∧ record.dependencies = [] ∧ record.phase.namespace? = none ∧
        record.phase.failure? = none ∧ record.context = referrer.context ∧
        record.lineage = referrer.lineage ∧
        (host.linkerBuiltins.isBuiltin specifier = true →
          record.dispatch = .synthetic ∧ record.identifier = specifier) ∧
        (host.linkerBuiltins.isBuiltin specifier = false → ∃ p, LeadsTo host specifier referrer p ∧
          host.config.detect host.files p = .ok (some record.dispatch) ∧
          (record.identifier = p.normalize.text ∨ record.dispatch = .synthetic ∧
            host.linkerBuiltins.isBuiltin p.text = true ∧ record.identifier = p.text))) ∧
    (host.linkerBuiltins.isBuiltin specifier = false →
      (∃ p, LeadsTo host specifier referrer p) ∨ ∃ e, resolve host specifier referrer = .error e ∧
        (link host serve specifier referrer).runIn s = (.error (.error e), s)) ∧
    ∀ p, LeadsTo host specifier referrer p →
      (host.config.detect host.files p = .ok none →
        (link host serve specifier referrer).runIn s =
          (.error (.error (.unsupportedFormat specifier)), s)) ∧
      ∀ e, host.config.detect host.files p = .error e →
        (link host serve specifier referrer).runIn s = (.error (.error e), s) := by
  refine ⟨fun r t hlink => ?_, fun hbuiltin => ?_,
    fun p hp => ⟨fun hdetect => ?_, fun e hdetect => ?_⟩⟩
  · obtain ⟨name, kind, m, rfl, rfl, htarget⟩ := link_eq_ok hlink
    obtain ⟨given, hplan, hname⟩ := target_eq_ok htarget
    refine ⟨_, State.records_add_next m _, rfl, rfl, rfl, rfl, rfl, rfl, fun hbuiltin => ?_,
      fun hbuiltin => ?_⟩
    · rw [plan, if_pos hbuiltin, Except.ok.injEq, Prod.mk.injEq] at hplan
      obtain ⟨hkind, rfl⟩ := hplan
      rw [← hkind, builtName, if_pos hbuiltin] at hname
      exact ⟨hkind.symm, (Except.ok.inj hname).symm⟩
    · cases hresolve : resolve host specifier referrer with
      | error e => simp [plan, hbuiltin, hresolve] at hplan
      | ok location =>
          obtain ⟨p, hp⟩ := Location.exists_path? hbuiltin hresolve
          have hleads : LeadsTo host specifier referrer p := ⟨hbuiltin, location, hresolve, hp⟩
          obtain ⟨hdetect, rfl⟩ := hleads.plan_eq_ok hplan
          exact ⟨p, hleads, hdetect, builtName_of_isAbsolute hleads.isAbsolute hname⟩
  · cases hresolve : resolve host specifier referrer with
    | error e =>
        refine .inr ⟨e, rfl, runIn_link_of_plan_eq_error ?_ serve s⟩
        rw [plan, hbuiltin, hresolve]
        rfl
    | ok location =>
        obtain ⟨p, hp⟩ := Location.exists_path? hbuiltin hresolve
        exact .inl ⟨p, hbuiltin, location, hresolve, hp⟩
  · exact runIn_link_of_plan_eq_error (by rw [hp.plan_eq, hdetect]) serve s
  · exact runIn_link_of_plan_eq_error (by rw [hp.plan_eq, hdetect]) serve s

def formatsWorld : Host Unit Empty where
  files := ⟨[(["code.mjs"], .file (some "")), (["old.cjs"], .file (some "")),
    (["notes.txt"], .file (some ""))]⟩
  config := {}
  builtins := ⟨"node:", [("path", .done .undefined)]⟩
  linkerBuiltins? := none
  scriptContext := ⟨0⟩
  compile _ _ := pure ⟨[], fun _ => Script.perform (.newNamespace .empty)⟩
  runScript _ _ := pure ()
  hook h := nomatch h
  lookup? := none

def linkFormat (specifier : String) : Except Fault RecordId × State Unit Empty :=
  (link formatsWorld (ModuleLoader.serve formatsWorld 1) specifier (.root "/main.mjs" ⟨0⟩)).runIn
    (.initial ())

/-- A module, a script and a built-in become what they are to become, and a file of text is refused.
-/
theorem link_follows_format_formatsWorld :
    (∃ r t, linkFormat "./code.mjs" = (.ok r, t) ∧
      (t.record? r).map ModuleRecord.dispatch = some .source) ∧
    (∃ r t, linkFormat "./old.cjs" = (.ok r, t) ∧
      (t.record? r).map ModuleRecord.dispatch = some .synthetic) ∧
    (∃ r t, linkFormat "node:path" = (.ok r, t) ∧
      (t.record? r).map ModuleRecord.identifier = some "node:path") ∧
    linkFormat "./notes.txt" =
      (.error (.error (.unsupportedFormat "./notes.txt")), State.initial ()) := by
  have hlaw (specifier : String) := link_follows_format formatsWorld
    (ModuleLoader.serve formatsWorld 1) specifier (.root "/main.mjs" ⟨0⟩) (.initial ())
  have hok {specifier : String} (h : (linkFormat specifier).1.toOption = some ⟨0⟩) :
      linkFormat specifier = (.ok ⟨0⟩, (linkFormat specifier).2) := Eff.runIn_eq_ok_of_toOption h
  have hleads (specifier : String) (p : Path)
      (h : formatsWorld.linkerBuiltins.isBuiltin specifier = false ∧
        resolve formatsWorld specifier (.root "/main.mjs" ⟨0⟩) = .ok (.file p)) :
      LeadsTo formatsWorld specifier (.root "/main.mjs" ⟨0⟩) p := ⟨h.1, _, h.2, rfl⟩
  have hkind (specifier : String) (p : Path) (d : Dispatch)
      (h : LeadsTo formatsWorld specifier (.root "/main.mjs" ⟨0⟩) p)
      (hdetect : formatsWorld.config.detect formatsWorld.files p = .ok (some d))
      (hrun : (linkFormat specifier).1.toOption = some ⟨0⟩) :
      ∃ r t, linkFormat specifier = (.ok r, t) ∧
        (t.record? r).map ModuleRecord.dispatch = some d := by
    obtain ⟨record, hr, -, -, -, -, -, -, -, hfile⟩ := (hlaw _).1 _ _ (hok hrun)
    obtain ⟨q, hq, hformat, -⟩ := hfile h.notBuiltin
    rw [hq.eq h, hdetect] at hformat
    refine ⟨_, _, hok hrun, ?_⟩
    rw [hr, Option.map_some, ← Option.some.inj (Except.ok.inj hformat)]
  refine ⟨?_, ?_, ?_, ?_⟩
  · exact hkind _ _ .source (hleads _ ⟨"/code.mjs"⟩ (by decide +kernel)) (by decide +kernel)
      (by decide +kernel)
  · exact hkind _ _ .synthetic (hleads _ ⟨"/old.cjs"⟩ (by decide +kernel)) (by decide +kernel)
      (by decide +kernel)
  · have hrun : linkFormat "node:path" = (.ok ⟨0⟩, (linkFormat "node:path").2) :=
      hok (by decide +kernel)
    obtain ⟨record, hr, -, -, -, -, -, -, hbuiltin, -⟩ := (hlaw _).1 _ _ hrun
    refine ⟨_, _, hrun, ?_⟩
    rw [hr, Option.map_some, (hbuiltin (by decide +kernel)).2]
  · exact ((hlaw _).2.2 _ (hleads _ ⟨"/notes.txt"⟩ (by decide +kernel))).1 (by decide +kernel)

end Linker

end ModuleLoader
