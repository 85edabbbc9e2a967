import ModuleLoader.Proofs.Dispatch
import ModuleLoader.Proofs.Exports
import ModuleLoader.Proofs.Path.Specifiers
import ModuleLoader.Proofs.Unread
/-!
Importing a path and requiring it agree.

A file that is no source module can be had in two ways. A script requires it, and a module imports
it and gets what the script would have got, wrapped. The import asks twice where the path leads: the
linker resolves the specifier, to know the format, and hands the text that it comes to on to the
loader of scripts, which resolves that. The script's own id is resolved only once, by rules that
were written down elsewhere, and differ in what they take for the directory of a file that has none.

They come to the same. Both walk from the same place, the text that is handed on is in normal form
and leads to itself, and from there on it is the same search in the same files. So the two runs
differ only in the event that tells which id is looked up, and that nobody reads.
-/

namespace ModuleLoader

open Path Eff

variable {σ η : Type}

/-! ### Where required ids lead -/

namespace RequireId

variable {Provider : Type} {files : FileTree} {builtins : Registry Provider} {id id' : String}
  {parent p : Path}

theorem target_eq (hparent : parent.isAbsolute = true) :
    target id parent = rooted (Location.destination ⟨id⟩ parent).reverse := by
  apply Location.normalize_join_directory
  · exact isAbsolute_parentOr hparent rfl
  · unfold Location.directory parentOr
    cases hdir : parent.parent? with
    | some dir => rfl
    | none => exact (place_of_parent?_eq_none hparent hdir).symm ▸ rfl

/-- A path in normal form is searched for where it is, whoever asks. -/
theorem target_text (hp : Canonical p) (parent : Path) : target p.text parent = p := by
  have habs : (⟨p.text⟩ : Path).isAbsolute = true := hp.isAbsolute
  rw [target, join, if_pos habs]
  exact hp.normalize_eq

theorem isPath_text (hp : Canonical p) : isPath p.text = true := by
  have habs : (⟨p.text⟩ : Path).isAbsolute = true := hp.isAbsolute
  rw [isPath, habs, Bool.or_true]

/-- What is found for an id that is no built-in is a matter of where it is searched for. -/
theorem resolve_of_isPath (hbuiltin : builtins.isBuiltin id = false) (hpath : isPath id = true) :
    resolve files builtins id parent =
      match asPath? files (target id parent) with
      | .error e => .error e
      | .ok (some q) => .ok (.ofFile q)
      | .ok none => .error (.moduleNotFound id) := by
  have hname : builtins.canonicalName? id = none := by simpa [Registry.isBuiltin] using hbuiltin
  have hfile : file? files id parent = asPath? files (target id parent) := if_pos hpath
  rw [← hfile]
  cases hfound : file? files id parent with
  | error e => simp [resolve, hname, hfound]
  | ok q? => cases q? <;> simp [resolve, hname, hfound]

/-- The ids are resolved to the same, or nothing is found for either and each is said not to be
found. -/
def Alike (files : FileTree) (builtins : Registry Provider) (parent : Path) (id id' : String) :
    Prop :=
  resolve files builtins id' parent = resolve files builtins id parent ∨
    resolve files builtins id parent = .error (.moduleNotFound id) ∧
      resolve files builtins id' parent = .error (.moduleNotFound id')

theorem alike_of_target_eq (files : FileTree) (hbuiltin : builtins.isBuiltin id = false)
    (hbuiltin' : builtins.isBuiltin id' = false) (hpath : isPath id = true)
    (hpath' : isPath id' = true)
    (htarget : target id' parent = target id parent) : Alike files builtins parent id id' := by
  unfold Alike
  rw [resolve_of_isPath hbuiltin hpath, resolve_of_isPath hbuiltin' hpath', htarget]
  rcases asPath? files (target id parent) with e | q?
  · exact .inl rfl
  · cases q? with
    | none => exact .inr ⟨rfl, rfl⟩
    | some q => exact .inl rfl

end RequireId

/-! ### What an import asks the loader of scripts for -/

namespace Linker

variable {host : Host σ η} {serve : (c : Call) → Eff σ η c.Reply} {specifier : String}
  {referrer : Referrer} {p : Path}

theorem LeadsTo.isAbsolute_referrer (h : LeadsTo host specifier referrer p) :
    (⟨referrer.identifier⟩ : Path).isAbsolute = true := by
  obtain ⟨location, hresolve, -⟩ := h.resolved
  by_contra hrelative
  rw [resolve, Location.resolve_of_not_isAbsolute h.notBuiltin
    (by simpa using hrelative)] at hresolve
  cases hresolve

/-- An import of what is to be wrapped requires the path that it has come to. -/
theorem LeadsTo.runIn_link (serve : (c : Call) → Eff σ η c.Reply)
    (h : LeadsTo host specifier referrer p)
    (hdetect : host.config.detect host.files p = .ok (some .synthetic))
    (hbuiltin : host.linkerBuiltins.isBuiltin p.text = false) (s : State σ η) :
    (link host serve specifier referrer).runIn s =
      match (Legacy.require host serve ⟨p.normalize.text, ⟨referrer.identifier⟩⟩).runIn s with
      | (.error f, t) => (.error f, t)
      | (.ok v, t) =>
        (.ok t.next, t.add (.fresh p.normalize.text referrer
          (.synthetic (wrap host.config.exportMode t.heap v)))) := by
  have hplan : plan host specifier referrer = .ok (.synthetic, p.text) := by rw [h.plan_eq, hdetect]
  have hfile : resolveFile host p.text referrer = .ok p.normalize := by
    rw [resolveFile, resolve,
      Location.resolve_of_isAbsolute hbuiltin h.isAbsolute_referrer h.isAbsolute]
    rfl
  have horigin : originOf host serve p.text referrer =
      Legacy.require host serve ⟨p.normalize.text, ⟨referrer.identifier⟩⟩ >>= fun v =>
        pure (p.normalize.text, v) := by
    unfold originOf
    rw [hbuiltin, hfile]
    rfl
  rw [link_eq_plan, hplan]
  change (buildSynthetic host serve p.text referrer).runIn s = _
  rw [buildSynthetic, horigin, runIn_bind, runIn_bind]
  rcases (Legacy.require host serve _).runIn s with ⟨f | v, t⟩ <;> rfl

end Linker

namespace Legacy

variable {host : Host σ η} {serve : (c : Call) → Eff σ η c.Reply} {s : State σ η}

/-- Loading goes by what the id is resolved to, and not by the id. -/
theorem load_congr {id id' : String} {parent : Path}
    (h : RequireId.resolve host.files host.builtins id parent =
      RequireId.resolve host.files host.builtins id' parent) :
    load host serve ⟨id, parent⟩ = load host serve ⟨id', parent⟩ := by
  simp only [load, h]

theorem runIn_load_of_resolve_eq_error {id : String} {parent : Path} {e : Error}
    (h : RequireId.resolve host.files host.builtins id parent = .error e) :
    (load host serve ⟨id, parent⟩).runIn s = (.error (.error e), s) := by
  simp only [load, h]
  rfl

/-- Two ids that are resolved alike are looked up alike where there are no hooks. -/
theorem require_agrees {id id' : String} {parent : Path} (hserve : ∀ c, (serve c).Forgets)
    (hlayers : s.hooks.layers = []) (hlookup : host.lookup? = none)
    (halike : RequireId.Alike host.files host.builtins parent id id') :
    let required := (require host serve ⟨id, parent⟩).runIn s
    let required' := (require host serve ⟨id', parent⟩).runIn s
    (∃ trace, required'.2 = { required.2 with trace }) ∧
      (required'.1 = required.1 ∨ required.1 = .error (.error (.moduleNotFound id)) ∧
        required'.1 = .error (.error (.moduleNotFound id'))) := by
  intro required required'
  have hrequired : required = _ := runIn_require_of_layers_eq_nil hlayers hlookup ⟨id, parent⟩
  have hrequired' : required' = _ := runIn_require_of_layers_eq_nil hlayers hlookup ⟨id', parent⟩
  rw [hrequired, hrequired']
  rcases halike with hsame | ⟨hnone, hnone'⟩
  · -- the same is loaded, with another event before it
    rw [load_congr hsame]
    obtain ⟨trace, hload⟩ := Forgets.load hserve ⟨id, parent⟩ (s.emit (.lookup ⟨id, parent⟩))
      (s.emit (.lookup ⟨id', parent⟩)).trace
    have hstate : { s.emit (.lookup ⟨id, parent⟩) with
        trace := (s.emit (.lookup ⟨id', parent⟩)).trace } = s.emit (.lookup ⟨id', parent⟩) := rfl
    rw [hstate] at hload
    rw [hload]
    exact ⟨⟨trace, rfl⟩, .inl rfl⟩
  · rw [runIn_load_of_resolve_eq_error hnone, runIn_load_of_resolve_eq_error hnone']
    exact ⟨⟨_, rfl⟩, .inr ⟨rfl, rfl⟩⟩

end Legacy

/-! ### Agreement -/

/-- A link that wraps what is required for a place ends as every lookup ends whose id is resolved to
the same. -/
theorem Linker.LeadsTo.link_agrees {host : Host σ η} {serve : (c : Call) → Eff σ η c.Reply}
    {specifier id : String} {referrer : Referrer} {p : Path} {s : State σ η}
    (h : Linker.LeadsTo host specifier referrer p)
    (hdetect : host.config.detect host.files p = .ok (some .synthetic))
    (hbuiltin : host.linkerBuiltins.isBuiltin p.text = false) (hserve : ∀ c, (serve c).Forgets)
    (hlayers : s.hooks.layers = []) (hlookup : host.lookup? = none)
    (halike : RequireId.Alike host.files host.builtins ⟨referrer.identifier⟩ id p.normalize.text) :
    let required := (Legacy.require host serve ⟨id, ⟨referrer.identifier⟩⟩).runIn s
    let linked := (Linker.link host serve specifier referrer).runIn s
    (∃ trace records, linked.2 = { required.2 with trace, records }) ∧
      (∀ v, required.1 = .ok v → ∃ r record, linked.1 = .ok r ∧ linked.2.record? r = some record ∧
        record.identifier = p.normalize.text ∧
        record.kind = .synthetic (Linker.wrap host.config.exportMode required.2.heap v)) ∧
      ∀ f, required.1 = .error f → ∃ f', linked.1 = .error f' ∧
        (f' = f ∨ f = .error (.moduleNotFound id) ∧
          f' = .error (.moduleNotFound p.normalize.text)) := by
  intro required linked
  have hlinked : linked = _ := h.runIn_link serve hdetect hbuiltin s
  obtain ⟨⟨trace, hstate⟩, hend⟩ := Legacy.require_agrees hserve hlayers hlookup halike
  change _ = { required.2 with trace } at hstate
  change _ = required.1 ∨ required.1 = _ ∧ _ at hend
  generalize (Legacy.require host serve ⟨p.normalize.text, ⟨referrer.identifier⟩⟩).runIn s =
    required' at hlinked hstate hend
  obtain ⟨o, t⟩ := required'
  obtain rfl : t = { required.2 with trace } := hstate
  rw [hlinked]
  cases o with
  | error f' =>
      refine ⟨⟨trace, required.2.records, rfl⟩, fun v hv => ?_, fun f hf => ⟨f', rfl, ?_⟩⟩
      · simp [hv] at hend
      · simpa [hf] using hend
  | ok v' =>
      refine ⟨⟨trace, _, rfl⟩, fun v hv => ?_, fun f hf => ?_⟩
      · obtain rfl : v' = v := by simpa [hv] using hend
        exact ⟨_, _, rfl, State.records_add_next _ _, rfl, rfl⟩
      · simp [hf] at hend

/-- From an absolute referrer a path leads to one file as a specifier and as an id, or fails alike.
Where the format asks for a module that is wrapped, importing the path and requiring it leave the
same state but for the trace and the new record. What is required is what is wrapped, and they fail
together. -/
theorem import_agrees_with_require (host : Host σ η) (hshared : host.linkerBuiltins = host.builtins)
    (hlookup : host.lookup? = none) (specifier : String) (referrer : Referrer)
    (habsolute : (⟨referrer.identifier⟩ : Path).isAbsolute = true)
    (hpath : RequireId.isPath specifier = true)
    (hbuiltin : host.builtins.isBuiltin specifier = false) :
    ∃ p, Linker.resolve host specifier referrer = .ok (.file p) ∧
      (host.builtins.isBuiltin p.text = false →
        let find (id : String) :=
          RequireId.resolve host.files host.builtins id ⟨referrer.identifier⟩
        (∀ found, find p.text = .ok found ↔ find specifier = .ok found) ∧
        (∀ e, find specifier = .error e → ∃ e', find p.text = .error e' ∧
          (e' = e ∨ e = .moduleNotFound specifier ∧ e' = .moduleNotFound p.text)) ∧
        (host.config.detect host.files p = .ok (some .synthetic) →
          ∀ depth (s : State σ η), s.hooks.layers = [] →
            let required := (serve host depth (.require ⟨specifier, ⟨referrer.identifier⟩⟩)).runIn s
            let linked := (serve host depth (.link specifier referrer)).runIn s
            (∃ trace records, linked.2 = { required.2 with trace, records }) ∧
            (∀ v, required.1 = .ok v → ∃ r record, linked.1 = .ok r ∧
              linked.2.record? r = some record ∧ record.identifier = p.text ∧
              record.kind =
                .synthetic (Linker.wrap host.config.exportMode required.2.heap v)) ∧
            ∀ f, required.1 = .error f → ∃ f', linked.1 = .error f' ∧
              (f' = f ∨ f = .error (.moduleNotFound specifier) ∧
                f' = .error (.moduleNotFound p.text)))) := by
  let parent : Path := ⟨referrer.identifier⟩
  let p := rooted (Location.destination ⟨specifier⟩ parent).reverse
  have hcanonical : Canonical p :=
    ⟨_, by simpa using Location.isName_destination ⟨specifier⟩ parent, rfl⟩
  have hresolve : Linker.resolve host specifier referrer = .ok (.file p) :=
    Location.resolve_of_isPath (hshared ▸ hbuiltin) habsolute hpath
  refine ⟨p, hresolve, fun htext => ?_⟩
  intro find
  have htarget : RequireId.target p.text parent = RequireId.target specifier parent := by
    rw [RequireId.target_text hcanonical, RequireId.target_eq habsolute]
  have halike : RequireId.Alike host.files host.builtins parent specifier p.text :=
    RequireId.alike_of_target_eq host.files hbuiltin htext hpath (RequireId.isPath_text hcanonical)
      htarget
  refine ⟨fun found => ?_, fun e he => ?_, fun hdetect depth s hlayers => ?_⟩
  · rcases halike with hsame | ⟨hnone, hnone'⟩
    · exact ⟨hsame.symm.trans, hsame.trans⟩
    · simp [find, parent, hnone, hnone']
  · rcases halike with hsame | ⟨hnone, hnone'⟩
    · exact ⟨e, hsame.trans he, .inl rfl⟩
    · obtain rfl := Except.error.inj (hnone.symm.trans he)
      exact ⟨_, hnone', .inr ⟨rfl, rfl⟩⟩
  · have hleads : Linker.LeadsTo host specifier referrer p := ⟨hshared ▸ hbuiltin, _, hresolve, rfl⟩
    cases depth with
    | zero =>
        refine ⟨⟨s.trace, s.records, rfl⟩, fun v hv => ?_, fun f hf => ⟨f, ?_, .inl rfl⟩⟩
        · cases hv
        · cases hf
          rfl
    | succ depth =>
        rw [← hcanonical.normalize_eq] at halike
        have hagrees := hleads.link_agrees hdetect (hshared ▸ htext)
          (Forgets.serve host depth) hlayers
          hlookup halike
        rwa [hcanonical.normalize_eq] at hagrees

def libraryWorld : Host Unit Empty where
  files := ⟨[(["app"], .directory), (["lib"], .directory), (["a.cjs.js", "lib"], .file (some ""))]⟩
  config := {}
  builtins := ⟨"node:", []⟩
  linkerBuiltins? := none
  scriptContext := ⟨0⟩
  compile _ _ := pure ⟨[], fun _ => Script.perform (.newNamespace .empty)⟩
  runScript _ _ := pure ()
  hook h := nomatch h
  lookup? := none

/-- Importing that file and requiring it leave the same cache, and what is not there is in neither
way to be had. -/
theorem import_agrees_with_require_libraryWorld :
    let required (id : String) :=
      (serve libraryWorld 1 (.require ⟨id, ⟨"/app/m.mjs"⟩⟩)).runIn (.initial ())
    let linked (specifier : String) :=
      (serve libraryWorld 1 (.link specifier (.root "/app/m.mjs" ⟨0⟩))).runIn (.initial ())
    (∃ v, (required "../lib/./a.cjs").1 = .ok v) ∧
      (∃ r, (linked "../lib/./a.cjs").1 = .ok r ∧
        (linked "../lib/./a.cjs").2.cache = (required "../lib/./a.cjs").2.cache) ∧
      (required "../lib/b.cjs").1 = .error (.error (.moduleNotFound "../lib/b.cjs")) ∧
      ∃ f, (linked "../lib/b.cjs").1 = .error f := by
  intro required linked
  have hlaw (specifier : String) (p : Path)
      (h : RequireId.isPath specifier = true ∧ libraryWorld.builtins.isBuiltin specifier = false ∧
        Linker.resolve libraryWorld specifier (.root "/app/m.mjs" ⟨0⟩) = .ok (.file p) ∧
        libraryWorld.builtins.isBuiltin p.text = false ∧
        libraryWorld.config.detect libraryWorld.files p = .ok (some .synthetic)) :
      ((linked specifier).2.cache = (required specifier).2.cache) ∧
        (∀ v, (required specifier).1 = .ok v → ∃ r, (linked specifier).1 = .ok r) ∧
        ∀ f, (required specifier).1 = .error f → ∃ f', (linked specifier).1 = .error f' := by
    obtain ⟨hpath, hbuiltin, hresolve, htext, hdetect⟩ := h
    obtain ⟨q, hq, hagrees⟩ := import_agrees_with_require libraryWorld rfl rfl specifier
      (.root "/app/m.mjs" ⟨0⟩) (by decide) hpath hbuiltin
    obtain rfl : p = q := Location.file.inj (Except.ok.inj (hresolve.symm.trans hq))
    obtain ⟨-, -, hlinked⟩ := hagrees htext
    obtain ⟨⟨trace, records, hstate⟩, hok, herror⟩ := hlinked hdetect 1 (.initial ()) rfl
    have hcache := congrArg State.cache hstate
    refine ⟨hcache, fun v hv => ?_, fun f hf => ?_⟩
    · obtain ⟨r, -, hr, -⟩ := hok v hv
      exact ⟨r, hr⟩
    · obtain ⟨f', hf', -⟩ := herror f hf
      exact ⟨f', hf'⟩
  have hends : (required "../lib/./a.cjs").1.toOption.isSome = true := by decide +kernel
  obtain ⟨v, hv⟩ := Option.isSome_iff_exists.1 hends
  have hvalue : (required "../lib/./a.cjs").1 = .ok v :=
    congrArg Prod.fst (Eff.runIn_eq_ok_of_toOption hv)
  have hmissing : (required "../lib/b.cjs").1 = .error (.error (.moduleNotFound "../lib/b.cjs")) :=
    congrArg Prod.fst (Eff.runIn_eq_error_of_error? (by decide +kernel))
  obtain ⟨hcache, hok, -⟩ := hlaw "../lib/./a.cjs" ⟨"/lib/a.cjs"⟩ (by decide +kernel)
  obtain ⟨-, -, herror⟩ := hlaw "../lib/b.cjs" ⟨"/lib/b.cjs"⟩ (by decide +kernel)
  obtain ⟨r, hr⟩ := hok _ hvalue
  exact ⟨⟨v, hvalue⟩, ⟨r, hr, hcache⟩, hmissing, herror _ hmissing⟩

end ModuleLoader
