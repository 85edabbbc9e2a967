import ModuleLoader.Proofs.Agreement
import ModuleLoader.Proofs.CachedAnswers
/-!
Which file a synthetic record wraps.

A synthetic record goes by the path that its specifier leads to. But the file that it wraps is one
that a lookup of that path has found, and a lookup does not stop where there is no file. It goes on
to paths with an extension behind the name and, if there is a directory, to what its manifest calls
the main file and to the index files. A source record has no such choice: its text is read at the
path itself, or else it is not made.

So the record goes by the path of the file that it wraps if there is a file at that path. If there
is none it may still be made, and it then has the name of something that is no file.
-/

namespace ModuleLoader

variable {σ η : Type}

open Path

namespace FileTree

variable {files : FileTree} {p q : Path}

theorem isFile_of_read {text : String} (h : files.read p = .ok text) : files.isFile p = true := by
  unfold read at h
  unfold isFile
  split at h <;> simp_all

end FileTree

namespace RequireId

variable {files : FileTree} {p q : Path}

/-- The path itself is tried first, so it is found just if it is a file. -/
theorem eq_iff_isFile_of_asPath? (h : asPath? files p = .ok (some q)) :
    q = p ↔ files.isFile p = true := by
  constructor
  · rintro rfl
    exact isFile_of_asPath? h
  · intro hfile
    have hfirst : asFile? files p = some p := by rw [asFile?, List.find?_cons_of_pos hfile]
    rw [asPath?, hfirst] at h
    exact (Option.some.inj (Except.ok.inj h)).symm

end RequireId

/-- A lookup of a path in normal form that has a value has found a file for the path. -/
theorem Legacy.found_of_require {host : Host σ η} {serve : (c : Call) → Eff σ η c.Reply}
    (hserve : ledgerRelation.HoldsOfSteps serve) (hlookup : host.lookup? = none) {p parent : Path}
    (hp : Canonical p) (hbuiltin : host.builtins.isBuiltin p.text = false) {s t : State σ η}
    {v : Value} (hrun : (Legacy.require host serve ⟨p.text, parent⟩).runIn s = (.ok v, t)) :
    ∃ q span, RequireId.asPath? host.files p = .ok (some q) ∧
      t.history = s.history ++ span ∧ .answer q v ∈ span ∧
      (s.LedgerHolds → (∀ e ∈ span, ¬ e.Evicts q) → t.cache.exports? q = some v) := by
  obtain ⟨found, hfound⟩ := exists_found_of_require hserve hlookup hrun
  have hresolve := hfound
  rw [RequireId.resolve_of_isPath hbuiltin (RequireId.isPath_text hp),
    RequireId.target_text hp] at hresolve
  cases hsearch : RequireId.asPath? host.files p with
  | error e => simp [hsearch] at hresolve
  | ok q? =>
      cases q? with
      | none => simp [hsearch] at hresolve
      | some q =>
          rw [hsearch] at hresolve
          cases hresolve
          obtain ⟨span, hspan⟩ :=
            exports?_of_require hserve hlookup hfound (RequireId.path?_ofFile q) hrun
          exact ⟨q, span, rfl, hspan⟩

namespace Linker

variable {host : Host σ η} {serve : (c : Call) → Eff σ η c.Reply} {specifier : String}
  {referrer : Referrer} {p : Path} {s t : State σ η} {r : RecordId}

/-- A link that makes a source record has read the file at the path. -/
theorem LeadsTo.isFile_of_link (h : LeadsTo host specifier referrer p)
    (hdetect : host.config.detect host.files p = .ok (some .source))
    (hlink : (link host serve specifier referrer).runIn s = (.ok r, t)) :
    host.files.isFile p.normalize = true := by
  rw [link_eq_plan] at hlink
  obtain ⟨⟨d, name⟩, _, hplan, hbuild⟩ := Eff.runIn_bind_eq_ok.1 hlink
  obtain ⟨hformat, rfl⟩ := h.plan_eq_ok (Eff.runIn_ofExcept_eq_ok.1 hplan).1
  rw [hdetect] at hformat
  cases hformat
  obtain ⟨q, text, -, -, -, -, hq, hread, -⟩ := buildSource_eq_ok hbuild
  rw [resolveFile_of_isAbsolute h.isAbsolute hq] at hread
  exact FileTree.isFile_of_read hread

/-- A link that wraps something has found a file for the path, and wraps what the lookup has come
to. -/
theorem LeadsTo.found_of_link (h : LeadsTo host specifier referrer p)
    (hlookup : host.lookup? = none)
    (hserve : ledgerRelation.HoldsOfSteps serve)
    (hdetect : host.config.detect host.files p = .ok (some .synthetic))
    (hlinker : host.linkerBuiltins.isBuiltin p.text = false)
    (hloader : host.builtins.isBuiltin p.normalize.text = false)
    (hlink : (link host serve specifier referrer).runIn s = (.ok r, t)) :
    ∃ q v span, RequireId.asPath? host.files p.normalize = .ok (some q) ∧
      t.record? r = some (.fresh p.normalize.text referrer
        (.synthetic (wrap host.config.exportMode t.heap v))) ∧
      t.history = s.history ++ span ∧ .answer q v ∈ span ∧
      (s.LedgerHolds → (∀ e ∈ span, ¬ e.Evicts q) → t.cache.exports? q = some v) := by
  rw [h.runIn_link serve hdetect hlinker s] at hlink
  cases hrequire :
    (Legacy.require host serve ⟨p.normalize.text, ⟨referrer.identifier⟩⟩).runIn s with
  | mk o u =>
      rw [hrequire] at hlink
      cases o with
      | error f => cases hlink
      | ok v =>
          cases hlink
          obtain ⟨q, span, hq, hspan⟩ := Legacy.found_of_require hserve hlookup
            (canonical_normalize h.isAbsolute) hloader hrequire
          exact ⟨q, v, span, hq, State.records_add_next _ _, hspan⟩

end Linker

/-- A synthetic record for a path wraps the file that a lookup finds for the path, under the name of
the path. This is the file at the path if and only if there is one there. A source record is not
made where there is none. -/
theorem synthetic_wraps_file_found (host : Host σ η) (hlookup : host.lookup? = none)
    (specifier : String) (referrer : Referrer) (p : Path)
    (hleads : Linker.LeadsTo host specifier referrer p)
    (hlinker : host.linkerBuiltins.isBuiltin p.text = false)
    (hloader : host.builtins.isBuiltin p.normalize.text = false) (depth : Nat) (s : State σ η) :
    let named := p.normalize
    let linked := (serve host depth (.link specifier referrer)).runIn s
    (∀ r t record m, linked = (.ok r, t) → t.record? r = some record → record.kind = .synthetic m →
      record.identifier = named.text ∧
      ∃ q v span, RequireId.asPath? host.files named = .ok (some q) ∧ host.files.isFile q = true ∧
        (q = named ↔ host.files.isFile named = true) ∧
        m = Linker.wrap host.config.exportMode t.heap v ∧
        t.history = s.history ++ span ∧ .answer q v ∈ span ∧
        (s.LedgerHolds → (∀ e ∈ span, ¬ e.Evicts q) → t.cache.exports? q = some v)) ∧
    (host.config.detect host.files p = .ok (some .synthetic) →
      (∀ q, RequireId.asPath? host.files named ≠ .ok (some q)) → ∀ r, linked.1 ≠ .ok r) ∧
    (host.config.detect host.files p = .ok (some .source) →
      host.files.isFile named = false → ∀ r, linked.1 ≠ .ok r) := by
  intro named linked
  cases depth with
  | zero =>
      have hno : ∀ r, linked.1 ≠ .ok r := fun r hr => by cases hr
      exact ⟨fun r t _ _ hlink => (hno r (by rw [hlink])).elim, fun _ _ => hno, fun _ _ => hno⟩
  | succ depth =>
      have hserve : ledgerRelation.HoldsOfSteps (serve host depth) :=
        ledger_holdsOfSteps (ledger_serve host depth)
      have hrun : linked = (Linker.link host (serve host depth) specifier referrer).runIn s := rfl
      have hends {r : RecordId} (hr : linked.1 = .ok r) : linked = (.ok r, linked.2) := by rw [← hr]
      refine ⟨fun r t record m hlink hrecord hkind => ?_, fun hdetect hnone r hr => ?_,
        fun hdetect hnone r hr => ?_⟩
      · obtain ⟨made, hmade, -, -, -, -, -, -, -, hfile⟩ :=
          (Linker.link_follows_format host _ specifier referrer s).1 r t (hrun ▸ hlink)
        obtain ⟨p', hp', hdetect, -⟩ := hfile hleads.notBuiltin
        obtain rfl := Option.some.inj (hrecord.symm.trans hmade)
        rw [hp'.eq hleads, ModuleRecord.dispatch, hkind] at hdetect
        obtain ⟨q, v, span, hq, hwraps, hhistory, hanswer, hcached⟩ :=
          hleads.found_of_link hlookup hserve hdetect hlinker hloader (hrun ▸ hlink)
        obtain rfl := Option.some.inj (hrecord.symm.trans hwraps)
        cases hkind
        exact ⟨rfl, q, v, span, hq, RequireId.isFile_of_asPath? hq,
          RequireId.eq_iff_isFile_of_asPath? hq, rfl, hhistory, hanswer, hcached⟩
      · obtain ⟨q, -, -, hq, -⟩ :=
          hleads.found_of_link hlookup hserve hdetect hlinker hloader (hrun ▸ hends hr)
        exact hnone q hq
      · have hfile := hleads.isFile_of_link hdetect (hrun ▸ hends hr)
        rw [hnone] at hfile
        cases hfile

def nearMissWorld : Host Scripted.Session Scripted.HookPlan :=
  Scripted.host ⟨[(["a.cjs.js"], .file (some "[[\"export\", \"x\", 1]]"))]⟩ {}
    ⟨"node:", []⟩ none ⟨0⟩

def linkNearMiss (specifier : String) :
    Except Fault RecordId × State Scripted.Session Scripted.HookPlan :=
  (serve nearMissWorld 2 (.link specifier (.root "/main.mjs" ⟨0⟩))).runIn (.initial .initial)

theorem linkNearMiss_ends : (linkNearMiss "./a.cjs").1.toOption = some ⟨0⟩ ∧
    ((linkNearMiss "./a.cjs").2.record? ⟨0⟩).map ModuleRecord.dispatch = some .synthetic := by
  decide +kernel

theorem exists_linkNearMiss : ∃ record m,
    linkNearMiss "./a.cjs" = (.ok ⟨0⟩, (linkNearMiss "./a.cjs").2) ∧
      (linkNearMiss "./a.cjs").2.record? ⟨0⟩ = some record ∧ record.kind = .synthetic m := by
  obtain ⟨hends, hdispatch⟩ := linkNearMiss_ends
  obtain ⟨record, hrecord, hkind⟩ := Option.map_eq_some_iff.1 hdispatch
  unfold ModuleRecord.dispatch at hkind
  cases hm : record.kind with
  | source m => simp [hm] at hkind
  | synthetic m => exact ⟨record, m, Eff.runIn_eq_ok_of_toOption hends, hrecord, hm⟩

/-- The file is wrapped, under the name that it does not have, and it is in the cache. Where no file
is found there is no record. -/
theorem synthetic_wraps_file_found_nearMissWorld :
    let t := (linkNearMiss "./a.cjs").2
    (∃ record v, t.record? ⟨0⟩ = some record ∧ record.identifier = "/a.cjs" ∧
      record.kind = .synthetic (Linker.wrap .ownKeys t.heap v) ∧
      t.cache.exports? ⟨"/a.cjs.js"⟩ = some v) ∧
    ∀ r, (linkNearMiss "./b.cjs").1 ≠ .ok r := by
  intro t
  have hlaw (specifier : String) (p : Path)
      (h : nearMissWorld.linkerBuiltins.isBuiltin specifier = false ∧
        Linker.resolve nearMissWorld specifier (.root "/main.mjs" ⟨0⟩) = .ok (.file p) ∧
        nearMissWorld.linkerBuiltins.isBuiltin p.text = false ∧
        nearMissWorld.builtins.isBuiltin p.normalize.text = false) :=
    synthetic_wraps_file_found nearMissWorld rfl specifier (.root "/main.mjs" ⟨0⟩) p
      ⟨h.1, _, h.2.1, rfl⟩ h.2.2.1 h.2.2.2 2 (.initial .initial)
  obtain ⟨hwraps, -, -⟩ := hlaw "./a.cjs" ⟨"/a.cjs"⟩ (by decide +kernel)
  obtain ⟨-, hfails, -⟩ := hlaw "./b.cjs" ⟨"/b.cjs"⟩ (by decide +kernel)
  obtain ⟨record, m, hlink, hrecord, hkind⟩ := exists_linkNearMiss
  obtain ⟨hname, q, v, span, hq, -, -, rfl, hhistory, -, hcached⟩ :=
    hwraps ⟨0⟩ t record m hlink hrecord hkind
  have hfound : RequireId.asPath? nearMissWorld.files (⟨"/a.cjs"⟩ : Path).normalize =
      .ok (some ⟨"/a.cjs.js"⟩) := by decide +kernel
  obtain rfl : q = ⟨"/a.cjs.js"⟩ := Option.some.inj (Except.ok.inj (hq.symm.trans hfound))
  have hspan : span = t.history := by
    rw [hhistory]
    rfl
  have hkept : ∀ e ∈ t.history, ¬ e.Evicts ⟨"/a.cjs.js"⟩ := by decide +kernel
  refine ⟨⟨record, v, hrecord, hname.trans (by decide +kernel), hkind, ?_⟩, ?_⟩
  · exact hcached (State.ledgerHolds_initial _) (hspan ▸ hkept)
  · refine hfails (by decide +kernel) fun q hq => ?_
    have hnone : RequireId.asPath? nearMissWorld.files (⟨"/b.cjs"⟩ :
      Path).normalize = .ok none := by
      decide +kernel
    rw [hnone] at hq
    cases hq

/-- The record is named after something that is no file. -/
theorem synthetic_identifier_not_isFile :
    ∃ r t record m, linkNearMiss "./a.cjs" = (.ok r, t) ∧ t.record? r = some record ∧
      record.kind = .synthetic m ∧ nearMissWorld.files.isFile ⟨record.identifier⟩ = false := by
  obtain ⟨record, m, hlink, hrecord, hkind⟩ := exists_linkNearMiss
  have hmissing : ((linkNearMiss "./a.cjs").2.record? ⟨0⟩).all
      (fun record => !nearMissWorld.files.isFile ⟨record.identifier⟩) = true := by decide +kernel
  rw [hrecord] at hmissing
  exact ⟨⟨0⟩, _, record, m, hlink, hrecord, hkind, by simpa using hmissing⟩

end ModuleLoader
