import ModuleLoader.Proofs.OneKey
import ModuleLoader.Proofs.Path.Decoding
import ModuleLoader.Proofs.RunInvariant
import ModuleLoader.Proofs.Termination
/-!
What a module is told about itself.

A module of source gets a URL, the path of its file and that of the directory of the
file. The identifier of its record is made from the same path. All of these tell the same
as long as the path is clean. Then the identifier can be read off the URL and put together
from its parts, and among such records the URL tells which have one identifier.

Where the path is not clean the identifier has blanks in it that are not in the URL, and
there may be two records of one URL under two identifiers. Records that come of links have
canonical paths. One that is built for a specifier without being linked may have the path
of an index file as it is found under the name of a package, and then a dot after a scope
stays in it, or what has not been clean in the name of the referrer.
-/

namespace ModuleLoader

open Path

variable {σ η α : Type}

/-! ### Paths that are found -/

namespace Path

/-- What joining a name gives has this name for a file name. -/
theorem fileName?_join_name {dir : Path} (hdir : dir.isAbsolute = true) {name : String}
    (hname : IsName name) : (dir.join ⟨name⟩).fileName? = some name := by
  have hsegments : (⟨name⟩ : Path).segments = [name] := by
    have hjoined := segments_joined (List.cons_ne_nil name []) (by simpa using hname.segment)
    rwa [joined_singleton] at hjoined
  have hlast : (dir.join ⟨name⟩).components.getLast? = some (.name name) := by
    rw [components_join hdir hname.isAbsolute_eq_false, hsegments,
      filterMap_ofSegment? (by simpa using hname)]
    simp
  unfold fileName?
  rw [hlast]

end Path

namespace RequireId

variable {id : String} {parent q : Path}

def KeepsDot (id : String) (parent q : Path) : Prop :=
  ∃ scope, IsSegment scope ∧ id = "@" ++ scope ++ "/" ++ "." ∧
    ∃ dir ∈ parent.ancestors, q ∈ indexes (packageDir id dir)

theorem KeepsDot.not_clean (hparent : Canonical parent) (h : KeepsDot id parent q) : ¬ Clean q := by
  obtain ⟨scope, hscope, rfl, dir, hdir, hq⟩ := h
  obtain ⟨names, name, -, -, hsegments, rfl⟩ :=
    segments_of_blurred hscope (.inl rfl) (hparent.mem_ancestors hdir) hq
  intro hclean
  rcases hclean.isBlank_eq_false (by simp) hsegments with hroot | hsteps
  · simpa using congrArg List.length hroot
  · exact absurd (hsteps "." (by simp)) (by decide)

theorem clean_iff_not_keepsDot (hparent : Canonical parent)
    (h : Canonical q ∨ NamesIndex id parent q) : Clean q ↔ ¬ KeepsDot id parent q := by
  refine ⟨fun hclean hkept => hkept.not_clean hparent hclean, fun hclear => ?_⟩
  rcases h with hq | hindex
  · exact hq.clean
  rcases hindex.canonical_or_blurred hparent with hq | ⟨scope, dots, hscope, hdots, rfl⟩
  · exact hq.clean
  rcases hdots with rfl | rfl
  · exact absurd ⟨scope, hscope, rfl, hindex.index⟩ hclear
  -- two dots are a step, if only one that leads up
  obtain ⟨dir, hdir, hq⟩ := hindex.index
  obtain ⟨names, name, hnames, hname, hsegments, rfl⟩ :=
    segments_of_blurred hscope (.inr rfl) (hparent.mem_ancestors hdir) hq
  refine ⟨_, fun t ht => ⟨hsegments t ht, ?_⟩, rfl⟩
  rcases List.mem_append.1 ht with ht | ht
  · exact (hnames t ht).isBlank
  · rcases (by simpa using ht : t = ".." ∨ t = name) with rfl | rfl
    · rfl
    · exact hname.isBlank

theorem NamesIndex.exists_fileName? (h : NamesIndex id parent q)
    (hparent : parent.isAbsolute = true) :
    ∃ name, q.fileName? = some name := by
  obtain ⟨dir, hdir, hindex⟩ := h.index
  obtain ⟨ext, hext, rfl⟩ := List.mem_map.1 hindex
  have hname : IsName ("index" ++ ext) := isName_extension hext (by decide)
  have habs := isAbsolute_of_mem_ancestors hparent hdir
  exact ⟨_, fileName?_join_name (isAbsolute_join (isAbsolute_join habs _) _) hname⟩

end RequireId

namespace Linker

variable {host : Host σ η} {specifier : String} {referrer : Referrer} {p : Path}

theorem canonical_or_namesIndex (h : resolveFile host specifier referrer = .ok p) :
    (⟨referrer.identifier⟩ : Path).isAbsolute = true ∧
      (Canonical p ∨ RequireId.NamesIndex specifier ⟨referrer.identifier⟩ p) := by
  obtain ⟨location, hresolve, hp⟩ := resolveFile_eq_ok.1 h
  exact Location.canonical_or_namesIndex hresolve hp

end Linker

/-! ### What is made from the path -/

/-- What a module is told names the identifier three times: by its URL, by its path, and by the two
parts of its path. -/
structure ImportMeta.Identifies (importMeta : ImportMeta) (identifier : String) : Prop where
  url : decodeUrl? importMeta.url = some identifier
  filename : importMeta.filename = identifier
  parts : ∃ name, (⟨identifier⟩ : Path).fileName? = some name ∧
    ((⟨importMeta.dirname⟩ : Path).join ⟨name⟩).text = identifier

namespace ModuleRecord.MadeOf

variable {host : Host σ η} {a b : ModuleRecord σ η} {m n : SourceModule σ η}

theorem isAbsolute (h : a.MadeOf host m) : m.location.isAbsolute = true := by
  obtain ⟨specifier, referrer, hfound, -⟩ := h.found
  obtain ⟨hreferrer, hq⟩ := Linker.canonical_or_namesIndex hfound
  rcases hq with hq | hindex
  · exact hq.isAbsolute
  · exact hindex.isAbsolute hreferrer

/-- The file has a name, since the root can be found but not read. -/
theorem exists_fileName? (h : a.MadeOf host m) : ∃ name, m.location.fileName? = some name := by
  obtain ⟨specifier, referrer, hfound, -⟩ := h.found
  obtain ⟨hreferrer, hq⟩ := Linker.canonical_or_namesIndex hfound
  rcases hq with hq | hindex
  · obtain ⟨text, htext⟩ := h.text
    obtain ⟨names, hne, hnames, hlocation, -⟩ := FileTree.holds_of_read hq htext
    have hlocation : m.location = rooted names := congrArg Path.mk hlocation
    rw [hlocation, fileName?_rooted hnames, List.getLast?_eq_some_getLast hne]
    exact ⟨_, rfl⟩
  · exact hindex.exists_fileName? hreferrer

/-- What the module is told is made from the path of its file, and it identifies the record just if
that path is clean. -/
theorem identifies_iff (h : a.MadeOf host m) :
    ∃ importMeta, ImportMeta.ofPath m.location = .ok importMeta ∧ importMeta.url = m.url ∧
      importMeta.filename = a.identifier ∧
      decodeUrl? importMeta.url = some (ofComponents m.location.components).text ∧
      (importMeta.Identifies a.identifier ↔ Clean m.location) := by
  have hdecode := decodeUrl?_eq_iff h.isAbsolute h.url
  refine ⟨⟨m.url, (m.location.parent?.map Path.text).getD "", m.location.text⟩, ?_, rfl,
    h.identifier.symm, decodeUrl?_of_fileUrl? h.url, ?_⟩
  · rw [ImportMeta.ofPath, h.url]
  · rw [h.identifier]
    refine ⟨fun hidentifies => hdecode.1 hidentifies.url, fun hclean => ⟨hdecode.2 hclean, rfl, ?_⟩⟩
    obtain ⟨name, hname⟩ := h.exists_fileName?
    obtain ⟨dir, hdir, hjoin⟩ := hclean.join_fileName hname
    refine ⟨name, hname, ?_⟩
    rw [hdir]
    exact congrArg Path.text hjoin

theorem url_eq_iff (h : a.MadeOf host m) (h' : b.MadeOf host n) :
    m.url = n.url ↔ m.location.components = n.location.components :=
  fileUrl?_eq_iff h.isAbsolute h'.isAbsolute h.url h'.url

theorem url_eq_iff_identifier (h : a.MadeOf host m) (h' : b.MadeOf host n)
    (hclean : Clean m.location)
    (hclean' : Clean n.location) : m.url = n.url ↔ a.identifier = b.identifier := by
  rw [h.url_eq_iff h', h.identifier, h'.identifier]
  refine ⟨fun heq => congrArg Path.text (hclean.eq_of_components hclean' heq), fun heq => ?_⟩
  exact congrArg (fun text => (⟨text⟩ : Path).components) heq

theorem of_bare (h : a.MadeOf host m) (hbare : b.bare = a.bare) : b.MadeOf host m where
  found := by
    obtain ⟨specifier, referrer, hfound, hcontext, hlineage⟩ := h.found
    exact ⟨specifier, referrer, hfound, (congrArg ModuleRecord.context hbare).trans hcontext,
      (congrArg ModuleRecord.lineage hbare).trans hlineage⟩
  text := h.text
  url := h.url
  identifier := (congrArg ModuleRecord.identifier hbare).trans h.identifier

end ModuleRecord.MadeOf

/-! ### Records of source -/

/-- Every record of source is one for a file. -/
def State.Sourced (host : Host σ η) (s : State σ η) : Prop :=
  ∀ r a m, s.record? r = some a → a.kind = .source m → a.MadeOf host m

/-- A record is for a file when it is added, and what is changed in it later is not the file. -/
theorem survives_sourced (host : Host σ η) : Survives (State.Sourced host) host where
  emit _ _ _ hs := hs
  action a s hs r b m hb := by
    rw [State.record?_congr (a.records_carryOut s)] at hb
    exact hs r b m hb
  addChild _ _ _ hs := hs
  enter _ _ _ _ hs := hs
  leave _ _ outcome hs := by cases outcome <;> exact hs
  parse _ _ _ _ hs := hs
  add s a hmade hs r b m hb := by
    rw [State.record?_add] at hb
    split at hb
    · cases hb
      exact hmade m
    · exact hs r b m hb
  modifyRecord s x f hf hs r b m hb hkind := by
    rw [State.record?_modifyRecord] at hb
    split at hb
    · obtain ⟨a, ha, rfl⟩ := Option.map_eq_some_iff.1 hb
      have hsame : a.kind = (f a).kind := (congrArg ModuleRecord.kind (hf a)).symm
      exact (hs r a m ha (hsame.trans hkind)).of_bare (hf a)
    · exact hs r b m hb hkind

theorem Host.sourced_exec (host : Host σ η) (depth : Nat) (program : Program σ η α) (store : σ) :
    (host.exec depth program (State.initial store)).2.Sourced host :=
  (survives_sourced host).exec depth program fun _ _ _ h => by cases h

/-- A record of source that a link has made is of a canonical path. -/
theorem Linker.canonical_of_link {host : Host σ η} {serve : (c : Call) → Eff σ η c.Reply}
    {specifier : String} {referrer : Referrer} {s t : State σ η} {r : RecordId}
    {a : ModuleRecord σ η} {m : SourceModule σ η}
    (h : (link host serve specifier referrer).runIn s = (.ok r, t)) (ha : t.record? r = some a)
    (hkind : a.kind = .source m) : Canonical m.location := by
  have hsource : a.dispatch = .source := by rw [ModuleRecord.dispatch, hkind]
  obtain ⟨p, -, -, -, -, habs, hbuild⟩ := link_source h ha hsource
  obtain ⟨q, _, _, _, _, u, hq, -, -, -, rfl, rfl⟩ := buildSource_eq_ok hbuild
  obtain rfl := Option.some.inj ((State.records_add_next u _).symm.trans ha)
  cases hkind
  change Canonical q
  rw [resolveFile_of_isAbsolute habs hq]
  exact canonical_normalize habs

/-- What a module is told identifies its record just if its path is clean, which it is unless it was
found under the name of a package, by an index file. Two records have one URL just if their paths
take the same steps. -/
theorem import_meta_identifies_module (host : Host σ η) :
    (∀ (α : Type) depth (program : Program σ η α) store r a m,
      let s := (host.exec depth program (State.initial store)).2
      s.record? r = some a → a.kind = .source m →
      (∃ importMeta, ImportMeta.ofPath m.location = .ok importMeta ∧ importMeta.url = m.url ∧
        importMeta.filename = a.identifier ∧
        decodeUrl? importMeta.url = some (ofComponents m.location.components).text ∧
        (importMeta.Identifies a.identifier ↔ Clean m.location)) ∧
      (∃ specifier referrer, Linker.resolveFile host specifier referrer = .ok m.location ∧
        a.context = referrer.context ∧ a.lineage = referrer.lineage ∧
        (Clean m.location ∨ RequireId.NamesIndex specifier ⟨referrer.identifier⟩ m.location) ∧
        (Canonical ⟨referrer.identifier⟩ →
          (Clean m.location ↔ ¬ RequireId.KeepsDot specifier ⟨referrer.identifier⟩ m.location))) ∧
      ∀ r' b n, s.record? r' = some b → b.kind = .source n →
        (m.url = n.url ↔ m.location.components = n.location.components) ∧
        (Clean m.location → Clean n.location → (m.url = n.url ↔ a.identifier = b.identifier))) ∧
    ∀ (serve : (c : Call) → Eff σ η c.Reply) specifier referrer s t r a m,
      (Linker.link host serve specifier referrer).runIn s = (.ok r, t) → t.record? r = some a →
      a.kind = .source m → Clean m.location := by
  refine ⟨fun α depth program store r a m => ?_,
    fun serve specifier referrer s t r a m h ha hkind =>
    (Linker.canonical_of_link h ha hkind).clean⟩
  intro s ha hkind
  have hsourced : s.Sourced host := host.sourced_exec depth program store
  have hmade := hsourced r a m ha hkind
  refine ⟨hmade.identifies_iff, ?_, fun r' b n hb hkind' => ?_⟩
  · obtain ⟨specifier, referrer, hfound, hcontext, hlineage⟩ := hmade.found
    obtain ⟨-, hq⟩ := Linker.canonical_or_namesIndex hfound
    exact ⟨specifier, referrer, hfound, hcontext, hlineage, hq.imp_left Canonical.clean,
      fun hreferrer => RequireId.clean_iff_not_keepsDot hreferrer hq⟩
  · have hmade' := hsourced r' b n hb hkind'
    exact ⟨hmade.url_eq_iff hmade', hmade.url_eq_iff_identifier hmade'⟩

def ModuleRecord.source? (a : ModuleRecord σ η) : Option (SourceModule σ η) :=
  match a.kind with
  | .source m => some m
  | .synthetic _ => none

theorem ModuleRecord.source?_eq_some {a : ModuleRecord σ η} {m : SourceModule σ η} :
    a.source? = some m ↔ a.kind = .source m := by
  unfold source?
  cases a.kind <;> simp

def buildTwice : Program Unit Empty Unit :=
  .call (.buildSource "@s/." (.root "/main.mjs" ⟨0⟩)) fun _ =>
    .call (.buildSource Linker.selfEntry.text (.root "/main.mjs" ⟨0⟩)) fun _ => .done ()

def builtTwice : State Unit Empty :=
  ((Linker.selfImporting "").exec 1 buildTwice (State.initial ())).2

def linkedOnce : Except Fault RecordId × State Unit Empty :=
  (Linker.link (Linker.selfImporting "") (serve (Linker.selfImporting "") 0) "@s/."
    (.root "/main.mjs" ⟨0⟩)).runIn (State.initial ())

theorem locations_builtTwice :
    ((builtTwice.record? ⟨0⟩).bind ModuleRecord.source?).map SourceModule.location =
      some Linker.selfSpelled ∧
    ((builtTwice.record? ⟨1⟩).bind ModuleRecord.source?).map SourceModule.location =
      some Linker.selfEntry ∧
    linkedOnce.1.toOption = some ⟨0⟩ ∧
    ((linkedOnce.2.record? ⟨0⟩).bind ModuleRecord.source?).isSome := by
  decide +kernel

/-- The record that is built by name is not identified by what its module is told. The one that is
built by path is, and the two have one URL. Linked by its name the package has a clean record. -/
theorem import_meta_identifies_module_builtTwice :
    ∃ a b m n, (builtTwice.record? ⟨0⟩ = some a ∧ a.kind = .source m) ∧
      (builtTwice.record? ⟨1⟩ = some b ∧ b.kind = .source n) ∧ m.url = n.url ∧
      (∀ importMeta, ImportMeta.ofPath m.location = .ok importMeta →
        ¬ importMeta.Identifies a.identifier) ∧
      (∃ importMeta, ImportMeta.ofPath n.location = .ok importMeta ∧
        importMeta.Identifies b.identifier) ∧
      ∃ c k, linkedOnce.2.record? ⟨0⟩ = some c ∧ c.kind = .source k ∧ Clean k.location := by
  obtain ⟨hspelled, hentry, hlinked, hsource⟩ := locations_builtTwice
  obtain ⟨m, hm, hspelled⟩ := Option.map_eq_some_iff.1 hspelled
  obtain ⟨n, hn, hentry⟩ := Option.map_eq_some_iff.1 hentry
  obtain ⟨k, hk⟩ := Option.isSome_iff_exists.1 hsource
  obtain ⟨a, ha, hm⟩ := Option.bind_eq_some_iff.1 hm
  obtain ⟨b, hb, hn⟩ := Option.bind_eq_some_iff.1 hn
  obtain ⟨c, hc, hk⟩ := Option.bind_eq_some_iff.1 hk
  rw [ModuleRecord.source?_eq_some] at hm hn hk
  obtain ⟨hbuilt, hlink⟩ := import_meta_identifies_module (Linker.selfImporting "")
  obtain ⟨⟨told, htold, -, -, -, hidentifies⟩, -, hpairs⟩ :=
    hbuilt Unit 1 buildTwice () ⟨0⟩ a m ha hm
  obtain ⟨⟨told', htold', -, -, -, hidentifies'⟩, -, -⟩ :=
    hbuilt Unit 1 buildTwice () ⟨1⟩ b n hb hn
  have hsteps : m.location.components = n.location.components := by
    rw [hspelled, hentry]
    decide +kernel
  have hblank : ¬ Clean m.location := by
    rw [hspelled, clean_iff (by decide +kernel)]
    decide +kernel
  have hclean : Clean n.location := by
    rw [hentry, clean_iff (by decide +kernel)]
    decide +kernel
  refine ⟨a, b, m, n, ⟨ha, hm⟩, ⟨hb, hn⟩, (hpairs ⟨1⟩ b n hb hn).1.2 hsteps,
    fun importMeta h hid => ?_, ⟨told', htold', hidentifies'.2 hclean⟩, c, k, hc, hk, ?_⟩
  · rw [htold] at h
    cases h
    exact hblank (hidentifies.1 hid)
  · exact hlink _ _ _ _ _ _ c k (Eff.runIn_eq_ok_of_toOption hlinked) hc hk

/-- Two records of one file have one URL and two identifiers, and the URL is read back to one of
them. -/
theorem one_url_under_two_identifiers :
    (builtTwice.record? ⟨0⟩).map ModuleRecord.identifier = some "/node_modules/@s/./index.js" ∧
    (builtTwice.record? ⟨1⟩).map ModuleRecord.identifier = some "/node_modules/@s/index.js" ∧
    ((builtTwice.record? ⟨0⟩).bind ModuleRecord.source?).map SourceModule.url =
      some "file:///node_modules/@s/index.js" ∧
    ((builtTwice.record? ⟨1⟩).bind ModuleRecord.source?).map SourceModule.url =
      some "file:///node_modules/@s/index.js" ∧
    decodeUrl? "file:///node_modules/@s/index.js" = some "/node_modules/@s/index.js" := by
  decide +kernel

end ModuleLoader
