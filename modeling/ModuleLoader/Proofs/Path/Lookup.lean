import ModuleLoader.Proofs.Path.NormalForm
import ModuleLoader.Resolve.Specifier
/-!
The spelling of what lookups find.

Every path that a specifier or a required id can lead to is canonical, with one
exception. A package without a path inside it is looked up under its name as
that was written, and the index file of the package is the one candidate that
goes through no normalisation. A name is mostly harmless there: one that is a
dot, or two, would have been taken for a relative path. But a scope may stand
before the dots, and then the dots stay in the path that is found. Such an id is
called blurred.
-/

namespace ModuleLoader

open Path

namespace RequireId

variable {files : FileTree}

/-- A scope, a slash and dots. -/
def Blurred (id : String) : Prop :=
  ∃ scope dots, IsSegment scope ∧ (dots = "." ∨ dots = "..") ∧ id = "@" ++ scope ++ "/" ++ dots

/-! ### Candidates -/

theorem isName_extension {ext : String} (h : ext ∈ extensions) {t : String} (ht : IsSegment t) :
    IsName (t ++ ext) := by
  have hext : IsSegment ext ∧ 3 ≤ ext.toList.length := by
    revert ext
    decide
  have hlength : 3 ≤ (t ++ ext).toList.length := by
    rw [String.toList_append, List.length_append]
    omega
  refine ⟨?_, ?_, ?_, ?_⟩
  · rw [IsSegment, String.toList_append, List.mem_append, not_or]
    exact ⟨ht, hext.1⟩
  all_goals
    intro he
    rw [he] at hlength
    revert hlength
    decide

theorem exists_of_mem_extended {names : List String} (h : ∀ t ∈ names, IsName t) {q : Path}
    (hq : q ∈ extended (rooted names)) :
    ∃ init t ext, names = init ++ [t] ∧ IsName (t ++ ext) ∧ q = rooted (init ++ [t ++ ext]) := by
  unfold extended at hq
  rw [fileName?_rooted h] at hq
  rcases List.eq_nil_or_concat' names with rfl | ⟨init, t, rfl⟩
  · simp at hq
  · rw [List.getLast?_concat] at hq
    obtain ⟨ext, hext, rfl⟩ := List.mem_map.1 hq
    have hname : IsName (t ++ ext) := isName_extension hext (h t (by simp)).segment
    exact ⟨init, t, ext, rfl, hname, withFileName_rooted h hname⟩

theorem canonical_of_mem_extended {p q : Path} (hp : Canonical p) (hq : q ∈ extended p) :
    Canonical q := by
  obtain ⟨names, hnames, rfl⟩ := hp
  obtain ⟨init, t, ext, rfl, hname, rfl⟩ := exists_of_mem_extended hnames hq
  exact ⟨_, isName_append (fun u hu => hnames u (List.mem_append_left _ hu)) hname, rfl⟩

theorem canonical_asFile? {p q : Path} (hp : Canonical p) (h : asFile? files p = some q) :
    Canonical q := by
  rcases List.mem_cons.1 (List.mem_of_find?_eq_some h) with rfl | hq
  · exact hp
  · exact canonical_of_mem_extended hp hq

theorem isAbsolute_of_mem_indexes {dir q : Path} (hdir : dir.isAbsolute = true)
    (hq : q ∈ indexes dir) : q.isAbsolute = true := by
  obtain ⟨ext, -, rfl⟩ := List.mem_map.1 hq
  exact isAbsolute_join hdir _

theorem canonical_of_mem_indexes {dir q : Path} (hdir : Canonical dir) (hq : q ∈ indexes dir) :
    Canonical q := by
  obtain ⟨ext, hext, rfl⟩ := List.mem_map.1 hq
  exact hdir.join_name (isName_extension hext (by decide))

def IsMain (files : FileTree) (dir q : Path) : Prop :=
  ∃ m, main? files dir = .ok (some m) ∧ asFile? files (dir.join ⟨m⟩).normalize = some q

/-- A directory stands for a file that the manifest leads to, or for an index file. -/
theorem main_or_index {dir q : Path} (h : asDirectory? files dir = .ok (some q)) :
    IsMain files dir q ∨ (indexes dir).find? files.isFile = some q := by
  unfold asDirectory? at h
  cases hmain : main? files dir with
  | error e => simp [hmain, Except.map] at h
  | ok main =>
      rw [hmain] at h
      have h := Except.ok.inj h
      dsimp only at h
      split at h
      · rename_i found hfound
        obtain ⟨m, hm, hfile⟩ := Option.bind_eq_some_iff.1 hfound
        cases h
        exact Or.inl ⟨m, hm ▸ hmain, hfile⟩
      · exact Or.inr h

theorem asDirectory?_eq_some {dir q : Path} (hdir : dir.isAbsolute = true)
    (h : asDirectory? files dir = .ok (some q)) : Canonical q ∨ q ∈ indexes dir := by
  rcases main_or_index h with ⟨m, -, hfile⟩ | hindex
  · exact Or.inl (canonical_asFile? (canonical_normalize (isAbsolute_join hdir _)) hfile)
  · exact Or.inr (List.mem_of_find?_eq_some hindex)

theorem canonical_asPath? {p q : Path} (hp : Canonical p) (h : asPath? files p = .ok (some q)) :
    Canonical q := by
  unfold asPath? at h
  split at h
  · rename_i found hfound
    cases h
    exact canonical_asFile? hp hfound
  · split at h
    · rcases asDirectory?_eq_some hp.isAbsolute h with hq | hq
      · exact hq
      · exact canonical_of_mem_indexes hp hq
    · simp at h

/-! ### Packages -/

theorem splitAtSlash_eq_none_iff {l : List Char} : splitAtSlash l = none ↔ '/' ∉ l := by
  induction l with
  | nil => simp [splitAtSlash]
  | cons c rest ih =>
      by_cases hc : c = '/'
      · rw [hc]
        simp [splitAtSlash]
      · simp [splitAtSlash, Ne.symm hc, ih]

theorem splitAtSlash_eq_some {l before after : List Char}
    (h : splitAtSlash l = some (before, after)) : l = before ++ '/' :: after ∧ '/' ∉ before := by
  induction l generalizing before with
  | nil => simp [splitAtSlash] at h
  | cons c rest ih =>
      by_cases hc : c = '/'
      · rw [hc] at h
        simp only [splitAtSlash, Option.some.injEq, Prod.mk.injEq] at h
        obtain ⟨rfl, rfl⟩ := h
        simp [hc]
      · have hrest : ∃ b, splitAtSlash rest = some (b, after) ∧ c :: b = before := by
          simpa [splitAtSlash, hc] using h
        obtain ⟨b, hb, rfl⟩ := hrest
        obtain ⟨rfl, hslash⟩ := ih hb
        exact ⟨rfl, by simp [Ne.symm hc, hslash]⟩

/-- An id with no path in it has no slash, or one behind a scope. -/
theorem splitPackage_eq_none {id name : String} (h : splitPackage id = (name, none)) :
    name = id ∧ (IsSegment id ∨
      ∃ scope n, IsSegment scope ∧ IsSegment n ∧ id = "@" ++ scope ++ "/" ++ n) := by
  unfold splitPackage at h
  split at h
  · rename_i rest hid
    split at h
    · rename_i hsplit
      refine ⟨(Prod.mk.inj h).1.symm, Or.inl ?_⟩
      rw [IsSegment, hid]
      simpa using splitAtSlash_eq_none_iff.1 hsplit
    · rename_i scope rest' hsplit
      obtain ⟨rfl, hscope⟩ := splitAtSlash_eq_some hsplit
      split at h
      · rename_i hsplit'
        refine ⟨(Prod.mk.inj h).1.symm,
          Or.inr ⟨String.ofList scope, String.ofList rest', ?_, ?_, ?_⟩⟩
        · simpa [IsSegment] using hscope
        · simpa [IsSegment] using splitAtSlash_eq_none_iff.1 hsplit'
        · apply String.ext
          simp [hid]
      · simp at h
  · split at h
    · rename_i hsplit
      exact ⟨(Prod.mk.inj h).1.symm, Or.inl (splitAtSlash_eq_none_iff.1 hsplit)⟩
    · simp at h

theorem join_stem_name (l : List String) {t : String} (ht : IsName t) :
    (⟨stem l⟩ : Path).join ⟨t⟩ = rooted (l ++ [t]) := by
  have htext := text_rooted_append l (List.cons_ne_nil t [])
  rw [joined_singleton] at htext
  rw [join_stem l ht.isAbsolute_eq_false]
  exact congrArg Path.mk htext.symm

theorem packageDir_rooted {names : List String} (h : ∀ t ∈ names, IsName t) (name : String) :
    packageDir name (rooted names) = (rooted (names ++ ["node_modules"])).join ⟨name⟩ := by
  rw [packageDir, join_name h (by decide)]

/-- The directory of a package that is a name has that name at its end. -/
theorem packageDir_name {names : List String} (h : ∀ t ∈ names, IsName t) {name : String}
    (hname : IsName name) :
    packageDir name (rooted names) = rooted (names ++ ["node_modules"] ++ [name]) := by
  rw [packageDir_rooted h, join_name (isName_append h (by decide)) hname]

theorem isName_scope {scope : String} (hscope : IsSegment scope) : IsName ("@" ++ scope) := by
  refine ⟨by simpa [IsSegment] using hscope, by simp, fun he => ?_, fun he => ?_⟩
  all_goals
    have hhead := congrArg (fun t : String => t.toList.head?) he
    simp at hhead

theorem packageDir_scoped {names : List String} (h : ∀ t ∈ names, IsName t) {scope n : String}
    (hscope : IsSegment scope) :
    packageDir ("@" ++ scope ++ "/" ++ n) (rooted names) =
      rooted (names ++ ["node_modules"] ++ ["@" ++ scope, n]) := by
  have ht : IsName ("@" ++ scope) := isName_scope hscope
  have hlast := last_isName (isName_append h (t := "node_modules") (by decide))
  have hjoin : (rooted (names ++ ["node_modules"])).join ⟨joined ["@" ++ scope, n]⟩ =
      rooted (names ++ ["node_modules"] ++ ["@" ++ scope, n]) :=
    join_rooted_joined hlast ht.segment ht.ne_empty
  rw [joined_cons _ (List.cons_ne_nil n []), joined_singleton] at hjoin
  rw [packageDir_rooted h, hjoin]

/-- The index file of a package without a path inside it is canonical, unless the id is blurred. -/
theorem canonical_or_blurred {dir q : Path} (hdir : Canonical dir) {id : String}
    (hrelative : spellsRelative id = false) (hsplit : ∃ name, splitPackage id = (name, none))
    (hq : q ∈ indexes (packageDir id dir)) : Canonical q ∨ Blurred id := by
  obtain ⟨names, hnames, rfl⟩ := hdir
  obtain ⟨ext, hext, rfl⟩ := List.mem_map.1 hq
  have hindex : IsName ("index" ++ ext) := isName_extension hext (by decide)
  have hmodules := isName_append hnames (t := "node_modules") (by decide)
  -- a directory that ends in a slash, and one that ends in a name
  have hstem : ∀ l : List String, (∀ t ∈ l, IsName t) →
      Canonical ((⟨stem l⟩ : Path).join ⟨"index" ++ ext⟩) := fun l hl =>
    ⟨_, isName_append hl hindex, join_stem_name l hindex⟩
  have hname : ∀ l : List String, (∀ t ∈ l, IsName t) →
      Canonical ((rooted l).join ⟨"index" ++ ext⟩) := fun l hl =>
    Canonical.join_name ⟨l, hl, rfl⟩ hindex
  obtain ⟨name, hsplit⟩ := hsplit
  obtain ⟨-, hid | ⟨scope, n, hscope, hn, rfl⟩⟩ := splitPackage_eq_none hsplit
  · by_cases hempty : id = ""
    · left
      have hpackage : packageDir id (rooted names) = ⟨stem (names ++ ["node_modules"])⟩ := by
        rw [packageDir_rooted hnames, hempty, join_rooted (last_isName hmodules) rfl]
        simp
      rw [hpackage]
      exact hstem _ hmodules
    · have hhere : id ≠ "." := fun he => by rw [he] at hrelative; revert hrelative; decide
      have hup : id ≠ ".." := fun he => by rw [he] at hrelative; revert hrelative; decide
      have hpackage : IsName id := ⟨hid, hempty, hhere, hup⟩
      rw [packageDir_name hnames hpackage]
      exact Or.inl (hname _ (isName_append hmodules hpackage))
  · by_cases hdots : n = "." ∨ n = ".."
    · exact Or.inr ⟨scope, n, hscope, hdots, rfl⟩
    · left
      have hdir := isName_append hmodules (isName_scope hscope)
      rw [packageDir_scoped hnames hscope, List.append_cons]
      by_cases hempty : n = ""
      · have hpath : rooted (names ++ ["node_modules"] ++ ["@" ++ scope] ++ [n]) =
            ⟨stem (names ++ ["node_modules"] ++ ["@" ++ scope])⟩ := by
          apply congrArg Path.mk
          have htext := text_rooted_append (names ++ ["node_modules"] ++ ["@" ++ scope])
            (List.cons_ne_nil n [])
          rw [joined_singleton, hempty, String.append_empty] at htext
          rw [hempty]
          exact htext
        rw [hpath]
        exact hstem _ hdir
      · have hn : IsName n := ⟨hn, hempty, fun he => hdots (Or.inl he), fun he => hdots (Or.inr he)⟩
        exact hname _ (isName_append hdir hn)

/-! ### Resolution -/

theorem inPackages?_eq_some {name : String} {sub? : Option String} {dirs : List Path} {q : Path}
    (h : inPackages? files name sub? dirs = .ok (some q)) :
    ∃ dir ∈ dirs, files.isDirectory (packageDir name dir) = true ∧
      inPackage? files (packageDir name dir) sub? = .ok (some q) := by
  induction dirs with
  | nil => simp [inPackages?] at h
  | cons dir rest ih =>
      have hlater : inPackages? files name sub? rest = .ok (some q) →
          ∃ d ∈ dir :: rest, files.isDirectory (packageDir name d) = true ∧
            inPackage? files (packageDir name d) sub? = .ok (some q) := fun h =>
        let ⟨d, hd, hq⟩ := ih h
        ⟨d, List.mem_cons_of_mem _ hd, hq⟩
      unfold inPackages? at h
      dsimp only at h
      split at h
      · rename_i hpackage
        split at h
        · simp at h
        · rename_i found hfound
          cases h
          exact ⟨dir, List.mem_cons_self, hpackage, hfound⟩
        · exact hlater h
      · exact hlater h

theorem file?_of_package {id : String} {parent : Path} (h : isPath id = false) :
    file? files id parent =
      inPackages? files (splitPackage id).1 (splitPackage id).2 parent.ancestors := by
  unfold file?
  rw [h]
  rfl

theorem isFile_of_asFile? {p q : Path} (h : asFile? files p = some q) : files.isFile q :=
  List.find?_some h

theorem isFile_of_asDirectory? {dir q : Path} (h : asDirectory? files dir = .ok (some q)) :
    files.isFile q := by
  rcases main_or_index h with ⟨m, -, hfile⟩ | hindex
  · exact isFile_of_asFile? hfile
  · exact List.find?_some hindex

theorem isFile_of_asPath? {p q : Path} (h : asPath? files p = .ok (some q)) : files.isFile q := by
  unfold asPath? at h
  split at h
  · rename_i found hfound
    cases h
    exact isFile_of_asFile? hfound
  · split at h
    · exact isFile_of_asDirectory? h
    · cases h

theorem isFile_of_inPackage? {package q : Path} {sub? : Option String}
    (h : inPackage? files package sub? = .ok (some q)) : files.isFile q := by
  cases sub? with
  | none => exact isFile_of_asDirectory? h
  | some sub => exact isFile_of_asPath? h

/-- Whatever is found is a file, from wherever it is asked for. -/
theorem isFile_of_file? {id : String} {parent q : Path} (h : file? files id parent = .ok (some q)) :
    files.isFile q := by
  unfold file? at h
  split at h
  · exact isFile_of_asPath? h
  · obtain ⟨dir, -, -, hdir⟩ := inPackages?_eq_some h
    exact isFile_of_inPackage? hdir

/-- The id names a package and no path inside it, and the path is that of an index file which is
looked for under this name. -/
structure NamesIndex (id : String) (parent q : Path) : Prop where
  relative : spellsRelative id = false
  name : ∃ name, splitPackage id = (name, none)
  index : ∃ dir ∈ parent.ancestors, q ∈ indexes (packageDir id dir)

/-- What is found from an absolute path is canonical, or it is an index file that goes through no
normalisation. -/
theorem canonical_or_namesIndex {id : String} {parent q : Path} (hparent : parent.isAbsolute = true)
    (h : file? files id parent = .ok (some q)) : Canonical q ∨ NamesIndex id parent q := by
  by_cases hpath : isPath id = true
  · rw [file?, if_pos hpath] at h
    exact .inl (canonical_asPath?
      (canonical_normalize (isAbsolute_join (isAbsolute_parentOr hparent rfl) _)) h)
  rw [file?_of_package (by simpa using hpath)] at h
  obtain ⟨dir, hdir, -, hq⟩ := inPackages?_eq_some h
  have habs : (packageDir (splitPackage id).1 dir).isAbsolute = true :=
    isAbsolute_join (isAbsolute_join (isAbsolute_of_mem_ancestors hparent hdir) _) _
  cases hsub : (splitPackage id).2 with
  | some sub =>
      rw [hsub, inPackage?] at hq
      exact .inl (canonical_asPath? (canonical_normalize (isAbsolute_join habs _)) hq)
  | none =>
      rw [hsub] at hq
      have hsplit : splitPackage id = ((splitPackage id).1, none) := Prod.ext rfl hsub
      have hrelative : spellsRelative id = false := by
        simp only [isPath, Bool.or_eq_true, not_or, Bool.not_eq_true] at hpath
        exact hpath.1
      refine (asDirectory?_eq_some habs hq).imp_right
        fun hindex => ⟨hrelative, ⟨_, hsplit⟩, dir, hdir, ?_⟩
      rwa [(splitPackage_eq_none hsplit).1] at hindex

theorem NamesIndex.isAbsolute {id : String} {parent q : Path} (h : NamesIndex id parent q)
    (hparent : parent.isAbsolute = true) : q.isAbsolute = true := by
  obtain ⟨dir, hdir, hindex⟩ := h.index
  have habs := isAbsolute_of_mem_ancestors hparent hdir
  exact isAbsolute_of_mem_indexes (isAbsolute_join (isAbsolute_join habs _) _) hindex

theorem NamesIndex.canonical_or_blurred {id : String} {parent q : Path} (h : NamesIndex id parent q)
    (hparent : Canonical parent) : Canonical q ∨ Blurred id := by
  obtain ⟨dir, hdir, hindex⟩ := h.index
  exact RequireId.canonical_or_blurred (hparent.mem_ancestors hdir) h.relative h.name hindex

theorem spelling_of_file? {id : String} {parent q : Path} (hparent : parent.isAbsolute = true)
    (h : file? files id parent = .ok (some q)) :
    q.isAbsolute = true ∧ (Canonical parent → Canonical q ∨ Blurred id) := by
  rcases canonical_or_namesIndex hparent h with hq | hindex
  · exact ⟨hq.isAbsolute, fun _ => .inl hq⟩
  · exact ⟨hindex.isAbsolute hparent, hindex.canonical_or_blurred⟩

theorem path?_ofFile (p : Path) : (Resolution.ofFile p).path? = some p := by
  unfold Resolution.ofFile
  split <;> rfl

/-- An id is that of a built-in, or else a file has been found for it. -/
theorem resolve_eq_ok {Provider : Type} {builtins : Registry Provider} {id : String} {parent : Path}
    {found : Resolution} (h : resolve files builtins id parent = .ok found) :
    (∃ name, builtins.canonicalName? id = some name ∧ found = .builtin name) ∨
      ∃ q, file? files id parent = .ok (some q) ∧ found = .ofFile q := by
  unfold resolve at h
  cases hname : builtins.canonicalName? id with
  | some name =>
      rw [hname] at h
      exact .inl ⟨name, rfl, (Except.ok.inj h).symm⟩
  | none =>
      rw [hname] at h
      dsimp only at h
      rcases hfile : file? files id parent with e | (- | q)
      · simp [hfile] at h
      · simp [hfile] at h
      · rw [hfile] at h
        exact .inr ⟨q, rfl, (Except.ok.inj h).symm⟩

theorem canonical_or_namesIndex_of_resolvePackage {Provider : Type} {builtins : Registry Provider}
    {specifier : String} {anchor q : Path} (hanchor : anchor.isAbsolute = true)
    (h : resolvePackage files builtins specifier anchor = .ok q) :
    Canonical q ∨ NamesIndex specifier anchor q := by
  unfold resolvePackage at h
  cases hresolve : resolve files builtins specifier anchor with
  | error e => cases e <;> simp [hresolve] at h
  | ok found =>
      rcases resolve_eq_ok hresolve with ⟨name, -, rfl⟩ | ⟨p, hfile, rfl⟩
      · simp [hresolve, Resolution.path?] at h
      · obtain rfl : p = q := by simpa [hresolve, path?_ofFile] using h
        exact canonical_or_namesIndex hanchor hfile

end RequireId

namespace Location

variable {Provider Other : Type} {builtins : Registry Provider} {others : Registry Other}
  {files : FileTree} {specifier referrer : String} {location : Location} {p : Path}

/-- Where a specifier is found to mean a file the referrer has an absolute path for a name. What it
leads to is canonical, unless it is the index file of a package. -/
theorem canonical_or_namesIndex
    (h : resolve builtins (RequireId.resolvePackage files others) specifier referrer = .ok location)
    (hp : location.path? = some p) :
    (⟨referrer⟩ : Path).isAbsolute = true ∧
      (Canonical p ∨ RequireId.NamesIndex specifier ⟨referrer⟩ p) := by
  have hnormal {q : Path} (hq : q.isAbsolute = true) (hlocation : .file q.normalize = location) :
      Canonical p := by
    subst hlocation
    cases hp
    exact canonical_normalize hq
  unfold resolve at h
  dsimp only at h
  split at h
  · cases h
    simp [path?] at hp
  split at h
  · simp at h
  rename_i hreferrer
  have hreferrer : (⟨referrer⟩ : Path).isAbsolute = true := by simpa using hreferrer
  refine ⟨hreferrer, ?_⟩
  split at h
  · exact .inl (hnormal (by assumption) (Except.ok.inj h))
  split at h
  · exact .inl (hnormal (isAbsolute_join (isAbsolute_parentOr hreferrer hreferrer) _)
      (Except.ok.inj h))
  · cases hpackage : RequireId.resolvePackage files others specifier ⟨referrer⟩ with
    | error e => simp [hpackage, Except.map] at h
    | ok q =>
        rw [hpackage] at h
        cases h
        cases hp
        exact RequireId.canonical_or_namesIndex_of_resolvePackage hreferrer hpackage

/-- What is resolved is an absolute path, and a canonical one where the referrer is canonical,
unless the specifier is blurred. -/
theorem spelling_of_resolve
    (h : resolve builtins (RequireId.resolvePackage files others) specifier referrer = .ok location)
    (hp : location.path? = some p) :
    p.isAbsolute = true ∧ (Canonical ⟨referrer⟩ → Canonical p ∨ RequireId.Blurred specifier) := by
  obtain ⟨hreferrer, hfound⟩ := canonical_or_namesIndex h hp
  rcases hfound with hq | hindex
  · exact ⟨hq.isAbsolute, fun _ => .inl hq⟩
  · exact ⟨hindex.isAbsolute hreferrer, hindex.canonical_or_blurred⟩

end Location

end ModuleLoader
