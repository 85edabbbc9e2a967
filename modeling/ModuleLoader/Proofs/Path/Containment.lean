import ModuleLoader.Proofs.Path.Candidates
import ModuleLoader.Proofs.Path.Place
/-!
Subpaths stay inside their packages.

A package id may have a path behind the name of the package, and that is followed
from the directory of the package. If there are no dots in it, it should lead
nowhere but to what is in that directory, whatever slashes it has. Steps that are
names only go down, so that is what comes of joining it and of normalising. Putting
an extension behind the last name stays there as well, and so does the index file of
a directory. If the path has no names at all, the last name is that of the package
itself, and the file is found beside the directory.

All this takes for granted that the path is joined behind the directory. A path that
begins with a slash is not. Then the package has no say in where the file is looked
for, but that it has to be there. Where the manifest of a directory leads is nowhere
restricted, and it is left out here.
-/

namespace ModuleLoader

open Path

namespace Path

/-- None of the steps is spelled as a dot, or two. -/
def IsDotless (p : Path) : Prop := ∀ t ∈ p.segments, t ≠ "." ∧ t ≠ ".."

instance (p : Path) : Decidable p.IsDotless :=
  inferInstanceAs (Decidable (∀ t ∈ p.segments, t ≠ "." ∧ t ≠ ".."))

/-- What the path spells but for slashes. -/
def names (p : Path) : List String := p.segments.filter (· ≠ "")

structure Below (q dir : Path) : Prop where
  canonical : Canonical q
  steps : dir.normalize.components <+: q.components
  ne : dir.normalize.components ≠ q.components

variable {p q dir : Path}

/-! ### Names behind names -/

theorem IsDotless.isName (h : p.IsDotless) : ∀ t ∈ p.names, IsName t := by
  intro t ht
  obtain ⟨hmem, hne⟩ := List.mem_filter.1 ht
  exact ⟨isSegment_of_mem_segments hmem, of_decide_eq_true hne, (h t hmem).1, (h t hmem).2⟩

theorem IsDotless.foldl_goTo (h : p.IsDotless) (here : List String) :
    p.segments.foldl goTo here = p.names.reverse ++ here := by
  have hfilter : (p.segments.filter fun t => !isBlank t) = p.names := by
    refine List.filter_congr fun t ht => ?_
    have hdot : (t == ".") = false := by simpa using (h t ht).1
    rw [isBlank, hdot, Bool.or_false, decide_not, beq_eq_decide]
  rw [foldl_goTo_of_ne fun t ht => (h t ht).2, hfilter]

theorem names_ne_nil (h : p.isAbsolute = false) (hne : p.text ≠ "") : p.names ≠ [] := by
  obtain ⟨t, rest, hsegments⟩ := List.exists_cons_of_ne_nil (segments_ne_nil p)
  have ht : t ≠ "" := by
    rintro rfl
    have htext := joined_segments p
    rw [hsegments] at htext
    by_cases hrest : rest = []
    · rw [hrest, joined_singleton] at htext
      exact hne htext.symm
    · rw [joined_cons "" hrest] at htext
      simp [isAbsolute, ← htext] at h
  exact List.ne_nil_of_mem (a := t) (List.mem_filter.2 ⟨by simp [hsegments], decide_eq_true ht⟩)

/-- Behind the normal form of a path, one without dots puts its names. -/
theorem normalize_join (h : p.isAbsolute = true) :
    ∃ l : List String, (∀ t ∈ l, IsName t) ∧ p.normalize = rooted l ∧
      ∀ q : Path, q.isAbsolute = false → q.IsDotless →
        (p.join q).normalize = rooted (l ++ q.names) := by
  refine ⟨p.place.reverse, by simpa using isName_place p, normalize_eq_rooted h,
    fun q hq hdots => ?_⟩
  rw [normalize_eq_rooted (isAbsolute_join h q), place_join h hq, hdots.foldl_goTo,
    List.reverse_append, List.reverse_reverse]

/-- What has further names is below. -/
theorem below_rooted {l more : List String} (h : ∀ t ∈ l ++ more, IsName t) (hmore : more ≠ [])
    (hdir : dir.normalize = rooted l) : (rooted (l ++ more)).Below dir := by
  have hl : ∀ t ∈ l, IsName t := fun t ht => h t (List.mem_append_left _ ht)
  have hcomponents : (rooted (l ++ more)).components =
      dir.normalize.components ++ more.map .name := by
    rw [hdir, components_canonical h, components_canonical hl, List.map_append, List.cons_append]
  refine { canonical := ⟨l ++ more, h, rfl⟩, steps := ?_, ne := fun heq => hmore ?_ }
  · rw [hcomponents]
    exact List.prefix_append _ _
  · rw [hcomponents, List.self_eq_append_right] at heq
    exact List.map_eq_nil_iff.1 heq

end Path

namespace RequireId

variable {files : FileTree} {name sub : String} {p q dir : Path}

/-! ### Package names -/

/-- A name as packages have it: one without a slash, or two with one between them of which the first
is that of a scope. -/
def IsPackageName (name : String) : Prop :=
  IsSegment name ∧ name.toList.head? ≠ some '@' ∨
    ∃ scope n, IsSegment scope ∧ IsSegment n ∧ name = "@" ++ scope ++ "/" ++ n

theorem splitAtSlash_append {before : List Char} (h : '/' ∉ before) (after : List Char) :
    splitAtSlash (before ++ '/' :: after) = some (before, after) := by
  induction before with
  | nil => rfl
  | cons c rest ih =>
      have hc : c ≠ '/' := fun he => h (he ▸ List.mem_cons_self)
      have hrest := ih fun hmem => h (List.mem_cons_of_mem _ hmem)
      simp [splitAtSlash, hrest]

/-- An id with a path in it is taken apart where the name ends. -/
theorem splitPackage_append (h : IsPackageName name) (sub : String) :
    splitPackage (name ++ "/" ++ sub) = (name, some sub) := by
  rcases h with ⟨hname, hhead⟩ | ⟨scope, n, hscope, hn, rfl⟩
  · have hid : (name ++ "/" ++ sub).toList = name.toList ++ '/' :: sub.toList := by simp
    unfold splitPackage
    rw [hid]
    split
    · rename_i rest hscoped
      cases hchars : name.toList with
      | nil => simp [hchars] at hscoped
      | cons c cs =>
          rw [hchars] at hscoped hhead
          exact absurd (congrArg some (List.cons.inj hscoped).1) hhead
    · rw [splitAtSlash_append hname]
      simp
  · have hid : ("@" ++ scope ++ "/" ++ n ++ "/" ++ sub).toList =
        '@' :: (scope.toList ++ '/' :: (n.toList ++ '/' :: sub.toList)) := by simp
    unfold splitPackage
    rw [hid]
    simp only [splitAtSlash_append hscope, splitAtSlash_append hn]
    refine Prod.ext (String.ext ?_) (by simp)
    simp

/-- An id that is not absolute does not begin with a slash, and so it has a name. -/
theorem name_of_isPath_eq_false (h : isPath (name ++ "/" ++ sub) = false) :
    name ≠ "" ∧ (⟨name⟩ : Path).isAbsolute = false := by
  have habs : (⟨name ++ "/" ++ sub⟩ : Path).isAbsolute = false := by
    simp only [isPath, Bool.or_eq_false_iff] at h
    exact h.2
  cases hchars : name.toList with
  | nil => simp [isAbsolute, hchars] at habs
  | cons c rest =>
      refine ⟨fun he => by simp [he] at hchars, ?_⟩
      simpa [isAbsolute, hchars] using habs

/-! ### What is found at a path -/

/-- The file is what the path says, or that with an extension, or an index file in it. -/
def Matches (p q : Path) : Prop := q = p ∨ q ∈ extended p ∨ q ∈ indexes p

theorem matches_or_main (h : asPath? files p = .ok (some q)) : Matches p q ∨ IsMain files p q := by
  unfold asPath? at h
  split at h
  · rename_i found hfound
    cases h
    exact .inl ((List.mem_cons.1 (List.mem_of_find?_eq_some hfound)).imp_right .inl)
  · split at h
    · rcases main_or_index h with hmain | hindex
      · exact .inr hmain
      · exact .inl (.inr (.inr (List.mem_of_find?_eq_some hindex)))
    · simp at h

theorem below_of_mem_indexes {l more : List String} (h : ∀ t ∈ l ++ more, IsName t)
    (hq : q ∈ indexes (rooted (l ++ more))) (hdir : dir.normalize = rooted l) : q.Below dir := by
  obtain ⟨ext, hext, rfl⟩ := List.mem_map.1 hq
  have hindex : IsName ("index" ++ ext) := isName_extension hext (by decide)
  have hnames := isName_append h hindex
  rw [join_name h hindex]
  rw [List.append_assoc] at hnames ⊢
  exact below_rooted hnames (by simp) hdir

theorem Matches.below {l more : List String} (h : ∀ t ∈ l ++ more, IsName t) (hmore : more ≠ [])
    (hq : Matches (rooted (l ++ more)) q) (hdir : dir.normalize = rooted l) : q.Below dir := by
  rcases hq with rfl | hq | hq
  · exact below_rooted h hmore hdir
  · -- the last name, which gets the extension, is one of those that lead down
    obtain ⟨init, t, ext, heq, ht, rfl⟩ := exists_of_mem_extended h hq
    obtain ⟨more, u, rfl⟩ := (List.eq_nil_or_concat' more).resolve_left hmore
    rw [← List.append_assoc] at heq h
    obtain ⟨rfl, -⟩ := List.append_inj' heq rfl
    have hnames := isName_append (fun v hv => h v (List.mem_append_left _ hv)) ht
    rw [List.append_assoc] at hnames ⊢
    exact below_rooted hnames (by simp) hdir
  · exact below_of_mem_indexes h hq hdir

/-- A directory is not found as a file, however its path is spelled. -/
theorem isFile_normalize_of_isDirectory (h : dir.isAbsolute = true)
    (hdir : files.isDirectory dir = true) : files.isFile dir.normalize = false := by
  unfold FileTree.isDirectory FileTree.find at hdir
  unfold FileTree.isFile FileTree.find
  cases hlocate : files.locate dir with
  | error e => simp [hlocate, Except.map] at hdir
  | ok found =>
      obtain ⟨place, e⟩ := found
      obtain ⟨hplace, hnormal, hentry⟩ := FileTree.normalize_of_locate h hlocate
      rw [hnormal]
      cases hagain : files.locate (rooted place.reverse) with
      | error e => rfl
      | ok again =>
          obtain ⟨place', e'⟩ := again
          obtain ⟨rfl, hentry'⟩ := FileTree.locate_rooted (by simpa using hplace) hagain
          rw [List.reverse_reverse, hentry] at hentry'
          obtain rfl := Option.some.inj hentry'
          cases e with
          | directory => rfl
          | file text? => simp [hlocate, Except.map] at hdir

/-! ### Subpaths -/

/-- The file is below the directory of a package. Or else there is nothing in the subpath, and the
file is beside the directory and has the name of that, with an extension. -/
def StaysWith (package : Path) (sub : String) (q : Path) : Prop :=
  q.Below package ∨ sub = "" ∧ ∃ ext ∈ extensions, q = ⟨package.normalize.text ++ ext⟩

/-- What a subpath matches stays with the directory that it is followed from. -/
theorem staysWith_of_matches {package : Path} (hpackage : package.isAbsolute = true)
    (hdirectory : files.isDirectory package = true) (hsub : (⟨sub⟩ : Path).isAbsolute = false)
    (hdots : (⟨sub⟩ : Path).IsDotless) (hq : Matches (package.join ⟨sub⟩).normalize q)
    (hfile : files.isFile q = true) : StaysWith package sub q := by
  obtain ⟨l, hl, hnormal, hjoin⟩ := normalize_join hpackage
  rw [hjoin ⟨sub⟩ hsub hdots] at hq
  have hnames : ∀ t ∈ l ++ names ⟨sub⟩, IsName t := fun t ht =>
    (List.mem_append.1 ht).elim (hl t) (hdots.isName t)
  by_cases hempty : sub = ""
  · have hnone : names ⟨sub⟩ = [] := by
      rw [hempty]
      rfl
    rcases hq with heq | hq | hq
    · -- it would be the directory itself
      have hnofile := isFile_normalize_of_isDirectory hpackage hdirectory
      rw [hnormal] at hnofile
      rw [heq, hnone, List.append_nil, hnofile] at hfile
      cases hfile
    · rw [hnone, List.append_nil, ← hnormal,
        extended_eq_appended (canonical_normalize hpackage)] at hq
      unfold appended at hq
      split at hq
      · cases hq
      · obtain ⟨ext, hext, rfl⟩ := List.mem_map.1 hq
        exact .inr ⟨hempty, ext, hext, rfl⟩
    · exact .inl (below_of_mem_indexes hnames hq hnormal)
  · exact .inl (hq.below hnames (names_ne_nil hsub hempty) hnormal)

/-- What matches in a package stays where the packages of the directory are. -/
theorem below_modules_of_matches (hdir : dir.isAbsolute = true) (hname : name ≠ "")
    (hrelative : (⟨name⟩ : Path).isAbsolute = false) (hdots : (⟨name⟩ : Path).IsDotless)
    (hsub : (⟨sub⟩ : Path).isAbsolute = false) (hsubdots : (⟨sub⟩ : Path).IsDotless)
    (hq : Matches ((packageDir name dir).join ⟨sub⟩).normalize q) :
    q.Below (dir.join ⟨"node_modules"⟩) := by
  have hmodules : (dir.join ⟨"node_modules"⟩).isAbsolute = true := isAbsolute_join hdir _
  obtain ⟨k, hk, hnormal, hpackage⟩ := normalize_join hmodules
  obtain ⟨l, hl, hnormal', hjoin⟩ := normalize_join (isAbsolute_join hmodules ⟨name⟩)
  have hknames : ∀ t ∈ k ++ names ⟨name⟩, IsName t := fun t ht =>
    (List.mem_append.1 ht).elim (hk t) (hdots.isName t)
  obtain rfl : l = k ++ names ⟨name⟩ :=
    rooted_injective hl hknames (hnormal'.symm.trans (hpackage ⟨name⟩ hrelative hdots))
  rw [packageDir, hjoin ⟨sub⟩ hsub hsubdots, List.append_assoc] at hq
  refine hq.below (fun t ht => ?_) (by simp [names_ne_nil hrelative hname]) hnormal
  rw [← List.append_assoc] at ht
  exact (List.mem_append.1 ht).elim (hknames t) (hsubdots.isName t)

/-- A path inside a package that does not begin with a slash leads to files below the directory of
the package, or to what a manifest there names. Nothing but its name, with an extension, may also be
found beside the directory. A path that begins with a slash is looked for as it stands. -/
theorem subpaths_stay_inside {Provider : Type} (files : FileTree) (builtins : Registry Provider)
    (name sub : String) (parent : Path) (hparent : parent.isAbsolute = true)
    (hname : IsPackageName name) (hbare : isPath (name ++ "/" ++ sub) = false) :
    (builtins.isBuiltin (name ++ "/" ++ sub) = false →
      ∀ found, resolve files builtins (name ++ "/" ++ sub) parent = .ok found →
        ∃ dir ∈ parent.ancestors, ∃ q, found = .ofFile q ∧
          files.isDirectory (packageDir name dir) = true ∧
          inPackage? files (packageDir name dir) (some sub) = .ok (some q)) ∧
    ((⟨sub⟩ : Path).isAbsolute = false → (⟨name⟩ : Path).IsDotless → (⟨sub⟩ : Path).IsDotless →
      ∀ dir ∈ parent.ancestors, ∀ q, files.isDirectory (packageDir name dir) = true →
        inPackage? files (packageDir name dir) (some sub) = .ok (some q) →
        (Matches ((packageDir name dir).join ⟨sub⟩).normalize q ∨
          IsMain files ((packageDir name dir).join ⟨sub⟩).normalize q) ∧
        (Matches ((packageDir name dir).join ⟨sub⟩).normalize q →
          StaysWith (packageDir name dir) sub q ∧ q.Below (dir.join ⟨"node_modules"⟩))) ∧
    ((⟨sub⟩ : Path).isAbsolute = true → ∀ package,
      inPackage? files package (some sub) = asPath? files (⟨sub⟩ : Path).normalize) := by
  refine ⟨fun hbuiltin found hfound => ?_, fun hsub hdots hsubdots dir hdir q hdirectory hq => ?_,
    fun hsub package => ?_⟩
  · rcases resolve_eq_ok hfound with ⟨builtin, hknown, -⟩ | ⟨q, hfile, rfl⟩
    · simp [Registry.isBuiltin, hknown] at hbuiltin
    · rw [file?_of_package hbare, splitPackage_append hname] at hfile
      obtain ⟨dir, hdir, hdirectory, hq⟩ := inPackages?_eq_some hfile
      exact ⟨dir, hdir, q, rfl, hdirectory, hq⟩
  · obtain ⟨hne, hrelative⟩ := name_of_isPath_eq_false hbare
    have habs := isAbsolute_of_mem_ancestors hparent hdir
    have hpackage : (packageDir name dir).isAbsolute = true :=
      isAbsolute_join (isAbsolute_join habs _) _
    rw [inPackage?] at hq
    refine ⟨matches_or_main hq, fun hmatches => ⟨?_, ?_⟩⟩
    · exact staysWith_of_matches hpackage hdirectory hsub hsubdots hmatches (isFile_of_asPath? hq)
    · exact below_modules_of_matches habs hne hrelative hdots hsub hsubdots hmatches
  · rw [inPackage?, join, if_pos hsub]

def scopedPackage : FileTree :=
  ⟨[(["node_modules"], .directory), (["@s", "node_modules"], .directory),
    (["pkg", "@s", "node_modules"], .directory), (["lib", "pkg", "@s", "node_modules"], .directory),
    (["x.js", "lib", "pkg", "@s", "node_modules"], .file (some ""))]⟩

/-- Slashes in the path inside it make no difference. -/
theorem subpaths_stay_inside_scopedPackage :
    let package : Path := ⟨"/node_modules/@s/pkg"⟩
    ∃ q, resolve scopedPackage (⟨"node:", []⟩ : Registry Unit) "@s/pkg/lib//x" ⟨"/main.cjs"⟩ =
      .ok (.ofFile q) ∧ StaysWith package "lib//x" q ∧ q.Below ⟨"/node_modules"⟩ := by
  intro package
  have hname : IsPackageName "@s/pkg" := .inr ⟨"s", "pkg", by decide, by decide, by decide⟩
  have hdirs : packageDir "@s/pkg" ⟨"/"⟩ = package ∧
      (⟨"/"⟩ : Path).join ⟨"node_modules"⟩ = ⟨"/node_modules"⟩ ∧
      ⟨"/"⟩ ∈ (⟨"/main.cjs"⟩ : Path).ancestors := by
    decide +kernel
  obtain ⟨hpackage, hmodules, hmem⟩ := hdirs
  have hfacts : scopedPackage.isDirectory package = true ∧
      inPackage? scopedPackage package (some "lib//x") =
        .ok (some ⟨"/node_modules/@s/pkg/lib/x.js"⟩) ∧
      ⟨"/node_modules/@s/pkg/lib/x.js"⟩ ∈ extended (package.join ⟨"lib//x"⟩).normalize ∧
      resolve scopedPackage (⟨"node:", []⟩ : Registry Unit) "@s/pkg/lib//x" ⟨"/main.cjs"⟩ =
        .ok (.ofFile ⟨"/node_modules/@s/pkg/lib/x.js"⟩) := by
    decide +kernel
  obtain ⟨hdirectory, hfound, hextended, hresolve⟩ := hfacts
  obtain ⟨-, hstays, -⟩ := subpaths_stay_inside scopedPackage (⟨"node:", []⟩ : Registry Unit)
    "@s/pkg" "lib//x" ⟨"/main.cjs"⟩ (by decide) hname (by decide +kernel)
  have hcontained := hstays (by decide) (by decide +kernel) (by decide +kernel) ⟨"/"⟩ hmem
    ⟨"/node_modules/@s/pkg/lib/x.js"⟩
  rw [hpackage, hmodules] at hcontained
  exact ⟨_, hresolve, (hcontained hdirectory hfound).2 (.inr (.inl hextended))⟩

def emptyPackage : FileTree :=
  ⟨[(["app"], .directory), (["node_modules", "app"], .directory),
    (["pkg", "node_modules", "app"], .directory),
    (["readme.txt", "pkg", "node_modules", "app"], .file (some "")), (["etc"], .directory),
    (["secret.js", "etc"], .file (some ""))]⟩

/-- With a slash too many a path inside the package leads to the file elsewhere. -/
theorem slashed_subpath_leaves_package :
    let package : Path := ⟨"/app/node_modules/pkg"⟩
    let parent : Path := ⟨"/app/main.cjs"⟩
    let sub : String := "/etc/secret.js"
    let q : Path := ⟨"/etc/secret.js"⟩
    IsPackageName "pkg" ∧ (⟨"pkg"⟩ : Path).IsDotless ∧ (⟨sub⟩ : Path).IsDotless ∧
      parent.isAbsolute = true ∧
      resolve emptyPackage (⟨"node:", []⟩ : Registry Unit) ("pkg" ++ "/" ++ sub) parent =
        .ok (.script q) ∧
      packageDir "pkg" ⟨"/app"⟩ = package ∧ ⟨"/app"⟩ ∈ parent.ancestors ∧
      emptyPackage.isDirectory package = true ∧
      inPackage? emptyPackage package (some sub) = .ok (some q) ∧
      Matches (package.join ⟨sub⟩).normalize q ∧ ¬ StaysWith package sub q := by
  intro package parent sub q
  have hfacts : (⟨"pkg"⟩ : Path).IsDotless ∧ (⟨sub⟩ : Path).IsDotless ∧ parent.isAbsolute = true ∧
      resolve emptyPackage (⟨"node:", []⟩ : Registry Unit) ("pkg" ++ "/" ++ sub) parent =
        .ok (.script q) ∧
      packageDir "pkg" ⟨"/app"⟩ = package ∧ ⟨"/app"⟩ ∈ parent.ancestors ∧
      emptyPackage.isDirectory package = true ∧
      inPackage? emptyPackage package (some sub) = .ok (some q) ∧
      q = (package.join ⟨sub⟩).normalize ∧
      ¬ package.normalize.components <+: q.components := by
    decide +kernel
  obtain ⟨hname, hsub, hparent, hresolve, hpackage, hmem, hdirectory, hfound, hq, hsteps⟩ := hfacts
  refine ⟨.inl ⟨by decide, by decide⟩, hname, hsub, hparent, hresolve, hpackage, hmem, hdirectory,
    hfound, .inl hq, ?_⟩
  rintro (hbelow | ⟨hempty, -⟩)
  · exact hsteps hbelow.steps
  · exact absurd hempty (by decide)

end RequireId

end ModuleLoader
