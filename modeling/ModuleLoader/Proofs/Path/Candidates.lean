import ModuleLoader.Proofs.Path.Lookup
/-!
Resolving an id, as a list of candidates.

How an id is resolved is told by five functions that call each other, each with
a way of its own to go on when nothing is found. All of that can be written down
without saying what is found: as the list of the paths that the id may mean, in
the order in which they are asked for, with a mark where a manifest is looked at
that tells nothing. The file tree has its say only in which directories there
are and in what their manifests name. Then resolving is to take the first of the
candidates that is a file, and to give up at a mark.

The candidates are spelled out on the text of paths, where the search takes
paths apart into components and puts them together again. On a path in normal
form these come to the same thing, but for the root. An extension is appended to
a file name, and the root has none; behind the slash of the root there would be
room for a file named `.js`, but nobody looks for it there.
-/

namespace ModuleLoader

open Path

/-! ### The directories above a path -/

namespace Path

inductive Ascends : Path → List Path → Prop
  | top {p : Path} (h : p.parent? = none) : Ascends p []
  | up {p dir : Path} {dirs : List Path} (h : p.parent? = some dir) (hdirs : Ascends dir dirs) :
      Ascends p (dir :: dirs)

theorem joined_ne_empty {l : List String} (hne : l ≠ []) (hl : ∀ t ∈ l, IsSegment t)
    (htrimmed : trimmed l ≠ []) : joined l ≠ "" := by
  intro hjoined
  have hblank : l = [""] := by rw [← segments_joined hne hl, hjoined]; rfl
  exact htrimmed (hblank ▸ rfl)

/-- Something is lost on the way to the parent. -/
theorem length_parent?_lt {p dir : Path} (h : p.isAbsolute = true) (hdir : p.parent? = some dir) :
    dir.text.length < p.text.length := by
  obtain ⟨l, hne, hl, rfl⟩ := exists_rooted h
  unfold parent? at hdir
  rw [anchored_rooted hne hl] at hdir
  dsimp only at hdir
  cases hsteps : trimmed l with
  | nil => simp [hsteps] at hdir
  | cons t rest =>
      rw [hsteps] at hdir
      obtain rfl := Option.some.inj hdir
      obtain ⟨lost, hlost⟩ : trimmed (t :: rest).dropLast <+: l :=
        ((trimmed_isInit _).trans (List.dropLast_prefix _)).trans (hsteps ▸ trimmed_isInit l)
      have hshort : (trimmed (t :: rest).dropLast).length < l.length := by
        have hsteps_le : (t :: rest).length ≤ l.length := hsteps ▸ (trimmed_isInit l).length_le
        have hinit := (trimmed_isInit (t :: rest).dropLast).length_le
        rw [List.length_dropLast] at hinit
        rw [List.length_cons] at hinit hsteps_le
        omega
      have hlost_ne : lost ≠ [] := by
        rintro rfl
        rw [List.append_nil] at hlost
        rw [hlost] at hshort
        exact Nat.lt_irrefl _ hshort
      change ("/" ++ joined (trimmed (t :: rest).dropLast)).length < ("/" ++ joined l).length
      rw [String.length_append, String.length_append]
      refine Nat.add_lt_add_left ?_ _
      by_cases hkept : trimmed (t :: rest).dropLast = []
      · rw [hkept]
        exact Nat.pos_of_ne_zero fun h =>
          joined_ne_empty hne hl (by simp [hsteps]) (String.length_eq_zero_iff.1 h)
      · rw [← hlost, joined_append hkept hlost_ne, String.length_append, String.length_append]
        exact Nat.lt_of_lt_of_le (Nat.lt_succ_self _) (Nat.le_add_right _ _)

theorem Ascends.unique {p : Path} {l l' : List Path} (h : Ascends p l) (h' : Ascends p l') :
    l = l' := by
  induction h generalizing l' with
  | top hnone =>
      cases h' with
      | top _ => rfl
      | up hdir _ => simp [hnone] at hdir
  | up hdir _ ih =>
      cases h' with
      | top hnone => simp [hnone] at hdir
      | up hdir' hdirs' =>
          obtain rfl := Option.some.inj (hdir.symm.trans hdir')
          rw [ih hdirs']

theorem ascends_ancestors {p : Path} (h : p.isAbsolute = true) : Ascends p p.ancestors := by
  suffices H : ∀ n (p : Path), p.isAbsolute = true → p.text.length ≤ n →
      Ascends p (ancestorsWithin n p) from H _ p h (Nat.le_refl _)
  intro n
  induction n with
  | zero =>
      intro p h hlength
      have hempty : p.text = "" := String.length_eq_zero_iff.1 (Nat.le_zero.1 hlength)
      rw [isAbsolute, hempty] at h
      exact absurd h (by decide)
  | succ n ih =>
      intro p h hlength
      unfold ancestorsWithin
      cases hdir : p.parent? with
      | none => exact .top hdir
      | some dir =>
          refine .up hdir (ih dir (isAbsolute_of_parent h hdir) ?_)
          have hlt := length_parent?_lt h hdir
          omega

end Path

namespace RequireId

/-! ### The candidates -/

inductive Candidate where
  | path (p : Path)
  | fault (e : Error)
  deriving DecidableEq

def Candidate.IsDecisive (files : FileTree) : Candidate → Prop
  | path p => files.isFile p = true
  | fault _ => True

instance (files : FileTree) (c : Candidate) : Decidable (c.IsDecisive files) :=
  match c with
  | .path p => inferInstanceAs (Decidable (files.isFile p = true))
  | .fault _ => inferInstanceAs (Decidable True)

/-- The path with each extension appended, and the root with none. -/
def appended (p : Path) : List Path :=
  if p.text = "/" then [] else extensions.map fun ext => ⟨p.text ++ ext⟩

def fileCandidates (p : Path) : List Candidate := (p :: appended p).map .path

/-- What the manifest of a directory has to add, which is nothing if there is no manifest or it
names no main module. -/
def mainCandidates (files : FileTree) (dir : Path) : List Candidate :=
  let manifest := dir.join ⟨"package.json"⟩
  if files.isFile manifest then
    match files.read manifest with
    | .error e => [.fault (.io e)]
    | .ok text =>
      match Package.field "main" text with
      | .error e => [.fault e]
      | .ok none => []
      | .ok (some m) => fileCandidates (dir.join ⟨m⟩).normalize
  else []

def directoryCandidates (files : FileTree) (dir : Path) : List Candidate :=
  mainCandidates files dir ++ extensions.map fun ext => .path (dir.join ⟨"index" ++ ext⟩)

def pathCandidates (files : FileTree) (p : Path) : List Candidate :=
  fileCandidates p ++ if files.isDirectory p then directoryCandidates files p else []

def packageCandidates (files : FileTree) (name : String) (sub? : Option String) (dir : Path) :
    List Candidate :=
  let package := (dir.join ⟨"node_modules"⟩).join ⟨name⟩
  if files.isDirectory package then
    match sub? with
    | some sub => pathCandidates files (package.join ⟨sub⟩).normalize
    | none => directoryCandidates files package
  else []

/-- All that an id may mean to a file, given the directories above that, the nearest first. -/
def candidates (files : FileTree) (id : String) (above : List Path) : List Candidate :=
  if spellsRelative id || (⟨id⟩ : Path).isAbsolute then
    pathCandidates files ((above.head?.getD ⟨"/"⟩).join ⟨id⟩).normalize
  else above.flatMap (packageCandidates files (splitPackage id).1 (splitPackage id).2)

/-! ### The first candidate that decides -/

def Candidate.outcome : Option Candidate → Except Error (Option Path)
  | none => .ok none
  | some (.path p) => .ok (some p)
  | some (.fault e) => .error e

/-- What comes of looking at one candidate after the other. -/
def searched (files : FileTree) (l : List Candidate) : Except Error (Option Path) :=
  Candidate.outcome (l.find? fun c => c.IsDecisive files)

variable {files : FileTree}

/-- The search goes on to further candidates if the first ones decide nothing. -/
theorem searched_append (l l' : List Candidate) :
    searched files (l ++ l') =
      match searched files l with
      | .ok none => searched files l'
      | result => result := by
  rw [searched, searched, List.find?_append]
  cases l.find? fun c => c.IsDecisive files with
  | none => rfl
  | some c => cases c <;> rfl

theorem searched_paths (l : List Path) :
    searched files (l.map .path) = .ok (l.find? files.isFile) := by
  have hfile : (fun c : Candidate => decide (c.IsDecisive files)) ∘ Candidate.path =
    files.isFile := by
    funext p
    exact Bool.decide_eq_true
  rw [searched, List.find?_map, hfile]
  cases l.find? files.isFile <;> rfl

/-! ### Searching is looking at candidates -/

theorem extended_eq_appended {p : Path} (h : Canonical p) : extended p = appended p := by
  obtain ⟨names, hnames, rfl⟩ := h
  unfold extended appended
  rw [fileName?_rooted hnames]
  rcases List.eq_nil_or_concat' names with rfl | ⟨init, t, rfl⟩
  · rfl
  · have ht : IsName t := hnames t (by simp)
    have htext (u : String) : (rooted (init ++ [u])).text = stem init ++ u := by
      rw [text_rooted_append init (List.cons_ne_nil u []), joined_singleton]
    have hroot : (rooted (init ++ [t])).text ≠ "/" := by
      rw [htext t]
      intro he
      have hlast := congrArg (fun u : String => u.toList.getLast?) he
      obtain ⟨c, hc⟩ : ∃ c, t.toList.getLast? = some c :=
        Option.ne_none_iff_exists'.1 (by simpa using ht.ne_empty)
      simp only [String.toList_append, List.getLast?_append, hc] at hlast
      have hslash : c = '/' := Option.some.inj hlast
      exact ht.segment (hslash ▸ List.mem_of_getLast? hc)
    rw [List.getLast?_concat, if_neg hroot]
    refine List.map_congr_left fun ext hext => ?_
    rw [withFileName_rooted hnames (isName_extension hext ht.segment), htext t, String.append_assoc,
      ← htext]

theorem searched_fileCandidates {p : Path} (h : Canonical p) :
    searched files (fileCandidates p) = .ok (asFile? files p) := by
  rw [fileCandidates, searched_paths, ← extended_eq_appended h]
  rfl

theorem searched_directoryCandidates {dir : Path} (h : dir.isAbsolute = true) :
    searched files (directoryCandidates files dir) = asDirectory? files dir := by
  have hindexes : searched files (extensions.map fun ext => .path (dir.join ⟨"index" ++ ext⟩)) =
      .ok ((indexes dir).find? files.isFile) := searched_paths (indexes dir)
  rw [directoryCandidates, searched_append, hindexes, asDirectory?, main?, mainCandidates]
  change (match searched files (if files.isFile (Package.manifestOf dir) then _ else _) with
    | .ok none => _ | result => result) = _
  by_cases hmanifest : files.isFile (Package.manifestOf dir)
  · rw [if_pos hmanifest, if_pos hmanifest]
    change (match searched files (match files.read (Package.manifestOf dir) with
      | .error e => _ | .ok text => _) with | .ok none => _ | result => result) = _
    cases files.read (Package.manifestOf dir) with
    | error e => rfl
    | ok text =>
        dsimp only
        rcases Package.field "main" text with e | (- | m)
        · rfl
        · rfl
        · dsimp only
          rw [searched_fileCandidates (canonical_normalize (isAbsolute_join h _))]
          simp only [Except.map, Option.bind_some]
          cases asFile? files (dir.join ⟨m⟩).normalize <;> rfl
  · rw [if_neg hmanifest, if_neg hmanifest]
    rfl

theorem searched_pathCandidates {p : Path} (h : Canonical p) :
    searched files (pathCandidates files p) = asPath? files p := by
  rw [pathCandidates, searched_append, searched_fileCandidates h, asPath?]
  cases asFile? files p with
  | some q => rfl
  | none =>
      dsimp only
      split
      · exact searched_directoryCandidates h.isAbsolute
      · rfl

theorem searched_packageCandidates {name : String} {sub? : Option String} {dir : Path}
    (h : dir.isAbsolute = true) :
    searched files (packageCandidates files name sub? dir) =
      if files.isDirectory (packageDir name dir) then inPackage? files (packageDir name dir) sub?
      else .ok none := by
  have habs : (packageDir name dir).isAbsolute = true := isAbsolute_join (isAbsolute_join h _) _
  unfold packageCandidates
  change searched files (if files.isDirectory (packageDir name dir) then _ else _) = _
  split
  · cases sub? with
    | some sub => exact searched_pathCandidates (canonical_normalize (isAbsolute_join habs _))
    | none => exact searched_directoryCandidates habs
  · rfl

theorem searched_above {name : String} {sub? : Option String} {above : List Path}
    (h : ∀ dir ∈ above, dir.isAbsolute = true) :
    searched files (above.flatMap (packageCandidates files name sub?)) =
      inPackages? files name sub? above := by
  induction above with
  | nil => rfl
  | cons dir rest ih =>
      rw [List.flatMap_cons, searched_append, searched_packageCandidates (h dir List.mem_cons_self),
        ih fun d hd => h d (List.mem_cons_of_mem _ hd), inPackages?]
      by_cases hpackage : files.isDirectory (packageDir name dir)
      · simp only [if_pos hpackage]
        rcases inPackage? files (packageDir name dir) sub? with e | (- | p) <;> rfl
      · simp only [if_neg hpackage]

theorem ofFile_ne_builtin (p : Path) (name : String) : Resolution.ofFile p ≠ .builtin name := by
  unfold Resolution.ofFile
  split <;> simp

/-- Finding the file that an id means is to look at the candidates. -/
theorem searched_candidates (files : FileTree) (id : String) {parent : Path} {above : List Path}
    (h : parent.isAbsolute = true) (habove : parent.Ascends above) :
    searched files (candidates files id above) = file? files id parent := by
  have hnearest : above.head?.getD ⟨"/"⟩ = parent.parentOr ⟨"/"⟩ := by
    unfold parentOr
    cases habove with
    | top hnone => rw [hnone]; rfl
    | up hdir hdirs => rw [hdir]; rfl
  obtain rfl := habove.unique (ascends_ancestors h)
  unfold candidates file? isPath
  split
  · rw [hnearest]
    exact searched_pathCandidates
      (canonical_normalize (isAbsolute_join (isAbsolute_parentOr h rfl) _))
  · exact searched_above fun dir hdir => isAbsolute_of_mem_ancestors h hdir

theorem Candidate.outcome_injective : Function.Injective Candidate.outcome := by
  rintro (- | p | e) (- | q | e') h <;> simp_all [Candidate.outcome]

/-- What a search comes to tells where it has ended. -/
theorem searched_eq_outcome {l : List Candidate} {o : Option Candidate} :
    searched files l = Candidate.outcome o ↔ l.find? (fun c => c.IsDecisive files) = o :=
  Candidate.outcome_injective.eq_iff

/-- A search succeeds with the first file, if no mark is before it. -/
theorem searched_eq_some {l : List Candidate} {q : Path} :
    searched files l = .ok (some q) ↔ ∃ before after, l = before ++ .path q :: after ∧
      files.isFile q = true ∧ ∀ c ∈ before, ¬ c.IsDecisive files := by
  refine (searched_eq_outcome (o := some (.path q))).trans ?_
  rw [List.find?_eq_some_iff_append]
  simp only [decide_eq_true_eq, Bool.not_eq_true', decide_eq_false_iff_not]
  constructor
  · rintro ⟨hfile, before, after, hl, hbefore⟩
    exact ⟨before, after, hl, hfile, hbefore⟩
  · rintro ⟨before, after, hl, hfile, hbefore⟩
    exact ⟨hfile, before, after, hl, hbefore⟩

theorem exists_searched_eq_some {l : List Candidate} {found : Resolution} :
    (∃ q, searched files l = .ok (some q) ∧ found = .ofFile q) ↔ ∃ before q after,
      l = before ++ .path q :: after ∧ files.isFile q = true ∧
        (∀ c ∈ before, ¬ c.IsDecisive files) ∧ found = .ofFile q := by
  simp only [searched_eq_some]
  constructor
  · rintro ⟨q, ⟨before, after, hl, hfile, hbefore⟩, hfound⟩
    exact ⟨before, q, after, hl, hfile, hbefore, hfound⟩
  · rintro ⟨before, q, after, hl, hfile, hbefore, hfound⟩
    exact ⟨q, ⟨before, after, hl, hfile, hbefore⟩, hfound⟩

theorem searched_eq_error {l : List Candidate} {e : Error} :
    searched files l = .error e ↔ ∃ before after, l = before ++ .fault e :: after ∧
      ∀ c ∈ before, ¬ c.IsDecisive files := by
  refine (searched_eq_outcome (o := some (.fault e))).trans ?_
  rw [List.find?_eq_some_iff_append]
  simp only [decide_eq_true_eq, Bool.not_eq_true', decide_eq_false_iff_not]
  exact ⟨fun h => h.2, fun h => ⟨trivial, h⟩⟩

theorem searched_eq_none {l : List Candidate} :
    searched files l = .ok none ↔ ∀ c ∈ l, ¬ c.IsDecisive files := by
  refine (searched_eq_outcome (o := none)).trans ?_
  simp only [List.find?_eq_none, decide_eq_true_eq]

/-- An id that is no built-in resolves to the first of its candidates that is a file, unless a
manifest before it cannot be read or understood, and then to the error of that. Its extension says
how the file is to be loaded. -/
theorem resolve_takes_first_candidate {Provider : Type} (files : FileTree)
    (builtins : Registry Provider) (id : String) (parent : Path) (h : parent.isAbsolute = true) :
    (∃ above, parent.Ascends above) ∧ ∀ above, parent.Ascends above →
      (∀ name, resolve files builtins id parent = .ok (.builtin name) ↔
        builtins.canonicalName? id = some name) ∧
      (builtins.isBuiltin id = false →
        (∀ found, resolve files builtins id parent = .ok found ↔ ∃ before q after,
          candidates files id above = before ++ .path q :: after ∧ files.isFile q = true ∧
            (∀ c ∈ before, ¬ c.IsDecisive files) ∧ found = .ofFile q) ∧
        (∀ e, resolve files builtins id parent = .error e ↔
          (∃ before after, candidates files id above = before ++ .fault e :: after ∧
            ∀ c ∈ before, ¬ c.IsDecisive files) ∨
          (∀ c ∈ candidates files id above, ¬ c.IsDecisive files) ∧ e = .moduleNotFound id)) := by
  refine ⟨⟨_, ascends_ancestors h⟩, fun above habove => ?_⟩
  have hsearched := searched_candidates files id h habove
  refine ⟨fun name => ?_, fun hbuiltin => ?_⟩
  · unfold resolve
    cases hname : builtins.canonicalName? id with
    | some other => simp
    | none =>
        dsimp only
        rcases file? files id parent with e | (- | q)
        · simp
        · simp
        · simp [ofFile_ne_builtin]
  · have hname : builtins.canonicalName? id = none := by simpa [Registry.isBuiltin] using hbuiltin
    unfold resolve
    rw [hname]
    dsimp only
    rw [← hsearched]
    refine ⟨fun found => ?_, fun e => ?_⟩
    · rw [← exists_searched_eq_some]
      rcases searched files (candidates files id above) with e | (- | q)
      · simp
      · simp
      · simp [eq_comm]
    · rw [← searched_eq_error, ← searched_eq_none]
      rcases searched files (candidates files id above) with e' | (- | q)
      · simp
      · simp [eq_comm]
      · simp

/-- A file that stands behind the slash of the root, where an extension appended to the path of the
root would lead. -/
def dotFile : FileTree := ⟨[([".js"], .file (some ""))]⟩

/-- The id of the root resolves to nothing, though the path of the root with an extension appended
is that of a file. -/
theorem root_takes_no_extension :
    target "/" ⟨"/main.cjs"⟩ = ⟨"/"⟩ ∧ dotFile.isFile ⟨"/"⟩ = false ∧
      dotFile.isFile ⟨(⟨"/"⟩ : Path).text ++ ".js"⟩ = true ∧
      resolve dotFile (⟨"node:", []⟩ : Registry Unit) "/" ⟨"/main.cjs"⟩ =
        .error (.moduleNotFound "/") := by
  refine ⟨by decide +kernel, by decide +kernel, by decide +kernel, ?_⟩
  decide +kernel

/-- A package that is there twice. The nearer directory is empty, and the manifest of the other one
names a file without its extension. -/
def packageTwice : FileTree :=
  ⟨[(["app"], .directory), (["node_modules", "app"], .directory),
    (["pkg", "node_modules", "app"], .directory),
    (["node_modules"], .directory), (["pkg", "node_modules"], .directory),
    (["package.json", "pkg", "node_modules"], .file (some "\x7b\"main\": \"lib\"\x7d")),
    (["lib.js", "pkg", "node_modules"], .file (some ""))]⟩

/-- What the nearer directory could have is asked for first, and then the file as the manifest has
it. -/
theorem resolve_takes_first_candidate_packageTwice :
    resolve packageTwice (⟨"node:", []⟩ : Registry Unit) "pkg" ⟨"/app/main.cjs"⟩ =
      .ok (.script ⟨"/node_modules/pkg/lib.js"⟩) := by
  have habove : (⟨"/app/main.cjs"⟩ : Path).Ascends [⟨"/app"⟩, ⟨"/"⟩] :=
    .up (by decide +kernel) (.up (by decide +kernel) (.top (by decide +kernel)))
  obtain ⟨-, hcandidates⟩ := resolve_takes_first_candidate packageTwice
    (⟨"node:", []⟩ : Registry Unit) "pkg" ⟨"/app/main.cjs"⟩ (by decide +kernel)
  obtain ⟨-, hfiles⟩ := hcandidates _ habove
  obtain ⟨hfound, -⟩ := hfiles (by decide +kernel)
  refine (hfound _).2 ⟨[.path ⟨"/app/node_modules/pkg/index.js"⟩,
    .path ⟨"/app/node_modules/pkg/index.cjs"⟩, .path ⟨"/app/node_modules/pkg/index.json"⟩,
    .path ⟨"/app/node_modules/pkg/index.node"⟩, .path ⟨"/node_modules/pkg/lib"⟩],
    ⟨"/node_modules/pkg/lib.js"⟩, [.path ⟨"/node_modules/pkg/lib.cjs"⟩,
    .path ⟨"/node_modules/pkg/lib.json"⟩, .path ⟨"/node_modules/pkg/lib.node"⟩,
    .path ⟨"/node_modules/pkg/index.js"⟩, .path ⟨"/node_modules/pkg/index.cjs"⟩,
    .path ⟨"/node_modules/pkg/index.json"⟩, .path ⟨"/node_modules/pkg/index.node"⟩], ?_⟩
  exact ⟨by decide +kernel, by decide +kernel, by decide +kernel, by decide +kernel⟩

end RequireId

end ModuleLoader
