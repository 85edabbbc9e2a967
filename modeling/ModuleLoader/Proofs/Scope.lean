import ModuleLoader.Format
import ModuleLoader.Proofs.Path.Candidates
/-!
The nearest manifest decides.

Where the extension of a file leaves it to the package how the file becomes a module, one manifest
is asked: that of the nearest directory above the file where there is one that can be read. The
search does not go on above it, even if the manifest says nothing or is no manifest at all. So
nothing that stands above it, beside the way to it or below the file can make a difference, and this
is said here of two trees: they decide alike if the same can be read in them on the way.

What a manifest says is told twice. The reader sorts the fields out and then asks for a value, and
below is the shape of the documents that it accepts.
-/

namespace ModuleLoader

open Path

/-! ### What manifests say -/

namespace Package

open Json

inductive Says : Document → Option String → Prop
  | null : Says .null none
  | string {pieces : List Piece} {text : String} (h : text? pieces = some text) :
      Says (.string pieces) (some text)

/-- Every key is a text, and none of them is the name. -/
def Lacks (name : String) (fields : List (List Piece × Document)) : Prop :=
  ∀ f ∈ fields, ∃ key, text? f.1 = some key ∧ key ≠ name

/-- The shape of a manifest, and what it has in the field of the name: the fields are given by their
keys, and the name is that of one at most, or there is a list of just one value. -/
inductive Declares (name : String) : Document → Option String → Prop
  | absent {fields : List (List Piece × Document)} (h : Lacks name fields) :
      Declares name (.object fields) none
  | given {before after : List (List Piece × Document)} {pieces : List Piece} {d : Document}
      {value : Option String} (hkey : text? pieces = some name)
      (hothers : Lacks name (before ++ after)) (hvalue : Says d value) :
      Declares name (.object (before ++ (pieces, d) :: after)) value
  | only {d : Document} {value : Option String} (hvalue : Says d value) :
      Declares name (.array [d]) value

/-- The text is a manifest, and this is what it has in the field of the name. -/
def Reads (name text : String) (value : Option String) : Prop :=
  ∃ d, Document.read? text = some d ∧ Declares name d value

section

variable {name key : String} {pieces : List Piece} {d : Document} {value : Option String}
variable {fields before after : List (List Piece × Document)}

theorem optionalString?_eq_some : d.optionalString? = some value ↔ Says d value := by
  constructor
  · intro h
    cases d with
    | null =>
        obtain rfl := Option.some.inj h
        exact .null
    | string pieces =>
        obtain ⟨text, htext, rfl⟩ := Option.map_eq_some_iff.1 h
        exact .string htext
    | bool _ | number _ | array _ | object _ =>
        simp [Document.optionalString?, Document.string?] at h
  · rintro (_ | htext)
    · rfl
    · simp [Document.optionalString?, Document.string?, htext]

theorem declaredFields?_other (hkey : text? pieces = some key) (hne : key ≠ name) :
    declaredFields? [name] ((pieces, d) :: fields) = declaredFields? [name] fields := by
  have hcontains : ([name] : List String).contains key = false := by simpa using hne
  simp only [declaredFields?, hkey, hcontains, bind, Option.bind]
  cases declaredFields? [name] fields <;> rfl

theorem declaredFields?_same (hkey : text? pieces = some name) :
    declaredFields? [name] ((pieces, d) :: fields) = (declaredFields? [name] fields).bind fun fs =>
      if (fs.lookup name).isSome then none else some ((name, d) :: fs) := by
  simp [declaredFields?, hkey, bind, Option.bind]

theorem Lacks.declaredFields? (h : Lacks name fields) :
    Json.declaredFields? [name] fields = some [] := by
  induction fields with
  | nil => rfl
  | cons f rest ih =>
      obtain ⟨key, hkey, hne⟩ := h f List.mem_cons_self
      rw [declaredFields?_other hkey hne]
      exact ih fun g hg => h g (List.mem_cons_of_mem _ hg)

theorem declaredFields?_given (hkey : text? pieces = some name)
    (hothers : Lacks name (before ++ after)) :
    declaredFields? [name] (before ++ (pieces, d) :: after) = some [(name, d)] := by
  induction before with
  | nil =>
      have hafter : Lacks name after := hothers
      rw [List.nil_append, declaredFields?_same hkey, hafter.declaredFields?]
      rfl
  | cons f rest ih =>
      obtain ⟨key, hf, hne⟩ := hothers f List.mem_cons_self
      rw [List.cons_append, declaredFields?_other hf hne]
      exact ih fun g hg => hothers g (List.mem_cons_of_mem _ hg)

/-- The name comes once or not at all in fields that can be sorted out. -/
theorem declaredFields?_eq_some {given : Fields} (h : declaredFields? [name] fields = some given) :
    (given = [] ∧ Lacks name fields) ∨
      ∃ before pieces d after, given = [(name, d)] ∧ fields = before ++ (pieces, d) :: after ∧
        text? pieces = some name ∧ Lacks name (before ++ after) := by
  induction fields generalizing given with
  | nil =>
      obtain rfl := Option.some.inj h
      exact .inl ⟨rfl, fun _ hf => absurd hf List.not_mem_nil⟩
  | cons f rest ih =>
      obtain ⟨pieces, d⟩ := f
      cases hkey : text? pieces with
      | none => simp [declaredFields?, hkey] at h
      | some key =>
          by_cases hne : key = name
          · subst hne
            rw [declaredFields?_same hkey] at h
            obtain ⟨others, hothers, hgiven⟩ := Option.bind_eq_some_iff.1 h
            rcases ih hothers with ⟨rfl, hlacks⟩ | ⟨_, _, d', _, rfl, -, -, -⟩
            · exact .inr ⟨[], pieces, d, rest, (Option.some.inj hgiven).symm, rfl, hkey, hlacks⟩
            · simp at hgiven
          · have hlacks {l : List (List Piece × Document)} (hl : Lacks name l) :
                Lacks name ((pieces, d) :: l) := by
              intro g hg
              rcases List.mem_cons.1 hg with rfl | hg
              · exact ⟨key, hkey, hne⟩
              · exact hl g hg
            rw [declaredFields?_other hkey hne] at h
            rcases ih h with ⟨hnil, hrest⟩ | ⟨before, p, d', after, hgiven, hrest, hp, hothers⟩
            · exact .inl ⟨hnil, hlacks hrest⟩
            · exact .inr ⟨(pieces, d) :: before, p, d', after, hgiven, by rw [hrest]; rfl, hp,
                hlacks hothers⟩

/-- The reader accepts the documents that have the shape, and takes from them what they say. -/
theorem ofDocument?_eq_some : ofDocument? name d = some value ↔ Declares name d value := by
  constructor
  · intro h
    unfold ofDocument? at h
    split at h
    · simp at h
    · rename_i hempty
      obtain ⟨given, hgiven, hvalue⟩ := Option.bind_eq_some_iff.1 h
      cases d with
      | object fields =>
          rcases declaredFields?_eq_some hgiven with
            ⟨rfl, hlacks⟩ | ⟨_, _, d, _, rfl, rfl, hkey, hl⟩
          · obtain rfl := Option.some.inj hvalue
            exact .absent hlacks
          · refine .given hkey hl (optionalString?_eq_some.1 ?_)
            simpa [Fields.get] using hvalue
      | array items =>
          match items with
          | [] => exact absurd rfl hempty
          | [d] =>
              obtain rfl := Option.some.inj hgiven
              refine .only (optionalString?_eq_some.1 ?_)
              simpa [Fields.get] using hvalue
          | _ :: _ :: _ => simp [Document.record?] at hgiven
      | null | bool _ | number _ | string _ => simp [Document.record?] at hgiven
  · rintro (hlacks | ⟨hkey, hothers, hvalue⟩ | hvalue)
    · simp [ofDocument?, Document.record?, hlacks.declaredFields?, Fields.get]
    · simp [ofDocument?, Document.record?, declaredFields?_given hkey hothers, Fields.get,
        optionalString?_eq_some.2 hvalue]
    · simp [ofDocument?, Document.record?, Fields.get, optionalString?_eq_some.2 hvalue]

theorem field_eq_ok {text : String} : field name text = .ok value ↔ Reads name text value := by
  unfold field Reads
  cases hread : Document.read? text with
  | none => simp
  | some d =>
      rw [Option.bind_some]
      cases hd : ofDocument? name d with
      | none => simp [← ofDocument?_eq_some, hd]
      | some found => simp [← ofDocument?_eq_some, hd]

theorem field_cases (name text : String) :
    (∃ value, field name text = .ok value) ∨ field name text = .error .json := by
  unfold field
  split
  · exact .inl ⟨_, rfl⟩
  · exact .inr rfl

end

end Package

/-! ### Which manifest is asked -/

namespace FileTree

/-- What can be read in the manifest of a directory. -/
def manifest? (t : FileTree) (dir : Path) : Option String :=
  (t.read (Package.manifestOf dir)).toOption

/-- Going up from the path, `dir` is the first directory with a manifest that can be read, `text` is
what can be read there, and `near` are the directories on the way. -/
structure Nearest (t : FileTree) (p : Path) (near : List Path) (dir : Path) (text : String) :
    Prop where
  ascends : ∃ far, p.Ascends (near ++ dir :: far)
  unreadable : ∀ d ∈ near, t.manifest? d = none
  readable : t.manifest? dir = some text

/-- No manifest can be read anywhere above the path. -/
def Unscoped (t : FileTree) (p : Path) : Prop :=
  ∀ dirs, p.Ascends dirs → ∀ d ∈ dirs, t.manifest? d = none

/-- The same can be read in the manifests of these directories. -/
def Agrees (t t' : FileTree) (dirs : List Path) : Prop :=
  ∀ d ∈ dirs, t.manifest? d = t'.manifest? d

variable {t t' : FileTree} {p dir : Path} {near : List Path} {text : String}

theorem scope?_eq_some (hp : p.isAbsolute = true) :
    t.scope? p = some text ↔ ∃ near dir, t.Nearest p near dir text := by
  have habove := ascends_ancestors hp
  constructor
  · intro h
    obtain ⟨near, dir, far, hdirs, hdir, hnear⟩ := List.findSome?_eq_some_iff.1 h
    exact ⟨near, dir, ⟨far, hdirs ▸ habove⟩, hnear, hdir⟩
  · rintro ⟨near, dir, ⟨far, hdirs⟩, hnear, hdir⟩
    rw [scope?, habove.unique hdirs]
    exact List.findSome?_eq_some_iff.2 ⟨near, dir, far, rfl, hdir, hnear⟩

theorem scope?_eq_none (hp : p.isAbsolute = true) : t.scope? p = none ↔ t.Unscoped p := by
  have habove := ascends_ancestors hp
  constructor
  · intro h dirs hdirs
    rw [hdirs.unique habove]
    exact List.findSome?_eq_none_iff.1 h
  · intro h
    exact List.findSome?_eq_none_iff.2 (h p.ancestors habove)

theorem Nearest.congr (h : t.Nearest p near dir text) (hagrees : t'.Agrees t (near ++ [dir])) :
    t'.Nearest p near dir text where
  ascends := h.ascends
  unreadable d hd := (hagrees d (List.mem_append_left _ hd)).trans (h.unreadable d hd)
  readable := (hagrees dir (by simp)).trans h.readable

theorem Unscoped.congr (hp : p.isAbsolute = true) (h : t.Unscoped p)
    (hagrees : t'.Agrees t p.ancestors) : t'.Unscoped p := by
  intro dirs hdirs d hd
  have hmem : d ∈ p.ancestors := (ascends_ancestors hp).unique hdirs ▸ hd
  exact (hagrees d hmem).trans (h dirs hdirs d hd)

end FileTree

namespace ModuleFormat

theorem dispatch_ofPackageType (type : Option String) :
    (ofPackageType type).dispatch = if type = some "module" then .source else .synthetic := by
  unfold ofPackageType
  split
  · rfl
  · rename_i hne
    rw [if_neg hne]
    rfl

theorem dispatch_eq_source {type : Option String} :
    (ofPackageType type).dispatch = .source ↔ type = some "module" := by
  rw [dispatch_ofPackageType]
  split <;> simp [*]

theorem dispatch_eq_synthetic {type : Option String} :
    (ofPackageType type).dispatch = .synthetic ↔ type ≠ some "module" := by
  rw [dispatch_ofPackageType]
  split <;> simp [*]

end ModuleFormat

namespace Config

open FileTree ModuleFormat

variable {c : Config} {files : FileTree} {p dir : Path} {near : List Path} {text : String}

theorem detect_of_nearest (hp : p.isAbsolute = true)
    (hformat : p.extension?.bind c.format? = some .packageScoped)
    (hlookup : c.packageTypeLookup = true) (h : files.Nearest p near dir text) :
    c.detect files p =
      (Package.field "type" text).map
        fun type => some (ModuleFormat.ofPackageType type).dispatch := by
  simp only [detect, hformat, hlookup, scopedFormat, (scope?_eq_some hp).2 ⟨near, dir, h⟩]
  cases Package.field "type" text <;> rfl

theorem detect_of_unscoped (hp : p.isAbsolute = true)
    (hformat : p.extension?.bind c.format? = some .packageScoped)
    (hlookup : c.packageTypeLookup = true) (h : files.Unscoped p) :
    c.detect files p = .ok (some .synthetic) := by
  simp only [detect, hformat, hlookup, scopedFormat, (scope?_eq_none hp).2 h]
  rfl

/-- Where the nearest manifest can be read as one, its type has a dispatch, and nothing else is
found. -/
theorem detect_eq_ok_of_nearest (hp : p.isAbsolute = true)
    (hformat : p.extension?.bind c.format? = some .packageScoped)
    (hlookup : c.packageTypeLookup = true) (h : files.Nearest p near dir text) {d : Dispatch} :
    c.detect files p = .ok (some d) ↔
      ∃ type, Package.Reads "type" text type ∧ (ofPackageType type).dispatch = d := by
  rw [detect_of_nearest hp hformat hlookup h]
  simp only [← Package.field_eq_ok]
  cases Package.field "type" text <;> simp [Except.map]

theorem detect_eq_json_of_nearest (hp : p.isAbsolute = true)
    (hformat : p.extension?.bind c.format? = some .packageScoped)
    (hlookup : c.packageTypeLookup = true) (h : files.Nearest p near dir text) :
    c.detect files p = .error .json ↔ ¬ ∃ type, Package.Reads "type" text type := by
  rw [detect_of_nearest hp hformat hlookup h]
  simp only [← Package.field_eq_ok]
  rcases Package.field_cases "type" text with ⟨type, hfield⟩ | hfield <;> simp [hfield, Except.map]

/-- The nearest manifest that can be read says which kind of module a file becomes: one of type
`module` a source, any other a synthetic module, and a text that is no manifest is an error. If none
can be read the module is synthetic. So it is in every tree in which the same can be read from the
directory of the file up to that manifest, and in every tree if packages are not to be asked. -/
theorem nearest_manifest_decides (c : Config) (files : FileTree) (p : Path)
    (hp : p.isAbsolute = true) (hformat : p.extension?.bind c.format? = some .packageScoped) :
    (c.packageTypeLookup = false → ∀ files' : FileTree,
      c.detect files' p = .ok (some .synthetic)) ∧
    (c.packageTypeLookup = true →
      (files.Unscoped p ∨ ∃ near dir text, files.Nearest p near dir text) ∧
      (∀ near dir text, files.Nearest p near dir text →
        (c.detect files p = .ok (some .source) ↔ Package.Reads "type" text (some "module")) ∧
        (c.detect files p = .ok (some .synthetic) ↔
          ∃ type, Package.Reads "type" text type ∧ type ≠ some "module") ∧
        (c.detect files p = .error .json ↔ ¬ ∃ type, Package.Reads "type" text type) ∧
        ∀ files' : FileTree, files'.Agrees files (near ++ [dir]) →
          c.detect files' p = c.detect files p) ∧
      (files.Unscoped p → c.detect files p = .ok (some .synthetic) ∧
        ∀ files' : FileTree, files'.Agrees files p.ancestors →
          c.detect files' p = c.detect files p)) := by
  refine ⟨fun hlookup files' => ?_, fun hlookup => ⟨?_, fun near dir text hnearest => ?_,
    fun hunscoped => ⟨?_, fun files' hagrees => ?_⟩⟩⟩
  · simp [detect, hformat, hlookup]
  · cases hscope : files.scope? p with
    | none => exact .inl ((scope?_eq_none hp).1 hscope)
    | some text =>
        obtain ⟨near, dir, hnearest⟩ := (scope?_eq_some hp).1 hscope
        exact .inr ⟨near, dir, text, hnearest⟩
  · refine ⟨?_, ?_, detect_eq_json_of_nearest hp hformat hlookup hnearest, fun files' hagrees => ?_⟩
    · simp [detect_eq_ok_of_nearest hp hformat hlookup hnearest, dispatch_eq_source]
    · simp only [detect_eq_ok_of_nearest hp hformat hlookup hnearest, dispatch_eq_synthetic]
    · rw [detect_of_nearest hp hformat hlookup hnearest,
        detect_of_nearest hp hformat hlookup (hnearest.congr hagrees)]
  · exact detect_of_unscoped hp hformat hlookup hunscoped
  · rw [detect_of_unscoped hp hformat hlookup hunscoped,
      detect_of_unscoped hp hformat hlookup (hunscoped.congr hp hagrees)]

/-- A manifest with a directory below it whose manifest is no text, and with one above it that is no
document. -/
def nestedPackages (above : String) : FileTree :=
  ⟨[(["package.json"], .file (some above)), (["pkg"], .directory),
    (["package.json", "pkg"], .file (some "[\"module\"]")), (["lib", "pkg"], .directory),
    (["package.json", "lib", "pkg"], .file none), (["deep", "lib", "pkg"], .directory),
    (["package.json", "deep", "lib", "pkg"], .directory)]⟩

/-- The manifest between them decides, and nothing above it. -/
theorem nearest_manifest_decides_nestedPackages :
    let p : Path := ⟨"/pkg/lib/deep/a.js"⟩
    let unasking : Config := { packageTypeLookup := false }
    default.detect (nestedPackages "no document") p = .ok (some .source) ∧
      default.detect (nestedPackages "\x7b\x7d") p = .ok (some .source) ∧
      unasking.detect (nestedPackages "no document") p = .ok (some .synthetic) := by
  intro p unasking
  have hnearest : (nestedPackages "no document").Nearest p [⟨"/pkg/lib/deep"⟩, ⟨"/pkg/lib"⟩]
      ⟨"/pkg"⟩ "[\"module\"]" :=
    { ascends := ⟨[⟨"/"⟩], .up (by decide +kernel) (.up (by decide +kernel)
        (.up (by decide +kernel) (.up (by decide +kernel) (.top (by decide +kernel)))))⟩
      unreadable := by decide +kernel
      readable := by decide +kernel }
  have hreads : Package.Reads "type" "[\"module\"]" (some "module") :=
    Package.field_eq_ok.1 (by decide +kernel)
  have habsolute : p.isAbsolute = true := by decide
  have hformat : p.extension?.bind default.format? = some .packageScoped := by decide +kernel
  obtain ⟨-, hscoped⟩ := nearest_manifest_decides default (nestedPackages "no document") p habsolute
    hformat
  obtain ⟨-, hdecides, -⟩ := hscoped rfl
  obtain ⟨hsource, -, -, hlocal⟩ := hdecides _ _ _ hnearest
  have hagrees : (nestedPackages "\x7b\x7d").Agrees (nestedPackages "no document")
      ([⟨"/pkg/lib/deep"⟩, ⟨"/pkg/lib"⟩] ++ [⟨"/pkg"⟩]) := by
    intro d hd
    revert d
    decide +kernel
  refine ⟨hsource.2 hreads, (hlocal _ hagrees).trans (hsource.2 hreads), ?_⟩
  exact
    (nearest_manifest_decides unasking (nestedPackages "no document") p habsolute hformat).1 rfl _

end Config

end ModuleLoader
