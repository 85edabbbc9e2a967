import ModuleLoader.Proofs.Path.Containment
import ModuleLoader.Resolve.Specifier
/-!
Path specifiers lead to canonical places.

The text of a resolved location is taken for the identity of a module, and it is
handed on: to the loader as an id, and to further specifiers as their referrer. So
it has to be the one spelling of the place, and it must not matter from where it is
resolved again.

Both come from what a walk does. The segments of the specifier are followed from the
directory of the referrer, or from the root, and what is left at the end are the
names of a place. The referrer has no part in this but for its directory, and of the
directory only the place counts, however it is spelled. A text that is a slash and
names is absolute and in normal form, so it resolves to itself.
-/

namespace ModuleLoader

open Path

theorem Path.Canonical.isDotless {p : Path} (h : Canonical p) : p.IsDotless := by
  obtain ⟨names, hnames, rfl⟩ := h
  by_cases hne : names = []
  · rw [hne]
    decide
  · intro t ht
    rw [segments_rooted hne fun u hu => (hnames u hu).segment] at ht
    rcases List.mem_cons.1 ht with rfl | ht
    · decide
    · exact ⟨(hnames t ht).ne_here, (hnames t ht).ne_up⟩

namespace Location

/-- The directory that relative specifiers are counted from. The root counts as its own. -/
def directory (referrer : Path) : Path := referrer.parentOr referrer

/-- The place at which the first segment of a specifier is taken. -/
def start (specifier referrer : Path) : Place :=
  if specifier.isAbsolute then [] else (directory referrer).place

/-- The place that a specifier leads to if every name is a directory. -/
def destination (specifier referrer : Path) : Place :=
  specifier.segments.foldl goTo (start specifier referrer)

section

variable {builtins : Registry Provider} {packages : String → Path → Except Error Path}
variable {specifier referrer : String}

theorem isAbsolute_directory {p : Path} (h : p.isAbsolute = true) :
    (directory p).isAbsolute = true :=
  isAbsolute_parentOr h h

theorem isName_destination (target base : Path) : ∀ t ∈ destination target base, IsName t := by
  apply isName_foldl_goTo (fun t ht => isSegment_of_mem_segments ht)
  unfold start
  split
  · simp
  · exact isName_place _

theorem resolve_of_not_isAbsolute (hbuiltin : builtins.isBuiltin specifier = false)
    (h : (⟨referrer⟩ : Path).isAbsolute = false) :
    resolve builtins packages specifier referrer = .error (.invalidReferrer referrer) := by
  simp [resolve, hbuiltin, h]

/-- What is joined to a directory and normalised is the destination from that directory, however the
directory is spelled. -/
theorem normalize_join_directory {target base dir : Path} (hdir : dir.isAbsolute = true)
    (hplace : dir.place = (directory base).place) :
    (dir.join target).normalize = rooted (destination target base).reverse := by
  rw [normalize_eq_rooted (isAbsolute_join hdir target), destination, start]
  cases habs : target.isAbsolute with
  | true =>
      rw [join, if_pos habs, if_pos rfl]
      rfl
  | false =>
      rw [place_join hdir habs, hplace]
      rfl

theorem resolve_of_isAbsolute (hbuiltin : builtins.isBuiltin specifier = false)
    (hreferrer : (⟨referrer⟩ : Path).isAbsolute = true)
    (habs : (⟨specifier⟩ : Path).isAbsolute = true) :
    resolve builtins packages specifier referrer = .ok (.file (⟨specifier⟩ : Path).normalize) := by
  unfold resolve
  dsimp only
  rw [hbuiltin, hreferrer, habs]
  rfl

/-- A path leads to its destination. -/
theorem resolve_of_isPath (hbuiltin : builtins.isBuiltin specifier = false)
    (hreferrer : (⟨referrer⟩ : Path).isAbsolute = true)
    (hpath : RequireId.isPath specifier = true) :
    resolve builtins packages specifier referrer =
      .ok (.file (rooted (destination ⟨specifier⟩ ⟨referrer⟩).reverse)) := by
  rw [← normalize_join_directory (isAbsolute_directory hreferrer) rfl]
  cases habs : (⟨specifier⟩ : Path).isAbsolute with
  | true =>
      have hjoin : (directory ⟨referrer⟩).join ⟨specifier⟩ = ⟨specifier⟩ := if_pos habs
      rw [hjoin]
      exact resolve_of_isAbsolute hbuiltin hreferrer habs
  | false =>
      have hrelative : spellsRelative specifier = true := by
        simpa [RequireId.isPath, habs] using hpath
      unfold resolve
      dsimp only
      rw [hbuiltin, hreferrer, habs, hrelative]
      rfl

/-- Where a specifier leads is a matter of the directory of the referrer, and not even of that if
the specifier is absolute. -/
theorem destination_congr {target base base' : Path} (hbase : base.isAbsolute = true)
    (hbase' : base'.isAbsolute = true)
    (h : target.isAbsolute = true ∨ (directory base').same (directory base) = true) :
    destination target base' = destination target base := by
  unfold destination start
  rcases h with habs | hsame
  · rw [if_pos habs, if_pos habs]
  · have hplace : (directory base').place = (directory base).place :=
      place_congr (isAbsolute_directory hbase') (isAbsolute_directory hbase) (eq_of_beq hsame)
    rw [hplace]

theorem resolve_of_canonical {p : Path} (hp : Canonical p)
    (hbuiltin : builtins.isBuiltin p.text = false)
    (hreferrer : (⟨referrer⟩ : Path).isAbsolute = true) :
    resolve builtins packages p.text referrer = .ok (.file p) := by
  rw [resolve_of_isAbsolute hbuiltin hreferrer hp.isAbsolute]
  exact congrArg (fun q => Except.ok (Location.file q)) hp.normalize_eq

end

/-- A specifier that is no built-in fails if the referrer is not absolute. If the referrer is
absolute and the specifier is spelled as a path, it leads to a path of names that come from
following the segments of the specifier from the directory of the referrer, or from the root. It
leads there from every referrer in the same directory, and the text of that path leads there from
everywhere. -/
theorem paths_resolve_canonically (builtins : Registry Provider)
    (packages : String → Path → Except Error Path) (specifier referrer : String)
    (hbuiltin : builtins.isBuiltin specifier = false) :
    ((⟨referrer⟩ : Path).isAbsolute = false →
      resolve builtins packages specifier referrer = .error (.invalidReferrer referrer)) ∧
    ((⟨referrer⟩ : Path).isAbsolute = true → RequireId.isPath specifier = true →
      ∃ p : Path, resolve builtins packages specifier referrer = .ok (.file p) ∧
        p.isAbsolute = true ∧ p.IsDotless ∧
        p = rooted (destination ⟨specifier⟩ ⟨referrer⟩).reverse ∧
        (∀ packages' referrer', (⟨referrer'⟩ : Path).isAbsolute = true →
          ((⟨specifier⟩ : Path).isAbsolute = true ∨
            (directory ⟨referrer'⟩).same (directory ⟨referrer⟩) = true) →
          resolve builtins packages' specifier referrer' = .ok (.file p)) ∧
        (builtins.isBuiltin p.text = false →
          ∀ packages' referrer', (⟨referrer'⟩ : Path).isAbsolute = true →
            resolve builtins packages' p.text referrer' = .ok (.file p))) := by
  refine ⟨resolve_of_not_isAbsolute hbuiltin, fun hreferrer hpath => ?_⟩
  have hcanonical : Canonical (rooted (destination ⟨specifier⟩ ⟨referrer⟩).reverse) :=
    ⟨_, by simpa using isName_destination ⟨specifier⟩ ⟨referrer⟩, rfl⟩
  refine ⟨_, resolve_of_isPath hbuiltin hreferrer hpath, hcanonical.isAbsolute,
    hcanonical.isDotless, rfl, ?_, ?_⟩
  · intro packages' referrer' hreferrer' h
    rw [resolve_of_isPath hbuiltin hreferrer' hpath, destination_congr hreferrer hreferrer' h]
  · intro htext packages' referrer' hreferrer'
    exact resolve_of_canonical hcanonical htext hreferrer'

/-- Where there are more steps up than directories, from two spellings of one directory. -/
theorem paths_resolve_canonically_aboveRoot :
    let builtins : Registry Unit := ⟨"node:", [("os", ())]⟩
    let packages : String → Path → Except Error Path := fun name _ => .error (.moduleNotFound name)
    let specifier := "../../../x/./y/..//z.cjs/"
    resolve builtins packages specifier "/a//b/../m.mjs" = .ok (.file ⟨"/x/z.cjs"⟩) ∧
      resolve builtins packages specifier "/a/./b/../n.mjs/" = .ok (.file ⟨"/x/z.cjs"⟩) ∧
      resolve builtins packages "/x/z.cjs" "/" = .ok (.file ⟨"/x/z.cjs"⟩) ∧
      resolve builtins packages specifier "a/m.mjs" = .error (.invalidReferrer "a/m.mjs") := by
  intro builtins packages specifier
  have hpath : rooted (destination ⟨specifier⟩ ⟨"/a//b/../m.mjs"⟩).reverse = ⟨"/x/z.cjs"⟩ := by
    decide +kernel
  obtain ⟨-, habsolute⟩ := paths_resolve_canonically builtins packages specifier "/a//b/../m.mjs"
    (by decide)
  obtain ⟨p, hresolve, -, -, hp, hreferrers, hagain⟩ := habsolute (by decide) (by decide)
  obtain rfl : p = ⟨"/x/z.cjs"⟩ := hp.trans hpath
  refine ⟨hresolve, ?_, ?_, ?_⟩
  · exact hreferrers packages "/a/./b/../n.mjs/" (by decide) (.inr (by decide +kernel))
  · exact hagain (by decide) packages "/" (by decide)
  · exact (paths_resolve_canonically builtins packages specifier "a/m.mjs" (by decide)).1
      (by decide)

end Location

end ModuleLoader
