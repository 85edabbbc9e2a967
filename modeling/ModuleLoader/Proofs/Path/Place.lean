import Mathlib.Data.FinEnum
import Mathlib.Data.List.Dedup
import Mathlib.Data.List.Perm.Subperm
import Mathlib.Data.Set.Finite.List
import ModuleLoader.FileTree
import ModuleLoader.Proofs.Path.NormalForm
/-!
Canonical paths and the places of a tree.

A canonical path leads, if it leads anywhere, to the place that has its names,
so two canonical paths that lead to files lead to two different files unless
they have the same text. Hence there are no more of them than there are files,
which is what bounds the length of a chain of modules.

Of paths that are not canonical there may be more, since dots can be put in where
there are directories to go through. But a path that leads anywhere is not too
long to be followed, and so there are only finitely many even of these.
-/

namespace ModuleLoader

open Path

namespace FileTree

theorem walk_root (t : FileTree) (names : List String) :
    t.walk [] ("" :: names) = t.walk [] names := rfl

/-- Segments that can be followed lead where they lead without a look at the tree. -/
theorem eq_of_walk {t : FileTree} {l : List String} {here place : Place}
    (hwalk : t.walk here l = .ok place) : place = l.foldl goTo here := by
  induction l generalizing here with
  | nil => exact (Except.ok.inj hwalk).symm
  | cons u rest ih =>
      unfold walk at hwalk
      rw [List.foldl_cons]
      split at hwalk
      · simp at hwalk
      · simp at hwalk
      · split at hwalk
        · exact ih hwalk
        · exact ih hwalk
        · exact ih hwalk
        · rename_i hempty hdot hup
          rw [goTo_of_ne hempty hdot hup]
          split at hwalk
          · simp at hwalk
          · exact ih hwalk

/-- What an absolute path leads to stands at the place that has the names of its normal form. -/
theorem normalize_of_locate {t : FileTree} {p : Path} (h : p.isAbsolute = true) {place : Place}
    {e : Entry} (hlocate : t.locate p = .ok (place, e)) :
    (∀ u ∈ place, IsName u) ∧ p.normalize = rooted place.reverse ∧ t.entry? place = some e := by
  obtain ⟨l, hne, hl, rfl⟩ := exists_rooted h
  unfold locate follow at hlocate
  rw [segments_rooted hne hl, walk_root] at hlocate
  cases hcheck : checkText (rooted l) with
  | error e => simp [hcheck, bind, Except.bind] at hlocate
  | ok u =>
      cases hwalk : t.walk [] l with
      | error e => simp [hcheck, hwalk, bind, Except.bind] at hlocate
      | ok there =>
          cases hentry : t.entry? there with
          | none => simp [hcheck, hwalk, hentry, bind, Except.bind] at hlocate
          | some e' =>
              obtain ⟨rfl, rfl⟩ : there = place ∧ e' = e := by
                simpa [hcheck, hwalk, hentry, bind, Except.bind] using hlocate
              have hplace : there = (rooted l).place := by
                rw [eq_of_walk hwalk, Path.place, segments_rooted hne hl]
                rfl
              rw [hplace] at hentry ⊢
              exact ⟨isName_place _, normalize_eq_rooted h, hentry⟩

/-- What a canonical path leads to stands at the place that has its names. -/
theorem locate_rooted {t : FileTree} {names : List String} (h : ∀ u ∈ names, IsName u)
    {place : Place} {e : Entry} (hlocate : t.locate (rooted names) = .ok (place, e)) :
    place = names.reverse ∧ t.entry? place = some e := by
  obtain ⟨hplace, hnormal, hentry⟩ := normalize_of_locate (isAbsolute_rooted names) hlocate
  rw [Canonical.normalize_eq ⟨names, h, rfl⟩] at hnormal
  rw [rooted_injective h (by simpa using hplace) hnormal]
  exact ⟨List.reverse_reverse place |>.symm, hentry⟩

/-- There is one canonical path to a place. -/
theorem eq_of_locate {t : FileTree} {p q : Path} (hp : Canonical p) (hq : Canonical q)
    {place : Place} {e e' : Entry} (h : t.locate p = .ok (place, e))
    (h' : t.locate q = .ok (place, e')) : p = q := by
  rw [← hp.normalize_eq, ← hq.normalize_eq, (normalize_of_locate hp.isAbsolute h).2.1,
    (normalize_of_locate hq.isAbsolute h').2.1]

theorem find_root (t : FileTree) : t.find (rooted []) = .ok .directory := by
  have hcheck : checkText (rooted []) = .ok () := by decide
  have hsegments : (rooted []).segments = ["", ""] := by decide
  rw [find, locate, follow, hcheck, hsegments]
  rfl

/-! ### Files -/

def hasFile (t : FileTree) (place : Place) : Bool :=
  match t.entry? place with
  | some (.file _) => true
  | _ => false

def filePlaces (t : FileTree) : List Place := (t.entries.map Prod.fst).dedup.filter t.hasFile

/-- How many files there are. -/
def fileCount (t : FileTree) : Nat := t.filePlaces.length

/-- The text is that of a canonical path at which there is a file. -/
def Holds (t : FileTree) (text : String) : Prop :=
  ∃ names, names ≠ [] ∧ (∀ u ∈ names, IsName u) ∧ text = (rooted names).text ∧
    names.reverse ∈ t.filePlaces

theorem mem_filePlaces {t : FileTree} {place : Place} (hne : place ≠ []) {text? : Option String}
    (h : t.entry? place = some (.file text?)) : place ∈ t.filePlaces := by
  have hlookup : t.entries.lookup place = some (.file text?) := by
    cases place with
    | nil => exact absurd rfl hne
    | cons name rest => exact h
  refine List.mem_filter.2 ⟨List.mem_dedup.2 ?_, by simp [hasFile, h]⟩
  obtain ⟨before, after, hentries, -⟩ := List.lookup_eq_some_iff.1 hlookup
  rw [hentries]
  simp

theorem holds_of_read {t : FileTree} {p : Path} (hp : Canonical p) {text : String}
    (h : t.read p = .ok text) : t.Holds p.text := by
  obtain ⟨names, hnames, rfl⟩ := hp
  have hfind : t.find (rooted names) = .ok (.file (some text)) := by
    unfold read at h
    split at h
    · simp at h
    · simp at h
    · simp at h
    · cases h
      assumption
  have hne : names ≠ [] := by
    rintro rfl
    simp [find_root] at hfind
  unfold find at hfind
  cases hlocate : t.locate (rooted names) with
  | error e => simp [hlocate, Except.map] at hfind
  | ok found =>
      obtain ⟨place, e⟩ := found
      have he : e = .file (some text) := by simpa [hlocate, Except.map] using hfind
      obtain ⟨rfl, hentry⟩ := locate_rooted hnames hlocate
      exact ⟨names, hne, hnames, rfl, mem_filePlaces (by simpa using hne) (he ▸ hentry)⟩

theorem Holds.canonical {t : FileTree} {text : String} (h : t.Holds text) : Canonical ⟨text⟩ := by
  obtain ⟨names, -, hnames, rfl, -⟩ := h
  exact ⟨names, hnames, rfl⟩

def placeOf (text : String) : Place := (⟨text⟩ : Path).segments.tail.reverse

theorem Holds.placeOf {t : FileTree} {text : String} (h : t.Holds text) :
    text = (rooted (placeOf text).reverse).text ∧ placeOf text ∈ t.filePlaces := by
  obtain ⟨names, hne, hnames, rfl, hmem⟩ := h
  have hplace : FileTree.placeOf (rooted names).text = names.reverse := by
    change (rooted names).segments.tail.reverse = _
    rw [segments_rooted hne fun u hu => (hnames u hu).segment, List.tail_cons]
  rw [hplace, List.reverse_reverse]
  exact ⟨rfl, hmem⟩

/-- Different canonical paths to files are no more than there are files. -/
theorem length_le_fileCount {t : FileTree} {texts : List String} (hnodup : texts.Nodup)
    (h : ∀ text ∈ texts, t.Holds text) : texts.length ≤ t.fileCount := by
  have hinj : (texts.map placeOf).Nodup := by
    refine List.Nodup.map_on ?_ hnodup
    intro a ha b hb hab
    rw [(h a ha).placeOf.1, (h b hb).placeOf.1, hab]
  have hsub : texts.map placeOf ⊆ t.filePlaces := by
    intro p hp
    obtain ⟨text, htext, rfl⟩ := List.mem_map.1 hp
    exact (h text htext).placeOf.2
  have hle := (List.Nodup.subperm hinj hsub).length_le
  rwa [List.length_map] at hle

/-! ### Paths to files -/

/-- A path that leads to a file is one that can be followed. -/
theorem size_le_pathLimit {t : FileTree} {p : Path} (h : t.isFile p) :
    p.text.utf8ByteSize ≤ pathLimit := by
  refine Nat.le_of_not_lt fun hlt => ?_
  have hcheck : ∃ e, checkText p = .error e := by
    unfold checkText
    rw [if_pos hlt]
    split
    · exact ⟨_, rfl⟩
    · split <;> exact ⟨_, rfl⟩
  obtain ⟨e, he⟩ := hcheck
  have hfind : t.find p = .error e := by
    rw [find, locate, follow, he]
    rfl
  simp [isFile, hfind] at h

theorem finite_isFile (t : FileTree) : {p : Path | t.isFile p}.Finite := by
  let bytes : Path → List UInt8 := fun p => p.text.toByteArray.data.toList
  have hinj : Function.Injective bytes := by
    rintro ⟨p⟩ ⟨q⟩ h
    have hbytes : p.toByteArray = q.toByteArray := ByteArray.ext (Array.toList_inj.1 h)
    rw [String.toByteArray_inj.1 hbytes]
  have hfinite := (List.finite_length_le UInt8 pathLimit).preimage (f := bytes) hinj.injOn
  exact hfinite.subset fun p hp => size_le_pathLimit hp

end FileTree

end ModuleLoader
