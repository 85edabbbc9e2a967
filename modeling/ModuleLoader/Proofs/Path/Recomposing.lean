import Mathlib.Data.List.TakeDrop
import ModuleLoader.Proofs.Path.NormalText
/-!
Taking a path apart and putting it together again.

The directory and the base name of a path are found by its components, joining works on
its text. They meet in the segments behind the mark. What is left out of these when the
last component is looked for is blank and leaves no trace on the stack of a walk, and so
the directory and then the name are walked like the path that they come from.

A path without a last segment has no directory, and a dot is given in place of it. For a
relative path that is as good, since it leads nowhere. For the root it is not: the root
is told to lie in the directory that the reader stands in.
-/

namespace ModuleLoader

namespace Builtin.Path

open ModuleLoader.Path (Anchor Component ofAnchored trimmed trimmed_isInit isBlank exists_trimmed)

variable {absolute : Bool} {stack : List String} {p : ModuleLoader.Path}

/-! ### The directory -/

theorem walk_of_isBlank {t : String} (h : isBlank t = true) :
    walk absolute stack t.toList = stack := by
  rcases (by simpa [isBlank] using h : t = "" ∨ t = ".") with rfl | rfl <;> rfl

theorem walkAll_of_isBlank {parts : List String} (h : ∀ t ∈ parts, isBlank t = true) :
    walkAll absolute stack parts = stack := by
  induction parts with
  | nil => rfl
  | cons part rest ih =>
      obtain ⟨hpart, hrest⟩ := List.forall_mem_cons.1 h
      have hstay : walkAll absolute (walk absolute stack part.toList) rest = stack := by
        rw [walk_of_isBlank hpart]
        exact ih hrest
      exact hstay

theorem walkAll_trimmed (parts : List String) :
    walkAll absolute stack (trimmed parts) = walkAll absolute stack parts := by
  obtain ⟨blanks, hblanks, hparts⟩ := exists_trimmed parts
  conv_rhs => rw [hparts, walkAll_append, walkAll_of_isBlank hblanks]

/-- Only the mark says whether a path is absolute. -/
theorem isAbsolute_ofAnchored {segments : List String} (mark : Anchor)
    (hsegments : ∀ t ∈ segments, ModuleLoader.Path.IsSegment t)
    (hbare : mark = .bare → ∀ t ∈ segments.head?, isBlank t = false) :
    isAbsolute (ofAnchored mark segments).text = decide (mark = .root) := by
  cases mark with
  | root => exact ModuleLoader.Path.isAbsolute_rooted segments
  | here => exact ModuleLoader.Path.isAbsolute_joined (by decide) (by decide)
  | bare =>
      cases segments with
      | nil => rfl
      | cons t rest =>
          have ht : isBlank t = false := hbare rfl t rfl
          refine ModuleLoader.Path.isAbsolute_joined (hsegments t List.mem_cons_self) ?_
          rintro rfl
          exact absurd ht (by decide)

theorem walk_dot (text : String) :
    walk absolute stack (if text == "" then "." else text).toList = walk absolute stack
      text.toList := by
  split
  · rename_i h
    rw [eq_of_beq h]
    rfl
  · rfl

theorem isAbsolute_dot (text : String) :
    isAbsolute (if text == "" then "." else text) = isAbsolute text := by
  split
  · rename_i h
    rw [eq_of_beq h]
    rfl
  · rfl

section

variable {init : List String} {t : String}

theorem dirname_of_trimmed (h : trimmed p.body = init ++ [t]) :
    let dir := ofAnchored p.mark (trimmed init)
    dirname p.text = if dir.text == "" then "." else dir.text := by
  unfold dirname
  rw [ModuleLoader.Path.parent?_of_trimmed h]

/-- The directory of a path with a last segment leads where the segments before the last one lead.
-/
theorem walk_dirname (h : trimmed p.body = init ++ [t]) :
    walk absolute stack (dirname p.text).toList = walkAll absolute stack init := by
  rw [dirname_of_trimmed h, walk_dot, walk_ofAnchored, walkAll_trimmed]

theorem isAbsolute_dirname (h : trimmed p.body = init ++ [t]) :
    isAbsolute (dirname p.text) = p.isAbsolute := by
  have hbegin : trimmed init <+: p.body := by
    have hinit : init <+: trimmed p.body := ⟨[t], h.symm⟩
    exact (trimmed_isInit init).trans (hinit.trans (trimmed_isInit p.body))
  have hsegments : ∀ u ∈ trimmed init, ModuleLoader.Path.IsSegment u :=
    fun u hu => ModuleLoader.Path.isSegment_of_mem_body (hbegin.subset hu)
  rw [dirname_of_trimmed h, isAbsolute_dot]
  refine (isAbsolute_ofAnchored p.mark hsegments fun hbare u hu => ?_).trans ?_
  · apply ModuleLoader.Path.isBlank_of_bare hbare
    obtain ⟨rest, hbody⟩ := hbegin
    rw [← hbody, List.head?_append, Option.mem_def.1 hu]
    rfl
  · rw [Bool.eq_iff_iff, decide_eq_true_iff]
    exact ModuleLoader.Path.isAbsolute_iff_mark.symm

end

/-- Where there is no last segment there is nothing behind the mark that leads anywhere. -/
theorem dirname_of_trimmed_eq_nil (h : trimmed p.body = []) :
    dirname p.text = "." ∧ basename p.text none = "" ∧
      normalize p.text = if p.isAbsolute then "/" else "." := by
  have hwalk : walk p.isAbsolute [] p.text.toList = [] := by
    rw [walk_eq_walkAll_body, ← walkAll_trimmed, h]
    rfl
  have hname : p.fileName? = none := by
    unfold ModuleLoader.Path.fileName?
    rw [ModuleLoader.Path.components_of_trimmed_eq_nil h]
    cases p.mark <;> rfl
  refine ⟨?_, congrArg (Option.getD · "") hname, ?_⟩
  · unfold dirname
    rw [ModuleLoader.Path.parent?_of_trimmed_eq_nil h]
    cases p.mark <;> rfl
  · change written p.isAbsolute (walk p.isAbsolute [] p.text.toList) = _
    rw [hwalk]
    cases p.isAbsolute <;> rfl

/-! ### The extension -/

theorem eq_append_of_splitAtDot {name before after : String}
    (h : ModuleLoader.Path.splitAtDot name = some (before, after)) :
    name = before ++ "." ++ after ∧ '.' ∉ after.toList := by
  unfold ModuleLoader.Path.splitAtDot at h
  rw [List.span_eq_takeWhile_dropWhile] at h
  split at h
  · rename_i rev tail hspan
    obtain ⟨htake, hdrop⟩ := Prod.mk.inj hspan
    obtain ⟨rfl, rfl⟩ := Prod.mk.inj (Option.some.inj h)
    have hname : name.toList.reverse = rev ++ '.' :: tail := by
      rw [← htake, ← hdrop, List.takeWhile_append_dropWhile]
    constructor
    · apply String.ext
      rw [← List.reverse_reverse name.toList, hname]
      simp
    · rw [String.toList_ofList, List.mem_reverse, ← htake]
      intro hmem
      exact absurd (List.mem_takeWhile_imp hmem) (by decide)
  · cases h

/-- An extension is empty, or it is what the file name ends in from its last dot on, and that is not
all of the name. -/
theorem extname_cases (path : String) :
    extname path = "" ∨ ∃ before after, before ≠ "" ∧ '.' ∉ after.toList ∧
      extname path = "." ++ after ∧ basename path none = before ++ extname path := by
  let p : ModuleLoader.Path := ⟨path⟩
  have hext : extname path = ((p.extension?).map ("." ++ ·)).getD "" := by
    unfold extname
    cases (⟨path⟩ : ModuleLoader.Path).extension? <;> rfl
  rw [hext]
  unfold ModuleLoader.Path.extension?
  split
  · exact .inl rfl
  · rename_i before after hne hsplit
    obtain ⟨name, hname, hdot⟩ := Option.bind_eq_some_iff.1 hsplit
    obtain ⟨hparts, hafter⟩ := eq_append_of_splitAtDot hdot
    refine .inr ⟨before, after, fun h => hne h, hafter, rfl, ?_⟩
    have hbase : basename path none = name := congrArg (Option.getD · "") hname
    rw [hbase, hparts, String.append_assoc]
    rfl
  · exact .inl rfl

theorem basename_some {path before ext : String} (h : basename path none = before ++ ext)
    (hne : ext = "" ∨ before ≠ "") : basename path (some ext) = before := by
  have hbase : basename path (some ext) =
      let name := basename path none
      if ext.toList.isSuffixOf name.toList && name != ext then
        String.ofList (name.toList.take (name.toList.length - ext.toList.length))
      else name := rfl
  rw [hbase, h]
  by_cases hbefore : before = ""
  · obtain rfl : ext = "" := hne.resolve_right (not_not_intro hbefore)
    subst hbefore
    rfl
  · have hproper : before ++ ext ≠ ext := by
      intro heq
      have hlength := congrArg (fun t => t.toList.length) heq
      simp [hbefore] at hlength
    simp [hproper]

/-- The base name without the extension, and the extension. -/
theorem basename_append_extname (path : String) :
    basename path (some (extname path)) ++ extname path = basename path none := by
  rcases extname_cases path with hempty | ⟨before, after, hne, -, -, hbase⟩
  · rw [hempty, basename_some (String.append_empty).symm (.inl rfl), String.append_empty]
  · rw [basename_some hbase (.inr hne), ← hbase]

/-! ### Putting together -/

section

variable {init : List String} {t : String}

/-- A last segment is the base name, unless it is a step up. -/
theorem basename_of_trimmed (h : trimmed p.body = init ++ [t])
    (hup : p.components.getLast? ≠ some .up) : basename p.text none = t := by
  have hlast := ModuleLoader.Path.getLast?_components h
  have hblank := ModuleLoader.Path.isBlank_of_trimmed h
  have hname : Component.ofSegment? t = some (.name t) := by
    unfold Component.ofSegment? at hlast ⊢
    split
    · simp [isBlank] at hblank
    · simp [isBlank] at hblank
    · exact absurd hlast hup
    · rfl
  have hfile : p.fileName? = some t := by
    unfold ModuleLoader.Path.fileName?
    rw [hlast, hname]
  exact congrArg (Option.getD · "") hfile

theorem components_ne_root_of_trimmed (h : trimmed p.body = init ++ [t]) :
    p.components ≠ [.root] := by
  intro hroot
  have hlast := ModuleLoader.Path.getLast?_components h
  rw [hroot] at hlast
  unfold Component.ofSegment? at hlast
  split at hlast <;> simp at hlast

theorem join_of_trimmed (h : trimmed p.body = init ++ [t])
    (hup : p.components.getLast? ≠ some .up) :
    join [dirname p.text, basename p.text none] = normalize p.text := by
  have hleads : leads [dirname p.text, basename p.text none] = p.isAbsolute := isAbsolute_dirname h
  have hbody : walkAll p.isAbsolute [] (init ++ [t]) = walk p.isAbsolute [] p.text.toList := by
    rw [← h, walkAll_trimmed, walk_eq_walkAll_body]
  rw [join_eq, hleads, basename_of_trimmed h hup]
  refine congrArg (written p.isAbsolute) (Eq.trans ?_ hbody)
  rw [walkAll_append, ← walk_dirname h]
  rfl

end

theorem components_eq_root_iff (h : trimmed p.body = []) :
    p.components = [.root] ↔ p.isAbsolute = true := by
  rw [ModuleLoader.Path.components_of_trimmed_eq_nil h, ModuleLoader.Path.isAbsolute_iff_mark]
  cases p.mark <;> simp [Anchor.steps]

/-- The directory of a path and its base name, joined, are the normal form of the path, unless the
path ends in a step up or is the root. The base name without the extension, and then the extension,
are the base name. -/
theorem parts_recompose (path : String) :
    let components := (⟨path⟩ : ModuleLoader.Path).components
    (components.getLast? ≠ some .up →
      (join [dirname path, basename path none] = normalize path ↔ components ≠ [.root])) ∧
    (isAbsolute (dirname path) = true ↔ isAbsolute path = true ∧ components ≠ [.root]) ∧
    basename path (some (extname path)) ++ extname path = basename path none ∧
    (components = [.root] →
      dirname path = "." ∧ basename path none = "" ∧ normalize path = "/") := by
  intro components
  have hext := basename_append_extname path
  rcases List.eq_nil_or_concat' (trimmed (⟨path⟩ : ModuleLoader.Path).body) with
    hnil | ⟨init, t, hlast⟩
  · obtain ⟨hdir, hbase, hnormal⟩ := dirname_of_trimmed_eq_nil hnil
    have hroot : components = [.root] ↔ isAbsolute path = true := components_eq_root_iff hnil
    have hnormal : normalize path = if isAbsolute path then "/" else "." := hnormal
    -- a dot and nothing, joined, are a dot: the normal form of all such paths but the root
    rw [ne_eq components [.root], hroot, hdir, hnormal]
    refine ⟨fun _ => ?_, ?_, hext, fun habsolute => ⟨rfl, hbase, if_pos habsolute⟩⟩
    · rw [hbase]
      cases isAbsolute path <;> decide +kernel
    · cases isAbsolute path <;> decide
  · have hroot : components ≠ [.root] := components_ne_root_of_trimmed hlast
    have habsolute : isAbsolute (dirname path) = isAbsolute path := isAbsolute_dirname hlast
    refine ⟨fun hup => iff_of_true (join_of_trimmed hlast hup) hroot, ?_, hext,
      fun h => absurd h hroot⟩
    rw [habsolute]
    exact (and_iff_left hroot).symm

/-- A dot file behind slashes and dots, with a backslash and a dot at the end. -/
theorem parts_recompose_dotted :
    (⟨"/a\\b//./.c.//."⟩ : ModuleLoader.Path).components.getLast? ≠ some .up ∧
      join [dirname "/a\\b//./.c.//.", basename "/a\\b//./.c.//." none] =
        normalize "/a\\b//./.c.//." ∧
      isAbsolute (dirname "/a\\b//./.c.//.") = true := by
  obtain ⟨hjoin, habsolute, -⟩ := parts_recompose "/a\\b//./.c.//."
  have hlast : (⟨"/a\\b//./.c.//."⟩ : ModuleLoader.Path).components.getLast? ≠ some .up := by
    decide +kernel
  exact ⟨hlast, (hjoin hlast).2 (by decide +kernel), habsolute.2 (by decide +kernel)⟩

/-- The root lies in the directory that the reader stands in, if its parts are to be believed. -/
theorem root_not_recomposed :
    (⟨"/"⟩ : ModuleLoader.Path).components.getLast? ≠ some .up ∧ isAbsolute "/" = true ∧
      dirname "/" = "." ∧ join [dirname "/", basename "/" none] = "." ∧ normalize "/" = "/" := by
  decide +kernel

end Builtin.Path

end ModuleLoader
