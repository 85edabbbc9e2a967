import Mathlib.Data.List.Basic
import ModuleLoader.Path.Normal
/-!
What a path says, segment by segment.

The text of a path and the list of its segments determine each other as long as
no segment contains a slash. All that is proved of joining, of parents and of
normal forms is proved of lists of segments and then read off the text. Only
absolute paths occur here: such a path is a slash and what follows it, and
`rooted` is the path that has given segments after the slash.
-/

namespace ModuleLoader

namespace Path

def IsSegment (t : String) : Prop := '/' ∉ t.toList

structure IsName (t : String) : Prop where
  segment : IsSegment t
  ne_empty : t ≠ ""
  ne_here : t ≠ "."
  ne_up : t ≠ ".."

instance (t : String) : Decidable (IsSegment t) :=
  inferInstanceAs (Decidable ('/' ∉ t.toList))

instance (t : String) : Decidable (IsName t) :=
  decidable_of_iff (IsSegment t ∧ t ≠ "" ∧ t ≠ "." ∧ t ≠ "..")
    ⟨fun h => ⟨h.1, h.2.1, h.2.2.1, h.2.2.2⟩, fun h => ⟨h.1, h.2, h.3, h.4⟩⟩

/-! ### Text and segments -/

theorem joined_segments (p : Path) : joined p.segments = p.text := by
  have h : (p.segments.map String.toList) = p.text.toList.splitOn '/' := by
    simp [segments, List.splitOn_eq_splitOnP, Function.comp_def]
  rw [joined, h, List.intercalate_splitOn, String.ofList_toList]

theorem segments_joined {l : List String} (hne : l ≠ []) (h : ∀ t ∈ l, IsSegment t) :
    (⟨joined l⟩ : Path).segments = l := by
  have hsplit : (['/'].intercalate (l.map String.toList)).splitOn '/' = l.map String.toList :=
    List.splitOn_intercalate '/' (by simpa [IsSegment] using h) (by simpa using hne)
  rw [List.splitOn_eq_splitOnP] at hsplit
  simp [segments, joined, String.toList_ofList, hsplit, Function.comp_def]

theorem eq_false_of_mem_splitOnP {sep : Char → Bool} {text piece : List Char}
    (h : piece ∈ text.splitOnP sep) : ∀ c ∈ piece, sep c = false := by
  induction text generalizing piece with
  | nil =>
      rw [List.splitOnP_nil, List.mem_singleton] at h
      simp [h]
  | cons d rest ih =>
      rw [List.splitOnP_cons_eq_if_modifyHead] at h
      split at h
      · rcases List.mem_cons.1 h with rfl | h
        · simp
        · exact ih h
      · rename_i hd
        cases hsplit : rest.splitOnP sep with
        | nil => exact absurd hsplit (List.splitOnP_ne_nil sep rest)
        | cons first others =>
            rw [hsplit] at ih h
            rcases List.mem_cons.1 h with rfl | h
            · have hfirst : ∀ c ∈ first, sep c = false := ih List.mem_cons_self
              exact List.forall_mem_cons.2 ⟨by simpa using hd, hfirst⟩
            · exact ih (List.mem_cons_of_mem _ h)

theorem isSegment_of_mem_segments {p : Path} {t : String} (h : t ∈ p.segments) : IsSegment t := by
  obtain ⟨piece, hpiece, rfl⟩ := List.mem_map.1 h
  rw [IsSegment, String.toList_ofList]
  exact fun hslash => Bool.noConfusion (eq_false_of_mem_splitOnP hpiece '/' hslash)

theorem segments_ne_nil (p : Path) : p.segments ≠ [] := by
  simp [segments, List.splitOnP_ne_nil]

@[simp] theorem joined_nil : joined [] = "" := rfl

@[simp] theorem joined_singleton (t : String) : joined [t] = t := by
  simp [joined]

theorem joined_cons {l : List String} (t : String) (hl : l ≠ []) :
    joined (t :: l) = t ++ "/" ++ joined l := by
  have hmap : l.map String.toList ≠ [] := by simpa using hl
  apply String.ext
  simp [joined, List.intercalate_cons_of_ne_nil hmap]

theorem joined_append {l l' : List String} (hl : l ≠ []) (hl' : l' ≠ []) :
    joined (l ++ l') = joined l ++ "/" ++ joined l' := by
  induction l with
  | nil => exact absurd rfl hl
  | cons t rest ih =>
      by_cases hrest : rest = []
      · rw [hrest, List.singleton_append, joined_cons t hl', joined_singleton]
      · rw [List.cons_append, joined_cons t (by simp [hrest]), ih hrest, joined_cons t hrest]
        simp only [String.append_assoc]

/-! ### Absolute paths -/

def rooted (segments : List String) : Path := ofAnchored .root segments

@[simp] theorem text_rooted (l : List String) : (rooted l).text = "/" ++ joined l := rfl

theorem text_rooted_of_ne_nil {l : List String} (hl : l ≠ []) :
    (rooted l).text = joined ("" :: l) := by
  rw [joined_cons "" hl, text_rooted]
  simp

@[simp] theorem isAbsolute_rooted (l : List String) : (rooted l).isAbsolute = true := by
  simp [isAbsolute]

theorem exists_rooted {p : Path} (h : p.isAbsolute = true) :
    ∃ l, l ≠ [] ∧ (∀ t ∈ l, IsSegment t) ∧ p = rooted l := by
  obtain ⟨text⟩ := p
  have hhead : text.toList.head? = some '/' := by simpa [isAbsolute] using h
  obtain ⟨rest, hrest⟩ := List.head?_eq_some_iff.1 hhead
  refine ⟨segments ⟨String.ofList rest⟩, segments_ne_nil _,
    fun t ht => isSegment_of_mem_segments ht, ?_⟩
  apply congrArg Path.mk
  rw [joined_segments]
  apply String.ext
  simp [hrest]

theorem segments_rooted {l : List String} (hl : l ≠ []) (h : ∀ t ∈ l, IsSegment t) :
    (rooted l).segments = "" :: l := by
  have htext : rooted l = ⟨joined ("" :: l)⟩ := congrArg Path.mk (text_rooted_of_ne_nil hl)
  rw [htext]
  refine segments_joined (List.cons_ne_nil _ _) ?_
  simpa [IsSegment] using h

/-- Segments can be read off the path that they make up, unless there is nothing between its
slashes. -/
theorem eq_of_rooted_eq {l l' : List String} (hne : l ≠ []) (hl : ∀ t ∈ l, IsSegment t)
    (hl' : ∀ t ∈ l', IsSegment t) (h : rooted l = rooted l') : l = [""] ∨ l = l' := by
  have hsegments := congrArg segments h
  rw [segments_rooted hne hl] at hsegments
  by_cases hroot : l' = []
  · have hblank : (rooted []).segments = ["", ""] := by decide
    rw [hroot, hblank] at hsegments
    exact .inl (List.cons.inj hsegments).2
  · rw [segments_rooted hroot hl'] at hsegments
    exact .inr (List.cons.inj hsegments).2

end Path

end ModuleLoader
