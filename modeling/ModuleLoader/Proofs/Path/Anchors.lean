import ModuleLoader.Proofs.Path.NormalForm
/-!
A path as a mark and what stands behind it.

What has been said of absolute paths by way of `rooted` is said here of all paths.
A path is the mark that it begins with and the segments behind the mark, and it can
be put together again from the two. Whether it is absolute is a matter of the mark
alone, and its components are those of the mark and those that its segments spell.

Of the segments the blank ones count for nothing, and where they end a path they are
left out before a last component is looked for. So a path with anything but blank
segments behind its mark has a last segment, and the parent and the file name are
what there is before it and what it is.
-/

namespace ModuleLoader

namespace Path

variable {p : Path}

def mark (p : Path) : Anchor := p.anchored.1

def body (p : Path) : List String := p.anchored.2

theorem anchored_eq (p : Path) : p.anchored = (p.mark, p.body) := rfl

def Anchor.steps : Anchor → List Component
  | root => [.root]
  | here => [.here]
  | bare => []

/-- The four shapes that a text can have. -/
theorem segments_cases (p : Path) :
    (p.segments = [""] ∧ p.mark = .bare ∧ p.body = []) ∨
      (p.body ≠ [] ∧ p.segments = "" :: p.body ∧ p.mark = .root) ∨
      (p.segments = "." :: p.body ∧ p.mark = .here) ∨
      ∃ t rest, isBlank t = false ∧ p.segments = t :: rest ∧ p.mark = .bare ∧
        p.body = t :: rest := by
  unfold mark body anchored
  split
  · rename_i hsegments
    exact .inl ⟨hsegments, rfl, rfl⟩
  · rename_i rest hne hsegments
    exact .inr (.inl ⟨fun hrest => hne (hrest ▸ rfl), hsegments, rfl⟩)
  · rename_i rest hsegments
    exact .inr (.inr (.inl ⟨hsegments, rfl⟩))
  · rename_i hempty hdot
    obtain ⟨t, rest, hsegments⟩ := List.exists_cons_of_ne_nil (segments_ne_nil p)
    refine .inr (.inr (.inr ⟨t, rest, ?_, hsegments, rfl, hsegments⟩))
    have ht : t ≠ "" ∧ t ≠ "." :=
      ⟨fun h => hempty rest (h ▸ hsegments), fun h => hdot rest (h ▸ hsegments)⟩
    simp [isBlank, ht]

theorem isSegment_of_mem_body {t : String} (h : t ∈ p.body) : IsSegment t := by
  apply isSegment_of_mem_segments (p := p)
  rcases segments_cases p with ⟨-, -, hbody⟩ | ⟨-, hsegments, -⟩ | ⟨hsegments, -⟩ |
    ⟨u, rest, -, hsegments, -, hbody⟩
  · rw [hbody] at h
    cases h
  · exact hsegments ▸ List.mem_cons_of_mem _ h
  · exact hsegments ▸ List.mem_cons_of_mem _ h
  · rwa [hsegments, ← hbody]

/-- A path is put together again from its parts. -/
theorem ofAnchored_mark (p : Path) : ofAnchored p.mark p.body = p := by
  have htext := joined_segments p
  refine congrArg Path.mk (?_ : (ofAnchored p.mark p.body).text = p.text)
  rcases segments_cases p with ⟨hsegments, hmark, hbody⟩ | ⟨hne, hsegments, hmark⟩ |
    ⟨hsegments, hmark⟩ | ⟨t, rest, -, hsegments, hmark, hbody⟩
  · rw [hmark, hbody, ← htext, hsegments]
    rfl
  · rw [hmark, ← htext, hsegments]
    exact text_rooted_of_ne_nil hne
  · rw [hmark, ← htext, hsegments]
    rfl
  · rw [hmark, hbody, ← htext, hsegments]
    rfl

theorem isAbsolute_iff_mark : p.isAbsolute = true ↔ p.mark = .root := by
  have hp : (⟨joined p.segments⟩ : Path) = p := congrArg Path.mk (joined_segments p)
  have hrelative {t : String} {rest : List String} (hsegments : p.segments = t :: rest)
      (ht : t ≠ "") : p.isAbsolute = false := by
    rw [← hp, hsegments]
    exact isAbsolute_joined (isSegment_of_mem_segments (hsegments ▸ List.mem_cons_self)) ht
  rcases segments_cases p with ⟨hsegments, hmark, -⟩ | ⟨-, -, hmark⟩ | ⟨hsegments, hmark⟩ |
    ⟨t, rest, ht, hsegments, hmark, -⟩
  · have hempty : p.isAbsolute = false := by
      rw [← hp, hsegments]
      rfl
    simp [hempty, hmark]
  · have habsolute := congrArg isAbsolute (ofAnchored_mark p)
    rw [hmark] at habsolute
    exact iff_of_true (habsolute.symm.trans (isAbsolute_rooted p.body)) hmark
  · simp [hrelative hsegments (by decide), hmark]
  · simp [hrelative hsegments (fun h => by simp [h, isBlank] at ht), hmark]

theorem components_eq (p : Path) :
    p.components = p.mark.steps ++ p.body.filterMap Component.ofSegment? := by
  unfold components
  rw [anchored_eq]
  cases p.mark <;> rfl

theorem isBlank_of_bare (h : p.mark = .bare) : ∀ t ∈ p.body.head?, isBlank t = false := by
  rcases segments_cases p with
    ⟨-, -, hbody⟩ | ⟨-, -, hmark⟩ | ⟨-, hmark⟩ | ⟨t, rest, ht, -, -, hbody⟩
  · simp [hbody]
  · rw [hmark] at h
    cases h
  · rw [hmark] at h
    cases h
  · simpa [hbody] using ht

/-! ### Blank segments -/

theorem ofSegment?_of_isBlank {t : String} (h : isBlank t = true) :
    Component.ofSegment? t = none := by
  rcases (by simpa [isBlank] using h : t = "" ∨ t = ".") with rfl | rfl <;> rfl

theorem exists_ofSegment? {t : String} (h : isBlank t = false) :
    ∃ c, Component.ofSegment? t = some c ∧ c.text = t := by
  unfold Component.ofSegment?
  split
  · simp [isBlank] at h
  · simp [isBlank] at h
  · exact ⟨.up, rfl, rfl⟩
  · exact ⟨.name t, rfl, rfl⟩

/-- What is left out at the end is blank. -/
theorem exists_trimmed (l : List String) :
    ∃ blanks, (∀ t ∈ blanks, isBlank t = true) ∧ l = trimmed l ++ blanks := by
  refine ⟨(l.reverse.takeWhile isBlank).reverse, fun t ht => ?_, ?_⟩
  · exact List.mem_takeWhile_imp (List.mem_reverse.1 ht)
  · rw [trimmed, ← List.reverse_append, List.takeWhile_append_dropWhile, List.reverse_reverse]

theorem isBlank_of_trimmed {l init : List String} {t : String} (h : trimmed l = init ++ [t]) :
    isBlank t = false := by
  have hhead := List.head?_dropWhile_not isBlank l.reverse
  have hreverse : l.reverse.dropWhile isBlank = t :: init.reverse := by
    rw [← List.reverse_reverse (l.reverse.dropWhile isBlank), ← trimmed, h]
    simp
  rw [hreverse] at hhead
  simpa using hhead

theorem filterMap_trimmed (l : List String) :
    (trimmed l).filterMap Component.ofSegment? = l.filterMap Component.ofSegment? := by
  obtain ⟨blanks, hblanks, hl⟩ := exists_trimmed l
  have hnone : blanks.filterMap Component.ofSegment? = [] :=
    List.filterMap_eq_nil_iff.2 fun t ht => ofSegment?_of_isBlank (hblanks t ht)
  conv_rhs => rw [hl, List.filterMap_append, hnone, List.append_nil]

/-! ### The last segment -/

section

variable {init : List String} {t : String}

theorem parent?_of_trimmed (h : trimmed p.body = init ++ [t]) :
    p.parent? = some (ofAnchored p.mark (trimmed init)) := by
  unfold parent?
  rw [anchored_eq]
  dsimp only
  have hne : trimmed p.body ≠ [] := by simp [h]
  obtain ⟨u, rest, hcons⟩ := List.exists_cons_of_ne_nil hne
  have hlast : (u :: rest).dropLast = init := by rw [← hcons, h, List.dropLast_concat]
  rw [hcons]
  cases p.mark <;> exact congrArg (fun steps => some (ofAnchored _ (trimmed steps))) hlast

/-- The last component is what the last segment spells. -/
theorem getLast?_components (h : trimmed p.body = init ++ [t]) :
    p.components.getLast? = Component.ofSegment? t := by
  obtain ⟨c, hc, -⟩ := exists_ofSegment? (isBlank_of_trimmed h)
  rw [components_eq, ← filterMap_trimmed, h, List.filterMap_append]
  simp [hc]

theorem components_of_trimmed_eq_nil (h : trimmed p.body = []) : p.components = p.mark.steps := by
  rw [components_eq, ← filterMap_trimmed, h]
  simp

theorem parent?_of_trimmed_eq_nil (h : trimmed p.body = []) :
    p.parent? = if p.mark = .here then some ⟨""⟩ else none := by
  unfold parent?
  rw [anchored_eq]
  dsimp only
  rw [h]
  cases p.mark <;> rfl

end

end Path

end ModuleLoader
