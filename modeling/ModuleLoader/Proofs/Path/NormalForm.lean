import Mathlib.Data.List.TakeWhile
import ModuleLoader.Proofs.Path.Spelling
/-!
Absolute paths in normal form.

A path is canonical if it is a slash and then names, nothing else, with a slash
between each two. Normalising an absolute path makes it canonical, and changes
nothing about a path that is canonical already, not even its text. That is why
identifiers can be compared as they stand.

The operations that lookups are made of are followed through on lists of names:
joining puts names behind names, the parent drops the last one, a new file name
replaces it. What goes into them canonical comes out canonical.
-/

namespace ModuleLoader

namespace Path

/-- A slash and names. -/
def Canonical (p : Path) : Prop := ∃ names, (∀ t ∈ names, IsName t) ∧ p = rooted names

theorem Canonical.isAbsolute {p : Path} (h : Canonical p) : p.isAbsolute = true := by
  obtain ⟨names, -, rfl⟩ := h
  exact isAbsolute_rooted names

/-! ### Components -/

theorem Component.ofSegment?_name {t : String} (h : IsName t) :
    Component.ofSegment? t = some (.name t) := by
  unfold Component.ofSegment?
  split
  · exact absurd rfl h.ne_empty
  · exact absurd rfl h.ne_here
  · exact absurd rfl h.ne_up
  · rfl

theorem anchored_rooted {l : List String} (hl : l ≠ []) (h : ∀ t ∈ l, IsSegment t) :
    (rooted l).anchored = (.root, l) := by
  unfold anchored
  rw [segments_rooted hl h]
  cases l with
  | nil => exact absurd rfl hl
  | cons t rest => rfl

theorem anchored_root : (rooted []).anchored = (.root, [""]) := by decide

theorem components_rooted {l : List String} (h : ∀ t ∈ l, IsSegment t) :
    (rooted l).components = .root :: l.filterMap Component.ofSegment? := by
  unfold components
  by_cases hl : l = []
  · rw [hl, anchored_root]
    rfl
  · rw [anchored_rooted hl h]

theorem filterMap_ofSegment? {names : List String} (h : ∀ t ∈ names, IsName t) :
    names.filterMap Component.ofSegment? = names.map .name := by
  induction names with
  | nil => rfl
  | cons t rest ih =>
      rw [List.filterMap_cons_some (Component.ofSegment?_name (h t List.mem_cons_self)),
        ih fun u hu => h u (List.mem_cons_of_mem _ hu), List.map_cons]

theorem components_canonical {names : List String} (h : ∀ t ∈ names, IsName t) :
    (rooted names).components = .root :: names.map .name := by
  rw [components_rooted fun t ht => (h t ht).segment, filterMap_ofSegment? h]

/-! ### Normalising -/

theorem ofComponents_root (names : List String) :
    ofComponents (.root :: names.map .name) = rooted names := by
  simp [ofComponents, rooted, ofAnchored, Function.comp_def, Component.text]

/-- One segment further from a place that is given by its names, the innermost first. Nothing and a
dot stay where they are, two dots leave the directory, and the root is the directory of the root. -/
def goTo (here : List String) : String → List String
  | "" => here
  | "." => here
  | ".." => here.tail
  | name => name :: here

/-- The place that the segments of a path lead to from the root if every name is a directory. -/
def place (p : Path) : List String := p.segments.foldl goTo []

theorem goTo_of_ne {here : List String} {t : String} (hempty : t ≠ "") (hdot : t ≠ ".")
    (hup : t ≠ "..") : goTo here t = t :: here := by
  rw [goTo] <;> assumption

theorem isName_goTo {here : List String} (hhere : ∀ u ∈ here, IsName u) {t : String}
    (ht : IsSegment t) : ∀ u ∈ goTo here t, IsName u := by
  unfold goTo
  split
  · exact hhere
  · exact hhere
  · exact fun u hu => hhere u (List.mem_of_mem_tail hu)
  · rename_i hempty hdot hup
    intro u hu
    rcases List.mem_cons.1 hu with rfl | hu
    · exact ⟨ht, hempty, hdot, hup⟩
    · exact hhere u hu

theorem isName_foldl_goTo {l : List String} (hl : ∀ t ∈ l, IsSegment t) {here : List String}
    (hhere : ∀ u ∈ here, IsName u) : ∀ u ∈ l.foldl goTo here, IsName u := by
  induction l generalizing here with
  | nil => exact hhere
  | cons t rest ih =>
      apply ih
      · exact fun u hu => hl u (List.mem_cons_of_mem _ hu)
      · exact isName_goTo hhere (hl t List.mem_cons_self)

theorem isName_place (p : Path) : ∀ u ∈ p.place, IsName u :=
  isName_foldl_goTo (fun _ ht => isSegment_of_mem_segments ht) (by simp)

/-- From the root a walk never gets above the root, and what it leaves behind are the names of the
place it has come to. -/
theorem foldl_walkStep (l here : List String) :
    (l.filterMap Component.ofSegment?).foldl walkStep (here.map .name ++ [.root]) =
      (l.foldl goTo here).map .name ++ [.root] := by
  induction l generalizing here with
  | nil => rfl
  | cons t rest ih =>
      have hstep : ((Component.ofSegment? t).toList).foldl walkStep (here.map .name ++ [.root]) =
          (goTo here t).map .name ++ [.root] := by
        unfold Component.ofSegment?
        split
        · rfl
        · rfl
        · cases here <;> rfl
        · rename_i hempty hdot hup
          rw [goTo_of_ne hempty hdot hup]
          rfl
      rw [List.foldl_cons, ← ih, ← hstep, ← List.foldl_append, List.filterMap_cons]
      cases Component.ofSegment? t <;> rfl

theorem foldl_walkStep_names (names : List String) (walk : List Component) :
    (names.map Component.name).foldl walkStep walk = (names.map .name).reverse ++ walk := by
  induction names generalizing walk with
  | nil => rfl
  | cons t rest ih =>
      rw [List.map_cons, List.foldl_cons, ih, List.reverse_cons, List.append_assoc]
      rfl

/-- The names that a walk from the root leaves behind make up the normal form. -/
theorem normalize_of_walk {p : Path} {names : List String}
    (h : p.components.foldl walkStep [] = (names.map .name).reverse ++ [.root]) :
    p.normalize = rooted names := by
  rw [normalize, normalSteps, h, List.reverse_append, List.reverse_reverse]
  exact ofComponents_root names

/-- Walking along an absolute path leads to the place that its segments lead to. -/
theorem foldl_components {p : Path} (h : p.isAbsolute = true) :
    p.components.foldl walkStep [] = p.place.map .name ++ [.root] := by
  obtain ⟨l, hne, hl, rfl⟩ := exists_rooted h
  rw [components_rooted hl, place, segments_rooted hne hl]
  exact foldl_walkStep l []

theorem place_eq {p : Path} (h : p.isAbsolute = true) {names : List String}
    (hwalk : p.components.foldl walkStep [] = names.map .name ++ [.root]) : p.place = names := by
  rw [foldl_components h] at hwalk
  exact List.map_injective_iff.2 (fun _ _ => Component.name.inj) (List.append_cancel_right hwalk)

/-- Where an absolute path leads is a matter of its components. -/
theorem place_congr {p q : Path} (hp : p.isAbsolute = true) (hq : q.isAbsolute = true)
    (h : p.components = q.components) : p.place = q.place := by
  apply place_eq hp
  rw [h, foldl_components hq]

/-- The normal form of an absolute path is a slash and the names of that place. -/
theorem normalize_eq_rooted {p : Path} (h : p.isAbsolute = true) :
    p.normalize = rooted p.place.reverse := by
  apply normalize_of_walk
  rw [foldl_components h, List.map_reverse, List.reverse_reverse]

/-- Normalising makes an absolute path canonical. -/
theorem canonical_normalize {p : Path} (h : p.isAbsolute = true) : Canonical p.normalize := by
  exact ⟨p.place.reverse, by simpa using isName_place p, normalize_eq_rooted h⟩

/-- A canonical path is its own normal form. -/
theorem Canonical.normalize_eq {p : Path} (h : Canonical p) : p.normalize = p := by
  obtain ⟨names, hnames, rfl⟩ := h
  refine normalize_of_walk ?_
  rw [components_canonical hnames, List.foldl_cons]
  exact foldl_walkStep_names names [.root]

/-- Names can be read off the path that they make up. -/
theorem rooted_injective {names names' : List String} (h : ∀ t ∈ names, IsName t)
    (h' : ∀ t ∈ names', IsName t) (heq : rooted names = rooted names') : names = names' := by
  have hcomponents := congrArg components heq
  rw [components_canonical h, components_canonical h'] at hcomponents
  exact List.map_injective_iff.2 (fun _ _ => Component.name.inj) (List.cons.inj hcomponents).2

/-! ### Joining -/

/-- What stands before the first of further segments. -/
def stem (l : List String) : String :=
  if l = [] then "/" else (rooted l).text ++ "/"

theorem text_rooted_append (l : List String) {l' : List String} (hl' : l' ≠ []) :
    (rooted (l ++ l')).text = stem l ++ joined l' := by
  by_cases hl : l = []
  · rw [hl]
    rfl
  · rw [stem, if_neg hl, text_rooted, text_rooted, joined_append hl hl']
    simp only [String.append_assoc]

/-- A text that ends in a segment does not end in a slash. -/
theorem all_getLast?_eq_false (a : String) {t : String} (ht : IsSegment t) (hne : t ≠ "") :
    (a ++ t).toList.getLast?.all (· == '/') = false := by
  obtain ⟨c, hc⟩ : ∃ c, t.toList.getLast? = some c :=
    Option.ne_none_iff_exists'.1 (by simpa using hne)
  have hslash : c ≠ '/' := fun he => ht (he ▸ List.mem_of_getLast? hc)
  rw [String.toList_append, List.getLast?_append, hc]
  simpa using hslash

theorem join_rooted {l : List String} (hl : ∀ t ∈ l.getLast?, IsSegment t ∧ t ≠ "") {q : Path}
    (hq : q.isAbsolute = false) : (rooted l).join q = ⟨stem l ++ q.text⟩ := by
  unfold join
  rw [hq]
  rcases List.eq_nil_or_concat' l with rfl | ⟨init, t, rfl⟩
  · rfl
  · obtain ⟨ht, hne⟩ := hl t (by simp)
    have hlast : (rooted (init ++ [t])).text.toList.getLast?.all (· == '/') = false := by
      rw [text_rooted_append init (List.cons_ne_nil t []), joined_singleton]
      exact all_getLast?_eq_false _ ht hne
    rw [hlast]
    simp [stem]

theorem join_stem (l : List String) {q : Path} (hq : q.isAbsolute = false) :
    (⟨stem l⟩ : Path).join q = ⟨stem l ++ q.text⟩ := by
  have hlast : (stem l).toList.getLast? = some '/' := by
    unfold stem
    split
    · decide
    · rw [String.toList_append, List.getLast?_append]
      rfl
  unfold join
  rw [hq, hlast]
  rfl

theorem isAbsolute_joined {t : String} {l : List String} (ht : IsSegment t) (hne : t ≠ "") :
    (⟨joined (t :: l)⟩ : Path).isAbsolute = false := by
  obtain ⟨c, rest, hc⟩ := List.exists_cons_of_ne_nil (fun h => hne (String.toList_eq_nil_iff.1 h))
  have hslash : c ≠ '/' := fun he => ht (by rw [hc, he]; exact List.mem_cons_self)
  by_cases hl : l = []
  · simp [isAbsolute, hl, hc, hslash]
  · simp [isAbsolute, joined_cons t hl, hc, hslash]

theorem IsName.isAbsolute_eq_false {t : String} (h : IsName t) :
    (⟨t⟩ : Path).isAbsolute = false := by
  have hjoined := isAbsolute_joined (l := []) h.segment h.ne_empty
  rwa [joined_singleton] at hjoined

theorem join_rooted_joined {l : List String} (hl : ∀ t ∈ l.getLast?, IsSegment t ∧ t ≠ "")
    {t : String} {l' : List String} (ht : IsSegment t) (hne : t ≠ "") :
    (rooted l).join ⟨joined (t :: l')⟩ = rooted (l ++ t :: l') := by
  rw [join_rooted hl (isAbsolute_joined ht hne)]
  exact congrArg Path.mk (text_rooted_append l (List.cons_ne_nil t l')).symm

theorem last_isName {names : List String} (h : ∀ t ∈ names, IsName t) :
    ∀ t ∈ names.getLast?, IsSegment t ∧ t ≠ "" := fun t ht =>
  ⟨(h t (List.mem_of_getLast? ht)).segment, (h t (List.mem_of_getLast? ht)).ne_empty⟩

theorem isName_append {names : List String} (h : ∀ t ∈ names, IsName t) {t : String}
    (ht : IsName t) : ∀ u ∈ names ++ [t], IsName u := by
  intro u hu
  rcases List.mem_append.1 hu with hu | hu
  · exact h u hu
  · rw [List.mem_singleton.1 hu]
    exact ht

/-- One more name at the end of a canonical path. -/
theorem join_name {names : List String} (h : ∀ t ∈ names, IsName t) {t : String} (ht : IsName t) :
    (rooted names).join ⟨t⟩ = rooted (names ++ [t]) := by
  have hjoin : (rooted names).join ⟨joined [t]⟩ = rooted (names ++ [t]) :=
    join_rooted_joined (last_isName h) ht.segment ht.ne_empty
  rwa [joined_singleton] at hjoin

theorem Canonical.join_name {p : Path} (h : Canonical p) {t : String} (ht : IsName t) :
    Canonical (p.join ⟨t⟩) := by
  obtain ⟨names, hnames, rfl⟩ := h
  exact ⟨names ++ [t], isName_append hnames ht, Path.join_name hnames ht⟩

theorem isAbsolute_join {p : Path} (h : p.isAbsolute = true) (q : Path) :
    (p.join q).isAbsolute = true := by
  have hhead : p.text.toList.head? = some '/' := by simpa [isAbsolute] using h
  obtain ⟨rest, hrest⟩ := List.head?_eq_some_iff.1 hhead
  unfold join
  split
  · assumption
  split
  · simp [isAbsolute, hrest]
  · simp [isAbsolute, hrest]

def steps (p : Path) : List Component := p.segments.filterMap Component.ofSegment?

theorem steps_slash (a b : String) :
    (⟨a ++ "/" ++ b⟩ : Path).steps = (⟨a⟩ : Path).steps ++ (⟨b⟩ : Path).steps := by
  have htext : (a ++ "/" ++ b).toList = a.toList ++ '/' :: b.toList := by simp
  rw [steps, segments, htext, List.splitOnP_append_cons _ _ rfl, List.map_append,
    List.filterMap_append]
  rfl

/-- The steps of a path that is joined come behind those of the path it is joined to. -/
theorem steps_join (p : Path) {q : Path} (hq : q.isAbsolute = false) :
    (p.join q).steps = p.steps ++ q.steps := by
  unfold join
  rw [if_neg (by simp [hq])]
  split
  · rename_i hlast
    obtain ⟨text⟩ := p
    rcases List.eq_nil_or_concat' text.toList with hempty | ⟨init, c, htext⟩
    · rw [String.toList_eq_nil_iff.1 hempty, String.empty_append]
      rfl
    · -- the slash that is needed is there
      rw [htext, List.getLast?_concat] at hlast
      obtain rfl : c = '/' := by simpa using hlast
      obtain rfl : text = String.ofList init ++ "/" ++ "" := String.ext (by simp [htext])
      rw [steps_slash, String.append_empty, steps_slash]
      simp [steps, segments, Component.ofSegment?]
  · exact steps_slash p.text q.text

theorem components_of_isAbsolute {p : Path} (h : p.isAbsolute = true) :
    p.components = .root :: p.steps := by
  obtain ⟨l, hne, hl, rfl⟩ := exists_rooted h
  rw [components_rooted hl, steps, segments_rooted hne hl]
  rfl

theorem components_join {p q : Path} (hp : p.isAbsolute = true) (hq : q.isAbsolute = false) :
    (p.join q).components = p.components ++ q.segments.filterMap Component.ofSegment? := by
  rw [components_of_isAbsolute (isAbsolute_join hp q), components_of_isAbsolute hp, steps_join p hq]
  rfl

/-- What is joined is followed from the place of the path that it is joined to. -/
theorem place_join {p q : Path} (hp : p.isAbsolute = true) (hq : q.isAbsolute = false) :
    (p.join q).place = q.segments.foldl goTo p.place := by
  apply place_eq (isAbsolute_join hp q)
  rw [components_join hp hq, List.foldl_append, foldl_components hp, foldl_walkStep]

/-! ### Parents and file names -/

theorem trimmed_isInit (l : List String) : trimmed l <+: l := by
  have h := List.reverse_prefix.2 (List.dropWhile_suffix (l := l.reverse) isBlank)
  rwa [List.reverse_reverse] at h

/-- Where nothing blank ends the segments nothing is left out. -/
theorem trimmed_eq_self {l : List String} (h : ∀ t ∈ l.getLast?, isBlank t = false) :
    trimmed l = l := by
  rcases List.eq_nil_or_concat' l with rfl | ⟨init, t, rfl⟩
  · rfl
  · have ht : isBlank t = false := h t (by simp)
    simp [trimmed, ht]

theorem IsName.isBlank {t : String} (h : IsName t) : Path.isBlank t = false := by
  simp [Path.isBlank, h.ne_empty, h.ne_here]

theorem trimmed_names {names : List String} (h : ∀ t ∈ names, IsName t) : trimmed names = names :=
  trimmed_eq_self fun t ht => (h t (List.mem_of_getLast? ht)).isBlank

theorem parent?_root : (rooted []).parent? = none := by decide

/-- The parent drops the last name. -/
theorem parent?_rooted {names : List String} (h : ∀ t ∈ names, IsName t) (hne : names ≠ []) :
    (rooted names).parent? = some (rooted names.dropLast) := by
  have hinit : ∀ t ∈ names.dropLast, IsName t := fun t ht => h t (List.dropLast_subset names ht)
  unfold parent?
  rw [anchored_rooted hne fun t ht => (h t ht).segment]
  dsimp only
  rw [trimmed_names h]
  cases names with
  | nil => exact absurd rfl hne
  | cons t rest =>
      dsimp only
      rw [trimmed_names hinit]
      rfl

/-- Where no segment leads up, the names come one behind the other. -/
theorem foldl_goTo_of_ne {l : List String} (h : ∀ t ∈ l, t ≠ "..") (here : List String) :
    l.foldl goTo here = (l.filter fun t => !isBlank t).reverse ++ here := by
  induction l generalizing here with
  | nil => rfl
  | cons t rest ih =>
      have hup : t ≠ ".." := h t List.mem_cons_self
      rw [List.foldl_cons, ih fun u hu => h u (List.mem_cons_of_mem _ hu)]
      by_cases hblank : t = "" ∨ t = "."
      · rcases hblank with rfl | rfl <;> rfl
      · obtain ⟨hempty, hdot⟩ := not_or.1 hblank
        rw [goTo_of_ne hempty hdot hup, List.filter_cons_of_pos (by simp [isBlank, hempty, hdot])]
        simp

/-- What has no parent is the root, however it is spelled. -/
theorem place_of_parent?_eq_none {p : Path} (h : p.isAbsolute = true) (hparent : p.parent? = none) :
    p.place = [] := by
  obtain ⟨l, hne, hl, rfl⟩ := exists_rooted h
  have htrimmed : trimmed l = [] := by
    unfold parent? at hparent
    rw [anchored_rooted hne hl] at hparent
    dsimp only at hparent
    cases hsteps : trimmed l with
    | nil => rfl
    | cons t rest => simp [hsteps] at hparent
  have hblank : ∀ t ∈ l, isBlank t = true := by
    rw [trimmed, List.reverse_eq_nil_iff, List.dropWhile_eq_nil_iff] at htrimmed
    simpa using htrimmed
  have hup : ∀ t ∈ l, t ≠ ".." := by
    rintro t ht rfl
    exact absurd (hblank ".." ht) (by decide)
  have hnone : (l.filter fun t => !isBlank t) = [] := by simpa [List.filter_eq_nil_iff] using hblank
  have hstay : l.foldl goTo [] = [] := by rw [foldl_goTo_of_ne hup, hnone]; rfl
  rw [place, segments_rooted hne hl]
  exact hstay

theorem Canonical.parent {p dir : Path} (h : Canonical p) (hdir : p.parent? = some dir) :
    Canonical dir := by
  obtain ⟨names, hnames, rfl⟩ := h
  by_cases hne : names = []
  · rw [hne, parent?_root] at hdir
    simp at hdir
  · rw [parent?_rooted hnames hne] at hdir
    cases hdir
    exact ⟨names.dropLast, fun t ht => hnames t (List.dropLast_subset names ht), rfl⟩

/-- What passes from a path to its parent holds of all directories above. -/
theorem forall_mem_ancestors {P : Path → Prop}
    (hparent : ∀ p dir, P p → p.parent? = some dir → P dir) {p : Path} (h : P p) :
    ∀ dir ∈ p.ancestors, P dir := by
  suffices H : ∀ n (p : Path), P p → ∀ dir ∈ ancestorsWithin n p, P dir from H _ p h
  intro n
  induction n with
  | zero => simp [ancestorsWithin]
  | succ n ih =>
      intro p hp dir hdir
      unfold ancestorsWithin at hdir
      split at hdir
      · simp at hdir
      · rename_i up hup
        rcases List.mem_cons.1 hdir with rfl | hdir
        · exact hparent p dir hp hup
        · exact ih up (hparent p up hp hup) dir hdir

theorem Canonical.mem_ancestors {p dir : Path} (h : Canonical p) (hdir : dir ∈ p.ancestors) :
    Canonical dir :=
  forall_mem_ancestors (fun _ _ hp hup => hp.parent hup) h dir hdir

/-- The parent keeps the slash that a path begins with. -/
theorem isAbsolute_of_parent {p dir : Path} (h : p.isAbsolute = true)
    (hdir : p.parent? = some dir) :
    dir.isAbsolute = true := by
  obtain ⟨l, hne, hl, rfl⟩ := exists_rooted h
  unfold parent? at hdir
  rw [anchored_rooted hne hl] at hdir
  dsimp only at hdir
  cases hsteps : trimmed l with
  | nil => simp [hsteps] at hdir
  | cons t rest =>
      rw [hsteps] at hdir
      rw [← Option.some.inj hdir]
      exact isAbsolute_rooted _

theorem isAbsolute_of_mem_ancestors {p dir : Path} (h : p.isAbsolute = true)
    (hdir : dir ∈ p.ancestors) : dir.isAbsolute = true :=
  forall_mem_ancestors (fun _ _ hp hup => isAbsolute_of_parent hp hup) h dir hdir

theorem isAbsolute_parentOr {p fallback : Path} (h : p.isAbsolute = true)
    (hfallback : fallback.isAbsolute = true) : (p.parentOr fallback).isAbsolute = true := by
  unfold parentOr
  cases hdir : p.parent? with
  | none => exact hfallback
  | some dir => exact isAbsolute_of_parent h hdir

theorem fileName?_rooted {names : List String} (h : ∀ t ∈ names, IsName t) :
    (rooted names).fileName? = names.getLast? := by
  unfold fileName?
  rw [components_canonical h]
  rcases List.eq_nil_or_concat' names with rfl | ⟨init, t, rfl⟩
  · rfl
  · rw [List.map_append, List.getLast?_append, ← List.cons_append, List.getLast?_append]
    rfl

/-- A new file name takes the place of the last name. -/
theorem withFileName_rooted {init : List String} {t u : String} (h : ∀ v ∈ init ++ [t], IsName v)
    (hu : IsName u) : (rooted (init ++ [t])).withFileName u = rooted (init ++ [u]) := by
  have hinit : ∀ v ∈ init, IsName v := fun v hv => h v (List.mem_append_left _ hv)
  unfold withFileName
  rw [fileName?_rooted h, parent?_rooted h (by simp), List.getLast?_concat, List.dropLast_concat]
  exact Path.join_name hinit hu

end Path

end ModuleLoader
