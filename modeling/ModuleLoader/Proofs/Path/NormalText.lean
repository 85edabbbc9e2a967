import ModuleLoader.Proofs.Path.Anchors
import ModuleLoader.Proofs.Path.Joining
/-!
Texts in normal form, and the two ways to get to one.

A text in normal form is what some stack is written as. Since a stack is walked back to
from its own text, such a text is its own normal form, and it makes no difference whether
a part is brought into normal form before the walk goes on.

Paths have a normal form as well, which is made from components and not from text.
Where there is no backslash the components of a path are the segments of its text, and
each of them does to the one stack what it does to the other.
-/

namespace ModuleLoader

namespace Builtin.Path

open ModuleLoader.Path (joined IsSegment IsName Component walkStep)

variable {absolute : Bool} {stack : List String}

/-! ### Texts in normal form -/

def steps (text : String) : List String :=
  let segments := (⟨text⟩ : ModuleLoader.Path).segments
  if isAbsolute text then segments.tail else segments

/-- A text without backslashes and without segments that leave no trace, which goes up in the
beginning if at all and does not go up from the root. The root is written as a slash, and a text
that leads nowhere as a dot. -/
structure IsNormal (text : String) : Prop where
  no_backslash : '\\' ∉ text.toList
  no_blank : text = "/" ∨ text = "." ∨ ∀ t ∈ steps text, t ≠ "" ∧ t ≠ "."
  up_first : ".." ∉ (steps text).dropWhile (· == "..")
  not_above_root : isAbsolute text = true → ".." ∉ steps text

instance (text : String) : Decidable (IsNormal text) :=
  decidable_of_iff ('\\' ∉ text.toList ∧
      (text = "/" ∨ text = "." ∨ ∀ t ∈ steps text, t ≠ "" ∧ t ≠ ".") ∧
      ".." ∉ (steps text).dropWhile (· == "..") ∧ (isAbsolute text = true → ".." ∉ steps text))
    ⟨fun h => ⟨h.1, h.2.1, h.2.2.1, h.2.2.2⟩, fun h => ⟨h.1, h.2, h.3, h.4⟩⟩

/-- The backslashes of a text are those of its segments. -/
theorem backslash_mem_joined {segments : List String} :
    '\\' ∈ (joined segments).toList ↔ ∃ t ∈ segments, '\\' ∈ t.toList := by
  induction segments with
  | nil => simp
  | cons t rest ih =>
      by_cases hnil : rest = []
      · simp [hnil]
      · rw [ModuleLoader.Path.joined_cons t hnil]
        simp [ih]

theorem steps_joined {t : String} {rest : List String} (h : ∀ u ∈ t :: rest, IsSegment u)
    (hne : t ≠ "") : steps (joined (t :: rest)) = t :: rest := by
  have hrelative : isAbsolute (joined (t :: rest)) = false :=
    ModuleLoader.Path.isAbsolute_joined (h t List.mem_cons_self) hne
  rw [steps, if_neg (by simp [hrelative])]
  exact ModuleLoader.Path.segments_joined (List.cons_ne_nil t rest) h

theorem steps_slash_joined {l : List String} (hne : l ≠ []) (h : ∀ u ∈ l, IsSegment u) :
    steps ("/" ++ joined l) = l := by
  have habsolute : isAbsolute ("/" ++ joined l) = true := ModuleLoader.Path.isAbsolute_rooted l
  rw [steps, if_pos habsolute]
  exact congrArg List.tail (ModuleLoader.Path.segments_rooted hne h)

/-- The segments of what a stack is written as are those on the stack. -/
theorem Settled.steps_written (h : Settled absolute stack) (hne : stack ≠ []) :
    steps (written absolute stack) = stack.reverse := by
  have hproper : ∀ t ∈ stack.reverse, IsSegment t ∧ t ≠ "" :=
    fun t ht => h.proper t (List.mem_reverse.1 ht)
  obtain ⟨t, rest, hcons⟩ := List.exists_cons_of_ne_nil (List.reverse_ne_nil_iff.2 hne)
  unfold written
  rw [hcons] at hproper ⊢
  cases absolute with
  | true =>
      rw [if_pos rfl]
      exact steps_slash_joined (List.cons_ne_nil t rest) fun u hu => (hproper u hu).1
  | false =>
      have htext : joined (t :: rest) ≠ "" := by
        intro hempty
        have hsegments := steps_joined (fun u hu => (hproper u hu).1)
          (hproper t List.mem_cons_self).2
        rw [hempty] at hsegments
        exact (hproper t List.mem_cons_self).2 (List.cons.inj hsegments).1.symm
      rw [if_neg (by simp), if_neg (by simpa using htext)]
      exact steps_joined (fun u hu => (hproper u hu).1) (hproper t List.mem_cons_self).2

/-- What a stack is written as is in normal form. -/
theorem Settled.isNormal (h : Settled absolute stack) : IsNormal (written absolute stack) := by
  by_cases hne : stack = []
  · subst hne
    cases absolute <;> decide +kernel
  have hsteps := h.steps_written hne
  have hback : '\\' ∉ (joined stack.reverse).toList := by
    rw [backslash_mem_joined]
    rintro ⟨t, ht, hmem⟩
    exact (whole_iff.1 (h.whole (List.mem_reverse.1 ht))).2 hmem
  obtain ⟨n, names, hn, hnames, hstack⟩ := settled_iff.1 h
  have hreverse : stack.reverse = List.replicate n ".." ++ names.reverse := by
    rw [hstack, List.reverse_append, List.reverse_replicate]
  have hup : ".." ∉ names.reverse := fun hup => (hnames ".." (List.mem_reverse.1 hup)).ne_up rfl
  refine ⟨?_, .inr (.inr ?_), ?_, ?_⟩
  · unfold written
    dsimp only
    split
    · simpa using hback
    · split
      · decide
      · exact hback
  · rw [hsteps]
    intro t ht
    rcases h.mem (List.mem_reverse.1 ht) with rfl | hstep
    · decide
    · exact ⟨hstep.ne_empty, hstep.ne_here⟩
  · rw [hsteps, hreverse, List.dropWhile_append_of_pos (by simp)]
    exact fun hmem => hup ((List.dropWhile_subset _) hmem)
  · rw [isAbsolute_written h, hsteps, hreverse]
    intro habsolute
    rw [hn habsolute]
    exact hup

theorem isSegment_of_mem_steps {text t : String} (h : t ∈ steps text) : IsSegment t := by
  apply ModuleLoader.Path.isSegment_of_mem_segments (p := ⟨text⟩)
  unfold steps at h
  dsimp only at h
  split at h
  · exact List.mem_of_mem_tail h
  · exact h

theorem joined_steps (text : String) :
    (if isAbsolute text then "/" ++ joined (steps text) else joined (steps text)) = text := by
  split
  · rename_i habsolute
    obtain ⟨l, hne, hl, hp⟩ := ModuleLoader.Path.exists_rooted habsolute
    obtain rfl : text = "/" ++ joined l := congrArg ModuleLoader.Path.text hp
    rw [steps_slash_joined hne hl]
  · rename_i hrelative
    rw [steps, if_neg hrelative]
    exact ModuleLoader.Path.joined_segments ⟨text⟩

theorem whole_of_mem_steps {text t : String} (h : '\\' ∉ text.toList) (ht : t ∈ steps text) :
    Whole t := by
  refine whole_iff.2 ⟨isSegment_of_mem_steps ht, fun hback => h ?_⟩
  have hjoined := backslash_mem_joined.2 ⟨t, ht, hback⟩
  have htext := joined_steps text
  split at htext <;> rw [← htext]
  · simpa using hjoined
  · exact hjoined

/-- A text in which all segments leave a trace is written as they are. -/
theorem written_steps {text : String} (h : ∀ t ∈ steps text, t ≠ "" ∧ t ≠ ".") :
    written (isAbsolute text) (steps text).reverse = text := by
  have hne : text ≠ "" := by
    rintro rfl
    exact (h "" (by decide)).1 rfl
  have htext := joined_steps text
  unfold written
  rw [List.reverse_reverse]
  split at htext
  · rename_i habsolute
    rwa [if_pos habsolute]
  · rename_i hrelative
    rw [if_neg hrelative, htext, if_neg (by simpa using hne)]

/-- Every text in normal form is what some stack is written as. -/
theorem IsNormal.exists_settled {text : String} (h : IsNormal text) :
    ∃ stack, Settled (isAbsolute text) stack ∧ text = written (isAbsolute text) stack := by
  rcases h.no_blank with rfl | rfl | hblank
  · exact ⟨[], .nil, rfl⟩
  · exact ⟨[], .nil, rfl⟩
  refine ⟨(steps text).reverse, settled_iff.2 ?_, (written_steps hblank).symm⟩
  let ups := (steps text).takeWhile (· == "..")
  let names := (steps text).dropWhile (· == "..")
  have hsplit : ups ++ names = steps text := List.takeWhile_append_dropWhile
  have hups : ups = List.replicate ups.length ".." :=
    List.eq_replicate_of_mem fun t ht => by simpa using List.mem_takeWhile_imp ht
  refine ⟨ups.length, names.reverse, fun habsolute => ?_, fun t ht => ?_, ?_⟩
  · rw [List.length_eq_zero_iff, List.eq_nil_iff_forall_not_mem]
    intro t ht
    obtain rfl : t = ".." := List.eq_of_mem_replicate (hups ▸ ht)
    exact h.not_above_root habsolute (hsplit ▸ List.mem_append_left _ ht)
  · have ht : t ∈ names := List.mem_reverse.1 ht
    have hmem : t ∈ steps text := hsplit ▸ List.mem_append_right _ ht
    obtain ⟨hslash, hback⟩ := whole_iff.1 (whole_of_mem_steps h.no_backslash hmem)
    refine ⟨⟨hslash, (hblank t hmem).1, (hblank t hmem).2, ?_⟩, hback⟩
    rintro rfl
    exact h.up_first ht
  · rw [← hsplit, List.reverse_append, ← List.reverse_replicate, ← hups]

/-- Normalising makes every text normal and leaves those that are, and it can be put off: a part can
be joined to what the parts before it have been joined to. -/
theorem normalize_canonical_join_folds :
    (∀ text, IsNormal (normalize text) ∧
      (isAbsolute (normalize text) = true ↔ text.toList.head? = some '/') ∧
      normalize (normalize text) = normalize text ∧ (IsNormal text ↔ normalize text = text)) ∧
    ∀ parts, parts ≠ [] → ∀ part, join [join parts, part] = join (parts ++ [part]) := by
  have hsettled (text : String) :
    Settled (isAbsolute text) (walk (isAbsolute text) [] text.toList) :=
    Settled.nil.walk text.toList
  have hnormal (text : String) : IsNormal (normalize text) := (hsettled text).isNormal
  refine ⟨fun text => ⟨hnormal text, ?_, (hsettled text).normalize_written,
    fun h => ?_, fun h => ?_⟩,
    fun parts hne part => ?_⟩
  · rw [isAbsolute_normalize]
    exact beq_iff_eq
  · obtain ⟨stack, hstack, htext⟩ := h.exists_settled
    rw [htext]
    exact hstack.normalize_written
  · rw [← h]
    exact hnormal text
  · have hstack : Settled (leads parts) (walkAll (leads parts) [] parts) :=
      Settled.nil.walkAll parts
    have hleads : leads (parts ++ [part]) = leads parts := by
      rw [leads, leads, List.head?_append_of_ne_nil _ hne]
    have hjoined : leads [join parts, part] = leads parts := by
      rw [join_eq parts]
      exact isAbsolute_written hstack
    have hback : walk (leads parts) [] (join parts).toList = walkAll (leads parts) [] parts := by
      rw [join_eq parts]
      exact hstack.walk_written
    -- both sides are walks along the last part, and they begin with the same stack
    rw [join_eq [join parts, part], hjoined, join_eq (parts ++ [part]), hleads]
    refine congrArg (written (leads parts)) ?_
    rw [walkAll_append, ← hback]
    rfl

/-- Both kinds of separators, and more steps up than there are names; and a text that is normal. -/
theorem normalize_canonical_join_folds_mixed :
    IsNormal (normalize "a\\..//./..\\b/") ∧ normalize "../..a/b." = "../..a/b." ∧
      join [join ["/a", "\\.."], "../b"] = join ["/a", "\\..", "../b"] := by
  obtain ⟨hnormal, hjoin⟩ := normalize_canonical_join_folds
  exact ⟨(hnormal _).1, (hnormal _).2.2.2.1 (by decide +kernel), hjoin _ (by decide) _⟩

/-! ### The normal form of a path -/

def component (t : String) : Component := if t = ".." then .up else .name t

def origin (absolute : Bool) : List Component := if absolute then [.root] else []

theorem text_component (t : String) : (component t).text = t := by
  unfold component
  split
  · rename_i h
    exact h.symm
  · rfl

/-- A segment does to the stack what its component, if it has one, does to the walk. -/
theorem Settled.walkStep_segment (h : Settled absolute stack) (t : String) :
    (Component.ofSegment? t).toList.foldl walkStep (stack.map component ++ origin absolute) =
      (Builtin.Path.pushSegment absolute stack t).map component ++ origin absolute := by
  unfold Component.ofSegment?
  split
  · rfl
  · rfl
  · cases h with
    | nil => cases absolute <;> rfl
    | up hrelative _ _ =>
        -- in an absolute path the walk would go on from the root, and the stack would keep its top
        subst hrelative
        rfl
    | name ht _ =>
        have hne := ht.ne_up
        simp [component, hne, walkStep, Builtin.Path.pushSegment]
  · rename_i hempty hhere hup
    have ht : component t = .name t := if_neg hup
    rw [pushSegment_of_ne hempty hhere hup, List.map_cons, ht]
    rfl

theorem Settled.foldl_walkStep (h : Settled absolute stack) {segments : List String}
    (hsegments : ∀ t ∈ segments, Whole t) :
    (segments.filterMap Component.ofSegment?).foldl walkStep
    (stack.map component ++ origin absolute) =
      (segments.foldl (Builtin.Path.pushSegment absolute) stack).map component ++ origin
        absolute := by
  induction segments generalizing stack with
  | nil => rfl
  | cons t rest ih =>
      obtain ⟨ht, hrest⟩ := List.forall_mem_cons.1 hsegments
      rw [List.foldl_cons, ← ih (h.pushSegment ht) hrest, ← h.walkStep_segment,
        ← List.foldl_append, List.filterMap_cons]
      cases Component.ofSegment? t <;> rfl

theorem walk_ofAnchored (mark : ModuleLoader.Path.Anchor) (segments : List String) :
    walk absolute stack (ModuleLoader.Path.ofAnchored mark segments).text.toList =
      walkAll absolute stack segments := by
  cases mark with
  | root =>
      refine Eq.trans (congrArg (walk absolute stack) String.toList_append) ?_
      exact (walk_cons rfl _).trans (walk_joined segments)
  | here => exact walk_joined ("." :: segments)
  | bare => exact walk_joined segments

theorem walk_eq_walkAll_body (p : ModuleLoader.Path) :
    walk absolute stack p.text.toList = walkAll absolute stack p.body := by
  rw [← walk_ofAnchored p.mark, ModuleLoader.Path.ofAnchored_mark]

theorem foldl_mark_steps (p : ModuleLoader.Path) :
    p.mark.steps.foldl walkStep [] = origin p.isAbsolute := by
  have habsolute := ModuleLoader.Path.isAbsolute_iff_mark (p := p)
  cases hp : p.isAbsolute with
  | true =>
      rw [habsolute.1 hp]
      rfl
  | false =>
      rw [hp] at habsolute
      cases hmark : p.mark with
      | root => exact absurd (habsolute.2 hmark) (by decide)
      | here => rfl
      | bare => rfl

theorem component_ne_root (t : String) : component t ≠ .root := by
  unfold component
  split <;> simp

theorem text_ofComponents (stack : List String) :
    (ModuleLoader.Path.ofComponents (stack.map component ++ origin absolute).reverse).text =
      if absolute then "/" ++ joined stack.reverse else joined stack.reverse := by
  have htexts (l : List String) : (l.map component).map Component.text = l := by
    simp [Function.comp_def, text_component]
  rw [List.reverse_append, ← List.map_reverse]
  cases absolute with
  | true => exact congrArg ("/" ++ joined ·) (htexts stack.reverse)
  | false =>
      refine Eq.trans ?_ (congrArg joined (htexts stack.reverse))
      cases stack.reverse with
      | nil => rfl
      | cons t rest =>
          have hne := component_ne_root t
          simp [origin, ModuleLoader.Path.ofComponents, hne]

theorem whole_of_mem_body {p : ModuleLoader.Path} (h : '\\' ∉ p.text.toList) {t : String}
    (ht : t ∈ p.body) : Whole t := by
  refine whole_iff.2 ⟨ModuleLoader.Path.isSegment_of_mem_body ht, fun hback => h ?_⟩
  have hbody : '\\' ∈ (joined p.body).toList := backslash_mem_joined.2 ⟨t, ht, hback⟩
  rw [← ModuleLoader.Path.ofAnchored_mark p]
  cases p.mark with
  | root => exact String.toList_append ▸ List.mem_append_right _ hbody
  | here => exact backslash_mem_joined.2 ⟨t, List.mem_cons_of_mem _ ht, hback⟩
  | bare => exact hbody

/-- Without backslashes the two normal forms are one, but for a path that leads nowhere. -/
theorem normal_forms_agree (text : String) (h : '\\' ∉ text.toList) :
    normalize text =
      let normal := (⟨text⟩ : ModuleLoader.Path).normalize.text
      if normal = "" then "." else normal := by
  let p : ModuleLoader.Path := ⟨text⟩
  let stack := walk p.isAbsolute [] p.text.toList
  have hwhole : ∀ t ∈ p.body, Whole t := fun _ ht => whole_of_mem_body h ht
  have hbody : p.body.foldl (pushSegment p.isAbsolute) [] = stack :=
    (walkAll_of_whole hwhole).symm.trans (walk_eq_walkAll_body p).symm
  have hwalk : p.components.foldl walkStep [] = stack.map component ++ origin p.isAbsolute := by
    rw [ModuleLoader.Path.components_eq, List.foldl_append, foldl_mark_steps, ← hbody]
    exact Settled.nil.foldl_walkStep hwhole
  have hnormal : p.normalize.text =
      if p.isAbsolute then "/" ++ joined stack.reverse else joined stack.reverse := by
    rw [ModuleLoader.Path.normalize, ModuleLoader.Path.normalSteps, hwalk, text_ofComponents]
  change written p.isAbsolute stack = if p.normalize.text = "" then "." else p.normalize.text
  rw [hnormal]
  unfold written
  cases p.isAbsolute with
  | true => simp
  | false => simp

/-- A path that leads up, and one that leads nowhere. -/
theorem normal_forms_agree_upwards :
    '\\' ∉ "a/../..//./b/".toList ∧
      normalize "a/../..//./b/" = (⟨"a/../..//./b/"⟩ : ModuleLoader.Path).normalize.text ∧
      normalize "a/.." = "." ∧ (⟨"a/.."⟩ : ModuleLoader.Path).normalize.text = "" :=
  ⟨by decide, (normal_forms_agree "a/../..//./b/" (by decide)).trans (by decide +kernel),
    (normal_forms_agree "a/.." (by decide)).trans (by decide +kernel), by decide +kernel⟩

end Builtin.Path

end ModuleLoader
