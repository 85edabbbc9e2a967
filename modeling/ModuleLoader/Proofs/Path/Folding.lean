import ModuleLoader.Proofs.Path.NormalText
/-!
The normal form of any path, and joining to it.

A walk begins at the root or where the reader stands, and one step after another is put
on it or taken back. What it comes to has names on top, below them steps up if the path
is relative, and the root at the bottom if it is not. It is so at the beginning, and
every step keeps it so. The path that takes these steps spells nothing else, and walking
along it leads back to the same walk.

Whether a path is absolute and which steps its segments spell is all that a walk depends
on. A relative path that is joined adds its steps at the end. So the walk along a joined
path goes on from the walk along the first part, and it makes no difference whether that
part was brought into normal form before.

A walk can also be kept as a path. Its last component is then looked at, it is exchanged
for its parent, and steps are joined to it. What that comes to is the normal form.
-/

namespace ModuleLoader

namespace Path

open Builtin.Path (origin foldl_mark_steps)

variable {p q : Path} {absolute : Bool} {walk : List Component}

/-! ### The steps that segments spell -/

inductive Component.IsStep : Component → Prop
  | up : IsStep .up
  | name {t : String} (h : IsName t) : IsStep (.name t)

theorem Component.isStep_of_segment {t : String} {c : Component} (ht : IsSegment t)
    (h : ofSegment? t = some c) : c.IsStep := by
  unfold ofSegment? at h
  split at h
  · cases h
  · cases h
  · cases h
    exact .up
  · rename_i hempty hhere hup
    cases h
    exact .name ⟨ht, hempty, hhere, hup⟩

theorem Component.IsStep.isSegment {c : Component} (h : c.IsStep) : IsSegment c.text := by
  cases h with
  | up => decide
  | name ht => exact ht.segment

theorem Component.IsStep.isBlank {c : Component} (h : c.IsStep) : Path.isBlank c.text = false := by
  cases h with
  | up => decide
  | name ht => exact ht.isBlank

theorem Component.IsStep.text_ne_empty {c : Component} (h : c.IsStep) : c.text ≠ "" := by
  intro hempty
  have hblank := h.isBlank
  rw [hempty] at hblank
  cases hblank

theorem Component.IsStep.ofSegment?_text {c : Component} (h : c.IsStep) :
    ofSegment? c.text = some c := by
  cases h with
  | up => rfl
  | name ht => exact ofSegment?_name ht

theorem filterMap_text {steps : List Component} (h : ∀ c ∈ steps, c.IsStep) :
    (steps.map Component.text).filterMap Component.ofSegment? = steps := by
  induction steps with
  | nil => rfl
  | cons c rest ih =>
      obtain ⟨hc, hrest⟩ := List.forall_mem_cons.1 h
      rw [List.map_cons, List.filterMap_cons_some hc.ofSegment?_text, ih hrest]

theorem exists_names {steps : List Component} (h : ∀ c ∈ steps, c.IsStep) (hup : .up ∉ steps) :
    ∃ names : List String, (∀ t ∈ names, IsName t) ∧ steps = names.map .name := by
  induction steps with
  | nil => exact ⟨[], nofun, rfl⟩
  | cons c rest ih =>
      obtain ⟨hc, hrest⟩ := List.forall_mem_cons.1 h
      obtain ⟨names, hnames, rfl⟩ := ih hrest fun hmem => hup (List.mem_cons_of_mem _ hmem)
      cases hc with
      | up => exact absurd List.mem_cons_self hup
      | name ht => exact ⟨_ :: names, List.forall_mem_cons.2 ⟨ht, hnames⟩, rfl⟩

theorem isStep_of_mem_steps {c : Component} (h : c ∈ p.steps) : c.IsStep := by
  obtain ⟨t, ht, hc⟩ := List.mem_filterMap.1 h
  exact Component.isStep_of_segment (isSegment_of_mem_segments ht) hc

/-- The mark is no step, whichever it is. -/
theorem steps_eq_body (p : Path) : p.steps = p.body.filterMap Component.ofSegment? := by
  unfold steps
  rcases segments_cases p with ⟨hsegments, -, hbody⟩ | ⟨-, hsegments, -⟩ | ⟨hsegments, -⟩ |
    ⟨t, rest, -, hsegments, -, hbody⟩
  · rw [hsegments, hbody]
    rfl
  · rw [hsegments]
    rfl
  · rw [hsegments]
    rfl
  · rw [hsegments, hbody]

/-- What the walk along a path comes to, the last step at the head. -/
def walked (p : Path) : List Component := p.components.foldl walkStep []

theorem normalize_eq (p : Path) : p.normalize = ofComponents p.walked.reverse := rfl

theorem walked_eq (p : Path) : p.walked = p.steps.foldl walkStep (origin p.isAbsolute) := by
  rw [walked, components_eq, List.foldl_append, foldl_mark_steps, steps_eq_body]

/-! ### Joining -/

theorem isAbsolute_join_eq (p : Path) (hq : q.isAbsolute = false) :
    (p.join q).isAbsolute = p.isAbsolute := by
  cases hp : p.isAbsolute with
  | true => exact isAbsolute_join hp q
  | false => exact Builtin.Path.isAbsolute_join hp hq

/-- The walk along a joined path goes on from the walk along the first part. -/
theorem walked_join (p : Path) (hq : q.isAbsolute = false) :
    (p.join q).walked = q.steps.foldl walkStep p.walked := by
  rw [walked_eq, walked_eq, steps_join p hq, isAbsolute_join_eq p hq, List.foldl_append]

/-! ### Paths that spell given steps -/

theorem anchored_joined {t : String} {rest : List String} (h : ∀ u ∈ t :: rest, IsSegment u)
    (ht : isBlank t = false) : (⟨joined (t :: rest)⟩ : Path).anchored = (.bare, t :: rest) := by
  unfold anchored
  rw [segments_joined (List.cons_ne_nil t rest) h]
  split
  · rename_i heq
    obtain ⟨rfl, -⟩ := List.cons.inj heq
    cases ht
  · rename_i heq
    obtain ⟨rfl, -⟩ := List.cons.inj heq
    cases ht
  · rename_i heq
    obtain ⟨rfl, -⟩ := List.cons.inj heq
    cases ht
  · rfl

section

variable {steps : List Component}

theorem ofComponents_origin (h : ∀ c ∈ steps, c.IsStep) (absolute : Bool) :
    ofComponents (origin absolute ++ steps) =
      ofAnchored (if absolute then .root else .bare) (steps.map Component.text) := by
  cases absolute with
  | true => rfl
  | false =>
      cases steps with
      | nil => rfl
      | cons c rest => cases h c List.mem_cons_self <;> rfl

theorem anchored_ofComponents (h : ∀ c ∈ steps, c.IsStep) (hne : steps ≠ []) (absolute : Bool) :
    (ofComponents (origin absolute ++ steps)).anchored =
      (if absolute then .root else .bare, steps.map Component.text) := by
  have hsegments : ∀ t ∈ steps.map Component.text, IsSegment t := by
    intro t ht
    obtain ⟨c, hc, rfl⟩ := List.mem_map.1 ht
    exact (h c hc).isSegment
  rw [ofComponents_origin h]
  cases absolute with
  | true => exact anchored_rooted (by simpa using hne) hsegments
  | false =>
      obtain ⟨c, rest, rfl⟩ := List.exists_cons_of_ne_nil hne
      exact anchored_joined hsegments (h c List.mem_cons_self).isBlank

theorem components_ofComponents_origin (h : ∀ c ∈ steps, c.IsStep) (absolute : Bool) :
    (ofComponents (origin absolute ++ steps)).components = origin absolute ++ steps := by
  by_cases hne : steps = []
  · rw [hne]
    cases absolute <;> decide
  · unfold components
    rw [anchored_ofComponents h hne]
    dsimp only
    rw [filterMap_text h]
    cases absolute <;> rfl

theorem steps_ofComponents (h : ∀ c ∈ steps, c.IsStep) (absolute : Bool) :
    (ofComponents (origin absolute ++ steps)).steps = steps := by
  by_cases hne : steps = []
  · rw [hne]
    cases absolute <;> decide
  · rw [steps_eq_body, body, anchored_ofComponents h hne]
    exact filterMap_text h

theorem isAbsolute_ofComponents (h : ∀ c ∈ steps, c.IsStep) (absolute : Bool) :
    (ofComponents (origin absolute ++ steps)).isAbsolute = absolute := by
  rw [ofComponents_origin h]
  cases absolute with
  | true => exact isAbsolute_rooted _
  | false =>
      cases steps with
      | nil => rfl
      | cons c rest =>
          have hc := h c List.mem_cons_self
          exact isAbsolute_joined hc.isSegment hc.text_ne_empty

end

/-! ### What a walk can come to -/

def Settled (absolute : Bool) (walk : List Component) : Prop :=
  ∃ (names : List String) (n : Nat), (∀ t ∈ names, IsName t) ∧ (absolute = true → n = 0) ∧
    walk = names.map .name ++ (List.replicate n .up ++ origin absolute)

theorem settled_origin (absolute : Bool) : Settled absolute (origin absolute) :=
  ⟨[], 0, nofun, fun _ => rfl, rfl⟩

theorem Settled.walkStep (h : Settled absolute walk) {c : Component} (hc : c.IsStep) :
    Settled absolute (walkStep walk c) := by
  obtain ⟨names, n, hnames, hn, rfl⟩ := h
  cases hc with
  | name ht => exact ⟨_ :: names, n, List.forall_mem_cons.2 ⟨ht, hnames⟩, hn, rfl⟩
  | up =>
      cases names with
      | cons t rest => exact ⟨rest, n, (List.forall_mem_cons.1 hnames).2, hn, rfl⟩
      | nil =>
          cases absolute with
          | true =>
              obtain rfl := hn rfl
              exact settled_origin true
          | false =>
              -- there is no name to take back, and so one more step up is kept
              refine ⟨[], n + 1, nofun, nofun, ?_⟩
              cases n <;> rfl

theorem Settled.foldl (h : Settled absolute walk) {steps : List Component}
    (hsteps : ∀ c ∈ steps, c.IsStep) : Settled absolute (steps.foldl Path.walkStep walk) := by
  induction steps generalizing walk with
  | nil => exact h
  | cons c rest ih =>
      obtain ⟨hc, hrest⟩ := List.forall_mem_cons.1 hsteps
      exact ih (h.walkStep hc) hrest

theorem settled_walked (p : Path) : Settled p.isAbsolute p.walked := by
  rw [walked_eq]
  exact (settled_origin p.isAbsolute).foldl fun _ hc => isStep_of_mem_steps hc

theorem Settled.reverse (h : Settled absolute walk) :
    ∃ (names : List String) (n : Nat), (∀ t ∈ names, IsName t) ∧ (absolute = true → n = 0) ∧
      walk.reverse = origin absolute ++ (List.replicate n .up ++ names.map .name) := by
  obtain ⟨names, n, hnames, hn, rfl⟩ := h
  refine ⟨names.reverse, n, by simpa using hnames, hn, ?_⟩
  cases absolute <;> simp [origin]

theorem isStep_ups_names {names : List String} (h : ∀ t ∈ names, IsName t) (n : Nat) :
    ∀ c ∈ List.replicate n Component.up ++ names.map .name, c.IsStep := by
  intro c hc
  rcases List.mem_append.1 hc with hc | hc
  · rw [List.eq_of_mem_replicate hc]
    exact .up
  · obtain ⟨t, ht, rfl⟩ := List.mem_map.1 hc
    exact .name (h t ht)

theorem Settled.exists_steps (h : Settled absolute walk) :
    ∃ steps : List Component, (∀ c ∈ steps, c.IsStep) ∧
      walk.reverse = origin absolute ++ steps := by
  obtain ⟨names, n, hnames, -, hreverse⟩ := h.reverse
  exact ⟨_, isStep_ups_names hnames n, hreverse⟩

theorem foldl_walkStep_ups (n : Nat) :
    (List.replicate n Component.up).foldl walkStep [] = List.replicate n .up := by
  induction n with
  | zero => rfl
  | succ n ih =>
      rw [List.replicate_succ', List.foldl_append, ih, ← List.replicate_succ', List.replicate_succ]
      cases n <;> rfl

theorem Settled.foldl_reverse (h : Settled absolute walk) :
    walk.reverse.foldl Path.walkStep [] = walk := by
  obtain ⟨names, n, hnames, hn, rfl⟩ := h
  have hbegin : (List.replicate n Component.up ++ origin absolute).reverse.foldl Path.walkStep [] =
      List.replicate n .up ++ origin absolute := by
    cases absolute with
    | true =>
        obtain rfl := hn rfl
        rfl
    | false => simpa [origin] using foldl_walkStep_ups n
  rw [List.reverse_append, List.foldl_append, hbegin, ← List.map_reverse, foldl_walkStep_names,
    List.map_reverse, List.reverse_reverse]

/-! ### The normal form -/

theorem components_normalize (p : Path) : p.normalize.components = p.walked.reverse := by
  obtain ⟨steps, hsteps, hreverse⟩ := (settled_walked p).exists_steps
  rw [normalize_eq, hreverse]
  exact components_ofComponents_origin hsteps _

theorem isAbsolute_normalize (p : Path) : p.normalize.isAbsolute = p.isAbsolute := by
  obtain ⟨steps, hsteps, hreverse⟩ := (settled_walked p).exists_steps
  rw [normalize_eq, hreverse]
  exact isAbsolute_ofComponents hsteps _

/-- The walk along the normal form comes to what the walk along the path comes to. -/
theorem walked_normalize (p : Path) : p.normalize.walked = p.walked := by
  rw [walked, components_normalize]
  exact (settled_walked p).foldl_reverse

theorem normalize_normalize (p : Path) : p.normalize.normalize = p.normalize := by
  rw [normalize_eq p.normalize, walked_normalize, normalize_eq]

theorem normalize_join_normalize (p q : Path) :
    (p.join q).normalize = (p.normalize.join q).normalize := by
  cases hq : q.isAbsolute with
  | true => rw [join, join, if_pos hq, if_pos hq]
  | false =>
      rw [normalize_eq (p.join q), normalize_eq (p.normalize.join q), walked_join _ hq,
        walked_join _ hq, walked_normalize]

structure IsNormal (p : Path) : Prop where
  no_here : .here ∉ p.components
  up_first : .up ∉ p.steps.dropWhile (· == .up)
  not_above_root : p.isAbsolute = true → .up ∉ p.steps
  spelling : p = ofComponents p.components

instance (p : Path) : Decidable p.IsNormal :=
  decidable_of_iff (.here ∉ p.components ∧ .up ∉ p.steps.dropWhile (· == .up) ∧
      (p.isAbsolute = true → .up ∉ p.steps) ∧ p = ofComponents p.components)
    ⟨fun h => ⟨h.1, h.2.1, h.2.2.1, h.2.2.2⟩, fun h => ⟨h.1, h.2, h.3, h.4⟩⟩

theorem isNormal_normalize (p : Path) : p.normalize.IsNormal := by
  obtain ⟨names, n, hnames, hn, hsteps⟩ := (settled_walked p).reverse
  have hlegal := isStep_ups_names hnames n
  have hcomponents := components_normalize p
  have hup : Component.up ∉ names.map .name := by simp
  have hnormal : p.normalize.steps = List.replicate n .up ++ names.map .name := by
    rw [normalize_eq, hsteps]
    exact steps_ofComponents hlegal _
  refine ⟨?_, ?_, fun habsolute => ?_, ?_⟩
  · rw [hcomponents, hsteps]
    cases p.isAbsolute <;> simp [origin]
  · rw [hnormal, List.dropWhile_append_of_pos (by simp)]
    exact fun hmem => hup ((List.dropWhile_subset _) hmem)
  · rw [isAbsolute_normalize] at habsolute
    rw [hnormal, hn habsolute]
    exact hup
  · rw [hcomponents]
    rfl

/-- The steps of a normal path, taken in order, are a walk. -/
theorem IsNormal.settled (h : p.IsNormal) : Settled p.isAbsolute p.components.reverse := by
  have hmark : p.mark.steps = origin p.isAbsolute := by
    rw [← foldl_mark_steps]
    have hhere : p.mark ≠ .here := by
      intro hmark
      have hcomponents := components_eq p
      rw [hmark] at hcomponents
      exact h.no_here (hcomponents ▸ List.mem_cons_self)
    cases hmark : p.mark with
    | here => exact absurd hmark hhere
    | root => rfl
    | bare => rfl
  let ups := p.steps.takeWhile (· == .up)
  let others := p.steps.dropWhile (· == .up)
  have hsplit : ups ++ others = p.steps := List.takeWhile_append_dropWhile
  have hups : ups = List.replicate ups.length .up :=
    List.eq_replicate_of_mem fun c hc => by simpa using List.mem_takeWhile_imp hc
  obtain ⟨names, hnames, hothers⟩ : ∃ names : List String, (∀ t ∈ names, IsName t) ∧
      others = names.map .name :=
    exists_names (fun c hc => isStep_of_mem_steps (List.dropWhile_subset _ hc)) h.up_first
  refine ⟨names.reverse, ups.length, by simpa using hnames, fun habsolute => ?_, ?_⟩
  · rw [List.length_eq_zero_iff, List.eq_nil_iff_forall_not_mem]
    intro c hc
    obtain rfl : c = .up := List.eq_of_mem_replicate (hups ▸ hc)
    exact h.not_above_root habsolute (hsplit ▸ List.mem_append_left _ hc)
  · rw [components_eq, hmark, ← steps_eq_body, ← hsplit, hothers, hups]
    cases p.isAbsolute <;> simp [origin]

/-- A path is normal if normalising does not change it, and in no other case. -/
theorem isNormal_iff : p.IsNormal ↔ p.normalize = p := by
  constructor
  · intro h
    have hwalk : p.walked = p.components.reverse := by
      rw [walked, ← h.settled.foldl_reverse, List.reverse_reverse]
    rw [normalize_eq, hwalk, List.reverse_reverse]
    exact h.spelling.symm
  · intro h
    rw [← h]
    exact isNormal_normalize p

/-! ### A walk kept as a path -/

/-- One more step on a walk that is kept as the path along it. -/
def extend (p : Path) : Component → Path
  | .here => p
  | .up =>
    match p.components.getLast? with
    | some (.name _) => p.parent?.getD p
    | some .root => p
    | _ => p.join ⟨".."⟩
  | step => p.join ⟨step.text⟩

theorem join_joined {l : List String} (hl : ∀ t ∈ l.getLast?, IsSegment t ∧ t ≠ "") {t : String}
    (ht : IsSegment t) (hne : t ≠ "") : (⟨joined l⟩ : Path).join ⟨t⟩ = ⟨joined (l ++ [t])⟩ := by
  have hrelative : (⟨t⟩ : Path).isAbsolute = false := by
    have hjoined := isAbsolute_joined (l := []) ht hne
    rwa [joined_singleton] at hjoined
  unfold join
  rw [if_neg (by simp [hrelative])]
  rcases List.eq_nil_or_concat' l with rfl | ⟨init, u, rfl⟩
  · simp
  · obtain ⟨hu, hne⟩ := hl u (by simp)
    obtain ⟨a, ha⟩ : ∃ a, joined (init ++ [u]) = a ++ u := by
      by_cases hinit : init = []
      · exact ⟨"", by rw [hinit, List.nil_append, joined_singleton, String.empty_append]⟩
      · exact ⟨joined init ++ "/", by rw [joined_append hinit (by simp), joined_singleton]⟩
    have hlast : (joined (init ++ [u])).toList.getLast?.all (· == '/') = false := by
      rw [ha]
      exact all_getLast?_eq_false a hu hne
    rw [hlast, joined_append (by simp) (List.cons_ne_nil t []), joined_singleton]
    rfl

section

variable {steps : List Component}

theorem join_ofComponents (h : ∀ c ∈ steps, c.IsStep) {c : Component} (hc : c.IsStep)
    (absolute : Bool) : (ofComponents (origin absolute ++ steps)).join ⟨c.text⟩ =
      ofComponents (origin absolute ++ (steps ++ [c])) := by
  have hsteps : ∀ d ∈ steps ++ [c], d.IsStep :=
    List.forall_mem_append.2 ⟨h, List.forall_mem_singleton.2 hc⟩
  have hlast : ∀ t ∈ (steps.map Component.text).getLast?, IsSegment t ∧ t ≠ "" := by
    intro t ht
    obtain ⟨d, hd, rfl⟩ := List.mem_map.1 (List.mem_of_getLast? ht)
    exact ⟨(h d hd).isSegment, (h d hd).text_ne_empty⟩
  rw [ofComponents_origin h, ofComponents_origin hsteps, List.map_append, List.map_singleton]
  cases absolute with
  | true =>
      have hjoin : (rooted (steps.map Component.text)).join ⟨joined [c.text]⟩ =
          rooted (steps.map Component.text ++ [c.text]) :=
        join_rooted_joined hlast hc.isSegment hc.text_ne_empty
      rwa [joined_singleton] at hjoin
  | false => exact join_joined hlast hc.isSegment hc.text_ne_empty

theorem parent?_ofComponents (h : ∀ c ∈ steps, c.IsStep) {c : Component} (hc : c.IsStep)
    (absolute : Bool) : (ofComponents (origin absolute ++ (steps ++ [c]))).parent? =
      some (ofComponents (origin absolute ++ steps)) := by
  have hsteps : ∀ d ∈ steps ++ [c], d.IsStep :=
    List.forall_mem_append.2 ⟨h, List.forall_mem_singleton.2 hc⟩
  have hblank {l : List Component} (hl : ∀ d ∈ l, d.IsStep) :
      trimmed (l.map Component.text) = l.map Component.text := by
    refine trimmed_eq_self fun t ht => ?_
    obtain ⟨d, hd, rfl⟩ := List.mem_map.1 (List.mem_of_getLast? ht)
    exact (hl d hd).isBlank
  have hanchored := anchored_ofComponents hsteps (by simp) absolute
  have htrimmed : trimmed (ofComponents (origin absolute ++ (steps ++ [c]))).body =
      steps.map Component.text ++ [c.text] := by
    rw [body, hanchored, hblank hsteps]
    simp
  rw [parent?_of_trimmed htrimmed, mark, hanchored, hblank h, ofComponents_origin h]

end

/-- The last component is what `..` finds on top of a walk. -/
theorem Settled.extend (h : Settled absolute walk) {c : Component} (hc : c.IsStep) :
    (ofComponents walk.reverse).extend c = ofComponents (Path.walkStep walk c).reverse := by
  obtain ⟨steps, hsteps, hreverse⟩ := h.exists_steps
  have hjoin : (ofComponents walk.reverse).join ⟨c.text⟩ = ofComponents (c :: walk).reverse := by
    rw [List.reverse_cons, hreverse, join_ofComponents hsteps hc, List.append_assoc]
  have hlast : (ofComponents walk.reverse).components.getLast? = walk.head? := by
    rw [hreverse, components_ofComponents_origin hsteps, ← hreverse, List.getLast?_reverse]
  cases hc with
  | name ht => exact hjoin
  | up =>
      obtain ⟨names, n, hnames, hn, rfl⟩ := h
      unfold Path.extend
      dsimp only
      rw [hlast]
      cases names with
      | cons t rest =>
          obtain ⟨ht, hrest⟩ := List.forall_mem_cons.1 hnames
          let below := rest.map Component.name ++ (List.replicate n .up ++ origin absolute)
          have hbelow : Settled absolute below := ⟨rest, n, hrest, hn, rfl⟩
          obtain ⟨steps, hsteps, hreverse⟩ := hbelow.exists_steps
          have hparent : (ofComponents (Component.name t :: below).reverse).parent? =
              some (ofComponents below.reverse) := by
            rw [List.reverse_cons, hreverse, List.append_assoc,
              parent?_ofComponents hsteps (.name ht)]
          change (ofComponents (Component.name t :: below).reverse).parent?.getD _ =
            ofComponents below.reverse
          rw [hparent]
          rfl
      | nil =>
          cases absolute with
          | true =>
              obtain rfl := hn rfl
              rfl
          | false => cases n <;> exact hjoin

theorem foldl_extend (p : Path) : p.components.foldl extend ⟨""⟩ = p.normalize := by
  have hbegin : p.mark.steps.foldl extend ⟨""⟩ = ofComponents (origin p.isAbsolute).reverse := by
    rw [← foldl_mark_steps]
    cases p.mark <;> decide
  have hsteps {steps : List Component} (h : ∀ c ∈ steps, c.IsStep) {walk : List Component}
      (hwalk : Settled p.isAbsolute walk) :
      steps.foldl extend (ofComponents walk.reverse) =
        ofComponents (steps.foldl walkStep walk).reverse := by
    induction steps generalizing walk with
    | nil => rfl
    | cons c rest ih =>
        obtain ⟨hc, hrest⟩ := List.forall_mem_cons.1 h
        rw [List.foldl_cons, hwalk.extend hc]
        exact ih hrest (hwalk.walkStep hc)
  rw [components_eq, List.foldl_append, hbegin, ← steps_eq_body,
    hsteps (fun _ hc => isStep_of_mem_steps hc) (settled_origin _), normalize_eq, walked_eq]

/-- The normal form is a canonical form, and joining can be put off until after it. It is what the
loop over the components builds, which looks at the path that it has built so far. -/
theorem normal_forms_absorb_joins (a b : Path) :
    a.components.foldl extend ⟨""⟩ = a.normalize ∧
    a.normalize.IsNormal ∧
    a.normalize.isAbsolute = a.isAbsolute ∧
    a.normalize.normalize = a.normalize ∧ (a.IsNormal ↔ a.normalize = a) ∧
    (a.join b).normalize = (a.normalize.join b).normalize ∧
    (b.isAbsolute = true → a.join b = b) :=
  ⟨foldl_extend a, isNormal_normalize a, isAbsolute_normalize a,
    normalize_normalize a, isNormal_iff,
    normalize_join_normalize a b, fun hb => if_pos hb⟩

/-- Steps up that are taken back, kept and put off, and an absolute path that is joined to them. -/
theorem normal_forms_absorb_joins_upwards :
    let a : Path := ⟨"./a/../..//b/."⟩
    let b : Path := ⟨"../../c/"⟩
    a.normalize = ⟨"../b"⟩ ∧ a.normalize.IsNormal ∧ a.normalize.isAbsolute = false ∧
      (a.join b).normalize = ⟨"../../c"⟩ ∧ a.join ⟨"/x//y"⟩ = ⟨"/x//y"⟩ := by
  intro a b
  have ha : a.normalize = ⟨"../b"⟩ := by decide +kernel
  obtain ⟨-, hnormal, habsolute, -, -, hjoin, -⟩ := normal_forms_absorb_joins a b
  obtain ⟨-, -, -, -, -, -, hreplaces⟩ := normal_forms_absorb_joins a ⟨"/x//y"⟩
  refine ⟨ha, hnormal, habsolute.trans (by decide), ?_, hreplaces (by decide)⟩
  rw [hjoin, ha]
  decide +kernel

end Path

end ModuleLoader
