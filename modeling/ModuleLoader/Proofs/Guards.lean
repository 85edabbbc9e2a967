import Mathlib.Data.List.Induction
import ModuleLoader.Proofs.RunInvariant
/-!
The stack of hooks, over everything that is done with its guards.

Hooks are installed, and taken out by their guards, in any order and as often as
one likes; a guard that is dropped takes out its hook as if it had been asked
to. What has been done with a stack says which layers it has: those of the
guards that have not been used since they were handed out, in the order in which
they were (`HookStack.layers_after`). Nothing else is ever done with the stack of
a loader (`Host.exists_steps_exec`).

The stack keeps this up with a table of which guards are good. The numbers of
guards are never given out twice, so a guard that has been used stays so
whatever is installed later, and using it once more reaches no layer at all.
-/

namespace ModuleLoader

namespace HookStack

variable {σ η : Type}

/-- What is done with a stack: a hook is installed, or the holder of a guard restores what was
before or lets the guard go. -/
inductive Step (η : Type) where
  | install (hook : η)
  | restore (g : GuardId)
  | drop (g : GuardId)

namespace Step

def hook? : Step η → Option η
  | install hook => some hook
  | restore _ => none
  | drop _ => none

/-- The step takes out the layer of that guard. -/
def Uses (g : GuardId) : Step η → Prop
  | install _ => False
  | restore g' => g' = g
  | drop g' => g' = g

instance (g : GuardId) : DecidablePred (Uses (η := η) g)
  | install _ => inferInstanceAs (Decidable False)
  | restore g' => inferInstanceAs (Decidable (g' = g))
  | drop g' => inferInstanceAs (Decidable (g' = g))

end Step

/-- The stack after one step more. -/
def step (s : HookStack η) : Step η → HookStack η
  | .install hook => (s.install hook).2
  | .restore g => s.restore g
  | .drop g => s.restore g

/-- The stack after some steps more. -/
def after (s : HookStack η) (steps : List (Step η)) : HookStack η := steps.foldl step s

/-! ### What a history says -/

/-- The hooks that were installed, in order. -/
def hooks (steps : List (Step η)) : List η := steps.filterMap Step.hook?

/-- The layers of these hooks. Guards are numbered in the order in which they are handed out. -/
def handedOut (steps : List (Step η)) : List (Layer η) :=
  (hooks steps).mapIdx fun i hook => ⟨⟨i⟩, hook⟩

/-- The guard was used at some point after it had been handed out. -/
def Used (steps : List (Step η)) (g : GuardId) : Prop :=
  ∃ i, ∃ _ : i < steps.length, steps[i].Uses g ∧ g.index < (hooks (steps.take i)).length

instance (steps : List (Step η)) (g : GuardId) : Decidable (Used steps g) :=
  inferInstanceAs (Decidable (∃ i, ∃ _ : i < steps.length, _))

@[simp] theorem hooks_nil : hooks ([] : List (Step η)) = [] := rfl

@[simp] theorem hooks_append (steps more : List (Step η)) :
    hooks (steps ++ more) = hooks steps ++ hooks more := List.filterMap_append

@[simp] theorem hooks_install (hook : η) : hooks [.install hook] = [hook] := rfl

@[simp] theorem hooks_restore (g : GuardId) : hooks [(.restore g : Step η)] = [] := rfl

@[simp] theorem hooks_drop (g : GuardId) : hooks [(.drop g : Step η)] = [] := rfl

theorem after_concat (s : HookStack η) (steps : List (Step η)) (x : Step η) :
    s.after (steps ++ [x]) = (s.after steps).step x := List.foldl_append

theorem used_concat {steps : List (Step η)} {x : Step η} {g : GuardId} :
    Used (steps ++ [x]) g ↔ Used steps g ∨ x.Uses g ∧ g.index < (hooks steps).length := by
  constructor
  · rintro ⟨i, hi, huses, hout⟩
    rw [List.length_append, List.length_singleton] at hi
    by_cases hlast : i < steps.length
    · rw [List.getElem_append_left hlast] at huses
      rw [List.take_append_of_le_length (Nat.le_of_lt hlast)] at hout
      exact .inl ⟨i, hlast, huses, hout⟩
    · obtain rfl : i = steps.length := by omega
      rw [List.getElem_concat_length rfl] at huses
      rw [List.take_left] at hout
      exact .inr ⟨huses, hout⟩
  · rintro (⟨i, hi, huses, hout⟩ | ⟨huses, hout⟩)
    · refine ⟨i, by simp; omega, ?_, ?_⟩
      · rwa [List.getElem_append_left hi]
      · rwa [List.take_append_of_le_length (Nat.le_of_lt hi)]
    · refine ⟨steps.length, by simp, ?_, ?_⟩
      · rwa [List.getElem_concat_length rfl]
      · rwa [List.take_left]

theorem Used.lt {steps : List (Step η)} {g : GuardId} (h : Used steps g) :
    g.index < (hooks steps).length := by
  obtain ⟨i, hi, -, hout⟩ := h
  have hsplit := congrArg List.length (hooks_append (steps.take i) (steps.drop i))
  rw [List.take_append_drop, List.length_append] at hsplit
  omega

theorem handedOut_concat (steps : List (Step η)) (hook : η) :
    handedOut (steps ++ [.install hook]) = handedOut steps ++ [⟨⟨(hooks steps).length⟩, hook⟩] := by
  rw [handedOut, hooks_append, hooks_install, List.mapIdx_concat, handedOut]

theorem index_lt_of_mem_handedOut {steps : List (Step η)} {l : Layer η}
    (h : l ∈ handedOut steps) : l.guard.index < (hooks steps).length := by
  obtain ⟨i, hi, rfl⟩ := List.mem_mapIdx.1 h
  exact hi

/-! ### What one step does -/

@[simp] theorem size_guards_install (s : HookStack η) (hook : η) :
    (s.install hook).2.guards.size = s.guards.size + 1 := Array.size_push _

theorem isActive_install (s : HookStack η) (hook : η) (g : GuardId) :
    (s.install hook).2.isActive g = (s.isActive g || g.index == s.guards.size) := by
  simp only [install, isActive, Array.getElem?_push]
  by_cases hg : g.index = s.guards.size
  · simp [hg]
  · simp [hg]

@[simp] theorem size_guards_restore (s : HookStack η) (g : GuardId) :
    (s.restore g).guards.size = s.guards.size := by
  unfold restore
  split
  · exact Array.size_setIfInBounds
  · rfl

theorem isActive_restore (s : HookStack η) (g g' : GuardId) :
    (s.restore g).isActive g' = (s.isActive g' && g' != g) := by
  unfold restore
  split
  · by_cases hg : g' = g
    · subst hg
      simp only [isActive, Array.getElem?_setIfInBounds_self, bne_self_eq_false, Bool.and_false]
      split <;> rfl
    · have hindex : g.index ≠ g'.index := fun h => hg (congrArg GuardId.mk h.symm)
      simp only [isActive, Array.getElem?_setIfInBounds_ne hindex, bne_iff_ne.2 hg, Bool.and_true]
  · by_cases hg : g' = g
    · subst hg
      simp_all
    · simp [bne_iff_ne.2 hg]

/-- A guard that is no longer good does nothing. -/
theorem restore_of_not_isActive {s : HookStack η} {g : GuardId} (h : ¬ s.isActive g) :
    s.restore g = s := if_neg h

/-- Two stacks with the same layers are the same if they have the same guards and those are good in
the one just when they are in the other. -/
theorem eq_of_isActive {s t : HookStack η} (hsize : s.guards.size = t.guards.size)
    (hactive : ∀ g, s.isActive g = t.isActive g) (hlayers : s.layers = t.layers) : s = t := by
  obtain ⟨guards, layers⟩ := s
  obtain ⟨guards', layers'⟩ := t
  obtain rfl : layers = layers' := hlayers
  congr 1
  refine Array.ext hsize fun i hi hi' => ?_
  have hi'' := hactive ⟨i⟩
  simpa only [isActive, Array.getElem?_eq_getElem hi, Array.getElem?_eq_getElem hi',
    Option.getD_some] using hi''

/-! ### What the stack keeps -/

/-- The layers of a stack have each a number of their own, in order, and are those of the guards
that are good. -/
structure Consistent (s : HookStack η) : Prop where
  sorted : s.layers.Pairwise fun a b => a.guard.index < b.guard.index
  isActive_iff : ∀ g, s.isActive g ↔ g ∈ s.layers.map Layer.guard

namespace Consistent

theorem empty : (HookStack.empty : HookStack η).Consistent where
  sorted := .nil
  isActive_iff _ := by simp [HookStack.empty, isActive]

variable {s : HookStack η} (h : s.Consistent)

include h

theorem index_lt {l : Layer η} (hl : l ∈ s.layers) : l.guard.index < s.guards.size := by
  have hactive : s.isActive l.guard := (h.isActive_iff _).2 (List.mem_map_of_mem hl)
  by_contra hout
  rw [isActive, Array.getElem?_eq_none (Nat.le_of_not_lt hout)] at hactive
  exact Bool.false_ne_true hactive

theorem install (hook : η) : (s.install hook).2.Consistent where
  sorted := by
    refine List.pairwise_append.2 ⟨h.sorted, List.pairwise_singleton _ _, fun a ha b hb => ?_⟩
    rw [List.mem_singleton.1 hb]
    exact h.index_lt ha
  isActive_iff g := by
    have hnew : g.index = s.guards.size ↔ g = ⟨s.guards.size⟩ :=
      ⟨fun hg => congrArg GuardId.mk hg, fun hg => hg ▸ rfl⟩
    rw [isActive_install, Bool.or_eq_true, h.isActive_iff, beq_iff_eq, hnew]
    simp [HookStack.install]

/-- Whether or not its guard is still good, the layer is gone afterwards and no other is. -/
theorem layers_restore (g : GuardId) :
    (s.restore g).layers = s.layers.filter fun l => l.guard ≠ g := by
  unfold restore
  split
  · exact List.filter_congr fun l _ => (decide_not ..).symm
  · rename_i hout
    refine (List.filter_eq_self.2 fun l hl => ?_).symm
    rw [decide_eq_true_eq]
    exact fun heq => hout ((h.isActive_iff g).2 (heq ▸ List.mem_map_of_mem hl))

theorem restore (g : GuardId) : (s.restore g).Consistent where
  sorted := by
    rw [h.layers_restore]
    exact h.sorted.filter _
  isActive_iff g' := by
    rw [isActive_restore, Bool.and_eq_true, h.isActive_iff, bne_iff_ne, h.layers_restore,
      List.mem_map, List.mem_map]
    constructor
    · rintro ⟨⟨l, hl, rfl⟩, hne⟩
      exact ⟨l, List.mem_filter.2 ⟨hl, decide_eq_true hne⟩, rfl⟩
    · rintro ⟨l, hl, rfl⟩
      obtain ⟨hl, hne⟩ := List.mem_filter.1 hl
      exact ⟨⟨l, hl, rfl⟩, of_decide_eq_true hne⟩

theorem step (x : Step η) : (s.step x).Consistent := by
  cases x with
  | install hook => exact h.install hook
  | restore g => exact h.restore g
  | drop g => exact h.restore g

theorem after (steps : List (Step η)) : (s.after steps).Consistent := by
  induction steps using List.reverseRecOn with
  | nil => exact h
  | append_singleton steps x ih => exact after_concat .. ▸ ih.step x

/-- No two of the layers that a lookup meets are of one guard. -/
theorem pairwise_outermostFirst : s.outermostFirst.Pairwise fun a b => a.guard ≠ b.guard :=
  List.pairwise_reverse.2 (h.sorted.imp
    fun hlt heq => Nat.ne_of_gt hlt (congrArg GuardId.index heq))

theorem isHooked_iff : s.isHooked ↔ ∃ g, s.isActive g := by
  simp only [isHooked, Bool.not_eq_true', List.isEmpty_eq_false_iff_exists_mem, h.isActive_iff,
    List.mem_map]
  exact ⟨fun ⟨l, hl⟩ => ⟨_, l, hl, rfl⟩, fun ⟨_, l, hl, _⟩ => ⟨l, hl⟩⟩

/-- Restoring several guards takes out their layers and leaves every other where it is. -/
theorem restore_all (gs : List GuardId) :
    (gs.foldl HookStack.restore s).Consistent ∧
    (gs.foldl HookStack.restore s).layers = s.layers.filter (fun l => l.guard ∉ gs) ∧
    (gs.foldl HookStack.restore s).guards.size = s.guards.size := by
  induction gs using List.reverseRecOn with
  | nil => exact ⟨h, (List.filter_eq_self.2 fun _ _ => by simp).symm, rfl⟩
  | append_singleton gs g ih =>
      obtain ⟨hkept, hlayers, hsize⟩ := ih
      rw [List.foldl_append, List.foldl_cons, List.foldl_nil]
      refine ⟨hkept.restore g, ?_, (size_guards_restore _ g).trans hsize⟩
      rw [hkept.layers_restore, hlayers, List.filter_filter]
      refine List.filter_congr fun l _ => ?_
      rw [← Bool.decide_and, decide_eq_decide, List.mem_append, List.mem_singleton,
        not_or, and_comm]

/-- It does not matter in which order guards are restored, nor how often each is. -/
theorem foldl_restore_congr {gs gs' : List GuardId} (hgs : ∀ g, g ∈ gs ↔ g ∈ gs') :
    gs.foldl HookStack.restore s = gs'.foldl HookStack.restore s := by
  obtain ⟨hkept, hlayers, hsize⟩ := h.restore_all gs
  obtain ⟨hkept', hlayers', hsize'⟩ := h.restore_all gs'
  have hsame : (gs.foldl HookStack.restore s).layers = (gs'.foldl HookStack.restore s).layers := by
    rw [hlayers, hlayers']
    exact List.filter_congr fun l _ => decide_eq_decide.2 (not_congr (hgs l.guard))
  refine eq_of_isActive (hsize.trans hsize'.symm) (fun g => ?_) hsame
  rw [Bool.eq_iff_iff, hkept.isActive_iff, hkept'.isActive_iff, hsame]

end Consistent

/-! ### What a history leaves -/

theorem consistent_after (steps : List (Step η)) :
    ((empty : HookStack η).after steps).Consistent := Consistent.empty.after steps

theorem size_guards_after (steps : List (Step η)) :
    ((empty : HookStack η).after steps).guards.size = (hooks steps).length := by
  induction steps using List.reverseRecOn with
  | nil => rfl
  | append_singleton steps x ih => cases x <;> simp [after_concat, step, ih]

theorem isActive_after (steps : List (Step η)) (g : GuardId) :
    ((empty : HookStack η).after steps).isActive g ↔
      g.index < (hooks steps).length ∧ ¬ Used steps g := by
  induction steps using List.reverseRecOn with
  | nil => simp [after, empty, isActive]
  | append_singleton steps x ih =>
      rw [after_concat, used_concat]
      cases x with
      | install hook =>
          rw [step, isActive_install, Bool.or_eq_true, ih, size_guards_after, beq_iff_eq,
            hooks_append, hooks_install, List.length_append, List.length_singleton]
          have hlt : Used steps g → g.index < (hooks steps).length := Used.lt
          simp only [Step.Uses, false_and, or_false]
          grind
      | restore g' | drop g' =>
          simp only [step, isActive_restore, Bool.and_eq_true, ih, bne_iff_ne, hooks_append,
            hooks_restore, hooks_drop, List.append_nil, Step.Uses]
          grind

/-- The layers in front of a lookup are those of the guards that have not been used. -/
theorem layers_after (steps : List (Step η)) :
    ((empty : HookStack η).after steps).layers =
      (handedOut steps).filter fun l => ¬ Used steps l.guard := by
  induction steps using List.reverseRecOn with
  | nil => rfl
  | append_singleton steps x ih =>
      rw [after_concat]
      have hlt {l : Layer η} (hl : l ∈ handedOut steps) := index_lt_of_mem_handedOut hl
      cases x with
      | install hook =>
          have hfresh : ¬ Used steps ⟨(hooks steps).length⟩ :=
            fun h => absurd h.lt (Nat.lt_irrefl _)
          rw [handedOut_concat, List.filter_append]
          simp only [step, install, ih, size_guards_after, used_concat, Step.Uses,
            false_and, or_false]
          simp [hfresh]
      | restore g | drop g =>
          rw [step, (consistent_after steps).layers_restore, ih, List.filter_filter]
          simp only [handedOut, hooks_append, hooks_restore, hooks_drop, List.append_nil]
          refine List.filter_congr fun l hl => ?_
          rw [← Bool.decide_and, decide_eq_decide, used_concat, Step.Uses]
          have := hlt hl
          grind

theorem step_of_uses {s : HookStack η} {x : Step η} {g : GuardId} (h : x.Uses g) :
    s.step x = s.restore g := by
  cases x with
  | install hook => exact h.elim
  | restore g' | drop g' => exact congrArg s.restore h

/-- The layers in front of a lookup are those of the guards that have not been used since they were
handed out, in that order. Using a guard takes out its layer and no other, and does nothing from
then on. Neither the order in which guards are used nor repetitions matter. -/
theorem layers_follow_guards (steps : List (Step η)) (s : HookStack η)
    (hs : s = (empty : HookStack η).after steps) :
    s.layers = (handedOut steps).filter (fun l => ¬ Used steps l.guard) ∧
    (∀ (host : Host σ η) serve call (t : State σ η), t.hooks = s →
      (Legacy.require host serve call).runIn t =
        (intercept host serve call (Legacy.base host serve call) s.layers.reverse).runIn t) ∧
    (s.layers.map Layer.guard).Nodup ∧
    (∀ g, s.isActive g ↔ g ∈ s.layers.map Layer.guard) ∧
    (s.isHooked ↔ ∃ g, s.isActive g) ∧
    (∀ (x : Step η) g, x.Uses g →
      (s.step x).layers = s.layers.filter (fun l => l.guard ≠ g) ∧
      (∀ g', (s.step x).isActive g' ↔ s.isActive g' ∧ g' ≠ g) ∧
      (Used steps g → s.step x = s)) ∧
    (∀ gs gs' : List GuardId, (∀ g, g ∈ gs ↔ g ∈ gs') →
      gs.foldl restore s = gs'.foldl restore s) := by
  subst hs
  have hkept := consistent_after steps
  refine ⟨layers_after steps, fun host serve call t ht => ?_, ?_, hkept.isActive_iff,
    hkept.isHooked_iff, fun x g hx => ?_, fun gs gs' hgs => hkept.foldl_restore_congr hgs⟩
  · rw [← ht]
    rfl
  · refine List.pairwise_map.2 (hkept.sorted.imp fun hlt heq => ?_)
    exact absurd (congrArg GuardId.index heq) (Nat.ne_of_lt hlt)
  · rw [step_of_uses hx]
    refine ⟨hkept.layers_restore g, fun g' => ?_, fun hused => restore_of_not_isActive ?_⟩
    · rw [isActive_restore, Bool.and_eq_true, bne_iff_ne]
    · exact fun hactive => ((isActive_after steps g).1 hactive).2 hused

/-- Two hooks are installed and the first is taken out, and its guard is dropped when a third has
been installed: the second and the third are left. -/
theorem layers_follow_guards_overlapping :
    let steps : List (Step String) :=
      [.install "a", .install "b", .restore ⟨0⟩, .install "c", .drop ⟨0⟩]
    let s := (empty : HookStack String).after steps
    s.layers = [⟨⟨1⟩, "b"⟩, ⟨⟨2⟩, "c"⟩] ∧ s.isHooked ∧ ¬ s.isActive ⟨0⟩ ∧
    s.restore ⟨0⟩ = s ∧
    (s.restore ⟨1⟩).restore ⟨2⟩ = (s.restore ⟨2⟩).restore ⟨1⟩ := by
  intro steps s
  obtain ⟨hlayers, -, -, hactive, hhooked, huse, horder⟩ :=
    layers_follow_guards (σ := Unit) steps s rfl
  have hleft : s.layers = [⟨⟨1⟩, "b"⟩, ⟨⟨2⟩, "c"⟩] := hlayers.trans rfl
  refine ⟨hleft, hhooked.2 ⟨⟨1⟩, (hactive _).2 ?_⟩, fun h => ?_, ?_, ?_⟩
  · rw [hleft]
    decide
  · have hmem := (hactive _).1 h
    rw [hleft] at hmem
    revert hmem
    decide
  · exact (huse (.restore ⟨0⟩) ⟨0⟩ rfl).2.2 (by decide)
  · exact horder [⟨1⟩, ⟨2⟩] [⟨2⟩, ⟨1⟩] (by simp [or_comm])

end HookStack

/-! ### The stack of a loader -/

variable {σ η α : Type}

/-- Nothing is done with the stack of a loader but what is done with guards. -/
theorem survives_hooks (host : Host σ η) (stack : HookStack η) :
    Survives (fun s => ∃ steps, s.hooks = stack.after steps) host where
  emit _ _ _ hs := hs
  action a s hs := by
    obtain ⟨steps, hsteps⟩ := hs
    cases a with
    | install hook =>
        exact ⟨steps ++ [.install hook], by rw [HookStack.after_concat, ← hsteps]; rfl⟩
    | restore g =>
        exact ⟨steps ++ [.restore g], by rw [HookStack.after_concat, ← hsteps]; rfl⟩
    | _ => exact ⟨steps, hsteps⟩
  addChild _ _ _ hs := hs
  enter _ _ _ _ hs := hs
  leave s p outcome hs := by cases outcome <;> exact hs
  parse _ _ _ _ hs := hs
  add _ _ _ hs := hs
  modifyRecord _ _ _ _ hs := hs

/-- Every stack that a loader can come to is one with a history. -/
theorem Host.exists_steps_exec (host : Host σ η) (depth : Nat) (p : Program σ η α) (store : σ) :
    ∃ steps, (host.exec depth p (State.initial store)).2.hooks = HookStack.empty.after steps :=
  (survives_hooks host .empty).exec depth p ⟨[], rfl⟩

/-- In every state that a loader can come to, the layers are those of the guards that are good. -/
theorem Host.consistent_exec (host : Host σ η) (depth : Nat) (p : Program σ η α) (store : σ) :
    (host.exec depth p (State.initial store)).2.hooks.Consistent := by
  obtain ⟨steps, hsteps⟩ := host.exists_steps_exec depth p store
  exact hsteps ▸ HookStack.consistent_after steps

end ModuleLoader
