import ModuleLoader.Proofs.Keeps
/-!
The same run in two worlds.

What something does not depend on can be said with two runs. They begin in states
that are alike and differ in what is not to matter, and then they go the same way:
what is done in one is done in the other, step by step, to states that are alike
again and to the same end. What it is to be alike is left open here, and so is where
it ends that anything is said. A run may come to a state where it is lost, and from
there on it may differ from the other as it likes.

A computation may be reached under conditions only, in which case nothing need be
shown of it where they do not hold. So the rule for two computations, one after the
other, hands what is known of the value of the first to the second, where it is a
condition.
-/

namespace ModuleLoader

open Eff

variable {σ η α β : Type}

structure Worlds (σ η : Type) where
  lost : State σ η → Prop
  alike : State σ η → State σ η → Prop

namespace Worlds

structure Shows (W : Worlds σ η) (p : Prop) (P : α → Prop) (x : Eff σ η α) : Prop where
  lost : ∀ s, W.lost s → W.lost (x.runIn s).2
  alike : p → ∀ s t, W.alike s t → W.lost (x.runIn s).2 ∨
    W.alike (x.runIn s).2 (x.runIn t).2 ∧ Ends (fun _ => True) P (x.runIn s).1 ∧
      (x.runIn t).1 = (x.runIn s).1

namespace Shows

variable {W : Worlds σ η} {p q : Prop} {P P' : α → Prop} {Q : β → Prop} {x : Eff σ η α}

theorem imp (h : W.Shows p P x) (hp : q → p) (hP : q → ∀ a, P a → P' a) : W.Shows q P' x where
  lost := h.lost
  alike hq s t hst := (h.alike (hp hq) s t hst).imp id fun ⟨halike, hends, heq⟩ =>
    ⟨halike, hends.imp (fun _ h => h) (hP hq), heq⟩

theorem keeps (h : W.Shows p P x) : Keeps W.lost (fun _ => True) (fun _ => True) x x :=
  .of_runIn fun s hs => ⟨h.lost s hs, by
    match (x.runIn s).1 with
    | .ok _ | .error (.error _) | .error (.panic _) | .error .outOfDepth => trivial⟩

theorem of_not (hx : ∀ s, W.lost s → W.lost (x.runIn s).2) (hp : ¬ p) : W.Shows p P x :=
  ⟨hx, fun h => (hp h).elim⟩

theorem pure {a : α} (h : p → P a) : W.Shows p P (Pure.pure a : Eff σ η α) where
  lost _ hs := hs
  alike hp _ _ hst := Or.inr ⟨hst, h hp, rfl⟩

theorem fail (e : Error) : W.Shows p P (Eff.fail e : Eff σ η α) where
  lost _ hs := hs
  alike _ _ _ hst := Or.inr ⟨hst, trivial, rfl⟩

theorem panic (m : String) : W.Shows p P (throw (.panic m) : Eff σ η α) where
  lost _ hs := hs
  alike _ _ _ hst := Or.inr ⟨hst, trivial, rfl⟩

theorem outOfDepth : W.Shows p P (throw .outOfDepth : Eff σ η α) where
  lost _ hs := hs
  alike _ _ _ hst := Or.inr ⟨hst, trivial, rfl⟩

theorem ofExcept {o : Except Error α} (h : p → Answers (fun _ => True) P o) :
    W.Shows p P (Eff.ofExcept o : Eff σ η α) := by
  cases o with
  | ok a => exact pure h
  | error e => exact fail e

theorem ofExcept_any (o : Except Error α) :
    W.Shows p (fun _ => True) (Eff.ofExcept o : Eff σ η α) :=
  ofExcept fun _ => answers_of_forall (fun _ => trivial) (fun _ => trivial) o

theorem bind {f : α → Eff σ η β} (hx : W.Shows p P x) (hf : ∀ a, W.Shows (p ∧ P a) Q (f a)) :
    W.Shows p Q (x >>= f) where
  lost s hs := by
    have ht := hx.lost s hs
    rw [runIn_bind]
    cases hrun : x.runIn s with
    | mk o t =>
        rw [hrun] at ht
        cases o with
        | ok a => exact (hf a).lost t ht
        | error e => exact ht
  alike hp s t hst := by
    have hshows := hx.alike hp s t hst
    rw [runIn_bind, runIn_bind]
    generalize x.runIn s = first at hshows ⊢
    generalize x.runIn t = second at hshows ⊢
    obtain ⟨o, u⟩ := first
    obtain ⟨o', v⟩ := second
    -- what comes second begins in the same way in both worlds, unless the run is lost
    rcases hshows with hu | ⟨halike, hends, heq⟩
    · refine Or.inl ?_
      cases o with
      | ok a => exact (hf a).lost u hu
      | error e => exact hu
    · obtain rfl : o' = o := heq
      match o' with
      | .ok a => exact (hf a).alike ⟨hp, hends⟩ u v halike
      | .error (.error _) => exact Or.inr ⟨halike, trivial, rfl⟩
      | .error (.panic _) => exact Or.inr ⟨halike, trivial, rfl⟩
      | .error .outOfDepth => exact Or.inr ⟨halike, trivial, rfl⟩

theorem settle (hx : W.Shows p P x) : W.Shows p (Answers (fun _ => True) P) x.settle where
  lost s hs := by
    have ht := hx.lost s hs
    rw [runIn_settle]
    generalize x.runIn s = first at ht ⊢
    match first with
    | (.ok _, _) | (.error (.error _), _) | (.error (.panic _), _) | (.error .outOfDepth, _) =>
        exact ht
  alike hp s t hst := by
    have hshows := hx.alike hp s t hst
    rw [runIn_settle, runIn_settle]
    generalize x.runIn s = first at hshows ⊢
    generalize x.runIn t = second at hshows ⊢
    obtain ⟨o, u⟩ := first
    obtain ⟨o', v⟩ := second
    refine hshows.imp (fun hu => ?_) fun ⟨halike, hends, heq⟩ => ?_
    · match o with
      | .ok _ | .error (.error _) | .error (.panic _) | .error .outOfDepth => exact hu
    · obtain rfl : o' = o := heq
      match o' with
      | .ok _ => exact ⟨halike, hends, rfl⟩
      | .error (.error _) => exact ⟨halike, trivial, rfl⟩
      | .error (.panic _) => exact ⟨halike, trivial, rfl⟩
      | .error .outOfDepth => exact ⟨halike, trivial, rfl⟩

theorem modifyGet {f : State σ η → α × State σ η} (hlost : ∀ s, W.lost s → W.lost (f s).2)
    (h : p → ∀ s t, W.alike s t → W.alike (f s).2 (f t).2 ∧ P (f s).1 ∧ (f t).1 = (f s).1) :
    W.Shows p P (modifyGet f : Eff σ η α) where
  lost := hlost
  alike hp s t hst := by
    obtain ⟨halike, hP, heq⟩ := h hp s t hst
    exact Or.inr ⟨halike, hP, congrArg Except.ok heq⟩

theorem modify {f : State σ η → State σ η} (hlost : ∀ s, W.lost s → W.lost (f s))
    (h : p → ∀ s t, W.alike s t → W.alike (f s) (f t)) :
    W.Shows p (fun _ => True) (modify f : Eff σ η PUnit) :=
  modifyGet (f := fun s => (PUnit.unit, f s)) hlost fun hp s t hst => ⟨h hp s t hst, trivial, rfl⟩

theorem get {f : State σ η → Eff σ η α} (hread : ∀ s t, W.alike s t → f t = f s)
    (h : ∀ s, W.Shows p P (f s)) : W.Shows p P (get >>= f) where
  lost s hs := (h s).lost s hs
  alike hp s t hst := by
    change _ ∨ W.alike _ ((f t).runIn t).2 ∧ _ ∧ ((f t).runIn t).1 = _
    rw [hread s t hst]
    exact (h s).alike hp s t hst

end Shows

end Worlds

end ModuleLoader
