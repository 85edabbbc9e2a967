import ModuleLoader.Loader
/-!
What computations on the state keep, and what they lead to.

Every operation of the loader is a computation on the state, put together from
steps of its own and from programs that it has not seen. What has to be said of
it is nearly always of one kind. Something holds of the state before it and is
to hold of the state after it, and the way in which it ends is to be restricted:
values of one sort, errors of another. `Keeps` says this much, for a property of
states that is left open, and it composes, so that a property has to be looked
at only where the loader does something that touches it.

`Keeps` is about two computations and not about one. Calls nest, and an
operation is the same operation whoever answers the calls that it makes, so the
second computation is the first one over another server. It is to end just as
the first, unless the first ran out of depth. With one server in both places
that clause says nothing; with servers of different depths it is what makes the
depth no part of any answer.
-/

namespace ModuleLoader

variable {σ η α β : Type}

namespace Eff

/-! ### Running a computation -/

def runIn (x : Eff σ η α) (s : State σ η) : Except Fault α × State σ η := x.run s

@[simp] theorem runIn_pure (a : α) (s : State σ η) :
    (pure a : Eff σ η α).runIn s = (.ok a, s) := rfl

@[simp] theorem runIn_throw (f : Fault) (s : State σ η) :
    (throw f : Eff σ η α).runIn s = (.error f, s) := rfl

@[simp] theorem runIn_fail (e : Error) (s : State σ η) :
    (fail e : Eff σ η α).runIn s = (.error (.error e), s) := rfl

@[simp] theorem runIn_get (s : State σ η) :
    (get : Eff σ η (State σ η)).runIn s = (.ok s, s) := rfl

@[simp] theorem runIn_modify (f : State σ η → State σ η) (s : State σ η) :
    (modify f : Eff σ η PUnit).runIn s = (.ok ⟨⟩, f s) := rfl

@[simp] theorem runIn_modifyGet (f : State σ η → α × State σ η) (s : State σ η) :
    (modifyGet f : Eff σ η α).runIn s = (.ok (f s).1, (f s).2) := rfl

@[simp] theorem runIn_emit (e : Event) (s : State σ η) :
    (emit e : Eff σ η Unit).runIn s = (.ok (), s.emit e) := rfl

@[simp] theorem runIn_perform (a : Action σ η) (s : State σ η) :
    (perform a).runIn s = (.ok (a.carryOut s).1, (a.carryOut s).2) := rfl

@[simp] theorem runIn_outcome (x : Eff σ η α) (s : State σ η) :
    x.outcome.runIn s = (.ok (x.runIn s).1, (x.runIn s).2) := rfl

@[simp] theorem runIn_ofOutcome (o : Except Fault α) (s : State σ η) :
    (ofOutcome o : Eff σ η α).runIn s = (o, s) := by
  cases o <;> rfl

theorem runIn_ofExcept_eq_ok {o : Except Error α} {s t : State σ η} {a : α} :
    (ofExcept o).runIn s = (.ok a, t) ↔ o = .ok a ∧ s = t := by
  cases o with
  | ok b => simp [ofExcept]
  | error e => simp [ofExcept]

theorem runIn_ofExcept_eq_error {o : Except Error α} {s t : State σ η} {e : Error} :
    (ofExcept o).runIn s = (.error (.error e), t) ↔ o = .error e ∧ s = t := by
  cases o with
  | ok b => simp [ofExcept]
  | error e => simp [ofExcept]

theorem runIn_bind (x : Eff σ η α) (f : α → Eff σ η β) (s : State σ η) :
    (x >>= f).runIn s =
      match x.runIn s with
      | (.ok a, t) => (f a).runIn t
      | (.error e, t) => (.error e, t) := by
  change ExceptT.bindCont f (x.runIn s).1 (x.runIn s).2 = _
  rcases x.runIn s with ⟨_ | _, t⟩ <;> rfl

def error? : Except Fault α → Option Error
  | .error (.error e) => some e
  | _ => none

theorem runIn_eq_error_of_error? {x : Eff σ η α} {s : State σ η} {e : Error}
    (h : error? (x.runIn s).1 = some e) : x.runIn s = (.error (.error e), (x.runIn s).2) := by
  cases hrun : x.runIn s with
  | mk o t =>
      rw [hrun] at h
      match o, h with
      | .error (.error e'), h => rw [Option.some.inj h]

theorem runIn_eq_ok_of_toOption {x : Eff σ η α} {s : State σ η} {a : α}
    (h : (x.runIn s).1.toOption = some a) : x.runIn s = (.ok a, (x.runIn s).2) := by
  cases hrun : x.runIn s with
  | mk o t =>
      rw [hrun] at h
      cases o with
      | ok b => rw [Option.some.inj h]
      | error e => simp [Except.toOption] at h

/-- A computation in two parts has a value only if both have one. -/
theorem runIn_bind_eq_ok {x : Eff σ η α} {f : α → Eff σ η β} {s t : State σ η} {b : β} :
    (x >>= f).runIn s = (.ok b, t) ↔
      ∃ a m, x.runIn s = (.ok a, m) ∧ (f a).runIn m = (.ok b, t) := by
  rw [runIn_bind]
  rcases x.runIn s with ⟨f | a, m⟩
  · simp
  · constructor
    · exact fun h => ⟨a, m, rfl, h⟩
    · rintro ⟨_, _, hx, hf⟩
      cases hx
      exact hf

/-- A computation in two parts fails where one of them fails. -/
theorem runIn_bind_eq_error {x : Eff σ η α} {f : α → Eff σ η β} {s t : State σ η} {e : Fault} :
    (x >>= f).runIn s = (.error e, t) ↔
      x.runIn s = (.error e, t) ∨ ∃ a m, x.runIn s = (.ok a, m) ∧
        (f a).runIn m = (.error e, t) := by
  rw [runIn_bind]
  rcases x.runIn s with ⟨f | a, m⟩
  · simp
  · constructor
    · exact fun h => Or.inr ⟨a, m, rfl, h⟩
    · rintro (hx | ⟨_, _, hx, hf⟩)
      · simp at hx
      · cases hx
        exact hf

theorem runIn_settle (x : Eff σ η α) (s : State σ η) :
    x.settle.runIn s =
      match x.runIn s with
      | (.ok a, t) => (.ok (.ok a), t)
      | (.error (.error e), t) => (.ok (.error e), t)
      | (.error f, t) => (.error f, t) := by
  rw [settle, runIn_bind, runIn_outcome]
  rcases x.runIn s with ⟨f | a, t⟩
  · cases f <;> rfl
  · rfl

/-- A computation ends where its first part ends without a value. -/
theorem runIn_bind_of_error {x : Eff σ η α} {f : α → Eff σ η β} {s : State σ η} {e : Fault}
    (h : (x.runIn s).1 = .error e) : ((x >>= f).runIn s).1 = .error e := by
  rw [runIn_bind]
  cases hrun : x.runIn s with
  | mk o t =>
      rw [hrun] at h
      cases h
      rfl

theorem runIn_settle_of_outOfDepth {x : Eff σ η α} {s : State σ η}
    (h : (x.runIn s).1 = .error .outOfDepth) : (x.settle.runIn s).1 = .error .outOfDepth := by
  rw [runIn_settle]
  cases hrun : x.runIn s with
  | mk o t =>
      rw [hrun] at h
      cases h
      rfl

/-! ### Ways to end -/

/-- An end is one that is allowed: a value with `P`, an error with `E`, or no answer at all. -/
def Ends (E : Error → Prop) (P : α → Prop) : Except Fault α → Prop
  | .ok a => P a
  | .error (.error e) => E e
  | .error _ => True

/-- The same of an end that the one who asked gets to see. -/
def Answers (E : Error → Prop) (P : α → Prop) : Except Error α → Prop
  | .ok a => P a
  | .error e => E e

/-- Where `I` holds, `x` runs to a state where it holds again and ends as allowed, and `y` runs to
the same state and the same end, unless `x` runs out of depth. -/
def Keeps (I : State σ η → Prop) (E : Error → Prop) (P : α → Prop) (x y : Eff σ η α) : Prop :=
  ∀ s, I s → I (x.runIn s).2 ∧ Ends E P (x.runIn s).1 ∧
    ((x.runIn s).1 = .error .outOfDepth ∨ y.runIn s = x.runIn s)

variable {I : State σ η → Prop} {E E' : Error → Prop} {P P' : α → Prop} {Q : β → Prop}

theorem answers_of_forall (hE : ∀ e, E e) (hP : ∀ a, P a) (o : Except Error α) : Answers E P o := by
  cases o with
  | ok a => exact hP a
  | error e => exact hE e

theorem Ends.imp {o : Except Fault α} (h : Ends E P o) (hE : ∀ e, E e → E' e)
    (hP : ∀ a, P a → P' a) : Ends E' P' o :=
  match o, h with
  | .ok a, h => hP a h
  | .error (.error e), h => hE e h
  | .error (.panic _), _ => trivial
  | .error .outOfDepth, _ => trivial

namespace Keeps

theorem of_eq_ok {x y : Eff σ η α} (h : Keeps I E P x y) {s t : State σ η} {a : α} (hs : I s)
    (hrun : x.runIn s = (.ok a, t)) : I t ∧ P a := by
  obtain ⟨hI, hends, -⟩ := h s hs
  rw [hrun] at hI hends
  exact ⟨hI, hends⟩

theorem of_runIn {x : Eff σ η α} (h : ∀ s, I s → I (x.runIn s).2 ∧ Ends E P (x.runIn s).1) :
    Keeps I E P x x := fun s hs => ⟨(h s hs).1, (h s hs).2, Or.inr rfl⟩

theorem imp {x y : Eff σ η α} (h : Keeps I E P x y) (hE : ∀ e, E e → E' e)
    (hP : ∀ a, P a → P' a) : Keeps I E' P' x y := fun s hs =>
  ⟨(h s hs).1, (h s hs).2.1.imp hE hP, (h s hs).2.2⟩

theorem pure {a : α} (h : P a) : Keeps I E P (Pure.pure a) (Pure.pure a) :=
  of_runIn fun _ hs => ⟨hs, h⟩

theorem fail {e : Error} (h : E e) : Keeps I E P (Eff.fail e) (Eff.fail e) :=
  of_runIn fun _ hs => ⟨hs, h⟩

theorem panic (m : String) : Keeps I E P (throw (.panic m)) (throw (.panic m)) :=
  of_runIn fun _ hs => ⟨hs, trivial⟩

theorem outOfDepth (y : Eff σ η α) : Keeps I E P (throw .outOfDepth) y :=
  fun _ hs => ⟨hs, trivial, Or.inl rfl⟩

theorem ofExcept {o : Except Error α} (h : Answers E P o) :
    Keeps I E P (Eff.ofExcept o) (Eff.ofExcept o) := by
  cases o with
  | ok a => exact pure h
  | error e => exact fail h

theorem modify {f : State σ η → State σ η} (h : ∀ s, I s → I (f s)) :
    Keeps I E (fun _ => True) (modify f : Eff σ η PUnit) (modify f) :=
  of_runIn fun s hs => ⟨h s hs, trivial⟩

theorem modifyGet {f : State σ η → α × State σ η} (h : ∀ s, I s → I (f s).2 ∧ P (f s).1) :
    Keeps I E P (modifyGet f : Eff σ η α) (modifyGet f) :=
  of_runIn fun s hs => h s hs

/-- The state is there to be looked at, and nothing is known of it that is not known anyway. -/
theorem get : Keeps I E (fun _ => True) (get : Eff σ η (State σ η)) get :=
  of_runIn fun _ hs => ⟨hs, trivial⟩

theorem bind {x y : Eff σ η α} {f g : α → Eff σ η β} (hx : Keeps I E P x y)
    (hf : ∀ a, P a → Keeps I E Q (f a) (g a)) : Keeps I E Q (x >>= f) (y >>= g) := by
  intro s hs
  obtain ⟨hI, hends, hrest⟩ := hx s hs
  rw [runIn_bind, runIn_bind]
  cases hrun : x.runIn s with
  | mk o t =>
      rw [hrun] at hI hends hrest
      cases o with
      | ok a =>
          obtain ⟨hI', hends', hrest'⟩ := hf a hends t hI
          have hy : y.runIn s = (.ok a, t) := hrest.resolve_left (by simp)
          exact ⟨hI', hends', by simpa [hy] using hrest'⟩
      | error e =>
          refine ⟨hI, by cases e <;> exact hends, ?_⟩
          rcases hrest with hrest | hrest
          · exact Or.inl (by simpa using hrest)
          · exact Or.inr (by rw [hrest])

/-- A computation whose end is taken as a value. Whoever takes it so has to stop where the
computation stopped for want of depth. -/
theorem bind_outcome {x y : Eff σ η α} {f g : Except Fault α → Eff σ η β} (hx : Keeps I E P x y)
    (hstop : f (.error .outOfDepth) = throw .outOfDepth)
    (hf : ∀ o, Ends E P o → Keeps I E Q (f o) (g o)) :
    Keeps I E Q (x.outcome >>= f) (y.outcome >>= g) := by
  intro s hs
  obtain ⟨hI, hends, hrest⟩ := hx s hs
  simp only [runIn_bind, runIn_outcome]
  rcases hrest with hrest | hrest
  · rw [hrest, hstop]
    exact ⟨hI, trivial, Or.inl rfl⟩
  · rw [hrest]
    exact hf _ hends _ hI

theorem settle {x y : Eff σ η α} (hx : Keeps I E P x y) :
    Keeps I E' (Answers E P) x.settle y.settle := by
  intro s hs
  obtain ⟨hI, hends, hrest⟩ := hx s hs
  rw [runIn_settle, runIn_settle]
  cases hrun : x.runIn s with
  | mk o t =>
      rw [hrun] at hI hends hrest
      have hsame : y.runIn s = (o, t) ∨ o = .error .outOfDepth := hrest.symm
      cases o with
      | ok a => exact ⟨hI, hends, Or.inr (by rw [hsame.resolve_right (by simp)])⟩
      | error e =>
          cases e with
          | error e => exact ⟨hI, hends, Or.inr (by rw [hsame.resolve_right (by simp)])⟩
          | panic m => exact ⟨hI, trivial, Or.inr (by rw [hsame.resolve_right (by simp)])⟩
          | outOfDepth => exact ⟨hI, trivial, Or.inl rfl⟩

end Keeps

/-! ### From one state

Where it matters which state a computation is started in, and what holds of its
value in the state that it leads to. -/

/-- Run in a state, the computation leads to one where `I` holds, with an error of `E` or with a
value for which `P` holds in that state, if it ends with either. -/
def Leads (I : State σ η → Prop) (E : Error → Prop) (s : State σ η) (x : Eff σ η α)
    (P : α → State σ η → Prop) : Prop :=
  I (x.runIn s).2 ∧ Ends E (fun a => P a (x.runIn s).2) (x.runIn s).1

namespace Leads

variable {I J : State σ η → Prop} {E : Error → Prop} {s : State σ η} {x : Eff σ η α}
  {P P' : α → State σ η → Prop} {Q : β → State σ η → Prop}

theorem of_keeps {R : α → Prop} (h : Keeps I E R x x) (hs : I s) :
    Leads I E s x fun a _ => R a :=
  ⟨(h s hs).1, (h s hs).2.1⟩

theorem pure {a : α} (hs : I s) (h : P a s) : Leads I E s (Pure.pure a) P := ⟨hs, h⟩

theorem fail {e : Error} (hs : I s) (h : E e) : Leads I E s (Eff.fail e : Eff σ η α) P := ⟨hs, h⟩

theorem throw_panic (m : String) (hs : I s) :
    Leads I E s (throw (.panic m) : Eff σ η α) P := ⟨hs, trivial⟩

theorem bind {f : α → Eff σ η β} (hx : Leads I E s x P)
    (hf : ∀ a t, x.runIn s = (.ok a, t) → I t → P a t → Leads I E t (f a) Q) :
    Leads I E s (x >>= f) Q := by
  obtain ⟨hI, hends⟩ := hx
  unfold Leads
  rw [runIn_bind]
  cases hrun : x.runIn s with
  | mk o t =>
      rw [hrun] at hI hends
      match o with
      | .ok a => exact hf a t hrun hI hends
      | .error (.error e) => exact ⟨hI, hends⟩
      | .error (.panic m) => exact ⟨hI, trivial⟩
      | .error .outOfDepth => exact ⟨hI, trivial⟩

theorem and (hx : Leads I E s x P) (hx' : Leads J E s x P') :
    Leads (fun t => I t ∧ J t) E s x fun a t => P a t ∧ P' a t := by
  obtain ⟨hI, hends⟩ := hx
  obtain ⟨hJ, hends'⟩ := hx'
  refine ⟨⟨hI, hJ⟩, ?_⟩
  cases hrun : x.runIn s with
  | mk o t =>
      rw [hrun] at hends hends'
      match o with
      | .ok a => exact ⟨hends, hends'⟩
      | .error (.error e) => exact hends
      | .error (.panic m) => trivial
      | .error .outOfDepth => trivial

/-- What the one who asked gets to see of a computation. -/
theorem settle (hx : Leads I E s x P) {E' : Error → Prop} :
    Leads I E' s x.settle fun o t => Answers E (fun a => P a t) o := by
  obtain ⟨hI, hends⟩ := hx
  unfold Leads
  rw [runIn_settle]
  cases hrun : x.runIn s with
  | mk o t =>
      rw [hrun] at hI hends
      match o with
      | .ok a => exact ⟨hI, hends⟩
      | .error (.error e) => exact ⟨hI, hends⟩
      | .error (.panic m) => exact ⟨hI, trivial⟩
      | .error .outOfDepth => exact ⟨hI, trivial⟩

/-- A first part that is known to have a value leads nowhere but to the second. -/
theorem bind_of_eq_ok {f : α → Eff σ η β} {a : α} {t : State σ η} (hx : x.runIn s = (.ok a, t))
    (hf : Leads I E t (f a) Q) : Leads I E s (x >>= f) Q := by
  unfold Leads
  rw [runIn_bind, hx]
  exact hf

theorem imp (hx : Leads I E s x P) (hI : ∀ t, I t → J t)
    (hP : ∀ a t, x.runIn s = (.ok a, t) → I t → P a t → P' a t) : Leads J E s x P' := by
  obtain ⟨hI', hends⟩ := hx
  refine ⟨hI _ hI', ?_⟩
  cases hrun : x.runIn s with
  | mk o t =>
      rw [hrun] at hI' hends
      match o with
      | .ok a => exact hP a t hrun hI' hends
      | .error (.error e) => exact hends
      | .error (.panic m) => trivial
      | .error .outOfDepth => trivial

/-- The property that holds at every end may be weakened; of a value it is known in full. -/
theorem weaken (hx : Leads I E s x P) (hI : ∀ t, I t → J t) :
    Leads J E s x fun a t => I t ∧ P a t :=
  hx.imp hI fun _ _ _ hI hP => ⟨hI, hP⟩

theorem of_eq_ok (hx : Leads I E s x P) {a : α} {t : State σ η} (h : x.runIn s = (.ok a, t)) :
    I t ∧ P a t := by
  obtain ⟨hI, hends⟩ := hx
  rw [h] at hI hends
  exact ⟨hI, hends⟩

theorem of_eq (hx : Leads I E s x P) {o : Except Fault α} {t : State σ η} (h : x.runIn s = (o, t)) :
    I t := by
  have hI := hx.1
  rwa [h] at hI

end Leads

end Eff

end ModuleLoader
