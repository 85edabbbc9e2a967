import ModuleLoader.Proofs.LoadInvariant
/-!
The depth is no part of any answer.

Calls that nest deeper than a server allows are not answered, and whatever needs
their answers comes to nothing. Everything else ends as it does, in the state in
which it does, under every server that allows more. So one may say that a call
comes to an end without saying how deep it goes, and of two calls that come to
an end there is a depth at which both do.
-/

namespace ModuleLoader

variable {σ η α β : Type}

namespace Eff

/-- `y` ends as `x` does, unless `x` runs out of depth. -/
def Continues (x y : Eff σ η α) : Prop :=
  Keeps (fun _ => True) (fun _ => True) (fun _ => True) x y

theorem ends_true (o : Except Fault α) : Ends (fun _ => True) (fun _ => True) o :=
  match o with
  | .ok _ => trivial
  | .error (.error _) => trivial
  | .error (.panic _) => trivial
  | .error .outOfDepth => trivial

theorem continues_iff {x y : Eff σ η α} :
    Continues x y ↔ ∀ s, (x.runIn s).1 = .error .outOfDepth ∨ y.runIn s = x.runIn s :=
  ⟨fun h s => (h s trivial).2.2, fun h s _ => ⟨trivial, ends_true _, h s⟩⟩

theorem Continues.refl (x : Eff σ η α) : Continues x x :=
  continues_iff.2 fun _ => Or.inr rfl

theorem Continues.trans {x y z : Eff σ η α} (hxy : Continues x y) (hyz : Continues y z) :
    Continues x z := by
  rw [continues_iff] at *
  intro s
  rcases hxy s with h | h
  · exact Or.inl h
  · rcases hyz s with h' | h'
    · exact Or.inl (h ▸ h')
    · exact Or.inr (h'.trans h)

theorem Continues.runIn_eq {x y : Eff σ η α} (h : Continues x y) {s : State σ η}
    (hx : (x.runIn s).1 ≠ .error .outOfDepth) : y.runIn s = x.runIn s :=
  (continues_iff.1 h s).resolve_left hx

theorem Continues.bind {x y : Eff σ η α} {f g : α → Eff σ η β} (hx : Continues x y)
    (hf : ∀ a, Continues (f a) (g a)) : Continues (x >>= f) (y >>= g) :=
  Keeps.bind hx fun a _ => hf a

theorem Continues.settle {x y : Eff σ η α} (hx : Continues x y) : Continues x.settle y.settle :=
  (Keeps.settle hx).imp (fun _ h => h) fun _ _ => trivial

end Eff

section

variable {serve serve' : (c : Call) → Eff σ η c.Reply}

theorem Program.continues_run (h : ∀ c, Eff.Continues (serve c) (serve' c)) (p : Program σ η α) :
    Eff.Continues (p.run serve) (p.run serve') :=
  p.keeps_run (fun _ _ _ => trivial) h _

theorem Script.continues_exec (h : ∀ c, Eff.Continues (serve c) (serve' c)) (x : Script σ η α) :
    Eff.Continues (x.exec serve) (x.exec serve') :=
  .bind (Program.continues_run h _) fun _ => .refl _

/-- The code in between asks nothing of a server but answers. -/
theorem loadInvariant_continues (host : Host σ η) (h : ∀ c, Eff.Continues (serve c) (serve' c)) :
    LoadInvariant (fun _ => True) (fun _ => True) (fun _ => True) (fun _ => True) host
      serve serve' where
  core _ _ _ _ := trivial
  error _ _ := trivial
  add _ _ _ _ _ _ := ⟨trivial, trivial⟩
  foreign := host.every_of_forall
    (fun _ _ p hP E' => (p.keeps_run (fun _ _ _ => trivial) h E').imp (fun _ h => h)
      fun a _ => hP a)
    (fun _ => trivial) fun _ => trivial

namespace Linker

theorem continues_onBehalf {x y : Eff σ η α} (r : RecordId) (h : Eff.Continues x y) :
    Eff.Continues (onBehalf r x) (onBehalf r y) :=
  .bind h.settle fun _ => .refl _

theorem continues_linkRequests {host : Host σ η} (h : ∀ c, Eff.Continues (serve c) (serve' c))
    (r : RecordId) (referrer : Referrer) (specifiers : List String) :
    Eff.Continues (linkRequests host serve r referrer specifiers)
      (linkRequests host serve' r referrer specifiers) := by
  induction specifiers with
  | nil => exact .refl _
  | cons specifier rest ih =>
      refine .bind ((loadInvariant_continues host h).link (fun _ => trivial) specifier referrer)
        fun dep => ?_
      exact .bind (h (.linkModule dep)) fun _ => .bind (.refl _) fun _ => ih

theorem continues_linkModule {host : Host σ η} (h : ∀ c, Eff.Continues (serve c) (serve' c))
    (r : RecordId) : Eff.Continues (linkModule host serve r) (linkModule host serve' r) := by
  refine .bind (.refl _) fun record => ?_
  cases record.status with
  | unlinked =>
      refine .bind (.refl _) fun _ => ?_
      exact .bind (continues_onBehalf r (continues_linkRequests h r _ _)) fun _ => .refl _
  | _ => exact .refl _

theorem continues_evaluateAll (h : ∀ c, Eff.Continues (serve c) (serve' c))
    (imports : OrderedMap Namespace) (deps : List (String × RecordId)) :
    Eff.Continues (evaluateAll serve imports deps) (evaluateAll serve' imports deps) := by
  induction deps generalizing imports with
  | nil => exact .refl _
  | cons dep rest ih => exact .bind (h (.evaluate dep.2)) fun n => ih _

theorem continues_evaluateKind (h : ∀ c, Eff.Continues (serve c) (serve' c)) (r : RecordId)
    (record : ModuleRecord σ η) :
    Eff.Continues (evaluateKind serve r record) (evaluateKind serve' r record) := by
  unfold evaluateKind
  cases record.kind with
  | source m =>
      refine .bind (continues_evaluateAll h _ _) fun imports => ?_
      refine .bind (.refl _) fun importMeta => .bind (.refl _) fun _ => ?_
      exact Script.continues_exec h _
  | synthetic m => exact .refl _

theorem continues_evaluateAnew (h : ∀ c, Eff.Continues (serve c) (serve' c)) (r : RecordId)
    (record : ModuleRecord σ η) :
    Eff.Continues (evaluateAnew serve r record) (evaluateAnew serve' r record) := by
  refine .bind (.refl _) fun _ => ?_
  exact .bind (continues_onBehalf r (continues_evaluateKind h r record)) fun _ => .refl _

theorem continues_evaluate (h : ∀ c, Eff.Continues (serve c) (serve' c)) (r : RecordId) :
    Eff.Continues (evaluate serve r) (evaluate serve' r) := by
  refine .bind (.refl _) fun record => ?_
  cases record.status with
  | linked => exact continues_evaluateAnew h r record
  | evaluated =>
      cases record.phase.namespace? with
      | some n => exact .refl _
      | none => exact continues_evaluateAnew h r record
  | _ => exact .refl _

end Linker

theorem continues_answer (host : Host σ η) (h : ∀ c, Eff.Continues (serve c) (serve' c))
    (c : Call) : Eff.Continues (answer host serve c) (answer host serve' c) := by
  have hcode := loadInvariant_continues host h
  cases c with
  | require lookup => exact hcode.require lookup
  | link specifier referrer => exact hcode.link (fun _ => trivial) specifier referrer
  | buildSource specifier referrer => exact hcode.buildSource specifier referrer
  | buildSynthetic specifier referrer => exact hcode.buildSynthetic specifier referrer
  | linkModule r => exact Linker.continues_linkModule h r
  | evaluate r => exact Linker.continues_evaluate h r

end

theorem continues_serve_succ (host : Host σ η) (depth : Nat) (c : Call) :
    Eff.Continues (serve host depth c) (serve host (depth + 1) c) := by
  induction depth generalizing c with
  | zero => exact Eff.Keeps.outOfDepth _
  | succ depth ih => exact continues_answer host ih c

/-- What comes to an end within a depth ends in the same way within every greater one. -/
theorem continues_serve (host : Host σ η) {depth depth' : Nat} (h : depth ≤ depth') (c : Call) :
    Eff.Continues (serve host depth c) (serve host depth' c) := by
  induction h with
  | refl => exact .refl _
  | step _ ih => exact ih.trans (continues_serve_succ host _ c)

end ModuleLoader
