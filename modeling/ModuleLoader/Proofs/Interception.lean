import ModuleLoader.Proofs.Observers
/-!
Every lookup is intercepted.

What is known of hooks comes together here. Each lookup passes each layer once on its way
in and once on its way out, and what is done on its behalf lies in between, with all
lookups that this makes in turn. And when the hooks do nothing but observe, then all goes
as it would go without them.
-/

namespace ModuleLoader

open Eff

variable {σ η α τ : Type}

/-- Every layer has one callback before and one after each lookup, with its id and parent. They are
brackets around all that is done on behalf of the lookup, and with every lookup made meanwhile
properly nested in them. Hooks that only observe make no difference to anything else. A run that
panics counts here if no hook panics before a lookup. -/
theorem lookups_are_intercepted (host : Host σ η) (view : σ → τ) (depth : Nat) (s : State σ η)
    (hguards : s.hooks.Consistent) :
    (∀ call o t, (serve host depth (.require call)).runIn s = (o, t) → o ≠ .error .outOfDepth →
      (∀ m, o = .error (.panic m) → host.BeforeNeverPanics) → t.hooks = s.hooks →
      ∃ w, t.history = s.history ++ w ∧
        Tells host s.hooks.outermostFirst (.lookup s.hooks.outermostFirst call) w) ∧
    (∀ (p : Program σ η α) o t, host.exec depth p s = (o, t) → o ≠ .error .outOfDepth →
      (∀ m, o = .error (.panic m) → host.BeforeNeverPanics) → t.hooks = s.hooks →
      ∃ w, t.history = s.history ++ w ∧ Tells host s.hooks.outermostFirst .work w ∧
        (∀ l ∈ s.hooks.layers, (host.hook l.hook).before?.isSome → ∀ call,
          w.countP (Event.opens l.guard call) = w.countP (Event.looksUp call)) ∧
        (∀ l ∈ s.hooks.layers, (host.hook l.hook).after?.isSome → ∀ call,
          w.countP (Event.closes l.guard call) = w.countP (Event.looksUp call)) ∧
        ((∀ l ∈ s.hooks.layers,
            (host.hook l.hook).before?.isSome ∧ (host.hook l.hook).after?.isSome) →
          w.Bracketed (s.hooks.layers.map Layer.guard))) ∧
    (host.Observed view → (∀ r a, s.record? r = some a → a.Overlooks view) →
      ∀ s', s.Unhooked view s' →
        (∀ c o t, (serve host depth c).runIn s = (o, t) → t.hooks = s.hooks →
          ∃ t', (serve host depth c).runIn s' = (o, t') ∧ t.Unhooked view t') ∧
        (∀ (p : Program σ η α) P, p.Overlooks view P → ∀ o t, host.exec depth p s = (o, t) →
          t.hooks = s.hooks → ∃ t', host.exec depth p s' = (o, t') ∧ t.Unhooked view t')) := by
  refine ⟨fun call o t hrun hstop hpanic hhooks => ?_, fun p o t hrun hstop hpanic hhooks => ?_,
    fun hhost hrecords s' hs' => ⟨fun c o t hrun hhooks => ?_, fun p P hp o t hrun hhooks => ?_⟩⟩
  · exact (moves_serve hrun hstop hpanic).tells hhooks
  · obtain ⟨w, hw, htells⟩ := (moves_exec hrun hstop hpanic).tells hhooks
    refine ⟨w, hw, htells, fun l hl => ?_, fun l hl => ?_, fun hboth => ?_⟩
    · exact htells.countP_opens hguards.pairwise_outermostFirst (List.mem_reverse.2 hl)
    · exact htells.countP_closes hguards.pairwise_outermostFirst (List.mem_reverse.2 hl)
    · have hbracketed := htells.bracketed fun l hl => hboth l (List.mem_reverse.1 hl)
      rwa [HookStack.outermostFirst, List.reverse_reverse] at hbracketed
  · exact Unhooking.exists_unhooked (Unhooking.serve hhost depth c) hrecords hrun hhooks hs'
  · exact Unhooking.exists_unhooked (Unhooking.program (Unhooking.serve hhost depth) fun _ => hp)
      hrecords hrun hhooks hs'

/-- Two hooks are installed, which write down what is looked up and count how often it was. The
first script requires the second, which requires what is not there, and fails. -/
def watchedWorld : Host Nat Unit where
  files := ⟨[(["a.cjs"], .file (some "./b.cjs")), (["b.cjs"], .file (some ""))]⟩
  config := {}
  builtins := ⟨"node:", []⟩
  linkerBuiltins? := none
  scriptContext := ⟨0⟩
  compile _ _ := throw (.engine "")
  runScript text m := do
    let _ ← (Script.request (.require ⟨text, m.filename⟩)).attempt
    Script.ofExcept (if text = "" then .error (.engine "") else .ok ())
  hook _ := ⟨some fun call => Program.perform (.note call.id),
    some fun _ => Program.perform (.modifyStore (· + 1))⟩
  lookup? := none

theorem watchedWorld_observed : watchedWorld.Observed fun _ => () where
  before := by
    rintro - - ⟨⟩ -
    exact ⟨trivial, fun _ => trivial⟩
  after := by
    rintro - - ⟨⟩ -
    exact ⟨fun _ => rfl, fun _ => trivial⟩
  compile _ _ := trivial
  script text m := by
    intro r
    change Program.Overlooks _ _ (Script.ofExcept (if text = "" then _ else _)).run
    split <;> trivial
  lookup f hf := nomatch hf
  provider b hb name p hp := by
    have hnone : b = ⟨"node:", []⟩ := by simpa [watchedWorld, Host.linkerBuiltins] using hb
    rw [hnone] at hp
    cases hp

def watched : State Nat Unit :=
  { State.initial 0 with hooks := HookStack.empty.after [.install (), .install ()] }

def watchedRun : Except Fault (Except Error Value) × State Nat Unit :=
  watchedWorld.exec 3 (Program.attempt (.require ⟨"./a.cjs", ⟨"/main.cjs"⟩⟩)) watched

/-- Three lookups are made, each on behalf of the one before it, and hooks are called before and
after each of them and properly nested. With no hooks it all comes to the same. -/
theorem lookups_are_intercepted_watchedWorld :
    let nested : LookupCall := ⟨"./b.cjs", ⟨"/a.cjs"⟩⟩
    watchedRun.2.history.Bracketed [⟨0⟩, ⟨1⟩] ∧
    watchedRun.2.history.countP (Event.looksUp nested) = 1 ∧
    watchedRun.2.history.countP (Event.opens ⟨1⟩ nested) = 1 ∧
    watchedRun.2.history.countP (Event.closes ⟨1⟩ nested) = 1 ∧
    watchedRun.2.store = 6 ∧
    (watchedWorld.exec 3 (Program.attempt (.require ⟨"./a.cjs", ⟨"/main.cjs"⟩⟩))
      { watched with hooks := .empty }).1 = watchedRun.1 := by
  intro nested
  have hfacts : watchedRun.1.isOk ∧ watchedRun.2.hooks = watched.hooks ∧
      watchedRun.2.history.countP (Event.looksUp nested) = 1 ∧ watchedRun.2.store = 6 := by
    decide +kernel
  obtain ⟨hended, hhooks, honce, hcount⟩ := hfacts
  have hok : ∃ a, watchedRun.1 = .ok a := by
    cases ho : watchedRun.1 with
    | ok a => exact ⟨a, rfl⟩
    | error e => rw [ho] at hended; cases hended
  obtain ⟨a, ha⟩ := hok
  obtain ⟨-, hbrackets, hsame⟩ := lookups_are_intercepted watchedWorld (fun _ => ()) 3 watched
    (HookStack.consistent_after _)
  obtain ⟨w, hw, -, hopens, hcloses, hnested⟩ := hbrackets _ _ _ (Prod.eta watchedRun).symm
    (by rw [ha]; nofun) (by rw [ha]; nofun) hhooks
  obtain ⟨-, hprogram⟩ := hsame watchedWorld_observed nofun _ (.of_empty _ watched)
  obtain ⟨t', ht', -⟩ := hprogram (Program.attempt (.require ⟨"./a.cjs", ⟨"/main.cjs"⟩⟩))
    (fun _ => True) (fun _ => trivial) _ _ (Prod.eta watchedRun).symm hhooks
  obtain rfl : watchedRun.2.history = w := hw
  have hlayer : (⟨⟨1⟩, ()⟩ : Layer Unit) ∈ watched.hooks.layers := by decide
  refine ⟨hnested fun l _ => ⟨rfl, rfl⟩, honce, ?_, ?_, hcount, by rw [ht']⟩
  · exact (hopens _ hlayer rfl nested).trans honce
  · exact (hcloses _ hlayer rfl nested).trans honce

end ModuleLoader
