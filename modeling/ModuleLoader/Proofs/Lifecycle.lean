import ModuleLoader.Proofs.GoodStates
/-!
The life of records, over all that can be asked of the loader.

A program is run on an empty loader, and whatever it asks for, and whatever is
run on the way, the records it leaves behind are sound. Another program may then
be run on what the first has left, and the records of the first only grow. So
what is known of a record in a state is known of it from then on.
-/

namespace ModuleLoader

open Eff

variable {σ η α : Type} {host : Host σ η} {E : Error → Prop} {B : Compiled σ η → Prop}

/-! ### Whole runs -/

/-- A program run on a good state leads to a good state that follows it. -/
theorem Host.leads_exec (hhost : host.CodeFailsWithin E B) (depth : Nat) {P : α → Prop}
    {p : Program σ η α} (hp : p.FailsWithin E P) {s : State σ η} (hs : s.Good host E B) :
    Leads (fun t => t.Good host E B ∧ State.Follows s t) E s (p.run (serve host depth))
      fun a _ => P a :=
  .of_keeps ((keepsGood_serve hhost depth).keeps_program s hp E) ⟨hs, .refl s⟩

/-- In every state that is reached from an empty loader the records are sound. -/
theorem Host.good_exec (hhost : host.CodeFailsWithin E B) (depth : Nat) {P : α → Prop}
    {p : Program σ η α} (hp : p.FailsWithin E P) (store : σ) :
    (host.exec depth p (State.initial store)).2.Good host E B :=
  (host.leads_exec hhost depth hp (State.good_initial store)).1.1

theorem Host.leads_op (hhost : host.CodeFailsWithin E B) (depth : Nat) {P : α → Prop}
    {op : Script σ η α} (hop : op.FailsWithin E P) {s : State σ η} (hs : s.Good host E B) :
    Leads (fun t => t.Good host E B ∧ State.Follows s t) E s (op.exec (serve host depth))
      fun a _ => P a :=
  .of_keeps (Script.keeps_exec ((keepsGood_serve hhost depth).keeps_program s hop E)) ⟨hs, .refl s⟩

/-- What is offered to whoever uses the loader: the calls, and what takes several calls in turn. -/
inductive Script.Offered : {β : Type} → Script σ η β → Prop
  | call (c : Call) : Offered (Script.request c)
  | runEntry (entry : Path) (context? : Option ContextId) : Offered (Script.runEntry entry context?)
  | importModule (referrer : Referrer) (specifier : String) :
      Offered (Script.importModule referrer specifier)

theorem Script.Offered.failsWithin (hE : ∀ e : Error, ¬ e.IsMove → E e) {s : Script σ η α}
    (h : s.Offered) : s.FailsWithin E fun _ => True := by
  cases h with
  | call c => exact failsWithin_request c
  | runEntry entry context? => exact failsWithin_runEntry (fun _ => hE _ fun h => h) entry context?
  | importModule referrer specifier => exact failsWithin_importModule referrer specifier

/-- A record has a namespace just when it is evaluated and a reason just when it has failed, at
every point at which a run may be stopped. What has been linked has its dependencies, which have
been linked themselves, and what is evaluated has them evaluated. No record ever moves but as it
may, and no call fails because of a move unless code makes that error up. -/
theorem record_lifecycle (host : Host σ η) (store : σ) (depth : Nat) (p : Program σ η α)
    (s : State σ η) (hs : s = (host.exec depth p (State.initial store)).2) :
    (∀ (r : RecordId) a, s.records[r.index]? = some a →
      (a.phase.namespace?.isSome ↔ a.status = .evaluated) ∧
      (a.phase.failure?.isSome ↔ a.status = .errored) ∧
      (a.status = .linked ∨ a.status = .evaluating ∨ a.status = .evaluated →
        a.dependencies.map Prod.fst = a.requests ∧
        ∀ dep ∈ a.dependencies, ∃ c, s.records[dep.2.index]? = some c ∧
          c.status ≠ .unlinked ∧ c.status ≠ .linking ∧
          (a.status = .evaluated → c.status = .evaluated))) ∧
    (∀ (β : Type) (depth' : Nat) (more : Program σ η β) (r : RecordId) a,
      s.records[r.index]? = some a →
      ∃ b, (host.exec depth' more s).2.records[r.index]? = some b ∧
        Relation.ReflTransGen (fun x y => x.canMove y = true) a.status b.status ∧
        (∀ n, a.phase.namespace? = some n → b.phase.namespace? = some n) ∧
        (∀ reason, a.phase.failure? = some reason → b.phase.failure? = some reason)) ∧
    (host.FailsWithin (fun e => ¬ e.IsMove) → p.FailsWithin (fun e => ¬ e.IsMove) (fun _ => True) →
      ∀ (β : Type) (depth' : Nat) (op : Script σ η β), op.Offered → ∀ e t,
        (op.exec (serve host depth')).runIn s = (.error (.error e), t) → ¬ e.IsMove) := by
  have hfree := host.failsWithin_true.codeFailsWithin fun _ _ => trivial
  have hgood : s.Good host (fun _ => True) (Compiled.FailsWithin fun _ => True) :=
    hs ▸ host.good_exec hfree depth (p.failsWithin_of_forall fun _ => trivial) store
  have hformed : ∀ (r : RecordId) a, s.record? r = some a → a.phase.WellFormed :=
    fun _ _ ha => hgood.formed ha
  refine ⟨fun r a ha => ⟨(hformed r a ha).isSome_namespace?, (hformed r a ha).isSome_failure?, ?_⟩,
    ?_, ?_⟩
  · intro hstatus
    have hwhole : a.status.isWhole = true := by
      rcases hstatus with h | h | h <;> rw [h] <;> rfl
    refine ⟨(hgood.sound.kept r a ha).whole hwhole, fun dep hdep => ?_⟩
    obtain ⟨c, hc, hedge⟩ := hgood.sound.edge r a ha dep hdep
    refine ⟨c, hc, ?_, ?_, hedge.evaluated⟩
    · exact Status.ne_unlinked_of_isSettled hedge.settled
    · exact Status.ne_linking_of_isSettled hedge.settled
  · intro β depth' more r a ha
    have hmore := host.leads_exec hfree depth'
      (more.failsWithin_of_forall fun _ => trivial) hgood
    obtain ⟨b, hb, hab⟩ := hmore.1.2.grows r a ha
    refine ⟨b, hb, hab.status, fun n hn => ?_, fun reason hreason => ?_⟩
    · rw [hab.final ((hformed r a ha).isTerminal_of_namespace? hn)]
      exact hn
    · rw [hab.final ((hformed r a ha).isTerminal_of_failure? hreason)]
      exact hreason
  · intro hhost hp β depth' op hop e t hrun
    have hwithin := hhost.codeFailsWithin fun _ h => h
    have hgood : s.Good host (fun e => ¬ e.IsMove) (Compiled.FailsWithin fun e => ¬ e.IsMove) :=
      hs ▸ host.good_exec hwithin depth hp store
    have hop := host.leads_op hwithin depth' (hop.failsWithin fun _ h => h) hgood
    have hends := hop.2
    rw [hrun] at hends
    exact hends

/-- A host with one file, of which the module imports a built-in twice, and once more while it runs,
and exports nothing. -/
def twiceImporting : Host Unit Empty where
  files := ⟨[(["a.mjs"], .file (some ""))]⟩
  config := {}
  builtins := ⟨"node:", [("b", .done .undefined)]⟩
  linkerBuiltins? := none
  scriptContext := ⟨0⟩
  compile _ _ := pure ⟨["b", "b"], fun env => Script.importModule env.importer "b"⟩
  runScript _ _ := pure ()
  hook h := nomatch h
  lookup? := none

def twiceRun : Program Unit Empty (Except Error RecordId) := (Script.runEntry ⟨"/a.mjs"⟩ none).run

theorem failsWithin_twiceImporting : twiceImporting.FailsWithin fun e => ¬ e.IsMove where
  compile _ _ := fun env => Script.failsWithin_importModule env.importer "b"
  script _ _ := trivial
  lookup _ hf := nomatch hf
  provider b hb name p hp := by
    obtain rfl : b = twiceImporting.builtins := by
      rcases List.mem_cons.1 hb with rfl | hb
      · rfl
      · exact List.mem_singleton.1 hb
    obtain ⟨key, hmem⟩ := Registry.exists_mem_of_find? hp
    obtain ⟨-, rfl⟩ := Prod.mk.inj (List.mem_singleton.1 hmem)
    trivial
  before h := nomatch h
  after h := nomatch h

/-- Running the file leaves its record evaluated, with two dependencies that are evaluated too; it
stays so whatever is run next, and asking for it to be linked again does not fail because of a
move. -/
theorem record_lifecycle_twiceImporting :
    let s := (twiceImporting.exec 2 twiceRun (State.initial ())).2
    (∃ a, s.records[0]? = some a ∧ a.status = .evaluated ∧
      a.dependencies.map Prod.fst = ["b", "b"] ∧
      ∀ dep ∈ a.dependencies, ∃ c, s.records[dep.2.index]? = some c ∧ c.status = .evaluated) ∧
    (∀ (depth : Nat) (more : Program Unit Empty Unit),
      ∃ b, (twiceImporting.exec depth more s).2.records[0]? = some b ∧ b.phase.namespace?.isSome) ∧
    ∀ depth e t, ((Script.request (.linkModule ⟨0⟩) : Script Unit Empty Unit).exec
      (serve twiceImporting depth)).runIn s = (.error (.error e), t) → ¬ e.IsMove := by
  intro s
  obtain ⟨hnow, hlater, hmoves⟩ := record_lifecycle twiceImporting () 2 twiceRun s rfl
  have hstatus : s.records[0]?.map (fun a => (a.status, a.requests)) =
      some (.evaluated, ["b", "b"]) := by decide +kernel
  obtain ⟨a, ha, hpair⟩ := Option.map_eq_some_iff.1 hstatus
  obtain ⟨hevaluated, hrequests⟩ := Prod.mk.inj hpair
  obtain ⟨hnamespace, -, hwhole⟩ := hnow ⟨0⟩ a ha
  obtain ⟨hdeps, hchildren⟩ := hwhole (Or.inr (Or.inr hevaluated))
  refine ⟨⟨a, ha, hevaluated, hdeps.trans hrequests, fun dep hdep => ?_⟩, ?_, ?_⟩
  · obtain ⟨c, hc, -, -, hdone⟩ := hchildren dep hdep
    exact ⟨c, hc, hdone hevaluated⟩
  · intro depth more
    obtain ⟨b, hb, -, hkept, -⟩ := hlater Unit depth more ⟨0⟩ a ha
    obtain ⟨n, hn⟩ := Option.isSome_iff_exists.1 (hnamespace.2 hevaluated)
    exact ⟨b, hb, Option.isSome_iff_exists.2 ⟨n, hkept n hn⟩⟩
  · intro depth e t hrun
    have hrun' : twiceRun.FailsWithin (fun e => ¬ e.IsMove) fun _ => True :=
      (Script.failsWithin_runEntry (fun _ h => h) _ _).imp fun _ _ => trivial
    exact hmoves failsWithin_twiceImporting hrun' Unit depth _ (.call _) e t hrun

end ModuleLoader
