import ModuleLoader.Proofs.Lifecycle
import ModuleLoader.Proofs.Scripted
import ModuleLoader.Proofs.HiddenRecords
/-!
Linking unfolds the graph of imports into a tree.

A record that has been linked has one record below it for each of its requests,
and each of these is what its specifier means to the record. Nothing is shared:
what several modules import, or one module imports several times, is there once
for every way on which it is found. The records below a record are made by the
linker and handed to nobody. So they are all linked, and no further, when the linker
is done, unless code that it has run goes by the dependencies of a record that is
being linked and evaluates what it finds there.
-/

namespace ModuleLoader

open Eff

variable {σ η α : Type}

namespace ModuleRecord

/-- The second record is what linking the specifier for the first one comes to, whenever it is done
and whoever does it. -/
structure ChildOf (host : Host σ η) (b : ModuleRecord σ η) (specifier : String)
    (c : ModuleRecord σ η) : Prop where
  context : c.context = b.context
  lineage : c.lineage = b.lineage ++ [b.identifier]
  target : Linker.target host specifier b.referrer = .ok (c.dispatch, c.identifier)
  linked : ∀ depth (m : State σ η) x m',
    (serve host depth (.link specifier b.referrer)).runIn m = (.ok x, m') →
    ∃ c', m'.records[x.index]? = some c' ∧ c'.dispatch = c.dispatch ∧ c'.identifier = c.identifier

/-- A record that has been linked, with what has been linked for it. -/
structure Unfolds (host : Host σ η) (t : State σ η) (context : ContextId)
    (b : ModuleRecord σ η) : Prop where
  context : b.context = context
  settled : b.status.isSettled = true
  requests : b.dependencies.map Prod.fst = b.requests
  leaf : ∀ m, b.kind = .synthetic m → b.dependencies = []
  child : ∀ dep ∈ b.dependencies, ∃ c, t.records[dep.2.index]? = some c ∧ b.ChildOf host dep.1 c

/-- A specifier has one target, so every link of it comes to the same. -/
theorem childOf_of_target {host : Host σ η} {b c : ModuleRecord σ η} {specifier : String}
    (hcontext : c.context = b.context) (hlineage : c.lineage = b.chain)
    (htarget : Linker.target host specifier b.referrer = .ok (c.dispatch, c.identifier)) :
    b.ChildOf host specifier c where
  context := hcontext
  lineage := hlineage
  target := htarget
  linked depth m x m' hrun := by
    cases depth with
    | zero => simp [serve] at hrun
    | succ depth =>
        obtain ⟨name, kind, m, rfl, rfl, htarget'⟩ := Linker.link_eq_ok hrun
        rw [htarget, Except.ok.injEq, Prod.mk.injEq] at htarget'
        exact ⟨_, State.records_add_next m _, htarget'.1.symm, htarget'.2.symm⟩

theorem Edge.childOf {host : Host σ η} {r : RecordId} {b c : ModuleRecord σ η}
    {dep : String × RecordId} (h : Edge host r b dep c) : b.ChildOf host dep.1 c :=
  childOf_of_target h.context h.lineage h.target

end ModuleRecord

namespace State

variable {host : Host σ η} {t : State σ η} {r x : RecordId} {a : ModuleRecord σ η}

/-- All that is found from a record that has been linked has been linked too, as a tree. -/
theorem Sound.unfolds_of_along (h : t.Sound host) {path : List Nat} (ha : t.record? r = some a)
    (hsettled : a.status.isSettled = true) (hcomplete : a.dependencies.map Prod.fst = a.requests)
    (hx : t.along r path = some x) :
    ∃ b, t.record? x = some b ∧ b.Unfolds host t a.context := by
  induction path generalizing r a with
  | nil =>
      cases hx
      refine ⟨a, ha, rfl, hsettled, hcomplete, fun m hm => ?_, fun dep hdep => ?_⟩
      · rw [ModuleRecord.requests, hm] at hcomplete
        exact List.map_eq_nil_iff.1 hcomplete
      · obtain ⟨c, hc, hedge⟩ := h.edge x a ha dep hdep
        exact ⟨c, hc, hedge.childOf⟩
  | cons i path ih =>
      obtain ⟨dep, hdep, hrest⟩ := along_cons_eq_some.1 hx
      rw [dependenciesOf_eq ha] at hdep
      obtain ⟨c, hc, hedge⟩ := h.edge r a ha dep (List.mem_of_getElem? hdep)
      rw [← hedge.context]
      exact ih hc hedge.settled hedge.complete hrest

/-- All that is below a record unfolds, whatever has become of the record. -/
theorem Sound.unfolds_of_mem (h : t.Sound host) {f : Forest} (ha : t.record? r = some a)
    (hedges : a.dependencies = f.edges) (hf : f.Stands t) (hx : x ∈ f.postorder) :
    ∃ b, t.record? x = some b ∧ b.Unfolds host t a.context := by
  obtain ⟨i, dep, path, hdep, hpath⟩ := hf.mem_postorder.1 hx
  rw [← hedges] at hdep
  obtain ⟨c, hc, hedge⟩ := h.edge r a ha dep (List.mem_of_getElem? hdep)
  rw [← hedge.context]
  exact h.unfolds_of_along hc hedge.settled hedge.complete hpath

/-- As what is below a record is settled, nothing is added there any more. -/
theorem Sound.stands_of_grows {u : State σ η} (h : t.Sound host) {f : Forest}
    (ha : t.record? r = some a) (hedges : a.dependencies = f.edges) (hf : f.Stands t)
    (hgrows : ∀ y b, t.record? y = some b → ∃ c, u.record? y = some c ∧ b.Grows c) :
    f.Stands u := by
  refine hf.grown hgrows fun y hy b hb => ?_
  obtain ⟨c, hc, hunfolds⟩ := h.unfolds_of_mem ha hedges hf hy
  obtain rfl : b = c := by simpa [hb] using hc
  exact hunfolds.settled

end State

/-- What is found from a record that has been linked is a finite tree, with a record for each
request in order, in one context and with lineages that grow by one name. Each has been linked, and
is of the kind and the name that linking its specifier comes to. It is just linked unless code has
reached and evaluated it meanwhile. -/
theorem linking_unfolds (host : Host σ η) (store : σ) (depth : Nat) (p : Program σ η α)
    (s : State σ η) (hs : s = (host.exec depth p (State.initial store)).2) (r : RecordId)
    (a : ModuleRecord σ η) (ha : s.records[r.index]? = some a) (hunlinked : a.status = .unlinked)
    (depth' : Nat) (t : State σ η)
    (hrun : (serve host depth' (.linkModule r)).runIn s = (.ok (), t)) :
    ∃ f : Forest,
      (∃ b, t.records[r.index]? = some b ∧ b.status = .linked ∧ b.dependencies = f.edges) ∧
      f.Stands t ∧
      (r :: f.postorder).Nodup ∧
      (∀ x, x ∈ r :: f.postorder ↔ ∃ path, t.along r path = some x) ∧
      (∀ x path path', t.along r path = some x → t.along r path' = some x → path = path') ∧
      (∀ x ∈ r :: f.postorder, ∃ b, t.records[x.index]? = some b ∧ b.Unfolds host t a.context) ∧
      ∀ names : σ → RecordId → Prop, (∀ x, names s.store x → x.index < s.records.size) →
        host.EvaluatesKnown names (fun x => x.index < s.records.size) →
        ∀ x ∈ r :: f.postorder, ∃ b, t.records[x.index]? = some b ∧ b.status = .linked := by
  have ha : s.record? r = some a := ha
  have hfree := host.failsWithin_true.codeFailsWithin fun _ _ => trivial
  have hgood : s.Good host (fun _ => True) (Compiled.FailsWithin fun _ => True) :=
    hs ▸ host.good_exec hfree depth (p.failsWithin_of_forall fun _ => trivial) store
  have hphase : a.phase = .unlinked := (hgood.formed ha).eq_of_status hunlinked rfl
  obtain ⟨⟨ht, hst⟩, -⟩ :=
    ((keepsGood_serve hfree depth').call (.linkModule r) s hgood).of_eq_ok hrun
  obtain ⟨b, hb, hlinked⟩ : ∃ b, t.record? r = some b ∧ b.status = .linked := by
    cases depth' with
    | zero => simp [serve] at hrun
    | succ depth' =>
        obtain ⟨a', ha', hafter⟩ := Linker.linkModule_eq_ok hrun
        obtain rfl : a = a' := by simpa [ha] using (show s.record? r = some a' from ha')
        obtain ⟨u, b, -, hb, rfl⟩ := hafter hphase
        exact ⟨_, State.record?_setPhaseIn hb _, rfl⟩
  have hcomplete := (ht.sound.kept r b hb).whole (by rw [hlinked]; rfl)
  have hcontext : b.context = a.context := by
    obtain ⟨b', hb', hgrows⟩ := hst.grows r a ha
    obtain rfl : b = b' := by simpa [hb] using hb'
    exact hgrows.context
  obtain ⟨f, hedges, hf⟩ := ht.sound.exists_forest hb
  have hmem : ∀ x, x ∈ r :: f.postorder ↔ ∃ path, t.along r path = some x :=
    fun x => State.mem_tree_iff hb hf hedges
  refine ⟨f, ⟨b, hb, hlinked, hedges⟩, hf, ht.sound.nodup_tree hb hf hedges, hmem,
    fun x path path' => ht.sound.along_inj, fun x hx => ?_, fun names hnames hevaluates x hx => ?_⟩
  · obtain ⟨path, hpath⟩ := (hmem x).1 hx
    rw [← hcontext]
    exact ht.sound.unfolds_of_along hb (by rw [hlinked]; rfl) hcomplete hpath
  · -- nothing needs to be hidden for nobody to know of what is still to be made
    have hdgood : s.Good host (fun _ => True)
        (Compiled.EvaluatesKnown names fun x => x.index < s.records.size) := by
      have hexec := host.good_exec hevaluates.codeFailsWithin depth
        (p.failsWithin_of_forall fun _ => trivial) store
      rwa [← hs] at hexec
    obtain ⟨g, b', hb', -, hedges', hg, hglinked, -⟩ :=
      (sparesHidden_serve hevaluates depth').linkModule _
      r s a t hdgood (State.hides_nothing hnames) ha hphase hrun
    obtain rfl : b = b' := by simpa [hb] using hb'
    obtain rfl := hf.unique hg (hedges.symm.trans hedges')
    rcases List.mem_cons.1 hx with rfl | hx
    · exact ⟨b, hb, hlinked⟩
    · exact hglinked x hx

/-- A scripted world with one file. It is a module that imports a built-in twice, and once more
while it runs. -/
def twiceWorld : Host Scripted.Session Scripted.HookPlan :=
  Scripted.host
    ⟨[(["a.mjs"],
      .file (some "[[\"import\", \"b\"], [\"import\", \"b\"], [\"dynimport\", \"x\", \"b\"]]"))]⟩
    {} ⟨"node:", [("b", .constant .undefined)]⟩ none ⟨0⟩

def twiceBuild : Program Scripted.Session Scripted.HookPlan (Except Error RecordId) :=
  Program.attempt (.buildSource "/a.mjs" (.root "/a.mjs" ⟨0⟩))

/-- Linking the record of the file gives it two records for the one built-in, all linked. -/
theorem linking_unfolds_twiceWorld :
    let s := (twiceWorld.exec 1 twiceBuild (State.initial .initial)).2
    let t := ((serve twiceWorld 2 (.linkModule ⟨0⟩)).runIn s).2
    ∃ f : Forest, f.edges.map Prod.fst = ["b", "b"] ∧ f.Stands t ∧
      (⟨0⟩ :: f.postorder).Nodup ∧
      ∀ x ∈ ⟨0⟩ :: f.postorder, ∃ b, t.records[x.index]? = some b ∧ b.status = .linked := by
  intro s t
  have hbefore : s.records[0]?.map (fun a => (a.status, a.requests)) =
      some (.unlinked, ["b", "b"]) := by decide +kernel
  obtain ⟨a, ha, hpair⟩ := Option.map_eq_some_iff.1 hbefore
  obtain ⟨hunlinked, -⟩ := Prod.mk.inj hpair
  have hend : ((serve twiceWorld 2 (.linkModule ⟨0⟩)).runIn s).1.toOption = some () := by
    decide +kernel
  have hrun : (serve twiceWorld 2 (.linkModule ⟨0⟩)).runIn s = (.ok (), t) :=
    runIn_eq_ok_of_toOption hend
  have hafter : t.records[0]?.map (fun b => b.dependencies.map Prod.fst) =
      some ["b", "b"] := by decide +kernel
  have hs : s = (twiceWorld.exec 1 twiceBuild (State.initial .initial)).2 := rfl
  clear_value t
  clear_value s
  obtain ⟨f, ⟨b, hb, -, hedges⟩, hf, hnodup, -, -, -, hlinked⟩ :=
    linking_unfolds twiceWorld .initial 1 twiceBuild s hs ⟨0⟩ a ha hunlinked 2 t hrun
  refine ⟨f, ?_, hf, hnodup,
    hlinked _ (fun _ hx => hx.elim) (Scripted.evaluatesKnown_constant _ _ _ _ _ _)⟩
  rw [← hedges]
  rw [hb] at hafter
  exact Option.some.inj hafter

/-- A built-in that goes back to a module that is being linked, once, and has the first record below
it evaluated. -/
def reentrantProvider : Program (Option RecordId) Empty Value := do
  match ← Program.perform .store with
  | none => return .undefined
  | some r =>
    match ← Program.perform (.dependencies r) with
    | some ((_, child) :: _) =>
      let _ ← Program.attempt (.evaluate child)
      Program.perform (.modifyStore fun _ => none)
      return .undefined
    | _ => return .undefined

/-- An engine that compiles what these modules import only until the built-in has done so. -/
def reentrantCompile (text : String) :
    Script (Option RecordId) Empty (Compiled (Option RecordId) Empty) := do
  let body (_ : ModuleEnvironment) : Script (Option RecordId) Empty Namespace :=
    Script.perform (.newNamespace .empty)
  match text with
  | "whole" => return ⟨["./c.mjs", "b"], body⟩
  | "broken" => return ⟨["./c.mjs", "b", "./d.mjs"], body⟩
  | _ =>
    match ← Script.perform .store with
    | some _ => return ⟨[], body⟩
    | none => throw (.engine "late")

/-- One module imports another and the built-in, and one also imports a file that is not there. -/
def reentrantWorld : Host (Option RecordId) Empty where
  files := ⟨[(["whole.mjs"], .file (some "whole")), (["broken.mjs"], .file (some "broken")),
    (["c.mjs"], .file (some "c")), (["z.cjs"], .file (some ""))]⟩
  config := {}
  builtins := ⟨"node:", [("b", reentrantProvider)]⟩
  linkerBuiltins? := none
  scriptContext := ⟨0⟩
  compile text _ := reentrantCompile text
  runScript _ _ := pure ()
  hook h := nomatch h
  lookup? := none

def reentrantBuild (entry : String) : Program (Option RecordId) Empty Unit := do
  let _ ← Program.attempt (.require ⟨"/z.cjs", ⟨"/main.cjs"⟩⟩)
  let built ← Program.attempt (.buildSource entry (.root entry ⟨0⟩))
  Program.perform (.modifyStore fun _ => built.toOption)

/-- The module is linked, and the first record below it has been evaluated already. Linking the
specifier of that one once more fails. -/
theorem linked_child_is_evaluated :
    let s := (reentrantWorld.exec 2 (reentrantBuild "/whole.mjs") (State.initial none)).2
    let linked := (serve reentrantWorld 4 (.linkModule ⟨0⟩)).runIn s
    s.records.toList.map ModuleRecord.status = [.unlinked] ∧
    linked.1.toOption = some () ∧
    linked.2.records.toList.map (fun b => (b.identifier, b.status, b.dependencies)) =
      [("/whole.mjs", .linked, [("./c.mjs", ⟨1⟩), ("b", ⟨2⟩)]), ("/c.mjs", .evaluated, []),
        ("b", .linked, [])] ∧
    error? ((serve reentrantWorld 4
      (.link "./c.mjs" ⟨"/whole.mjs", ⟨0⟩, ["/whole.mjs"]⟩)).runIn linked.2).1 =
        some (.engine "late") := by
  decide +kernel

end ModuleLoader
