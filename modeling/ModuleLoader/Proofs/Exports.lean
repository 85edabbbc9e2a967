import ModuleLoader.Proofs.Bodies
import ModuleLoader.Proofs.Cells
import ModuleLoader.Proofs.RunInvariant
/-!
What a synthetic module exports.

A synthetic record is made of a value that others have too, and that they may go on
changing. It takes from the value at two moments. The names of its exports are the
keys that the value has when the record is built, in the order in which it has them,
and what the names stand for is what the value has under them when the record is
evaluated. In between keys may go and come back. That changes their order in the
value, and what is found under them, but the names have been taken already: a key
that has gone is exported as undefined, and one that has come is not exported.

From then on the record has its namespace. A namespace does not refer to the value
it was taken from, so it does not matter what becomes of that.
-/

namespace ModuleLoader

open Eff

variable {σ η α : Type}

/-! ### Maps of given keys -/

namespace OrderedMap

theorem nodup_keys_ofList (pairs : List (String × α)) : (ofList pairs).keys.Nodup := by
  induction pairs using List.reverseRecOn with
  | nil => exact List.nodup_nil
  | append_singleton pairs p ih =>
      rw [ofList_concat]
      exact nodup_keys_insert ih p.1 p.2

/-- A map that is made of distinct keys lists them in the order in which they were given. -/
theorem keys_ofList_map (f : String → α) {names : List String} (h : names.Nodup) :
    (ofList (names.map fun key => (key, f key))).keys = names := by
  induction names using List.reverseRecOn with
  | nil => rfl
  | append_singleton names key ih =>
      obtain ⟨hnames, -, hnew⟩ := List.nodup_append.1 h
      have hmem : key ∉ names := fun hmem => hnew key hmem key (List.mem_singleton_self key) rfl
      rw [List.map_append, List.map_singleton, ofList_concat, keys_insert, ih hnames, if_neg hmem]

theorem find?_ofList_map (f : String → α) (names : List String) (key : String) :
    (ofList (names.map fun key => (key, f key))).find? key =
      if key ∈ names then some (f key) else none := by
  induction names using List.reverseRecOn with
  | nil => rfl
  | append_singleton names last ih =>
      rw [List.map_append, List.map_singleton, ofList_concat, find?_insert, ih]
      by_cases hlast : key = last
      · simp [hlast]
      · simp [hlast]

end OrderedMap

/-! ### Objects list each key once -/

/-- No object has two properties of one name. -/
def Heap.Distinct (h : Heap) : Prop := ∀ o, (h.properties o).keys.Nodup

namespace Heap.Distinct

variable {h : Heap}

theorem empty : Heap.empty.Distinct := fun _ => List.nodup_nil

theorem newObject (hh : h.Distinct) {ps : Properties} (hps : ps.keys.Nodup) :
    (h.newObject ps).2.Distinct := by
  intro o
  rw [Heap.properties, Heap.newObject, Array.getElem?_push]
  split
  · exact hps
  · exact hh o

theorem setProperties (hh : h.Distinct) (o : ObjectRef) {ps : Properties} (hps : ps.keys.Nodup) :
    (h.setProperties o ps).Distinct := by
  intro p
  by_cases ho : o.index < h.objects.size
  · rw [h.properties_setProperties o p ps ho]
    split
    · exact hps
    · exact hh p
  · rw [Heap.setProperties, Array.setIfInBounds_eq_of_size_le (Nat.le_of_not_lt ho)]
    exact hh p

mutual

theorem make : (l : Literal) → {h : Heap} → h.Distinct → (l.make h).2.Distinct
  | .undefined, _, hh | .null, _, hh | .boolean _, _, hh | .number _, _, hh | .string _, _, hh
  | .existing _, _, hh => by
      rw [Literal.make]
      exact hh
  | .native _ _, _, hh => by
      rw [Literal.make]
      exact hh
  | .moduleNamespace fields, _, hh => by
      rw [Literal.make]
      exact makeFields fields hh
  | .object fields, _, hh => by
      rw [Literal.make]
      exact (makeFields fields hh).newObject (OrderedMap.nodup_keys_ofList _)

theorem makeFields : (fields : List (String × Literal)) → {h : Heap} → h.Distinct →
    (Literal.makeFields fields h).2.Distinct
  | [], _, hh => by
      rw [Literal.makeFields]
      exact hh
  | (_, l) :: rest, _, hh => by
      rw [Literal.makeFields]
      exact makeFields rest (make l hh)

end

end Heap.Distinct

/-- Nothing that a loader does, or runs, gives an object a second property of one name. -/
theorem survives_distinct (host : Host σ η) : Survives (fun s => s.heap.Distinct) host where
  emit _ _ _ hs := hs
  action a s hs := by
    cases a with
    | make l => exact .make l hs
    | setProperty o key value =>
        exact hs.setProperties o (OrderedMap.nodup_keys_insert (hs o) key value)
    | deleteProperty o key => exact hs.setProperties o (OrderedMap.nodup_keys_erase (hs o) key)
    | newContext name? => exact hs.newObject List.nodup_nil
    | _ => exact hs
  addChild _ _ _ hs := hs
  enter _ _ _ _ hs := hs.newObject List.nodup_nil
  leave _ _ outcome hs := by cases outcome <;> exact hs
  parse _ _ _ _ hs := hs
  add _ _ _ hs := hs
  modifyRecord _ _ _ _ hs := hs

/-- What holds of the states that a loader comes to from an empty one, whatever it runs. -/
structure State.Regular (host : Host σ η) (s : State σ η) : Prop where
  good : s.Good host (fun _ => True) (Compiled.FailsWithin fun _ => True)
  distinct : s.heap.Distinct

theorem State.regular_initial (host : Host σ η) (store : σ) :
    (State.initial store).Regular host :=
  ⟨State.good_initial store, .empty⟩

/-- Whatever is run on such a state leads to one again, and its records have only grown. -/
theorem State.Regular.exec {host : Host σ η} {s : State σ η} (hs : s.Regular host) (depth : Nat)
    (p : Program σ η α) :
    (host.exec depth p s).2.Regular host ∧ State.Follows s (host.exec depth p s).2 := by
  have hlead := host.leads_exec (host.failsWithin_true.codeFailsWithin fun _ _ => trivial) depth
    (p.failsWithin_of_forall fun _ => trivial) hs.good
  exact ⟨⟨hlead.1.1, (survives_distinct host).exec depth p hs.distinct⟩, hlead.1.2⟩

theorem State.Regular.serve {host : Host σ η} {s : State σ η} (hs : s.Regular host) (depth : Nat)
    (c : Call) : ((ModuleLoader.serve host depth c).runIn s).2.Regular host ∧
      State.Follows s ((ModuleLoader.serve host depth c).runIn s).2 := by
  have hsame : (host.exec depth (Program.attempt c) s).2 =
      ((ModuleLoader.serve host depth c).runIn s).2 := by
    change (((ModuleLoader.serve host depth c).settle >>= Pure.pure).runIn s).2 = _
    rw [bind_pure, runIn_settle]
    split <;> simp_all
  exact hsame ▸ hs.exec depth (Program.attempt c)

/-! ### Exports -/

/-- The names under which a value is exported at the moment. -/
def Heap.exportNames (h : Heap) (mode : ExportMode) (origin : Value) : List String :=
  match mode, origin with
  | .ownKeys, .object o => (h.properties o).keys
  | .ownKeys, .moduleNamespace n => n.contents.keys
  | _, _ => ["default"]

/-- What is exported of a value under a name at the moment. -/
def Heap.exported (h : Heap) (mode : ExportMode) (origin : Value) (key : String) : Value :=
  match mode, origin with
  | .ownKeys, .object o => ((h.properties o).find? key).getD .undefined
  | .ownKeys, .moduleNamespace n => (n.contents.find? key).getD .undefined
  | _, _ => origin

theorem Heap.Distinct.nodup_exportNames {h : Heap} (hh : h.Distinct)
    (mode : ExportMode) {origin : Value}
    (hnamespace : ∀ n : Namespace, origin = .moduleNamespace n → n.names.Nodup) :
    (h.exportNames mode origin).Nodup := by
  unfold Heap.exportNames
  split
  · exact hh _
  · exact hnamespace _ rfl
  · exact List.pairwise_singleton _ _

namespace Linker

variable {host : Host σ η} {serve : (c : Call) → Eff σ η c.Reply} {r : RecordId} {s : State σ η}
  {a : ModuleRecord σ η}

theorem exportNames_wrap (mode : ExportMode) (h : Heap) (origin : Value) :
    (wrap mode h origin).exportNames = h.exportNames mode origin := by
  cases mode <;> cases origin <;> rfl

theorem snapshot_wrap (mode : ExportMode) (h h' : Heap) (origin : Value) :
    (wrap mode h origin).snapshot h' =
      .ofList ((h.exportNames mode origin).map fun key => (key, h'.exported mode origin key)) := by
  cases mode <;> cases origin <;> rfl

theorem distinct_of_originOf {depth : Nat} {specifier : String} {referrer : Referrer}
    {o : Except Fault (String × Value)} {m : State σ η} (hs : s.heap.Distinct)
    (h : (originOf host (ModuleLoader.serve host depth) specifier referrer).runIn s = (o, m)) :
    m.heap.Distinct := by
  have hsurvives := survives_distinct host
  have hkept : Eff.Stays (fun s => s.heap.Distinct) (fun _ => True)
      (originOf host (ModuleLoader.serve host depth) specifier referrer) :=
    (hsurvives.runInvariant (hsurvives.serve depth)).originOf specifier
  have hend := (hkept s hs).1
  rwa [h] at hend

theorem runIn_buildSynthetic {specifier name : String} {referrer : Referrer} {origin : Value}
    {m : State σ η} (h : (originOf host serve specifier referrer).runIn s =
      (.ok (name, origin), m)) :
    (buildSynthetic host serve specifier referrer).runIn s =
      (.ok m.next,
        m.add (.fresh name referrer (.synthetic (wrap host.config.exportMode m.heap origin)))) := by
  rw [buildSynthetic, runIn_bind, h]
  rfl

/-- A record that requests nothing is linked at once. -/
theorem runIn_linkModule_of_requests_eq_nil (ha : s.record? r = some a)
    (hphase : a.phase = .unlinked)
    (hrequests : a.requests = []) :
    ∃ v, (linkModule host serve r).runIn s = (.ok (), v) ∧ State.Evolves (fun _ => True) s v ∧
      v.heap = s.heap ∧ v.record? r = some { a with phase := .linked } := by
  have hbegin : a.status.canMove Phase.linking.status = true := by
    rw [ModuleRecord.status, hphase]
    rfl
  have hm := State.record?_setPhaseIn ha .linking
  have hwork : (linkRequests host serve r a.referrer []).runIn (setPhaseIn s r .linking) =
      (.ok (), setPhaseIn s r .linking) := rfl
  refine ⟨setPhaseIn (setPhaseIn s r .linking) r .linked, ?_,
    ((State.Evolves.refl s).setPhase ha trivial hbegin .linking).setPhase hm trivial rfl .linked,
      rfl,
    State.record?_setPhaseIn hm _⟩
  rw [runIn_linkModule_of_unlinked ha hphase, hrequests, runIn_bind, runIn_onBehalf_of_ok hwork]
  exact runIn_transition_of_phase hm rfl rfl

variable (serve) in
/-- A synthetic record is evaluated at once, and then it has its namespace. -/
theorem runIn_evaluate_synthetic {w : SyntheticModule} (ha : s.record? r = some a)
    (hphase : a.phase = .linked) (hkind : a.kind = .synthetic w) :
    ∃ n v, (evaluate serve r).runIn s = (.ok n, v) ∧ n.contents = w.snapshot s.heap ∧
      v.record? r = some { a with phase := .evaluated n } := by
  let taken := (Action.newNamespace (w.snapshot s.heap)).carryOut (setPhaseIn s r .evaluating)
  have hwork :
      (evaluateKind serve r a).runIn (setPhaseIn s r .evaluating) = (.ok taken.1, taken.2) := by
    rw [evaluateKind, hkind]
    rfl
  have hm : taken.2.record? r = some { a with phase := .evaluating } :=
    State.record?_setPhaseIn ha .evaluating
  refine ⟨taken.1, setPhaseIn taken.2 r (.evaluated taken.1), ?_, rfl,
    State.record?_setPhaseIn hm _⟩
  rw [runIn_evaluate_of_linked ha hphase, runIn_bind, runIn_onBehalf_of_ok hwork]
  dsimp only
  rw [runIn_bind, runIn_complete_of_phase _ hm rfl rfl]
  rfl

end Linker

/-- A synthetic module exports the names that its value had when it was wrapped, with what the value
has under them when the module is evaluated. Nothing that is done to the value later shows. The
records only grow in between, as they do in whatever the loader runs. -/
theorem synthetic_exports_are_faithful (host : Host σ η) (depth : Nat) (specifier name : String)
    (referrer : Referrer) (origin : Value) (s m : State σ η) (hs : s.heap.Distinct)
    (horigin : (Linker.originOf host (serve host depth) specifier referrer).runIn s =
      (.ok (name, origin), m))
    (hnamespace : ∀ n : Namespace, origin = .moduleNamespace n → n.names.Nodup) :
    let mode := host.config.exportMode
    let names := m.heap.exportNames mode origin
    (∀ x : State σ η, x.Regular host → ∀ d,
      (∀ c, ((serve host d c).runIn x).2.Regular host ∧
        State.Follows x ((serve host d c).runIn x).2) ∧
      ∀ (β : Type) (p : Program σ η β),
        (host.exec d p x).2.Regular host ∧ State.Follows x (host.exec d p x).2) ∧
    ∃ w : SyntheticModule, w.exportNames = names ∧
      (serve host (depth + 1) (.buildSynthetic specifier referrer)).runIn s =
        (.ok m.next, m.add (.fresh name referrer (.synthetic w))) ∧
      ∀ u, State.Evolves (fun _ => True) (m.add (.fresh name referrer (.synthetic w))) u →
        ∃ a, u.record? m.next = some a ∧ a.kind = .synthetic w ∧
        (a.status = .unlinked → ∀ d, ∃ v,
          (serve host (d + 1) (.linkModule m.next)).runIn u = (.ok (), v) ∧
          State.Evolves (fun _ => True) u v ∧ v.heap = u.heap ∧
          v.record? m.next = some { a with phase := .linked }) ∧
        (a.status = .linked → ∀ d, ∃ (n : Namespace) (v : State σ η),
          (serve host (d + 1) (.evaluate m.next)).runIn u = (.ok n, v) ∧ n.names = names ∧
          (∀ key, n.find? key =
            if key ∈ names then some (u.heap.exported mode origin key) else none) ∧
          ∀ t, State.Evolves (fun _ => True) v t →
            (∃ b, t.record? m.next = some b ∧ b.phase = .evaluated n) ∧
            ∀ d', (serve host (d' + 1) (.evaluate m.next)).runIn t = (.ok n, t)) := by
  intro mode names
  refine ⟨fun x hx d => ⟨hx.serve d, fun _ => hx.exec d⟩, Linker.wrap mode m.heap origin,
    Linker.exportNames_wrap mode m.heap origin, Linker.runIn_buildSynthetic horigin, fun u hu => ?_⟩
  have hdistinct : m.heap.Distinct := Linker.distinct_of_originOf hs horigin
  have hnames : names.Nodup := hdistinct.nodup_exportNames mode hnamespace
  obtain ⟨a, ha, hgrows⟩ := hu.grows m.next _ (State.records_add_next m _)
  have hkind : a.kind = .synthetic (Linker.wrap mode m.heap origin) := hgrows.kind
  have hformed : a.phase.WellFormed := hgrows.formed .unlinked
  refine ⟨a, ha, hkind, fun hstatus d => ?_, fun hstatus d => ?_⟩
  · have hrequests : a.requests = [] := by
      rw [ModuleRecord.requests, hkind]
    exact Linker.runIn_linkModule_of_requests_eq_nil ha (hformed.eq_of_status hstatus rfl) hrequests
  · obtain ⟨n, v, hrun, hn, hv⟩ :=
      Linker.runIn_evaluate_synthetic (serve host d) ha (hformed.eq_of_status hstatus rfl) hkind
    rw [Linker.snapshot_wrap] at hn
    refine ⟨n, v, hrun, ?_, fun key => ?_, fun t ht => ?_⟩
    · rw [Namespace.names, hn]
      exact OrderedMap.keys_ofList_map _ hnames
    · rw [Namespace.find?, hn]
      exact OrderedMap.find?_ofList_map _ names key
    · obtain ⟨b, hb, hphase⟩ := ht.final hv rfl
      exact ⟨⟨b, hb, hphase⟩, fun d' => Linker.runIn_evaluate_of_namespace? hb
        (congrArg Phase.status hphase) (congrArg Phase.namespace? hphase)⟩

/-- A host with one built-in, which gives everybody the same object. -/
def sharedObject : Host Unit Empty where
  files := ⟨[]⟩
  config := {}
  builtins := ⟨"node:", [("config", .done (.object ⟨0⟩))]⟩
  linkerBuiltins? := none
  scriptContext := ⟨0⟩
  compile _ _ := throw (.engine "")
  runScript _ _ := pure ()
  hook h := nomatch h
  lookup? := none

def beforeBuilding : Program Unit Empty Unit := do
  let _ ← Program.perform (.make (.object [("a", .string "1"), ("b", .string "2")]))
  Program.perform (.deleteProperty ⟨0⟩ "a")
  Program.perform (.setProperty ⟨0⟩ "a" (.string "3"))

def beforeEvaluating : Program Unit Empty Unit := do
  let _ ← Program.attempt (.linkModule ⟨0⟩)
  Program.perform (.deleteProperty ⟨0⟩ "b")
  Program.perform (.setProperty ⟨0⟩ "late" (.string "4"))
  Program.perform (.setProperty ⟨0⟩ "a" (.string "5"))

def afterEvaluating : Program Unit Empty Unit := do
  Program.perform (.setProperty ⟨0⟩ "b" (.string "6"))
  Program.perform (.deleteProperty ⟨0⟩ "a")

/-- The property that was set again comes second, the one that was deleted before evaluation is
exported as undefined, and the one that came late is not exported. Nothing that is done to the
object afterwards shows. -/
theorem synthetic_exports_are_faithful_sharedObject :
    let referrer := Referrer.root "/main.mjs" ⟨0⟩
    let s := (sharedObject.exec 0 beforeBuilding (State.initial ())).2
    let built := ((serve sharedObject 1 (.buildSynthetic "config" referrer)).runIn s).2
    let u := (sharedObject.exec 1 beforeEvaluating built).2
    let v := ((serve sharedObject 1 (.evaluate ⟨0⟩)).runIn u).2
    let t := (sharedObject.exec 0 afterEvaluating v).2
    u.heap.exportNames .ownKeys (.object ⟨0⟩) = ["a", "late"] ∧
    t.heap.exportNames .ownKeys (.object ⟨0⟩) = ["late", "b"] ∧
    ∃ w n, built.record? ⟨0⟩ = some (.fresh "config" referrer (.synthetic w)) ∧
      w.exportNames = ["b", "a"] ∧ (serve sharedObject 1 (.evaluate ⟨0⟩)).runIn u = (.ok n, v) ∧
      n.names = ["b", "a"] ∧ n.find? "a" = some (.string "5") ∧ n.find? "b" = some .undefined ∧
      n.find? "late" = none ∧ (serve sharedObject 1 (.evaluate ⟨0⟩)).runIn t = (.ok n, t) := by
  intro referrer s built u v t
  have hs : s.Regular sharedObject := ((State.regular_initial _ ()).exec 0 beforeBuilding).1
  have hbuilt : built.Regular sharedObject := (hs.serve 1 (.buildSynthetic "config" referrer)).1
  have hu := hbuilt.exec 1 beforeEvaluating
  have hv : v.Regular sharedObject := (hu.1.serve 1 (.evaluate ⟨0⟩)).1
  let found := s.emit (.provide "config")
  have hnames : found.heap.exportNames .ownKeys (.object ⟨0⟩) = ["b", "a"] := by decide +kernel
  obtain ⟨-, w, hw, hbuild, hlater⟩ :=
    synthetic_exports_are_faithful sharedObject 0 "config" "config"
    referrer (.object ⟨0⟩) s found hs.distinct rfl nofun
  rw [show found.next = ⟨0⟩ by decide +kernel] at hlater
  have hadded : built = found.add (.fresh "config" referrer (.synthetic w)) :=
    congrArg Prod.snd hbuild
  have hrecord : built.record? ⟨0⟩ = some (.fresh "config" referrer (.synthetic w)) := by
    rw [hadded]
    exact State.records_add_next _ _
  have hevolves : State.Evolves (fun _ => True)
      (found.add (.fresh "config" referrer (.synthetic w))) u := by
    rw [← hadded]
    exact .of_follows hu.2
  obtain ⟨a, ha, -, -, hevaluate⟩ := hlater u hevolves
  have hlinked : a.status = .linked := by
    have hthere : (u.record? ⟨0⟩).map ModuleRecord.status = some .linked := by decide +kernel
    rw [ha] at hthere
    exact Option.some.inj hthere
  obtain ⟨n, v', hrun, hsame, hfind, hagain⟩ := hevaluate hlinked 0
  obtain rfl : v' = v := (congrArg Prod.snd hrun).symm
  refine ⟨by decide +kernel, by decide +kernel, w, n, hrecord, hw.trans hnames, hrun,
    hsame.trans hnames, ?_, ?_, ?_, (hagain t (.of_follows (hv.exec 0 afterEvaluating).2)).2 0⟩
  · rw [hfind, if_pos (hnames ▸ by decide)]
    rfl
  · rw [hfind, if_pos (hnames ▸ by decide)]
    rfl
  · rw [hfind, if_neg (hnames ▸ by decide)]

end ModuleLoader
