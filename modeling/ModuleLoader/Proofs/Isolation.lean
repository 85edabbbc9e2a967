import ModuleLoader.Proofs.Overlay
import ModuleLoader.Proofs.Phases
/-!
Contexts are isolated from each other.

A run is made in a context, and here is put together what that is worth. Everything is
done on behalf of that context. If code writes nowhere but to what it is handed, then
the bindings of all others are left as they were. And if code keeps altogether to what
it is handed, then what others hold makes no difference to a run of modules: it goes
the same way whatever that is.

A run is of an entry. This gets its record first, and the record is linked and then
evaluated, so that there are three calls of which something has to be known.
-/

namespace ModuleLoader

open Eff

variable {σ η α : Type}

/-! ### Runs in a context -/

def Linker.entryIn (serve : (c : Call) → Eff σ η c.Reply) (entry : Path) (c : ContextId) :
    Eff σ η RecordId := do
  let r ← serve (.buildSource entry.text (.root entry.text c))
  serve (.linkModule r)
  let _ ← serve (.evaluate r)
  return r

namespace State

def contextOf (s : State σ η) (context? : Option ContextId) : ContextId :=
  context?.getD ⟨s.contexts.size⟩

def withContext (s : State σ η) : Option ContextId → State σ η
  | some _ => s
  | none => (s.newContext none).2

theorem records_withContext (s : State σ η) (context? : Option ContextId) :
    (s.withContext context?).records = s.records := by
  cases context? <;> rfl

theorem trace_withContext (s : State σ η) (context? : Option ContextId) :
    (s.withContext context?).trace = s.trace := by
  cases context? <;> rfl

end State

section

variable {serve : (c : Call) → Eff σ η c.Reply} {entry : Path}

theorem Script.runIn_contextFor (context? : Option ContextId) (s : State σ η) :
    ((contextFor context?).exec serve).runIn s =
      (.ok (s.contextOf context?), s.withContext context?) := by
  cases context? <;> rfl

theorem Script.runIn_runEntry (habsolute : entry.isAbsolute) (context? : Option ContextId)
    (s : State σ η) :
    ((runEntry entry context?).exec serve).runIn s =
      (Linker.entryIn serve entry (s.contextOf context?)).runIn (s.withContext context?) := by
  rw [exec_runEntry habsolute, runIn_bind, runIn_contextFor]
  rfl

theorem Script.runIn_runEntry_of_not_isAbsolute (habsolute : ¬ entry.isAbsolute)
    (context? : Option ContextId) (s : State σ η) :
    ((runEntry entry context?).exec serve).runIn s =
    (.error (.error (.invalidEntry entry)), s) := by
  rw [runEntry, if_neg habsolute]
  rfl

theorem Linker.stays_entryIn {I : State σ η → Prop} {own : ContextId → Prop} {new : RecordId → Prop}
    (hserve : ∀ c : Call, c.OnBehalf own new → Eff.Stays I (c.Gives new) (serve c)) (entry : Path)
    {c : ContextId} (hown : own c) : Eff.Stays I new (entryIn serve entry c) := by
  refine .bind (hserve (.buildSource _ _) hown) fun r hr => ?_
  have hnew : new r := hr r rfl
  refine .bind (hserve (.linkModule r) hnew) fun _ _ => ?_
  exact .bind (hserve (.evaluate r) hnew) fun _ _ => .pure hnew

/-- A run goes the same way in two worlds in which calls on behalf of its context do. -/
theorem Overlay.shows_entryIn {M : Overlay σ η} (hserve : ∀ c : Call, M.ShowsCall c (serve c))
    (entry : Path) {c : ContextId} (hown : M.fence.own c) :
    M.Shows True (fun _ => True) (Linker.entryIn serve entry c) := by
  refine .bind ((hserve (.buildSource _ _)).imp (fun _ => hown) fun _ _ h => h) fun r => ?_
  refine .bind ((hserve (.linkModule r)).imp (fun hp => hp.2.1 r rfl) fun _ _ h => h) fun _ => ?_
  refine .bind ((hserve (.evaluate r)).imp (fun hp => hp.1.2.1 r rfl) fun _ _ h => h) fun _ => ?_
  exact .pure fun _ => trivial

end

/-! ### The three sides of it -/

section

variable {host : Host σ η} {c : ContextId} {C : Compiled σ η → Prop} {s t : State σ η}
  {entry : Path}
  {context? : Option ContextId} {depth : Nat} {o : Except Fault RecordId}

/-- All that is done in a run is done for its context. -/
theorem runEntry_onBehalf (hhost : host.OnBehalf (· = c) C) (hc : c = s.contextOf context?)
    (hrun : ((Script.runEntry entry context?).exec (serve host depth)).runIn s = (o, t)) :
    State.OnBehalf host (· = c) C s.records.size s t ∧ ∀ r, o = .ok r →
      s.records.size ≤ r.index := by
  by_cases habsolute : entry.isAbsolute
  · rw [Script.runIn_runEntry habsolute, ← hc] at hrun
    have hstart : State.OnBehalf host (· = c) C s.records.size s (s.withContext context?) :=
      (State.OnBehalf.refl (.none s)).congr (s.records_withContext _) (s.trace_withContext _)
    have hstays := Linker.stays_entryIn (onBehalf_serve hhost s.records.size depth s)
      entry rfl _ hstart
    rw [hrun] at hstays
    refine ⟨hstays.1, ?_⟩
    rintro r rfl
    exact hstays.2.1
  · rw [Script.runIn_runEntry_of_not_isAbsolute habsolute, Prod.mk.injEq] at hrun
    obtain ⟨rfl, rfl⟩ := hrun
    exact ⟨.refl (.none s), nofun⟩

theorem survives_record (r : RecordId) (host : Host σ η) :
    Survives (fun s => r.index < s.records.size) host where
  emit _ _ _ hs := hs
  action a s hs := by rwa [a.records_carryOut]
  addChild _ _ _ hs := hs
  enter _ _ _ _ hs := hs
  leave _ _ outcome hs := by cases outcome <;> exact hs
  parse _ _ _ _ hs := hs
  add s a _ hs := by
    rw [State.size_add]
    exact Nat.lt_succ_of_lt hs
  modifyRecord s x f _ hs := by rwa [State.size_modifyRecord]

theorem exists_record_of_runEntry {r : RecordId}
    (hrun : ((Script.runEntry entry context?).exec (serve host depth)).runIn s = (.ok r, t)) :
    ∃ a, t.record? r = some a := by
  by_cases habsolute : entry.isAbsolute
  · rw [Script.runIn_runEntry habsolute] at hrun
    obtain ⟨r', m, -, hrun⟩ := runIn_bind_eq_ok.1 hrun
    obtain ⟨_, u, hlink, hrun⟩ := runIn_bind_eq_ok.1 hrun
    obtain ⟨n, t', heval, hrun⟩ := runIn_bind_eq_ok.1 hrun
    rw [runIn_pure, Prod.mk.injEq, Except.ok.injEq] at hrun
    obtain ⟨rfl, rfl⟩ := hrun
    cases depth with
    | zero => cases (Prod.mk.inj heval).1
    | succ depth =>
        obtain ⟨a, ha, -⟩ := Linker.evaluate_eq_ok heval
        have hgrown := (survives_record r' host).serve (depth + 1) (.evaluate r') u
          (State.lt_of_record? ha)
        rw [heval] at hgrown
        exact State.exists_record? hgrown.1
  · rw [Script.runIn_runEntry_of_not_isAbsolute habsolute] at hrun
    cases (Prod.mk.inj hrun).1

theorem State.Separate.leaves_withContext (hs : s.Separate) (context? : Option ContextId) :
    State.Leaves (fun _ => False) s (s.withContext context?) := by
  have hprovides : s.Provides fun _ => False := ⟨hs, fun _ h => h.elim⟩
  cases context? with
  | none => exact hprovides.leaves_newContext none
  | some d => exact .refl hprovides

theorem State.contextOf_lt (hgiven : ∀ d, context? = some d → d.index < s.contexts.size) :
    (s.contextOf context?).index < (s.withContext context?).contexts.size := by
  cases context? with
  | none =>
      rw [withContext, size_newContext]
      exact Nat.lt_succ_self _
  | some d => exact hgiven d rfl

/-- A run leaves the bindings of all contexts alone but its own and that of scripts. -/
theorem runEntry_leaves (hhost : host.OnBehalf (· = c) C)
    (hwrites : host.WritesOnly (· = c) (fun d => d = c ∨ d = host.scriptContext) C)
    (hs : s.Separate) (hscript : host.scriptContext.index < s.contexts.size)
    (hgiven : ∀ d, context? = some d → d.index < s.contexts.size) (hc : c = s.contextOf context?)
    (hrun : ((Script.runEntry entry context?).exec (serve host depth)).runIn s = (o, t))
    {d : ContextId} (hd : d.index < s.contexts.size) (hdc : d ≠ c)
    (hdscript : d ≠ host.scriptContext) :
    t.bindings d = s.bindings d := by
  by_cases habsolute : entry.isAbsolute
  · rw [Script.runIn_runEntry habsolute, ← hc] at hrun
    have hbegin := hs.leaves_withContext context?
    have hprovides : (s.withContext context?).Provides fun d => d = c ∨ d = host.scriptContext := by
      refine ⟨hbegin.provides.toSeparate, ?_⟩
      rintro d (rfl | rfl)
      · exact hc ▸ State.contextOf_lt hgiven
      · exact Nat.lt_of_lt_of_le hscript hbegin.later.contexts
    have hstays := Linker.stays_entryIn
      (leaves_serve hhost hwrites _ depth (s.withContext context?)) entry rfl _
        ⟨.refl hprovides, .none _⟩
    rw [hrun] at hstays
    have hafter := hstays.1.leaves.bindings d (fun h => h.elim hdc hdscript)
      (Nat.lt_of_lt_of_le hd hbegin.later.contexts)
    exact hafter.trans (hbegin.bindings d id hd)
  · rw [Script.runIn_runEntry_of_not_isAbsolute habsolute, Prod.mk.injEq] at hrun
    exact hrun.2 ▸ rfl

/-- Where a run begins to look around: what is bound in the context that it is given, if it is given
one, and what is remembered. -/
def State.Roots (s : State σ η) (holds : σ → Heap.Cell → Prop) (context? : Option ContextId)
    (p : Heap.Cell) : Prop :=
  holds s.store p ∨ ∃ d, context? = some d ∧ p = .object (s.context d).globals

/-- What a run does not come upon from there is foreign to it. -/
def State.fence (s : State σ η) (holds : σ → Heap.Cell → Prop) (context? : Option ContextId) :
    Fence σ where
  own := (· = s.contextOf context?)
  holds := holds
  foreign := s.heap.Unreached (s.Roots holds context?)

theorem State.sealed_withContext (s : State σ η) (holds : σ → Heap.Cell → Prop)
    (context? : Option ContextId) (C : Compiled σ η → Prop) :
    (s.withContext context?).Sealed (s.fence holds context?) C s.records.size s.trace.size := by
  have hclosed := s.heap.closed_unreached (s.Roots holds context?)
  have hstore : (s.fence holds context?).Clean s.store :=
    fun p hp hfar => hfar.2 (.root (Or.inl hp))
  cases context? with
  | none =>
      refine ⟨hclosed.newObject Properties.avoids_empty, hstore, ?_, (NewRecords.none s).congr rfl,
        Nat.le_refl _⟩
      rintro d rfl
      rw [withContext, contextOf, Option.getD_none, globals_newContext_next]
      exact hclosed.fresh_object (Nat.le_refl _)
  | some d =>
      refine ⟨hclosed, hstore, ?_, .none s, Nat.le_refl _⟩
      rintro d rfl hfar
      exact hfar.2 (.root (Or.inr ⟨_, rfl, rfl⟩))

theorem State.withContext_overlay {holds : σ → Heap.Cell → Prop}
    {ρ : ObjectRef → Option Properties}
    (hρ : ∀ x ps, ρ x = some ps → s.heap.Unreached (s.Roots holds context?) (.object x)) :
    (s.overlay ρ).withContext context? = (s.withContext context?).overlay ρ := by
  cases context? with
  | none =>
      have hnew := Fence.contents_of_size_le (k := s.fence holds none) hρ
        (s.heap.closed_unreached _) (o := ⟨s.heap.objects.size⟩) (Nat.le_refl _)
      simp only [withContext, overlay, newContext, Heap.overlay_newObject hnew]
  | some d => rfl

/-- A run of modules goes the same way whatever is in the objects that are foreign to it. -/
theorem runEntry_overlay {holds : σ → Heap.Cell → Prop} (hhost : host.OnBehalf (· = c) C)
    (hconf : host.Confined (· = c) holds C) (hc : c = s.contextOf context?)
    (hrun : ((Script.runEntry entry context?).exec (serve host depth)).runIn s = (o, t))
    {ρ : ObjectRef → Option Properties}
    (hρ : ∀ x ps, ρ x = some ps → s.heap.Unreached (s.Roots holds context?) (.object x))
    (hmodules : ¬ t.Strays s.trace.size) :
    ((Script.runEntry entry context?).exec (serve host depth)).runIn (s.overlay ρ) =
      (o, t.overlay ρ) := by
  subst hc
  by_cases habsolute : entry.isAbsolute
  · rw [Script.runIn_runEntry habsolute] at hrun ⊢
    let M : Overlay σ η := ⟨s.fence holds context?, C, s.records.size, s.trace.size, ρ, hρ⟩
    have hserve : ∀ c : Call, M.ShowsCall c (serve host depth c) :=
      Overlay.shows_serve hhost hconf depth
    have hshows :=
      (Overlay.shows_entryIn hserve entry (c := s.contextOf context?) rfl).shows trivial
      (s.withContext context?) (s.sealed_withContext holds context? C)
    rw [hrun] at hshows
    rw [State.withContext_overlay hρ]
    exact (hshows.resolve_left hmodules).2.2
  · rw [Script.runIn_runEntry_of_not_isAbsolute habsolute, Prod.mk.injEq] at hrun ⊢
    exact ⟨hrun.1, hrun.2 ▸ rfl⟩

end

/-- All that is compiled, evaluated and made in a run is for its context. What is bound in other
contexts is left as it was, if code writes only to what it is handed. And if it keeps to that
altogether, and nothing legacy comes up, then whatever else is in the objects that the run does not
come upon makes no difference to it. -/
theorem runs_are_isolated (host : Host σ η) (C : Compiled σ η → Prop) (store : σ) (depth₀ : Nat)
    (earlier : Program σ η α) (s : State σ η)
    (hs : s = (host.exec depth₀ earlier (.initial store)).2) (entry : Path)
    (context? : Option ContextId) (c : ContextId) (hc : c = s.contextOf context?)
    (hhost : host.OnBehalf (· = c) C) (depth : Nat) (o : Except Fault RecordId) (t : State σ η)
    (hrun : ((Script.runEntry entry context?).exec (serve host depth)).runIn s = (o, t)) :
    ∃ events, t.trace.toList = s.trace.toList ++ events ∧
      (∀ e ∈ events, e.OnBehalf (· = c) (s.records.size ≤ ·.index) host.scriptContext) ∧
      (∀ r a, s.records.size ≤ r.index → t.record? r = some a →
        a.context = c ∧ ∀ dep ∈ a.dependencies, s.records.size ≤ dep.2.index) ∧
      (∀ r, o = .ok r → s.records.size ≤ r.index ∧ ∃ a, t.record? r = some a) ∧
      (host.WritesOnly (· = c) (fun d => d = c ∨ d = host.scriptContext) C →
        host.scriptContext.index < s.contexts.size →
        (∀ d, context? = some d → d.index < s.contexts.size) →
        ∀ d : ContextId, d.index < s.contexts.size → d ≠ c → d ≠ host.scriptContext →
          t.bindings d = s.bindings d) ∧
      ∀ holds, host.Confined (· = c) holds C → (∀ e ∈ events, ¬ e.IsLegacy) →
        ∀ ρ : ObjectRef → Option Properties,
          (∀ x ps, ρ x = some ps → s.heap.Unreached (s.Roots holds context?) (.object x)) →
          ((Script.runEntry entry context?).exec (serve host depth)).runIn (s.overlay ρ) =
            (o, t.overlay ρ) := by
  obtain ⟨⟨⟨events, htrace, hevents⟩, hrecords⟩, hnew⟩ := runEntry_onBehalf hhost hc hrun
  refine ⟨events, htrace, hevents, ?_, ?_, ?_, ?_⟩
  · intro r a hr ha
    obtain ⟨hcontext, -, hdeps⟩ := hrecords.all r a hr ha
    exact ⟨hcontext, hdeps⟩
  · rintro r rfl
    exact ⟨hnew r rfl, exists_record_of_runEntry hrun⟩
  · intro hwrites hscript hgiven d hd hdc hdscript
    have hseparate : s.Separate := hs ▸ host.separate_exec depth₀ earlier store
    exact runEntry_leaves hhost hwrites hseparate hscript hgiven hc hrun hd hdc hdscript
  · intro holds hconf hmodules ρ hρ
    refine runEntry_overlay hhost hconf hc hrun hρ ?_
    rintro ⟨e, he, hlegacy⟩
    rw [htrace, ← Array.length_toList, List.drop_left] at he
    exact hmodules e he hlegacy

/-! ### Two files -/

namespace Binder

def blank : Compiled Unit Empty := ⟨[], fun _ => Script.perform (.newNamespace .empty)⟩

/-- A module that imports another one, does so again while it runs, binds what it gets and exports
all that is bound. -/
def binder : Compiled Unit Empty where
  requests := ["./b.mjs"]
  body env := do
    let n ← Script.importModule env.importer "./b.mjs"
    let o ← Script.perform (.globalObject env.context)
    Script.perform (.setProperty o "b" (.moduleNamespace n))
    let bound ← Script.perform (.properties o)
    Script.perform (.newNamespace bound)

def host : Host Unit Empty where
  files := ⟨[(["a.mjs"], .file (some "binder")), (["b.mjs"], .file (some ""))]⟩
  config := {}
  builtins := .empty "node:"
  linkerBuiltins? := none
  scriptContext := ⟨0⟩
  compile text _ := pure (if text = "binder" then binder else blank)
  runScript _ _ := pure ()
  hook := Empty.elim
  lookup? := none

def IsModule (c : Compiled Unit Empty) : Prop := c = binder ∨ c = blank

theorem isModule_compile (text : String) :
    IsModule (if text = "binder" then binder else blank) := by
  unfold IsModule
  split <;> simp

theorem find?_builtins {b : Registry (Provider Unit Empty)}
    (hb : b ∈ [host.builtins, host.linkerBuiltins]) (name : String) : b.find? name = none := by
  have hempty : b = .empty "node:" := by simpa [host, Host.linkerBuiltins] using hb
  subst hempty
  rfl

theorem onBehalf_host (own : ContextId → Prop) : host.OnBehalf own IsModule where
  compile text _ _ := isModule_compile text
  body := by
    rintro _ (rfl | rfl) env hown himporter
    · have himport : (Script.importModule env.importer "./b.mjs" : Script Unit Empty
        Namespace).run.OnBehalf
          own (fun _ => True) fun _ => False :=
        Script.onBehalf_importModule (himporter.symm ▸ hown) _ fun _ => trivial
      refine himport.bind fun o _ => ?_
      cases o with
      | error e => trivial
      | ok n => exact fun _ _ _ _ => trivial
    · exact fun _ => trivial
  script _ _ _ := trivial
  lookup _ := nofun
  provider b hb name p hp := absurd hp (by simp [find?_builtins hb])
  before h := h.elim
  after h := h.elim

theorem writesOnly_host {own wide : ContextId → Prop} (hwide : ∀ c, own c → wide c) :
    host.WritesOnly own wide IsModule where
  compile _ _ _ _ _ := trivial
  body := by
    rintro _ (rfl | rfl) env hown - s hs
    · refine Script.writesOnly_importModule_bind _ _ fun n t ht hseparate => ?_
      have hthere := Nat.lt_of_lt_of_le (hs.exist _ (hwide _ hown)) ht.contexts
      refine ⟨fun _ h => h.elim, ?_, fun _ h => h.elim, fun _ h => h.elim, trivial⟩
      -- the object that is written to is the global object of the context, and of no other one
      rintro _ rfl c hc hlt heq
      exact hc (hseparate.distinct _ c hthere hlt heq ▸ hwide _ hown)
    · exact ⟨fun _ h => h.elim, trivial⟩
  script _ _ _ _ _ := trivial
  lookup _ := nofun
  provider b hb name p hp := absurd hp (by simp [find?_builtins hb])
  before h := h.elim
  after h := h.elim

theorem confined_host (own : ContextId → Prop) : host.Confined own (fun _ _ => False) IsModule where
  compile _ _ _ _ := trivial
  body := by
    rintro F _ (rfl | rfl) env hown - himports
    · refine (Script.confined_importModule ⟨own, _, F⟩ _ _).bind fun o ho => ?_
      cases o with
      | error e => trivial
      | ok n =>
          refine ⟨hown, fun x hx => ⟨⟨hx, Value.avoids_moduleNamespace ho⟩, fun _ _ => ?_⟩⟩
          exact ⟨hx, fun bound hbound => ⟨hbound, fun n hn => hn⟩⟩
    · exact ⟨Properties.avoids_empty, fun n hn => hn⟩

def preparation : Program Unit Empty Unit := do
  let _ ← .perform (.newContext none)
  let other ← .perform (.newContext none)
  let o ← .perform (.globalObject other)
  .perform (.setProperty o "x" (.boolean true))
  let c ← .perform (.newContext none)
  let p ← .perform (.globalObject c)
  .perform (.setProperty p "y" (.boolean false))

def prepared : State Unit Empty := (host.exec 0 preparation (.initial ())).2

def ended : Except Fault RecordId × State Unit Empty :=
  ((Script.runEntry ⟨"/a.mjs"⟩ (some ⟨2⟩)).exec (serve host 3)).runIn prepared

def unbound (x : ObjectRef) : Option Properties := if x = ⟨1⟩ then some .empty else none

theorem unreached_unbound (x : ObjectRef) (ps : Properties) (hx : unbound x = some ps) :
    prepared.heap.Unreached (prepared.Roots (fun _ _ => False) (some ⟨2⟩)) (.object x) := by
  obtain rfl : x = ⟨1⟩ := by
    unfold unbound at hx
    split at hx
    · assumption
    · cases hx
  have hglobals : (prepared.context ⟨2⟩).globals = ⟨2⟩ := by rfl
  have hbound : (prepared.heap.properties ⟨2⟩).entries = [("y", .boolean false)] := by rfl
  have honly : ∀ p, prepared.heap.Reaches (prepared.Roots (fun _ _ => False) (some ⟨2⟩)) p →
      p = .object ⟨2⟩ := by
    intro p hp
    induction hp with
    | root h =>
        obtain ⟨d, hd, rfl⟩ := h.resolve_left id
        cases hd
        rw [hglobals]
    | property ho hentry hp ih =>
        cases ih
        rw [hbound, List.mem_singleton] at hentry
        subst hentry
        cases hp
    | result hi hcode hargs hv hp ihi iha => cases ihi
  have hthere : 1 < prepared.heap.objects.size := by decide
  exact ⟨hthere, fun h => by cases honly _ h⟩

end Binder

open Binder in
/-- The entry is run in the last context. Its body imports what the entry has imported already, and
there are three records, all of that context. What is bound in the other context is still bound
there, and would not have been missed. In a scripted world the run of a file that imports a built-in
has a new context, and is on behalf of that one. -/
theorem runs_are_isolated_binder :
    ended.1.toOption = some ⟨0⟩ ∧
    (∃ events, ended.2.trace.toList = prepared.trace.toList ++ events ∧
      ∀ e ∈ events, e.OnBehalf (· = ⟨2⟩) (0 ≤ ·.index) ⟨0⟩) ∧
    (ended.2.records.toList.map (·.context) = [⟨2⟩, ⟨2⟩, ⟨2⟩]) ∧
    (ended.2.bindings ⟨1⟩).keys = ["x"] ∧ (ended.2.bindings ⟨2⟩).keys = ["y", "b"] ∧
    ((Script.runEntry ⟨"/a.mjs"⟩ (some ⟨2⟩)).exec (serve host 3)).runIn (prepared.overlay unbound) =
      (ended.1, ended.2.overlay unbound) ∧
    ∃ events, Scripted.twiceEnded.2.trace.toList = Scripted.newLoader.trace.toList ++ events ∧
      ∀ e ∈ events, e.OnBehalf (· = ⟨0⟩) (0 ≤ ·.index) ⟨0⟩ := by
  have hended : ((Script.runEntry ⟨"/a.mjs"⟩ (some ⟨2⟩)).exec (serve host 3)).runIn prepared =
      (ended.1, ended.2) := (Prod.eta ended).symm
  obtain ⟨events, htrace, hevents, -, -, hbindings, hmirrored⟩ :=
    runs_are_isolated host IsModule () 0 preparation prepared rfl ⟨"/a.mjs"⟩ (some ⟨2⟩) ⟨2⟩ rfl
      (onBehalf_host _) 3 ended.1 ended.2 hended
  have hother : ended.2.bindings ⟨1⟩ = prepared.bindings ⟨1⟩ :=
    hbindings (writesOnly_host fun _ => Or.inl) (by decide) (by rintro _ ⟨⟩; decide) ⟨1⟩ (by decide)
      (by decide) (by decide)
  have hmodules : ∀ e ∈ events, ¬ e.IsLegacy := by
    have hall : ∀ e ∈ ended.2.trace.toList, ¬ e.IsLegacy := by decide +kernel
    exact fun e he => hall e (htrace ▸ List.mem_append_right _ he)
  refine ⟨by decide +kernel,
    ⟨events, htrace, hevents⟩, by decide +kernel, ?_, by decide +kernel, ?_,
    ?_⟩
  · rw [hother]
    decide +kernel
  · exact hmirrored _ (confined_host _) hmodules unbound unreached_unbound
  · have htwice : twiceWorld.OnBehalf (· = ⟨0⟩) _ := Scripted.onBehalf_constant _ _ _ _ _ _ _
    have hended : ((Script.runEntry ⟨"/a.mjs"⟩ none).exec (serve twiceWorld 3)).runIn
        Scripted.newLoader = (Scripted.twiceEnded.1, Scripted.twiceEnded.2) :=
      (Prod.eta Scripted.twiceEnded).symm
    obtain ⟨events, htrace, hevents, -⟩ :=
      runs_are_isolated twiceWorld _ .initial 0 (.done ()) Scripted.newLoader rfl
        ⟨"/a.mjs"⟩ none ⟨0⟩ rfl
        htwice 3 Scripted.twiceEnded.1 Scripted.twiceEnded.2 hended
    exact ⟨events, htrace, hevents⟩

end ModuleLoader
