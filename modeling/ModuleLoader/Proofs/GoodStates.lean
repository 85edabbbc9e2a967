import ModuleLoader.Proofs.FailsWithin
import ModuleLoader.Proofs.Soundness
/-!
What every call of the loader does to the records.

Programs may ask for anything at any time, and what they ask for may run other
programs that do the same. Records are met in every phase, and it has to be seen
that nobody moves a record that somebody else is working on. The argument is one
induction on the depth of calls. Suppose that every call made from here leads
from a sound state to a sound one, and leaves the records that were under way as
they were. Then so does the call that makes them: a record that it takes to
`linking` is still `linking` when it comes back from each of them, with the
dependencies that it had, and so the next move is again a legal one.
-/

namespace ModuleLoader

open Eff

variable {σ η α : Type}

/-- The code that the host runs answers only with errors of the set, and so do the bodies of the
modules that it makes, each of which is one that `B` holds of. -/
structure Host.CodeFailsWithin (host : Host σ η) (E : Error → Prop) (B : Compiled σ η → Prop) :
    Prop where
  code : host.Every (fun _ P p => p.FailsWithin E P) E B
  body : ∀ c, B c → c.FailsWithin E
  error : ∀ e : Error, ¬ e.IsMove → E e

theorem Host.FailsWithin.codeFailsWithin {host : Host σ η} {E : Error → Prop}
    (h : host.FailsWithin E)
    (hE : ∀ e : Error, ¬ e.IsMove → E e) : host.CodeFailsWithin E (Compiled.FailsWithin E) :=
  ⟨h, fun _ hc => hc, hE⟩

/-- What holds of every state that can be reached: the records are sound, and no code is known but
what the host has made. -/
structure State.Good (host : Host σ η) (E : Error → Prop) (B : Compiled σ η → Prop)
    (s : State σ η) : Prop where
  sound : s.Sound host
  heap : s.heap.FailsWithin E
  bodies : ∀ r a m, s.record? r = some a → a.kind = .source m → B m.compiled

namespace State

variable {host : Host σ η} {E : Error → Prop} {B : Compiled σ η → Prop} {s m t : State σ η}

theorem good_initial (store : σ) : (State.initial store : State σ η).Good host E B where
  sound := sound_of_size_eq_zero rfl
  heap := fun _ h => by simp [initial, Heap.empty] at h
  bodies r a m h := by simp [record?, initial] at h

theorem Good.congr (h : s.Good host E B) (hrecords : t.records = s.records)
    (hfunctions : t.heap.functions = s.heap.functions) : t.Good host E B where
  sound := h.sound.of_records_eq hrecords
  heap := by
    rw [Heap.FailsWithin, hfunctions]
    exact h.heap
  bodies := by
    rw [record?_congr hrecords]
    exact h.bodies

theorem Good.carryOut (h : s.Good host E B) {a : Action σ η} (ha : a.FailsWithin E) :
    (a.carryOut s).2.Good host E B where
  sound := h.sound.of_records_eq (a.records_carryOut s)
  heap := a.heap_carryOut ha h.heap
  bodies := by
    rw [record?_congr (a.records_carryOut s)]
    exact h.bodies

theorem Good.add (h : s.Good host E B) (identifier : String) (referrer : Referrer)
    {kind : ModuleKind σ η} (hkind : ∀ m, kind = .source m → B m.compiled) :
    (s.add (.fresh identifier referrer kind)).Good host E B where
  sound := h.sound.add identifier referrer kind
  heap := h.heap
  bodies r a m ha hm := by
    rw [record?_add] at ha
    split at ha
    · cases ha
      exact hkind m hm
    · exact h.bodies r a m ha hm

theorem Good.modifyRecord (h : s.Good host E B) {x : RecordId}
    {f : ModuleRecord σ η → ModuleRecord σ η} (hkind : ∀ a, (f a).kind = a.kind)
    (hsound : (s.modifyRecord x f).Sound host) : (s.modifyRecord x f).Good host E B where
  sound := hsound
  heap := h.heap
  bodies r a m ha hm := by
    rw [record?_modifyRecord] at ha
    split at ha
    · obtain ⟨b, hb, rfl⟩ := Option.map_eq_some_iff.1 ha
      rw [hkind] at hm
      exact h.bodies r b m hb hm
    · exact h.bodies r a m ha hm

theorem Good.setPhase (h : s.Good host E B) {x : RecordId} {a : ModuleRecord σ η} {phase : Phase}
    (ha : s.record? x = some a) (hmove : a.status.canMove phase.status = true)
    (hformed : phase.WellFormed)
    (hwhole : phase.status = .linked → a.dependencies.map Prod.fst = a.requests)
    (hdone : phase.status = .evaluated → ∀ dep ∈ a.dependencies, ∃ c, s.record? dep.2 = some c ∧
      c.status = .evaluated) :
    (Linker.setPhaseIn s x phase).Good host E B :=
  h.modifyRecord (fun _ => rfl) (h.sound.setPhase ha hmove hformed hwhole hdone)

theorem Good.formed (h : s.Good host E B) {x : RecordId} {a : ModuleRecord σ η}
    (ha : s.record? x = some a) : a.phase.WellFormed := (h.sound.kept x a ha).formed

/-- A record may be marked as failed by those who work on it. -/
theorem Good.fail {own : RecordId → Prop} {s₀ : State σ η} (h : s.Good host E B)
    (hevolves : Evolves own s₀ s) {x : RecordId} {a : ModuleRecord σ η} (ha : s.record? x = some a)
    (hfail : a.status.canMove .errored = true) (hown : own x) (reason : String) :
    (Linker.setPhaseIn s x (.errored reason)).Good host E B ∧
      Evolves own s₀ (Linker.setPhaseIn s x (.errored reason)) :=
  ⟨h.setPhase ha hfail (.errored reason) (by simp) (by simp),
    hevolves.setPhase ha hown hfail (.errored reason)⟩

theorem Good.take (h : s.Good host E B) {x : RecordId} {a : ModuleRecord σ η}
    (ha : s.record? x = some a) {phase : Phase} (hformed : phase.WellFormed)
    (hmove : a.status.canMove phase.status = true) (hbusy : phase.status.isBusy = true) :
    (Linker.setPhaseIn s x phase).Good host E B ∧
      Evolves (· = x) s (Linker.setPhaseIn s x phase) := by
  refine ⟨h.setPhase ha hmove hformed (fun hphase => ?_) fun hphase => ?_,
    (Evolves.refl s).setPhase ha rfl hmove hformed⟩
  · simp [hphase, Status.isBusy] at hbusy
  · simp [hphase, Status.isBusy] at hbusy

/-- A record that is taken up to be linked has nothing below it yet. -/
theorem Good.take_linking (h : s.Good host E B) {x : RecordId} {a : ModuleRecord σ η}
    (ha : s.record? x = some a) (hunlinked : a.status = .unlinked) :
    (Linker.setPhaseIn s x .linking).Good host E B ∧
      Evolves (· = x) s (Linker.setPhaseIn s x .linking) ∧ a.dependencies = [] := by
  obtain ⟨hgood, hevolves⟩ := h.take ha .linking (by rw [hunlinked]; rfl) rfl
  exact ⟨hgood, hevolves, (h.sound.kept x a ha).unlinked hunlinked⟩

theorem Good.take_evaluating (h : s.Good host E B) {x : RecordId} {a : ModuleRecord σ η}
    (ha : s.record? x = some a) (hlinked : a.status = .linked) :
    (Linker.setPhaseIn s x .evaluating).Good host E B ∧
      Evolves (· = x) s (Linker.setPhaseIn s x .evaluating) ∧
        a.dependencies.map Prod.fst = a.requests := by
  obtain ⟨hgood, hevolves⟩ := h.take ha .evaluating (by rw [hlinked]; rfl) rfl
  exact ⟨hgood, hevolves, (h.sound.kept x a ha).whole (by rw [hlinked]; rfl)⟩

end State

/-! ### Servers -/

/-- A server whose calls lead from good states to good ones, and which answers in earnest: a record
that it says it has linked is linked, and one that it says it has evaluated is evaluated. -/
structure KeepsGood (host : Host σ η) (E : Error → Prop) (B : Compiled σ η → Prop)
    (serve : (c : Call) → Eff σ η c.Reply) : Prop where
  call : ∀ c s, s.Good host E B →
    Leads (fun t => t.Good host E B ∧ State.Follows s t) E s (serve c) fun _ _ => True
  linkModule : ∀ r s t, s.Good host E B → (serve (.linkModule r)).runIn s = (.ok (), t) →
    ∃ a, t.record? r = some a ∧ a.status.isWhole = true
  evaluate : ∀ r s n t, s.Good host E B → (serve (.evaluate r)).runIn s = (.ok n, t) →
    ∃ a, t.record? r = some a ∧ a.phase = .evaluated n

section

variable {host : Host σ η} {E : Error → Prop} {B : Compiled σ η → Prop}
  {serve : (c : Call) → Eff σ η c.Reply}

theorem KeepsGood.keeps_program (h : KeepsGood host E B serve) (s : State σ η) {P : α → Prop}
    {p : Program σ η α} (hp : p.FailsWithin E P) (E' : Error → Prop) :
    Keeps (fun t => t.Good host E B ∧ State.Follows s t) E' P (p.run serve) (p.run serve) := by
  refine hp.keeps (fun t ht => ht.1.heap) (fun a t ha ht => ?_) (fun c => ?_) E'
  · exact ⟨ht.1.carryOut ha, ht.2.trans (.of_records_eq (a.records_carryOut t))⟩
  · refine .of_runIn fun t ht => ?_
    obtain ⟨⟨hgood, hfollows⟩, hends⟩ := h.call c t ht.1
    exact ⟨⟨hgood, ht.2.trans hfollows⟩, hends⟩

/-- The linker's own code keeps states good between the calls it makes, and what it adds to the
records is new. -/
theorem KeepsGood.loadInvariant (h : KeepsGood host E B serve) (hhost : host.CodeFailsWithin E B)
    (s : State σ η) :
    LoadInvariant (fun t => t.Good host E B ∧ State.Follows s t) E B
      (fun r => s.records.size ≤ r.index)
      host serve serve where
  core _ _ heq ht :=
    ⟨ht.1.congr (congrArg (·.1) heq) (congrArg (·.2.1) heq),
      ht.2.trans (.of_records_eq (congrArg (·.1) heq))⟩
  error e he := hhost.error e he.not_isMove
  add _ identifier referrer kind ht hkind :=
    ⟨⟨ht.1.add identifier referrer hkind, ht.2.trans (.add identifier referrer kind)⟩, ht.2.size_le⟩
  foreign := hhost.code.imp fun _ _ _ hp => h.keeps_program s hp

theorem KeepsGood.keeps_runBody (h : KeepsGood host E B serve) (hhost : host.CodeFailsWithin E B)
    (s : State σ η) (r : RecordId) (a : ModuleRecord σ η) {m : SourceModule σ η}
    (imports : OrderedMap Namespace) (hm : B m.compiled) :
    Keeps (fun t => t.Good host E B ∧ State.Follows s t) E (fun _ => True)
      (Linker.runBody serve r a m imports) (Linker.runBody serve r a m imports) := by
  refine .bind ((h.loadInvariant hhost s).ofExcept (ImportMeta.plain_ofPath _))
    fun importMeta _ => ?_
  refine .bind (P := fun _ => True) (.of_runIn fun t ht => ?_) fun _ _ => ?_
  · exact ⟨⟨ht.1.congr rfl rfl, ht.2.trans (.of_records_eq rfl)⟩, trivial⟩
  · exact Script.keeps_exec (h.keeps_program s (hhost.body _ hm _) E)

namespace Linker

variable (h : KeepsGood host E B serve) (hhost : host.CodeFailsWithin E B)

include h hhost

theorem leads_link {s : State σ η} (hs : s.Good host E B) (specifier : String)
    (referrer : Referrer) :
    Leads (fun t => t.Good host E B ∧ State.Follows s t) E s (link host serve specifier referrer)
      fun dep _ => s.records.size ≤ dep.index :=
  .of_keeps ((h.loadInvariant hhost s).link (fun _ => hhost.error _ id) specifier referrer)
    ⟨hs, .refl s⟩

/-- A record that has just been made by a link, and then been linked itself, can be added to the
dependencies of the record for which that was done. -/
theorem good_addDependency {s₀ s m t : State σ η} {r dep : RecordId} {a : ModuleRecord σ η}
    {specifier : String} {rest : List String} (hr : r.index < s₀.records.size)
    (hown : State.Evolves (· = r) s₀ s) (ha : s.record? r = some a) (hphase : a.phase = .linking)
    (hrest : a.requests = a.dependencies.map Prod.fst ++ specifier :: rest)
    (hlink : (link host serve specifier a.referrer).runIn s = (.ok dep, m))
    (hs : s.Good host E B) (hdep : (serve (.linkModule dep)).runIn m = (.ok (), t)) :
    (addDependencyIn t r specifier dep).Good host E B ∧
      State.Evolves (· = r) s₀ (addDependencyIn t r specifier dep) ∧
      (addDependencyIn t r specifier dep).record? r =
        some { a with dependencies := a.dependencies ++ [(specifier, dep)] } := by
  have hlinking : a.status = .linking := by rw [ModuleRecord.status, hphase]; rfl
  obtain ⟨⟨hm, hsm⟩, hnew⟩ := (leads_link h hhost hs specifier a.referrer).of_eq_ok hlink
  obtain ⟨⟨ht, hmt⟩, -⟩ := (h.call (.linkModule dep) m hm).of_eq_ok hdep
  obtain ⟨c, hc, hwhole⟩ := h.linkModule dep m t hm hdep
  -- the record is somebody else's to the two calls, so they have left it alone
  have hat : t.record? r = some a :=
    (hsm.trans hmt).busy r a ha (by rw [hlinking]; rfl) fun hf => hf
  -- the new record, as it was made and as it is now
  obtain ⟨name, kind, m', rfl, rfl, htarget⟩ := link_eq_ok hlink
  have hmade : (m'.add (.fresh name a.referrer kind)).record? m'.next =
      some (.fresh name a.referrer kind) := State.records_add_next m' _
  obtain ⟨c', hc', hgrown⟩ := hmt.grows _ _ hmade
  obtain rfl : c' = c := by simpa [hc, eq_comm] using hc'
  have hlater : r.index < m'.next.index :=
    Nat.lt_of_lt_of_le hr (Nat.le_trans hown.size_le hnew)
  have hedge : ModuleRecord.Edge host r a (specifier, m'.next) c' :=
    { later := hlater
      settled := Status.isSettled_of_isWhole hwhole
      complete := (ht.sound.kept _ c' hc).whole hwhole
      context := hgrown.context
      lineage := hgrown.lineage
      target := by rw [htarget, hgrown.dispatch, hgrown.identifier]; rfl
      evaluated := fun hdone => by simp [hlinking] at hdone }
  have hnobody : ∀ x, ∀ d ∈ t.dependenciesOf x, d.2 ≠ m'.next := by
    rintro x d hd heq
    obtain ⟨b, hb, hd⟩ := State.mem_of_dependenciesOf hd
    have hlt : d.2.index < (m'.add (.fresh name a.referrer kind)).records.size := by
      rw [heq]
      exact State.lt_of_record? hmade
    obtain ⟨b', hb', hd'⟩ := hmt.edges x b hb d hd hlt
    refine hm.sound.ne_of_not_settled (r := x) hmade rfl ?_ heq
    rw [State.dependenciesOf_eq hb']
    exact hd'
  have hnext : (a.dependencies ++ [(specifier, m'.next)]).map Prod.fst <+: a.requests := by
    rw [hrest, List.map_append]
    exact ⟨rest, by simp⟩
  have hsound := ht.sound.addDependency hat hlinking hnext hnobody hc hedge
  refine ⟨ht.modifyRecord (fun _ => rfl) hsound, ?_, ?_⟩
  · have hevolves := hown.trans (.of_follows (hsm.trans hmt))
    exact hevolves.addDependency hat rfl hlinking (Nat.le_trans hown.size_le hnew)
  · exact State.record?_addDependencyIn hat specifier _

/-- Linking the requests of a record leaves it under way, with one dependency more for each. -/
theorem leads_linkRequests {s₀ : State σ η} {r : RecordId} (hr : r.index < s₀.records.size)
    {referrer : Referrer} (specifiers : List String) {s : State σ η} {a : ModuleRecord σ η}
    (hs : s.Good host E B) (hown : State.Evolves (· = r) s₀ s) (ha : s.record? r = some a)
    (hphase : a.phase = .linking) (hreferrer : a.referrer = referrer)
    (hrest : a.requests = a.dependencies.map Prod.fst ++ specifiers) :
    Leads (fun t => (t.Good host E B ∧ State.Evolves (· = r) s₀ t) ∧
        ∃ b, t.record? r = some b ∧ b.phase = .linking) E s
      (linkRequests host serve r referrer specifiers)
      fun _ t => ∃ b, t.record? r = some b ∧ b.phase = .linking ∧
        b.dependencies.map Prod.fst = b.requests := by
  have hbusy : a.status.isBusy = true := by rw [ModuleRecord.status, hphase]; rfl
  induction specifiers generalizing s a with
  | nil =>
      refine .pure ⟨⟨hs, hown⟩, a, ha, hphase⟩ ⟨a, ha, hphase, ?_⟩
      rw [hrest, List.append_nil]
  | cons specifier rest ih =>
      -- whatever the two calls come to, the record is left alone
      have hkept : ∀ t, t.Good host E B ∧ State.Follows s t →
          (t.Good host E B ∧ State.Evolves (· = r) s₀ t) ∧
            ∃ b, t.record? r = some b ∧ b.phase = .linking := by
        rintro t ⟨ht, hst⟩
        refine ⟨⟨ht, hown.trans (.of_follows hst)⟩, a, ?_, hphase⟩
        exact hst.busy r a ha hbusy fun hf => hf
      have hlinked := leads_link h hhost hs specifier referrer
      refine (hlinked.weaken hkept).bind fun dep m hlink _ hm => ?_
      have hcall := h.call (.linkModule dep) m hm.1.1
      refine (hcall.weaken fun t ht => hkept t ⟨ht.1, hm.1.2.trans ht.2⟩).bind
        fun _ t hdep _ _ => ?_
      subst hreferrer
      obtain ⟨hgood, hevolves, hat⟩ :=
        good_addDependency h hhost hr hown ha hphase hrest hlink hs hdep
      have hrest' : a.requests =
          (a.dependencies ++ [(specifier, dep)]).map Prod.fst ++ rest := by simp [hrest]
      exact .bind_of_eq_ok (runIn_addDependency r specifier dep t)
        (ih hgood hevolves hat hphase rfl hrest' hbusy)

omit h hhost in
/-- An operation on a record that was not under way, seen from outside. -/
theorem follows_of_evolves {s t : State σ η} {r : RecordId} {a : ModuleRecord σ η}
    (ha : s.record? r = some a) (hidle : a.status.isBusy = false)
    (ht : t.Good host E B ∧ State.Evolves (· = r) s t) :
    t.Good host E B ∧ State.Follows s t := by
  refine ⟨ht.1, ht.2.follows ?_⟩
  rintro _ b rfl hb
  obtain rfl : b = a := by simpa [ha, eq_comm] using hb
  exact hidle

/-- Linking a record leads to a good state, and if it succeeds then the record is linked. -/
theorem leads_linkModule {s : State σ η} (hs : s.Good host E B) (r : RecordId) :
    Leads (fun t => t.Good host E B ∧ State.Follows s t) E s (linkModule host serve r)
      fun _ t => ∃ a, t.record? r = some a ∧ a.status.isWhole = true := by
  refine (leads_recordAt ⟨hs, .refl s⟩ r).bind ?_
  rintro a _ - - ⟨rfl, ha⟩
  have ha : s.record? r = some a := ha
  cases hstatus : a.status with
  | unlinked =>
      have hphase : a.phase = .unlinked := (hs.formed ha).eq_of_status hstatus rfl
      obtain ⟨hgood, hevolves, hnone⟩ := hs.take_linking ha hstatus
      have hrest : a.requests = a.dependencies.map Prod.fst ++ a.requests := by
        rw [hnone]
        rfl
      have hsame : ({ a with phase := .linking } : ModuleRecord σ η).referrer = a.referrer := rfl
      have hrequests := leads_linkRequests h hhost (State.lt_of_record? ha) a.requests hgood
        hevolves (State.record?_setPhaseIn ha .linking) rfl hsame hrest
      have hseen : ∀ t : State σ η, t.Good host E B ∧ State.Evolves (· = r) s t →
          t.Good host E B ∧ State.Follows s t :=
        fun t ht => follows_of_evolves ha (by rw [hstatus]; rfl) ht
      refine leads_during_linking ha hphase hrequests (fun t ht => hseen t ht.1) (fun t ht => ht.2)
        ?_ ?_
      · rintro t e ⟨⟨ht, hst⟩, b, hb, hbphase⟩
        exact hseen _ (ht.fail hst hb (by rw [ModuleRecord.status, hbphase]; rfl) rfl e.message)
      · rintro t ⟨⟨ht, hst⟩, -⟩ ⟨b, hb, hbphase, hwhole⟩
        have hdone : b.status.canMove Phase.linked.status = true := by
          rw [ModuleRecord.status, hbphase]
          rfl
        refine ⟨hseen _ ⟨?_, hst.setPhase hb rfl hdone .linked⟩, _,
          State.record?_setPhaseIn hb _, rfl⟩
        exact ht.setPhase hb hdone .linked (fun _ => hwhole) (by simp)
  | linking => exact .fail ⟨hs, .refl s⟩ (hhost.error _ fun h => h)
  | errored => exact .fail ⟨hs, .refl s⟩ (hhost.error _ fun h => h)
  | linked => exact .pure ⟨hs, .refl s⟩ ⟨a, ha, by rw [hstatus]; rfl⟩
  | evaluating => exact .pure ⟨hs, .refl s⟩ ⟨a, ha, by rw [hstatus]; rfl⟩
  | evaluated => exact .pure ⟨hs, .refl s⟩ ⟨a, ha, by rw [hstatus]; rfl⟩

omit hhost in
/-- Evaluating dependencies leads to a good state, in which all of them are evaluated. -/
theorem leads_evaluateAll {s : State σ η} (hs : s.Good host E B) (imports : OrderedMap Namespace)
    (deps : List (String × RecordId)) :
    Leads (fun t => t.Good host E B ∧ State.Follows s t) E s (evaluateAll serve imports deps)
      fun _ t => ∀ dep ∈ deps, ∃ c, t.record? dep.2 = some c ∧ c.status = .evaluated := by
  induction deps generalizing imports s with
  | nil => exact .pure ⟨hs, .refl s⟩ (by simp)
  | cons dep rest ih =>
      refine (h.call (.evaluate dep.2) s hs).bind fun n m hrun hm _ => ?_
      obtain ⟨a, ha, hphase⟩ := h.evaluate dep.2 s n m hs hrun
      have hfinal : a.status.isTerminal = true := by rw [ModuleRecord.status, hphase]; rfl
      refine (ih hm.1 (imports.insert dep.1 n)).imp (fun t ht => ⟨ht.1, hm.2.trans ht.2⟩) ?_
      intro _ t _ ht hrest d hd
      rcases List.mem_cons.1 hd with rfl | hd
      · obtain ⟨b, hb, hbphase⟩ := ht.2.final ha hfinal
        exact ⟨b, hb, by rw [ModuleRecord.status, hbphase, hphase]; rfl⟩
      · exact hrest d hd

theorem leads_evaluateKind {s : State σ η} (hs : s.Good host E B) (r : RecordId)
    {a : ModuleRecord σ η} (hbody : ∀ m, a.kind = .source m → B m.compiled)
    (hwhole : a.dependencies.map Prod.fst = a.requests) :
    Leads (fun t => t.Good host E B ∧ State.Follows s t) E s (evaluateKind serve r a)
      fun _ t => ∀ dep ∈ a.dependencies, ∃ c, t.record? dep.2 = some c ∧ c.status = .evaluated := by
  unfold evaluateKind
  cases hkind : a.kind with
  | source m =>
      have hkept : ∀ t u : State σ η, (∀ dep ∈ a.dependencies, ∃ c, t.record? dep.2 = some c ∧
          c.status = .evaluated) → State.Follows t u →
          ∀ dep ∈ a.dependencies, ∃ c, u.record? dep.2 = some c ∧ c.status = .evaluated := by
        intro t u hdone htu dep hdep
        obtain ⟨c, hc, hstatus⟩ := hdone dep hdep
        obtain ⟨c', hc', hphase⟩ := htu.final hc (by rw [hstatus]; rfl)
        exact ⟨c', hc', by rw [ModuleRecord.status, hphase]; exact hstatus⟩
      refine (leads_evaluateAll h hs _ _).bind fun imports u _ hu hdone => ?_
      -- what is left runs code, and what is evaluated stays so
      have hrest := h.keeps_runBody hhost u r a imports (hbody m hkind)
      refine (Leads.of_keeps hrest ⟨hu.1, .refl u⟩).imp (fun t ht => ⟨ht.1, hu.2.trans ht.2⟩) ?_
      exact fun _ t _ ht _ => hkept u t hdone ht.2
  | synthetic m =>
      have hnone : a.dependencies = [] := by
        have hrequests : a.requests = [] := by simp [ModuleRecord.requests, hkind]
        rw [hrequests] at hwhole
        exact List.map_eq_nil_iff.1 hwhole
      rw [hnone]
      exact ⟨⟨hs.congr rfl rfl, .of_records_eq rfl⟩, fun _ hdep => absurd hdep List.not_mem_nil⟩

/-- Evaluating a record leads to a good state, and if it succeeds then the record is evaluated, to
what is answered. -/
theorem leads_evaluate {s : State σ η} (hs : s.Good host E B) (r : RecordId) :
    Leads (fun t => t.Good host E B ∧ State.Follows s t) E s (evaluate serve r)
      fun n t => ∃ a, t.record? r = some a ∧ a.phase = .evaluated n := by
  refine (leads_recordAt ⟨hs, .refl s⟩ r).bind ?_
  rintro a _ - - ⟨rfl, ha⟩
  have ha : s.record? r = some a := ha
  cases hstatus : a.status with
  | linked =>
      have hphase : a.phase = .linked := (hs.formed ha).eq_of_status hstatus rfl
      obtain ⟨hgood, hevolves, hwhole⟩ := hs.take_evaluating ha hstatus
      have hevaluating := State.record?_setPhaseIn ha .evaluating
      -- the record is somebody else's to what is run on its behalf
      have hkept : ∀ t, t.Good host E B ∧ State.Follows (setPhaseIn s r .evaluating) t →
          (t.Good host E B ∧ State.Evolves (· = r) s t) ∧
            t.record? r = some { a with phase := .evaluating } := by
        rintro t ⟨ht, hst⟩
        exact ⟨⟨ht, hevolves.trans (.of_follows hst)⟩, hst.busy r _ hevaluating rfl fun hf => hf⟩
      have hkind := leads_evaluateKind h hhost hgood r (fun m => hs.bodies r a m ha) hwhole
      have hseen : ∀ t : State σ η, t.Good host E B ∧ State.Evolves (· = r) s t →
          t.Good host E B ∧ State.Follows s t :=
        fun t ht => follows_of_evolves ha (by rw [hstatus]; rfl) ht
      refine leads_evaluateAnew ha hphase (hkind.weaken hkept) (fun t ht => hseen t ht.1)
        (fun t ht => ⟨_, ht.2, rfl⟩) ?_ ?_
      · rintro t e ⟨⟨ht, hst⟩, hat⟩
        exact hseen _ (ht.fail hst hat rfl rfl e.message)
      · rintro n t ⟨⟨ht, hst⟩, hat⟩ ⟨-, hdone⟩
        refine ⟨hseen _ ⟨?_, hst.setPhase hat rfl rfl (.evaluated n)⟩, _,
          State.record?_setPhaseIn hat _, rfl⟩
        exact ht.setPhase hat rfl (.evaluated n) (by simp) fun _ => hdone
  | evaluated =>
      -- the namespace has been kept, so that nothing is evaluated anew
      obtain ⟨n, hphase⟩ := (hs.formed ha).exists_of_evaluated hstatus
      rw [hphase]
      exact .pure ⟨hs, .refl s⟩ ⟨a, ha, hphase⟩
  | unlinked => exact .fail ⟨hs, .refl s⟩ (hhost.error _ fun h => h)
  | linking => exact .fail ⟨hs, .refl s⟩ (hhost.error _ fun h => h)
  | evaluating => exact .fail ⟨hs, .refl s⟩ (hhost.error _ fun h => h)
  | errored => exact .fail ⟨hs, .refl s⟩ (hhost.error _ fun h => h)

end Linker

theorem KeepsGood.answer (h : KeepsGood host E B serve) (hhost : host.CodeFailsWithin E B) :
    KeepsGood host E B (answer host serve) where
  call c s hs := by
    have hcode := h.loadInvariant hhost s
    have hstart : s.Good host E B ∧ State.Follows s s := ⟨hs, .refl s⟩
    cases c with
    | require lookup => exact .of_keeps (hcode.require lookup) hstart
    | link specifier referrer =>
        exact (Linker.leads_link h hhost hs specifier referrer).imp (fun _ ht => ht)
          fun _ _ _ _ _ => trivial
    | buildSource specifier referrer =>
        exact (Leads.of_keeps (hcode.buildSource specifier referrer) hstart).imp (fun _ ht => ht)
          fun _ _ _ _ _ => trivial
    | buildSynthetic specifier referrer =>
        exact (Leads.of_keeps (hcode.buildSynthetic specifier referrer) hstart).imp (fun _ ht => ht)
          fun _ _ _ _ _ => trivial
    | linkModule r =>
        exact (Linker.leads_linkModule h hhost hs r).imp (fun _ ht => ht)
          fun _ _ _ _ _ => trivial
    | evaluate r =>
        exact (Linker.leads_evaluate h hhost hs r).imp (fun _ ht => ht)
          fun _ _ _ _ _ => trivial
  linkModule r s _ hs hrun := ((Linker.leads_linkModule h hhost hs r).of_eq_ok hrun).2
  evaluate r s _ _ hs hrun := ((Linker.leads_evaluate h hhost hs r).of_eq_ok hrun).2

/-- Whatever the depth, calls lead from good states to good ones. -/
theorem keepsGood_serve (hhost : host.CodeFailsWithin E B) (depth : Nat) :
    KeepsGood host E B (ModuleLoader.serve host depth) := by
  induction depth with
  | zero =>
      refine ⟨fun c s hs => ⟨⟨hs, .refl s⟩, trivial⟩, fun r s t _ h => ?_, fun r s n t _ h => ?_⟩
      · simp [ModuleLoader.serve] at h
      · simp [ModuleLoader.serve] at h
  | succ depth ih => exact ih.answer hhost

end

end ModuleLoader
