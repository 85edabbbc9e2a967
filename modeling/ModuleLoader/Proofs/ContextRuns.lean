import ModuleLoader.Proofs.RunInvariant
/-!
What a run does is done for its context.

A run is made for one context, and that is handed on from place to place: from the
referrer to the record that is built for it, from the record to the referrer of its
own imports and to the environment in which its body runs, and from there to whatever
the body imports. None of these makes up a context. What is compiled is compiled for
the context of the run, and so on, however deep the imports nest, as long as the
code that is run comes back to the linker for no context but the one it was handed.
Scripts have a context of their own, which is the same for all of them.
-/

namespace ModuleLoader

variable {σ η α β : Type}

/-! ### Programs -/

/-- The program comes back to the linker only for the contexts, and names only records that it was
handed or has been shown below them. What it answers with is as `P` says. -/
def Program.OnBehalf (own : ContextId → Prop) (P : α → Prop) :
    (RecordId → Prop) → Program σ η α → Prop
  | _, .done a => P a
  | _, .panic _ => True
  | known, .act a next => ∀ r, (next r).OnBehalf own P fun x => known x ∨ a.Reveals known r x
  | known, .call c next =>
    c.OnBehalf own known ∧ ∀ r, (next r).OnBehalf own P fun x => known x ∨ c.Hands r x

/-- A host that does so with all that it runs for the contexts. -/
def Host.OnBehalf (host : Host σ η) (own : ContextId → Prop) (C : Compiled σ η → Prop) : Prop :=
  host.Runs own (fun _ P p => p.OnBehalf own P fun _ => False) C

section

variable {own : ContextId → Prop} {known new : RecordId → Prop} {P : α → Prop} {Q : β → Prop}
  {I : State σ η → Prop} {serve : (c : Call) → Eff σ η c.Reply}

theorem Call.OnBehalf.mono {c : Call} (h : c.OnBehalf own known) (hknown : ∀ x, known x → new x) :
    c.OnBehalf own new := by
  cases c with
  | linkModule r => exact hknown r h
  | evaluate r => exact hknown r h
  | _ => exact h

theorem Program.OnBehalf.mono {p : Program σ η α} (hp : p.OnBehalf own P known)
    (hknown : ∀ x, known x → new x) : p.OnBehalf own P new := by
  induction p generalizing known new with
  | done a => exact hp
  | panic m => trivial
  | act a next ih =>
      exact fun r => ih r (hp r) fun x hx => hx.imp (hknown x) fun hshown => hshown.mono hknown
  | call c next ih =>
      exact ⟨hp.1.mono hknown, fun r => ih r (hp.2 r) fun x hx => hx.imp (hknown x) id⟩

theorem Program.OnBehalf.bind {p : Program σ η α} {f : α → Program σ η β}
    (hp : p.OnBehalf own P known) (hf : ∀ a, P a → (f a).OnBehalf own Q known) :
    (p.bind f).OnBehalf own Q known := by
  induction p generalizing known with
  | done a => exact hf a hp
  | panic m => trivial
  | act a next ih => exact fun r => ih r (hp r) fun a ha => (hf a ha).mono fun _ => Or.inl
  | call c next ih =>
      exact ⟨hp.1, fun r => ih r (hp.2 r) fun a ha => (hf a ha).mono fun _ => Or.inl⟩

theorem Script.onBehalf_importModule {referrer : Referrer} (hown : own referrer.context)
    (specifier : String) {P : Except Error Namespace → Prop} (hP : ∀ o, P o) :
    (Script.importModule referrer specifier : Script σ η Namespace).run.OnBehalf own P known := by
  refine ⟨hown, fun o => ?_⟩
  cases o with
  | error e => exact hP _
  | ok r =>
      refine ⟨Or.inr rfl, fun o => ?_⟩
      cases o with
      | error e => exact hP _
      | ok _ =>
          refine ⟨Or.inl (Or.inr rfl), fun o => ?_⟩
          cases o <;> exact hP _

/-- A program keeps what its actions keep and what the calls keep that are made on behalf of the
contexts. -/
theorem Program.OnBehalf.stays {p : Program σ η α} (hp : p.OnBehalf own P known)
    (hact : ∀ (a : Action σ η) s, I s → I (a.carryOut s).2 ∧
      ∀ x, a.Reveals new (a.carryOut s).1 x → new x)
    (hcall : ∀ c : Call, c.OnBehalf own new → Eff.Stays I (c.Gives new) (serve c))
    (hknown : ∀ x, known x → new x) : Eff.Stays I P (p.run serve) := by
  induction p generalizing known with
  | done a => exact .pure hp
  | panic m => exact .panic m
  | act a next ih =>
      refine .bind (P := fun r => ∀ x, a.Reveals new r x → new x)
        (.of_runIn fun s hs => hact a s hs) ?_
      exact fun r hr => ih r (hp r) fun x hx => hx.elim (hknown x) fun hshown =>
        hr x (hshown.mono hknown)
  | call c next ih =>
      refine .bind (hcall c (hp.1.mono hknown)).settle fun r hr => ?_
      -- what the call has handed out may be named from now on, and it is new
      refine ih r (hp.2 r) fun x hx => hx.elim (hknown x) fun hx => ?_
      cases r with
      | ok reply => exact hr x hx
      | error e => cases c <;> exact hx.elim

end

/-! ### Records that are new -/

structure State.NewRecords (first : Nat) (R : ModuleRecord σ η → Prop) (s : State σ η) : Prop where
  le : first ≤ s.records.size
  all : ∀ r a, first ≤ r.index → s.record? r = some a → R a

namespace State.NewRecords

variable {first : Nat} {R : ModuleRecord σ η → Prop} {s t : State σ η}

theorem none (s : State σ η) : s.NewRecords s.records.size R where
  le := Nat.le_refl _
  all _ _ hr ha := absurd (State.lt_of_record? ha) (Nat.not_lt.2 hr)

theorem congr (h : s.NewRecords first R) (hrecords : t.records = s.records) :
    t.NewRecords first R where
  le := hrecords ▸ h.le
  all r a hr ha := h.all r a hr (by rwa [State.record?_congr hrecords] at ha)

theorem add (h : s.NewRecords first R) {a : ModuleRecord σ η} (ha : R a) :
    (s.add a).NewRecords first R where
  le := by
    rw [State.size_add]
    exact Nat.le_succ_of_le h.le
  all r b hr hb := by
    rw [State.record?_add] at hb
    split at hb
    · exact Option.some.inj hb ▸ ha
    · exact h.all r b hr hb

theorem modifyRecord (h : s.NewRecords first R) {x : RecordId}
    {f : ModuleRecord σ η → ModuleRecord σ η} (hf : ∀ a, R a → R (f a)) :
    (s.modifyRecord x f).NewRecords first R where
  le := by
    rw [State.size_modifyRecord]
    exact h.le
  all r b hr hb := by
    rw [State.record?_modifyRecord] at hb
    split at hb
    · obtain ⟨a, ha, rfl⟩ := Option.map_eq_some_iff.1 hb
      exact hf a (h.all r a hr ha)
    · exact h.all r b hr hb

theorem of_reveals (h : s.NewRecords first R)
    (hR : ∀ a, R a → ∀ dep ∈ a.dependencies, first ≤ dep.2.index) {a : Action σ η} {x : RecordId}
    (hx : a.Reveals (first ≤ ·.index) (a.carryOut s).1 x) : first ≤ x.index := by
  obtain ⟨y, b, hy, hb, dep, hdep, rfl⟩ := Action.exists_of_reveals hx
  exact hR b (h.all y b hy hb) dep hdep

variable {own : ContextId → Prop} {C : Compiled σ η → Prop}

theorem modifyPhase (h : s.NewRecords first (·.Within own (first ≤ ·.index) C)) (r : RecordId)
    (f : Phase → Phase) :
    (Linker.modifyPhaseIn s r f).NewRecords first (·.Within own (first ≤ ·.index) C) :=
  h.modifyRecord fun _ ha => ha

theorem addDependency (h : s.NewRecords first (·.Within own (first ≤ ·.index) C)) (r : RecordId)
    (specifier : String) {dep : RecordId} (hdep : first ≤ dep.index) :
    (Linker.addDependencyIn s r specifier dep).NewRecords first
      (·.Within own (first ≤ ·.index) C) := by
  refine h.modifyRecord fun a ha => ⟨ha.1, ha.2.1, fun d hd => ?_⟩
  rcases List.mem_append.1 hd with hd | hd
  · exact ha.2.2 d hd
  · exact List.mem_singleton.1 hd ▸ hdep

end State.NewRecords

/-! ### Runs -/

/-- The event is on behalf of the contexts: a module is compiled for one of them, or the body of a
new record is run in one of them and may import for the same. A script is run in the context of
scripts. -/
def Event.OnBehalf (own : ContextId → Prop) (new : RecordId → Prop) (scriptContext : ContextId) :
    Event → Prop
  | .compile _ _ context => own context
  | .evaluate r env => new r ∧ own env.context ∧ env.importer.context = env.context
  | .enter _ context _ _ => context = scriptContext
  | _ => True

/-- From the first state on all was done on behalf of the contexts, as the events tell, and the
records that are new belong to them. -/
structure State.OnBehalf (host : Host σ η) (own : ContextId → Prop) (C : Compiled σ η → Prop)
    (first : Nat) (s t : State σ η) : Prop where
  events : ∃ events, t.trace.toList = s.trace.toList ++ events ∧
    ∀ e ∈ events, e.OnBehalf own (first ≤ ·.index) host.scriptContext
  records : t.NewRecords first (·.Within own (first ≤ ·.index) C)

namespace State.OnBehalf

variable {host : Host σ η} {own : ContextId → Prop} {C : Compiled σ η → Prop} {first : Nat}
  {s t u : State σ η}

theorem refl (hs : s.NewRecords first (·.Within own (first ≤ ·.index) C)) :
    OnBehalf host own C first s s where
  events := ⟨[], (List.append_nil _).symm, nofun⟩
  records := hs

theorem congr (h : OnBehalf host own C first s t) (hrecords : u.records = t.records)
    (htrace : u.trace = t.trace) : OnBehalf host own C first s u where
  events := htrace ▸ h.events
  records := h.records.congr hrecords

theorem push (h : OnBehalf host own C first s t) {e : Event}
    (he : e.OnBehalf own (first ≤ ·.index) host.scriptContext) (hrecords : u.records = t.records)
    (htrace : u.trace = t.trace.push e) : OnBehalf host own C first s u where
  events := by
    obtain ⟨events, heq, hall⟩ := h.events
    refine ⟨events ++ [e], by rw [htrace, Array.toList_push, heq, List.append_assoc], ?_⟩
    exact fun e' he' => (List.mem_append.1 he').elim (hall e') fun h => List.mem_singleton.1 h ▸ he
  records := h.records.congr hrecords

theorem carryOut (h : OnBehalf host own C first s t) (a : Action σ η) :
    OnBehalf host own C first s (a.carryOut t).2 := by
  have hrecords := a.records_carryOut t
  cases a with
  | note line => exact h.push (e := .note line) trivial hrecords rfl
  | writeExports r value => exact h.push (e := .assign r value) trivial hrecords rfl
  | evict p => exact h.push (e := .evict p (t.cache.contains p)) trivial hrecords rfl
  | _ => exact h.congr hrecords rfl

end State.OnBehalf

/-- The loader does nothing of its own accord that is not on behalf of the contexts. -/
theorem runInvariant_onBehalf {host : Host σ η} {own : ContextId → Prop} {C : Compiled σ η → Prop}
    (hhost : host.OnBehalf own C) (first : Nat) (serve : (c : Call) → Eff σ η c.Reply)
    (hserve : ∀ i (c : Call), c.OnBehalf own (first ≤ ·.index) →
      Eff.Stays (State.OnBehalf host own C first i) (c.Gives (first ≤ ·.index)) (serve c))
    (i : State σ η) :
    RunInvariant (State.OnBehalf host own C first i) own (first ≤ ·.index) C host serve where
  passing s e he hs := by
    refine hs.push (e := e) ?_ rfl rfl
    cases e <;> trivial
  compile s identifier url context hown hs :=
    hs.push (e := .compile identifier url context) hown rfl rfl
  body s r env hr hown himporter hs :=
    hs.push (e := .evaluate r env) ⟨hr, hown, himporter⟩ rfl rfl
  addChild s parent child hs := hs.congr rfl rfl
  enter s p parent _ hs := hs.push (e := .enter p host.scriptContext _ _) rfl rfl rfl
  leave s p outcome hs := by
    cases outcome with
    | ok exports => exact hs.push (e := .leave p (.ok exports)) trivial rfl rfl
    | error e => exact hs.push (e := .leave p (.error e)) trivial rfl rfl
  parse s p parent value hs := hs.push (e := .parse p value) trivial rfl rfl
  make s l _ hs := hs.congr rfl rfl
  newNamespace s exports hs := hs.congr rfl rfl
  add s identifier referrer kind hown hkind hs :=
    ⟨⟨hs.events, hs.records.add ⟨hown, fun m hm => (hkind m hm).1, nofun⟩⟩, hs.records.le⟩
  record s r a hs hr ha := hs.records.all r a hr ha
  modifyPhase s r f hs _ := ⟨hs.events, hs.records.modifyPhase r f⟩
  addDependency s r specifier dep hs _ hdep :=
    ⟨hs.events, hs.records.addDependency r specifier hdep⟩
  foreign := hhost.imp fun _ _ _ hp =>
    hp.stays (fun a _ hs => ⟨hs.carryOut a, fun _ => hs.records.of_reveals fun _ h => h.2.2⟩)
      (hserve i)
      fun _ => False.elim
  call := hserve i

/-- At any depth a call on behalf of some contexts stays within them. -/
theorem onBehalf_serve {host : Host σ η} {own : ContextId → Prop} {C : Compiled σ η → Prop}
    (hhost : host.OnBehalf own C) (first depth : Nat) (i : State σ η) (c : Call)
    (hc : c.OnBehalf own (first ≤ ·.index)) :
    Eff.Stays (State.OnBehalf host own C first i) (c.Gives (first ≤ ·.index))
      (serve host depth c) :=
  runInvariant_serve host (fun serve hserve => runInvariant_onBehalf hhost first serve hserve)
    depth i c hc

end ModuleLoader
