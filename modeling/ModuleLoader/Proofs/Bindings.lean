import ModuleLoader.Proofs.ContextRuns
import ModuleLoader.Proofs.Cells
/-!
The bindings of contexts that a run is not for.

What is bound in a context are the properties of its global object. Every context has
one of its own (`Host.separate_exec`), and the loader writes to no object that is
there. So bindings change only by what the code does that the loader runs, and if this
code writes to no other global object than that of the context it is handed then the
bindings of all other contexts are after a run what they were before.
-/

namespace ModuleLoader

variable {σ η α : Type}

/-! ### Contexts and their global objects -/

namespace State

structure Separate (s : State σ η) : Prop where
  there : ∀ c : ContextId, c.index < s.contexts.size →
    (s.context c).globals.index < s.heap.objects.size
  distinct : ∀ c d : ContextId, c.index < s.contexts.size → d.index < s.contexts.size →
    (s.context c).globals = (s.context d).globals → c = d

structure Later (s t : State σ η) : Prop where
  objects : s.heap.objects.size ≤ t.heap.objects.size
  contexts : s.contexts.size ≤ t.contexts.size
  old : ∀ c : ContextId, c.index < s.contexts.size → t.context c = s.context c
  new : ∀ c : ContextId, s.contexts.size ≤ c.index → c.index < t.contexts.size →
    s.heap.objects.size ≤ (t.context c).globals.index

variable {s t u : State σ η}

theorem Later.refl (s : State σ η) : Later s s where
  objects := Nat.le_refl _
  contexts := Nat.le_refl _
  old _ _ := rfl
  new _ hc hc' := absurd hc' (Nat.not_lt.2 hc)

theorem Later.trans (h : Later s t) (h' : Later t u) : Later s u where
  objects := Nat.le_trans h.objects h'.objects
  contexts := Nat.le_trans h.contexts h'.contexts
  old c hc := (h'.old c (Nat.lt_of_lt_of_le hc h.contexts)).trans (h.old c hc)
  new c hc hc' := by
    by_cases hlt : c.index < t.contexts.size
    · rw [h'.old c hlt]
      exact h.new c hc hlt
    · exact Nat.le_trans h.objects (h'.new c (Nat.le_of_not_lt hlt) hc')

theorem context_congr (h : t.contexts = s.contexts) : t.context = s.context := by
  funext c
  rw [context, context, h]

theorem Later.of_eq (hcontexts : t.contexts = s.contexts)
    (hobjects : s.heap.objects.size ≤ t.heap.objects.size) : Later s t where
  objects := hobjects
  contexts := Nat.le_of_eq (congrArg _ hcontexts.symm)
  old _ _ := congrFun (context_congr hcontexts) _
  new _ hc hc' := absurd (hcontexts ▸ hc') (Nat.not_lt.2 hc)

theorem Separate.of_eq (h : s.Separate) (hcontexts : t.contexts = s.contexts)
    (hobjects : s.heap.objects.size ≤ t.heap.objects.size) : t.Separate where
  there c hc := by
    rw [context_congr hcontexts]
    exact Nat.lt_of_lt_of_le (h.there c (hcontexts ▸ hc)) hobjects
  distinct c d hc hd := by
    rw [context_congr hcontexts]
    exact h.distinct c d (hcontexts ▸ hc) (hcontexts ▸ hd)

theorem context_newContext_of_lt (s : State σ η) (name? : Option String) {c : ContextId}
    (hc : c.index < s.contexts.size) : (s.newContext name?).2.context c = s.context c := by
  simp only [context, newContext, Array.getElem?_push, if_neg (Nat.ne_of_lt hc)]

theorem context_of_size_le {c : ContextId} (hc : s.contexts.size ≤ c.index) :
    s.context c = default := by
  simp [context, Array.getElem?_eq_none hc]

theorem globals_newContext_next (s : State σ η) (name? : Option String) :
    ((s.newContext name?).2.context ⟨s.contexts.size⟩).globals = ⟨s.heap.objects.size⟩ := by
  simp [context, newContext, Heap.newObject]

theorem size_newContext (s : State σ η) (name? : Option String) :
    (s.newContext name?).2.contexts.size = s.contexts.size + 1 := by
  simp [newContext]

theorem extends_newContext (s : State σ η) (name? : Option String) :
    s.heap.Extends (s.newContext name?).2.heap :=
  s.heap.extends_newObject .empty

/-- After a context has been made there are the contexts that there were and that one. -/
theorem eq_next_of_newContext {name? : Option String} {c : ContextId}
    (hc : c.index < (s.newContext name?).2.contexts.size) (hnew : ¬ c.index < s.contexts.size) :
    c = ⟨s.contexts.size⟩ := by
  rw [size_newContext] at hc
  cases c
  exact congrArg ContextId.mk (Nat.eq_of_le_of_lt_succ (Nat.le_of_not_lt hnew) hc)

theorem later_newContext (s : State σ η) (name? : Option String) :
    Later s (s.newContext name?).2 where
  objects := (s.extends_newContext name?).size
  contexts := by
    rw [size_newContext]
    exact Nat.le_succ _
  old c hc := s.context_newContext_of_lt name? hc
  new c hc hc' := by
    rw [eq_next_of_newContext hc' (Nat.not_lt.2 hc)]
    exact Nat.le_of_eq (congrArg ObjectRef.index (s.globals_newContext_next name?)).symm

theorem Separate.newContext (h : s.Separate) (name? : Option String) :
    (s.newContext name?).2.Separate := by
  have hsize : (s.newContext name?).2.heap.objects.size = s.heap.objects.size + 1 :=
    Array.size_push ..
  -- the new global object is none of those that there were
  have hnext : ∀ c : ContextId, c.index < s.contexts.size →
      (s.context c).globals ≠ ⟨s.heap.objects.size⟩ := fun c hc heq =>
    absurd (h.there c hc) (by rw [heq]; exact Nat.lt_irrefl _)
  refine ⟨fun c hc => ?_, fun c d hc hd heq => ?_⟩
  · rw [hsize]
    by_cases hlt : c.index < s.contexts.size
    · rw [context_newContext_of_lt s name? hlt]
      exact Nat.lt_succ_of_lt (h.there c hlt)
    · rw [eq_next_of_newContext hc hlt, globals_newContext_next]
      exact Nat.lt_succ_self _
  · by_cases hltc : c.index < s.contexts.size <;> by_cases hltd : d.index < s.contexts.size
    · rw [context_newContext_of_lt s name? hltc, context_newContext_of_lt s name? hltd] at heq
      exact h.distinct c d hltc hltd heq
    · rw [context_newContext_of_lt s name? hltc, eq_next_of_newContext hd hltd,
        globals_newContext_next] at heq
      exact (hnext c hltc heq).elim
    · rw [context_newContext_of_lt s name? hltd, eq_next_of_newContext hc hltc,
        globals_newContext_next] at heq
      exact (hnext d hltd heq.symm).elim
    · rw [eq_next_of_newContext hc hltc, eq_next_of_newContext hd hltd]

/-! ### Contexts that are left alone -/

structure Provides (own : ContextId → Prop) (s : State σ η) : Prop extends Separate s where
  exist : ∀ c : ContextId, own c → c.index < s.contexts.size

def bindings (s : State σ η) (c : ContextId) : Properties := s.heap.properties (s.context c).globals

structure Leaves (own : ContextId → Prop) (s t : State σ η) : Prop where
  provides : t.Provides own
  later : Later s t
  bindings : ∀ c : ContextId, ¬ own c → c.index < s.contexts.size → t.bindings c = s.bindings c

variable {own : ContextId → Prop}

theorem Provides.later (h : s.Provides own) (hlater : Later s t) (ht : t.Separate) :
    t.Provides own :=
  ⟨ht, fun c hc => Nat.lt_of_lt_of_le (h.exist c hc) hlater.contexts⟩

theorem Leaves.refl (hs : s.Provides own) : Leaves own s s := ⟨hs, .refl s, fun _ _ _ => rfl⟩

theorem Leaves.trans (h : Leaves own s t) (h' : Leaves own t u) : Leaves own s u where
  provides := h'.provides
  later := h.later.trans h'.later
  bindings c hc hlt :=
    (h'.bindings c hc (Nat.lt_of_lt_of_le hlt h.later.contexts)).trans (h.bindings c hc hlt)

theorem Provides.leaves_of_extends (hs : s.Provides own) (hcontexts : t.contexts = s.contexts)
    (hheap : s.heap.Extends t.heap) : Leaves own s t :=
  have hlater : Later s t := .of_eq hcontexts hheap.size
  { provides := hs.later hlater (hs.toSeparate.of_eq hcontexts hheap.size)
    later := hlater
    bindings c _ hlt := by
      rw [bindings, hlater.old c hlt]
      exact hheap.properties _ (hs.there c hlt) }

theorem Provides.leaves_setProperties (hs : s.Provides own) {o : ObjectRef}
    (ho : ∀ c : ContextId, ¬ own c → c.index < s.contexts.size → o ≠ (s.context c).globals)
    (ps : Properties) : Leaves own s { s with heap := s.heap.setProperties o ps } :=
  have hsize := Nat.le_of_eq (s.heap.size_setProperties o ps).symm
  have hlater : Later s { s with heap := s.heap.setProperties o ps } := .of_eq rfl hsize
  { provides := hs.later hlater (hs.toSeparate.of_eq rfl hsize)
    later := hlater
    bindings c hc hlt := by
      rw [bindings, hlater.old c hlt]
      exact Heap.properties_setProperties_of_ne (ho c hc hlt).symm ps }

theorem Provides.leaves_newContext (hs : s.Provides own) (name? : Option String) :
    Leaves own s (s.newContext name?).2 where
  provides := hs.later (s.later_newContext name?) (hs.toSeparate.newContext name?)
  later := s.later_newContext name?
  bindings c _ hlt := by
    rw [bindings, s.context_newContext_of_lt name? hlt]
    exact (s.extends_newContext name?).properties _ (hs.there c hlt)

end State

/-! ### What code writes to -/

/-- The object whose properties the action changes. -/
def Action.Writes : Action σ η → ObjectRef → Prop
  | setProperty o _ _ => (· = o)
  | deleteProperty o _ => (· = o)
  | _ => fun _ => False

/-- The program, run in the state, writes to the global object of no context outside the set. What
is done by a call that it makes is not its own doing. -/
def Program.WritesOnly (own : ContextId → Prop) : Program σ η α → State σ η → Prop
  | .done _, _ => True
  | .panic _, _ => True
  | .act a next, s =>
    (∀ o, a.Writes o → ∀ c : ContextId, ¬ own c → c.index < s.contexts.size →
      o ≠ (s.context c).globals) ∧
    (next (a.carryOut s).1).WritesOnly own (a.carryOut s).2
  | .call _ next, s => ∀ r t, State.Later s t → t.Separate → (next r).WritesOnly own t

/-- An import writes to nothing itself. What follows begins in some later state. -/
theorem Script.writesOnly_importModule_bind {β : Type} {own : ContextId → Prop} {s : State σ η}
    (referrer : Referrer) (specifier : String) {f : Namespace → Script σ η β}
    (hf : ∀ n t, State.Later s t → t.Separate → (f n).run.WritesOnly own t) :
    (Script.importModule referrer specifier >>= f).run.WritesOnly own s := by
  intro o t ht _
  cases o with
  | error e => trivial
  | ok r =>
      intro o u hu _
      cases o with
      | error e => trivial
      | ok _ =>
          intro o v hv hseparate
          cases o with
          | error e => trivial
          | ok n => exact hf n v ((ht.trans hu).trans hv) hseparate

/-- What the host runs for contexts of the first set writes only to contexts of the second. -/
def Host.WritesOnly (host : Host σ η) (own wide : ContextId → Prop) (C : Compiled σ η → Prop) :
    Prop :=
  host.Runs own (fun _ _ p => ∀ s : State σ η, s.Provides wide → p.WritesOnly wide s) C

open State

theorem Action.leaves_carryOut {own : ContextId → Prop} {s : State σ η} (hs : s.Provides own)
    (a : Action σ η) (ha : ∀ o, a.Writes o → ∀ c : ContextId, ¬ own c →
      c.index < s.contexts.size → o ≠ (s.context c).globals) :
    Leaves own s (a.carryOut s).2 := by
  cases a with
  | make l => exact hs.leaves_of_extends rfl (l.extends_make s.heap)
  | setProperty o key v => exact hs.leaves_setProperties (ha o rfl) _
  | deleteProperty o key => exact hs.leaves_setProperties (ha o rfl) _
  | newContext name? => exact hs.leaves_newContext name?
  | newNamespace exports => exact hs.leaves_of_extends rfl ⟨Nat.le_refl _, fun _ _ => rfl⟩
  | _ => exact hs.leaves_of_extends rfl (.refl _)

/-! ### Runs -/

section

variable {host : Host σ η} {own wide : ContextId → Prop} {C : Compiled σ η → Prop} {first : Nat}
  {serve : (c : Call) → Eff σ η c.Reply}

/-- Since the first state, the contexts outside of one set were left alone, and the records that are
new belong to those of the other. -/
structure State.LeavesFor (own wide : ContextId → Prop) (C : Compiled σ η → Prop) (first : Nat)
    (s t : State σ η) : Prop where
  leaves : Leaves wide s t
  records : t.NewRecords first (·.Within own (first ≤ ·.index) C)

theorem State.LeavesFor.extend {s t u : State σ η} (h : LeavesFor own wide C first s t)
    (hheap : t.heap.Extends u.heap) (hcontexts : u.contexts = t.contexts)
    (hrecords : u.records = t.records) : LeavesFor own wide C first s u where
  leaves := h.leaves.trans (h.leaves.provides.leaves_of_extends hcontexts hheap)
  records := h.records.congr hrecords

/-- A program leaves alone what it does not write to, as long as its calls do so too. -/
theorem Program.WritesOnly.leads {p : Program σ η α} {known : RecordId → Prop} {P : α → Prop}
    {s u : State σ η} (hp : p.OnBehalf own P known) (hw : p.WritesOnly wide u)
    (hcall : ∀ i (c : Call), c.OnBehalf own (first ≤ ·.index) →
      Eff.Stays (LeavesFor own wide C first i) (c.Gives (first ≤ ·.index)) (serve c))
    (hknown : ∀ x : RecordId, known x → first ≤ x.index) (hu : LeavesFor own wide C first s u) :
    Eff.Leads (LeavesFor own wide C first s) (fun _ => True) u (p.run serve) fun a _ => P a := by
  induction p generalizing known u with
  | done a => exact .pure hu hp
  | panic m => exact .throw_panic m hu
  | act a next ih =>
      refine .bind_of_eq_ok (Eff.runIn_perform a u) ?_
      have hleaves := a.leaves_carryOut hu.leaves.provides hw.1
      refine ih _ (hp _) hw.2 (fun x hx => hx.elim (hknown x) fun hshown => ?_)
        ⟨hu.leaves.trans hleaves, hu.records.congr (a.records_carryOut u)⟩
      exact hu.records.of_reveals (fun _ h => h.2.2) (hshown.mono hknown)
  | call c next ih =>
      have hserve : Eff.Leads (LeavesFor own wide C first u) (fun _ => True) u (serve c)
          fun r _ => c.Gives (first ≤ ·.index) r :=
        .of_keeps (hcall u c (hp.1.mono hknown)) ⟨.refl hu.leaves.provides, hu.records⟩
      have hsettled : Eff.Leads (LeavesFor own wide C first u) (fun _ => True) u (serve c).settle
          fun o _ => Eff.Answers (fun _ => True) (c.Gives (first ≤ ·.index)) o := hserve.settle
      refine (hsettled.weaken fun t ht => ⟨hu.leaves.trans ht.leaves, ht.records⟩).bind
        fun r t _ ht hr => ?_
      obtain ⟨hut, hr⟩ := hr
      -- contexts may have been made during the call, but those that were there are what they were
      have hlater := hw r t hut.leaves.later hut.leaves.provides.toSeparate
      refine ih r (hp.2 r) hlater (fun x hx => hx.elim (hknown x) fun hx => ?_) ht
      cases r with
      | ok reply => exact hr x hx
      | error e => cases c <;> exact hx.elim

/-- The loader writes to no object that is there. -/
theorem runInvariant_leaves (hhost : host.OnBehalf own C) (hwrites : host.WritesOnly own wide C)
    (first : Nat) (serve : (c : Call) → Eff σ η c.Reply)
    (hserve : ∀ i (c : Call), c.OnBehalf own (first ≤ ·.index) →
      Eff.Stays (LeavesFor own wide C first i) (c.Gives (first ≤ ·.index)) (serve c))
    (i : State σ η) :
    RunInvariant (LeavesFor own wide C first i) own (first ≤ ·.index) C host serve where
  passing s e _ hs := hs.extend (.refl _) rfl rfl
  compile s _ _ _ _ hs := hs.extend (.refl _) rfl rfl
  body s _ _ _ _ _ hs := hs.extend (.refl _) rfl rfl
  addChild s _ _ hs := hs.extend (.refl _) rfl rfl
  enter s _ _ _ hs := hs.extend (s.heap.extends_newObject .empty) rfl rfl
  leave s p outcome hs := by cases outcome <;> exact hs.extend (.refl _) rfl rfl
  parse s _ _ _ hs := hs.extend (.refl _) rfl rfl
  make s l _ hs := hs.extend (l.extends_make s.heap) rfl rfl
  newNamespace s _ hs := hs.extend ⟨Nat.le_refl _, fun _ _ => rfl⟩ rfl rfl
  add s identifier referrer kind hown hkind hs :=
    ⟨⟨hs.leaves.trans (hs.leaves.provides.leaves_of_extends rfl (.refl _)),
      hs.records.add ⟨hown, fun m hm => (hkind m hm).1, nofun⟩⟩, hs.records.le⟩
  record s r a hs hr ha := hs.records.all r a hr ha
  modifyPhase s r f hs _ :=
    ⟨hs.leaves.trans (hs.leaves.provides.leaves_of_extends rfl (.refl _)),
      hs.records.modifyPhase r f⟩
  addDependency s r specifier dep hs _ hdep :=
    ⟨hs.leaves.trans (hs.leaves.provides.leaves_of_extends rfl (.refl _)),
      hs.records.addDependency r specifier hdep⟩
  foreign := (Host.Runs.and hhost hwrites).imp fun _ _ _ hp => .of_runIn fun u hu =>
    Program.WritesOnly.leads hp.1 (hp.2 u hu.leaves.provides) hserve (fun _ => False.elim) hu
  call := hserve i

/-- No call that is made for some contexts changes the bindings of others. -/
theorem leaves_serve (hhost : host.OnBehalf own C) (hwrites : host.WritesOnly own wide C)
    (first depth : Nat) (i : State σ η) (c : Call) (hc : c.OnBehalf own (first ≤ ·.index)) :
    Eff.Stays (LeavesFor own wide C first i) (c.Gives (first ≤ ·.index))
      (ModuleLoader.serve host depth c) :=
  runInvariant_serve host (fun serve hserve => runInvariant_leaves hhost hwrites first serve hserve)
    depth i c hc

end

/-! ### Every state that can come up -/

theorem Action.separate_carryOut {s : State σ η} (hs : s.Separate) (a : Action σ η) :
    (a.carryOut s).2.Separate := by
  cases a with
  | make l => exact hs.of_eq rfl (l.extends_make s.heap).size
  | setProperty o key v => exact hs.of_eq rfl (Nat.le_of_eq (s.heap.size_setProperties o _).symm)
  | deleteProperty o key => exact hs.of_eq rfl (Nat.le_of_eq (s.heap.size_setProperties o _).symm)
  | newContext name? => exact hs.newContext name?
  | _ => exact hs.of_eq rfl (Nat.le_refl _)

/-- The loader makes no contexts, and moves no objects. -/
theorem survives_separate (host : Host σ η) : Survives State.Separate host where
  emit _ _ _ hs := hs.of_eq rfl (Nat.le_refl _)
  action a _ hs := a.separate_carryOut hs
  addChild _ _ _ hs := hs.of_eq rfl (Nat.le_refl _)
  enter s _ _ _ hs := hs.of_eq rfl (s.heap.extends_newObject .empty).size
  leave _ _ outcome hs := by cases outcome <;> exact hs.of_eq rfl (Nat.le_refl _)
  parse _ _ _ _ hs := hs.of_eq rfl (Nat.le_refl _)
  add _ _ _ hs := hs.of_eq rfl (Nat.le_refl _)
  modifyRecord _ _ _ _ hs := hs.of_eq rfl (Nat.le_refl _)

/-- Whatever is run in a new loader, every context has a global object of its own. -/
theorem Host.separate_exec (host : Host σ η) (depth : Nat) (program : Program σ η α) (store : σ) :
    (host.exec depth program (State.initial store)).2.Separate :=
  (survives_separate host).exec depth program
    ⟨fun _ hc => absurd hc (Nat.not_lt_zero _), fun _ _ hc => absurd hc (Nat.not_lt_zero _)⟩

end ModuleLoader
