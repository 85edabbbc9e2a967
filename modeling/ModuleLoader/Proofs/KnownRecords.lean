import ModuleLoader.Proofs.GoodStates
/-!
Records that nobody else knows of.

A program can only ask for a record to be evaluated that it has come upon: the
record was there when the program was made, or it is the answer to a call, or
somebody has remembered it, or it is a dependency of a record that the program
was answered with itself. Names of records are numbers here, and it has to be
said that a program does not make them up (`Program.EvaluatesKnown`).

So there are records that no program will ask for: those that a record got while
it was being linked for somebody else. `State.Hides` says of a set of records that
it is one of this kind, and `State.Spares` what the code of others does about the
records of such a set, which is nothing.
-/

namespace ModuleLoader

variable {σ η α β : Type}

/-! ### Programs -/

/-- The record that comes with an answer. -/
def Call.Hands : (c : Call) → Except Error c.Reply → RecordId → Prop
  | link .., .ok r => fun x => x = r
  | buildSource .., .ok r => fun x => x = r
  | buildSynthetic .., .ok r => fun x => x = r
  | _, _ => fun _ => False

namespace Action

/-- The action does not make anybody remember a record that was not known. -/
def Within (names : σ → RecordId → Prop) (known : RecordId → Prop) : Action σ η → Prop
  | modifyStore f => ∀ store x, names (f store) x → known x ∨ names store x
  | _ => True

def Hands (names : σ → RecordId → Prop) : (a : Action σ η) → a.Reply → RecordId → Prop
  | store, remembered => names remembered
  | _, _ => fun _ => False

/-- The dependencies of a known record that come with the answer. -/
def Reveals (known : RecordId → Prop) : (a : Action σ η) → a.Reply → RecordId → Prop
  | dependencies x, some deps => fun y => known x ∧ ∃ dep ∈ deps, dep.2 = y
  | _, _ => fun _ => False

variable {names : σ → RecordId → Prop} {known known' : RecordId → Prop} {a : Action σ η}
  {s : State σ η} {x : RecordId}

theorem Within.mono (ha : a.Within names known) (h : ∀ x, known x → known' x) :
    a.Within names known' := by
  cases a with
  | modifyStore f => exact fun store x hx => (ha store x hx).imp_left (h x)
  | _ => trivial

theorem Reveals.mono {r : a.Reply} (hx : a.Reveals known r x) (h : ∀ x, known x → known' x) :
    a.Reveals known' r x := by
  cases a with
  | dependencies y =>
      cases r with
      | none => exact hx
      | some deps => exact ⟨h y hx.1, hx.2⟩
  | _ => exact hx

theorem exists_of_reveals (hx : a.Reveals known (a.carryOut s).1 x) :
    ∃ y b, known y ∧ s.record? y = some b ∧ ∃ dep ∈ b.dependencies, dep.2 = x := by
  cases a with
  | dependencies y =>
      change Reveals known (.dependencies y) ((s.record? y).map ModuleRecord.dependencies) x at hx
      cases hy : s.record? y with
      | none => rw [hy] at hx; exact hx.elim
      | some b => rw [hy] at hx; exact ⟨y, b, hx.1, hy, hx.2⟩
  | _ => exact hx.elim

theorem names_carryOut (ha : a.Within names known) (hx : names (a.carryOut s).2.store x) :
    known x ∨ names s.store x := by
  cases a with
  | modifyStore f => exact ha s.store x hx
  | _ => exact Or.inr hx

theorem names_of_hands (hx : a.Hands names (a.carryOut s).1 x) : names s.store x := by
  cases a with
  | store => exact hx
  | _ => exact hx.elim

end Action

/-- The program evaluates only records that are known to it or its own. Its own are those that it
was answered with and what it was shown below them. What it ends with is as `P` says, and which
records what is remembered names is for `names` to say. -/
def Program.EvaluatesAmong (names : σ → RecordId → Prop) (P : α → Prop) :
    (known own : RecordId → Prop) → Program σ η α → Prop
  | _, _, .done a => P a
  | _, _, .panic _ => True
  | known, own, .act a next =>
    a.Within names (fun x => known x ∨ own x) ∧
      ∀ r, (next r).EvaluatesAmong names P (fun x => known x ∨ a.Hands names r x)
        fun x => own x ∨ a.Reveals own r x
  | known, own, .call c next =>
    (∀ x, c = .evaluate x → known x ∨ own x) ∧
      ∀ r, (next r).EvaluatesAmong names P known fun x => own x ∨ c.Hands r x

def Program.EvaluatesKnown (names : σ → RecordId → Prop) (P : α → Prop) (known : RecordId → Prop)
    (p : Program σ η α) : Prop :=
  p.EvaluatesAmong names P known fun _ => False

def Script.EvaluatesKnown (names : σ → RecordId → Prop) (P : α → Prop) (known : RecordId → Prop)
    (s : Script σ η α) : Prop :=
  Program.EvaluatesKnown names (Eff.Answers (fun _ => True) P) known s.run

def Compiled.EvaluatesKnown (names : σ → RecordId → Prop) (known : RecordId → Prop)
    (c : Compiled σ η) : Prop :=
  ∀ env, (c.body env).EvaluatesKnown names (fun _ => True) known

/-- All that the host runs does, and so do the bodies of the modules that it makes. -/
def Host.EvaluatesKnown (names : σ → RecordId → Prop) (known : RecordId → Prop) (host : Host σ η) :
    Prop :=
  host.Every (fun _ P p => p.EvaluatesKnown names P known) (fun _ => True)
    (Compiled.EvaluatesKnown names known)

variable {names : σ → RecordId → Prop} {known own : RecordId → Prop} {P : α → Prop} {Q : β → Prop}

theorem Action.failsWithin_true (a : Action σ η) : a.FailsWithin fun _ => True := by
  cases a with
  | make l => exact fun _ _ _ _ _ => Eff.answers_of_forall (fun _ => trivial) (fun _ => trivial) _
  | _ => trivial

theorem Program.EvaluatesAmong.failsWithin {p : Program σ η α}
    (hp : p.EvaluatesAmong names P known own) : p.FailsWithin (fun _ => True) P := by
  induction p generalizing known own with
  | done a => exact hp
  | panic m => trivial
  | act a next ih => exact ⟨a.failsWithin_true, fun r _ => ih r (hp.2 r)⟩
  | call c next ih => exact fun r _ => ih r (hp.2 r)

theorem Host.EvaluatesKnown.codeFailsWithin {host : Host σ η}
    (h : host.EvaluatesKnown names known) :
    host.CodeFailsWithin (fun _ => True) (Compiled.EvaluatesKnown names known) where
  code := h.imp fun _ _ _ hp => hp.failsWithin
  body _ hc env := (hc env).failsWithin
  error _ _ := trivial

theorem Program.EvaluatesAmong.mono {known' own' : RecordId → Prop} {p : Program σ η α}
    (hp : p.EvaluatesAmong names P known own) (hknown : ∀ x, known x → known' x)
    (hown : ∀ x, own x → own' x) : p.EvaluatesAmong names P known' own' := by
  induction p generalizing known known' own own' with
  | done a => exact hp
  | panic m => trivial
  | act a next ih =>
      refine ⟨hp.1.mono fun x hx => hx.imp (hknown x) (hown x), fun r => ih r (hp.2 r) ?_ ?_⟩
      · exact fun x hx => hx.imp_left (hknown x)
      · exact fun x hx => hx.imp (hown x) fun hshown => hshown.mono hown
  | call c next ih =>
      refine ⟨fun x hx => (hp.1 x hx).imp (hknown x) (hown x), fun r => ih r (hp.2 r) hknown ?_⟩
      exact fun x hx => hx.imp_left (hown x)

theorem Program.EvaluatesAmong.bind {p : Program σ η α} {f : α → Program σ η β}
    (hp : p.EvaluatesAmong names P known own)
    (hf : ∀ a, P a → (f a).EvaluatesAmong names Q known own) :
    (p.bind f).EvaluatesAmong names Q known own := by
  induction p generalizing known own with
  | done a => exact hf a hp
  | panic m => trivial
  | act a next ih =>
      exact ⟨hp.1, fun r => ih r (hp.2 r) fun a ha => (hf a ha).mono (fun _ => Or.inl)
        fun _ => Or.inl⟩
  | call c next ih =>
      exact ⟨hp.1, fun r => ih r (hp.2 r) fun a ha => (hf a ha).mono (fun _ => id) fun _ => Or.inl⟩

/-- What an import evaluates is what was linked for it. -/
theorem Script.evaluatesKnown_importModule (referrer : Referrer) (specifier : String) :
    (importModule referrer specifier : Script σ η Namespace).EvaluatesKnown names (fun _ => True)
      known := by
  refine ⟨fun x hx => Call.noConfusion hx, fun linked => ?_⟩
  cases linked with
  | error e => trivial
  | ok r =>
      refine ⟨fun x hx => Call.noConfusion hx, fun done => ?_⟩
      cases done with
      | error e => trivial
      | ok u =>
          refine ⟨fun x hx => Or.inr (Or.inl (Or.inr ?_)), fun n => ?_⟩
          · exact (Call.evaluate.inj hx).symm
          · cases n <;> trivial

/-! ### Secrets -/

namespace State

/-- Nobody knows of the records of the set, and nobody comes upon them who does not. -/
structure Hides (names : σ → RecordId → Prop) (known hidden : RecordId → Prop) (s : State σ η) :
    Prop where
  there : ∀ x, hidden x → x.index < s.records.size
  known : ∀ x, known x → x.index < s.records.size ∧ ¬ hidden x
  named : ∀ x, names s.store x → x.index < s.records.size ∧ ¬ hidden x
  closed : ∀ x a, s.record? x = some a → a.status = .linked → ¬ hidden x →
    ∀ dep ∈ a.dependencies, ¬ hidden dep.2

/-- The records of the set are as they were, unless they were still to be linked. No body of theirs
was run, and none of a record that was under way. -/
structure Spares (hidden : RecordId → Prop) (s t : State σ η) : Prop where
  records : ∀ x a, hidden x → s.record? x = some a → a.status ≠ .unlinked → t.record? x = some a
  runs : ∃ runs, t.trace.evaluations = s.trace.evaluations ++ runs ∧ ∀ run ∈ runs,
    ¬ hidden run.1 ∧ ∀ a, s.record? run.1 = some a → a.status.isBusy = false

variable {hidden : RecordId → Prop} {s m t : State σ η} {x : RecordId} {a : ModuleRecord σ η}

theorem Spares.of_eq (hrecords : t.records = s.records)
    (hruns : t.trace.evaluations = s.trace.evaluations) : Spares hidden s t where
  records x a _ ha _ := by rwa [record?_congr hrecords]
  runs := ⟨[], by rw [hruns, List.append_nil], fun _ hrun => absurd hrun List.not_mem_nil⟩

theorem Spares.refl (s : State σ η) : Spares hidden s s := .of_eq rfl rfl

theorem Spares.trans (h : Spares hidden s m) (hsm : Follows s m) (h' : Spares hidden m t) :
    Spares hidden s t where
  records x a hx ha hstatus := h'.records x a hx (h.records x a hx ha hstatus) hstatus
  runs := by
    obtain ⟨before, hbefore, hfirst⟩ := h.runs
    obtain ⟨after, hafter, hsecond⟩ := h'.runs
    refine ⟨before ++ after, by rw [hafter, hbefore, List.append_assoc], fun run hrun => ?_⟩
    rcases List.mem_append.1 hrun with hrun | hrun
    · exact hfirst run hrun
    · refine ⟨(hsecond run hrun).1, fun a ha => ?_⟩
      cases hbusy : a.status.isBusy with
      | false => rfl
      | true =>
          -- what was under way before is so in between
          rw [← hbusy]
          exact (hsecond run hrun).2 a (hsm.busy _ a ha hbusy fun hf => hf)

theorem Spares.modifyRecord (h : Spares hidden s m) (f : ModuleRecord σ η → ModuleRecord σ η)
    (hx : ∀ a, hidden x → s.record? x = some a → a.status = .unlinked) :
    Spares hidden s (m.modifyRecord x f) where
  records y a hy ha hstatus := by
    have hne : y ≠ x := by
      rintro rfl
      exact hstatus (hx a hy ha)
    rw [record?_modifyRecord, if_neg hne]
    exact h.records y a hy ha hstatus
  runs := h.runs

/-- The body of a record outside the set may be run, if the record was not under way. -/
theorem Spares.emit (h : Spares hidden s m) (hx : ¬ hidden x)
    (hidle : ∀ a, s.record? x = some a → a.status.isBusy = false) (env : ModuleEnvironment) :
    Spares hidden s (m.emit (.evaluate x env)) where
  records := h.records
  runs := by
    obtain ⟨before, hbefore, hruns⟩ := h.runs
    refine ⟨before ++ [(x, env)], ?_, fun run hrun => ?_⟩
    · rw [← List.append_assoc, ← hbefore]
      exact Trace.evaluations_push _ _
    · rcases List.mem_append.1 hrun with hrun | hrun
      · exact hruns run hrun
      · rw [List.mem_singleton.1 hrun]
        exact ⟨hx, hidle⟩

theorem hides_nothing (hnamed : ∀ x, names s.store x → x.index < s.records.size) :
    s.Hides names (fun x => x.index < s.records.size) fun _ => False :=
  ⟨fun _ => False.elim, fun _ hx => ⟨hx, id⟩, fun x hx => ⟨hnamed x hx, id⟩,
    fun _ _ _ _ _ _ _ => id⟩

theorem Hides.of_eq (h : s.Hides names known hidden) (hrecords : t.records = s.records)
    (hnamed : ∀ x, names t.store x → x.index < s.records.size ∧ ¬ hidden x) :
    t.Hides names known hidden where
  there := by rw [hrecords]; exact h.there
  known := by rw [hrecords]; exact h.known
  named := by rw [hrecords]; exact hnamed
  closed := by rw [record?_congr hrecords]; exact h.closed

theorem Hides.add (h : s.Hides names known hidden) (identifier : String) (referrer : Referrer)
    (kind : ModuleKind σ η) :
    (s.add (.fresh identifier referrer kind)).Hides names known hidden where
  there x hx := by
    rw [size_add]
    exact Nat.lt_succ_of_lt (h.there x hx)
  known x hx := by
    rw [size_add]
    exact ⟨Nat.lt_succ_of_lt (h.known x hx).1, (h.known x hx).2⟩
  named x hx := by
    rw [size_add]
    exact ⟨Nat.lt_succ_of_lt (h.named x hx).1, (h.named x hx).2⟩
  closed x a ha hstatus hx := by
    rw [record?_add] at ha
    split at ha
    · cases ha
      exact absurd hstatus (by simp [ModuleRecord.fresh, ModuleRecord.status])
    · exact h.closed x a ha hstatus hx

theorem Hides.modifyRecord
    (h : s.Hides names known hidden) {f : ModuleRecord σ η → ModuleRecord σ η}
    (ha : s.record? x = some a) (hnew : (f a).status = .linked → ¬ hidden x →
      ∀ dep ∈ (f a).dependencies, ¬ hidden dep.2) :
    (s.modifyRecord x f).Hides names known hidden where
  there := by rw [size_modifyRecord]; exact h.there
  known := by rw [size_modifyRecord]; exact h.known
  named := by rw [size_modifyRecord]; exact h.named
  closed y b hb hstatus hy := by
    rw [record?_modifyRecord] at hb
    split at hb
    · rename_i heq
      rw [heq, ha] at hb
      cases hb
      exact hnew hstatus (heq ▸ hy)
    · exact h.closed y b hb hstatus hy

/-- A record may be moved on, to the phase `linked` only if it comes upon nothing by that. -/
theorem Hides.setPhase (h : s.Hides names known hidden) {phase : Phase} (ha : s.record? x = some a)
    (hnew : phase.status = .linked → ¬ hidden x → ∀ dep ∈ a.dependencies, ¬ hidden dep.2) :
    (Linker.setPhaseIn s x phase).Hides names known hidden :=
  h.modifyRecord ha hnew

theorem Hides.addDependency (h : s.Hides names known hidden) (ha : s.record? x = some a)
    (hlinking : a.status = .linking) (specifier : String) (dep : RecordId) :
    (Linker.addDependencyIn s x specifier dep).Hides names known hidden :=
  h.modifyRecord ha fun hstatus => absurd (hlinking.symm.trans hstatus) (by decide)

end State

end ModuleLoader
