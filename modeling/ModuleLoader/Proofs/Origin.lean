import ModuleLoader.Linker.Build
import ModuleLoader.Proofs.Keeps
/-!
What a specifier is linked to.

Whether a specifier becomes a source record or a synthetic one, and under which
name, is settled before anything is read or run. It depends on the host, the
specifier and the referrer, and on nothing that changes: `Linker.plan` says which
builder is to be used and what it is given, and `Linker.target` says what the
record will be called. A link that succeeds has made exactly one record, last of
all, and that record is as the target has it.
-/

namespace ModuleLoader

variable {σ η α : Type}

def ModuleRecord.dispatch (record : ModuleRecord σ η) : Dispatch :=
  match record.kind with
  | .source _ => .source
  | .synthetic _ => .synthetic

def State.add (s : State σ η) (record : ModuleRecord σ η) : State σ η :=
  { s with records := s.records.push record }

def State.next (s : State σ η) : RecordId := ⟨s.records.size⟩

/-- Text that was fetched is what is in the file. -/
theorem Legacy.read_of_fetch {host : Host σ η} {p : Path} {s s' : State σ η} {text : String}
    (h : (fetch host p).runIn s = (.ok text, s')) : host.files.read p = .ok text := by
  unfold fetch at h
  obtain ⟨_, _, -, h⟩ := Eff.runIn_bind_eq_ok.1 h
  cases hread : host.files.read p with
  | error e => simp [hread] at h
  | ok found =>
      simp only [hread, Eff.runIn_pure, Prod.mk.injEq, Except.ok.injEq] at h
      rw [h.1]

@[simp] theorem State.records_add_next (s : State σ η) (record : ModuleRecord σ η) :
    (s.add record).records[s.next.index]? = some record := by
  simp [State.add, State.next]

namespace Linker

variable {host : Host σ η} {serve : (c : Call) → Eff σ η c.Reply} {specifier : String}
  {referrer : Referrer}

/-- How linking goes on once it is known what a specifier means: which kind of record is to be
built, and for which specifier. -/
def plan (host : Host σ η) (specifier : String) (referrer : Referrer) :
    Except Error (Dispatch × String) :=
  if host.linkerBuiltins.isBuiltin specifier then .ok (.synthetic, specifier)
  else
    match resolve host specifier referrer with
    | .error e => .error e
    | .ok location =>
      match location.path? with
      | none => .ok (.synthetic, specifier)
      | some p =>
        match host.config.detect host.files p with
        | .error e => .error e
        | .ok none => .error (.unsupportedFormat specifier)
        | .ok (some .synthetic) => .ok (.synthetic, p.text)
        | .ok (some .source) =>
          if referrer.lineage.contains p.text then
            .error (.circularImport (referrer.lineage ++ [p.text]))
          else .ok (.source, p.text)

def build (host : Host σ η) (serve : (c : Call) → Eff σ η c.Reply) (d : Dispatch)
    (specifier : String) (referrer : Referrer) : Eff σ η RecordId :=
  match d with
  | .source => buildSource host serve specifier referrer
  | .synthetic => buildSynthetic host serve specifier referrer

def builtName (host : Host σ η) (d : Dispatch) (specifier : String) (referrer : Referrer) :
    Except Error String :=
  match d with
  | .source => (resolveFile host specifier referrer).map Path.text
  | .synthetic =>
    if host.linkerBuiltins.isBuiltin specifier then .ok specifier
    else (resolveFile host specifier referrer).map Path.text

/-- The kind of record that a specifier is linked to, and its name. -/
def target (host : Host σ η) (specifier : String) (referrer : Referrer) :
    Except Error (Dispatch × String) :=
  match plan host specifier referrer with
  | .error e => .error e
  | .ok (d, specifier) => (builtName host d specifier referrer).map fun name => (d, name)

/-! ### Planning -/

/-- Linking is planning and then building. -/
theorem link_eq_plan (serve : (c : Call) → Eff σ η c.Reply) (specifier : String)
    (referrer : Referrer) :
    link host serve specifier referrer =
      Eff.ofExcept (plan host specifier referrer) >>=
        fun p => build host serve p.1 p.2 referrer := by
  unfold link plan
  split
  · rfl
  cases resolve host specifier referrer with
  | error e => rfl
  | ok location =>
      cases hp : location.path? with
      | none => simp only [Eff.ofExcept, pure_bind, hp]; rfl
      | some p =>
          simp only [Eff.ofExcept, pure_bind, hp, buildAt]
          cases host.config.detect host.files p with
          | error e => rfl
          | ok d =>
              rcases d with - | d
              · rfl
              · cases d with
                | synthetic => rfl
                | source =>
                    simp only [pure_bind]
                    split <;> rfl

/-- A source record is planned for a file whose format asks for one, and that is not on the chain of
the referrer under the name it was found by. -/
theorem plan_eq_source {name : String} (h : plan host specifier referrer = .ok (.source, name)) :
    ∃ location p, host.linkerBuiltins.isBuiltin specifier = false ∧
      resolve host specifier referrer = .ok location ∧ location.path? = some p ∧
      host.config.detect host.files p = .ok (some .source) ∧
      p.text ∉ referrer.lineage ∧ p.text = name := by
  unfold plan at h
  split at h
  · simp at h
  rename_i hbuiltin
  cases hresolve : resolve host specifier referrer with
  | error e => simp [hresolve] at h
  | ok location =>
      cases hp : location.path? with
      | none => simp [hresolve, hp] at h
      | some p =>
          cases hdetect : host.config.detect host.files p with
          | error e => simp [hresolve, hp, hdetect] at h
          | ok d =>
              rcases d with - | d
              · simp [hresolve, hp, hdetect] at h
              · cases d with
                | synthetic => simp [hresolve, hp, hdetect] at h
                | source =>
                    simp only [hresolve, hp, hdetect] at h
                    split at h
                    · simp at h
                    · rename_i hchain
                      refine ⟨location, p, by simpa using hbuiltin, rfl, hp, hdetect, ?_, ?_⟩
                      · simpa using hchain
                      · simpa using h

/-! ### Building -/

variable {s s' : State σ η} {r : RecordId}

@[simp] theorem runIn_addRecord (record : ModuleRecord σ η) (s : State σ η) :
    (addRecord record).runIn s = (.ok s.next, s.add record) := rfl

/-- A source record that is built is of a file that could be read, and compiled. -/
theorem buildSource_eq_ok (h : (buildSource host serve specifier referrer).runIn s = (.ok r, s')) :
    ∃ p text url compiled, ∃ before m : State σ η, resolveFile host specifier referrer = .ok p ∧
      host.files.read p = .ok text ∧ p.fileUrl? = some url ∧
      ((host.compile text ⟨p.text, referrer.context, url⟩).exec serve).runIn before =
        (.ok compiled, m) ∧
      r = m.next ∧ s' = m.add (.fresh p.text referrer (.source ⟨p, url, compiled⟩)) := by
  unfold buildSource at h
  obtain ⟨p, _, hresolve, h⟩ := Eff.runIn_bind_eq_ok.1 h
  have hp := (Eff.runIn_ofExcept_eq_ok.1 hresolve).1
  obtain ⟨text, _, htext, h⟩ := Eff.runIn_bind_eq_ok.1 h
  have hread : host.files.read p = .ok text := Legacy.read_of_fetch htext
  cases hurl : p.fileUrl? with
  | none => simp [hurl] at h
  | some url =>
      rw [hurl] at h
      obtain ⟨_, before, -, h⟩ := Eff.runIn_bind_eq_ok.1 h
      obtain ⟨compiled, m, hcompile, h⟩ := Eff.runIn_bind_eq_ok.1 h
      rw [runIn_addRecord, Prod.mk.injEq, Except.ok.injEq] at h
      exact ⟨p, text, url, compiled, before, m, hp, hread, hurl, hcompile, h.1.symm, h.2.symm⟩

theorem runIn_buildSource {p : Path} {text url : String} {compiled : Compiled σ η}
    (hp : resolveFile host specifier referrer = .ok p) (hread : host.files.read p = .ok text)
    (hurl : p.fileUrl? = some url)
    (hcompile : host.compile text ⟨p.text, referrer.context, url⟩ = pure compiled)
    (s : State σ η) :
    ∃ m : State σ η, m.records = s.records ∧
      (buildSource host serve specifier referrer).runIn s =
        (.ok m.next, m.add (.fresh p.text referrer (.source ⟨p, url, compiled⟩))) := by
  refine ⟨(s.emit (.read p)).emit (.compile p.text url referrer.context), rfl, ?_⟩
  unfold buildSource Legacy.fetch
  rw [hp]
  simp only [Eff.ofExcept, pure_bind, bind_assoc, hread, hurl, hcompile]
  rfl

theorem buildSynthetic_eq_ok
    (h : (buildSynthetic host serve specifier referrer).runIn s = (.ok r, s')) :
    ∃ name wrapped, ∃ m : State σ η, builtName host .synthetic specifier referrer = .ok name ∧
      r = m.next ∧ s' = m.add (.fresh name referrer (.synthetic wrapped)) := by
  unfold buildSynthetic at h
  obtain ⟨⟨name, origin⟩, m, horigin, h⟩ := Eff.runIn_bind_eq_ok.1 h
  obtain ⟨_, _, hget, h⟩ := Eff.runIn_bind_eq_ok.1 h
  rw [runIn_addRecord, Prod.mk.injEq, Except.ok.injEq] at h
  rw [Eff.runIn_get, Prod.mk.injEq, Except.ok.injEq] at hget
  obtain ⟨rfl, rfl⟩ := hget
  refine ⟨name, wrap host.config.exportMode m.heap origin, m, ?_, h.1.symm, h.2.symm⟩
  unfold originOf at horigin
  unfold builtName
  dsimp only
  split at horigin
  · obtain ⟨value, _, -, horigin⟩ := Eff.runIn_bind_eq_ok.1 horigin
    simp only [Eff.runIn_pure, Prod.mk.injEq, Except.ok.injEq] at horigin
    rw [if_pos (by assumption), horigin.1.1]
  · obtain ⟨p, _, hp, horigin⟩ := Eff.runIn_bind_eq_ok.1 horigin
    obtain ⟨value, _, -, horigin⟩ := Eff.runIn_bind_eq_ok.1 horigin
    simp only [Eff.runIn_pure, Prod.mk.injEq, Except.ok.injEq] at horigin
    rw [if_neg (by assumption), (Eff.runIn_ofExcept_eq_ok.1 hp).1, ← horigin.1.1]
    rfl

/-- What is built is one more record, with the name it was bound to have. -/
theorem build_eq_ok {d : Dispatch}
    (h : (build host serve d specifier referrer).runIn s = (.ok r, s')) :
    ∃ name kind, ∃ m : State σ η, builtName host d specifier referrer = .ok name ∧
      (ModuleRecord.fresh name referrer kind : ModuleRecord σ η).dispatch = d ∧ r = m.next ∧
      s' = m.add (.fresh name referrer kind) := by
  cases d with
  | source =>
      obtain ⟨p, text, url, compiled, _, m, hp, -, -, -, hr, hs⟩ := buildSource_eq_ok h
      refine ⟨p.text, _, m, ?_, rfl, hr, hs⟩
      rw [builtName, hp]
      rfl
  | synthetic =>
      obtain ⟨name, wrapped, m, hname, hr, hs⟩ := buildSynthetic_eq_ok h
      exact ⟨name, _, m, hname, rfl, hr, hs⟩

/-- A link that succeeds has made one record, last of all, and it is as the target has it. -/
theorem link_eq_ok (h : (link host serve specifier referrer).runIn s = (.ok r, s')) :
    ∃ name kind, ∃ m : State σ η, r = m.next ∧ s' = m.add (.fresh name referrer kind) ∧
      target host specifier referrer =
        .ok ((ModuleRecord.fresh name referrer kind : ModuleRecord σ η).dispatch, name) := by
  rw [link_eq_plan] at h
  obtain ⟨p, _, hplan, h⟩ := Eff.runIn_bind_eq_ok.1 h
  obtain ⟨name, kind, m, hname, hkind, hr, hs⟩ := build_eq_ok h
  refine ⟨name, kind, m, hr, hs, ?_⟩
  rw [target, (Eff.runIn_ofExcept_eq_ok.1 hplan).1]
  dsimp only
  rw [hname, hkind]
  rfl

end Linker

end ModuleLoader
