import ModuleLoader.Proofs.Depth
import ModuleLoader.Proofs.RunInvariant
/-!
Errors that are not the loader's own.

Modules are compiled, and scripts looked up and run, by code that the loader does
not know. If it answers with an error then the loader passes this on. The errors
of the loader's own that come up between are plain. So where a record was to be
built and the error is not a plain one, it can be told which code has answered
with it. It was run in the course of building the record, in the state that is
reached there, and after it nothing was run but hooks.
-/

namespace ModuleLoader

open Eff

variable {σ η α : Type}

/-! ### Code that cannot fail -/

section

variable {host : Host σ η} {serve : (c : Call) → Eff σ η c.Reply} {s t : State σ η} {e : Error}

theorem Program.runIn_ne_error (p : Program σ η α) :
    (p.run serve).runIn s ≠ (.error (.error e), t) := by
  intro h
  have hcalls (c : Call) :
    Keeps (fun _ => True) (fun _ => True) (fun _ => True) (serve c) (serve c) :=
    .of_runIn fun s _ => ⟨trivial, ends_true _⟩
  have hends := (p.keeps_run (fun _ _ _ => trivial) hcalls (fun _ => False) s trivial).2.1
  rw [h] at hends
  exact hends

theorem Hook.callback_ne_error {event : Event} {call : LookupCall}
    {f? : Option (LookupCall → Program σ η Unit)} :
    (callback serve event call f?).runIn s ≠ (.error (.error e), t) := by
  intro h
  cases f? with
  | none => cases (Prod.mk.inj h).1
  | some f =>
      rcases runIn_bind_eq_error.1 h with h | ⟨_, _, -, h⟩
      · cases (Prod.mk.inj h).1
      · exact Program.runIn_ne_error _ h

end

/-! ### Lookups -/

namespace Legacy

variable {host : Host σ η} {serve : (c : Call) → Eff σ η c.Reply} {call : LookupCall}
  {s t : State σ η} {e : Error}

def enterLayers (host : Host σ η) (serve : (c : Call) → Eff σ η c.Reply) (call : LookupCall)
    (layers : List (Layer η)) : Eff σ η Unit :=
  layers.forM fun l => Hook.callback serve (.before l.guard call) call (host.hook l.hook).before?

def leaveLayers (host : Host σ η) (serve : (c : Call) → Eff σ η c.Reply) (call : LookupCall)
    (layers : List (Layer η)) : Eff σ η Unit :=
  layers.reverse.forM fun l =>
    Hook.callback serve (.after l.guard call) call (host.hook l.hook).after?

/-- A lookup that fails has failed behind the layers. -/
theorem intercept_eq_error {base : Eff σ η Value} {layers : List (Layer η)}
    (h : (intercept host serve call base layers).runIn s = (.error (.error e), t)) :
    ∃ u v, (enterLayers host serve call layers).runIn s = (.ok (), u) ∧
      base.runIn u = (.error (.error e), v) ∧
      (leaveLayers host serve call layers).runIn v = (.ok (), t) := by
  induction layers generalizing s t with
  | nil => exact ⟨s, t, rfl, h, rfl⟩
  | cons outer inner ih =>
      rw [intercept] at h
      rcases runIn_bind_eq_error.1 h with hbefore | ⟨_, m, hbefore, h⟩
      · exact absurd hbefore Hook.callback_ne_error
      rw [runIn_bind, runIn_outcome] at h
      dsimp only at h
      generalize hinner : (intercept host serve call base inner).runIn m = ended at h
      obtain ⟨o, n⟩ := ended
      -- the end of the lookup inside is passed on, so that it was this error
      have hend : ∀ o : Except Fault Value, (do
          Hook.callback serve (.after outer.guard call) call (host.hook outer.hook).after?
          Eff.ofOutcome o : Eff σ η Value).runIn n = (.error (.error e), t) →
          o = .error (.error e) ∧ (Hook.callback serve (.after outer.guard call) call
            (host.hook outer.hook).after?).runIn n = (.ok (), t) := by
        intro o h
        rcases runIn_bind_eq_error.1 h with hafter | ⟨_, m, hafter, hlast⟩
        · exact absurd hafter Hook.callback_ne_error
        · rw [runIn_ofOutcome, Prod.mk.injEq] at hlast
          obtain ⟨rfl, rfl⟩ := hlast
          exact ⟨rfl, hafter⟩
      obtain ⟨rfl, hafter⟩ : o = .error (.error e) ∧ (Hook.callback serve (.after outer.guard call)
          call (host.hook outer.hook).after?).runIn n = (.ok (), t) := by
        match o, h with
        | .ok a, h => exact hend _ h
        | .error (.error e'), h => exact hend _ h
        | .error (.panic _), h => exact hend _ h
      obtain ⟨u, v, hin, hbase, hout⟩ := ih hinner
      refine ⟨u, v, runIn_bind_eq_ok.2 ⟨_, m, hbefore, hin⟩, hbase, ?_⟩
      have hsplit : leaveLayers host serve call (outer :: inner) = (do
          leaveLayers host serve call inner
          leaveLayers host serve call [outer]) := by
        simp [leaveLayers, List.forM_append]
      rw [hsplit]
      exact runIn_bind_eq_ok.2 ⟨_, n, hout, runIn_bind_eq_ok.2 ⟨_, t, hafter, rfl⟩⟩

/-- Behind the hooks, the code that was to answer the lookup has answered with the error: what looks
things up in a way of its own, or the body of the script that was found. -/
inductive HostFails (host : Host σ η) (serve : (c : Call) → Eff σ η c.Reply) (call : LookupCall)
    (e : Error) (s : State σ η) : State σ η → Prop
  | lookup {f : LookupCall → Script σ η Value} {t : State σ η} (hf : host.lookup? = some f)
      (hrun : ((f call).exec serve).runIn (s.emit (.lookup call)) = (.error (.error e), t)) :
      HostFails host serve call e s t
  | script {p : Path} {text : String} {u : State σ η} (hnone : host.lookup? = none)
      (hfound : RequireId.resolve host.files host.builtins call.id call.parent = .ok (.script p))
      (hread : host.files.read p = .ok text)
      (hrun : ((host.runScript text ⟨p, dirname p, host.scriptContext, ⟨s.exports.size⟩⟩).exec
          serve).runIn (State.enter host (State.emit
            { s.emit (.lookup call) with cache := s.cache.addChild call.parent p } (.read p))
            p call.parent) = (.error (.error e), u)) :
      HostFails host serve call e s (u.leave p (.error e))

theorem plain_of_fetch {p : Path} (h : (fetch host p).runIn s = (.error (.error e), t)) :
    e.IsPlain := by
  rcases runIn_bind_eq_error.1 h with h | ⟨_, _, -, h⟩
  · cases (Prod.mk.inj h).1
  · cases hread : host.files.read p with
    | ok text => rw [hread] at h; cases (Prod.mk.inj h).1
    | error e' => rw [hread] at h; cases (Prod.mk.inj h).1; trivial

theorem runIn_fetch {p : Path} {text : String} (hread : host.files.read p = .ok text) :
    (fetch host p).runIn s = (.ok text, s.emit (.read p)) := by
  rw [fetch, runIn_bind, runIn_emit]
  simp only [hread]
  rfl

theorem plain_of_provide {builtins : Registry (Provider σ η)} {name : String}
    (h : (provide serve builtins name).runIn s = (.error (.error e), t)) : e.IsPlain := by
  unfold provide at h
  split at h
  · cases (Prod.mk.inj h).1
    trivial
  · rcases runIn_bind_eq_error.1 h with h | ⟨_, _, -, h⟩
    · cases (Prod.mk.inj h).1
    · exact absurd h (Program.runIn_ne_error _)

theorem plain_of_loadJson {p parent : Path}
    (h : (loadJson host p parent).runIn s = (.error (.error e), t)) : e.IsPlain := by
  rw [loadJson, modifyCache, runIn_bind, runIn_modify] at h
  dsimp only at h
  rw [runIn_bind, runIn_get] at h
  dsimp only at h
  split at h
  · cases (Prod.mk.inj h).1
  · rcases runIn_bind_eq_error.1 h with h | ⟨text, m, -, h⟩
    · exact plain_of_fetch h
    · split at h
      · cases (Prod.mk.inj h).1
        trivial
      · cases (Prod.mk.inj h).1

theorem hostFails_of_loadScript {p : Path} (he : ¬ e.IsPlain) (hnone : host.lookup? = none)
    (hfound : RequireId.resolve host.files host.builtins call.id call.parent = .ok (.script p))
    (h : (loadScript host serve p call.parent).runIn (s.emit (.lookup call)) =
      (.error (.error e), t)) : HostFails host serve call e s t := by
  rw [loadScript, modifyCache, runIn_bind, runIn_modify] at h
  dsimp only at h
  rw [runIn_bind, runIn_get] at h
  dsimp only at h
  split at h
  · cases (Prod.mk.inj h).1
  · cases hread : host.files.read p with
    | error e' =>
        rcases runIn_bind_eq_error.1 h with h | ⟨_, _, hfetch, -⟩
        · exact absurd (plain_of_fetch h) he
        · rw [read_of_fetch hfetch] at hread
          cases hread
    | ok text =>
        rw [runIn_bind, runIn_fetch hread] at h
        change (runBody host serve p text ⟨s.exports.size⟩).runIn (State.enter host (State.emit
          { s.emit (.lookup call) with cache := s.cache.addChild call.parent p } (.read p))
            p call.parent) = _ at h
        rw [runBody, runIn_bind, runIn_settle] at h
        generalize hbody : ((host.runScript text _).exec serve).runIn (State.enter host _ _ _) =
          ended at h
        obtain ⟨o, u⟩ := ended
        match o, h with
        | .ok (), h => cases (Prod.mk.inj h).1
        | .error (.error e'), h =>
            obtain ⟨hsame, rfl⟩ := Prod.mk.inj h
            obtain rfl : e' = e := by simpa using hsame
            exact .script hnone hfound hread hbody
        | .error (.panic _), h => cases (Prod.mk.inj h).1
        | .error .outOfDepth, h => cases (Prod.mk.inj h).1

theorem hostFails_of_base (he : ¬ e.IsPlain)
    (h : (base host serve call).runIn s = (.error (.error e), t)) :
    HostFails host serve call e s t := by
  rw [base, runIn_bind, runIn_emit] at h
  dsimp only at h
  cases hf : host.lookup? with
  | some f =>
      rw [hf] at h
      exact .lookup hf h
  | none =>
      rw [hf] at h
      dsimp only at h
      rw [load] at h
      have hplain := RequireId.plain_resolve host.files host.builtins call.id call.parent
      have hanswered : ∀ {p : Path} {x : Eff σ η Value},
          (answering p x).runIn (s.emit (.lookup call)) = (.error (.error e), t) →
          x.runIn (s.emit (.lookup call)) = (.error (.error e), t) := by
        intro p x h
        rcases runIn_bind_eq_error.1 h with h | ⟨_, _, _, h⟩
        · exact h
        · cases (Prod.mk.inj h).1
      rcases runIn_bind_eq_error.1 h with h | ⟨found, m, hfound, h⟩
      · rw [(runIn_ofExcept_eq_error.1 h).1] at hplain
        exact absurd hplain he
      · obtain ⟨hresolved, rfl⟩ := runIn_ofExcept_eq_ok.1 hfound
        cases found with
        | builtin name => exact absurd (plain_of_provide h) he
        | script p => exact hostFails_of_loadScript he hf hresolved (hanswered h)
        | json p => exact absurd (plain_of_loadJson (hanswered h)) he
        | native p =>
            cases (Prod.mk.inj h).1
            exact absurd trivial he

end Legacy

/-! ### Records that were to be built -/

namespace Linker

variable {host : Host σ η} {serve : (c : Call) → Eff σ η c.Reply} {specifier name : String}
  {referrer : Referrer} {s t : State σ η} {e : Error}

/-- A record was to be built of some kind and under some name, and code has answered with the error:
the text that was read could not be compiled, or the lookup of what is to be wrapped has failed
behind its layers. -/
inductive HostFails (host : Host σ η) (serve : (c : Call) → Eff σ η c.Reply) (referrer : Referrer)
    (e : Error) (s : State σ η) : Dispatch → String → State σ η → Prop
  | compile {name text url : String} {p : Path} {t : State σ η}
      (hp : resolveFile host name referrer = .ok p) (hread : host.files.read p = .ok text)
      (hurl : p.fileUrl? = some url)
      (hrun : ((host.compile text ⟨p.text, referrer.context, url⟩).exec serve).runIn
        ((s.emit (.read p)).emit (.compile p.text url referrer.context)) = (.error (.error e), t)) :
      HostFails host serve referrer e s .source name t
  | required {name : String} {p : Path} {u v t : State σ η}
      (hp : resolveFile host name referrer = .ok p)
      (hin : (Legacy.enterLayers host serve ⟨p.text, ⟨referrer.identifier⟩⟩
        s.hooks.outermostFirst).runIn s = (.ok (), u))
      (hfailed : Legacy.HostFails host serve ⟨p.text, ⟨referrer.identifier⟩⟩ e u v)
      (hout : (Legacy.leaveLayers host serve ⟨p.text, ⟨referrer.identifier⟩⟩
        s.hooks.outermostFirst).runIn v = (.ok (), t)) :
      HostFails host serve referrer e s .synthetic name t

theorem hostFails_of_buildSource (he : ¬ e.IsPlain)
    (h : (buildSource host serve name referrer).runIn s = (.error (.error e), t)) :
    HostFails host serve referrer e s .source name t := by
  rw [buildSource] at h
  rcases runIn_bind_eq_error.1 h with h | ⟨p, _, hresolve, h⟩
  · have hplain := plain_resolveFile host name referrer
    rw [(runIn_ofExcept_eq_error.1 h).1] at hplain
    exact absurd hplain he
  obtain ⟨hp, rfl⟩ := runIn_ofExcept_eq_ok.1 hresolve
  rcases runIn_bind_eq_error.1 h with h | ⟨text, m, hfetch, h⟩
  · exact absurd (Legacy.plain_of_fetch h) he
  have hread := Legacy.read_of_fetch hfetch
  rw [Legacy.runIn_fetch hread, Prod.mk.injEq] at hfetch
  obtain ⟨-, rfl⟩ := hfetch
  cases hurl : p.fileUrl? with
  | none =>
      rw [hurl] at h
      cases (Prod.mk.inj h).1
      exact absurd trivial he
  | some url =>
      rw [hurl] at h
      dsimp only at h
      rw [runIn_bind, runIn_emit] at h
      refine .compile hp hread hurl ((runIn_bind_eq_error.1 h).resolve_right ?_)
      rintro ⟨_, _, -, h⟩
      cases (Prod.mk.inj h).1

theorem hostFails_of_buildSynthetic (he : ¬ e.IsPlain)
    (h : (buildSynthetic host serve name referrer).runIn s = (.error (.error e), t)) :
    HostFails host serve referrer e s .synthetic name t := by
  rw [buildSynthetic] at h
  have horigin : (originOf host serve name referrer).runIn s = (.error (.error e), t) := by
    refine (runIn_bind_eq_error.1 h).resolve_right ?_
    rintro ⟨_, _, -, h⟩
    rcases runIn_bind_eq_error.1 h with h | ⟨_, _, -, h⟩
    · cases (Prod.mk.inj h).1
    · cases (Prod.mk.inj h).1
  rw [originOf] at horigin
  split at horigin
  · rcases runIn_bind_eq_error.1 horigin with h | ⟨_, _, -, h⟩
    · exact absurd (Legacy.plain_of_provide h) he
    · cases (Prod.mk.inj h).1
  · rcases runIn_bind_eq_error.1 horigin with h | ⟨p, _, hresolve, h⟩
    · have hplain := plain_resolveFile host name referrer
      rw [(runIn_ofExcept_eq_error.1 h).1] at hplain
      exact absurd hplain he
    obtain ⟨hp, rfl⟩ := runIn_ofExcept_eq_ok.1 hresolve
    rcases runIn_bind_eq_error.1 h with h | ⟨_, _, -, h⟩
    · rw [Legacy.require, runIn_bind, runIn_get] at h
      obtain ⟨u, v, hin, hbase, hout⟩ := Legacy.intercept_eq_error h
      exact .required hp hin (Legacy.hostFails_of_base he hbase) hout
    · cases (Prod.mk.inj h).1

theorem hostFails_of_build {d : Dispatch} (he : ¬ e.IsPlain)
    (h : (build host serve d name referrer).runIn s = (.error (.error e), t)) :
    HostFails host serve referrer e s d name t := by
  cases d with
  | source => exact hostFails_of_buildSource he h
  | synthetic => exact hostFails_of_buildSynthetic he h

end Linker

end ModuleLoader
