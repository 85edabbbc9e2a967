import ModuleLoader.Proofs.Brackets
/-!
One lookup, on its way through the hooks.

What is done for a lookup is done in stages: a callback of one layer after the
other, then what lies behind the hooks, then callbacks again. A stage may do
whatever it likes, lookups of its own included, and may also change the hooks.
That has no bearing on which stages there are. They are settled as the lookup
begins, by the layers that are installed there, and the only thing that cuts
them short is a panic on the way in. From the layer it strikes the lookup turns
back, and the layers it has entered by then are left as ever (`Stage.Turned`).

The proof goes along the layers, from the outermost in. A layer adds a stage at
each end of those that the layers inside it make up.
-/

namespace ModuleLoader

variable {σ η : Type}

open Eff

inductive Stage (σ η : Type) where
  | callback (event : Event) (f : LookupCall → Program σ η Unit)
  /-- The lookup itself, behind the hooks. -/
  | behind

namespace Stage

def mark (call : LookupCall) : Stage σ η → Event
  | callback event _ => event
  | behind => .lookup call

def run (host : Host σ η) (serve : (c : Call) → Eff σ η c.Reply) (call : LookupCall) :
    Stage σ η → Eff σ η (Option Value)
  | callback event f => do
    Hook.callback serve event call (some f)
    return none
  | behind => do return some (← Legacy.base host serve call)

/-- The callbacks on the way in, through layers of which the outermost is the first. -/
def wayIn (host : Host σ η) (call : LookupCall) (layers : List (Layer η)) : List (Stage σ η) :=
  layers.filterMap fun l => (host.hook l.hook).before?.map (callback (.before l.guard call))

/-- The callbacks on the way out of the same layers. -/
def wayOut (host : Host σ η) (call : LookupCall) (layers : List (Layer η)) : List (Stage σ η) :=
  layers.reverse.filterMap fun l => (host.hook l.hook).after?.map (callback (.after l.guard call))

variable {host : Host σ η} {call : LookupCall}

theorem wayIn_cons (l : Layer η) (layers : List (Layer η)) :
    wayIn host call (l :: layers) =
      ((host.hook l.hook).before?.map (callback (.before l.guard call))).toList ++
        wayIn host call layers := by
  cases h : (host.hook l.hook).before? <;> simp [wayIn, h]

theorem wayOut_cons (l : Layer η) (layers : List (Layer η)) :
    wayOut host call (l :: layers) =
      wayOut host call layers ++
        ((host.hook l.hook).after?.map (callback (.after l.guard call))).toList := by
  cases h : (host.hook l.hook).after? <;> simp [wayOut, h]

end Stage

/-- A stage, and how it ended. -/
abbrev Stage.Ended (σ η : Type) := Stage σ η × Except Fault (Option Value)

/-- The stages are run one after the other, each to the end given with it, and leave pieces of
history. Whatever is done in a stage comes after its mark. -/
inductive Stage.Runs (host : Host σ η) (serve : (c : Call) → Eff σ η c.Reply) (call : LookupCall) :
    List (Ended σ η) → List History → State σ η → State σ η → Prop
  | nil (s : State σ η) : Runs host serve call [] [] s s
  | cons {x : Stage σ η} {o : Except Fault (Option Value)} {w : History} {xs : List (Ended σ η)}
      {ws : List History} {s u t : State σ η}
      (hrun : (x.run host serve call).runIn s = (o, u))
      (hleft : u.history = s.history ++ x.mark call :: w)
      (hrest : Runs host serve call xs ws u t) : Runs host serve call ((x, o) :: xs) (w :: ws) s t

/-- Where a lookup that has layers to pass turns round: which of them it has entered by then, the
stage in which it turns round with its end, and what the lookup comes to. It turns behind all
layers, or else at the first that panics before it is entered. -/
inductive Stage.Turns (host : Host σ η) (call : LookupCall) (layers : List (Layer η)) :
    List (Layer η) → Ended σ η → Except Fault Value → Prop
  | behind (p : Except Fault Value) : Turns host call layers layers (.behind, p.map some) p
  | panic {outer inner : List (Layer η)} {l : Layer η} {f : LookupCall → Program σ η Unit}
      (message : String) (hlayers : layers = outer ++ l :: inner)
      (hf : (host.hook l.hook).before? = some f) :
      Turns host call layers outer
        (.callback (.before l.guard call) f, .error (.panic message)) (.error (.panic message))

namespace Stage

section

variable {host : Host σ η} {serve : (c : Call) → Eff σ η c.Reply} {call : LookupCall}
  {s t u : State σ η}

theorem Runs.append {xs ys : List (Ended σ η)} {vs ws : List History}
    (hxs : Runs host serve call xs vs s t) (hys : Runs host serve call ys ws t u) :
    Runs host serve call (xs ++ ys) (vs ++ ws) s u := by
  induction hxs with
  | nil s => exact hys
  | cons hrun hleft _ ih => exact .cons hrun hleft (ih hys)

/-- The marks stand in the history in the order of the stages. -/
theorem Runs.history_eq {xs : List (Ended σ η)} {ws : List History}
    (h : Runs host serve call xs ws s t) :
    ws.length = xs.length ∧
    t.history = s.history ++ (List.zipWith (fun x w => x.1.mark call :: w) xs ws).flatten := by
  induction h with
  | nil s => exact ⟨rfl, (List.append_nil _).symm⟩
  | cons _ hleft _ ih =>
      obtain ⟨hlength, hhistory⟩ := ih
      refine ⟨congrArg (· + 1) hlength, ?_⟩
      rw [hhistory, hleft, List.zipWith_cons_cons, List.flatten_cons, List.append_assoc]

theorem Turns.cons {layers entered : List (Layer η)} {turn : Ended σ η} {p : Except Fault Value}
    (h : Turns host call layers entered turn p) (l : Layer η) :
    Turns host call (l :: layers) (l :: entered) turn p := by
  cases h with
  | behind => exact .behind p
  | panic message hlayers hf => exact .panic message (by rw [hlayers]; rfl) hf

/-! ### What one stage does -/

variable (h : ledgerRelation.HoldsOfSteps serve)

include h

/-- A lookup behind the hooks leaves its mark before anything else. -/
theorem reaches_base (s : State σ η) :
    ledgerRelation.reaches (s.emit (.lookup call)) ((Legacy.base host serve call).runIn s).2 := by
  rw [Legacy.base, runIn_bind, runIn_emit]
  cases host.lookup? with
  | some f => exact (h.script (f call) _).1
  | none => exact (from_load h call ⟨call, by simp⟩).1

theorem exists_left (x : Stage σ η) {o : Except Fault (Option Value)}
    (hrun : (x.run host serve call).runIn s = (o, t)) :
    ∃ w, t.history = s.history ++ x.mark call :: w := by
  have hreaches : ledgerRelation.reaches (s.emit (x.mark call)) t := by
    obtain rfl : ((x.run host serve call).runIn s).2 = t := by rw [hrun]
    cases x with
    | callback event f =>
        exact (RunRelation.Carries.bind (h.program (f call)) (fun _ => .pure none) (s.emit event)).1
    | behind =>
        have hbase : ledgerRelation.reaches (s.emit (.lookup call))
            ((Legacy.base host serve call).runIn s).2 := reaches_base h s
        rw [run, runIn_bind]
        generalize (Legacy.base host serve call).runIn s = ended at hbase ⊢
        obtain ⟨_ | _, u⟩ := ended <;> exact hbase
  obtain ⟨⟨w, hw⟩, -⟩ := hreaches
  exact ⟨w, by rw [← hw, State.history_emit, List.append_assoc]; rfl⟩

theorem runs_single (x : Stage σ η) {o : Except Fault (Option Value)}
    (hrun : (x.run host serve call).runIn s = (o, t)) :
    ∃ ws, Runs host serve call [(x, o)] ws s t := by
  obtain ⟨w, hw⟩ := exists_left h x hrun
  exact ⟨[w], .cons hrun hw (.nil t)⟩

/-- A callback that a layer may have is a stage if it has it, and there is nothing to run if it does
not. -/
theorem runs_callback (host : Host σ η) {event : Event}
    {f? : Option (LookupCall → Program σ η Unit)} {o : Except Fault Unit}
    (hrun : (Hook.callback serve event call f?).runIn s = (o, t)) :
    ∃ ws, Runs host serve call
      ((f?.map (callback event)).toList.map (·, o.map fun _ => none)) ws s t := by
  cases f? with
  | none =>
      obtain ⟨-, rfl⟩ := Prod.mk.inj hrun
      exact ⟨[], .nil s⟩
  | some f =>
      refine runs_single h (callback event f) ?_
      rw [run, runIn_bind, hrun]
      cases o <;> rfl

omit h in
/-- A callback that ends in a panic is there. -/
theorem exists_of_callback_eq_error {event : Event}
    {f? : Option (LookupCall → Program σ η Unit)} {e : Fault}
    (hrun : (Hook.callback serve event call f?).runIn s = (.error e, t)) : ∃ f, f? = some f := by
  cases f? with
  | none => cases (Prod.mk.inj hrun).1
  | some f => exact ⟨f, rfl⟩

/-! ### What the layers make of it -/

/-- From one state to the other a lookup goes in through the layers as far as it can, turns round,
and comes out of all that it has entered. The end that it has turned with is the end that it comes
to, if nothing panics on the way out. -/
def Turned (host : Host σ η) (serve : (c : Call) → Eff σ η c.Reply) (call : LookupCall)
    (layers : List (Layer η)) (o : Except Fault Value) (s t : State σ η) : Prop :=
  ∃ entered turn p outs leaves, Turns host call layers entered turn p ∧
    outs.map Prod.fst = wayOut host call entered ∧
    Runs host serve call ((wayIn host call entered).map (·, .ok none) ++ turn :: outs) leaves s t ∧
    ((∀ x ∈ outs, x.2 = .ok none) → o = p)

/-- One layer more, from the outside. Whatever the end of the lookup inside it, it is left again. -/
theorem Turned.through {l : Layer η} {inner : List (Layer η)} {a b : State σ η}
    {r o : Except Fault Value}
    (hbefore : (Hook.callback serve (.before l.guard call) call
      (host.hook l.hook).before?).runIn s = (.ok (), a))
    (hinner : Turned host serve call inner r a b)
    (hrun : (do
      Hook.callback serve (.after l.guard call) call (host.hook l.hook).after?
      Eff.ofOutcome r).runIn b = (o, t))
    (hstop : o ≠ .error .outOfDepth) : Turned host serve call (l :: inner) o s t := by
  obtain ⟨entered, turn, p, outs, leaves, hturn, houts, hruns, hend⟩ := hinner
  obtain ⟨vs, hvs⟩ := runs_callback h host hbefore
  rw [runIn_bind] at hrun
  generalize hafter : (Hook.callback serve (.after l.guard call) call
    (host.hook l.hook).after?).runIn b = last at hrun
  obtain ⟨q, c⟩ := last
  obtain ⟨ws, hws⟩ := runs_callback h host hafter
  obtain rfl : c = t := by cases q <;> simpa using congrArg Prod.snd hrun
  refine ⟨l :: entered, turn, p,
    outs ++ ((host.hook l.hook).after?.map (callback (.after l.guard call))).toList.map
      (·, q.map fun _ => none), vs ++ (leaves ++ ws), hturn.cons l, ?_, ?_, fun hquiet => ?_⟩
  · rw [List.map_append, houts, wayOut_cons, List.map_map]
    exact congrArg _ (List.map_id _)
  · have hall := hvs.append (hruns.append hws)
    rw [List.append_assoc, List.cons_append, ← List.append_assoc] at hall
    rw [wayIn_cons, List.map_append]
    exact hall
  · cases q with
    | ok _ =>
        obtain rfl : r = o := by simpa using congrArg Prod.fst hrun
        exact hend fun x hx => hquiet x (List.mem_append_left _ hx)
    | error e =>
        obtain ⟨f, hf⟩ := exists_of_callback_eq_error hafter
        cases hquiet (callback (.after l.guard call) f, .error e) (by simp [hf, Except.map])

theorem turned_intercept {layers : List (Layer η)} {o : Except Fault Value}
    (hrun : (intercept host serve call (Legacy.base host serve call) layers).runIn s = (o, t))
    (hstop : o ≠ .error .outOfDepth) : Turned host serve call layers o s t := by
  induction layers generalizing s t o with
  | nil =>
      have hbehind : (run host serve call .behind).runIn s = (o.map some, t) := by
        rw [run, runIn_bind]
        rw [intercept] at hrun
        rw [hrun]
        cases o <;> rfl
      obtain ⟨ws, hws⟩ := runs_single h .behind hbehind
      exact ⟨[], (.behind, o.map some), o, [], ws, .behind o, rfl, hws, fun _ => rfl⟩
  | cons l inner ih =>
      rw [intercept, runIn_bind] at hrun
      generalize hbefore : (Hook.callback serve (.before l.guard call) call
        (host.hook l.hook).before?).runIn s = first at hrun
      obtain ⟨q, a⟩ := first
      cases q with
      | error e =>
          -- the layer is not entered, and nothing is run any more
          obtain ⟨rfl, rfl⟩ := Prod.mk.inj hrun
          obtain ⟨m, rfl⟩ := callback_eq_error hbefore fun he => hstop (by rw [he])
          obtain ⟨f, hf⟩ := exists_of_callback_eq_error hbefore
          obtain ⟨vs, hvs⟩ := runs_callback h host hbefore
          rw [hf] at hvs
          exact ⟨[], _, _, [], vs, .panic m rfl hf, rfl, hvs, fun _ => rfl⟩
      | ok _ =>
          dsimp only at hrun
          rw [runIn_bind, runIn_outcome] at hrun
          generalize hinner :
            (intercept host serve call (Legacy.base host serve call) inner).runIn a =
            second at hrun
          obtain ⟨r, b⟩ := second
          cases r with
          | ok _ => exact .through h hbefore (ih hinner (by simp)) hrun hstop
          | error fault =>
              cases fault with
              | error _ => exact .through h hbefore (ih hinner (by simp)) hrun hstop
              | panic _ => exact .through h hbefore (ih hinner (by simp)) hrun hstop
              | outOfDepth => exact absurd (Prod.mk.inj hrun).1.symm hstop

end

end Stage

/-- A lookup goes in through the layers that are installed as it begins, and comes out of those that
it has entered, with the end that it came to behind them. If a callback panics on the way in then
the lookup turns back there. Hooks that are changed meanwhile count for later lookups only. -/
theorem lookups_pass_their_layers (host : Host σ η) (depth : Nat) (call : LookupCall)
    (s t : State σ η)
    (o : Except Fault Value) (hrun : (serve host (depth + 1) (.require call)).runIn s = (o, t))
    (hstop : o ≠ .error .outOfDepth) :
    (∃ entered turn p outs leaves, Stage.Turns host call s.hooks.outermostFirst entered turn p ∧
      outs.map Prod.fst = Stage.wayOut host call entered ∧
      Stage.Runs host (serve host depth) call
        ((Stage.wayIn host call entered).map (·, .ok none) ++ turn :: outs) leaves s t ∧
      leaves.length = (Stage.wayIn host call entered).length + 1 + outs.length ∧
      t.history = s.history ++ (List.zipWith (fun x w => x.1.mark call :: w)
        ((Stage.wayIn host call entered).map (·, .ok none) ++ turn :: outs) leaves).flatten ∧
      ((∀ x ∈ outs, x.2 = .ok none) → o = p)) ∧
    ∀ u : State σ η, u.hooks.Consistent →
      (∀ hook, ((Action.install hook).carryOut u).2.hooks.outermostFirst =
        ⟨((Action.install hook).carryOut u).1, hook⟩ :: u.hooks.outermostFirst) ∧
      ∀ g, ((Action.restore g).carryOut u).2.hooks.outermostFirst =
        u.hooks.outermostFirst.filter fun l => l.guard ≠ g := by
  constructor
  · obtain ⟨entered, turn, p, outs, leaves, hturn, houts, hruns, hend⟩ :=
      Stage.turned_intercept (ledger_holdsOfSteps (ledger_serve host depth)) hrun hstop
    obtain ⟨hlength, hhistory⟩ := hruns.history_eq
    refine ⟨entered, turn, p, outs, leaves, hturn, houts, hruns, ?_, hhistory, hend⟩
    rw [hlength, List.length_append, List.length_map, List.length_cons]
    omega
  · intro u hu
    refine ⟨fun hook => List.reverse_concat .., fun g => ?_⟩
    change (u.hooks.restore g).layers.reverse = _
    rw [hu.layers_restore, ← List.filter_reverse]
    rfl

/-- A hook that changes the hooks as it is called: it takes out the first and installs itself once
more. The other one refuses some lookups, and panics. What lies behind them always fails. -/
def changingWorld : Host Unit Bool where
  files := ⟨[]⟩
  config := {}
  builtins := ⟨"node:", []⟩
  linkerBuiltins? := none
  scriptContext := ⟨0⟩
  compile _ _ := throw (.engine "")
  runScript _ _ := pure ()
  hook
    | true => ⟨some fun _ => do
        Program.perform (.restore ⟨0⟩)
        let _ ← Program.perform (.install true), some fun _ => Program.done ()⟩
    | false => ⟨some fun call => if call.id = "refused" then .panic "refused" else .done (),
        some fun _ => Program.done ()⟩
  lookup? := some fun _ => throw (.engine "nothing there")

def guarded : State Unit Bool :=
  { State.initial () with hooks := HookStack.empty.after [.install false, .install true] }

/-- A lookup that gets through comes out of the layers that it has entered, although one of them is
no longer installed and there is another. One that is refused comes out of the outer layer alone. -/
theorem lookups_pass_their_layers_changingWorld :
    let through : LookupCall := ⟨"a", ⟨"/main.cjs"⟩⟩
    let refused : LookupCall := ⟨"refused", ⟨"/main.cjs"⟩⟩
    let t := ((serve changingWorld 1 (.require through)).runIn guarded).2
    let t' := ((serve changingWorld 1 (.require refused)).runIn guarded).2
    t.history = [.before ⟨1⟩ through, .before ⟨0⟩ through, .lookup through, .after ⟨0⟩ through,
      .after ⟨1⟩ through] ∧
    t.hooks.outermostFirst = [⟨⟨2⟩, true⟩, ⟨⟨1⟩, true⟩] ∧
    t'.history = [.before ⟨1⟩ refused, .before ⟨0⟩ refused, .after ⟨1⟩ refused] ∧
    ∃ entered turn p outs leaves,
      Stage.Turns changingWorld refused [⟨⟨1⟩, true⟩, ⟨⟨0⟩, false⟩] entered turn p ∧
      outs.map Prod.fst = Stage.wayOut changingWorld refused entered ∧
      Stage.Runs changingWorld (serve changingWorld 0) refused
        ((Stage.wayIn changingWorld refused entered).map (·, .ok none) ++ turn :: outs) leaves
        guarded t' ∧
      ((∀ x ∈ outs, x.2 = .ok none) → .error (.panic "refused") = p) := by
  intro through refused t t'
  have hrefused : (serve changingWorld 1 (.require refused)).runIn guarded =
      (.error (.panic "refused"), t') := rfl
  obtain ⟨⟨entered, turn, p, outs, leaves, hturn, houts, hruns, -, -, hend⟩, -⟩ :=
    lookups_pass_their_layers changingWorld 0 refused guarded t' _ hrefused nofun
  exact ⟨rfl, rfl, rfl, entered, turn, p, outs, leaves, hturn, houts, hruns, hend⟩

end ModuleLoader
