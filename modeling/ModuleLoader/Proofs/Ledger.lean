import ModuleLoader.Proofs.Entries
import ModuleLoader.Trace
/-!
What the trace says about the files that scripts require.

The events that concern these files tell all that happens to them. So from the
events alone, and without a look at any state, one can work out what is kept for
a file, which bodies are running, and what is in the variable of each. The result
is the ledger, and it is kept by one rule for each kind of event.

The ledger says in turn what may come next. A body is begun only for a file of
which nothing is kept, it is the innermost body that ends, and a lookup is
answered with what is kept or with what has just come to be. `Due` says this of
one event, after the events before it, and a history is legal if all its events
were due when they came. That the histories of a loader are legal is for another
module to show. What follows from it is a matter of histories only.
-/

namespace ModuleLoader

/-- Events in the order in which they came. -/
abbrev History := List Event

/-- What is kept for a file: that its body is running, and began with an object, or what its body
has come to. -/
inductive Standing where
  | loading (start : Value)
  | loaded (exports : Value)

/-- What a lookup gets to see of it. -/
def Standing.exports : Standing → Value
  | loading start => start
  | loaded exports => exports

theorem ExportsRef.eq_iff_index {x r : ExportsRef} : x = r ↔ x.index = r.index := by
  cases x
  cases r
  simp

structure Ledger where
  /-- The scripts whose bodies are running, each with its variable, the innermost first. -/
  running : List (Path × ExportsRef)
  kept : Path → Option Standing
  held : ExportsRef → Option Value
  /-- Paths that take the same steps are one file. -/
  even : ∀ {p q}, p.same q → kept p = kept q

namespace Ledger

def blank : Ledger := ⟨[], fun _ => none, fun _ => none, fun _ => rfl⟩

def keep (l : Ledger) (p : Path) (standing : Option Standing) : Ledger :=
  { l with
    kept := fun q => if q.same p then standing else l.kept q
    even := fun hsame => by simp only [Path.same_congr hsame, l.even hsame] }

def hold (l : Ledger) (r : ExportsRef) (value : Option Value) : Ledger :=
  { l with held := fun x => if x = r then value else l.held x }

theorem held_hold (l : Ledger) (r x : ExportsRef) (value : Option Value) :
    (l.hold r value).held x = if x = r then value else l.held x := rfl

/-- The ledger after one more event. -/
def next (l : Ledger) : Event → Ledger
  | .enter p _ r start =>
    { (l.keep p (some (.loading start))).hold r (some start) with running := (p, r) :: l.running }
  | .leave p (.ok exports) =>
    { l.keep p ((l.kept p).map fun _ => .loaded exports) with running := l.running.tail }
  | .leave p (.error _) => { l.keep p none with running := l.running.tail }
  | .parse p value => l.keep p (some (.loaded value))
  | .evict p _ => l.keep p none
  | .assign r value => l.hold r ((l.held r).map fun _ => value)
  | _ => l

theorem running_next_leave (l : Ledger) (p : Path) (outcome : Except Error Value) :
    (l.next (.leave p outcome)).running = l.running.tail := by
  cases outcome <;> rfl

theorem held_next_enter (l : Ledger) (p : Path) (context : ContextId) (r : ExportsRef)
    (start : Value) : (l.next (.enter p context r start)).held r = some start := if_pos rfl

theorem kept_keep_same (l : Ledger) {p q : Path} (h : q.same p) (standing : Option Standing) :
    (l.keep p standing).kept q = standing := if_pos h

theorem kept_keep_ne (l : Ledger) {p q : Path} (h : ¬ q.same p) (standing : Option Standing) :
    (l.keep p standing).kept q = l.kept q := if_neg h

theorem held_isSome_next {l : Ledger} {r : ExportsRef} (h : (l.held r).isSome) (e : Event) :
    ((l.next e).held r).isSome := by
  cases e with
  | enter p context x start =>
      by_cases hr : r = x
      · simp [next, hold, hr]
      · simpa [next, hold, hr, keep] using h
  | leave p outcome => cases outcome <;> exact h
  | assign x value =>
      by_cases hr : r = x
      · subst hr
        simpa [next, hold] using h
      · simpa [next, hold, hr] using h
  | _ => exact h

/-- The body of a script at a path is running. -/
def Runs (l : Ledger) (p : Path) : Prop :=
  ∃ script ∈ l.running, script.1.same p

/-- A file that is being loaded has a body that is running. -/
def LoadingRuns (l : Ledger) : Prop :=
  ∀ p start, l.kept p = some (.loading start) → l.Runs p

variable {l : Ledger} {p : Path}

/-- One file is settled, and no body ends but one of that file. -/
theorem LoadingRuns.settle (h : l.LoadingRuns) {standing : Option Standing}
    {running : List (Path × ExportsRef)} (hstanding : ∀ start, standing ≠ some (.loading start))
    (hrunning : ∀ script ∈ l.running, ¬ script.1.same p → script ∈ running) :
    ({ l.keep p standing with running } : Ledger).LoadingRuns := by
  intro q start hq
  by_cases hsame : q.same p
  · exact (hstanding start ((l.kept_keep_same hsame standing).symm.trans hq)).elim
  · obtain ⟨script, hscript, hq⟩ := h q start ((l.kept_keep_ne hsame standing).symm.trans hq)
    exact ⟨script, hrunning script hscript (mt (Path.same_congr hq).1 hsame), hq⟩

theorem LoadingRuns.enter (h : l.LoadingRuns) (context : ContextId) (r : ExportsRef)
    (start : Value) :
    (l.next (.enter p context r start)).LoadingRuns := by
  intro q v hq
  by_cases hsame : q.same p
  · exact ⟨(p, r), List.mem_cons_self, Path.same_symm hsame⟩
  · obtain ⟨script, hscript, hq⟩ := h q v ((l.kept_keep_ne hsame _).symm.trans hq)
    exact ⟨script, List.mem_cons_of_mem _ hscript, hq⟩

theorem LoadingRuns.leave (h : l.LoadingRuns) {r : ExportsRef} {rest : List (Path × ExportsRef)}
    (hrunning : l.running = (p, r) :: rest) (outcome : Except Error Value) :
    (l.next (.leave p outcome)).LoadingRuns := by
  have hrest : ∀ script ∈ l.running, ¬ script.1.same p → script ∈ l.running.tail := by
    rw [hrunning]
    rintro script hscript hne
    refine (List.mem_cons.1 hscript).resolve_left ?_
    rintro rfl
    exact hne (Path.same_refl p)
  cases outcome with
  | ok exports =>
      refine h.settle (fun start hstart => ?_) hrest
      obtain ⟨_, _, heq⟩ := Option.map_eq_some_iff.1 hstart
      cases heq
  | error e => exact h.settle (fun start hstart => by cases hstart) hrest

end Ledger

namespace Event

/-- The event leaves the ledger as it is, whatever is in it, and may come at any time. -/
def IsAside : Event → Prop
  | parse .. | answer .. | enter .. | leave .. | assign .. | evict .. => False
  | _ => True

def IsOrdinary : Event → Prop
  | .note _ | .read _ | .compile .. | .evaluate .. | .provide _ => True
  | _ => False

theorem IsOrdinary.isAside {e : Event} (he : e.IsOrdinary) : e.IsAside := by
  cases e <;> trivial

def IsHook : Event → Prop
  | .before .. | .after .. => True
  | _ => False

/-- The body of the script at a path begins. -/
def Enters (p : Path) : Event → Prop
  | enter q .. => q.same p
  | _ => False

/-- The body of the script at a path ends, in one way or the other. -/
def Leaves (p : Path) : Event → Prop
  | leave q _ => q.same p
  | _ => False

def Fails (p : Path) : Event → Prop
  | leave q (.error _) => q.same p
  | _ => False

/-- What is kept for a path is dropped. -/
def Evicts (p : Path) : Event → Prop
  | evict q dropped => dropped ∧ q.same p
  | _ => False

instance (p : Path) : DecidablePred (Evicts p)
  | evict q dropped => inferInstanceAs (Decidable (dropped ∧ q.same p))
  | note _ | read _ | parse .. | compile .. | evaluate .. | provide _ | lookup _ | answer ..
  | enter .. | leave .. | assign .. | before .. | after .. => isFalse id

instance (p : Path) : DecidablePred (Leaves p)
  | leave q _ => inferInstanceAs (Decidable (q.same p))
  | note _ | read _ | parse .. | compile .. | evaluate .. | provide _ | lookup _ | answer ..
  | enter .. | assign .. | evict .. | before .. | after .. => isFalse id

def isEviction : Event → Bool
  | evict .. => true
  | _ => false

/-- The file at a path has been loaded, and exports the value. -/
def Loads (p : Path) (exports : Value) : Event → Prop
  | leave q (.ok value) => q.same p ∧ value = exports
  | parse q value => q.same p ∧ value = exports
  | _ => False

/-- The event is about the file at a path, and what is kept for it may change. -/
def Touches (p : Path) : Event → Prop
  | enter q .. | leave q _ | parse q _ | evict q _ => q.same p
  | _ => False

/-- A lookup of the file at a path has an answer. -/
def Answers (p : Path) (exports : Value) : Event → Prop
  | answer q value => q.same p ∧ value = exports
  | _ => False

variable {e : Event} {p : Path} {exports : Value}

theorem Touches.of_same {q : Path} (he : e.Touches q) (hsame : q.same p) : e.Touches p := by
  cases e <;> first | exact Path.same_trans he hsame | exact he.elim

theorem Loads.touches (he : e.Loads p exports) : e.Touches p := by
  cases e with
  | leave q outcome =>
      cases outcome with
      | ok value => exact he.1
      | error error => exact he.elim
  | parse q value => exact he.1
  | _ => exact he.elim

theorem Enters.touches (he : e.Enters p) : e.Touches p := by
  cases e <;> first | exact he | exact he.elim

theorem Leaves.touches (he : e.Leaves p) : e.Touches p := by
  cases e <;> first | exact he | exact he.elim

/-- A body that ends without failing loads its file. -/
theorem Leaves.fails_or_loads (he : e.Leaves p) : e.Fails p ∨ ∃ exports, e.Loads p exports := by
  cases e with
  | leave q outcome =>
      cases outcome with
      | ok value => exact Or.inr ⟨value, he, rfl⟩
      | error error => exact Or.inl he
  | _ => exact he.elim

end Event

theorem Ledger.kept_next_of_not_touches (l : Ledger) {e : Event} {p : Path} (h : ¬ e.Touches p) :
    (l.next e).kept p = l.kept p := by
  have hne {q : Path} (hq : ¬ q.same p) (standing : Option Standing) :
      (l.keep q standing).kept p = l.kept p := l.kept_keep_ne (mt Path.same_symm hq) standing
  cases e with
  | enter q context r start => exact hne h _
  | leave q outcome => cases outcome <;> exact hne h _
  | parse q value => exact hne h _
  | evict q dropped => exact hne h _
  | _ => rfl

namespace History

def ledger (h : History) : Ledger := h.foldl Ledger.next .blank

theorem ledger_concat (h : History) (e : Event) : ledger (h ++ [e]) = (ledger h).next e := by
  simp [ledger]

/-- A script whose body has just begun is being loaded. -/
theorem kept_of_enter (h : History) {p q : Path} (hsame : p.same q) (context : ContextId)
    (r : ExportsRef) (start : Value) :
    (ledger (h ++ [.enter q context r start])).kept p = some (.loading start) := by
  rw [ledger_concat]
  exact Ledger.kept_keep_same _ hsame _

/-- The event may come after those that came before. -/
def Due (before : History) : Event → Prop
  | .enter p _ r _ => (ledger before).kept p = none ∧ (ledger before).held r = none
  | .leave p outcome => ∃ r rest, (ledger before).running = (p, r) :: rest ∧
      ∀ exports, outcome = .ok exports → (ledger before).held r = some exports
  | .parse p _ => (ledger before).kept p = none
  | .evict p dropped => dropped = ((ledger before).kept p).isSome
  | .answer p value =>
    (∃ call, before.getLast? = some (.lookup call) ∧
      ((ledger before).kept p).map Standing.exports = some value) ∨
    before.getLast? = some (.leave p (.ok value)) ∨ before.getLast? = some (.parse p value)
  | _ => True

/-- Every event was due when it came. -/
def Legal (h : History) : Prop :=
  ∀ before e after, h = before ++ e :: after → Due before e

/-- Files are evicted only while no body is running. -/
def EvictsAtRest (h : History) : Prop :=
  ∀ before p dropped after, h = before ++ .evict p dropped :: after → (ledger before).running = []

variable {h before after : History} {e : Event}

/-- Whether a history is of this kind can be seen by looking at one event after the other. -/
instance (h : History) : Decidable h.EvictsAtRest :=
  decidable_of_iff
    (∀ i : Fin h.length, h[i].isEviction = true → (ledger (h.take i)).running = []) <| by
      constructor
      · rintro hall before p dropped after rfl
        simpa using hall ⟨before.length, by simp⟩ (by simp [Event.isEviction])
      · intro hrest i hi
        cases he : h[i] with
        | evict p dropped =>
            refine hrest (h.take i) p dropped (h.drop (i + 1)) ?_
            rw [← he]
            simp
        | _ => simp [he, Event.isEviction] at hi

theorem legal_nil : Legal [] := fun before e after heq => by simp at heq

theorem Legal.take (h : Legal (before ++ after)) : Legal before :=
  fun a e b heq => h a e (b ++ after) (by simp [heq])

theorem Legal.due (h : Legal (before ++ e :: after)) : Due before e := h before e after rfl

theorem Legal.concat (h : Legal before) (he : Due before e) : Legal (before ++ [e]) := by
  intro a e' b heq
  rcases b.eq_nil_or_concat with rfl | ⟨b, x, rfl⟩
  · obtain ⟨rfl, hsame⟩ := List.append_inj' heq rfl
    cases hsame
    exact he
  · rw [List.concat_eq_append, ← List.cons_append, ← List.append_assoc] at heq
    exact h a e' b (List.append_inj' heq rfl).1

theorem EvictsAtRest.take (h : EvictsAtRest (before ++ after)) : EvictsAtRest before :=
  fun a p d b heq => h a p d (b ++ after) (by simp [heq])

/-- A variable that holds something never ceases to. -/
theorem held_isSome_of_prefix {r : ExportsRef} (hbefore : before <+: h)
    (hheld : ((ledger before).held r).isSome) : ((ledger h).held r).isSome := by
  obtain ⟨after, rfl⟩ := hbefore
  induction after generalizing before with
  | nil => simpa using hheld
  | cons e after ih =>
      rw [List.append_cons]
      exact ih (by rw [ledger_concat]; exact Ledger.held_isSome_next hheld e)

/-- Where something is kept for a file, only the end of its body and its eviction change that. -/
theorem not_touches_of_kept {p : Path} (hdue : Due before e)
    (hkept : ((ledger before).kept p).isSome) (hleaves : ¬ e.Leaves p) (hevicts : ¬ e.Evicts p) :
    ¬ e.Touches p := by
  have hsome {q : Path} (hsame : q.same p) : ((ledger before).kept q).isSome := by
    rwa [(ledger before).even hsame]
  intro htouches
  cases e with
  | enter q context r start =>
      have hq := hsome htouches
      rw [hdue.1] at hq
      cases hq
  | leave q outcome => exact hleaves htouches
  | parse q value =>
      have hq := hsome htouches
      rw [hdue] at hq
      cases hq
  | evict q dropped => exact hevicts ⟨hdue.trans (hsome htouches), htouches⟩
  | _ => exact htouches

end History

end ModuleLoader
