import Mathlib.Data.List.Induction
import ModuleLoader.Proofs.Accounting
import ModuleLoader.Scripted.Run
/-!
A file is loaded once, until it is evicted.

As long as files are evicted only while nothing is loaded, the bodies that are
running are those of different files, and a file is being loaded exactly while its
body runs. Then there is only one way from one standing of a file to another.
Nothing is kept until its body is entered; the body leaves with a value, and the
value stays, or it leaves with an error, and again nothing is kept. So what a file
has come to is what every lookup is answered with from then on, and no body runs
again that has ended well.

All of it is about one file. What happens to others in the meantime, and whether
they are evicted, makes no difference.
-/

namespace ModuleLoader

variable {σ η α : Type}

open History

namespace Ledger

structure LoadingIffRuns (l : Ledger) : Prop where
  distinct : l.running.Pairwise fun a b => ¬ a.1.same b.1
  loading : ∀ script ∈ l.running, ∃ start, l.kept script.1 = some (.loading start)
  runs : ∀ p start, l.kept p = some (.loading start) → l.Runs p

variable {l : Ledger} {p q : Path} {v : Value}

theorem loadingIffRuns_blank : blank.LoadingIffRuns where
  distinct := .nil
  loading _ h := by simp [blank] at h
  runs _ _ h := by simp [blank] at h

theorem LoadingIffRuns.loading_head
    (h : l.LoadingIffRuns) {r : ExportsRef} {rest : List (Path × ExportsRef)}
    (hrunning : l.running = (p, r) :: rest) : ∃ start, l.kept p = some (.loading start) :=
  h.loading (p, r) (by rw [hrunning]; exact List.mem_cons_self)

theorem LoadingIffRuns.not_runs (h : l.LoadingIffRuns) (hp : l.kept p = none) : ¬ l.Runs p := by
  rintro ⟨script, hmem, hsame⟩
  obtain ⟨start, hstart⟩ := h.loading script hmem
  rw [l.even hsame, hp] at hstart
  cases hstart

theorem LoadingIffRuns.enter (h : l.LoadingIffRuns) (hp : l.kept p = none) (context : ContextId)
    (r : ExportsRef)
    (start : Value) : (l.next (.enter p context r start)).LoadingIffRuns where
  distinct := by
    refine List.pairwise_cons.2 ⟨fun script hmem hsame => ?_, h.distinct⟩
    exact h.not_runs hp ⟨script, hmem, Path.same_symm hsame⟩
  loading script hmem := by
    rcases List.mem_cons.1 hmem with rfl | hmem
    · exact ⟨start, l.kept_keep_same (Path.same_refl p) _⟩
    · have hne : ¬ script.1.same p := fun hsame => h.not_runs hp ⟨script, hmem, hsame⟩
      obtain ⟨w, hw⟩ := h.loading script hmem
      exact ⟨w, (l.kept_keep_ne hne _).trans hw⟩
  runs := LoadingRuns.enter h.runs context r start

theorem LoadingIffRuns.settle
    (h : l.LoadingIffRuns) {standing : Option Standing} {running : List (Path × ExportsRef)}
    (hstanding : ∀ start, standing ≠ some (.loading start)) (hsub : running.Sublist l.running)
    (hmem : ∀ script ∈ l.running, script ∈ running ↔ ¬ script.1.same p) :
    ({ l.keep p standing with running } : Ledger).LoadingIffRuns where
  distinct := h.distinct.sublist hsub
  loading script hscript := by
    have hne := (hmem script (hsub.subset hscript)).1 hscript
    obtain ⟨start, hstart⟩ := h.loading script (hsub.subset hscript)
    exact ⟨start, (l.kept_keep_ne hne standing).trans hstart⟩
  runs := LoadingRuns.settle h.runs hstanding fun script hscript => (hmem script hscript).2

theorem LoadingIffRuns.leave
    (h : l.LoadingIffRuns) {r : ExportsRef} {rest : List (Path × ExportsRef)}
    (hrunning : l.running = (p, r) :: rest) (outcome : Except Error Value) :
    (l.next (.leave p outcome)).LoadingIffRuns := by
  obtain ⟨hhead, -⟩ := List.pairwise_cons.1 (hrunning ▸ h.distinct)
  have hsub : l.running.tail.Sublist l.running := List.tail_sublist _
  have hmem : ∀ script ∈ l.running, script ∈ l.running.tail ↔ ¬ script.1.same p := by
    intro script hscript
    rw [hrunning] at hscript ⊢
    constructor
    · exact fun hrest hsame => hhead script hrest (Path.same_symm hsame)
    · intro hne
      refine (List.mem_cons.1 hscript).resolve_left ?_
      rintro rfl
      exact hne (Path.same_refl p)
  cases outcome with
  | ok exports =>
      refine h.settle (fun start hstart => ?_) hsub hmem
      obtain ⟨_, _, heq⟩ := Option.map_eq_some_iff.1 hstart
      cases heq
  | error e => exact h.settle (fun start hstart => by cases hstart) hsub hmem

end Ledger

namespace History

variable {h before after span : History} {e : Event} {p q : Path} {v w : Value}

theorem loadingIffRuns_next (hiffRuns : (ledger before).LoadingIffRuns) (hdue : Due before e)
    (hrest : ∀ p dropped, e = .evict p dropped → (ledger before).running = []) :
    ((ledger before).next e).LoadingIffRuns := by
  cases e with
  | enter p context r start => exact hiffRuns.enter hdue.1 context r start
  | leave p outcome =>
      obtain ⟨r, rest, hrunning, -⟩ := hdue
      exact hiffRuns.leave hrunning outcome
  | parse p value =>
      refine hiffRuns.settle (fun start hstart => by cases hstart) (List.Sublist.refl _) ?_
      intro script hmem
      exact iff_of_true hmem fun hsame => hiffRuns.not_runs hdue ⟨script, hmem, hsame⟩
  | evict p dropped =>
      have hnone := hrest p dropped rfl
      refine hiffRuns.settle (fun start hstart => by cases hstart) (List.Sublist.refl _) ?_
      exact fun script hmem => by simp [hnone] at hmem
  | assign r value => exact ⟨hiffRuns.distinct, hiffRuns.loading, hiffRuns.runs⟩
  | _ => exact hiffRuns

theorem Legal.loadingIffRuns (hlegal : h.Legal) (hrest : h.EvictsAtRest) :
    (ledger h).LoadingIffRuns := by
  induction h using List.reverseRecOn with
  | nil => exact Ledger.loadingIffRuns_blank
  | append_singleton h e ih =>
      rw [ledger_concat]
      refine loadingIffRuns_next (ih hlegal.take hrest.take) hlegal.due fun p dropped he => ?_
      exact hrest h p dropped [] (by rw [he])

/-! ### What a file has come to -/

/-- The file at a path has come to a value: it is loaded, or a lookup that is not from within its
own load is answered with it. -/
def Gives (p : Path) (v : Value) (before : History) (e : Event) : Prop :=
  e.Loads p v ∨ e.Answers p v ∧ ¬ (ledger before).Runs p

theorem kept_of_loads (hiffRuns : (ledger before).LoadingIffRuns) (hdue : Due before e)
    (he : e.Loads p v) :
    (ledger (before ++ [e])).kept p = some (.loaded v) := by
  rw [ledger_concat]
  cases e with
  | leave q outcome =>
      cases outcome with
      | ok w =>
          obtain ⟨hsame, rfl⟩ := he
          obtain ⟨r, rest, hrunning, -⟩ := hdue
          obtain ⟨start, hstart⟩ := hiffRuns.loading_head hrunning
          exact (Ledger.kept_keep_same _ (Path.same_symm hsame) _).trans (by rw [hstart]; rfl)
      | error e => exact he.elim
  | parse q w =>
      obtain ⟨hsame, rfl⟩ := he
      exact Ledger.kept_keep_same _ (Path.same_symm hsame) _
  | _ => exact he.elim

theorem kept_of_getLast (hlegal : h.Legal) (hrest : h.EvictsAtRest) (hlast : h.getLast? = some e)
    (he : e.Loads p v) : (ledger h).kept p = some (.loaded v) := by
  obtain ⟨b, rfl⟩ := List.getLast?_eq_some_iff.1 hlast
  exact kept_of_loads (hlegal.take.loadingIffRuns hrest.take) hlegal.due he

/-- What answers a lookup is kept at the time. -/
theorem kept_of_answer (hlegal : before.Legal) (hrest : before.EvictsAtRest)
    (hdue : Due before (.answer p v)) :
    ∃ standing, (ledger before).kept p = some standing ∧ standing.exports = v := by
  rcases hdue with ⟨call, -, hkept⟩ | hlast | hlast
  · exact Option.map_eq_some_iff.1 hkept
  · exact ⟨_, kept_of_getLast hlegal hrest hlast ⟨Path.same_refl p, rfl⟩, rfl⟩
  · exact ⟨_, kept_of_getLast hlegal hrest hlast ⟨Path.same_refl p, rfl⟩, rfl⟩

/-- A lookup that is not from within the load of a file is answered with what it has come to. -/
theorem kept_of_answers (hlegal : before.Legal) (hrest : before.EvictsAtRest) (hdue : Due before e)
    (he : e.Answers p v) (hruns : ¬ (ledger before).Runs p) :
    (ledger before).kept p = some (.loaded v) := by
  cases e with
  | answer q w =>
      obtain ⟨hsame, rfl⟩ := he
      obtain ⟨standing, hstanding, rfl⟩ := kept_of_answer hlegal hrest hdue
      rw [(ledger before).even hsame] at hstanding
      cases standing with
      | loading start => exact (hruns ((hlegal.loadingIffRuns hrest).runs p start hstanding)).elim
      | loaded exports => exact hstanding
  | _ => exact he.elim

structure Accepts (p : Path) (v : Value) (e : Event) : Prop where
  touches : ¬ e.Touches p
  answers : ∀ w, e.Answers p w → w = v

/-- Unless it is evicted, or a body of it ends, a file that is loaded stays what it is. -/
theorem accepts_of_not_leaves (hdue : Due before e)
    (hkept : (ledger before).kept p = some (.loaded v))
    (hleaves : ¬ e.Leaves p) (hevicts : ¬ e.Evicts p) : Accepts p v e := by
  refine ⟨not_touches_of_kept hdue (by rw [hkept]; rfl) hleaves hevicts, fun w hw => ?_⟩
  cases e with
  | answer q x =>
      obtain ⟨hsame, rfl⟩ := hw
      rw [← (ledger before).even hsame] at hkept
      rcases hdue with ⟨call, -, hanswer⟩ | hlast | hlast
      · rw [hkept] at hanswer
        cases hanswer
        rfl
      · obtain ⟨b, rfl⟩ := List.getLast?_eq_some_iff.1 hlast
        rw [ledger_concat] at hkept
        have hleft := (Ledger.kept_keep_same _ (Path.same_refl q) _).symm.trans hkept
        obtain ⟨_, -, hloaded⟩ := Option.map_eq_some_iff.1 hleft
        cases hloaded
        rfl
      · obtain ⟨b, rfl⟩ := List.getLast?_eq_some_iff.1 hlast
        rw [ledger_concat] at hkept
        have hparsed := (Ledger.kept_keep_same _ (Path.same_refl q) _).symm.trans hkept
        cases hparsed
        rfl
  | _ => exact hw.elim

/-- Nothing but an eviction does anything to a file that is loaded. -/
theorem accepts_of_loaded (hlegal : (before ++ e :: after).Legal)
    (hrest : (before ++ e :: after).EvictsAtRest)
    (hkept : (ledger before).kept p = some (.loaded v)) (hevicts : ¬ e.Evicts p) :
    Accepts p v e := by
  have hiffRuns := hlegal.take.loadingIffRuns hrest.take
  have hdue := hlegal.due
  have hleaves : ¬ e.Leaves p := by
    intro hleaves
    cases e with
    | leave q outcome =>
        obtain ⟨r, rest, hrunning, -⟩ := hdue
        obtain ⟨start, hstart⟩ := hiffRuns.loading_head hrunning
        rw [(ledger before).even hleaves, hkept] at hstart
        cases hstart
    | _ => exact hleaves
  exact accepts_of_not_leaves hdue hkept hleaves hevicts

theorem kept_of_not_evicts (hlegal : (before ++ span ++ after).Legal)
    (hrest : (before ++ span ++ after).EvictsAtRest)
    (hkept : (ledger before).kept p = some (.loaded v)) (hspan : ∀ e ∈ span, ¬ e.Evicts p) :
    (ledger (before ++ span)).kept p = some (.loaded v) ∧ ∀ e ∈ span, Accepts p v e := by
  induction span generalizing before with
  | nil => exact ⟨by simpa using hkept, fun e he => by cases he⟩
  | cons e rest ih =>
      simp only [List.forall_mem_cons, List.append_assoc, List.cons_append] at *
      have haccepts := accepts_of_loaded hlegal hrest hkept hspan.1
      have hnext : (ledger (before ++ [e])).kept p = some (.loaded v) := by
        rw [ledger_concat, Ledger.kept_next_of_not_touches _ haccepts.touches, hkept]
      rw [List.append_cons] at hlegal hrest
      obtain ⟨hlast, hall⟩ := ih hlegal hrest hnext hspan.2
      exact ⟨by rwa [List.append_cons], haccepts, hall⟩

/-- A file that a history gives a value has it right after. -/
theorem kept_of_gives (hlegal : (before ++ e :: after).Legal)
    (hrest : (before ++ e :: after).EvictsAtRest) (he : Gives p v before e) :
    (ledger (before ++ [e])).kept p = some (.loaded v) := by
  rcases he with he | ⟨he, hruns⟩
  · exact kept_of_loads (hlegal.take.loadingIffRuns hrest.take) hlegal.due he
  · have hkept := kept_of_answers hlegal.take hrest.take hlegal.due he hruns
    rw [ledger_concat, ← hkept]
    cases e with
    | answer q w => rfl
    | _ => exact he.elim

/-- After a file has come to a value, and until it is evicted, its body does not run and it is not
read again, and every lookup is answered with that value. -/
theorem accepts_of_gives (hlegal : (before ++ span ++ after).Legal)
    (hrest : (before ++ span ++ after).EvictsAtRest) (hspan : ∀ e ∈ span, ¬ e.Evicts p)
    {a b : History} (hsplit : span = a ++ e :: b) (he : Gives p v (before ++ a) e) :
    (ledger (before ++ span)).kept p = some (.loaded v) ∧ ∀ e ∈ b, Accepts p v e := by
  have hwhole : before ++ span ++ after = (before ++ a) ++ e :: (b ++ after) := by simp [hsplit]
  have hparts : before ++ span ++ after = (before ++ a ++ [e]) ++ b ++ after := by simp [hsplit]
  have hkept := kept_of_gives (hwhole ▸ hlegal) (hwhole ▸ hrest) he
  have hb : ∀ x ∈ b, ¬ x.Evicts p := fun x hx => hspan x (by simp [hsplit, hx])
  obtain ⟨hlast, hall⟩ := kept_of_not_evicts (hparts ▸ hlegal) (hparts ▸ hrest) hkept hb
  exact ⟨by simpa [hsplit] using hlast, hall⟩

/-- A file is loaded once at most in a stretch in which it is not evicted. -/
theorem not_loads_of_loads (hlegal : (before ++ span ++ after).Legal)
    (hrest : (before ++ span ++ after).EvictsAtRest) (hspan : ∀ e ∈ span, ¬ e.Evicts p)
    {a b : History} (hsplit : span = a ++ e :: b) (he : e.Loads p v) :
    ∀ x ∈ a ++ b, ∀ w, ¬ x.Loads p w := by
  intro x hx w hw
  rcases List.mem_append.1 hx with hx | hx
  · -- the other one came first
    obtain ⟨c, d, rfl⟩ := List.append_of_mem hx
    have hsplit' : span = c ++ x :: (d ++ e :: b) := by simp [hsplit]
    have haccepts := (accepts_of_gives hlegal hrest hspan hsplit' (.inl hw)).2 e (by simp)
    exact haccepts.touches he.touches
  · exact ((accepts_of_gives hlegal hrest hspan hsplit (.inl he)).2 x hx).touches hw.touches

/-- What a file comes to is the same whenever that is asked for. -/
theorem eq_of_gives (hlegal : (before ++ span ++ after).Legal)
    (hrest : (before ++ span ++ after).EvictsAtRest) (hspan : ∀ e ∈ span, ¬ e.Evicts p)
    {a b : History} (hsplit : span = a ++ e :: b) (he : Gives p v (before ++ a) e)
    {a' b' : History} {x : Event} (hsplit' : span = a' ++ x :: b')
    (hx : Gives p w (before ++ a') x) : w = v := by
  have hkept := (accepts_of_gives hlegal hrest hspan hsplit he).1
  rw [(accepts_of_gives hlegal hrest hspan hsplit' hx).1] at hkept
  cases hkept
  rfl

theorem kept_of_enters (hdue : Due before e) (he : e.Enters p) : (ledger before).kept p = none := by
  cases e with
  | enter q context r start =>
      rw [← (ledger before).even he]
      exact hdue.1
  | _ => exact he.elim

theorem kept_isSome_of_enters (he : e.Enters p) : ((ledger (before ++ [e])).kept p).isSome := by
  rw [ledger_concat]
  cases e with
  | enter q context r start =>
      exact congrArg Option.isSome (Ledger.kept_keep_same _ (Path.same_symm he) _)
  | _ => exact he.elim

/-- What is kept for a file stays there unless its body fails or it is evicted. -/
theorem kept_isSome_next (hdue : Due before e) (hkept : ((ledger before).kept p).isSome)
    (hfails : ¬ e.Fails p) (hevicts : ¬ e.Evicts p) :
    ((ledger (before ++ [e])).kept p).isSome := by
  rw [ledger_concat]
  by_cases hleaves : e.Leaves p
  · cases e with
    | leave q outcome =>
        cases outcome with
        | ok w =>
            refine (congrArg Option.isSome
              (Ledger.kept_keep_same _ (Path.same_symm hleaves) _)).trans ?_
            rwa [Option.isSome_map, (ledger before).even hleaves]
        | error e => exact (hfails hleaves).elim
    | _ => exact hleaves.elim
  · have htouches := not_touches_of_kept hdue hkept hleaves hevicts
    rwa [Ledger.kept_next_of_not_touches _ htouches]

/-- Before a body is entered again it has failed. -/
theorem exists_fails {b : History} (hlegal : (before ++ b ++ e :: after).Legal)
    (hkept : ((ledger before).kept p).isSome) (he : e.Enters p) (hb : ∀ x ∈ b, ¬ x.Evicts p) :
    ∃ x ∈ b, x.Fails p := by
  induction b generalizing before with
  | nil =>
      rw [List.append_nil] at hlegal
      rw [kept_of_enters hlegal.due he] at hkept
      cases hkept
  | cons x b ih =>
      simp only [List.forall_mem_cons, List.append_assoc, List.cons_append] at hlegal hb
      by_cases hx : x.Fails p
      · exact ⟨x, List.mem_cons_self, hx⟩
      · have hnext := kept_isSome_next hlegal.due hkept hx hb.1
        rw [List.append_cons, ← List.append_assoc] at hlegal
        obtain ⟨y, hy, hfails⟩ := ih hlegal hnext hb.2
        exact ⟨y, List.mem_cons_of_mem _ hy, hfails⟩

end History

/-- As long as it is not evicted a file is loaded once at most, and its body is entered again only
if it has failed. Once the file has come to a value it has that value ever after. -/
theorem files_load_once (host : Host σ η) (store : σ) (depth : Nat) (program : Program σ η α)
    (h : History) (hh : h = (host.exec depth program (State.initial store)).2.history)
    (hrest : h.EvictsAtRest) (p : Path) (before span after : History)
    (hsplit : h = before ++ span ++ after) (hspan : ∀ e ∈ span, ¬ e.Evicts p) :
    (∀ a e b v, span = a ++ e :: b → e.Loads p v → ∀ x ∈ a ++ b, ∀ w, ¬ x.Loads p w) ∧
    (∀ a e b x c, span = a ++ e :: b ++ x :: c → e.Enters p → x.Enters p →
      (∃ y ∈ b, y.Fails p) ∧ ∀ y ∈ b, y.Leaves p → y.Fails p) ∧
    (∀ a e b v, span = a ++ e :: b → Gives p v (before ++ a) e →
      (∀ x ∈ b, ¬ x.Enters p) ∧
      ∀ a' x b' w, span = a' ++ x :: b' → Gives p w (before ++ a') x → w = v) ∧
    (host.lookup? = none → host.TracesAnswers) := by
  have hlegal : h.Legal := hh ▸ (host.ledgerHolds_exec depth program store).legal
  rw [hsplit] at hlegal hrest
  have haccepts {a e b v} := accepts_of_gives (v := v) (a := a) (e := e) (b := b) hlegal hrest hspan
  refine ⟨fun a e b v hsp he => not_loads_of_loads hlegal hrest hspan hsp he,
    fun a e b x c hsp he hx => ⟨?_, fun y hy hleaves => ?_⟩,
    fun a e b v hsp he => ⟨fun x hx henters => ?_,
      fun a' x b' w hsp' hx => eq_of_gives hlegal hrest hspan hsp he hsp' hx⟩,
    fun hlookup => host.tracesAnswers hlookup⟩
  · subst hsp
    have hparts : before ++ (a ++ e :: b ++ x :: c) ++ after =
        (before ++ a ++ [e]) ++ b ++ x :: (c ++ after) := by simp
    exact exists_fails (hparts ▸ hlegal) (kept_isSome_of_enters he) hx fun y hy =>
      hspan y (by simp [hy])
  · refine hleaves.fails_or_loads.resolve_right ?_
    rintro ⟨w, hw⟩
    obtain ⟨b₁, b₂, rfl⟩ := List.append_of_mem hy
    have hsp' : span = (a ++ e :: b₁) ++ y :: (b₂ ++ x :: c) := by simp [hsp]
    exact ((haccepts hsp' (Or.inl hw)).2 x (by simp)).touches hx.touches
  · exact ((haccepts hsp he).2 x hx).touches henters.touches

def requiringWorld : Host Scripted.Session Scripted.HookPlan :=
  Scripted.host
    ⟨[(["a.cjs"], .file (some "[[\"require\", \"b\", \"./b.cjs\"], [\"export\", \"y\", 2]]")),
      (["b.cjs"], .file (some "[[\"export\", \"x\", 1]]"))]⟩
    {} ⟨"node:", []⟩ none ⟨0⟩

/-- Require the first file four times. Before the third time the second file is evicted, and before
the fourth the first. -/
def requireOften : Program Scripted.Session Scripted.HookPlan Unit := do
  let require := Program.attempt (.require ⟨"./a.cjs", ⟨"/main.mjs"⟩⟩)
  let _ ← require
  let _ ← require
  let _ ← Program.perform (.evict ⟨"/b.cjs"⟩)
  let _ ← require
  let _ ← Program.perform (.evict ⟨"/a.cjs"⟩)
  let _ ← require

def Event.entered? : Event → Option Path
  | enter p .. => some p
  | _ => none

def Event.finished? : Event → Option Path
  | leave p (.ok _) => some p
  | _ => none

def Event.answered? : Event → Option Path
  | answer p _ => some p
  | _ => none

theorem Event.exists_eq_of_entered? {e : Event} {p : Path} (h : e.entered? = some p) :
    ∃ context r start, e = .enter p context r start := by
  cases e <;> cases h
  exact ⟨_, _, _, rfl⟩

theorem Event.exists_eq_of_finished? {e : Event} {p : Path} (h : e.finished? = some p) :
    ∃ v, e = .leave p (.ok v) := by
  cases e with
  | leave q outcome =>
      cases outcome with
      | ok v =>
          cases h
          exact ⟨v, rfl⟩
      | error e => cases h
  | _ => cases h

theorem Event.exists_loads_of_finished? {e : Event} {p : Path} (h : e.finished? = some p) :
    ∃ v, e.Loads p v := by
  obtain ⟨v, rfl⟩ := exists_eq_of_finished? h
  exact ⟨v, Path.same_refl p, rfl⟩

/-- Up to its own eviction the first file is entered once and answers three lookups, all with the
value that it was loaded with. -/
theorem files_load_once_requiringWorld :
    let h := (requiringWorld.exec 4 requireOften (State.initial .initial)).2.history
    let span := h.take 17
    let a : Path := ⟨"/a.cjs"⟩
    let b : Path := ⟨"/b.cjs"⟩
    h.EvictsAtRest ∧ (∀ e ∈ span, ¬ e.Evicts a) ∧
      span.filterMap Event.entered? = [a, b] ∧
      span.filterMap Event.answered? = [b, a, a, a] ∧
      (∃ v, (∃ e ∈ span, e.Loads a v) ∧
        ∀ c e d w, span = c ++ e :: d → Gives a w c e → w = v) ∧
      requiringWorld.TracesAnswers := by
  intro h span a b
  have hfacts : h.EvictsAtRest ∧ (∀ e ∈ span, ¬ e.Evicts a) ∧
      span.filterMap Event.entered? = [a, b] ∧ span.filterMap Event.answered? = [b, a, a, a] ∧
      span[10]?.bind Event.finished? = some a := by
    decide +kernel
  obtain ⟨hrest, hspan, hentered, hanswered, hfinished⟩ := hfacts
  have hh : h = (requiringWorld.exec 4 requireOften (State.initial .initial)).2.history := rfl
  have hsplit : h = [] ++ span ++ h.drop 17 := by simp [span]
  clear_value span h
  obtain ⟨-, -, hgives, htraces⟩ :=
    files_load_once requiringWorld .initial 4 requireOften h hh hrest
    a [] span (h.drop 17) hsplit hspan
  obtain ⟨e, he, hleave⟩ := Option.bind_eq_some_iff.1 hfinished
  obtain ⟨v, hv⟩ := Event.exists_loads_of_finished? hleave
  obtain ⟨c, d, hsp⟩ := List.append_of_mem (List.mem_of_getElem? he)
  refine ⟨hrest, hspan, hentered, hanswered, ⟨v, ⟨e, List.mem_of_getElem? he, hv⟩, ?_⟩, htraces rfl⟩
  exact (hgives c e d v hsp (Or.inl hv)).2

end ModuleLoader
