import ModuleLoader.Proofs.Accounting
/-!
A script that is required while its body runs.

The body may require its own file, and so may any file that it has required in
turn. The lookup is then answered at once with what is kept for the file, and no
body runs for it. What is kept is the object that the body has begun with. It is
the very object that the variable of the body holds at first, so what the body
has put into it by then is there to be seen. But the variable is not looked at. A
body that has put something else into it is not answered with that as long as it
runs; it is only when it ends that what the variable holds is kept.
-/

namespace ModuleLoader

variable {σ η α : Type}

open History

namespace History

variable {h before after span : History} {e : Event} {p : Path} {r : ExportsRef} {v w : Value}

theorem kept_of_unfinished (hlegal : (before ++ span ++ after).Legal)
    (hkept : ((ledger before).kept p).isSome)
    (hspan : ∀ e ∈ span, ¬ e.Leaves p ∧ ¬ e.Evicts p) :
    (ledger (before ++ span)).kept p = (ledger before).kept p ∧ ∀ e ∈ span, ¬ e.Touches p := by
  induction span generalizing before with
  | nil => exact ⟨by rw [List.append_nil], fun e he => by cases he⟩
  | cons e rest ih =>
      simp only [List.forall_mem_cons, List.append_assoc, List.cons_append] at *
      have htouches := not_touches_of_kept hlegal.due hkept hspan.1.1 hspan.1.2
      have hnext : (ledger (before ++ [e])).kept p = (ledger before).kept p := by
        rw [ledger_concat, Ledger.kept_next_of_not_touches _ htouches]
      rw [List.append_cons] at hlegal
      obtain ⟨hlast, hall⟩ := ih hlegal (by rwa [hnext]) hspan.2
      exact ⟨by rw [List.append_cons, hlast, hnext], htouches, hall⟩

/-- A variable holds what was put into it last. -/
theorem held_next (hdue : Due before e) (hheld : (ledger before).held r = some v) :
    (ledger (before ++ [e])).held r = some v ∨ ∃ w, e = .assign r w ∧
      (ledger (before ++ [e])).held r = some w := by
  rw [ledger_concat]
  cases e with
  | enter q context x start =>
      have hne : r ≠ x := by
        rintro rfl
        rw [hdue.2] at hheld
        cases hheld
      exact Or.inl ((Ledger.held_hold _ _ _ _).trans ((if_neg hne).trans hheld))
  | leave q outcome => cases outcome <;> exact Or.inl hheld
  | assign x w =>
      by_cases hx : r = x
      · subst hx
        refine Or.inr ⟨w, rfl, (Ledger.held_hold _ _ _ _).trans ((if_pos rfl).trans ?_)⟩
        rw [hheld]
        rfl
      · exact Or.inl ((Ledger.held_hold _ _ _ _).trans ((if_neg hx).trans hheld))
  | _ => exact Or.inl hheld

/-- A variable holds what it did, unless something else was put into it in the meantime. -/
theorem held_of_span (hlegal : (before ++ span ++ after).Legal)
    (hheld : (ledger before).held r = some v) :
    ∃ w, (ledger (before ++ span)).held r = some w ∧ (w = v ∨ .assign r w ∈ span) := by
  induction span generalizing before v with
  | nil => exact ⟨v, by rwa [List.append_nil], Or.inl rfl⟩
  | cons e rest ih =>
      have hdue : Due before e := by
        rw [List.append_assoc, List.cons_append] at hlegal
        exact hlegal.due
      rw [List.append_cons] at hlegal ⊢
      rcases held_next hdue hheld with hnext | ⟨w, rfl, hnext⟩
      · obtain ⟨x, hx, rfl | hmem⟩ := ih hlegal hnext
        · exact ⟨x, hx, Or.inl rfl⟩
        · exact ⟨x, hx, Or.inr (List.mem_cons_of_mem _ hmem)⟩
      · obtain ⟨x, hx, rfl | hmem⟩ := ih hlegal hnext
        · exact ⟨x, hx, Or.inr List.mem_cons_self⟩
        · exact ⟨x, hx, Or.inr (List.mem_cons_of_mem _ hmem)⟩

/-- An answer that is not what its file has just come to was kept before, and is given at once. -/
theorem answered_at_once {q : Path} (hdue : Due before (.answer q v))
    (hlast : ∀ e, before.getLast? = some e → ¬ e.Loads q v) :
    (∃ call, before.getLast? = some (.lookup call)) ∧
      ((ledger before).kept q).map Standing.exports = some v := by
  rcases hdue with ⟨call, hcall, hkept⟩ | hleave | hparse
  · exact ⟨⟨call, hcall⟩, hkept⟩
  · exact (hlast _ hleave ⟨Path.same_refl q, rfl⟩).elim
  · exact (hlast _ hparse ⟨Path.same_refl q, rfl⟩).elim

end History

/-- A script that is required while its body runs is answered at once with the object that the body
began with, whatever its variable holds by then. -/
theorem unfinished_answers_start (host : Host σ η) (store : σ) (depth : Nat)
    (program : Program σ η α) (h : History)
    (hh : h = (host.exec depth program (State.initial store)).2.history)
    (p q : Path) (hq : q.same p) (context : ContextId) (r : ExportsRef) (start v : Value)
    (before span after : History)
    (hsplit : h = before ++ .enter p context r start :: span ++ .answer q v :: after)
    (hspan : ∀ e ∈ span, ¬ e.Leaves p ∧ ¬ e.Evicts p) :
    v = start ∧ (∃ call, span.getLast? = some (.lookup call)) ∧ (∀ e ∈ span, ¬ e.Enters p) ∧
    (∃ current, (ledger (before ++ .enter p context r start :: span)).held r = some current ∧
      (current = v ∨ .assign r current ∈ span)) ∧
    (host.lookup? = none → host.TracesAnswers) := by
  let entered := before ++ [Event.enter p context r start]
  have hparts : h = entered ++ span ++ .answer q v :: after := by simp [hsplit, entered]
  have hlegal : (entered ++ span ++ .answer q v :: after).Legal :=
    hparts ▸ hh ▸ (host.ledgerHolds_exec depth program store).legal
  have hkept : (ledger entered).kept p = some (.loading start) := by
    rw [ledger_concat]
    exact Ledger.kept_keep_same _ (Path.same_refl p) _
  have hheld : (ledger entered).held r = some start := by
    rw [ledger_concat]
    exact if_pos rfl
  obtain ⟨hlast, htouches⟩ := kept_of_unfinished hlegal (by rw [hkept]; rfl) hspan
  obtain ⟨current, hcurrent, hassigned⟩ := held_of_span hlegal hheld
  -- the last event before the answer is in the stretch or begins it, and loads nothing
  have hend : (entered ++ span).getLast? = some (span.getLast?.getD
    (.enter p context r start)) := by
    rw [List.getLast?_append, List.getLast?_concat]
    cases span.getLast? <;> rfl
  have hnoload : ∀ e, (entered ++ span).getLast? = some e → ¬ e.Loads q v := by
    intro e he hloads
    rw [hend, Option.some.injEq] at he
    cases hs : span.getLast? with
    | none =>
        rw [← he, hs] at hloads
        exact hloads
    | some x =>
        rw [hs] at he
        cases he
        exact htouches x (List.mem_of_getLast? hs) (hloads.touches.of_same hq)
  obtain ⟨⟨call, hcall⟩, hanswer⟩ := answered_at_once hlegal.due hnoload
  rw [(ledger _).even hq, hlast, hkept] at hanswer
  cases hanswer
  have hwhole : entered ++ span = before ++ .enter p context r start :: span := by simp [entered]
  refine ⟨rfl, ⟨call, ?_⟩, fun e he henters => htouches e he henters.touches,
    ⟨current, hwhole ▸ hcurrent, hassigned⟩, fun hlookup => host.tracesAnswers hlookup⟩
  rw [hend, Option.some.injEq] at hcall
  cases hs : span.getLast? with
  | none =>
      rw [hs] at hcall
      cases hcall
  | some x =>
      rw [hs] at hcall
      exact congrArg some hcall

/-- A host with one file. Its body puts a string into its variable and then requires the file. -/
def replacingWorld : Host Unit Empty where
  files := ⟨[(["a.cjs"], .file (some ""))]⟩
  config := {}
  builtins := ⟨"node:", []⟩
  linkerBuiltins? := none
  scriptContext := ⟨0⟩
  compile _ _ := pure ⟨[], fun _ => throw (.engine "")⟩
  runScript _ m := do
    Script.perform (.writeExports m.exports (.string "new"))
    let _ ← Script.request (.require ⟨"./a.cjs", m.filename⟩)
  hook h := nomatch h
  lookup? := none

def requireReplacing : Program Unit Empty (Except Error Value) :=
  Program.attempt (.require ⟨"./a.cjs", ⟨"/main.cjs"⟩⟩)

def replacingSpan : History :=
  [.assign ⟨0⟩ (.string "new"), .lookup ⟨"./a.cjs", ⟨"/a.cjs"⟩⟩]

theorem history_replacingWorld :
    (replacingWorld.exec 3 requireReplacing (State.initial ())).2.history =
      [.lookup ⟨"./a.cjs", ⟨"/main.cjs"⟩⟩, .read ⟨"/a.cjs"⟩] ++
        .enter ⟨"/a.cjs"⟩ ⟨0⟩ ⟨0⟩ (.object ⟨0⟩) :: replacingSpan ++
        .answer ⟨"/a.cjs"⟩ (.object ⟨0⟩) ::
          [.leave ⟨"/a.cjs"⟩ (.ok (.string "new")), .answer ⟨"/a.cjs"⟩ (.string "new")] := by
  rfl

theorem unfinished_replacingSpan :
    ∀ e ∈ replacingSpan, ¬ e.Leaves ⟨"/a.cjs"⟩ ∧ ¬ e.Evicts ⟨"/a.cjs"⟩ := by
  simp [replacingSpan, Event.Leaves, Event.Evicts]

/-- The body gets the object that it has begun with. -/
theorem unfinished_answers_start_replacingWorld :
    let h := (replacingWorld.exec 3 requireReplacing (State.initial ())).2.history
    ∃ before span after v,
      h = before ++ .enter ⟨"/a.cjs"⟩ ⟨0⟩ ⟨0⟩ (.object ⟨0⟩) :: span ++
        .answer ⟨"/a.cjs"⟩ v :: after ∧
      (∀ e ∈ span, ¬ e.Leaves ⟨"/a.cjs"⟩ ∧ ¬ e.Evicts ⟨"/a.cjs"⟩) ∧
      v = .object ⟨0⟩ ∧ ∃ call, span.getLast? = some (.lookup call) := by
  intro h
  obtain ⟨hv, hlookup, -⟩ := unfinished_answers_start replacingWorld () 3 requireReplacing h rfl
    ⟨"/a.cjs"⟩ ⟨"/a.cjs"⟩ (Path.same_refl _) ⟨0⟩ ⟨0⟩ (.object ⟨0⟩) (.object ⟨0⟩) _ replacingSpan _
    history_replacingWorld unfinished_replacingSpan
  exact ⟨_, replacingSpan, _, _, history_replacingWorld, unfinished_replacingSpan, hv, hlookup⟩

/-- The answer is not the string that the variable of the body holds at that time. -/
theorem unfinished_answer_not_current :
    let h := (replacingWorld.exec 3 requireReplacing (State.initial ())).2.history
    ∃ before span after v,
      h = before ++ .enter ⟨"/a.cjs"⟩ ⟨0⟩ ⟨0⟩ (.object ⟨0⟩) :: span ++
        .answer ⟨"/a.cjs"⟩ v :: after ∧
      (∀ e ∈ span, ¬ e.Leaves ⟨"/a.cjs"⟩ ∧ ¬ e.Evicts ⟨"/a.cjs"⟩) ∧
      (ledger (before ++ .enter ⟨"/a.cjs"⟩ ⟨0⟩ ⟨0⟩ (.object ⟨0⟩) :: span)).held ⟨0⟩ =
        some (.string "new") ∧
      v ≠ .string "new" :=
  ⟨_, replacingSpan, _, _, history_replacingWorld, unfinished_replacingSpan, rfl, by simp⟩

end ModuleLoader
