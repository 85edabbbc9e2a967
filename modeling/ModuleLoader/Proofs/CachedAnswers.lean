import ModuleLoader.Proofs.Settlement
/-!
What a lookup is answered with is kept for its file.

When a lookup has a value, the value was there for a moment at least: it was kept for the file as
the lookup got behind the hooks, or the file has just been loaded. It does not follow that it is
there when the lookup has ended. Hooks are called after it, and they may look up other files and run
their bodies, and the body of the very file may have been running all along.

But the lookup ends where it began, with the same bodies running. Every body has a variable of its
own, and one that ends never runs again. So none of those that were running can have ended on the
way, and each that has ended on the way was also entered on it. A body is not entered for a file of
which something is kept. So it takes an eviction to change what is kept.
-/

namespace ModuleLoader

variable {σ η : Type}

open History

structure Ledger.Owned (l : Ledger) : Prop where
  held : ∀ script ∈ l.running, (l.held script.2).isSome
  distinct : (l.running.map Prod.snd).Nodup

theorem Ledger.owned_blank : blank.Owned := ⟨nofun, .nil⟩

namespace History

variable {h before after span : History} {e : Event} {p q : Path} {r : ExportsRef} {v : Value}

theorem owned_next (h : (ledger before).Owned) (hdue : Due before e) :
    ((ledger before).next e).Owned := by
  have hheld : ∀ script ∈ (ledger before).running,
      (((ledger before).next e).held script.2).isSome := fun script hscript =>
    Ledger.held_isSome_next (h.held script hscript) e
  cases e with
  | enter q context x start =>
      refine ⟨List.forall_mem_cons.2 ⟨?_, hheld⟩, List.nodup_cons.2 ⟨?_, h.distinct⟩⟩
      · rw [Ledger.held_next_enter]
        rfl
      · intro hx
        obtain ⟨script, hscript, rfl⟩ := List.mem_map.1 hx
        have hsome := h.held script hscript
        rw [hdue.2] at hsome
        cases hsome
  | leave q outcome =>
      obtain ⟨x, rest, hrunning, -⟩ := hdue
      have hrest : ((ledger before).next (.leave q outcome)).running = rest := by
        rw [Ledger.running_next_leave, hrunning]
        rfl
      have hdistinct := h.distinct
      rw [hrunning] at hdistinct hheld
      refine ⟨fun script hscript => hheld script ?_, ?_⟩
      · rw [hrest] at hscript
        exact List.mem_cons_of_mem _ hscript
      · rw [hrest]
        exact (List.nodup_cons.1 hdistinct).2
  | _ => exact ⟨hheld, h.distinct⟩

theorem Legal.owned (hlegal : h.Legal) : (ledger h).Owned := by
  induction h using List.reverseRecOn with
  | nil => exact Ledger.owned_blank
  | append_singleton h e ih =>
      rw [ledger_concat]
      exact owned_next (ih hlegal.take) hlegal.due

/-- A body that does not run, and whose variable is in use, has ended for good. -/
theorem not_mem_running (hlegal : (before ++ span).Legal) (hheld : ((ledger before).held r).isSome)
    (hnot : (p, r) ∉ (ledger before).running) : (p, r) ∉ (ledger (before ++ span)).running := by
  induction span using List.reverseRecOn with
  | nil => simpa using hnot
  | append_singleton span e ih =>
      rw [← List.append_assoc] at hlegal ⊢
      intro hmem
      obtain ⟨inner, outer, hrunning⟩ := List.append_of_mem hmem
      rcases running_concat hlegal.due hrunning with ⟨-, context, start, rfl, -⟩ | ⟨inner', hbefore⟩
      · have hsome := held_isSome_of_prefix (List.prefix_append before span) hheld
        rw [hlegal.due.2] at hsome
        cases hsome
      · exact ih hlegal.take (by simp [hbefore])

/-- A body that ends is not among those that run from then on. -/
theorem not_mem_running_of_leave {outcome : Except Error Value} {rest : List (Path × ExportsRef)}
    (hlegal : (before ++ .leave p outcome :: after).Legal)
    (hrunning : (ledger before).running = (p, r) :: rest) :
    (p, r) ∉ (ledger (before ++ .leave p outcome :: after)).running := by
  have howned := hlegal.take.owned
  have hdistinct := howned.distinct
  rw [hrunning, List.map_cons, List.nodup_cons] at hdistinct
  have hleft : (p, r) ∉ (ledger (before ++ [.leave p outcome])).running := by
    rw [ledger_concat, Ledger.running_next_leave, hrunning]
    exact fun hmem => hdistinct.1 (List.mem_map_of_mem hmem)
  have hheld : ((ledger (before ++ [.leave p outcome])).held r).isSome := by
    rw [ledger_concat]
    exact Ledger.held_isSome_next (howned.held (p, r) (by simp [hrunning])) _
  rw [List.append_cons] at hlegal ⊢
  exact not_mem_running hlegal hheld hleft

/-! ### Stretches that end where they began -/

/-- A body that ends in a stretch that ends where it began was entered in it. -/
theorem isPrefix_of_enter {a b c d : History} {context : ContextId} {start : Value}
    {rest : List (Path × ExportsRef)} {outcome : Except Error Value}
    (hlegal : (before ++ b ++ .leave p outcome :: c).Legal)
    (hreturns : (ledger (before ++ b ++ .leave p outcome :: c)).running = (ledger before).running)
    (hsplit : before ++ b = a ++ .enter p context r start :: d)
    (hrunning : (ledger (before ++ b)).running = (p, r) :: rest) : before <+: a := by
  by_contra hlate
  -- then it was entered before, and its variable has been in use since
  have hentered : a ++ [.enter p context r start] <+: before := by
    have hprefix : a ++ [.enter p context r start] <+: before ++ b := hsplit ▸ ⟨d, by simp⟩
    rcases List.prefix_or_prefix_of_prefix (List.prefix_append before b) hprefix with
      hbefore | hbefore
    · exact (List.prefix_concat_iff.1 hbefore).elim (fun heq => heq ▸ List.prefix_refl _)
        fun hprefix => (hlate hprefix).elim
    · exact hbefore
  have hheld : ((ledger before).held r).isSome := by
    refine held_isSome_of_prefix hentered ?_
    rw [ledger_concat, Ledger.held_next_enter]
    rfl
  by_cases hmem : (p, r) ∈ (ledger before).running
  · -- it was running as the stretch began, and so it is when it has ended
    exact not_mem_running_of_leave hlegal hrunning (hreturns ▸ hmem)
  · refine not_mem_running hlegal.take hheld hmem ?_
    simp [hrunning]

/-- What is kept for a file as such a stretch begins is kept all the time, unless it is evicted. -/
theorem kept_of_returns (hlegal : (before ++ span).Legal)
    (hreturns : (ledger (before ++ span)).running = (ledger before).running)
    (hkept : ((ledger before).kept p).isSome) (hspan : ∀ e ∈ span, ¬ e.Evicts p) :
    (ledger (before ++ span)).kept p = (ledger before).kept p := by
  suffices hall : ∀ b, b <+: span →
      (ledger (before ++ b)).kept p = (ledger before).kept p ∧ ∀ e ∈ b, ¬ e.Touches p from
    (hall span (List.prefix_refl _)).1
  intro b
  induction b using List.reverseRecOn with
  | nil => exact fun _ => ⟨by rw [List.append_nil], nofun⟩
  | append_singleton b e ih =>
      rintro ⟨c, rfl⟩
      obtain ⟨hsame, hnone⟩ := ih ⟨e :: c, by simp⟩
      have hparts : before ++ (b ++ [e] ++ c) = before ++ b ++ e :: c := by simp
      rw [hparts] at hlegal hreturns
      have hleaves : ¬ e.Leaves p := by
        intro hleaves
        cases e with
        | leave q outcome =>
            obtain ⟨x, rest, hrunning, -⟩ := hlegal.due
            obtain ⟨a, context, start, d, hsplit, -⟩ :=
              exists_enter hlegal.take (hrunning.trans (List.nil_append _).symm)
            -- it was entered on the way, and that is an event of the file
            obtain ⟨a', rfl⟩ := isPrefix_of_enter hlegal hreturns hsplit hrunning
            rw [List.append_assoc, List.append_cancel_left_eq] at hsplit
            exact hnone (.enter q context x start) (by simp [hsplit]) hleaves
        | _ => exact hleaves
      have htouches := not_touches_of_kept hlegal.due (by rw [hsame]; exact hkept) hleaves
        (hspan e (by simp))
      rw [← List.append_assoc, ledger_concat, Ledger.kept_next_of_not_touches _ htouches]
      refine ⟨hsame, fun x hx => ?_⟩
      rcases List.mem_append.1 hx with hx | hx
      · exact hnone x hx
      · rwa [List.mem_singleton.1 hx]

/-- A file that has just been loaded in such a stretch has its value kept, unless it was evicted
there. -/
theorem kept_of_loads_of_returns (hlegal : (before ++ span ++ [e]).Legal)
    (hreturns : (ledger (before ++ span ++ [e])).running = (ledger before).running)
    (he : e.Loads p v) (hspan : ∀ e ∈ span, ¬ e.Evicts p) :
    (ledger (before ++ span ++ [e])).kept p = some (.loaded v) := by
  rw [ledger_concat]
  cases e with
  | leave q outcome =>
      cases outcome with
      | error cause => exact he.elim
      | ok w =>
          obtain ⟨hsame, rfl⟩ := he
          rcases owns_or_overtaken hlegal with hown | hover
          · obtain ⟨a, context, r, start, d, -, -, hown, -⟩ := hown
            rw [Ledger.kept_next_leave _ hsame, ← (ledger _).even hsame, hown]
            rfl
          · -- whatever has overtaken it did so on the way
            obtain ⟨a, context, r, start, d, hsplit, hrunning, ⟨x, y, z, rfl, hy, -⟩, -⟩ := hover
            obtain ⟨a', rfl⟩ := isPrefix_of_enter hlegal hreturns hsplit hrunning
            rw [List.append_assoc, List.append_cancel_left_eq] at hsplit
            exact (hspan y (by simp [hsplit]) (hy.of_same hsame)).elim
  | parse q w =>
      obtain ⟨hsame, rfl⟩ := he
      exact Ledger.kept_keep_same _ (Path.same_symm hsame) _
  | _ => exact he.elim

/-- A value with which a lookup is answered is kept for the file, unless that is evicted while the
lookup goes on. -/
theorem kept_of_due_answer {call : LookupCall}
    (hdue : Due (before ++ span) (.answer p v)) (hlegal : (before ++ span).Legal)
    (hlookup : before.getLast? = some (.lookup call))
    (hreturns : (ledger (before ++ span)).running = (ledger before).running)
    (hspan : ∀ e ∈ span, ¬ e.Evicts p) :
    ((ledger (before ++ span)).kept p).map Standing.exports = some v := by
  have hloaded {e : Event} (hlast : (before ++ span).getLast? = some e) (he : e.Loads p v) :
      (ledger (before ++ span)).kept p = some (.loaded v) := by
    rcases span.eq_nil_or_concat with rfl | ⟨b, x, rfl⟩
    · rw [List.append_nil, hlookup] at hlast
      cases hlast
      exact he.elim
    · rw [List.concat_eq_append, ← List.append_assoc] at hlast hlegal hreturns ⊢
      rw [List.getLast?_concat, Option.some.injEq] at hlast
      subst hlast
      exact kept_of_loads_of_returns hlegal hreturns he fun y hy => hspan y (by simp [hy])
  rcases hdue with ⟨_, -, hkept⟩ | hleave | hparse
  · exact hkept
  · rw [hloaded hleave ⟨Path.same_refl p, rfl⟩]
    rfl
  · rw [hloaded hparse ⟨Path.same_refl p, rfl⟩]
    rfl

end History

/-! ### Lookups -/

section

variable {host : Host σ η} {serve : (c : Call) → Eff σ η c.Reply} {s t : State σ η} {p : Path}
  {v : Value}

theorem exists_found_of_require (h : ledgerRelation.HoldsOfSteps serve)
    (hlookup : host.lookup? = none)
    {call : LookupCall} (hrun : (Legacy.require host serve call).runIn s = (.ok v, t)) :
    ∃ found, RequireId.resolve host.files host.builtins call.id call.parent = .ok found := by
  obtain ⟨_, _, -, hrun⟩ := Eff.runIn_bind_eq_ok.1 hrun
  obtain ⟨m, m', -, hbase, -⟩ := h.intercept_eq_ok ledger_hook call _ hrun
  obtain ⟨_, _, -, hload⟩ := Eff.runIn_bind_eq_ok.1 hbase
  rw [hlookup] at hload
  obtain ⟨found, _, hfound, -⟩ := Eff.runIn_bind_eq_ok.1 hload
  exact ⟨found, (Eff.runIn_ofExcept_eq_ok.1 hfound).1⟩

/-- Unless it is evicted, a file that is found has its value in the cache when the lookup ends. -/
theorem exports?_of_require (h : ledgerRelation.HoldsOfSteps serve) (hlookup : host.lookup? = none)
    {call : LookupCall} {found : Resolution}
    (hfound : RequireId.resolve host.files host.builtins call.id call.parent = .ok found)
    (hp : found.path? = some p) (hrun : (Legacy.require host serve call).runIn s = (.ok v, t)) :
    ∃ span, t.history = s.history ++ span ∧ .answer p v ∈ span ∧
      (s.LedgerHolds → (∀ e ∈ span, ¬ e.Evicts p) → t.cache.exports? p = some v) := by
  obtain ⟨m, u, hsm, hmu, hut⟩ := answered_of_require h hlookup hfound hp hrun
  have hlooked : ledgerRelation.returns m (m.emit (.lookup call)) := ledger_aside m trivial
  obtain ⟨a, ha⟩ := (ledgerRelation.trans hsm hlooked).1.1
  obtain ⟨b, hb⟩ := hmu.1.1
  obtain ⟨c, hc⟩ := hut.1.1
  have hanswer : t.history = u.history ++ .answer p v :: c := by
    rw [← hc, State.history_emit, List.append_assoc, List.singleton_append]
  refine ⟨a ++ b ++ .answer p v :: c, by rw [hanswer, ← hb, ← ha]; simp, by simp,
    fun hs hspan => ?_⟩
  have ht : t.LedgerHolds :=
    ((h.require ledger_hook (carries_base h) call s).of_eq_ok hrun).1.1.2 hs
  have hlegal : (u.history ++ .answer p v :: c).Legal := hanswer ▸ ht.legal
  have hkept : (u.history.ledger.kept p).map Standing.exports = some v := by
    have hlast : (m.emit (.lookup call)).history.getLast? = some (.lookup call) := by simp
    rw [← hb] at hlegal ⊢
    refine kept_of_due_answer hlegal.due hlegal.take hlast (hb ▸ hmu.2) fun e he => ?_
    exact hspan e (by simp [he])
  have hstays : t.history.ledger.kept p = u.history.ledger.kept p := by
    rw [hanswer]
    refine kept_of_returns hlegal ?_ ?_ fun e he => hspan e (by simpa using Or.inr (Or.inr he))
    · rw [← hanswer, hut.2, State.history_emit, ledger_concat]
      rfl
    · simpa using congrArg Option.isSome hkept
  rw [← hstays, ht.kept, Option.map_map] at hkept
  simpa [Cache.exports?, Function.comp_def] using hkept

end

end ModuleLoader
