import ModuleLoader.Proofs.LoadedOnce
/-!
The end of a body, and the entry that it settles.

When a body ends, the entry of its file is settled, and it is found by the path.
The entry that the body has made is there only as long as nobody has evicted the
file. While the body runs, anything may evict it, and then the file may be loaded
once more, from within the body, so that there is an entry again when the body
ends. It is not the body's own. But it is the one that gets what the body has
come to, or that goes with the body if that has failed.

So it has to be seen which entry is there when a body ends. A body is entered,
what happens while it runs happens in a part of the history, and it ends as the
innermost of those that run. What is said here is said for every such part, and
by going through it event by event: as long as the file is not evicted the entry
is the body's own and no other body of the file is entered; and once it has been
evicted, an entry that is not settled is that of another body, further within.
-/

namespace ModuleLoader

variable {σ η α : Type}

open History

namespace Event

variable {e : Event} {p q : Path}

theorem Evicts.touches (he : e.Evicts p) : e.Touches p := by
  cases e with
  | evict x dropped => exact he.2
  | _ => exact he.elim

theorem Evicts.of_same (he : e.Evicts q) (hsame : q.same p) : e.Evicts p := by
  cases e with
  | evict x dropped => exact ⟨he.1, Path.same_trans he.2 hsame⟩
  | _ => exact he.elim

end Event

/-- What is kept for a file after a body of it has ended. -/
theorem Ledger.kept_next_leave (l : Ledger) {p q : Path} (h : q.same p)
    (outcome : Except Error Value) :
    (l.next (.leave q outcome)).kept p =
      match outcome with
      | .ok exports => (l.kept p).map fun _ => .loaded exports
      | .error _ => none := by
  have hsame := Path.same_symm h
  cases outcome with
  | ok exports =>
      rw [l.even hsame]
      exact l.kept_keep_same hsame _
  | error cause => exact l.kept_keep_same hsame _

namespace History

variable {h before after span : History} {e : Event} {p : Path} {r : ExportsRef}
  {inner outer rest : List (Path × ExportsRef)} {start v : Value}

/-! ### Values that stay -/

/-- Unless it is evicted, a file that is loaded stays what it is through a stretch, or there is a
first body of it that ends there. -/
theorem accepts_or_leaves (hlegal : (before ++ span ++ after).Legal)
    (hkept : (ledger before).kept p = some (.loaded v)) (hspan : ∀ e ∈ span, ¬ e.Evicts p) :
    ((ledger (before ++ span)).kept p = some (.loaded v) ∧ ∀ e ∈ span, Accepts p v e) ∨
      ∃ b x rest, span = b ++ x :: rest ∧ x.Leaves p ∧ (∀ e ∈ b, Accepts p v e) ∧
        (ledger (before ++ b)).kept p = some (.loaded v) := by
  induction span generalizing before with
  | nil => exact .inl ⟨by simpa using hkept, fun e he => by cases he⟩
  | cons e rest ih =>
      simp only [List.forall_mem_cons, List.append_assoc, List.cons_append] at hlegal hspan
      by_cases hleaves : e.Leaves p
      · exact .inr ⟨[], e, rest, rfl, hleaves, by simp, by simpa using hkept⟩
      · have haccepts := accepts_of_not_leaves hlegal.due hkept hleaves hspan.1
        have hnext : (ledger (before ++ [e])).kept p = some (.loaded v) := by
          rw [ledger_concat, Ledger.kept_next_of_not_touches _ haccepts.touches, hkept]
        rw [List.append_cons, ← List.append_assoc] at hlegal
        rcases ih hlegal hnext hspan.2 with ⟨hlast, hall⟩ | ⟨b, x, rest', rfl, hx, hb, hlast⟩
        · exact .inl ⟨by rwa [List.append_cons], List.forall_mem_cons.2 ⟨haccepts, hall⟩⟩
        · refine .inr ⟨e :: b, x, rest', rfl, hx, List.forall_mem_cons.2 ⟨haccepts, hb⟩, ?_⟩
          rwa [List.append_cons]

/-! ### While a body runs -/

/-- Of the bodies that run after an event each was running before, among the same, or it is the one
that has just been entered. -/
theorem running_concat (hdue : Due before e)
    (hrunning : (ledger (before ++ [e])).running = inner ++ (p, r) :: outer) :
    (inner = [] ∧ ∃ context start, e = .enter p context r start ∧ (ledger before).running = outer) ∨
      ∃ inner', (ledger before).running = inner' ++ (p, r) :: outer := by
  rw [ledger_concat] at hrunning
  cases e with
  | enter q context x start =>
      cases inner with
      | nil =>
          cases hrunning
          exact .inl ⟨rfl, context, start, rfl, rfl⟩
      | cons script inner' => exact .inr ⟨inner', (List.cons.inj hrunning).2⟩
  | leave q outcome =>
      obtain ⟨x, rest, hbefore, -⟩ := hdue
      rw [Ledger.running_next_leave, hbefore] at hrunning
      have htail : rest = inner ++ (p, r) :: outer := hrunning
      exact .inr ⟨(q, x) :: inner, by rw [hbefore, htail]; rfl⟩
  | _ => exact .inr ⟨inner, hrunning⟩

/-- How the entry of a file stands to a body of it that runs, where `inner` are the bodies that this
one has set going, and `span` is what has happened since it was entered. -/
structure Stands (p : Path) (start : Value) (inner : List (Path × ExportsRef)) (span : History)
    (kept : Option Standing) : Prop where
  /-- Until it is evicted the entry is the body's own, and the body is the only one. -/
  own : (∀ e ∈ span, ¬ e.Evicts p) → kept = some (.loading start) ∧ (∀ e ∈ span, ¬ e.Touches p) ∧
    ∀ script ∈ inner, ¬ script.1.same p
  /-- After that, an entry that is not settled is that of another body. -/
  other : (∃ e ∈ span, e.Evicts p) → ∀ w, kept = some (.loading w) →
    ∃ script ∈ inner, script.1.same p
  /-- One that is settled was so while the body ran. -/
  settled : ∀ w, kept = some (.loaded w) → ∃ e ∈ span, e.Loads p w

theorem Stands.enter (start : Value) : Stands p start [] [] (some (.loading start)) where
  own _ := ⟨rfl, nofun, nofun⟩
  other := nofun
  settled := nofun

theorem Stands.aside {inner' : List (Path × ExportsRef)} {kept kept' : Option Standing}
    (h : Stands p start inner span kept) (htouches : ¬ e.Touches p) (hkept : kept' = kept)
    (hinner : ∀ script, script.1.same p → (script ∈ inner' ↔ script ∈ inner)) :
    Stands p start inner' (span ++ [e]) kept' where
  own hspan := by
    simp only [List.forall_mem_append, List.forall_mem_singleton] at hspan
    obtain ⟨hown, hnone, hothers⟩ := h.own hspan.1
    refine ⟨hkept.trans hown, ?_, fun script hscript hsame => ?_⟩
    · simpa only [List.forall_mem_append, List.forall_mem_singleton] using ⟨hnone, htouches⟩
    · exact hothers script ((hinner script hsame).1 hscript) hsame
  other hspan w hw := by
    have hbefore : ∃ x ∈ span, x.Evicts p := by
      obtain ⟨x, hx, hevicts⟩ := hspan
      rcases List.mem_append.1 hx with hx | hx
      · exact ⟨x, hx, hevicts⟩
      · rw [List.mem_singleton.1 hx] at hevicts
        exact (htouches hevicts.touches).elim
    obtain ⟨script, hscript, hsame⟩ := h.other hbefore w (hkept ▸ hw)
    exact ⟨script, (hinner script hsame).2 hscript, hsame⟩
  settled w hw := by
    obtain ⟨x, hx, hloads⟩ := h.settled w (hkept ▸ hw)
    exact ⟨x, List.mem_append_left _ hx, hloads⟩

theorem Stands.touched {inner' : List (Path × ExportsRef)} {kept : Option Standing}
    (hevicted : ∃ x ∈ span ++ [e], x.Evicts p)
    (hloading : ∀ w, kept = some (.loading w) → ∃ script ∈ inner', script.1.same p)
    (hloaded : ∀ w, kept = some (.loaded w) → e.Loads p w) :
    Stands p start inner' (span ++ [e]) kept where
  own hspan := by
    obtain ⟨x, hx, hevicts⟩ := hevicted
    exact (hspan x hx hevicts).elim
  other _ := hloading
  settled w hw := ⟨e, List.mem_concat_self, hloaded w hw⟩

/-- If something that does not go with an entry of the body's own has come about, then the file has
been evicted. -/
theorem Stands.evicted {kept : Option Standing} (h : Stands p start inner span kept)
    (hnot : kept = some (.loading start) → (∀ script ∈ inner, ¬ script.1.same p) → e.Evicts p) :
    ∃ x ∈ span ++ [e], x.Evicts p := by
  by_cases hspan : ∃ x ∈ span, x.Evicts p
  · obtain ⟨x, hx, hevicts⟩ := hspan
    exact ⟨x, List.mem_append_left _ hx, hevicts⟩
  · push Not at hspan
    obtain ⟨hown, -, hothers⟩ := h.own hspan
    exact ⟨e, List.mem_concat_self, hnot hown hothers⟩

/-- What the next event makes of it, while the body goes on. -/
theorem Stands.next (h : Stands p start inner span ((ledger before).kept p)) (hdue : Due before e)
    {inner' : List (Path × ExportsRef)}
    (hbefore : (ledger before).running = inner ++ (p, r) :: outer)
    (hafter : (ledger (before ++ [e])).running = inner' ++ (p, r) :: outer) :
    Stands p start inner' (span ++ [e]) ((ledger (before ++ [e])).kept p) := by
  rw [ledger_concat] at hafter ⊢
  have hkept {q : Path} (hsame : q.same p) : (ledger before).kept p = (ledger before).kept q :=
    ((ledger before).even hsame).symm
  have hnone {q : Path} (hsame : q.same p) (hq : (ledger before).kept q = none)
      (hown : (ledger before).kept p = some (.loading start)) : e.Evicts p := by
    rw [hkept hsame, hq] at hown
    cases hown
  cases e with
  | enter q context x first =>
      have hinner : inner' = (q, x) :: inner := by
        refine (List.append_left_inj ((p, r) :: outer)).1 ?_
        rw [← hafter, List.cons_append, ← hbefore]
        rfl
      by_cases hsame : q.same p
      · have hnew : ((ledger before).next (.enter q context x first)).kept p =
            some (.loading first) := Ledger.kept_keep_same _ (Path.same_symm hsame) _
        refine .touched (h.evicted fun hown _ => hnone hsame hdue.1 hown) (fun w _ => ?_) ?_
        · exact ⟨(q, x), by simp [hinner], hsame⟩
        · intro w hw
          rw [hnew] at hw
          cases hw
      · refine h.aside hsame (Ledger.kept_next_of_not_touches _ hsame) fun script hscript => ?_
        rw [hinner, List.mem_cons, or_iff_right]
        rintro rfl
        exact hsame hscript
  | leave q outcome =>
      obtain ⟨x, rest, hrunning, -⟩ := hdue
      have hinner : inner = (q, x) :: inner' := by
        refine (List.append_left_inj ((p, r) :: outer)).1 ?_
        rw [List.cons_append, ← hafter, ← hbefore, Ledger.running_next_leave, hrunning]
        rfl
      by_cases hsame : q.same p
      · have hnew := Ledger.kept_next_leave (ledger before) hsame outcome
        have hevicted : ∃ y ∈ span ++ [.leave q outcome], y.Evicts p :=
          h.evicted fun _ hothers => (hothers (q, x) (by simp [hinner]) hsame).elim
        cases outcome with
        | ok exports =>
            refine .touched hevicted (fun w hw => ?_) fun w hw => ?_
            all_goals
              obtain ⟨_, -, hloaded⟩ := Option.map_eq_some_iff.1 (hnew.symm.trans hw)
              cases hloaded
            exact ⟨hsame, rfl⟩
        | error cause =>
            rw [hnew]
            exact .touched hevicted (fun _ hw => by cases hw) fun _ hw => by cases hw
      · refine h.aside hsame (Ledger.kept_next_of_not_touches _ hsame) fun script hscript => ?_
        rw [hinner, List.mem_cons, or_iff_right]
        rintro rfl
        exact hsame hscript
  | parse q value =>
      have hinner : inner' = inner := List.append_cancel_right (hafter.symm.trans hbefore)
      by_cases hsame : q.same p
      · have hnew : ((ledger before).next (.parse q value)).kept p = some (.loaded value) :=
          Ledger.kept_keep_same _ (Path.same_symm hsame) _
        rw [hnew]
        refine .touched (h.evicted fun hown _ => hnone hsame hdue hown) (fun w hw => ?_)
          fun w hw => ?_
        · cases hw
        · cases hw
          exact ⟨hsame, rfl⟩
      · exact h.aside hsame (Ledger.kept_next_of_not_touches _ hsame) fun _ _ => by rw [hinner]
  | evict q dropped =>
      have hinner : inner' = inner := List.append_cancel_right (hafter.symm.trans hbefore)
      by_cases hsame : q.same p
      · have hnew : ((ledger before).next (.evict q dropped)).kept p = none :=
          Ledger.kept_keep_same _ (Path.same_symm hsame) _
        rw [hnew]
        refine .touched (h.evicted fun hown _ => ⟨?_, hsame⟩) (fun w hw => ?_) fun w hw => ?_
        · rw [hdue, ← hkept hsame, hown]
          rfl
        · cases hw
        · cases hw
      · exact h.aside hsame (Ledger.kept_next_of_not_touches _ hsame) fun _ _ => by rw [hinner]
  | _ =>
      have hinner : inner' = inner := List.append_cancel_right (hafter.symm.trans hbefore)
      exact h.aside id rfl fun _ _ => by rw [hinner]

/-- Every body that is running was entered, and has been running ever since. -/
theorem exists_enter (hlegal : h.Legal) (hrunning : (ledger h).running = inner ++ (p, r) :: outer) :
    ∃ a context start span, h = a ++ .enter p context r start :: span ∧
      (ledger a).running = outer ∧
      (∀ b, b <+: span → (ledger (a ++ .enter p context r start :: b)).Runs p) ∧
      Stands p start inner span ((ledger h).kept p) := by
  induction h using List.reverseRecOn generalizing inner with
  | nil => simp [ledger, Ledger.blank] at hrunning
  | append_singleton before e ih =>
      have hdue := hlegal.due
      have hruns : (ledger (before ++ [e])).Runs p := ⟨(p, r), by simp [hrunning], Path.same_refl p⟩
      rcases running_concat hdue hrunning with
        ⟨rfl, context, start, rfl, hbefore⟩ | ⟨inner', hbefore⟩
      · refine ⟨before, context, start, [], rfl, hbefore, fun b hb => ?_, ?_⟩
        · rw [List.prefix_nil.1 hb]
          exact hruns
        · rw [kept_of_enter before (Path.same_refl p)]
          exact .enter start
      · obtain ⟨a, context, start, span, hsplit, houter, hspan, hstands⟩ := ih hlegal.take hbefore
        refine ⟨a, context, start, span ++ [e], by simp [hsplit], houter, fun b hb => ?_,
          hstands.next hdue hbefore hrunning⟩
        rcases List.prefix_concat_iff.1 hb with rfl | hb
        · rwa [hsplit, List.append_assoc, List.cons_append] at hruns
        · exact hspan b hb

/-! ### The end of a body -/

/-- The innermost body is one of the file, and has made the entry that is there. Nothing has
happened to the file since. -/
def Owns (p : Path) (h : History) : Prop :=
  ∃ a context r start span, h = a ++ .enter p context r start :: span ∧
    (ledger h).running = (p, r) :: (ledger a).running ∧
    (ledger h).kept p = some (.loading start) ∧ ∀ e ∈ span, ¬ e.Touches p

/-- The innermost body is one of the file, and the file has been evicted since it was entered. If
there is an entry again, then the file has been loaded in the meantime. -/
def Overtaken (p : Path) (h : History) : Prop :=
  ∃ a context r start span, h = a ++ .enter p context r start :: span ∧
    (ledger h).running = (p, r) :: (ledger a).running ∧
    (∃ b e c, span = b ++ e :: c ∧ e.Evicts p ∧
      (ledger (a ++ .enter p context r start :: b)).Runs p) ∧
    ∀ standing, (ledger h).kept p = some standing →
      ∃ v, standing = .loaded v ∧ ∃ e ∈ span, e.Loads p v

theorem owns_or_overtaken {outcome : Except Error Value}
    (hlegal : (before ++ .leave p outcome :: after).Legal) :
    Owns p before ∨ Overtaken p before := by
  obtain ⟨r, rest, hrunning, -⟩ := hlegal.due
  obtain ⟨a, context, start, span, hsplit, rfl, hruns, hstands⟩ :=
    exists_enter hlegal.take (hrunning.trans (List.nil_append _).symm)
  by_cases hspan : ∃ e ∈ span, e.Evicts p
  · refine .inr ⟨a, context, r, start, span, hsplit, hrunning, ?_, fun standing hkept => ?_⟩
    · obtain ⟨e, he, hevicts⟩ := hspan
      obtain ⟨b, c, rfl⟩ := List.append_of_mem he
      exact ⟨b, e, c, rfl, hevicts, hruns b (List.prefix_append ..)⟩
    · cases standing with
      | loading w =>
          obtain ⟨script, hscript, -⟩ := hstands.other hspan w hkept
          cases hscript
      | loaded v => exact ⟨v, rfl, hstands.settled v hkept⟩
  · push Not at hspan
    obtain ⟨hown, htouches, -⟩ := hstands.own hspan
    exact .inl ⟨a, context, r, start, span, hsplit, hrunning, hown, htouches⟩

/-- A body that ends while its file is loaded already is one that has been overtaken. -/
theorem overtaken_of_loaded {outcome : Except Error Value}
    (hlegal : (before ++ .leave p outcome :: after).Legal)
    (hkept : (ledger before).kept p = some (.loaded v)) : Overtaken p before := by
  refine (owns_or_overtaken hlegal).resolve_left ?_
  rintro ⟨a, context, r, start, span, -, -, hown, -⟩
  rw [hkept] at hown
  cases hown

end History

/-- When a body ends, the entry that is settled is the one that this load has made, unless the file
was evicted while its body ran. A file that is loaded changes only by being evicted or by the end of
a body that was overtaken in this way. -/
theorem loads_settle_own_entry (host : Host σ η) (store : σ) (depth : Nat) (program : Program σ η α)
    (h : History) (hh : h = (host.exec depth program (State.initial store)).2.history) :
    (∀ p outcome before after, h = before ++ .leave p outcome :: after →
      (∀ q, ¬ q.same p →
        (ledger (before ++ [.leave p outcome])).kept q = (ledger before).kept q) ∧
      ((ledger (before ++ [.leave p outcome])).kept p = match outcome with
        | .ok v => ((ledger before).kept p).map fun _ => .loaded v
        | .error _ => none) ∧
      (Owns p before ∨ Overtaken p before)) ∧
    (∀ p v before span after, h = before ++ span ++ after →
      (ledger before).kept p = some (.loaded v) → (∀ e ∈ span, ¬ e.Evicts p) →
      ((ledger (before ++ span)).kept p = some (.loaded v) ∧ ∀ e ∈ span, Accepts p v e) ∨
        ∃ b q outcome c, span = b ++ .leave q outcome :: c ∧ q.same p ∧
          (∀ e ∈ b, Accepts p v e) ∧ Overtaken q (before ++ b)) ∧
    (∀ p, (∀ before e after, h = before ++ e :: after → e.Evicts p → ¬ (ledger before).Runs p) →
      (∀ q outcome before after, h = before ++ .leave q outcome :: after → q.same p →
        Owns q before) ∧
      ∀ v before span after, h = before ++ span ++ after →
        (ledger before).kept p = some (.loaded v) → (∀ e ∈ span, ¬ e.Evicts p) →
        (ledger (before ++ span)).kept p = some (.loaded v) ∧ ∀ e ∈ span, Accepts p v e) ∧
    (host.lookup? = none → host.TracesAnswers) := by
  have hlegal : h.Legal := hh ▸ (host.ledgerHolds_exec depth program store).legal
  have hstays : ∀ p v before span after, h = before ++ span ++ after →
      (ledger before).kept p = some (.loaded v) → (∀ e ∈ span, ¬ e.Evicts p) →
      ((ledger (before ++ span)).kept p = some (.loaded v) ∧ ∀ e ∈ span, Accepts p v e) ∨
        ∃ b q outcome c, span = b ++ .leave q outcome :: c ∧ q.same p ∧
          (∀ e ∈ b, Accepts p v e) ∧ Overtaken q (before ++ b) := by
    intro p v before span after hsplit hkept hspan
    refine (accepts_or_leaves (hsplit ▸ hlegal) hkept hspan).imp_right ?_
    rintro ⟨b, x, c, rfl, hleaves, hb, hlast⟩
    cases x with
    | leave q outcome =>
        refine ⟨b, q, outcome, c, rfl, hleaves, hb, ?_⟩
        have hparts : h = before ++ b ++ .leave q outcome :: (c ++ after) := by simp [hsplit]
        exact overtaken_of_loaded (hparts ▸ hlegal) (((ledger _).even hleaves).trans hlast)
    | _ => exact hleaves.elim
  refine ⟨fun p outcome before after hsplit => ?_, hstays, fun p hidle => ?_,
    fun hlookup => host.tracesAnswers hlookup⟩
  · refine ⟨fun q hq => ?_, ?_, owns_or_overtaken (hsplit ▸ hlegal)⟩
    · rw [ledger_concat]
      exact Ledger.kept_next_of_not_touches _ (mt Path.same_symm hq)
    · rw [ledger_concat]
      exact Ledger.kept_next_leave _ (Path.same_refl p) outcome
  · have hnever : ∀ q before after, h = before ++ after → q.same p → ¬ Overtaken q before := by
      rintro q before after hsplit hsame
        ⟨a, context, r, start, span, rfl, -, ⟨b, e, c, rfl, he, hruns⟩, -⟩
      refine hidle (a ++ .enter q context r start :: b) e (c ++ after) (by simp [hsplit]) ?_ ?_
      · exact he.of_same hsame
      · obtain ⟨script, hscript, hq⟩ := hruns
        exact ⟨script, hscript, Path.same_trans hq hsame⟩
    refine ⟨fun q outcome before after hsplit hsame => ?_,
      fun v before span after hsplit hkept hspan => ?_⟩
    · exact (owns_or_overtaken (hsplit ▸ hlegal)).resolve_right (hnever q before _ hsplit hsame)
    · refine (hstays p v before span after hsplit hkept hspan).resolve_right ?_
      rintro ⟨b, q, outcome, c, rfl, hsame, -, hover⟩
      exact hnever q (before ++ b) (.leave q outcome :: c ++ after) (by simp [hsplit]) hsame hover

/-- A host with one script. The first time its body evicts the script and requires it twice, and
ends with one string; from then on it ends with another. -/
def supersedingWorld : Host Bool Empty where
  files := ⟨[(["a.cjs"], .file (some ""))]⟩
  config := {}
  builtins := ⟨"node:", []⟩
  linkerBuiltins? := none
  scriptContext := ⟨0⟩
  compile _ _ := pure ⟨[], fun _ => throw (.engine "")⟩
  runScript _ m := do
    let again ← Script.perform .store
    if again then Script.perform (.writeExports m.exports (.string "new"))
    else do
      Script.perform (.modifyStore fun _ => true)
      let _ ← Script.perform (.evict m.filename)
      let _ ← Script.request (.require ⟨"./a.cjs", m.filename⟩)
      let _ ← Script.request (.require ⟨"./a.cjs", m.filename⟩)
      Script.perform (.writeExports m.exports (.string "old"))
  hook h := nomatch h
  lookup? := none

def requireTwice : Program Bool Empty (Except Error Value) := do
  let _ ← Program.attempt (.require ⟨"./a.cjs", ⟨"/main.cjs"⟩⟩)
  Program.attempt (.require ⟨"./a.cjs", ⟨"/main.cjs"⟩⟩)

def Standing.text? : Standing → Option String
  | loaded (.string s) => some s
  | _ => none

def Event.answeredText? : Event → Option (Path × String)
  | answer p (.string s) => some (p, s)
  | _ => none

theorem Standing.eq_of_text? {standing : Standing} {s : String} (h : standing.text? = some s) :
    standing = .loaded (.string s) := by
  cases standing with
  | loading start => cases h
  | loaded exports => cases exports <;> cases h; rfl

theorem Event.eq_of_answeredText? {e : Event} {p : Path} {s : String}
    (h : e.answeredText? = some (p, s)) : e = .answer p (.string s) := by
  cases e with
  | answer q value => cases value <;> cases h; rfl
  | _ => cases h

def supersedingHistory : History :=
  (supersedingWorld.exec 4 requireTwice (State.initial false)).2.history

/-- By the time the body that was entered first is about to end, the entry is that of the other.
After it has ended a lookup is answered with something else. -/
theorem supersedingHistory_facts :
    (∀ e ∈ supersedingHistory.drop 12, ¬ e.Evicts ⟨"/a.cjs"⟩) ∧
      (ledger (supersedingHistory.take 12)).kept ⟨"/a.cjs"⟩ = some (.loaded (.string "new")) ∧
      .answer ⟨"/a.cjs"⟩ (.string "old") ∈ supersedingHistory.drop 12 := by
  have hfacts : (∀ e ∈ supersedingHistory.drop 12, ¬ e.Evicts ⟨"/a.cjs"⟩) ∧
      ((ledger (supersedingHistory.take 12)).kept ⟨"/a.cjs"⟩).bind Standing.text? = some "new" ∧
      (supersedingHistory.drop 12)[4]?.bind Event.answeredText? = some (⟨"/a.cjs"⟩, "old") := by
    decide +kernel
  obtain ⟨hspan, hkept, hanswer⟩ := hfacts
  obtain ⟨standing, hstanding, htext⟩ := Option.bind_eq_some_iff.1 hkept
  obtain ⟨e, he, hold⟩ := Option.bind_eq_some_iff.1 hanswer
  refine ⟨hspan, hstanding.trans (congrArg some (Standing.eq_of_text? htext)), ?_⟩
  rw [← Event.eq_of_answeredText? hold]
  exact List.mem_of_getElem? he

/-- The body that was entered first is overtaken. -/
theorem loads_settle_own_entry_supersedingWorld :
    ∃ b q outcome c, supersedingHistory.drop 12 = b ++ .leave q outcome :: c ∧
      q.same ⟨"/a.cjs"⟩ ∧ Overtaken q (supersedingHistory.take 12 ++ b) := by
  obtain ⟨hspan, hkept, hanswer⟩ := supersedingHistory_facts
  obtain ⟨-, hstays, -⟩ :=
    loads_settle_own_entry supersedingWorld false 4 requireTwice supersedingHistory rfl
  have hsplit : supersedingHistory =
      supersedingHistory.take 12 ++ supersedingHistory.drop 12 ++ [] := by simp
  rcases hstays _ _ _ _ _ hsplit hkept hspan with
    ⟨-, hall⟩ | ⟨b, q, outcome, c, hdrop, hsame, -, hover⟩
  · have heq := (hall _ hanswer).answers _ ⟨Path.same_refl _, rfl⟩
    simp at heq
  · exact ⟨b, q, outcome, c, hdrop, hsame, hover⟩

/-- What the newer load has come to does not stay. A lookup that is answered after it, and while
nobody evicts the file, is answered with something else. -/
theorem newer_load_overwritten :
    ∃ before span v w, supersedingHistory = before ++ span ∧
      (ledger before).kept ⟨"/a.cjs"⟩ = some (.loaded v) ∧
      (∀ e ∈ span, ¬ e.Evicts ⟨"/a.cjs"⟩) ∧ .answer ⟨"/a.cjs"⟩ w ∈ span ∧ v ≠ w := by
  obtain ⟨hspan, hkept, hanswer⟩ := supersedingHistory_facts
  exact ⟨_, _, .string "new", .string "old", (List.take_append_drop 12 _).symm, hkept, hspan,
    hanswer, by simp⟩

end ModuleLoader
