import ModuleLoader.Proofs.KnownRecords
import ModuleLoader.Proofs.Forest
/-!
What every call does about records that nobody knows of.

Let a set of records be hidden. A call from a program does not ask for one of
them, and neither does anything that is run for it, so they are as they were when
the call comes back, and they are still hidden. Linking a record gives it new
records below it, and these are hidden from then on as well. It is one more
induction on the depth of calls, along the steps of the last one.
-/

namespace ModuleLoader

open Eff

variable {σ η α : Type}

structure State.KeepsHidden (host : Host σ η) (names : σ → RecordId → Prop)
    (known hidden : RecordId → Prop) (s t : State σ η) : Prop where
  good : t.Good host (fun _ => True) (Compiled.EvaluatesKnown names known)
  follows : State.Follows s t
  hides : t.Hides names known hidden
  spares : State.Spares hidden s t

/-- A server whose calls spare what is hidden. A record that it has linked has a forest below it
that is linked as well, and if the record was hidden then so is the forest. -/
structure SparesHidden (host : Host σ η) (names : σ → RecordId → Prop) (known : RecordId → Prop)
    (serve : (c : Call) → Eff σ η c.Reply) : Prop where
  call : ∀ (hidden : RecordId → Prop) c s,
    s.Good host (fun _ => True) (Compiled.EvaluatesKnown names known) → s.Hides names known hidden →
    (∀ x, c = .evaluate x → ¬ hidden x) →
    Leads (State.KeepsHidden host names known hidden s) (fun _ => True) s (serve c)
      fun r t => ∀ x, c.Hands (.ok r) x → s.records.size ≤ x.index ∧ x.index < t.records.size
  linkModule : ∀ (hidden : RecordId → Prop) r s a t,
    s.Good host (fun _ => True) (Compiled.EvaluatesKnown names known) → s.Hides names known hidden →
    s.record? r = some a → a.phase = .unlinked → (serve (.linkModule r)).runIn s = (.ok (), t) →
    ∃ (f : Forest) (b : ModuleRecord σ η), t.record? r = some b ∧ b.status = .linked ∧
      b.dependencies = f.edges ∧ f.Stands t ∧
      (∀ x ∈ f.postorder, ∃ c, t.record? x = some c ∧ c.status = .linked) ∧
      (hidden r → t.Hides names known fun x => hidden x ∨ x ∈ f.postorder)

namespace State

variable {host : Host σ η} {names : σ → RecordId → Prop} {known hidden : RecordId → Prop}
  {s m t : State σ η}

theorem KeepsHidden.refl (hgood : s.Good host (fun _ => True) (Compiled.EvaluatesKnown names known))
    (hhides : s.Hides names known hidden) : KeepsHidden host names known hidden s s :=
  ⟨hgood, .refl s, hhides, .refl s⟩

theorem KeepsHidden.trans (h : KeepsHidden host names known hidden s m)
    (h' : KeepsHidden host names known hidden m t) : KeepsHidden host names known hidden s t :=
  ⟨h'.good, h.follows.trans h'.follows, h'.hides, h.spares.trans h.follows h'.spares⟩

/-- A record that has just been added may be hidden too. -/
theorem Hides.hide_next (h : s.Hides names known hidden) (hs : s.Sound host) (identifier : String)
    (referrer : Referrer) (kind : ModuleKind σ η) :
    (s.add (.fresh identifier referrer kind)).Hides names known
      fun x => hidden x ∨ x = s.next := by
  have hold : ∀ x, x.index < s.records.size ∧ ¬ hidden x → ¬ (hidden x ∨ x = s.next) := by
    rintro x ⟨hlt, hx⟩ (hhidden | rfl)
    · exact hx hhidden
    · exact Nat.lt_irrefl _ hlt
  have hadded := h.add identifier referrer kind
  refine ⟨?_, fun x hx => ⟨(hadded.known x hx).1, hold x (h.known x hx)⟩,
    fun x hx => ⟨(hadded.named x hx).1, hold x (h.named x hx)⟩, ?_⟩
  · rintro x (hx | rfl)
    · exact hadded.there x hx
    · rw [size_add]
      exact Nat.lt_succ_self _
  · intro x a ha hstatus hx dep hdep
    have hnot := hadded.closed x a ha hstatus (fun hhidden => hx (Or.inl hhidden)) dep hdep
    rw [record?_add] at ha
    split at ha
    · cases ha
      simp [ModuleRecord.fresh] at hdep
    · obtain ⟨c, hc, -⟩ := hs.edge x a ha dep hdep
      exact hold dep.2 ⟨lt_of_record? hc, hnot⟩

end State

section

variable {host : Host σ η} {names : σ → RecordId → Prop} {known hidden : RecordId → Prop}
  {serve : (c : Call) → Eff σ η c.Reply}

theorem SparesHidden.leads_linkModule (hm : SparesHidden host names known serve) {s : State σ η}
    (hgood : s.Good host (fun _ => True) (Compiled.EvaluatesKnown names known))
    (hhides : s.Hides names known hidden) (r : RecordId) :
    Leads (State.KeepsHidden host names known hidden s) (fun _ => True) s (serve (.linkModule r))
      fun _ _ => True :=
  (hm.call hidden (.linkModule r) s hgood hhides fun x hx => by cases hx).imp
    (fun _ ht => ht) fun _ _ _ _ _ => trivial

/-! ### Programs -/

structure State.KnowsNoHidden (hidden mine own : RecordId → Prop) (first : Nat) (s : State σ η) :
    Prop where
  old : ∀ x, hidden x → x.index < first
  le : first ≤ s.records.size
  mine : ∀ x, mine x → x.index < s.records.size ∧ ¬ hidden x
  own : ∀ x, own x → first ≤ x.index ∧ x.index < s.records.size

theorem State.KnowsNoHidden.not_hidden {mine own : RecordId → Prop} {first : Nat} {s : State σ η}
    (h : s.KnowsNoHidden hidden mine own first) :
    ∀ x, mine x ∨ own x → x.index < s.records.size ∧ ¬ hidden x := by
  rintro x (hx | hx)
  · exact h.mine x hx
  · exact ⟨(h.own x hx).2, fun hhidden => Nat.not_lt.2 (h.own x hx).1 (h.old x hhidden)⟩

/-- An action shows a program only what is below its own records, and so is newer still. -/
theorem State.KnowsNoHidden.carryOut {mine own : RecordId → Prop} {first : Nat} {s : State σ η}
    (h : s.KnowsNoHidden hidden mine own first) (hs : s.Sound host)
    (hhides : s.Hides names known hidden)
    (a : Action σ η) :
    (a.carryOut s).2.KnowsNoHidden hidden (fun x => mine x ∨ a.Hands names (a.carryOut s).1 x)
      (fun x => own x ∨ a.Reveals own (a.carryOut s).1 x) first where
  old := h.old
  le := a.records_carryOut s ▸ h.le
  mine x hx := by
    rw [a.records_carryOut s]
    exact hx.elim (h.mine x) fun hhanded => hhides.named x (Action.names_of_hands hhanded)
  own := by
    rw [a.records_carryOut s]
    rintro x (hx | hx)
    · exact h.own x hx
    · obtain ⟨y, b, hy, hb, dep, hdep, rfl⟩ := Action.exists_of_reveals hx
      obtain ⟨c, hc, hedge⟩ := hs.edge y b hb dep hdep
      exact ⟨Nat.le_trans (h.own y hy).1 (Nat.le_of_lt hedge.later), State.lt_of_record? hc⟩

/-- A call hands a program only what is new. -/
theorem State.KnowsNoHidden.call {mine own : RecordId → Prop} {first : Nat}
    {s t : State σ η} {c : Call}
    {o : Except Error c.Reply} (h : s.KnowsNoHidden hidden mine own first)
    (hle : s.records.size ≤ t.records.size)
    (hnew : ∀ r, o = .ok r → ∀ x, c.Hands (.ok r) x → s.records.size ≤ x.index ∧
      x.index < t.records.size) :
    t.KnowsNoHidden hidden mine (fun x => own x ∨ c.Hands o x) first where
  old := h.old
  le := Nat.le_trans h.le hle
  mine x hx := ⟨Nat.lt_of_lt_of_le (h.mine x hx).1 hle, (h.mine x hx).2⟩
  own := by
    rintro x (hx | hx)
    · exact ⟨(h.own x hx).1, Nat.lt_of_lt_of_le (h.own x hx).2 hle⟩
    · cases o with
      | error e => cases c <;> exact hx.elim
      | ok r => exact ⟨Nat.le_trans h.le (hnew r rfl x hx).1, (hnew r rfl x hx).2⟩

theorem SparesHidden.leads_among (hm : SparesHidden host names known serve) {s : State σ η}
    (hgood : s.Good host (fun _ => True) (Compiled.EvaluatesKnown names known))
    (hhides : s.Hides names known hidden) {P : α → Prop} {mine own : RecordId → Prop} {first : Nat}
    {p : Program σ η α} (hp : p.EvaluatesAmong names P mine own)
    (hapart : s.KnowsNoHidden hidden mine own first) (E : Error → Prop) :
    Leads (State.KeepsHidden host names known hidden s) E s (p.run serve) fun a _ => P a := by
  induction p generalizing s mine own with
  | done a => exact .pure (.refl hgood hhides) hp
  | panic m => exact .throw_panic m (.refl hgood hhides)
  | act a next ih =>
      have hrecords := a.records_carryOut s
      have hnamed : ∀ x, names (a.carryOut s).2.store x → x.index < s.records.size ∧ ¬ hidden x :=
        fun x hx => (Action.names_carryOut hp.1 hx).elim (hapart.not_hidden x) (hhides.named x)
      have hkeep : State.KeepsHidden host names known hidden s (a.carryOut s).2 :=
        ⟨hgood.carryOut a.failsWithin_true, .of_records_eq hrecords, hhides.of_eq hrecords hnamed,
          .of_eq hrecords (a.evaluations_carryOut s)⟩
      have hafter := hapart.carryOut hgood.sound hhides a
      refine .bind_of_eq_ok (runIn_perform a s) ?_
      exact (ih _ hkeep.good hkeep.hides (hp.2 _) hafter).imp (fun _ ht => hkeep.trans ht)
        fun _ _ _ _ h => h
  | call c next ih =>
      have hcall := hm.call hidden c s hgood hhides fun x hx => (hapart.not_hidden x (hp.1 x hx)).2
      refine hcall.settle.bind fun o t _ hkeep ho => ?_
      have hafter : t.KnowsNoHidden hidden mine (fun x => own x ∨ c.Hands o x) first := by
        refine hapart.call hkeep.follows.size_le ?_
        rintro r rfl
        exact ho
      exact (ih o hkeep.good hkeep.hides (hp.2 o) hafter).imp (fun _ ht => hkeep.trans ht)
        fun _ _ _ _ h => h

/-- A program that evaluates what it knows leaves alone what is hidden. -/
theorem SparesHidden.leads_program (hm : SparesHidden host names known serve) {s : State σ η}
    (hgood : s.Good host (fun _ => True) (Compiled.EvaluatesKnown names known))
    (hhides : s.Hides names known hidden) {P : α → Prop} {mine : RecordId → Prop}
    {p : Program σ η α} (hp : p.EvaluatesKnown names P mine)
    (hmine : ∀ x, mine x → x.index < s.records.size ∧ ¬ hidden x) (E : Error → Prop) :
    Leads (State.KeepsHidden host names known hidden s) E s (p.run serve) fun a _ => P a :=
  hm.leads_among hgood hhides hp ⟨hhides.there, Nat.le_refl _, hmine, fun _ => False.elim⟩ E

theorem SparesHidden.leads_script (hm : SparesHidden host names known serve) {s : State σ η}
    (hgood : s.Good host (fun _ => True) (Compiled.EvaluatesKnown names known))
    (hhides : s.Hides names known hidden) {P : α → Prop} {x : Script σ η α}
    (hx : x.EvaluatesKnown names P known) :
    Leads (State.KeepsHidden host names known hidden s) (fun _ => True) s (x.exec serve)
      fun a _ => P a :=
  (hm.leads_program hgood hhides hx hhides.known (fun _ => True)).bind
    fun _ _ _ ht ho => .of_keeps (.ofExcept ho) ht

theorem SparesHidden.keeps_program (hm : SparesHidden host names known serve)
    (s : State σ η) {P : α → Prop}
    {p : Program σ η α} (hp : p.EvaluatesKnown names P known) (E : Error → Prop) :
    Keeps (State.KeepsHidden host names known hidden s) E P (p.run serve) (p.run serve) :=
  .of_runIn fun _ ht => (hm.leads_program ht.good ht.hides hp ht.hides.known E).imp
    (fun _ hu => ht.trans hu) fun _ _ _ _ h => h

theorem SparesHidden.loadInvariant (hm : SparesHidden host names known serve)
    (hhost : host.EvaluatesKnown names known)
    (s : State σ η) :
    LoadInvariant (State.KeepsHidden host names known hidden s) (fun _ => True)
      (Compiled.EvaluatesKnown names known)
      (fun r => s.records.size ≤ r.index) host serve serve where
  core u t heq hu := by
    have hrecords : t.records = u.records := congrArg (·.1) heq
    have hstore : t.store = u.store := congrArg (·.2.2.2) heq
    refine hu.trans ⟨hu.good.congr hrecords (congrArg (·.2.1) heq), .of_records_eq hrecords, ?_,
      .of_eq hrecords (congrArg (·.2.2.1) heq)⟩
    exact hu.hides.of_eq hrecords (by rw [hstore]; exact hu.hides.named)
  error _ _ := trivial
  add u identifier referrer kind hu hkind := by
    refine ⟨hu.trans ⟨hu.good.add identifier referrer hkind, .add identifier referrer kind,
      hu.hides.add identifier referrer kind, ?_⟩, hu.follows.size_le⟩
    refine ⟨fun x a _ ha _ => ?_, [], by rw [List.append_nil]; rfl, by simp⟩
    have hne : x ≠ u.next := by
      rintro rfl
      exact Nat.lt_irrefl _ (State.lt_of_record? ha)
    rw [State.record?_add, if_neg hne]
    exact ha
  foreign := hhost.imp fun _ _ _ hp E => hm.keeps_program s hp E

/-! ### Linking -/

namespace Linker

variable (h : KeepsGood host (fun _ => True) (Compiled.EvaluatesKnown names known) serve)
  (hm : SparesHidden host names known serve) (hhost : host.EvaluatesKnown names known)

section

include hm hhost

theorem keepsHidden_link {s : State σ η}
    (hgood : s.Good host (fun _ => True) (Compiled.EvaluatesKnown names known))
    (hhides : s.Hides names known hidden) (specifier : String) (referrer : Referrer) :
    Leads (State.KeepsHidden host names known hidden s) (fun _ => True) s
      (link host serve specifier referrer) fun dep _ => s.records.size ≤ dep.index :=
  .of_keeps ((hm.loadInvariant hhost s).link (fun _ => trivial) specifier referrer)
    (.refl hgood hhides)

/-- What has been linked for one more request is a tree, which nobody knows of. -/
theorem forest_request {s m t : State σ η} {dep : RecordId} {specifier : String}
    {referrer : Referrer} (hs : s.Good host (fun _ => True) (Compiled.EvaluatesKnown names known))
    (hhides : s.Hides names known hidden)
    (hlink : (link host serve specifier referrer).runIn s = (.ok dep, m))
    (hdep : (serve (.linkModule dep)).runIn m = (.ok (), t)) :
    State.KeepsHidden host names known hidden s t ∧ ∃ (g : Forest) (c : ModuleRecord σ η),
      t.record? dep = some c ∧ c.status = .linked ∧ c.dependencies = g.edges ∧ g.Stands t ∧
      (∀ x ∈ g.postorder, ∃ b, t.record? x = some b ∧ b.status = .linked) ∧
      t.Hides names known fun x => (hidden x ∨ x = dep) ∨ x ∈ g.postorder := by
  have hsm := ((keepsHidden_link hm hhost hs hhides _ _).of_eq_ok hlink).1
  have hmt := ((hm.leads_linkModule hsm.good hsm.hides _).of_eq_ok hdep).1
  -- the new record was hidden as soon as it was there
  obtain ⟨m', name, kind, hm', rfl, rfl⟩ :=
    (hm.loadInvariant hhost s).before_link (.refl hs hhides) hlink
  have hmade : (m'.add (.fresh name referrer kind)).record? m'.next =
      some (.fresh name referrer kind) := State.records_add_next m' _
  have hhides' := hm'.hides.hide_next hm'.good.sound name referrer kind
  obtain ⟨g, c, hc, hclinked, hcdeps, hg, hglinked, hghides⟩ :=
    hm.linkModule _ m'.next _ _ t hsm.good hhides' hmade rfl hdep
  exact ⟨hsm.trans hmt, g, c, hc, hclinked, hcdeps, hg, hglinked, hghides (Or.inr rfl)⟩

end

include h hm hhost

theorem spares_linkRequests {s₀ : State σ η} {r : RecordId} {a₀ : ModuleRecord σ η}
    (ha₀ : s₀.record? r = some a₀) (hunlinked : a₀.status = .unlinked) {referrer : Referrer}
    (specifiers : List String) {s : State σ η} {a : ModuleRecord σ η}
    (hs : s.Good host (fun _ => True) (Compiled.EvaluatesKnown names known))
    (hown : State.Evolves (· = r) s₀ s) (ha : s.record? r = some a) (hphase : a.phase = .linking)
    (hreferrer : a.referrer = referrer)
    (hrest : a.requests = a.dependencies.map Prod.fst ++ specifiers)
    (hhides : s.Hides names known hidden) (hspares : State.Spares hidden s₀ s) :
    Leads (fun t => t.Hides names known hidden ∧ State.Spares hidden s₀ t) (fun _ => True) s
      (linkRequests host serve r referrer specifiers) fun _ _ => True := by
  have hidle : ∀ b, s₀.record? r = some b → b.status.isBusy = false := by
    intro b hb
    obtain rfl : b = a₀ := by simpa [ha₀, eq_comm] using hb
    rw [hunlinked]
    rfl
  induction specifiers generalizing s a with
  | nil => exact .pure ⟨hhides, hspares⟩ trivial
  | cons specifier rest ih =>
      have hbefore : State.Follows s₀ s := hown.follows fun x b hx hb => hidle b (hx ▸ hb)
      have hkept : ∀ t, State.KeepsHidden host names known hidden s t →
          t.Hides names known hidden ∧ State.Spares hidden s₀ t :=
        fun t ht => ⟨ht.hides, hspares.trans hbefore ht.spares⟩
      have hlinked := keepsHidden_link hm hhost hs hhides specifier referrer
      refine (hlinked.weaken hkept).bind fun dep m hlink _ hsm => ?_
      have hcall := hm.leads_linkModule hsm.1.good hsm.1.hides dep
      refine (hcall.weaken fun t ht => hkept t (hsm.1.trans ht)).bind fun _ t hdep _ ht => ?_
      subst hreferrer
      obtain ⟨hgood, hevolves, hat⟩ :=
        good_addDependency h hhost.codeFailsWithin (State.lt_of_record? ha₀)
        hown ha hphase hrest hlink hs hdep
      have hst := hsm.1.trans ht.1
      have hlinking : a.status = .linking := by rw [ModuleRecord.status, hphase]; rfl
      have hbusy := hst.follows.busy r a ha (by rw [hlinking]; rfl) fun hf => hf
      have hrest' : a.requests =
          (a.dependencies ++ [(specifier, dep)]).map Prod.fst ++ rest := by simp [hrest]
      refine .bind_of_eq_ok (runIn_addDependency r specifier dep t)
        (ih hgood hevolves hat hphase rfl hrest' ?_ ?_)
      · exact hst.hides.addDependency hbusy hlinking specifier dep
      · refine (hspares.trans hbefore hst.spares).modifyRecord _ fun b _ hb => ?_
        obtain rfl : b = a₀ := by simpa [ha₀, eq_comm] using hb
        exact hunlinked

/-- What has been linked for the requests of a record is a forest, all of which is linked, and if
nobody knew of what was hidden then nobody knows of the forest either. -/
theorem forest_linkRequests {s₀ : State σ η} {r : RecordId} (hr : r.index < s₀.records.size)
    {referrer : Referrer} (specifiers : List String) {s t : State σ η} {a : ModuleRecord σ η}
    (hs : s.Good host (fun _ => True) (Compiled.EvaluatesKnown names known))
    (hown : State.Evolves (· = r) s₀ s) (ha : s.record? r = some a) (hphase : a.phase = .linking)
    (hreferrer : a.referrer = referrer)
    (hrest : a.dependencies.map Prod.fst ++ specifiers <+: a.requests)
    (hhides : s.Hides names known hidden)
    (hrun : (linkRequests host serve r referrer specifiers).runIn s = (.ok (), t)) :
    ∃ f : Forest, t.record? r = some { a with dependencies := a.dependencies ++ f.edges } ∧
      f.Stands t ∧ (∀ x ∈ f.postorder, ∃ c, t.record? x = some c ∧ c.status = .linked) ∧
      t.Hides names known (fun x => hidden x ∨ x ∈ f.postorder) ∧
      ∀ x c, hidden x → x ≠ r → s.record? x = some c → c.status ≠ .unlinked →
        t.record? x = some c := by
  have hlinking : a.status = .linking := by rw [ModuleRecord.status, hphase]; rfl
  induction specifiers generalizing s a hidden with
  | nil =>
      rw [linkRequests, runIn_pure, Prod.mk.injEq] at hrun
      obtain ⟨-, rfl⟩ := hrun
      refine ⟨.nil, by simpa [Forest.edges] using ha, trivial, by simp [Forest.postorder], ?_, ?_⟩
      · simpa [Forest.postorder] using hhides
      · exact fun x c _ _ hc _ => hc
  | cons specifier rest ih =>
      obtain ⟨dep, m, hlink, hthen⟩ := runIn_bind_eq_ok.1 hrun
      obtain ⟨_, t₁, hdep, hadded⟩ := runIn_bind_eq_ok.1 hthen
      obtain ⟨_, u, hadd, hlast⟩ := runIn_bind_eq_ok.1 hadded
      rw [runIn_addDependency, Prod.mk.injEq] at hadd
      obtain ⟨-, rfl⟩ := hadd
      subst hreferrer
      obtain ⟨after, hafter⟩ := hrest
      have hnow : a.requests = a.dependencies.map Prod.fst ++ specifier :: (rest ++ after) := by
        rw [← hafter, List.append_assoc, List.cons_append]
      obtain ⟨hgood, hevolves, hat⟩ :=
        good_addDependency h hhost.codeFailsWithin hr hown ha hphase hnow hlink hs hdep
      obtain ⟨hkeep, g, c, hc, hclinked, hcdeps, hg, hglinked, hnewhides⟩ :=
        forest_request hm hhost hs hhides hlink hdep
      have hbusy : t₁.record? r = some a :=
        hkeep.follows.busy r a ha (by rw [hlinking]; rfl) fun hf => hf
      have hneR : ∀ x c, t₁.record? x = some c → c.status = .linked → x ≠ r := by
        rintro x c hc hstatus rfl
        obtain rfl : a = c := by simpa [hbusy] using hc
        simp [hlinking] at hstatus
      have hothers : ∀ x c, x ≠ r → t₁.record? x = some c →
          (addDependencyIn t₁ r specifier dep).record? x = some c := fun x c hne hc =>
        (State.record?_addDependencyIn_of_ne t₁ hne specifier dep).trans hc
      have hrest' : (a.dependencies ++ [(specifier, dep)]).map Prod.fst ++ rest <+: a.requests :=
        ⟨after, by simp [hnow]⟩
      obtain ⟨f, hrec, hf, hflinked, hfhides, hkept⟩ := ih hgood hevolves hat hphase rfl hrest'
        (hnewhides.addDependency hbusy hlinking specifier dep) hlast hlinking
      -- what is linked by now is hidden, and stays as it is
      have hstays : ∀ x c, x = dep ∨ x ∈ g.postorder → t₁.record? x = some c →
          c.status = .linked → t.record? x = some c := by
        intro x c hx hc hstatus
        have hne := hneR x c hc hstatus
        refine hkept x c ?_ hne (hothers x c hne hc) (by simp [hstatus])
        exact hx.elim (fun hx => Or.inl (Or.inr hx)) Or.inr
      refine ⟨.cons specifier dep g f, ?_, ⟨⟨c, ?_, hcdeps⟩, ?_, hf⟩, ?_, ?_, ?_⟩
      · rw [hrec, Forest.edges]
        simp
      · exact hstays _ c (Or.inl rfl) hc hclinked
      · refine hg.congr fun x hx => ?_
        obtain ⟨b, hb, hstatus⟩ := hglinked x hx
        rw [hb]
        exact hstays x b (Or.inr hx) hb hstatus
      · intro x hx
        rw [Forest.postorder, List.mem_append, List.mem_cons] at hx
        rcases hx with hx | rfl | hx
        · obtain ⟨b, hb, hstatus⟩ := hglinked x hx
          exact ⟨b, hstays x b (Or.inr hx) hb hstatus, hstatus⟩
        · exact ⟨c, hstays _ c (Or.inl rfl) hc hclinked, hclinked⟩
        · exact hflinked x hx
      · have hsame : (fun x => hidden x ∨ x ∈ (Forest.cons specifier dep g f).postorder) =
            fun x => ((hidden x ∨ x = dep) ∨ x ∈ g.postorder) ∨ x ∈ f.postorder := by
          funext x
          simp only [Forest.postorder, List.mem_append, List.mem_cons, eq_iff_iff]
          grind
        rw [hsame]
        exact hfhides
      · intro x b hx hne hb hstatus
        have hbt := hkeep.spares.records x b hx hb hstatus
        exact hkept x b (Or.inl (Or.inl hx)) hne (hothers x b hne hbt) hstatus

/-- Linking a record spares what is hidden. -/
theorem keepsHidden_linkModule {s : State σ η}
    (hs : s.Good host (fun _ => True) (Compiled.EvaluatesKnown names known))
    (hhides : s.Hides names known hidden) (r : RecordId) :
    Leads (State.KeepsHidden host names known hidden s) (fun _ => True) s (linkModule host serve r)
      fun _ _ => True := by
  have hstart := State.KeepsHidden.refl hs hhides
  refine (leads_recordAt hstart r).bind ?_
  rintro a _ - - ⟨rfl, ha⟩
  have ha : s.record? r = some a := ha
  cases hstatus : a.status with
  | unlinked =>
      have hphase : a.phase = .unlinked := (hs.formed ha).eq_of_status hstatus rfl
      obtain ⟨hgood, hevolves, hnone⟩ := hs.take_linking ha hstatus
      have hrest : a.requests = a.dependencies.map Prod.fst ++ a.requests := by
        rw [hnone]
        rfl
      have hlinking := State.record?_setPhaseIn ha .linking
      have hsame : ({ a with phase := .linking } : ModuleRecord σ η).referrer = a.referrer := rfl
      have hfree : ∀ b, hidden r → s.record? r = some b → b.status = .unlinked := by
        intro b _ hb
        obtain rfl : b = a := by simpa [ha, eq_comm] using hb
        exact hstatus
      have hkeepsGood := leads_linkRequests h hhost.codeFailsWithin (State.lt_of_record? ha)
        a.requests hgood
        hevolves hlinking rfl hsame hrest
      have hspared := spares_linkRequests h hm hhost ha hstatus a.requests hgood hevolves hlinking
        rfl hsame hrest (hhides.setPhase ha (by simp))
        ((State.Spares.refl s).modifyRecord _ hfree)
      -- what became of the state, seen from outside
      have hseen : ∀ t : State σ η,
        (t.Good host (fun _ => True) (Compiled.EvaluatesKnown names known) ∧
          State.Evolves (· = r) s t) → t.Hides names known hidden → State.Spares hidden s t →
          State.KeepsHidden host names known hidden s t := by
        intro t ht hthides htspares
        have hfollows := follows_of_evolves ha (by rw [hstatus]; rfl) ht
        exact ⟨hfollows.1, hfollows.2, hthides, htspares⟩
      refine leads_during_linking (Q := fun _ => True) ha hphase (hkeepsGood.and hspared)
        (fun t ht => hseen t ht.1.1 ht.2.1 ht.2.2) (fun t ht => ht.1.2) ?_ ?_
      · rintro t e ⟨⟨⟨ht, hst⟩, b, hb, hbphase⟩, hthides, htspares⟩
        have hfail : b.status.canMove .errored = true := by rw [ModuleRecord.status, hbphase]; rfl
        refine hseen _ (ht.fail hst hb hfail rfl e.message) ?_ (htspares.modifyRecord _ hfree)
        exact hthides.setPhase hb (by simp)
      · rintro t ⟨⟨⟨ht, hst⟩, -⟩, hthides, htspares⟩ ⟨⟨b, hb, hbphase, hbwhole⟩, -⟩
        have hdone : b.status.canMove Phase.linked.status = true := by
          rw [ModuleRecord.status, hbphase]
          rfl
        refine ⟨hseen _ ⟨?_, hst.setPhase hb rfl hdone .linked⟩ ?_ ?_, trivial⟩
        · exact ht.setPhase hb hdone .linked (fun _ => hbwhole) (by simp)
        · -- everything that was linked for the record is new
          refine hthides.setPhase hb fun _ _ dep hdep hhidden => ?_
          obtain ⟨a', ha', hold⟩ := hst.edges r b hb dep hdep (hhides.there _ hhidden)
          obtain rfl : a' = a := by simpa [ha, eq_comm] using ha'
          rw [hnone] at hold
          exact absurd hold List.not_mem_nil
        · exact htspares.modifyRecord _ hfree
  | linking => exact .fail hstart trivial
  | errored => exact .fail hstart trivial
  | linked => exact .pure hstart trivial
  | evaluating => exact .pure hstart trivial
  | evaluated => exact .pure hstart trivial

/-- Linking a record that was unlinked makes a forest below it that is linked too. -/
theorem forest_linkModule {s t : State σ η} {r : RecordId} {a : ModuleRecord σ η}
    (hs : s.Good host (fun _ => True) (Compiled.EvaluatesKnown names known))
    (hhides : s.Hides names known hidden) (ha : s.record? r = some a) (hphase : a.phase = .unlinked)
    (hrun : (linkModule host serve r).runIn s = (.ok (), t)) :
    ∃ (f : Forest) (b : ModuleRecord σ η), t.record? r = some b ∧ b.status = .linked ∧
      b.dependencies = f.edges ∧ f.Stands t ∧
      (∀ x ∈ f.postorder, ∃ c, t.record? x = some c ∧ c.status = .linked) ∧
      (hidden r → t.Hides names known fun x => hidden x ∨ x ∈ f.postorder) := by
  have hstatus : a.status = .unlinked := by rw [ModuleRecord.status, hphase]; rfl
  obtain ⟨a', ha', hunlinked⟩ := linkModule_eq_ok hrun
  obtain rfl : a = a' := by simpa [ha] using (show s.record? r = some a' from ha')
  obtain ⟨u, b, hwork, hb, rfl⟩ := hunlinked hphase
  obtain ⟨hgood, hevolves, hnone⟩ := hs.take_linking ha hstatus
  have hrest : a.dependencies.map Prod.fst ++ a.requests <+: a.requests := by
    rw [hnone]
    exact List.prefix_refl _
  have hlinking := State.record?_setPhaseIn ha .linking
  have hsame : ({ a with phase := .linking } : ModuleRecord σ η).referrer = a.referrer := rfl
  obtain ⟨f, hrec, hf, hflinked, hfhides, -⟩ := forest_linkRequests h hm hhost
    (State.lt_of_record? ha) a.requests hgood hevolves hlinking rfl hsame hrest
    (hhides.setPhase ha (by simp)) hwork
  have hmoved : b.phase.move .linked = .linked := by
    rw [← Option.some.inj (hrec.symm.trans hb)]
    rfl
  rw [hmoved]
  have hother : ∀ x ∈ f.postorder, (setPhaseIn u r .linked).record? x = u.record? x := by
    intro x hx
    have hne : x ≠ r := by
      rintro rfl
      obtain ⟨c, hc, hclinked⟩ := hflinked x hx
      rw [hrec] at hc
      cases hc
      simp [ModuleRecord.status] at hclinked
    exact State.record?_setPhaseIn_of_ne u hne _
  refine ⟨f, _, State.record?_setPhaseIn hrec _, rfl, ?_, hf.congr hother,
    fun x hx => ?_, fun hr => ?_⟩
  · simp [hnone]
  · rw [hother x hx]
    exact hflinked x hx
  · exact hfhides.setPhase hrec fun _ hnot => absurd (Or.inl hr) hnot

/-! ### Evaluating -/

omit h hhost in
/-- Evaluating records that are not hidden spares those that are. -/
theorem keepsHidden_evaluateAll {s : State σ η}
    (hs : s.Good host (fun _ => True) (Compiled.EvaluatesKnown names known))
    (hhides : s.Hides names known hidden) (imports : OrderedMap Namespace)
    (deps : List (String × RecordId)) (hdeps : ∀ dep ∈ deps, ¬ hidden dep.2) :
    Leads (State.KeepsHidden host names known hidden s) (fun _ => True) s
      (evaluateAll serve imports deps) fun _ _ => True := by
  induction deps generalizing imports s with
  | nil => exact .pure (.refl hs hhides) trivial
  | cons dep rest ih =>
      have hdep : ∀ x, Call.evaluate dep.2 = .evaluate x → ¬ hidden x := by
        intro x hx
        rw [← Call.evaluate.inj hx]
        exact hdeps dep List.mem_cons_self
      refine (hm.call hidden (.evaluate dep.2) s hs hhides hdep).bind fun n m _ hsm _ => ?_
      refine (ih hsm.good hsm.hides (imports.insert dep.1 n) fun d hd => ?_).imp
        (fun t ht => hsm.trans ht) fun _ _ _ _ h => h
      exact hdeps d (List.mem_cons_of_mem _ hd)

omit h hhost in
/-- The body of a record spares what is hidden, and it is one more body that is run. -/
theorem keepsHidden_runBody {s : State σ η} (r : RecordId) (a : ModuleRecord σ η)
    {m : SourceModule σ η} (imports : OrderedMap Namespace)
    (hs : s.Good host (fun _ => True) (Compiled.EvaluatesKnown names known))
    (hhides : s.Hides names known hidden) (hbody : m.compiled.EvaluatesKnown names known) :
    Leads (fun t => s = t ∨ ∃ env,
      State.KeepsHidden host names known hidden (s.emit (.evaluate r env)) t)
      (fun _ => True) s (runBody serve r a m imports) fun _ t =>
        ∃ importMeta, ImportMeta.ofPath m.location = .ok importMeta ∧
          State.KeepsHidden host names known hidden
            (s.emit (.evaluate r ⟨a.context, importMeta, imports, a.importer⟩)) t := by
  unfold runBody
  cases hmeta : ImportMeta.ofPath m.location with
  | error e => exact .fail (Or.inl rfl) trivial
  | ok importMeta =>
      let env : ModuleEnvironment := ⟨a.context, importMeta, imports, a.importer⟩
      have hgood : (s.emit (.evaluate r env)).Good host (fun _ => True)
          (Compiled.EvaluatesKnown names known) := hs.congr rfl rfl
      have hhides' : (s.emit (.evaluate r env)).Hides names known hidden :=
        hhides.of_eq rfl hhides.named
      have hexec := hm.leads_script hgood hhides' (hbody env)
      refine Leads.bind_of_eq_ok (a := importMeta) rfl (.bind_of_eq_ok (runIn_emit _ s) ?_)
      exact hexec.imp (fun t ht => Or.inr ⟨env, ht⟩) fun _ t _ ht _ => ⟨importMeta, rfl, ht⟩

omit h hhost in
theorem spares_evaluateKind {s₀ s : State σ η} (hbefore : State.Follows s₀ s)
    (hspares : State.Spares hidden s₀ s)
    (hs : s.Good host (fun _ => True) (Compiled.EvaluatesKnown names known))
    (hhides : s.Hides names known hidden) {r : RecordId} (hr : ¬ hidden r)
    (hidle : ∀ a, s₀.record? r = some a → a.status.isBusy = false) {a : ModuleRecord σ η}
    (hbody : ∀ m, a.kind = .source m → m.compiled.EvaluatesKnown names known)
    (hdeps : ∀ dep ∈ a.dependencies, ¬ hidden dep.2) :
    Leads (fun t => t.Hides names known hidden ∧ State.Spares hidden s₀ t) (fun _ => True) s
      (evaluateKind serve r a) fun _ _ => True := by
  unfold evaluateKind
  cases hkind : a.kind with
  | synthetic m =>
      exact ⟨⟨hhides.of_eq rfl hhides.named, hspares.trans hbefore (.of_eq rfl rfl)⟩, trivial⟩
  | source m =>
      have hseen : ∀ t, State.KeepsHidden host names known hidden s t →
          t.Hides names known hidden ∧ State.Spares hidden s₀ t :=
        fun t ht => ⟨ht.hides, hspares.trans hbefore ht.spares⟩
      have hall := keepsHidden_evaluateAll hm hs hhides .empty a.dependencies hdeps
      refine (hall.weaken hseen).bind fun imports u _ _ hsu => ?_
      have hu := hsu.1
      have hrun := keepsHidden_runBody hm r a imports hu.good hu.hides (hbody m hkind)
      refine hrun.imp ?_ fun _ _ _ _ _ => trivial
      have hspares' := (hseen u hu).2
      rintro t (rfl | ⟨env, ht⟩)
      · exact hseen u hu
      · have hemitted := hspares'.emit hr hidle env
        have hfollows : State.Follows s₀ (u.emit (.evaluate r env)) :=
          (hbefore.trans hu.follows).trans (.of_records_eq rfl)
        exact ⟨ht.hides, hemitted.trans hfollows ht.spares⟩

/-- Evaluating a record that is not hidden spares those that are. -/
theorem keepsHidden_evaluate {s : State σ η}
    (hs : s.Good host (fun _ => True) (Compiled.EvaluatesKnown names known))
    (hhides : s.Hides names known hidden) {r : RecordId} (hr : ¬ hidden r) :
    Leads (State.KeepsHidden host names known hidden s) (fun _ => True) s (evaluate serve r)
      fun _ _ => True := by
  have hstart := State.KeepsHidden.refl hs hhides
  refine (leads_recordAt hstart r).bind ?_
  rintro a _ - - ⟨rfl, ha⟩
  have ha : s.record? r = some a := ha
  cases hstatus : a.status with
  | linked =>
      have hphase : a.phase = .linked := (hs.formed ha).eq_of_status hstatus rfl
      have hidle : a.status.isBusy = false := by rw [hstatus]; rfl
      obtain ⟨hgood, hevolves, hwhole⟩ := hs.take_evaluating ha hstatus
      have hevaluating := State.record?_setPhaseIn ha .evaluating
      have hbefore := (follows_of_evolves ha hidle ⟨hgood, hevolves⟩).2
      have hkeepsGood := leads_evaluateKind h hhost.codeFailsWithin hgood r
        (fun m => hs.bodies r a m ha) hwhole
      have hspared := spares_evaluateKind hm hbefore
        ((State.Spares.refl s).modifyRecord _ fun _ hhidden => absurd hhidden hr) hgood
        (hhides.setPhase ha (by simp)) hr (fun b hb => ?_)
        (fun m => hs.bodies r a m ha) (hhides.closed r a ha hstatus hr)
      · -- the record is still being evaluated when the work on its behalf has come to its end
        have hkept : ∀ t, (t.Good host (fun _ => True) (Compiled.EvaluatesKnown names known) ∧
            State.Follows (setPhaseIn s r .evaluating) t) ∧
              (t.Hides names known hidden ∧ State.Spares hidden s t) →
            State.KeepsHidden host names known hidden s t ∧ State.Evolves (· = r) s t ∧
              t.record? r = some { a with phase := .evaluating } := by
          rintro t ⟨⟨ht, hst⟩, hthides, htspares⟩
          exact ⟨⟨ht, hbefore.trans hst, hthides, htspares⟩, hevolves.trans (.of_follows hst),
            hst.busy r _ hevaluating rfl fun hf => hf⟩
        have hnext : ∀ t (phase : Phase), State.KeepsHidden host names known hidden s t →
            State.Evolves (· = r) s t → t.record? r = some { a with phase := .evaluating } →
            Status.evaluating.canMove phase.status = true → phase.WellFormed →
            (phase.status = .evaluated → ∀ dep ∈ a.dependencies, ∃ c, t.record? dep.2 = some c ∧
              c.status = .evaluated) →
            State.KeepsHidden host names known hidden s (setPhaseIn t r phase) := by
          intro t phase ht hst hat hnext hformed hdone
          have hphase : phase.status ≠ .linked := by
            intro hlinked
            rw [hlinked] at hnext
            simp [Status.canMove] at hnext
          have hgood' := ht.good.setPhase hat hnext hformed
            (fun hlinked => absurd hlinked hphase) hdone
          have hfollows := follows_of_evolves ha hidle ⟨hgood', hst.setPhase hat rfl hnext hformed⟩
          exact ⟨hfollows.1, hfollows.2, ht.hides.setPhase hat fun hlinked => absurd hlinked hphase,
            ht.spares.modifyRecord _ fun _ hhidden => absurd hhidden hr⟩
        refine leads_evaluateAnew (Q := fun _ _ => True) ha hphase (hkeepsGood.and hspared)
          (fun t ht => (hkept t ht).1) (fun t ht => ⟨_, (hkept t ht).2.2, rfl⟩) ?_ ?_
        · intro t e ht
          obtain ⟨hkeep, hst, hat⟩ := hkept t ht
          exact hnext t _ hkeep hst hat rfl (.errored e.message) (by simp)
        · intro n t ht hdone
          obtain ⟨hkeep, hst, hat⟩ := hkept t ht
          exact ⟨hnext t _ hkeep hst hat rfl (.evaluated n) fun _ => hdone.1, trivial⟩
      · obtain rfl : b = a := by simpa [ha, eq_comm] using hb
        exact hidle
  | evaluated =>
      obtain ⟨n, hphase⟩ := (hs.formed ha).exists_of_evaluated hstatus
      rw [hphase]
      exact .pure hstart trivial
  | unlinked => exact .fail hstart trivial
  | linking => exact .fail hstart trivial
  | evaluating => exact .fail hstart trivial
  | errored => exact .fail hstart trivial

end Linker

/-! ### The loader -/

theorem SparesHidden.answer
    (h : KeepsGood host (fun _ => True) (Compiled.EvaluatesKnown names known) serve)
    (hm : SparesHidden host names known serve) (hhost : host.EvaluatesKnown names known) :
    SparesHidden host names known (answer host serve) where
  call hidden c s hs hhides hc := by
    have hcode : LoadInvariant (State.KeepsHidden host names known hidden s) (fun _ => True)
        (Compiled.EvaluatesKnown names known) (fun r => s.records.size ≤ r.index) host
          serve serve :=
      hm.loadInvariant hhost s
    have hstart := State.KeepsHidden.refl hs hhides
    cases c with
    | require lookup =>
        exact (Leads.of_keeps (hcode.require lookup) hstart).imp (fun _ ht => ht)
          fun _ _ _ _ _ _ hx => hx.elim
    | link specifier referrer =>
        refine (Leads.of_keeps (hcode.link (fun _ => trivial) specifier referrer) hstart).imp
          (fun _ ht => ht) ?_
        rintro r t hrun - hnew _ rfl
        obtain ⟨_, _, m, rfl, rfl, -⟩ := Linker.link_eq_ok hrun
        exact ⟨hnew, by rw [State.size_add]; exact Nat.lt_succ_self _⟩
    | buildSource specifier referrer =>
        refine (Leads.of_keeps (hcode.buildSource specifier referrer) hstart).imp
          (fun _ ht => ht) ?_
        rintro r t hrun - hnew _ rfl
        obtain ⟨_, _, _, _, _, m, -, -, -, -, rfl, rfl⟩ := Linker.buildSource_eq_ok hrun
        exact ⟨hnew, by rw [State.size_add]; exact Nat.lt_succ_self _⟩
    | buildSynthetic specifier referrer =>
        refine (Leads.of_keeps (hcode.buildSynthetic specifier referrer) hstart).imp
          (fun _ ht => ht) ?_
        rintro r t hrun - hnew _ rfl
        obtain ⟨_, _, m, -, rfl, rfl⟩ := Linker.buildSynthetic_eq_ok hrun
        exact ⟨hnew, by rw [State.size_add]; exact Nat.lt_succ_self _⟩
    | linkModule r =>
        exact (Linker.keepsHidden_linkModule h hm hhost hs hhides r).imp (fun _ ht => ht)
          fun _ _ _ _ _ _ hx => hx.elim
    | evaluate r =>
        exact (Linker.keepsHidden_evaluate h hm hhost hs hhides (hc r rfl)).imp (fun _ ht => ht)
          fun _ _ _ _ _ _ hx => hx.elim
  linkModule _ _ _ _ _ hs hhides ha hphase hrun :=
    Linker.forest_linkModule h hm hhost hs hhides ha hphase hrun

theorem sparesHidden_serve (hhost : host.EvaluatesKnown names known) (depth : Nat) :
    SparesHidden host names known (ModuleLoader.serve host depth) := by
  induction depth with
  | zero =>
      refine ⟨fun hidden c s hs hhides _ => ⟨.refl hs hhides, trivial⟩, ?_⟩
      intro hidden r s a t _ _ _ _ h
      simp [ModuleLoader.serve] at h
  | succ depth ih => exact ih.answer (keepsGood_serve hhost.codeFailsWithin depth) hhost

end

end ModuleLoader
