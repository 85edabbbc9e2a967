import ModuleLoader.Proofs.Accounting
import ModuleLoader.Proofs.Guards
/-!
Hooks bracket the lookups.

A lookup passes the layers on its way in and passes them again, in the opposite
order, on its way out. What is done in between is done on its behalf, and may be
anything: bodies run, and they look up in turn. Callbacks run as well, and may
look up too. So what a loader leaves behind of its lookups and hooks is a word of
a language with brackets, and `Tells` is its grammar, with a rule for everything
that a run can consist of.

That every run keeps to the grammar is a relation of runs (`bracketRelation`). One has to say
which layers a lookup passes, and those are the ones that are installed as it
begins. A stack of hooks that is changed never comes back to what it was, since
guards are good once and are not handed out again. So if the stack at the end is
the one there was at the beginning, then every lookup in between has passed these
layers and no others.
-/

namespace ModuleLoader

variable {σ η α β : Type}

open Eff

/-! ### The language -/

def Event.IsMark : Event → Prop
  | .lookup _ | .before .. | .after .. => True
  | _ => False

inductive Phrase (η : Type) where
  /-- Whatever is done, one thing after another. -/
  | work
  /-- A callback of a layer, if the layer has it. -/
  | callback (event : Event) (installed : Bool)
  /-- A lookup that has these layers to pass, the outermost first. -/
  | lookup (left : List (Layer η)) (call : LookupCall)

/-- The piece of history is one that such a part of a run may leave, where lookups pass the given
layers. -/
inductive Tells (host : Host σ η) (layers : List (Layer η)) : Phrase η → History → Prop
  | nil : Tells host layers .work []
  | event {e : Event} {w : History} : ¬ e.IsMark → Tells host layers .work w →
      Tells host layers .work (e :: w)
  | lookup {call : LookupCall} {v w : History} : Tells host layers (.lookup layers call) v →
      Tells host layers .work w → Tells host layers .work (v ++ w)
  | absent (e : Event) : Tells host layers (.callback e false) []
  | called {e : Event} {w : History} : Tells host layers .work w →
      Tells host layers (.callback e true) (e :: w)
  | behind {call : LookupCall} {w : History} : Tells host layers .work w →
      Tells host layers (.lookup [] call) (.lookup call :: w)
  | through {outer : Layer η} {inner : List (Layer η)} {call : LookupCall} {b m a : History} :
      Tells host layers
        (.callback (.before outer.guard call) (host.hook outer.hook).before?.isSome) b →
      Tells host layers (.lookup inner call) m →
      Tells host layers
        (.callback (.after outer.guard call) (host.hook outer.hook).after?.isSome) a →
      Tells host layers (.lookup (outer :: inner) call) (b ++ (m ++ a))

namespace Tells

variable {host : Host σ η} {layers : List (Layer η)} {v w : History}

theorem append (hv : Tells host layers .work v) (hw : Tells host layers .work w) :
    Tells host layers .work (v ++ w) := by
  generalize hphrase : Phrase.work = phrase at hv
  induction hv with
  | nil => exact hw
  | event he _ ih => exact .event he (ih hphrase)
  | lookup hcall _ _ ih =>
      rw [List.append_assoc]
      exact .lookup hcall (ih hphrase)
  | _ => cases hphrase

end Tells

/-! ### Reading brackets -/

namespace Event

def opens (g : GuardId) (call : LookupCall) : Event → Bool
  | before g' call' => decide (g' = g ∧ call' = call)
  | _ => false

def closes (g : GuardId) (call : LookupCall) : Event → Bool
  | after g' call' => decide (g' = g ∧ call' = call)
  | _ => false

def looksUp (call : LookupCall) : Event → Bool
  | lookup call' => decide (call' = call)
  | _ => false

/-- What is open after the event, if it may stand where so much is open, the innermost first. A
bracket is closed while it is the innermost, and by its own. A lookup stands within brackets of its
own, one for each of the guards. -/
def pass? (guards : List GuardId) (opened : List (GuardId × LookupCall)) :
    Event → Option (List (GuardId × LookupCall))
  | before g call => some ((g, call) :: opened)
  | after g call => if opened.head? = some (g, call) then some opened.tail else none
  | lookup call => if (guards.map (·, call)).isPrefixOf opened then some opened else none
  | _ => some opened

theorem pass?_of_not_isMark {e : Event} (he : ¬ e.IsMark) (guards : List GuardId)
    (opened : List (GuardId × LookupCall)) : e.pass? guards opened = some opened := by
  cases e <;> first | rfl | exact absurd trivial he

end Event

/-- The history is made of brackets that are properly nested, with every lookup within its own. The
guards are those of the layers that are passed, the innermost first. -/
def History.Bracketed (guards : List GuardId) (w : History) : Prop :=
  w.foldlM (Event.pass? guards) [] = some []

instance (guards : List GuardId) (w : History) : Decidable (w.Bracketed guards) :=
  inferInstanceAs (Decidable (_ = _))

namespace Layer

/-- How many events of a kind the layers leave in a lookup, one for each callback. -/
def leave (host : Host σ η) (kind : Event → Bool) (call : LookupCall) (layers : List (Layer η)) :
    Nat :=
  layers.countP (fun l => (host.hook l.hook).before?.isSome && kind (.before l.guard call)) +
    layers.countP fun l => (host.hook l.hook).after?.isSome && kind (.after l.guard call)

theorem leave_cons (host : Host σ η) (kind : Event → Bool) (call : LookupCall) (l : Layer η)
    (layers : List (Layer η)) :
    leave host kind call (l :: layers) =
      ((host.hook l.hook).before?.isSome && kind (.before l.guard call)).toNat +
        leave host kind call layers +
          ((host.hook l.hook).after?.isSome && kind (.after l.guard call)).toNat := by
  have hone (b : Bool) : (if b then 1 else 0) = b.toNat := by cases b <;> rfl
  simp only [leave, List.countP_cons, hone]
  omega

theorem countP_eq {layers : List (Layer η)} (hguards : layers.Pairwise fun a b => a.guard ≠ b.guard)
    {l : Layer η} (hl : l ∈ layers) {test : Layer η → Bool}
    (htest : ∀ l', test l' → l'.guard = l.guard) : layers.countP test = (test l).toNat := by
  induction hguards with
  | nil => exact absurd hl List.not_mem_nil
  | @cons l' rest hne _ ih =>
      rw [List.countP_cons]
      rcases List.mem_cons.1 hl with rfl | hl
      · have hrest : rest.countP test = 0 :=
          List.countP_eq_zero.2 fun x hx h => hne x hx (htest x h).symm
        rw [hrest]
        cases test l <;> rfl
      · have hfirst : ¬ test l' := fun h => hne l hl (htest l' h)
        rw [ih hl, if_neg hfirst, Nat.add_zero]

end Layer

namespace Phrase

def around (passed : List (Layer η)) (call : LookupCall) : List (GuardId × LookupCall) :=
  passed.reverse.map fun l => (l.guard, call)

/-- What is open after such a part of a run, by what is open before it. A lookup that has some
layers to pass has passed the others. -/
def Reads (layers : List (Layer η)) (w : History) : Phrase η → Prop
  | work => ∀ o, w.foldlM (Event.pass? (layers.reverse.map Layer.guard)) o = some o
  | callback e installed => installed = true → ∀ o,
      w.foldlM (Event.pass? (layers.reverse.map Layer.guard)) o =
        e.pass? (layers.reverse.map Layer.guard) o
  | lookup left call => ∀ passed, passed ++ left = layers → ∀ o,
      w.foldlM (Event.pass? (layers.reverse.map Layer.guard)) (around passed call ++ o) =
        some (around passed call ++ o)

/-- In such a part of a run there are as many events of a kind as there are lookups of a call, up to
what a part of a lookup has too many or is missing. -/
def Counts (host : Host σ η) (kind : Event → Bool) (call : LookupCall) (w : History) :
    Phrase η → Prop
  | work => w.countP kind = w.countP (Event.looksUp call)
  | callback e installed => e.looksUp call = false →
      w.countP kind = (installed && kind e).toNat + w.countP (Event.looksUp call)
  | lookup left call' => w.countP kind + (Event.looksUp call (.lookup call')).toNat =
      Layer.leave host kind call' left + w.countP (Event.looksUp call)

end Phrase

namespace Tells

variable {host : Host σ η} {layers : List (Layer η)} {phrase : Phrase η} {w : History}

/-- Where every layer has both callbacks, all that is opened is closed. -/
theorem reads (h : Tells host layers phrase w)
    (hboth : ∀ l ∈ layers,
      (host.hook l.hook).before?.isSome ∧ (host.hook l.hook).after?.isSome) :
    phrase.Reads layers w := by
  induction h with
  | nil => exact fun _ => rfl
  | event he _ ih =>
      intro o
      rw [List.foldlM_cons, Event.pass?_of_not_isMark he]
      exact ih o
  | lookup _ _ ihcall ih =>
      intro o
      rw [List.foldlM_append]
      exact (congrArg (· >>= _) (ihcall [] rfl o)).trans (ih o)
  | absent e => exact nofun
  | called _ ih =>
      intro _ o
      rw [List.foldlM_cons]
      cases Event.pass? _ o _ with
      | none => rfl
      | some o' => exact ih o'
  | @behind call _ _ ih =>
      rintro passed hpassed o
      obtain rfl : passed = layers := by simpa using hpassed
      rw [List.foldlM_cons, Event.pass?, if_pos (by simp [Phrase.around, Function.comp_def])]
      exact ih _
  | @through outer inner call _ _ _ _ _ _ ihbefore ihinner ihafter =>
      rintro passed hpassed o
      obtain ⟨hbefore, hafter⟩ := hboth outer (by simp [← hpassed])
      have hinner := ihinner (passed ++ [outer]) (by simpa using hpassed) o
      have haround : Phrase.around (passed ++ [outer]) call =
          (outer.guard, call) :: Phrase.around passed call := by simp [Phrase.around]
      rw [haround, List.cons_append] at hinner
      rw [List.foldlM_append, ihbefore hbefore]
      refine (List.foldlM_append ..).trans ((congrArg (· >>= _) hinner).trans ?_)
      exact (ihafter hafter _).trans (if_pos rfl)

/-- What work leaves is properly nested. -/
theorem bracketed (h : Tells host layers .work w)
    (hboth : ∀ l ∈ layers,
      (host.hook l.hook).before?.isSome ∧ (host.hook l.hook).after?.isSome) :
    w.Bracketed (layers.reverse.map Layer.guard) :=
  h.reads hboth []

/-- If the layers together leave one event of a kind for each lookup of a call and none for others,
then there are as many of them as there are such lookups. -/
theorem counts {kind : Event → Bool} {call : LookupCall} (h : Tells host layers phrase w)
    (hmark : ∀ e, kind e → e.IsMark) (hlookup : ∀ call', kind (.lookup call') = false)
    (honce : ∀ call', Layer.leave host kind call' layers =
      (Event.looksUp call (.lookup call')).toNat) :
    phrase.Counts host kind call w := by
  induction h with
  | nil => rfl
  | @event e _ he _ ih =>
      have hkind : kind e = false := Bool.eq_false_iff.2 fun h => he (hmark e h)
      have hlooks : e.looksUp call = false := by
        cases e <;> first | rfl | exact absurd trivial he
      simp only [Phrase.Counts, List.countP_cons, hkind, hlooks]
      exact ih
  | @lookup call' _ _ _ _ ihcall ih =>
      simp only [Phrase.Counts, honce, List.countP_append] at ihcall ih ⊢
      omega
  | absent e => exact fun _ => rfl
  | @called e _ _ ih =>
      intro hlooks
      simp only [Phrase.Counts] at ih
      cases hkind : kind e <;> simp [hkind, hlooks, ih, Nat.add_comm]
  | @behind call' _ _ ih =>
      simp only [Phrase.Counts] at ih
      cases hlooks : Event.looksUp call (.lookup call') <;>
        simp [Phrase.Counts, Layer.leave, hlookup, hlooks, ih]
  | @through outer inner call' _ _ _ _ _ _ ihbefore ihinner ihafter =>
      have hbefore := ihbefore rfl
      have hafter := ihafter rfl
      simp only [Phrase.Counts, List.countP_append, Layer.leave_cons] at ihinner ⊢
      omega

section

variable (h : Tells host layers .work w) (hguards : layers.Pairwise fun a b => a.guard ≠ b.guard)
  {l : Layer η} (hl : l ∈ layers)

include h hguards hl

theorem countP_opens (hbefore : (host.hook l.hook).before?.isSome) (call : LookupCall) :
    w.countP (Event.opens l.guard call) = w.countP (Event.looksUp call) := by
  refine h.counts (fun e he => ?_) (fun _ => rfl) fun call' => ?_
  · cases e <;> trivial
  · rw [Layer.leave, Layer.countP_eq hguards hl fun l' h => by simp_all [Event.opens]]
    simp [Event.opens, Event.looksUp, hbefore]

/-- There is one event of each guard after a lookup. -/
theorem countP_closes (hafter : (host.hook l.hook).after?.isSome) (call : LookupCall) :
    w.countP (Event.closes l.guard call) = w.countP (Event.looksUp call) := by
  refine h.counts (fun e he => ?_) (fun _ => rfl) fun call' => ?_
  · cases e <;> trivial
  · rw [Layer.leave, Nat.add_comm, Layer.countP_eq hguards hl
      fun l' h => by simp_all [Event.closes]]
    simp [Event.closes, Event.looksUp, hafter]

end

end Tells

/-! ### Stacks that have been changed -/

namespace HookStack

variable {s t u : HookStack η} {g : GuardId}

def changes (s : HookStack η) : Nat := s.guards.size + s.guards.toList.count false

theorem changes_lt_install (s : HookStack η) (hook : η) :
    s.changes < (s.install hook).2.changes := by
  simp only [changes, install, Array.size_push, Array.toList_push, List.count_append]
  simp

theorem changes_lt_restore (h : s.isActive g) : s.changes < (s.restore g).changes := by
  have hg : s.guards[g.index]? = some true := by
    cases hopt : s.guards[g.index]? with
    | none => simp [isActive, hopt] at h
    | some b => simpa [isActive, hopt] using h
  obtain ⟨hlt, htrue⟩ := Array.getElem?_eq_some_iff.1 hg
  simp only [changes, restore, if_pos h, Array.size_setIfInBounds, Array.toList_setIfInBounds]
  rw [List.count_set (by simpa using hlt)]
  simp [htrue]

def Precedes (s t : HookStack η) : Prop := s = t ∨ s.changes < t.changes

theorem Precedes.refl (s : HookStack η) : s.Precedes s := Or.inl rfl

theorem Precedes.trans (hst : s.Precedes t) (htu : t.Precedes u) : s.Precedes u := by
  rcases hst with rfl | hst
  · exact htu
  · rcases htu with rfl | htu
    · exact Or.inr hst
    · exact Or.inr (Nat.lt_trans hst htu)

/-- A stack that has been changed never comes back to what it was. -/
theorem Precedes.eq (hst : s.Precedes t) (htu : t.Precedes u) (hus : u = s) : t = s := by
  subst hus
  rcases hst with h | h
  · exact h.symm
  · rcases htu with h' | h'
    · exact h'
    · exact absurd h (Nat.not_lt.2 (Nat.le_of_lt h'))

end HookStack

/-! ### Runs that keep to the language -/

structure State.Goes (host : Host σ η) (phrase : Phrase η) (s t : State σ η) : Prop where
  hooks : s.hooks.Precedes t.hooks
  tells : t.hooks = s.hooks → ∃ w, t.history = s.history ++ w ∧
    Tells host s.hooks.outermostFirst phrase w

namespace State

variable {host : Host σ η} {phrase : Phrase η} {s t u v : State σ η}

theorem Goes.of_eq (hhooks : t.hooks = s.hooks) (htrace : t.trace = s.trace) :
    Goes host .work s t where
  hooks := Or.inl hhooks.symm
  tells _ := ⟨[], by rw [List.append_nil]; exact congrArg Array.toList htrace, .nil⟩

theorem Goes.refl (s : State σ η) : Goes host .work s s := .of_eq rfl rfl

theorem Goes.of_push {e : Event} (he : ¬ e.IsMark) (hhooks : t.hooks = s.hooks)
    (htrace : t.trace = s.trace.push e) : Goes host .work s t where
  hooks := Or.inl hhooks.symm
  tells _ := ⟨[e], history_of_trace_eq htrace, .event he .nil⟩

/-- Where the hooks were changed nothing is said of the history. -/
theorem Goes.of_changes (h : s.hooks.changes < t.hooks.changes) : Goes host phrase s t where
  hooks := Or.inr h
  tells heq := by
    rw [heq] at h
    exact absurd h (Nat.lt_irrefl _)

theorem Goes.trans (hst : Goes host .work s t) (htu : Goes host .work t u) :
    Goes host .work s u where
  hooks := hst.hooks.trans htu.hooks
  tells heq := by
    have hmid := hst.hooks.eq htu.hooks heq
    obtain ⟨v, hv, hvt⟩ := hst.tells hmid
    obtain ⟨w, hw, hwt⟩ := htu.tells (heq.trans hmid.symm)
    rw [hmid] at hwt
    exact ⟨v ++ w, by rw [hw, hv, List.append_assoc], hvt.append hwt⟩

/-- A lookup that passes the layers that are installed is work like any other. -/
theorem Goes.work {call : LookupCall} (h : Goes host (.lookup s.hooks.outermostFirst call) s t) :
    Goes host .work s t where
  hooks := h.hooks
  tells heq := by
    obtain ⟨w, hw, hwt⟩ := h.tells heq
    exact ⟨w, hw, List.append_nil w ▸ .lookup hwt .nil⟩

theorem Goes.called {e : Event} (h : Goes host .work (s.emit e) t) :
    Goes host (.callback e true) s t where
  hooks := h.hooks
  tells heq := by
    obtain ⟨w, hw, hwt⟩ := h.tells heq
    rw [history_emit, List.append_assoc] at hw
    exact ⟨e :: w, hw, .called hwt⟩

theorem Goes.behind {call : LookupCall} (h : Goes host .work (s.emit (.lookup call)) t) :
    Goes host (.lookup [] call) s t where
  hooks := h.hooks
  tells heq := by
    obtain ⟨w, hw, hwt⟩ := h.tells heq
    rw [history_emit, List.append_assoc] at hw
    exact ⟨.lookup call :: w, hw, .behind hwt⟩

theorem Goes.through {outer : Layer η} {inner : List (Layer η)} {call : LookupCall}
    (hst : Goes host
      (.callback (.before outer.guard call) (host.hook outer.hook).before?.isSome) s t)
    (htu : Goes host (.lookup inner call) t u)
    (huv : Goes host
      (.callback (.after outer.guard call) (host.hook outer.hook).after?.isSome) u v) :
    Goes host (.lookup (outer :: inner) call) s v where
  hooks := hst.hooks.trans (htu.hooks.trans huv.hooks)
  tells heq := by
    have ht := hst.hooks.eq (htu.hooks.trans huv.hooks) heq
    have hu := htu.hooks.eq huv.hooks (heq.trans ht.symm)
    obtain ⟨b, hb, hbt⟩ := hst.tells ht
    obtain ⟨m, hm, hmt⟩ := htu.tells hu
    obtain ⟨a, ha, hat⟩ := huv.tells (heq.trans (hu.trans ht).symm)
    rw [ht] at hmt
    rw [hu, ht] at hat
    exact ⟨b ++ (m ++ a), by simp [ha, hm, hb], .through hbt hmt hat⟩

end State

def Host.BeforeNeverPanics (host : Host σ η) : Prop :=
  ∀ hook f, (host.hook hook).before? = some f → ∀ call depth s m,
    (((f call).run (serve host depth)).runIn s).1 ≠ .error (.panic m)

/-- Where the computation comes to an end, it has left such a piece of history. If the end is a
panic then that takes hooks that do not panic themselves. -/
def Eff.Moves (host : Host σ η) (phrase : Phrase η) (x : Eff σ η α) : Prop :=
  ∀ s o t, x.runIn s = (o, t) → o ≠ .error .outOfDepth →
    (∀ m, o = .error (.panic m) → host.BeforeNeverPanics) →
    State.Goes host phrase s t

def bracketRelation (host : Host σ η) : RunRelation σ η where
  reaches _ _ := True
  unwinds s t := host.BeforeNeverPanics → State.Goes host .work s t
  returns := State.Goes host .work
  refl := .refl
  trans := .trans
  unwinds_of_returns h _ := h
  unwinds_trans hst htu hquiet := (hst hquiet).trans (htu hquiet)
  reaches_of_unwinds _ := trivial
  reaches_trans _ _ := trivial

section

variable {host : Host σ η} {x : Eff σ η α}

theorem bracket_carries_iff : (bracketRelation host).Carries x ↔ x.Moves host .work := by
  constructor
  · intro h s o t hrun hstop hquiet
    obtain ⟨-, hends⟩ := h s
    rw [hrun] at hends
    match o with
    | .ok a => exact hends.1
    | .error (.error e) => exact hends
    | .error (.panic m) => exact hends (hquiet m rfl)
    | .error .outOfDepth => exact absurd rfl hstop
  · intro h s
    refine ⟨trivial, ?_⟩
    have hs := h s
    generalize x.runIn s = end_ at hs ⊢
    obtain ⟨o, t⟩ := end_
    match o with
    | .ok a => exact ⟨hs _ t rfl nofun nofun, trivial⟩
    | .error (.error e) => exact hs _ t rfl nofun nofun
    | .error (.panic m) => exact fun hquiet => hs _ t rfl nofun fun _ _ => hquiet
    | .error .outOfDepth => trivial

theorem bracket_action (a : Action σ η) (s : State σ η) :
    State.Goes host .work s (a.carryOut s).2 := by
  cases a with
  | note line => exact .of_push (e := .note line) id rfl rfl
  | writeExports r value => exact .of_push (e := .assign r value) id rfl rfl
  | evict p => exact .of_push (e := .evict p (s.cache.contains p)) id rfl rfl
  | install hook => exact .of_changes (s.hooks.changes_lt_install hook)
  | restore g =>
      by_cases hg : s.hooks.isActive g
      · exact .of_changes (HookStack.changes_lt_restore hg)
      · exact .of_eq (HookStack.restore_of_not_isActive hg) rfl
  | _ => exact .of_eq rfl rfl

theorem bracket_holdsOfSteps {serve : (c : Call) → Eff σ η c.Reply}
    (h : ∀ c, (bracketRelation host).Carries (serve c)) :
    (bracketRelation host).HoldsOfSteps serve where
  apart _ _ _ _ htrace hhooks := .of_eq hhooks htrace
  ordinary s e he := .of_push (e := e) (by cases e <;> first | exact he.elim | exact id) rfl rfl
  action := bracket_action
  call := h

end

/-! ### Lookups -/

section

variable {host : Host σ η} {serve : (c : Call) → Eff σ η c.Reply}

theorem bracket_modifyCache (f : Cache → Cache) :
    (bracketRelation host).Carries (Legacy.modifyCache f) :=
  .modify fun _ => .of_eq rfl rfl

theorem bracket_record {e : Event} (he : ¬ e.IsMark) (f : Cache → Cache) :
    (bracketRelation host).Carries (Legacy.record e f) :=
  .modify fun _ => .of_push he rfl rfl

variable (h : (bracketRelation host).HoldsOfSteps serve)

include h

theorem bracket_loadScript (p parent : Path) :
    (bracketRelation host).Carries (Legacy.loadScript host serve p parent) := by
  refine .bind (bracket_modifyCache _) fun _ => .bind .get fun s => ?_
  cases s.cache.exports? p with
  | some exports => exact .pure exports
  | none =>
      refine .bind (h.fetch p) fun text => ?_
      refine .bind (.modifyGet fun _ => .of_eq rfl rfl) fun start => ?_
      refine .bind (bracket_record id _) fun _ => ?_
      refine .bind (h.script _).settle fun o => ?_
      cases o with
      | ok _ => exact .bind .get fun _ => .bind (bracket_record id _) fun _ => .pure _
      | error e => exact .bind (bracket_record id _) fun _ => .fail e

theorem bracket_loadJson (p parent : Path) :
    (bracketRelation host).Carries (Legacy.loadJson host p parent) := by
  refine .bind (bracket_modifyCache _) fun _ => .bind .get fun s => ?_
  cases s.cache.exports? p with
  | some exports => exact .pure exports
  | none =>
      refine .bind (h.fetch p) fun text => ?_
      cases Json.read? text with
      | none => exact .fail _
      | some json =>
          exact .bind (h.perform _) fun value => .bind (bracket_record id _) fun _ => .pure value

theorem bracket_load (call : LookupCall) :
    (bracketRelation host).Carries (Legacy.load host serve call) := by
  have hanswer (p : Path) {x : Eff σ η Value} (hx : (bracketRelation host).Carries x) :
      (bracketRelation host).Carries (Legacy.answering p x) :=
    .bind hx fun v => .bind (.modify fun _ => .of_push (e := .answer p v) id rfl rfl)
      fun _ => .pure v
  refine .bind (.ofExcept _) fun found => ?_
  cases found with
  | builtin name => exact h.provide _ name
  | script p => exact hanswer p (bracket_loadScript h p call.parent)
  | json p => exact hanswer p (bracket_loadJson h p call.parent)
  | native p => exact .fail _

/-- A lookup behind the hooks leaves its own mark first. -/
theorem moves_base (call : LookupCall) :
    (Legacy.base host serve call).Moves host (.lookup [] call) := by
  intro s o t hrun hstop hquiet
  have hbehind {x : Eff σ η Value} (hx : (bracketRelation host).Carries x)
      (hrun : x.runIn (s.emit (.lookup call)) = (o, t)) : State.Goes host (.lookup [] call) s t :=
    (bracket_carries_iff.1 hx (s.emit (.lookup call)) o t hrun hstop hquiet).behind
  rw [Legacy.base, runIn_bind, runIn_emit] at hrun
  cases hf : host.lookup? with
  | some f =>
      rw [hf] at hrun
      exact hbehind (h.script (f call)) hrun
  | none =>
      rw [hf] at hrun
      exact hbehind (bracket_load h call) hrun

theorem moves_callback (event : Event) (call : LookupCall)
    (f? : Option (LookupCall → Program σ η Unit)) :
    (Hook.callback serve event call f?).Moves host (.callback event f?.isSome) := by
  intro s o t hrun hstop hquiet
  cases f? with
  | none =>
      obtain ⟨-, rfl⟩ := Prod.mk.inj hrun
      exact ⟨.refl _, fun _ => ⟨[], (List.append_nil _).symm, .absent event⟩⟩
  | some f =>
      have hwork := bracket_carries_iff.1 (h.program (f call)) (s.emit event) o t hrun hstop hquiet
      exact hwork.called

omit h in
/-- A callback does not fail. If it has no end of its own then it panics. -/
theorem callback_eq_error {event : Event} {call : LookupCall}
    {f? : Option (LookupCall → Program σ η Unit)} {s t : State σ η} {e : Fault}
    (hrun : (Hook.callback serve event call f?).runIn s = (.error e, t)) (hstop : e ≠ .outOfDepth) :
    ∃ m, e = .panic m := by
  have hends : Ends _ _ ((Hook.callback serve event call f?).runIn s).1 :=
    RunRelation.HoldsOfSteps.ends_callback event call f? s
  rw [hrun] at hends
  match e, hends with
  | .panic m, _ => exact ⟨m, rfl⟩
  | .outOfDepth, _ => exact absurd rfl hstop

/-- What comes after a lookup that has ended in some way is done in any case. -/
theorem moves_after {outer : Layer η} {inner : List (Layer η)} {call : LookupCall}
    {s a b v : State σ η} {p o : Except Fault Value}
    (hbefore : State.Goes host
      (.callback (.before outer.guard call) (host.hook outer.hook).before?.isSome) s a)
    (hinner : (∀ m, p = .error (.panic m) → host.BeforeNeverPanics) →
      State.Goes host (.lookup inner call) a b)
    (hrun : (do
      Hook.callback serve (.after outer.guard call) call (host.hook outer.hook).after?
      Eff.ofOutcome p).runIn b = (o, v))
    (hstop : o ≠ .error .outOfDepth)
    (hpanic : ∀ m, o = .error (.panic m) → host.BeforeNeverPanics) :
    State.Goes host (.lookup (outer :: inner) call) s v := by
  rw [runIn_bind] at hrun
  generalize hafter : (Hook.callback serve (.after outer.guard call) call
    (host.hook outer.hook).after?).runIn b = last at hrun
  obtain ⟨q, c⟩ := last
  have hlast := moves_callback h (.after outer.guard call) call _ b q c hafter
  cases q with
  | ok _ =>
      dsimp only at hrun
      rw [runIn_ofOutcome, Prod.mk.injEq] at hrun
      obtain ⟨rfl, rfl⟩ := hrun
      exact hbefore.through (hinner hpanic) (hlast nofun nofun)
  | error e =>
      obtain ⟨rfl, rfl⟩ := Prod.mk.inj hrun
      obtain ⟨m, rfl⟩ := callback_eq_error hafter fun he => hstop (by rw [he])
      have hquiet := hpanic m rfl
      exact hbefore.through (hinner fun _ _ => hquiet) (hlast nofun fun _ _ => hquiet)

theorem moves_intercept
    (hquiet : host.BeforeNeverPanics → ∀ hook f, (host.hook hook).before? = some f → ∀ call s m,
      (((f call).run serve).runIn s).1 ≠ .error (.panic m))
    (call : LookupCall) (layers : List (Layer η)) :
    (intercept host serve call (Legacy.base host serve call) layers).Moves host
      (.lookup layers call) := by
  induction layers with
  | nil => exact moves_base h call
  | cons outer inner ih =>
      intro s o v hrun hstop hpanic
      rw [intercept, runIn_bind] at hrun
      generalize hbefore : (Hook.callback serve (.before outer.guard call) call
        (host.hook outer.hook).before?).runIn s = first at hrun
      obtain ⟨p, a⟩ := first
      cases p with
      | error e =>
          obtain ⟨rfl, rfl⟩ := Prod.mk.inj hrun
          obtain ⟨m, rfl⟩ := callback_eq_error hbefore fun he => hstop (by rw [he])
          -- and what is called before a lookup does not panic
          cases hf : (host.hook outer.hook).before? with
          | none =>
              rw [hf] at hbefore
              cases (Prod.mk.inj hbefore).1
          | some f =>
              rw [hf] at hbefore
              exact absurd (congrArg Prod.fst hbefore)
                (hquiet (hpanic m rfl) outer.hook f hf call _ m)
      | ok _ =>
          have hentered := moves_callback h (.before outer.guard call) call _ s _ a
            hbefore nofun nofun
          dsimp only at hrun
          rw [runIn_bind, runIn_outcome] at hrun
          generalize hinner :
            (intercept host serve call (Legacy.base host serve call) inner).runIn a =
            second at hrun
          obtain ⟨q, b⟩ := second
          have hin := ih a q b hinner
          match q with
          | .error .outOfDepth => exact absurd (Prod.mk.inj hrun).1.symm hstop
          | .ok _ => exact moves_after h hentered (hin nofun) hrun hstop hpanic
          | .error (.error _) => exact moves_after h hentered (hin nofun) hrun hstop hpanic
          | .error (.panic _) => exact moves_after h hentered (hin nofun) hrun hstop hpanic

theorem moves_require
    (hquiet : host.BeforeNeverPanics → ∀ hook f, (host.hook hook).before? = some f → ∀ call s m,
      (((f call).run serve).runIn s).1 ≠ .error (.panic m))
    (call : LookupCall) (s : State σ η) {o : Except Fault Value} {t : State σ η}
    (hrun : (Legacy.require host serve call).runIn s = (o, t)) (hstop : o ≠ .error .outOfDepth)
    (hpanic : ∀ m, o = .error (.panic m) → host.BeforeNeverPanics) :
    State.Goes host (.lookup s.hooks.outermostFirst call) s t :=
  moves_intercept h hquiet call s.hooks.outermostFirst s o t hrun hstop hpanic

end

/-! ### Runs -/

theorem bracket_serve (host : Host σ η) (depth : Nat) (c : Call) :
    (bracketRelation host).Carries (serve host depth c) := by
  induction depth generalizing c with
  | zero => exact .outOfDepth
  | succ depth ih =>
      refine (bracket_holdsOfSteps ih).answer (fun call => bracket_carries_iff.2 ?_) c
      intro s o t hrun hstop hpanic
      have hquiet (h : host.BeforeNeverPanics) hook f hf call s m := h hook f hf call depth s m
      exact (moves_require (bracket_holdsOfSteps ih) hquiet call s hrun hstop hpanic).work

/-- What a lookup leaves behind, whoever makes it. -/
theorem moves_serve {host : Host σ η} {depth : Nat} {call : LookupCall} {s t : State σ η}
    {o : Except Fault Value} (hrun : (serve host depth (.require call)).runIn s = (o, t))
    (hstop : o ≠ .error .outOfDepth)
    (hpanic : ∀ m, o = .error (.panic m) → host.BeforeNeverPanics) :
    State.Goes host (.lookup s.hooks.outermostFirst call) s t := by
  cases depth with
  | zero => exact absurd (Prod.mk.inj hrun).1.symm hstop
  | succ depth =>
      have hquiet (h : host.BeforeNeverPanics) hook f hf call s m := h hook f hf call depth s m
      exact moves_require (bracket_holdsOfSteps (bracket_serve host depth)) hquiet call s
        hrun hstop hpanic

/-- What a program leaves behind. -/
theorem moves_exec {host : Host σ η} {depth : Nat} {p : Program σ η α} {s t : State σ η}
    {o : Except Fault α} (hrun : host.exec depth p s = (o, t)) (hstop : o ≠ .error .outOfDepth)
    (hpanic : ∀ m, o = .error (.panic m) → host.BeforeNeverPanics) : State.Goes host .work s t :=
  bracket_carries_iff.1 ((bracket_holdsOfSteps (bracket_serve host depth)).program p) s o t
    hrun hstop hpanic

end ModuleLoader
