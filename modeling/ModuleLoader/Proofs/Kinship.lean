import ModuleLoader.Proofs.Settlement
import ModuleLoader.Proofs.Unfinished
/-!
What an entry says of its kin.

An entry remembers who asked for its file when it was made, and which files have been
asked for in the name of its own file since then. Both are there to be read off the
events. The lookup that an entry is due to is the one right before the file was read,
and right after that the entry was made. As long as it is there its children are the
files found by the lookups that name it, each once, in the order in which they were
first found. It makes no difference what becomes of such a lookup. The child is noted
before the cache is asked, and so before anything can fail.

This is an invariant of the loader with everything that it calls for, and there is one
step at which it does not hold: a lookup has left its event, and the child is not noted
yet. If scripts are named by lookups of their own only, as they are when each is given a
way to look up that has its name in it, then the children of an entry are what the body
of its script has looked up, and after that body has ended they stay as they are.
-/

namespace ModuleLoader

variable {σ η α β : Type}

open Eff History RunRelation

/-! ### Lists without repetitions -/

theorem eraseDupsBy_loop_concat {γ : Type} (r : γ → γ → Bool) (l : List γ) (a : γ) (seen : List γ) :
    List.eraseDupsBy.loop r (l ++ [a]) seen =
      if (List.eraseDupsBy.loop r l seen).any (r a) then List.eraseDupsBy.loop r l seen
      else List.eraseDupsBy.loop r l seen ++ [a] := by
  induction l generalizing seen with
  | nil =>
      simp only [List.nil_append, List.eraseDupsBy.loop, List.any_reverse]
      cases seen.any (r a) <;> simp
  | cons b l ih =>
      rw [List.cons_append, List.eraseDupsBy.loop, List.eraseDupsBy.loop]
      by_cases hb : seen.any (r b)
      · simpa only [hb] using ih seen
      · simpa only [Bool.eq_false_iff.2 hb] using ih (b :: seen)

theorem eraseDupsBy_concat {γ : Type} (r : γ → γ → Bool) (l : List γ) (a : γ) :
    (l ++ [a]).eraseDupsBy r =
      if (l.eraseDupsBy r).any (r a) then l.eraseDupsBy r else l.eraseDupsBy r ++ [a] :=
  eraseDupsBy_loop_concat r l a []

theorem eq_of_last {γ : Type} {P : γ → Prop} {a b c d : List γ} {x y : γ}
    (h : a ++ x :: b = c ++ y :: d) (hx : P x) (hy : P y) (hb : ∀ z ∈ b, ¬ P z)
    (hd : ∀ z ∈ d, ¬ P z) : a = c ∧ x = y ∧ b = d := by
  rcases List.append_eq_append_iff.1 h with ⟨e, rfl, he⟩ | ⟨e, rfl, he⟩
  · cases e with
    | nil =>
        obtain ⟨rfl, rfl⟩ := List.cons.inj he
        simp
    | cons z e =>
        obtain ⟨rfl, rfl⟩ := List.cons.inj he
        exact (hb y (by simp) hy).elim
  · cases e with
    | nil =>
        obtain ⟨rfl, rfl⟩ := List.cons.inj he
        simp
    | cons z e =>
        obtain ⟨rfl, rfl⟩ := List.cons.inj he
        exact (hd x (by simp) hx).elim

theorem CachedModule.children_addChild {m : CachedModule} {l : List Path}
    (h : m.children = l.eraseDupsBy Path.same) (child : Path) :
    (m.addChild child).children = (l ++ [child]).eraseDupsBy Path.same := by
  have hcomm : Path.same child = (·.same child) := funext (Path.same_comm child)
  rw [eraseDupsBy_concat, ← h, addChild, hcomm]
  split <;> rfl

/-! ### Kin in a history -/

/-- The file that a lookup finds, if it is one that has an entry: a script or a document. A built-in
module and a native addon have none. -/
def Host.location? (host : Host σ η) (call : LookupCall) : Option Path :=
  match RequireId.resolve host.files host.builtins call.id call.parent with
  | .ok (.script p) => some p
  | .ok (.json p) => some p
  | _ => none

namespace Event

def made? : Event → Option Path
  | enter p .. => some p
  | parse p _ => some p
  | _ => none

def Makes (p : Path) (e : Event) : Prop := ∃ q, e.made? = some q ∧ q.same p

def call? : Event → Option LookupCall
  | lookup call => some call
  | _ => none

/-- The event is of no lookup and makes no entry. -/
def IsApart (e : Event) : Prop := e.call? = none ∧ e.made? = none

theorem IsOrdinary.isApart {e : Event} (he : e.IsOrdinary) : e.IsApart := by
  cases e <;> first | exact ⟨rfl, rfl⟩ | exact he.elim

theorem IsHook.isApart {e : Event} (he : e.IsHook) : e.IsApart := by
  cases e <;> first | exact ⟨rfl, rfl⟩ | exact he.elim

theorem IsApart.not_makes {e : Event} (he : e.IsApart) (p : Path) : ¬ e.Makes p := by
  rintro ⟨q, hq, -⟩
  rw [he.2] at hq
  cases hq

theorem eq_lookup {e : Event} {call : LookupCall} (he : e.call? = some call) :
    e = .lookup call := by
  cases e <;> cases he
  rfl

theorem Makes.touches {e : Event} {p : Path} (he : e.Makes p) : e.Touches p := by
  obtain ⟨q, hmade, hsame⟩ := he
  cases e <;> cases hmade <;> exact hsame

end Event

/-- The files that the lookups in the name of the file at a path have found, in turn. -/
def Host.asked (host : Host σ η) (p : Path) (h : History) : List Path :=
  (h.filterMap Event.call?).filterMap fun call =>
    if call.parent.same p then host.location? call else none

namespace Host

variable {host : Host σ η} {p : Path} {h : History} {e : Event} {call : LookupCall}

theorem asked_append (host : Host σ η) (p : Path) (h h' : History) :
    host.asked p (h ++ h') = host.asked p h ++ host.asked p h' := by
  simp [asked]

theorem asked_eq_nil
    (hnone : ∀ call, .lookup call ∈ h → call.parent.same p → host.location? call = none) :
    host.asked p h = [] := by
  simp only [asked, List.filterMap_eq_nil_iff, List.mem_filterMap]
  rintro call ⟨e, he, hcall⟩
  by_cases hsame : call.parent.same p
  · rw [if_pos hsame, hnone call (Event.eq_lookup hcall ▸ he) hsame]
  · rw [if_neg hsame]

theorem asked_lookup (hsame : call.parent.same p) {q : Path} (hq : host.location? call = some q) :
    host.asked p [.lookup call] = [q] := by
  simp [asked, Event.call?, hsame, hq]

end Host

def Host.Kin (host : Host σ η) (h : History) (p : Path) (m : CachedModule) : Prop :=
  ∃ before call q e after, h = before ++ .lookup call :: .read q :: e :: after ∧
    host.location? call = some q ∧ e.made? = some q ∧ q.same p ∧ (∀ x ∈ after, ¬ x.Makes p) ∧
    m.parent? = some call.parent ∧ m.children = (host.asked p after).eraseDupsBy Path.same

namespace Host.Kin

variable {host : Host σ η} {h : History} {p q : Path} {m m' : CachedModule} {e : Event}
  {call : LookupCall}

theorem concat (hkin : host.Kin h p m) (hmakes : ¬ e.Makes p) (hparent : m'.parent? = m.parent?)
    (hchildren : ∀ l : List Path, m.children = l.eraseDupsBy Path.same →
      m'.children = (l ++ host.asked p [e]).eraseDupsBy Path.same) : host.Kin (h ++ [e]) p m' := by
  obtain ⟨before, call, q, x, after, rfl, hloc, hmade, hsame, hafter, hp, hc⟩ := hkin
  refine ⟨before, call, q, x, after ++ [e], by simp, hloc, hmade, hsame, ?_, hparent.trans hp, ?_⟩
  · simpa only [List.forall_mem_append, List.forall_mem_singleton] using ⟨hafter, hmakes⟩
  · rw [host.asked_append]
    exact hchildren _ hc

/-- An event that is of no lookup says nothing of the children. -/
theorem concat_of_call?_eq_none (hkin : host.Kin h p m) (hmakes : ¬ e.Makes p)
    (hcall : e.call? = none) (hparent : m'.parent? = m.parent?)
    (hchildren : m'.children = m.children) :
    host.Kin (h ++ [e]) p m' := by
  have hnone : host.asked p [e] = [] := Host.asked_eq_nil fun call hmem => by
    rw [← List.mem_singleton.1 hmem] at hcall
    cases hcall
  refine hkin.concat hmakes hparent fun l hl => ?_
  rw [hnone, List.append_nil, hchildren, hl]

/-- The entry of the file that a lookup names gets what the lookup finds, and no other does. -/
theorem lookup (hkin : host.Kin h p m) (hq : host.location? call = some q) :
    host.Kin (h ++ [.lookup call]) p (if p.same call.parent then m.addChild q else m) := by
  have hmakes : ¬ (Event.lookup call).Makes p := fun ⟨_, hmade, _⟩ => by cases hmade
  by_cases hsame : p.same call.parent
  · rw [if_pos hsame]
    refine hkin.concat hmakes (m.parent?_addChild q) fun l hl => ?_
    rw [host.asked_lookup (Path.same_symm hsame) hq]
    exact m.children_addChild hl q
  · rw [if_neg hsame]
    refine hkin.concat hmakes rfl fun l hl => ?_
    rw [hl, asked_eq_nil, List.append_nil]
    intro c hmem hparent
    cases List.mem_singleton.1 hmem
    exact (hsame (Path.same_symm hparent)).elim

/-- An entry that is made right after the lookup and the reading of its file has no children. -/
theorem made {before : History} (hlast : h = before ++ [.lookup call, .read q])
    (hq : host.location? call = some q) (hmade : e.made? = some q) (hsame : q.same p)
    (hparent : m.parent? = some call.parent) (hchildren : m.children = []) :
    host.Kin (h ++ [e]) p m :=
  ⟨before, call, q, e, [], by simp [hlast], hq, hmade, hsame, nofun, hparent, hchildren⟩

end Host.Kin

/-! ### Kin in the cache -/

def State.KinHolds (host : Host σ η) (s : State σ η) : Prop :=
  ∀ p m, s.cache.get? p = some m → host.Kin s.history p m

namespace State.KinHolds

variable {host : Host σ η} {s t : State σ η} {e : Event}

theorem of_eq (hs : s.KinHolds host) (hcache : t.cache = s.cache) (htrace : t.trace = s.trace) :
    t.KinHolds host := by
  intro p m hp
  have hhistory : t.history = s.history := congrArg Array.toList htrace
  rw [hhistory]
  exact hs p m (hcache ▸ hp)

/-- One more event apart from kin, and no entry with other kin. -/
theorem next (hs : s.KinHolds host) (htrace : t.trace = s.trace.push e) (he : e.IsApart)
    (hcache : ∀ p m', t.cache.get? p = some m' → ∃ m, s.cache.get? p = some m ∧
      m'.parent? = m.parent? ∧ m'.children = m.children) : t.KinHolds host := by
  intro p m' hp
  obtain ⟨m, hm, hparent, hchildren⟩ := hcache p m' hp
  rw [history_of_trace_eq htrace]
  exact (hs p m hm).concat_of_call?_eq_none (he.not_makes p) he.1 hparent hchildren

theorem emit (hs : s.KinHolds host) (he : e.IsApart) : (s.emit e).KinHolds host :=
  hs.next rfl he fun _ m hm => ⟨m, hm, rfl, rfl⟩

theorem erase (hs : s.KinHolds host) (p : Path) (he : e.IsApart) :
    (State.emit { s with cache := s.cache.erase p } e).KinHolds host := by
  refine hs.next rfl he fun q m hm => ⟨m, ?_, rfl, rfl⟩
  have hget := (s.cache.get?_erase p q).symm.trans hm
  split at hget
  · cases hget
  · exact hget

theorem finish (hs : s.KinHolds host) (p : Path) (exports : Value) (he : e.IsApart) :
    (State.emit { s with cache := s.cache.finish p exports } e).KinHolds host := by
  refine hs.next rfl he fun q m' hm' => ?_
  have hget := (s.cache.get?_modify p q (·.finish exports)).symm.trans hm'
  split at hget
  · obtain ⟨m, hm, rfl⟩ := Option.map_eq_some_iff.1 hget
    exact ⟨m, hm, rfl, rfl⟩
  · exact ⟨m', hget, rfl, rfl⟩

/-- A lookup that finds a file, and the file noted as a child. -/
theorem lookup (hs : s.KinHolds host) {call : LookupCall} {p : Path}
    (hp : host.location? call = some p) :
    State.KinHolds host { s.emit (.lookup call) with cache := s.cache.addChild call.parent p } := by
  intro q m' hm'
  have hget := (s.cache.get?_modify call.parent q (·.addChild p)).symm.trans hm'
  change host.Kin (s.emit (.lookup call)).history q m'
  rw [history_emit]
  split at hget
  · rename_i hsame
    obtain ⟨m, hm, rfl⟩ := Option.map_eq_some_iff.1 hget
    simpa only [if_pos hsame] using (hs q m hm).lookup hp
  · rename_i hsame
    simpa only [if_neg hsame] using (hs q m' hget).lookup hp

/-- A lookup that finds none. -/
theorem lookup_of_none (hs : s.KinHolds host) {call : LookupCall}
    (hnone : host.location? call = none) :
    (s.emit (.lookup call)).KinHolds host := by
  intro p m hm
  rw [history_emit]
  refine (hs p m hm).concat (fun ⟨_, hmade, _⟩ => by cases hmade) rfl fun l hl => ?_
  rw [hl, Host.asked_eq_nil, List.append_nil]
  intro c hmem _
  cases List.mem_singleton.1 hmem
  exact hnone

/-- The entry of a file is made, right after a lookup has found it and it was read. -/
theorem insert (hs : s.KinHolds host) {before : History} {call : LookupCall} {p : Path}
    {m : CachedModule}
    (hlast : s.history = before ++ [.lookup call, .read p]) (hp : host.location? call = some p)
    (hmade : e.made? = some p) (hcall : e.call? = none) (hparent : m.parent? = some call.parent)
    (hchildren : m.children = []) :
    (State.emit { s with cache := s.cache.insert p m } e).KinHolds host := by
  intro q m' hm
  have hget := (s.cache.get?_insert p q m).symm.trans hm
  rw [history_emit]
  split at hget
  · rename_i hsame
    cases hget
    exact .made hlast hp hmade (Path.same_symm hsame) hparent hchildren
  · rename_i hsame
    refine (hs q m' hget).concat_of_call?_eq_none (fun ⟨x, hx, hq⟩ => ?_) hcall rfl rfl
    rw [hmade, Option.some.injEq] at hx
    exact hsame (Path.same_symm (hx ▸ hq))

end State.KinHolds

/-- The relation that entries go on to say what the history says. It makes no difference how
something ends. -/
def kinRelation (host : Host σ η) : RunRelation σ η where
  reaches s t := s.KinHolds host → t.KinHolds host
  unwinds s t := s.KinHolds host → t.KinHolds host
  returns s t := s.KinHolds host → t.KinHolds host
  refl _ := id
  trans hst htu := htu ∘ hst
  unwinds_of_returns hst := hst
  unwinds_trans hst htu := htu ∘ hst
  reaches_of_unwinds hst := hst
  reaches_trans hst htu := htu ∘ hst

section

variable {host : Host σ η} {serve : (c : Call) → Eff σ η c.Reply} {s : State σ η} {p : Path}
  {call : LookupCall}

theorem kin_holdsOfSteps (h : ∀ c, (kinRelation host).Carries (serve c)) :
    (kinRelation host).HoldsOfSteps serve where
  apart s t hcache _ htrace _ hs := hs.of_eq hcache htrace
  ordinary s e he hs := hs.emit he.isApart
  action a s hs := by
    cases a with
    | note line => exact hs.emit ⟨rfl, rfl⟩
    | writeExports r value => exact hs.emit ⟨rfl, rfl⟩
    | evict p => exact hs.erase p ⟨rfl, rfl⟩
    | _ => exact hs.of_eq rfl rfl
  call := h

theorem kin_hook (s : State σ η) (e : Event) (he : e.IsHook) :
    (kinRelation host).returns s (s.emit e) := fun hs => hs.emit he.isApart

theorem kin_runBody (h : (kinRelation host).HoldsOfSteps serve) (p : Path) (text : String)
    (r : ExportsRef) :
    (kinRelation host).Carries (Legacy.runBody host serve p text r) := by
  refine .bind (h.script _).settle fun o => ?_
  cases o with
  | ok _ =>
      exact .bind .get fun _ => .bind (.modify fun s hs => hs.finish p _ ⟨rfl, rfl⟩)
        fun _ => .pure _
  | error e => exact .bind (.modify fun s hs => hs.erase p ⟨rfl, rfl⟩) fun _ => .fail e

def Completes (host : Host σ η) (call : LookupCall) (s : State σ η) (x : Eff σ η α) : Prop :=
  Returns ((kinRelation host).reaches s) ((kinRelation host).unwinds s)
    ((kinRelation host).returns s)
    (s.emit (.lookup call)) x fun _ _ => True

/-- The child is noted before the cache is asked. Then the file is answered from there, or it is
read and loaded. -/
theorem kin_cached (h : (kinRelation host).HoldsOfSteps serve) (hp : host.location? call = some p)
    {load : String → Eff σ η Value}
    (hload : ∀ text u, u.history = s.history ++ [.lookup call, .read p] →
      (kinRelation host).From u (load text) fun _ _ => True) :
    Completes host call s
      (do Legacy.modifyCache (·.addChild call.parent p)
          match (← get).cache.exports? p with
          | some exports => return exports
          | none => do
            let text ← Legacy.fetch host p
            load text) := by
  let t := { s.emit (.lookup call) with cache := s.cache.addChild call.parent p }
  have hst : (kinRelation host).returns s t := fun hs => hs.lookup hp
  have hread : (t.emit (.read p)).history = s.history ++ [.lookup call, .read p] := by
    change ((s.emit (.lookup call)).emit (.read p)).history = _
    simp
  refine Returns.bind_of_eq_ok (t := t) rfl (Returns.bind_of_eq_ok (runIn_get t) ?_)
  cases t.cache.exports? p with
  | some exports => exact (Carries.pure exports).after hst
  | none =>
      refine From.of_returns ((h.from_fetch p t).bind fun text u _ hu => ?_) hst
      exact hload text u (hu ▸ hread)

theorem kin_loadScript (h : (kinRelation host).HoldsOfSteps serve)
    (hp : host.location? call = some p) :
    Completes host call s (Legacy.loadScript host serve p call.parent) := by
  refine kin_cached h hp fun text u hread => ?_
  refine From.bind_of_eq_ok (runIn_modifyGet _ u) (fun hs => hs.of_eq rfl rfl) ?_
  refine From.bind_of_eq_ok (runIn_modify _ _) (fun hs => ?_) (kin_runBody h p text _ _)
  exact hs.insert hread hp rfl rfl rfl rfl

theorem kin_loadJson (h : (kinRelation host).HoldsOfSteps serve)
    (hp : host.location? call = some p) :
    Completes host call s (Legacy.loadJson host p call.parent) := by
  refine kin_cached h hp fun text u hread => ?_
  cases Json.read? text with
  | none => exact From.fail
  | some json =>
      refine From.bind_of_eq_ok (runIn_perform _ u) (h.action _ u) ?_
      refine From.bind_of_eq_ok (runIn_modify _ _) (fun hs => ?_) (From.pure trivial)
      exact hs.insert hread hp rfl rfl rfl rfl

theorem kin_answering {x : Eff σ η Value} (hx : Completes host call s x) :
    Completes host call s (Legacy.answering p x) :=
  hx.bind fun v _ _ hst _ =>
    (Carries.bind (.modify fun _ hs => hs.emit ⟨rfl, rfl⟩) fun _ => .pure v).after hst

theorem kin_base (h : (kinRelation host).HoldsOfSteps serve) (hlookup : host.lookup? = none)
    (call : LookupCall) : (kinRelation host).Carries (Legacy.base host serve call) := by
  intro s
  refine Returns.bind_of_eq_ok (runIn_emit (.lookup call) s) ?_
  rw [hlookup]
  dsimp only
  have hnone (hlocation : host.location? call = none) :
      (kinRelation host).returns s (s.emit (.lookup call)) := fun hs => hs.lookup_of_none hlocation
  unfold Legacy.load
  cases hfound : RequireId.resolve host.files host.builtins call.id call.parent with
  | error e => exact (Carries.fail e).after (hnone (by rw [Host.location?, hfound]))
  | ok found =>
      refine Returns.bind_of_eq_ok (t := s.emit (.lookup call)) rfl ?_
      cases found with
      | builtin name =>
          exact (h.provide _ name).after (hnone (by rw [Host.location?, hfound]))
      | script p => exact kin_answering (kin_loadScript h (by rw [Host.location?, hfound]))
      | json p => exact kin_answering (kin_loadJson h (by rw [Host.location?, hfound]))
      | native p => exact (Carries.fail _).after (hnone (by rw [Host.location?, hfound]))

end

theorem kin_serve {host : Host σ η} (hlookup : host.lookup? = none) (depth : Nat) (c : Call) :
    (kinRelation host).Carries (serve host depth c) := by
  induction depth generalizing c with
  | zero => exact .outOfDepth
  | succ depth ih =>
      have hsteps := kin_holdsOfSteps ih
      exact hsteps.answer (hsteps.require kin_hook (kin_base hsteps hlookup)) c

/-- Whatever program is run, entries go on to say what the history says. -/
theorem State.KinHolds.exec {host : Host σ η} (hlookup : host.lookup? = none) {s : State σ η}
    (hs : s.KinHolds host) (depth : Nat) (program : Program σ η α) :
    (host.exec depth program s).2.KinHolds host :=
  ((kin_holdsOfSteps (kin_serve hlookup depth)).program program s).1 hs

theorem State.kinHolds_initial (host : Host σ η) (store : σ) :
    (State.initial store).KinHolds host :=
  fun _ _ hm => by cases hm

/-! ### The lookups of a body -/

def Ledger.isInnermost (l : Ledger) (p : Path) : Bool := l.running.head?.any (·.1.same p)

namespace History

variable {h before after span : History} {p : Path} {context : ContextId} {r : ExportsRef}
  {start v : Value}

/-- The lookups that the body of the script at a path makes in a stretch, in turn. They are in the
name of the script, and are made while its body is the innermost that runs. -/
def requires (p : Path) : History → History → List LookupCall
  | _, [] => []
  | before, e :: rest =>
    (e.call?.filter fun call => call.parent.same p && (ledger before).isInnermost p).toList ++
      requires p (before ++ [e]) rest

/-- No lookup is in the name of the script at a path but those that its body makes. -/
def NamedByBody (p : Path) (h : History) : Prop :=
  ∀ before call after, h = before ++ .lookup call :: after → call.parent.same p →
    (ledger before).isInnermost p

instance (p : Path) (h : History) : Decidable (h.NamedByBody p) :=
  decidable_of_iff
    (∀ i : Fin h.length, (h[i.val]?.bind Event.call?).all fun call =>
      !call.parent.same p || (ledger (h.take i)).isInnermost p) <| by
      constructor
      · rintro hall before call after rfl hsame
        simpa [Event.call?, hsame] using hall ⟨before.length, by simp⟩
      · intro hnamed i
        rw [Option.all_eq_true]
        intro call hcall
        obtain ⟨e, he, hcall⟩ := Option.bind_eq_some_iff.1 hcall
        have hsplit : h = h.take i ++ .lookup call :: h.drop (i + 1) := by
          rw [← Event.eq_lookup hcall, ← List.singleton_append, ← Option.toList_some, ← he,
            ← List.drop_eq_getElem?_toList_append, List.take_append_drop]
        by_cases hsame : call.parent.same p
        · simpa [hsame] using hnamed _ call _ hsplit hsame
        · simp [hsame]

/-- What is asked for in the name of such a script is asked for by its body. -/
theorem asked_eq_requires (host : Host σ η) (before span after : History)
    (hnamed : (before ++ span ++ after).NamedByBody p) :
    host.asked p span = (requires p before span).filterMap host.location? := by
  induction span generalizing before with
  | nil => rfl
  | cons e rest ih =>
      have hrest := ih (before ++ [e]) (by simpa using hnamed)
      rw [List.append_assoc, List.cons_append] at hnamed
      rw [← List.singleton_append, host.asked_append, hrest, List.singleton_append, requires,
        List.filterMap_append]
      congr 1
      cases hcall : e.call? with
      | none => simp [Host.asked, hcall]
      | some call =>
          cases Event.eq_lookup hcall
          by_cases hsame : call.parent.same p
          · have hinner := hnamed before call (rest ++ after) rfl hsame
            simp [Host.asked, Event.call?, Option.filter, List.filterMap_cons, hsame, hinner]
          · simp [Host.asked, Event.call?, Option.filter, hsame]

/-- If a file is never evicted, then it is being loaded as long as a body of it runs. -/
theorem kept_of_runs (hlegal : h.Legal) (hevicts : ∀ e ∈ h, ¬ e.Evicts p)
    (hruns : (ledger h).Runs p) : ∃ start, (ledger h).kept p = some (.loading start) := by
  obtain ⟨⟨q, r⟩, hmem, hsame⟩ := hruns
  obtain ⟨inner, outer, hrunning⟩ := List.append_of_mem hmem
  obtain ⟨a, context, start, span, rfl, -, -, hstands⟩ := exists_enter hlegal hrunning
  have hspan : ∀ e ∈ span, ¬ e.Evicts q :=
    fun e he hq => hevicts e (by simp [he]) (hq.of_same hsame)
  exact ⟨start, (Ledger.even _ hsame).symm.trans (hstands.own hspan).1⟩

/-- A body has ended well, and its file is not evicted. Then nothing has happened to the file but
that the body was entered and left. -/
theorem kept_of_left
    (hlegal : (before ++ .enter p context r start :: span ++ .leave p (.ok v) :: after).Legal)
    (hspan : ∀ e ∈ span, ¬ e.Leaves p)
    (hevicts : ∀ e ∈ before ++ .enter p context r start :: span ++ .leave p (.ok v) :: after,
      ¬ e.Evicts p) :
    (ledger (before ++ .enter p context r start :: span ++ .leave p (.ok v) :: after)).kept p =
      some (.loaded v) ∧ (∀ e ∈ span, ¬ e.Touches p) ∧ ∀ e ∈ after, ¬ e.Touches p := by
  have hwhole : before ++ .enter p context r start :: span ++ .leave p (.ok v) :: after =
      before ++ [.enter p context r start] ++ span ++ [.leave p (.ok v)] ++ after := by simp
  rw [hwhole] at hlegal hevicts ⊢
  have hentered := kept_of_enter before (Path.same_refl p) context r start
  have hduring : Legal (before ++ [.enter p context r start] ++ span ++ []) := by
    rw [List.append_nil]
    exact hlegal.take.take
  obtain ⟨hend, hnone⟩ := kept_of_unfinished hduring (by rw [hentered]; rfl) fun e he =>
    ⟨hspan e he, hevicts e (by simp [he])⟩
  have hleft :
      (ledger (before ++ [.enter p context r start] ++ span ++ [.leave p (.ok v)])).kept p =
      some (.loaded v) := by
    rw [ledger_concat, Ledger.kept_next_leave _ (Path.same_refl p), hend, hentered]
    rfl
  have hsince : Legal (before ++ [.enter p context r start] ++ span ++
    [.leave p (.ok v)] ++ after ++
      []) := by
    rwa [List.append_nil]
  rcases accepts_or_leaves hsince hleft fun e he => hevicts e (by simp [he]) with
    ⟨hkept, haccepts⟩ | ⟨b, x, rest, rfl, hleaves, -, hkept⟩
  · exact ⟨hkept, hnone, fun e he => (haccepts e he).touches⟩
  · -- a body that ends once the file is loaded has been overtaken, and that takes an eviction
    cases x with
    | leave q outcome =>
        rw [← List.append_assoc] at hlegal hevicts
        rw [← (ledger _).even hleaves] at hkept
        obtain ⟨a, _, _, _, _, hsplit, -, ⟨c, y, d, rfl, hy, -⟩, -⟩ :=
          overtaken_of_loaded hlegal hkept
        refine (hevicts y ?_ (hy.of_same hleaves)).elim
        rw [hsplit]
        simp
    | _ => exact hleaves.elim

end History

theorem Ledger.runs_of_isInnermost {l : Ledger} {p : Path} (h : l.isInnermost p) : l.Runs p := by
  obtain ⟨script, hscript, hsame⟩ := (Option.any_eq_true _ _).1 h
  exact ⟨script, List.mem_of_head? hscript, hsame⟩

/-- The entry of a script whose body has ended well. -/
theorem State.KinHolds.exists_entry {host : Host σ η} {s : State σ η} (hkin : s.KinHolds host)
    (hs : s.LedgerHolds)
    {p : Path} {before span after : History} {context : ContextId} {r : ExportsRef}
    {start v : Value}
    (hsplit : s.history = before ++ .enter p context r start :: span ++ .leave p (.ok v) :: after)
    (hspan : ∀ e ∈ span, ¬ e.Leaves p) (hevicts : ∀ e ∈ s.history, ¬ e.Evicts p)
    (hnamed : s.history.NamedByBody p) :
    ∃ entry call first, s.cache.get? p = some entry ∧ entry.loaded = true ∧
      entry.children = ((requires p (before ++ [.enter p context r start]) span).filterMap
        host.location?).eraseDupsBy Path.same ∧
      before = first ++ [.lookup call, .read p] ∧ host.location? call = some p ∧
      entry.parent? = some call.parent := by
  have hlegal := hs.legal
  rw [hsplit] at hlegal hevicts hnamed
  obtain ⟨hkept, hduring, hsince⟩ := kept_of_left hlegal hspan hevicts
  rw [← hsplit, hs.kept, Option.map_eq_some_iff] at hkept
  obtain ⟨entry, hentry, hstanding⟩ := hkept
  obtain ⟨first, call, q, e, rest, hmade, hlocation, he, hsame, hrest, hparent, hchildren⟩ :=
    hkin p entry hentry
  have hnone : host.asked p after = [] := by
    refine Host.asked_eq_nil fun asking hmem hparent => ?_
    obtain ⟨b, c, rfl⟩ := List.append_of_mem hmem
    -- a body of the file would be running, and the file is loaded by then
    rw [← List.cons_append, ← List.append_assoc] at hlegal hevicts hnamed
    have hruns := Ledger.runs_of_isInnermost (hnamed _ asking c rfl hparent)
    have hbefore : ∀ e ∈ before ++ .enter p context r start :: span ++ .leave p (.ok v) :: b,
        ¬ e.Evicts p := fun e he => hevicts e (List.mem_append_left _ he)
    obtain ⟨w, hloading⟩ := kept_of_runs hlegal.take hbefore hruns
    rw [(kept_of_left hlegal.take hspan hbefore).1] at hloading
    cases hloading
  have hasked : host.asked p span =
      (requires p (before ++ [.enter p context r start]) span).filterMap host.location? :=
    asked_eq_requires host _ span (.leave p (.ok v) :: after) (by simpa using hnamed)
  -- the entry was made as the body was entered, since that is the last event that makes one
  have hlast : (first ++ [.lookup call, .read q]) ++ e :: rest =
      before ++ .enter p context r start :: (span ++ .leave p (.ok v) :: after) := by
    simpa using hmade.symm.trans hsplit
  have hmakes : ∀ x ∈ span ++ .leave p (.ok v) :: after, ¬ x.Makes p := by
    have hleave : ¬ (Event.leave p (.ok v)).Makes p := fun ⟨_, hmade, _⟩ => by cases hmade
    simp only [List.forall_mem_append, List.forall_mem_cons]
    exact ⟨fun x hx hmakes => hduring x hx hmakes.touches, hleave,
      fun x hx hmakes => hsince x hx hmakes.touches⟩
  obtain ⟨rfl, rfl, rfl⟩ := eq_of_last (P := Event.Makes p) hlast ⟨q, he, hsame⟩
    ⟨p, rfl, Path.same_refl p⟩ hrest hmakes
  cases he
  refine ⟨entry, call, first, hentry, ?_, ?_, rfl, hlocation, hparent⟩
  · unfold CachedModule.standing at hstanding
    split at hstanding
    · assumption
    · cases hstanding
  · have hleave : host.asked p [.leave p (.ok v)] = [] := rfl
    rw [hchildren, host.asked_append, ← List.singleton_append, host.asked_append, hleave, hnone,
      List.append_nil, List.append_nil, hasked]

/-- The children of a loaded entry are the scripts and documents that the lookups of its body have
found, in the order in which they were found first and each of them once. Its parent is the file in
whose name the lookup was that had it loaded. Neither changes any more. -/
theorem dependencies_are_exact (host : Host σ η) (hlookup : host.lookup? = none) (store : σ)
    (depth : Nat) (program : Program σ η α) (s : State σ η)
    (hs : s = (host.exec depth program (State.initial store)).2) (p : Path)
    (before span after : History) (context : ContextId) (r : ExportsRef) (start v : Value)
    (hsplit : s.history = before ++ .enter p context r start :: span ++ .leave p (.ok v) :: after)
    (hspan : ∀ e ∈ span, ¬ e.Leaves p) (hevicts : ∀ e ∈ s.history, ¬ e.Evicts p)
    (hnamed : s.history.NamedByBody p) :
    ∃ entry call first, s.cache.get? p = some entry ∧ entry.loaded = true ∧
      entry.children = ((requires p (before ++ [.enter p context r start]) span).filterMap
        host.location?).eraseDupsBy Path.same ∧
      before = first ++ [.lookup call, .read p] ∧ host.location? call = some p ∧
      entry.parent? = some call.parent ∧
      ∀ (depth' : Nat) (later : Program σ η β) (t : State σ η),
        t = (host.exec depth' later s).2 → (∀ e ∈ t.history, ¬ e.Evicts p) →
        t.history.NamedByBody p → ∃ entry', t.cache.get? p = some entry' ∧
          entry'.children = entry.children ∧ entry'.parent? = entry.parent? := by
  have hkin : s.KinHolds host := hs ▸ (State.kinHolds_initial host store).exec hlookup depth program
  have hholds : s.LedgerHolds := hs ▸ host.ledgerHolds_exec depth program store
  obtain ⟨entry, call, first, hentry, hloaded, hchildren, hbefore, hlocation, hparent⟩ :=
    hkin.exists_entry hholds hsplit hspan hevicts hnamed
  refine ⟨entry, call, first, hentry, hloaded, hchildren, hbefore, hlocation, hparent, ?_⟩
  rintro depth' later t rfl hevicts' hnamed'
  obtain ⟨⟨c, hc⟩, hholds'⟩ := ((ledger_holdsOfSteps (ledger_serve host depth')).program later s).1
  have hsplit' : (host.exec depth' later s).2.history =
      before ++ .enter p context r start :: span ++ .leave p (.ok v) :: (after ++ c) := by
    refine hc.symm.trans ?_
    rw [hsplit, List.append_assoc, List.cons_append]
  obtain ⟨entry', call', first', hentry', -, hchildren', hbefore', -, hparent'⟩ :=
    (hkin.exec hlookup depth' later).exists_entry (hholds' hholds) hsplit' hspan hevicts' hnamed'
  have hcall : call' = call := by
    have hends := (List.append_inj' (hbefore'.symm.trans hbefore) rfl).2
    simpa using hends
  exact ⟨entry', hentry', hchildren'.trans hchildren.symm, by rw [hparent', hparent, hcall]⟩

/-- A host with a script that requires a file of every kind, and goes on if it gets an error. The
first that it requires requires another one in turn, and the last fails. -/
def relatedWorld : Host Unit Empty where
  files := ⟨[(["a.cjs"], .file (some "a")), (["b.cjs"], .file (some "b")),
    (["c.cjs"], .file (some "")),
    (["d.json"], .file (some "true")), (["e.cjs"], .file (some "e")), (["f.node"], .file none)]⟩
  config := {}
  builtins := ⟨"node:", [("os", .done (.string "os"))]⟩
  linkerBuiltins? := none
  scriptContext := ⟨0⟩
  compile _ _ := pure ⟨[], fun _ => throw (.engine "")⟩
  runScript text m :=
    match text with
    | "a" => do
      for id in ["./b.cjs", "os", "./d.json", "./b.cjs", "./a.cjs", "./f.node",
        "./g.cjs", "./e.cjs"] do
        let _ ← (Script.request (.require ⟨id, m.filename⟩)).attempt
    | "b" => do let _ ← Script.request (.require ⟨"./c.cjs", m.filename⟩)
    | "e" => throw (.engine "")
    | _ => pure ()
  hook h := nomatch h
  lookup? := none

def requireRelated (id : String) : Program Unit Empty (Except Error Value) :=
  .attempt (.require ⟨id, ⟨"/main.cjs"⟩⟩)

def relatedLoader : State Unit Empty :=
  (relatedWorld.exec 3 (requireRelated "./a.cjs") (State.initial ())).2

/-- Of the eight lookups of its body five find a script or a document, and two of them the same.
That another file requires one of them changes nothing. -/
theorem dependencies_are_exact_relatedLoader :
    let h := relatedLoader.history
    let t := (relatedWorld.exec 3 (requireRelated "./c.cjs") relatedLoader).2
    let a : Path := ⟨"/a.cjs"⟩
    (∀ e ∈ t.history, ¬ e.Evicts a) ∧ t.history.NamedByBody a ∧
      (h.filterMap Event.call?).map (·.id) = ["./a.cjs", "./b.cjs", "./c.cjs", "os", "./d.json",
        "./b.cjs", "./a.cjs", "./f.node", "./g.cjs", "./e.cjs"] ∧
      ∃ entry, relatedLoader.cache.get? a = some entry ∧
        entry.children = [⟨"/b.cjs"⟩, ⟨"/d.json"⟩, a, ⟨"/e.cjs"⟩] ∧
        entry.parent? = some ⟨"/main.cjs"⟩ ∧
        ∃ entry', t.cache.get? a = some entry' ∧ entry'.children = entry.children ∧
          entry'.parent? = entry.parent? := by
  intro h t a
  let span := (h.drop 3).take 26
  have hfacts : h[2]?.bind Event.entered? = some a ∧ h[29]?.bind Event.finished? = some a ∧
      (h.take 2).filterMap Event.call? = [⟨"./a.cjs", ⟨"/main.cjs"⟩⟩] ∧
      (h.filterMap Event.call?).map (·.id) = ["./a.cjs", "./b.cjs", "./c.cjs", "os", "./d.json",
        "./b.cjs", "./a.cjs", "./f.node", "./g.cjs", "./e.cjs"] ∧
      ((requires a (h.take 3) span).filterMap relatedWorld.location?).eraseDupsBy Path.same =
        [⟨"/b.cjs"⟩, ⟨"/d.json"⟩, a, ⟨"/e.cjs"⟩] ∧
      (∀ e ∈ span, ¬ e.Leaves a) ∧ (∀ e ∈ h, ¬ e.Evicts a) ∧ h.NamedByBody a ∧
      (∀ e ∈ t.history, ¬ e.Evicts a) ∧ t.history.NamedByBody a := by
    decide +kernel
  obtain ⟨hentered, hfinished, hasked, hids, hrequired, hspan, hevicts, hnamed,
    hevicts', hnamed'⟩ :=
    hfacts
  have hh : h = relatedLoader.history := rfl
  have ht : t = (relatedWorld.exec 3 (requireRelated "./c.cjs") relatedLoader).2 := rfl
  have hdef : span = (h.drop 3).take 26 := rfl
  clear_value span h t
  obtain ⟨_, hx, hentered⟩ := Option.bind_eq_some_iff.1 hentered
  obtain ⟨context, r, start, rfl⟩ := Event.exists_eq_of_entered? hentered
  obtain ⟨_, hy, hfinished⟩ := Option.bind_eq_some_iff.1 hfinished
  obtain ⟨v, rfl⟩ := Event.exists_eq_of_finished? hfinished
  have hdrop {i : Nat} {e : Event} (hi : h[i]? = some e) : h.drop i = e :: h.drop (i + 1) := by
    rw [List.drop_eq_getElem?_toList_append, hi]
    rfl
  have hsplit :
      h = h.take 2 ++ .enter a context r start :: span ++ .leave a (.ok v) :: h.drop 30 := by
    calc h = h.take 2 ++ h.drop 2 := (List.take_append_drop 2 h).symm
      _ = h.take 2 ++ .enter a context r start :: (span ++ (h.drop 3).drop 26) := by
        rw [hdrop hx, hdef, List.take_append_drop]
      _ = h.take 2 ++ .enter a context r start :: span ++ .leave a (.ok v) :: h.drop 30 := by
        rw [List.drop_drop, hdrop hy, List.append_assoc, List.cons_append]
  obtain ⟨entry, call, first, hentry, -, hchildren, hfirst, -, hparent, hlater⟩ :=
    dependencies_are_exact relatedWorld rfl () 3 (requireRelated "./a.cjs") relatedLoader rfl a
      (h.take 2) span (h.drop 30) context r start v (hh ▸ hsplit) hspan (hh ▸ hevicts) (hh ▸ hnamed)
  refine ⟨hevicts', hnamed', hids, entry, hentry, ?_, ?_, hlater 3 _ t ht hevicts' hnamed'⟩
  · rw [List.take_add_one, hx] at hrequired
    exact hchildren.trans hrequired
  · have hcall : [Event.lookup call, .read a].filterMap Event.call? = [call] := rfl
    rw [hfirst, List.filterMap_append, hcall] at hasked
    have hlast := (List.append_inj' (hasked.trans (List.nil_append _).symm) rfl).2
    rw [hparent, List.singleton_inj.1 hlast]

end ModuleLoader
