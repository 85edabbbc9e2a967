import Mathlib.Data.List.Induction
import Mathlib.Data.List.Pairwise
import ModuleLoader.Proofs.Accounting
import ModuleLoader.Proofs.RunInvariant
/-!
Entries of files that are not loaded yet.

The entry of a script is there before its body runs, and it is settled when the
body ends, by path. In between anything may happen to it. It may be evicted, the
file may be loaded anew by the body's own doing, and that load may come to an end
first. So an entry and the body that made it need not stay together. What does
stay is weaker and is enough: an entry that is not settled is that of a file of
which some body is running. A body that ends takes with it the unsettled entry of
its file, whichever body made that, and other files have bodies of their own.

Whether an entry is found under its key depends on the list of entries being in
order. Each is filed under the path of its own file, and no two under one.
-/

namespace ModuleLoader

variable {σ η α : Type}

open History

/-! ### Bodies and entries -/

namespace History

variable {h before : History} {e : Event}

theorem loadingRuns_next (h : (ledger before).LoadingRuns) (hdue : Due before e) :
    ((ledger before).next e).LoadingRuns := by
  cases e with
  | enter p context r start => exact h.enter context r start
  | leave p outcome =>
      obtain ⟨r, rest, hrunning, -⟩ := hdue
      exact h.leave hrunning outcome
  | parse p value => exact h.settle (fun start hstart => by cases hstart) fun _ hmem _ => hmem
  | evict p dropped => exact h.settle (fun start hstart => by cases hstart) fun _ hmem _ => hmem
  | _ => exact h

/-- Whenever a file is being loaded a body of it runs. Files may be evicted at any time. -/
theorem Legal.loadingRuns (hlegal : h.Legal) : (ledger h).LoadingRuns := by
  induction h using List.reverseRecOn with
  | nil => intro p start hkept; cases hkept
  | append_singleton before e ih =>
      rw [ledger_concat]
      exact loadingRuns_next (ih hlegal.take) hlegal.due

end History

/-! ### The list of entries -/

namespace Cache

structure Filed (c : Cache) : Prop where
  filename : ∀ entry ∈ c.entries, entry.1.same entry.2.filename
  distinct : c.entries.Pairwise fun a b => ¬ a.1.same b.1

variable {c : Cache} {p : Path}

theorem filed_empty : empty.Filed := ⟨nofun, .nil⟩

/-- An entry is found under its own key. -/
theorem Filed.get?_of_mem (h : c.Filed) {entry : Path × CachedModule} (hentry : entry ∈ c.entries) :
    c.get? entry.1 = some entry.2 := by
  obtain ⟨found, hfound⟩ := Option.isSome_iff_exists.1
    (List.find?_isSome (p := (·.1.same entry.1)) |>.2 ⟨entry, hentry, Path.same_refl entry.1⟩)
  have hsame : found.1.same entry.1 := by simpa using List.find?_some hfound
  have heq : found = entry := by
    by_contra hne
    have : Std.Symm fun a b : Path × CachedModule => ¬ a.1.same b.1 :=
      ⟨fun _ _ => mt Path.same_symm⟩
    exact h.distinct.forall (List.mem_of_find?_eq_some hfound) hentry hne hsame
  rw [get?, hfound, Option.map_some, heq]

theorem Filed.modify (h : c.Filed) {f : CachedModule → CachedModule}
    (hf : ∀ m : CachedModule, p.same m.filename → p.same (f m).filename) :
    (c.modify p f).Filed where
  filename entry hentry := by
    obtain ⟨⟨key, m⟩, hm, rfl⟩ := List.mem_map.1 hentry
    have hkey := h.filename _ hm
    by_cases hsame : key.same p
    · simp only [if_pos hsame]
      exact Path.same_trans hsame (hf m (Path.same_trans (Path.same_symm hsame) hkey))
    · simpa only [if_neg hsame] using hkey
  distinct := by
    refine List.pairwise_map.2 (h.distinct.imp fun {a b} hne => ?_)
    dsimp only
    split <;> split <;> exact hne

theorem Filed.insert (h : c.Filed) {m : CachedModule} (hm : p.same m.filename) :
    (c.insert p m).Filed := by
  unfold Cache.insert
  by_cases hp : c.contains p
  · rw [if_pos hp]
    exact h.modify fun _ _ => hm
  · rw [if_neg hp]
    have hmiss : ∀ entry ∈ c.entries, ¬ entry.1.same p := by
      simpa [contains, get?, List.find?_eq_none] using hp
    refine ⟨fun entry hentry => ?_, List.pairwise_append.2 ⟨h.distinct, by simp, ?_⟩⟩
    · rcases List.mem_append.1 hentry with hold | hnew
      · exact h.filename entry hold
      · rw [List.mem_singleton.1 hnew]
        exact hm
    · intro entry hentry new hnew
      rw [List.mem_singleton.1 hnew]
      exact hmiss entry hentry

theorem Filed.addChild (h : c.Filed) (parent child : Path) : (c.addChild parent child).Filed :=
  h.modify fun m hm => by
    unfold CachedModule.addChild
    split <;> exact hm

theorem Filed.finish (h : c.Filed) (p : Path) (exports : Value) : (c.finish p exports).Filed :=
  h.modify fun _ hm => hm

theorem Filed.erase (h : c.Filed) (p : Path) : (c.erase p).Filed where
  filename entry hentry := h.filename entry (List.mem_filter.1 hentry).1
  distinct := h.distinct.filter _

end Cache

/-- What is done to the list of entries leaves it in order. -/
theorem survives_filed (host : Host σ η) : Survives (fun s => s.cache.Filed) host where
  emit _ _ _ hs := hs
  action a s hs := by cases a <;> first | exact hs | exact hs.erase _
  addChild s parent child hs := hs.addChild parent child
  enter s p parent _ hs := hs.insert (Path.same_refl p)
  leave s p outcome hs := by
    cases outcome with
    | ok exports => exact hs.finish p exports
    | error e => exact hs.erase p
  parse s p parent value hs := hs.insert (Path.same_refl p)
  add _ _ _ hs := hs
  modifyRecord _ _ _ _ hs := hs

theorem Host.filed_exec (host : Host σ η) (depth : Nat) (program : Program σ η α) (store : σ) :
    (host.exec depth program (State.initial store)).2.cache.Filed :=
  (survives_filed host).exec depth program Cache.filed_empty

/-! ### Lookups that fail -/

namespace Legacy

open Eff

variable {host : Host σ η} {serve : (c : Call) → Eff σ η c.Reply} {p parent : Path}
  {s t : State σ η} {e : Error}

theorem cache_fetch (host : Host σ η) (p : Path) (s : State σ η) :
    ((fetch host p).runIn s).2.cache = s.cache := by
  unfold fetch
  rw [runIn_bind, runIn_emit]
  cases host.files.read p <;> rfl

theorem get?_of_runBody_error {text : String} {r : ExportsRef}
    (h : (runBody host serve p text r).runIn s = (.error (.error e), t)) :
    t.cache.get? p = none := by
  unfold runBody at h
  rw [runIn_bind, runIn_settle] at h
  generalize (Script.exec serve _).runIn s = end_ at h
  obtain ⟨o | a, m⟩ := end_
  · cases o with
    | error cause =>
        cases h
        exact (Cache.get?_erase ..).trans (if_pos (Path.same_refl p))
    | panic message => cases h
    | outOfDepth => cases h
  · cases h

theorem get?_of_cached_error {load : Eff σ η Value}
    (hload : ∀ u, u.cache.get? p = none → load.runIn u = (.error (.error e), t) →
      t.cache.get? p = none)
    (h : (do modifyCache (·.addChild parent p)
             match (← get).cache.exports? p with
             | some exports => return exports
             | none => load : Eff σ η Value).runIn s = (.error (.error e), t)) :
    t.cache.get? p = none := by
  simp only [modifyCache, runIn_bind, runIn_modify, runIn_get] at h
  cases hcached : (s.cache.addChild parent p).exports? p with
  | some exports => rw [hcached] at h; cases h
  | none =>
      rw [hcached] at h
      exact hload { s with cache := s.cache.addChild parent p } (Option.map_eq_none_iff.1 hcached) h

theorem get?_of_loadScript_error
    (h : (loadScript host serve p parent).runIn s = (.error (.error e), t)) :
    t.cache.get? p = none := by
  refine get?_of_cached_error (fun u hu hrun => ?_) h
  have hcache := cache_fetch host p u
  rcases runIn_bind_eq_error.1 hrun with hfetch | ⟨text, m, -, hrun⟩
  · rw [hfetch] at hcache
    rwa [hcache]
  · exact get?_of_runBody_error hrun

/-- A document fails to load before it has an entry. -/
theorem get?_of_loadJson_error (h : (loadJson host p parent).runIn s = (.error (.error e), t)) :
    t.cache.get? p = none := by
  refine get?_of_cached_error (fun u hu hrun => ?_) h
  have hcache := cache_fetch host p u
  rcases runIn_bind_eq_error.1 hrun with hfetch | ⟨text, m, hfetch, hrun⟩
  · rw [hfetch] at hcache
    rwa [hcache]
  · rw [hfetch] at hcache
    cases hread : Json.read? text with
    | none =>
        rw [hread] at hrun
        cases hrun
        rwa [hcache]
    | some json => rw [hread] at hrun; cases hrun

theorem error_of_answering {x : Eff σ η Value}
    (h : (answering p x).runIn s = (.error (.error e), t)) :
    x.runIn s = (.error (.error e), t) := by
  rcases runIn_bind_eq_error.1 h with hx | ⟨v, m, -, hanswer⟩
  · exact hx
  · cases hanswer

/-- A lookup that no hook stands before, and that has found a file it can load, fails only where the
file has no entry in the end. -/
theorem get?_of_require_error {call : LookupCall} {found : Resolution}
    (hlookup : host.lookup? = none) (hlayers : s.hooks.layers = [])
    (hfound : RequireId.resolve host.files host.builtins call.id call.parent = .ok found)
    (hp : found = .script p ∨ found = .json p)
    (h : (require host serve call).runIn s = (.error (.error e), t)) : t.cache.get? p = none := by
  rw [runIn_require_of_layers_eq_nil hlayers hlookup, load, hfound] at h
  rcases hp with rfl | rfl
  · exact get?_of_loadScript_error (error_of_answering h)
  · exact get?_of_loadJson_error (error_of_answering h)

end Legacy

/-- An entry that is not loaded is that of a file of which a body is running. -/
theorem State.LedgerHolds.runs_of_mem {s : State σ η} (h : s.LedgerHolds) (hfiled : s.cache.Filed)
    {entry : Path × CachedModule} (hentry : entry ∈ s.cache.entries)
    (hloaded : entry.2.loaded = false) : s.history.ledger.Runs entry.1 := by
  refine h.legal.loadingRuns entry.1 entry.2.exports ?_
  rw [h.kept, hfiled.get?_of_mem hentry, Option.map_some, CachedModule.standing]
  simp [hloaded]

/-- While an entry is not loaded a body of its file is running, at every moment and whatever is run.
When no body runs all entries are loaded, and a lookup without hooks that fails leaves no entry for
its file. -/
theorem no_half_loaded (host : Host σ η) (store : σ) (depth : Nat) (program : Program σ η α)
    (o : Except Fault α) (s : State σ η)
    (hrun : host.exec depth program (State.initial store) = (o, s)) :
    (∀ entry ∈ s.cache.entries, entry.1.same entry.2.filename ∧
      s.cache.get? entry.1 = some entry.2 ∧
      (entry.2.loaded = false → s.history.ledger.Runs entry.1)) ∧
    (∀ before, before <+: s.history → ∀ p start,
      (ledger before).kept p = some (.loading start) → (ledger before).Runs p) ∧
    (s.history.ledger.running = [] → ∀ entry ∈ s.cache.entries, entry.2.loaded = true) ∧
    ((∃ a, o = .ok a) → s.history.ledger.running = []) ∧
    (host.lookup? = none → ∀ (depth' : Nat) (call : LookupCall) (found : Resolution) (p : Path)
      (u t : State σ η) (e : Error),
      RequireId.resolve host.files host.builtins call.id call.parent = .ok found →
      found = .script p ∨ found = .json p → u.hooks.layers = [] →
      (serve host depth' (.require call)).runIn u = (.error (.error e), t) →
      t.cache.get? p = none) := by
  have hholds : s.LedgerHolds := by simpa [hrun] using host.ledgerHolds_exec depth program store
  have hfiled : s.cache.Filed := by simpa [hrun] using host.filed_exec depth program store
  have hruns : ∀ entry ∈ s.cache.entries, entry.2.loaded = false →
      s.history.ledger.Runs entry.1 := fun entry => hholds.runs_of_mem hfiled
  refine ⟨fun entry hentry => ⟨hfiled.filename entry hentry, hfiled.get?_of_mem hentry,
    hruns entry hentry⟩, ?_, fun hrunning entry hentry => ?_, ?_, ?_⟩
  · rintro before ⟨after, hafter⟩
    exact (hafter ▸ hholds.legal).take.loadingRuns
  · by_contra hloaded
    obtain ⟨script, hscript, -⟩ := hruns entry hentry (by simpa using hloaded)
    rw [hrunning] at hscript
    cases hscript
  · rintro ⟨a, rfl⟩
    have hcourse := (ledger_holdsOfSteps (ledger_serve host depth)).program program
      (State.initial store)
    exact (hcourse.of_eq_ok hrun).1.2
  · intro hlookup depth' call found p u t e hfound hp hlayers hfails
    cases depth' with
    | zero => cases hfails
    | succ depth' => exact Legacy.get?_of_require_error hlookup hlayers hfound hp hfails

def failingWorld : Host Unit Empty where
  files := ⟨[(["a.cjs"], .file (some ""))]⟩
  config := {}
  builtins := ⟨"node:", []⟩
  linkerBuiltins? := none
  scriptContext := ⟨0⟩
  compile _ _ := pure ⟨[], fun _ => throw (.engine "")⟩
  runScript _ m := do
    let _ ← Script.request (.require ⟨"./a.cjs", m.filename⟩)
    throw (.engine "failed")
  hook h := nomatch h
  lookup? := none

def failingCall : LookupCall := ⟨"./a.cjs", ⟨"/main.cjs"⟩⟩

/-- While the body of the script runs its file is kept as being loaded, and when the body has failed
the file has no entry. -/
theorem no_half_loaded_failingWorld :
    let s := (failingWorld.exec 3 (.attempt (.require failingCall)) (State.initial ())).2
    (∃ before start, before <+: s.history ∧
      (ledger before).kept ⟨"/a.cjs"⟩ = some (.loading start) ∧
      (ledger before).Runs ⟨"/a.cjs"⟩) ∧
    s.history.ledger.running = [] ∧
    ((serve failingWorld 3 (.require failingCall)).runIn (State.initial ())).2.cache.get?
      ⟨"/a.cjs"⟩ = none := by
  intro s
  let failed : Error := .engine "failed"
  obtain ⟨-, hkept, -, hended, hfails⟩ := no_half_loaded failingWorld () 3
    (.attempt (.require failingCall)) (.ok (.error failed)) s (Prod.ext rfl rfl)
  refine ⟨⟨_, .object ⟨0⟩, List.take_prefix 3 _, rfl, hkept _ (List.take_prefix 3 _) _ _ rfl⟩,
    hended ⟨_, rfl⟩, ?_⟩
  exact hfails rfl 3 failingCall (.script ⟨"/a.cjs"⟩) ⟨"/a.cjs"⟩ (State.initial ()) _ failed rfl
    (.inl rfl) rfl (Prod.ext rfl rfl)

end ModuleLoader
