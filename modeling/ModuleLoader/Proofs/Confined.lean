import ModuleLoader.Proofs.Bindings
/-!
Code that keeps to what it is handed.

Code has no references but those that it was given or made or was answered with. And of
contexts it uses no other than the one that it is handed. So whatever is foreign to all
that, the code has no way to it: if it is handed nothing that leads there then it will
neither read nor write there, and it hands on nothing that leads there. `Fence` is what
is foreign, and `Program.Confined` says of a program that it is so.

A state is sealed if nothing inside leads outside. It stays so under all that confined
code does, and all of this comes out the same whatever is in the objects outside.
-/

namespace ModuleLoader

variable {σ η α β : Type}

/-- What is kept apart: some contexts are inside, and some cells of the heap are foreign to them.
What is remembered between runs holds on to cells as well. -/
structure Fence (σ : Type) where
  own : ContextId → Prop
  holds : σ → Heap.Cell → Prop
  foreign : Heap.Cell → Prop

def Fence.Clean (k : Fence σ) (store : σ) : Prop := ∀ c, k.holds store c → ¬ k.foreign c

/-! ### Code -/

namespace Action

/-- The action is on nothing foreign, and gives nothing foreign away. The global object that it asks
for is that of a context inside. -/
def Confined (k : Fence σ) : Action σ η → Prop
  | make l => l.Avoids k.foreign
  | newNamespace exports => Properties.Avoids k.foreign exports
  | properties o => ¬ k.foreign (.object o)
  | setProperty o _ v => ¬ k.foreign (.object o) ∧ v.Avoids k.foreign
  | deleteProperty o _ => ¬ k.foreign (.object o)
  | apply f arguments => ¬ k.foreign (.function f.index) ∧ ∀ a ∈ arguments, a.Avoids k.foreign
  | globalObject c => k.own c
  | modifyStore f => ∀ store, k.Clean store → k.Clean (f store)
  | _ => True

/-- The answer to the action leads to nothing foreign. Of what scripts export nothing is said. -/
def Clean (k : Fence σ) : (a : Action σ η) → a.Reply → Prop
  | make _, v => v.Avoids k.foreign
  | newNamespace _, n => Properties.Avoids k.foreign n.contents
  | properties _, ps => Properties.Avoids k.foreign ps
  | apply .., r => ∀ v, r = .ok v → v.Avoids k.foreign
  | globalObject _, o => ¬ k.foreign (.object o)
  | store, remembered => k.Clean remembered
  | _, _ => True

end Action

def Call.Clean (F : Heap.Cell → Prop) : (c : Call) → c.Reply → Prop
  | require _, v => v.Avoids F
  | evaluate _, n => Properties.Avoids F n.contents
  | _, _ => True

/-- The program keeps inside as long as no answer leads outside. -/
def Program.Confined (k : Fence σ) (P : α → Prop) : Program σ η α → Prop
  | .done a => P a
  | .panic _ => True
  | .act a next => a.Confined k ∧ ∀ r, a.Clean k r → (next r).Confined k P
  | .call c next =>
    ∀ r, Eff.Answers (fun _ => True) (c.Clean k.foreign) r → (next r).Confined k P

/-- A host whose engine keeps to the context that it is handed, and to what comes with that. This is
so whatever is foreign to it. -/
structure Host.Confined (host : Host σ η) (own : ContextId → Prop) (holds : σ → Heap.Cell → Prop)
    (C : Compiled σ η → Prop) : Prop where
  compile : ∀ F text options, own options.context →
    (host.compile text options).run.Confined
      ⟨own, holds, F⟩ (Eff.Answers (fun _ => True) fun _ => True)
  body : ∀ F c, C c → ∀ env : ModuleEnvironment, own env.context →
    env.importer.context = env.context →
    (∀ entry ∈ env.imports.entries, Properties.Avoids F entry.2.contents) →
    (c.body env).run.Confined ⟨own, holds, F⟩
      (Eff.Answers (fun _ => True) fun n => Properties.Avoids F n.contents)

theorem Program.Confined.bind {k : Fence σ} {P : α → Prop} {Q : β → Prop} {p : Program σ η α}
    {f : α → Program σ η β} (hp : p.Confined k P) (hf : ∀ a, P a → (f a).Confined k Q) :
    (p.bind f).Confined k Q := by
  induction p with
  | done a => exact hf a hp
  | panic m => trivial
  | act a next ih => exact ⟨hp.1, fun r hr => ih r (hp.2 r hr)⟩
  | call c next ih => exact fun r hr => ih r (hp r hr)

theorem Script.confined_importModule (k : Fence σ) (referrer : Referrer) (specifier : String) :
    (Script.importModule referrer specifier : Script σ η Namespace).run.Confined k
      (Eff.Answers (fun _ => True) fun n => Properties.Avoids k.foreign n.contents) := by
  intro o _
  cases o with
  | error e => trivial
  | ok r =>
      intro o _
      cases o with
      | error e => trivial
      | ok _ =>
          intro o ho
          cases o with
          | error e => trivial
          | ok n => exact ho

/-! ### Sealed states -/

/-- The record belongs to a context inside, it is made from source, and if it has been evaluated
then its exports lead to nothing foreign. -/
def ModuleRecord.Inside (k : Fence σ) (C : Compiled σ η → Prop) (first : Nat)
    (a : ModuleRecord σ η) : Prop :=
  a.Within k.own (first ≤ ·.index) C ∧ (∃ m, a.kind = .source m) ∧
    ∀ n, a.phase.namespace? = some n → Properties.Avoids k.foreign n.contents

structure State.Sealed (k : Fence σ) (C : Compiled σ η → Prop) (first mark : Nat) (s : State σ η) :
    Prop where
  heap : s.heap.Closed k.foreign
  store : k.Clean s.store
  globals : ∀ c, k.own c → ¬ k.foreign (.object (s.context c).globals)
  records : s.NewRecords first (·.Inside k C first)
  mark : mark ≤ s.trace.size

namespace State.Sealed

variable {k : Fence σ} {C : Compiled σ η → Prop} {first mark : Nat} {s : State σ η}
  (h : s.Sealed k C first mark)

include h

theorem emit (e : Event) : (s.emit e).Sealed k C first mark where
  heap := h.heap
  store := h.store
  globals := h.globals
  records := h.records.congr rfl
  mark := Nat.le_trans h.mark (by simp [State.emit])

theorem withHeap {heap : Heap} (hheap : heap.Closed k.foreign) :
    State.Sealed k C first mark { s with heap } where
  heap := hheap
  store := h.store
  globals := h.globals
  records := h.records.congr rfl
  mark := h.mark

theorem add {a : ModuleRecord σ η} (ha : a.Inside k C first) : (s.add a).Sealed k C first mark :=
  ⟨h.heap, h.store, h.globals, h.records.add ha, h.mark⟩

theorem modifyRecord (r : RecordId) {f : ModuleRecord σ η → ModuleRecord σ η}
    (hf : ∀ a, a.Inside k C first → (f a).Inside k C first) :
    (s.modifyRecord r f).Sealed k C first mark :=
  ⟨h.heap, h.store, h.globals, h.records.modifyRecord hf, h.mark⟩

theorem newContext (name? : Option String) : (s.newContext name?).2.Sealed k C first mark where
  heap := h.heap.newObject Properties.avoids_empty
  store := h.store
  globals c hc := by
    by_cases hlt : c.index < (s.newContext name?).2.contexts.size
    · by_cases hold : c.index < s.contexts.size
      · rw [s.context_newContext_of_lt name? hold]
        exact h.globals c hc
      · rw [State.eq_next_of_newContext hlt hold, State.globals_newContext_next]
        exact h.heap.fresh_object (Nat.le_refl _)
    · -- a context that is not there yet stands for no context of its own
      rw [State.context_of_size_le (Nat.le_of_not_lt hlt)]
      have hle := Nat.le_trans (s.later_newContext name?).contexts (Nat.le_of_not_lt hlt)
      rw [← State.context_of_size_le hle]
      exact h.globals c hc
  records := h.records.congr rfl
  mark := h.mark

theorem carryOut {a : Action σ η} (ha : a.Confined k) :
    (a.carryOut s).2.Sealed k C first mark ∧ a.Clean k (a.carryOut s).1 := by
  cases a with
  | make l =>
      obtain ⟨hheap, hv⟩ := l.closed_make s.heap ha h.heap
      exact ⟨h.withHeap hheap, hv⟩
  | newNamespace exports => exact ⟨h.withHeap (h.heap.newNamespace exports), ha⟩
  | properties o => exact ⟨h, h.heap.objects o ha⟩
  | setProperty o key v =>
      exact ⟨h.withHeap (h.heap.setProperties ((h.heap.objects o ha.1).insert key ha.2)), trivial⟩
  | deleteProperty o key =>
      exact ⟨h.withHeap (h.heap.setProperties ((h.heap.objects o ha).erase key)), trivial⟩
  | apply f arguments =>
      refine ⟨h, fun v hv => ?_⟩
      change s.heap.apply f arguments = .ok v at hv
      unfold Heap.apply at hv
      split at hv
      · rename_i code hcode
        exact h.heap.functions f.index code ha.1 hcode arguments v ha.2 hv
      · cases hv
        exact Value.avoids_undefined
  | writeExports r value =>
      have hs : State.Sealed k C first mark
          { s with exports := s.exports.setIfInBounds r.index value } :=
        ⟨h.heap, h.store, h.globals, h.records.congr rfl, h.mark⟩
      exact ⟨hs.emit (.assign r value), trivial⟩
  | newContext name? => exact ⟨h.newContext name?, trivial⟩
  | globalObject c => exact ⟨h, h.globals c ha⟩
  | evict p =>
      have hs : State.Sealed k C first mark { s with cache := s.cache.erase p } :=
        ⟨h.heap, h.store, h.globals, h.records.congr rfl, h.mark⟩
      exact ⟨hs.emit (.evict p (s.cache.contains p)), trivial⟩
  | install hook => exact ⟨⟨h.heap, h.store, h.globals, h.records.congr rfl, h.mark⟩, trivial⟩
  | restore g => exact ⟨⟨h.heap, h.store, h.globals, h.records.congr rfl, h.mark⟩, trivial⟩
  | note line => exact ⟨h.emit (.note line), trivial⟩
  | store => exact ⟨h, h.store⟩
  | modifyStore f =>
      exact ⟨⟨h.heap, ha _ h.store, h.globals, h.records.congr rfl, h.mark⟩, trivial⟩
  | readExports r => exact ⟨h, trivial⟩
  | status r => exact ⟨h, trivial⟩
  | dependencies r => exact ⟨h, trivial⟩
  | isActive g => exact ⟨h, trivial⟩

end State.Sealed

/-! ### Other contents -/

/-- The state in which some objects have other properties. -/
def State.overlay (ρ : ObjectRef → Option Properties) (s : State σ η) : State σ η :=
  { s with heap := s.heap.overlay ρ }

section

variable {k : Fence σ} {C : Compiled σ η → Prop} {first mark : Nat} {s : State σ η}
  {ρ : ObjectRef → Option Properties} (hρ : ∀ o ps, ρ o = some ps → k.foreign (.object o))

include hρ

theorem Fence.contents_eq_none {o : ObjectRef} (ho : ¬ k.foreign (.object o)) : ρ o = none :=
  Option.eq_none_iff_forall_ne_some.2 fun ps hps => ho (hρ o ps hps)

/-- A new object has what is put into it. -/
theorem Fence.contents_of_size_le {h : Heap} (hh : h.Closed k.foreign) {o : ObjectRef}
    (ho : h.objects.size ≤ o.index) : ρ o = none :=
  contents_eq_none hρ (hh.fresh_object ho)

/-- What is done inside comes out the same whatever is in the objects outside. -/
theorem Action.carryOut_overlay (hs : s.Sealed k C first mark) {a : Action σ η}
    (ha : a.Confined k) :
    a.carryOut (s.overlay ρ) = ((a.carryOut s).1, (a.carryOut s).2.overlay ρ) := by
  cases a with
  | make l =>
      have hmake := l.make_overlay s.heap fun o ho => Fence.contents_of_size_le hρ hs.heap ho
      simp only [carryOut, State.overlay, hmake]
  | properties o =>
      have hprops := Heap.properties_overlay (h := s.heap) (Fence.contents_eq_none hρ ha)
      simp only [carryOut, State.overlay, hprops]
  | setProperty o key v =>
      have hnone := Fence.contents_eq_none hρ ha.1
      simp only [carryOut, State.overlay, Heap.set, Heap.properties_overlay hnone,
        Heap.overlay_setProperties hnone]
  | deleteProperty o key =>
      have hnone := Fence.contents_eq_none hρ ha
      simp only [carryOut, State.overlay, Heap.delete, Heap.properties_overlay hnone,
        Heap.overlay_setProperties hnone]
  | newContext name? =>
      have hnew := Fence.contents_of_size_le hρ hs.heap (o := ⟨s.heap.objects.size⟩) (Nat.le_refl _)
      simp only [carryOut, State.overlay, State.newContext, Heap.overlay_newObject hnew]
  | _ => rfl

end

end ModuleLoader
