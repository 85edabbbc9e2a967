import ModuleLoader.Loader
import ModuleLoader.Proofs.LoadInvariant
import ModuleLoader.Proofs.Growth
/-!
Code that answers only with errors of a kind.

To say of the loader that it never answers with some error, one has to suppose
that the code it runs does not make that error up. A program fails within a set
of errors if all its failures are of the set as long as it is given only such
errors: by the calls it makes, and by the native functions it applies. What it
makes or installs is held to the same.
-/

namespace ModuleLoader

variable {σ η α β : Type}

/-! ### Native functions -/

def NativeCode.FailsWithin (E : Error → Prop) (code : NativeCode) : Prop :=
  ∀ arguments, Eff.Answers E (fun _ => True) (code arguments)

/-- The native functions on the heap fail only with errors of the set. -/
def Heap.FailsWithin (E : Error → Prop) (h : Heap) : Prop :=
  ∀ code ∈ h.functions, code.FailsWithin E

/-- Making the literal puts no other functions on the heap. -/
def Literal.FailsWithin (E : Error → Prop) (l : Literal) : Prop :=
  ∀ h : Heap, h.FailsWithin E → (l.make h).2.FailsWithin E

namespace Action

def FailsWithin (E : Error → Prop) : Action σ η → Prop
  | make l => l.FailsWithin E
  | _ => True

/-- The answer is one that can come of the action on a heap whose functions fail within the set. -/
def Admits (E : Error → Prop) : (a : Action σ η) → a.Reply → Prop
  | apply _ _, o => Eff.Answers E (fun _ => True) o
  | _, _ => True

theorem heap_carryOut {E : Error → Prop} {a : Action σ η} (ha : a.FailsWithin E) {s : State σ η}
    (hs : s.heap.FailsWithin E) : (a.carryOut s).2.heap.FailsWithin E := by
  cases a with
  | make l => exact ha s.heap hs
  | _ => exact hs

theorem admits_carryOut {E : Error → Prop} (a : Action σ η) {s : State σ η}
    (hs : s.heap.FailsWithin E) :
    a.Admits E (a.carryOut s).1 := by
  cases a with
  | apply f arguments =>
      change Eff.Answers E (fun _ => True) (s.heap.apply f arguments)
      unfold Heap.apply
      cases hf : s.heap.functions[f.index]? with
      | none => trivial
      | some code => exact hs code (Array.mem_of_getElem? hf) arguments
  | _ => trivial

end Action

/-! ### Programs -/

/-- The program fails only with errors of the set, and otherwise ends with a value of which `P`
holds, if it meets only such errors itself. -/
def Program.FailsWithin (E : Error → Prop) (P : α → Prop) : Program σ η α → Prop
  | .done a => P a
  | .panic _ => True
  | .act a next => a.FailsWithin E ∧ ∀ r, a.Admits E r → (next r).FailsWithin E P
  | .call _ next => ∀ r, Eff.Answers E (fun _ => True) r → (next r).FailsWithin E P

def Script.FailsWithin (E : Error → Prop) (P : α → Prop) (s : Script σ η α) : Prop :=
  Program.FailsWithin E (Eff.Answers E P) s.run

def Compiled.FailsWithin (E : Error → Prop) (c : Compiled σ η) : Prop :=
  ∀ env, (c.body env).FailsWithin E fun _ => True

def Host.FailsWithin (E : Error → Prop) (host : Host σ η) : Prop :=
  host.Every (fun _ P p => p.FailsWithin E P) E (Compiled.FailsWithin E)

variable {E : Error → Prop} {P : α → Prop} {Q : β → Prop}

theorem Program.FailsWithin.bind {p : Program σ η α} {f : α → Program σ η β}
    (hp : p.FailsWithin E P)
    (hf : ∀ a, P a → (f a).FailsWithin E Q) : (p.bind f).FailsWithin E Q := by
  induction p with
  | done a => exact hf a hp
  | panic m => trivial
  | act a next ih => exact ⟨hp.1, fun r hr => ih r (hp.2 r hr)⟩
  | call c next ih => exact fun r hr => ih r (hp r hr)

theorem Program.FailsWithin.imp {P' : α → Prop} {p : Program σ η α} (hp : p.FailsWithin E P)
    (hP : ∀ a, P a → P' a) : p.FailsWithin E P' := by
  induction p with
  | done a => exact hP a hp
  | panic m => trivial
  | act a next ih => exact ⟨hp.1, fun r hr => ih r (hp.2 r hr)⟩
  | call c next ih => exact fun r hr => ih r (hp r hr)

namespace Script

theorem FailsWithin.bind {s : Script σ η α} {f : α → Script σ η β} (hs : s.FailsWithin E P)
    (hf : ∀ a, P a → (f a).FailsWithin E Q) : (s >>= f).FailsWithin E Q := by
  refine Program.FailsWithin.bind (P := Eff.Answers E P) hs fun o ho => ?_
  cases o with
  | ok a => exact hf a ho
  | error e => exact ho

theorem failsWithin_pure {a : α} (h : P a) : (pure a : Script σ η α).FailsWithin E P := h

theorem failsWithin_throw {e : Error} (h : E e) : (throw e : Script σ η α).FailsWithin E P := h

theorem failsWithin_request (c : Call) :
    (request c : Script σ η c.Reply).FailsWithin E fun _ => True :=
  fun _ hr => hr

theorem failsWithin_perform {a : Action σ η} (ha : a.FailsWithin E) :
    (perform a : Script σ η a.Reply).FailsWithin E fun _ => True :=
  ⟨ha, fun _ _ => trivial⟩

theorem failsWithin_importModule (referrer : Referrer) (specifier : String) :
    (importModule referrer specifier : Script σ η Namespace).FailsWithin E fun _ => True :=
  (failsWithin_request _).bind fun _ _ => (failsWithin_request _).bind
    fun _ _ => failsWithin_request _

theorem failsWithin_runEntry (hE : ∀ p, E (.invalidEntry p)) (entry : Path)
    (context? : Option ContextId) :
    (runEntry entry context? : Script σ η RecordId).FailsWithin E fun _ => True := by
  unfold runEntry
  split
  · refine FailsWithin.bind (P := fun _ => True) ?_ fun context _ => ?_
    · cases context? with
      | none => exact failsWithin_perform trivial
      | some c => exact failsWithin_pure trivial
    · refine (failsWithin_request _).bind fun r _ => (failsWithin_request _).bind fun _ _ => ?_
      exact (failsWithin_request _).bind fun _ _ => failsWithin_pure trivial
  · exact failsWithin_throw (hE entry)

end Script

/-! ### All errors -/

theorem Program.failsWithin_of_forall (hP : ∀ a, P a) (p : Program σ η α) :
    p.FailsWithin (fun _ => True) P := by
  induction p with
  | done a => exact hP a
  | panic m => trivial
  | act a next ih =>
      refine ⟨?_, fun r _ => ih r⟩
      cases a with
      | make l =>
          intro _ _ code _ arguments
          exact Eff.answers_of_forall (fun _ => trivial) (fun _ => trivial) _
      | _ => trivial
  | call c next ih => exact fun r _ => ih r

theorem Compiled.failsWithin_true (c : Compiled σ η) : c.FailsWithin fun _ => True := fun _ =>
  Program.failsWithin_of_forall (Eff.answers_of_forall (fun _ => trivial) fun _ => trivial) _

theorem Host.failsWithin_true (host : Host σ η) : host.FailsWithin fun _ => True :=
  host.every_of_forall (fun _ _ p hP => p.failsWithin_of_forall hP) (fun _ => trivial)
    Compiled.failsWithin_true

/-! ### Running programs -/

/-- Such a program keeps what its calls keep and what its actions keep. -/
theorem Program.FailsWithin.keeps {I : State σ η → Prop}
    {serve serve' : (c : Call) → Eff σ η c.Reply}
    (hheap : ∀ s, I s → s.heap.FailsWithin E)
    (hact : ∀ (a : Action σ η) s, a.FailsWithin E → I s → I (a.carryOut s).2)
    (hserve : ∀ c, Eff.Keeps I E (fun _ => True) (serve c) (serve' c)) {p : Program σ η α}
    (hp : p.FailsWithin E P) (E' : Error → Prop) :
    Eff.Keeps I E' P (p.run serve) (p.run serve') := by
  induction p with
  | done a => exact .pure hp
  | panic m => exact .panic m
  | act a next ih =>
      refine .bind (P := a.Admits E) (.of_runIn fun s hs => ?_) fun r hr => ih r (hp.2 r hr)
      exact ⟨hact a s hp.1 hs, a.admits_carryOut (hheap s hs)⟩
  | call c next ih => exact .bind (hserve c).settle fun r hr => ih r (hp r hr)

end ModuleLoader
