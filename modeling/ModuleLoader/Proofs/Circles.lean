import Mathlib.Data.List.Chain
import ModuleLoader.Proofs.Dispatch
import ModuleLoader.Proofs.Imports
/-!
Circles that are reported are there.

When linking gives up because a graph goes round in a circle, it reports a chain
of names. The chain is put together from lineages that were copied from record
to record, and from a path that was compared to them as text. What it says is
nevertheless true of the modules: each requests the next, by a specifier that
leads to it from where it is, and the last of them is on the chain already
(`Linker.IsCircle`). So there is a circle to be reported, and a graph that has
none is never refused for one, however many ways there are to a file.

The first module of a graph that has requests at all is a file, and from there
on the names are normal forms of what was found (`Descent.Stands.isChain`). That
is why the path that closes the circle is in normal form too: it is one of the
names.
-/

namespace ModuleLoader

open Eff Path

variable {σ η β : Type}

/-! ### Requests between names -/

namespace Linker

/-- Among the records that are not older than so many there is one of the first name that requests
the second: it has a static request that, resolved against it, leads to a path with that for a
normal form. -/
inductive Requests (host : Host σ η) (t : State σ η) (n : Nat) : String → String → Prop
  | intro {x : RecordId} {a : ModuleRecord σ η} {specifier : String}
      {location : Location} {p : Path}
      (hnew : n ≤ x.index) (ha : t.record? x = some a) (hmem : specifier ∈ a.requests)
      (hresolve : resolve host specifier a.referrer = .ok location) (hp : location.path? = some p) :
      Requests host t n a.identifier p.normalize.text

/-- Each of the names requests the next, and the last is among those before it. -/
structure IsCircle (host : Host σ η) (t : State σ η) (n : Nat) (chain : List String) : Prop where
  requests : chain.IsChain (Requests host t n)
  closed : ∃ names name, chain = names ++ [name] ∧ name ∈ names

/-- A circle leads from one of its names back to that name. -/
theorem IsCircle.exists_transGen {host : Host σ η} {t : State σ η} {n : Nat} {chain : List String}
    (h : IsCircle host t n chain) :
    ∃ name ∈ chain, Relation.TransGen (Requests host t n) name name := by
  obtain ⟨names, name, rfl, hmem⟩ := h.closed
  have hpairs : (names ++ [name]).Pairwise (Relation.TransGen (Requests host t n)) :=
    List.isChain_iff_pairwise.1 (h.requests.imp fun _ _ => .single)
  exact ⟨name, List.mem_append_left _ hmem,
    (List.pairwise_append.1 hpairs).2.2 name hmem name (List.mem_singleton.2 rfl)⟩

end Linker

/-! ### The way down, by its names -/

/-- A source module is named by the normal form of the path that its specifier leads to. -/
theorem Linker.target_eq_source {host : Host σ η} {specifier name : String} {referrer : Referrer}
    (h : target host specifier referrer = .ok (.source, name)) :
    ∃ location p, resolve host specifier referrer = .ok location ∧ location.path? = some p ∧
      p.isAbsolute = true ∧ name = p.normalize.text := by
  obtain ⟨given, hplan, hname⟩ := target_eq_ok h
  obtain ⟨location, p, -, hresolve, hp, -, -, rfl⟩ := plan_eq_source hplan
  have habs := (Location.spelling_of_resolve hresolve hp).1
  refine ⟨location, p, hresolve, hp, habs, ?_⟩
  rcases builtName_of_isAbsolute habs hname with hnormal | ⟨⟨⟩, -⟩
  exact hnormal

section

variable {host : Host σ η} {t : State σ η} {r : RecordId} {reason : String} {n : Nat}

theorem ModuleRecord.BreaksOff.mem_requests {done : Forest} {specifier : String}
    {b : ModuleRecord σ η} (h : b.BreaksOff t reason done specifier) : specifier ∈ b.requests :=
  h.requests.subset (List.mem_append_right _ (List.mem_singleton.2 rfl))

/-- The record that a way down begins at is a source module. -/
theorem Descent.Stands.dispatch_eq {d : Descent} {b : ModuleRecord σ η}
    (h : d.Stands host t reason r) (hb : t.record? r = some b) : b.dispatch = .source := by
  obtain ⟨b', done, specifier, hb', hbroken⟩ := h.breaksOff (d.mem_way r)
  obtain rfl : b = b' := by simpa [hb] using hb'
  exact Linker.dispatch_of_mem_requests hbroken.mem_requests

/-- The names on a way down are canonical if the first is, and each requests the next. -/
theorem Descent.Stands.isChain {d : Descent} {b : ModuleRecord σ η} {names : List String}
    (h : d.Stands host t reason r) (hb : t.record? r = some b) (hfirst : Canonical ⟨b.identifier⟩)
    (hnew : ∀ x ∈ d.way r, n ≤ x.index)
    (hnames : (d.way r).map (fun x => (t.record? x).map ModuleRecord.identifier) = names.map some) :
    names.IsChain (Linker.Requests host t n) ∧ ∀ name ∈ names, Canonical ⟨name⟩ := by
  induction d generalizing r b names with
  | stop done specifier =>
      obtain rfl : names = [b.identifier] := by
        rw [way, List.map_singleton, hb] at hnames
        exact List.map_injective_iff.2 (Option.some_injective _) hnames.symm
      exact ⟨.singleton _, by simpa using hfirst⟩
  | down done specifier root rest ih =>
      obtain ⟨⟨b', c, hb', hbroken, hc, hchild⟩, hrest⟩ := h
      obtain rfl : b = b' := by simpa [hb] using hb'
      cases names with
      | nil => cases hnames
      | cons name names =>
          rw [way, List.map_cons, List.map_cons, hb, List.cons.injEq] at hnames
          obtain ⟨hname, hnames⟩ := hnames
          obtain rfl : b.identifier = name := Option.some.inj hname
          have htarget := hchild.target
          rw [hrest.dispatch_eq hc] at htarget
          obtain ⟨location, p, hresolve, hp, habs, hid⟩ := Linker.target_eq_source htarget
          have hcanonical : Canonical ⟨c.identifier⟩ := hid ▸ canonical_normalize habs
          obtain ⟨hchain, hall⟩ := ih hrest hc hcanonical
            (fun x hx => hnew x (List.mem_cons_of_mem _ hx)) hnames
          -- the names below begin with that of what was linked for the specifier
          obtain ⟨below, rfl⟩ : ∃ below, names = c.identifier :: below :=
            List.head?_eq_some_iff.1 ((head?_names hnames).trans (by rw [hc]; rfl))
          refine ⟨.cons_cons ?_ hchain, List.forall_mem_cons.2 ⟨hfirst, hall⟩⟩
          rw [hid]
          exact .intro (hnew r (mem_way _ r)) hb hbroken.mem_requests hresolve hp

theorem Descent.getLast?_way (d : Descent) (r : RecordId) :
    (d.way r).getLast? = some (d.last r).1 := by
  induction d generalizing r with
  | stop done specifier => rfl
  | down done specifier root rest ih =>
      rw [way, List.getLast?_cons, ih]
      rfl

/-- A chain that comes back on a way down is a circle. -/
theorem Descent.ComesBack.isCircle {d : Descent} {b : ModuleRecord σ η} {chain : List String}
    (h : d.ComesBack host t r chain) (hd : d.Stands host t reason r) (hb : t.record? r = some b)
    (hfirst : Canonical ⟨b.identifier⟩) (hnew : ∀ x ∈ d.way r, n ≤ x.index) :
    Linker.IsCircle host t n chain := by
  obtain ⟨names, c, p, hnames, hc, hmem, hfound, -, hback, rfl⟩ := h
  obtain ⟨location, hresolve, hp⟩ := Linker.resolveFile_eq_ok.1 hfound
  obtain ⟨hchain, hcanonical⟩ := hd.isChain hb hfirst hnew hnames
  refine ⟨hchain.append (.singleton _) fun x hx y hy => ?_, names, p.text, rfl, hback⟩
  have hlast := congrArg List.getLast? hnames
  rw [List.getLast?_map, List.getLast?_map, d.getLast?_way, Option.map_some, hc, Option.map_some]
    at hlast
  obtain rfl : c.identifier = x := by
    rw [Option.mem_def] at hx
    simpa [hx] using hlast
  obtain rfl : p.text = y := by simpa using hy
  have hnormal : p.normalize = p := (hcanonical p.text hback).normalize_eq
  rw [← hnormal]
  exact .intro (hnew _ (List.mem_of_getLast? (d.getLast?_way r))) hc hmem hresolve hp

end

/-! ### Graphs that are begun -/

namespace Linker

/-- From the first state on, a graph is begun at a record that there is by the second one. That is a
run, of an entry that nobody imports, or an import that is made by a module that is linked already.
-/
inductive Roots (host : Host σ η) (depth : Nat) (s : State σ η) (r : RecordId) (m : State σ η) :
    Prop
  | entry {entry : Path} {context? : Option ContextId} {c : ContextId} {u : State σ η}
      (habsolute : entry.isAbsolute)
      (hcontext : ((Script.contextFor context?).exec (serve host depth)).runIn s = (.ok c, u))
      (hbuild : (serve host depth (.buildSource entry.text (.root entry.text c))).runIn u =
        (.ok r, m))
  | imported {specifier identifier : String} {context : ContextId}
      (hlink : (serve host depth (.link specifier (.root identifier context))).runIn s = (.ok r, m))

section

variable {host : Host σ η} {E : Error → Prop} {B : Compiled σ η → Prop} {depth : Nat}
  {s m : State σ η} {r : RecordId}

/-- The record that a graph begins at is new and has an empty lineage, and if it is a source module
then its name is canonical. -/
theorem Roots.exists_fresh (hhost : host.CodeFailsWithin E B) (hs : s.Good host E B)
    (h : Roots host depth s r m) :
    m.Good host E B ∧ s.records.size ≤ r.index ∧ ∃ a, m.record? r = some a ∧ a.phase = .unlinked ∧
      a.lineage = [] ∧ (a.dispatch = .source → Canonical ⟨a.identifier⟩) := by
  have hkeepsGood := keepsGood_serve hhost depth
  cases h with
  | @entry entry _ c u habsolute hcontext hbuild =>
      have hcore := Script.Builds.core_contextFor hcontext
      have hrecords : u.records = s.records := congrArg (·.1) hcore
      have hu := hs.congr hrecords (congrArg (·.2.1) hcore)
      refine ⟨((hkeepsGood.call (.buildSource ..) u hu).of_eq_ok hbuild).1.1, ?_, ?_⟩
      · rw [← hrecords]
        exact size_le_of_buildSource hbuild
      · cases depth with
        | zero => simp [serve] at hbuild
        | succ depth =>
            obtain ⟨p, _, _, _, _, m', hp, -, -, -, rfl, rfl⟩ := buildSource_eq_ok hbuild
            refine ⟨_, State.records_add_next m' _, rfl, rfl, fun _ => ?_⟩
            rw [resolveFile_of_isAbsolute habsolute hp]
            exact canonical_normalize habsolute
  | @imported specifier identifier context hlink =>
      refine ⟨((hkeepsGood.call (.link ..) s hs).of_eq_ok hlink).1.1, size_le_of_link hlink, ?_⟩
      cases depth with
      | zero => simp [serve] at hlink
      | succ depth =>
          obtain ⟨name, kind, m', rfl, rfl, htarget⟩ := link_eq_ok hlink
          refine ⟨_, State.records_add_next m' _, rfl, rfl, fun hsource => ?_⟩
          rw [hsource] at htarget
          obtain ⟨_, p, -, -, habs, hname⟩ := target_eq_source htarget
          exact hname ▸ canonical_normalize habs

end

/-- A circle that is reported is one. Linking broke off at an edge, and if it is the linker that
refuses the edge then each name on the chain requests the next, and the last is among those before
it. Otherwise it was code of the host that answered with the error, in the state reached by then. -/
theorem reported_circles_go_round (host : Host σ η) (s : State σ η)
    (hs : s.Good host (fun _ => True) (Compiled.FailsWithin fun _ => True)) (depth : Nat) :
    (∀ r m chain u, Roots host depth s r m →
      (serve host depth (.linkModule r)).runIn m = (.error (.error (.circularImport chain)), u) →
      ∃ (d : Descent) (v : State σ η) (c : ModuleRecord σ η),
        d.Stands host u (Error.circularImport chain).message r ∧ d.Reaches host depth r c m v ∧
        ((plan host (d.last r).2 c.referrer = .error (.circularImport chain) ∧
            IsCircle host u s.records.size chain ∧
            chain.head? = (u.record? r).map ModuleRecord.identifier ∧
            ∃ name ∈ chain, Relation.TransGen (Requests host u s.records.size) name name) ∨
          PassesOnBelow host depth (d.last r).2 c.referrer (.circularImport chain) v u)) ∧
    (∀ specifier identifier context chain m,
      (serve host depth (.link specifier (.root identifier context))).runIn s =
        (.error (.error (.circularImport chain)), m) →
      PassesOnBelow host depth specifier (.root identifier context) (.circularImport chain) s m) ∧
    ∀ (entry : Path) context chain m,
      (serve host depth (.buildSource entry.text (.root entry.text context))).runIn s =
        (.error (.error (.circularImport chain)), m) →
      ∃ depth', depth = depth' + 1 ∧ HostFails host (serve host depth') (.root entry.text context)
        (.circularImport chain) s .source entry.text m := by
  refine ⟨fun r m chain u hroots hrun => ?_, fun _ _ _ _ _ h => passesOn_of_link rfl h,
    fun _ _ _ _ h => ?_⟩
  · have hfree := host.failsWithin_true.codeFailsWithin fun _ _ => trivial
    obtain ⟨hm, hnew, a, ha, hphase, hempty, hcanonical⟩ := hroots.exists_fresh hfree hs
    obtain ⟨d, v, c, hd, hway, hreaches, hcomes⟩ := circle_below hfree hm ha hphase hempty hnew hrun
    refine ⟨d, v, c, hd, hreaches, hcomes.imp_left ?_⟩
    rintro ⟨hplan, hback, hhead⟩
    obtain ⟨b, hb, hsame⟩ := bare_of_serve hrun ha
    have hfirst : Canonical ⟨b.identifier⟩ := by
      have hid : b.identifier = a.identifier := by
        have hname := congrArg ModuleRecord.identifier hsame
        exact hname
      have hkind : b.dispatch = a.dispatch := by
        have hkind := congrArg ModuleRecord.dispatch hsame
        exact hkind
      rw [hid]
      exact hcanonical (hkind ▸ hd.dispatch_eq hb)
    have hcircle := hback.isCircle hd hb hfirst fun x hx => hway x (List.mem_append_left _ hx)
    exact ⟨hplan, hcircle, hhead, hcircle.exists_transGen⟩
  · cases depth with
    | zero => simp [serve] at h
    | succ depth => exact ⟨depth, rfl, hostFails_of_buildSource id h⟩

/-- A module and another that import each other, and one that imports two modules each of which
imports a third. -/
def ringWorld : Host Unit Empty where
  files := ⟨[(["ping.mjs"], .file (some "ping")), (["pong.mjs"], .file (some "pong")),
    (["top.mjs"], .file (some "top")), (["left.mjs"], .file (some "side")),
    (["right.mjs"], .file (some "side")), (["leaf.mjs"], .file (some ""))]⟩
  config := {}
  builtins := ⟨"node:", []⟩
  linkerBuiltins? := none
  scriptContext := ⟨0⟩
  compile text _ := pure ⟨match text with
    | "ping" => ["./pong.mjs"]
    | "pong" => ["./ping.mjs"]
    | "top" => ["./left.mjs", "./right.mjs"]
    | "side" => ["./leaf.mjs"]
    | _ => [], fun _ => Script.perform (.newNamespace .empty)⟩
  runScript _ _ := pure ()
  hook h := nomatch h
  lookup? := none

def ringBuilt (entry : String) : Except Fault RecordId × State Unit Empty :=
  (ModuleLoader.serve ringWorld 4 (.buildSource entry (.root entry ⟨0⟩))).runIn (.initial ())

def ringLinked (entry : String) : Except Fault Unit × State Unit Empty :=
  (ModuleLoader.serve ringWorld 4 (.linkModule ⟨0⟩)).runIn (ringBuilt entry).2

/-- The first module is on a circle of two and is refused, and the third of the files can be reached
on two ways and is linked. -/
theorem reported_circles_go_round_ringWorld :
    error? (ringLinked "/ping.mjs").1 =
      some (.circularImport ["/ping.mjs", "/pong.mjs", "/ping.mjs"]) ∧
    IsCircle ringWorld (ringLinked "/ping.mjs").2 0 ["/ping.mjs", "/pong.mjs", "/ping.mjs"] ∧
    (ringLinked "/top.mjs").1.isOk := by
  have hbuilt : (ringBuilt "/ping.mjs").1.toOption = some ⟨0⟩ := by decide +kernel
  have hfails : error? (ringLinked "/ping.mjs").1 =
      some (.circularImport ["/ping.mjs", "/pong.mjs", "/ping.mjs"]) := by decide +kernel
  have habsolute : (⟨"/ping.mjs"⟩ : Path).isAbsolute := by decide +kernel
  have hcontext : ((Script.contextFor (some ⟨0⟩)).exec (ModuleLoader.serve ringWorld 4)).runIn
      (.initial ()) = (.ok ⟨0⟩, .initial ()) := rfl
  have hroots : Roots ringWorld 4 (.initial ()) ⟨0⟩ (ringBuilt "/ping.mjs").2 :=
    .entry habsolute hcontext (runIn_eq_ok_of_toOption hbuilt)
  obtain ⟨hlaw, -, -⟩ := reported_circles_go_round ringWorld (.initial ()) (State.good_initial ()) 4
  refine ⟨hfails, ?_, by decide +kernel⟩
  obtain ⟨d, v, c, -, -, hcomes⟩ := hlaw _ _ _ _ hroots (runIn_eq_error_of_error? hfails)
  rcases hcomes with ⟨-, hcircle, -⟩ | ⟨_, _, -, ⟨_, _, -, -, hfailed⟩, -⟩
  · exact hcircle
  · rcases hfailed with ⟨-, -, -, hrun⟩ | ⟨-, -, ⟨hf, -⟩ | ⟨-, -, -, hrun⟩, -⟩
    · cases hrun
    · cases hf
    · cases hrun

end Linker

end ModuleLoader
