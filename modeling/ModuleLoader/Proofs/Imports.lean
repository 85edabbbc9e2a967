import ModuleLoader.Proofs.Cycle
import ModuleLoader.Proofs.HostErrors
import ModuleLoader.Proofs.Phases
/-!
Imports that a module makes while it runs.

The module is suspended in the middle of its evaluation, with all that is
evaluated for it on the way, and the import may suspend further modules before it
comes back. What it comes back with is whole: a record of its own, and a static
tree below it of which every record is evaluated. The records of the tree are
new, whatever files they are made from, and the module that asked is left exactly
as it was.

The chain that the import begins with is empty. So when it is refused because its
static graph goes round in a circle, the circle is one of that graph. The chain
that is reported begins at the module that was imported, follows requests, and
ends where it comes back to itself; who asked for the import does not come into
it.
-/

namespace ModuleLoader

open Eff

variable {σ η α : Type}

/-! ### Circles that the linker reports -/

namespace Linker

variable {host : Host σ η} {serve : (c : Call) → Eff σ η c.Reply} {specifier : String}
  {referrer : Referrer} {chain : List String} {s t : State σ η}

/-- The specifier means a source file that is on the chain of the referrer already. -/
structure ClosesCircle (host : Host σ η) (specifier : String) (referrer : Referrer) (p : Path) :
    Prop where
  found : resolveFile host specifier referrer = .ok p
  source : host.config.detect host.files p = .ok (some .source)
  onChain : p.text ∈ referrer.lineage

theorem plan_eq_circular (h : plan host specifier referrer = .error (.circularImport chain)) :
    ∃ p, ClosesCircle host specifier referrer p ∧ chain = referrer.lineage ++ [p.text] := by
  unfold plan at h
  split at h
  · cases h
  cases hresolve : resolve host specifier referrer with
  | error e =>
      have hplain := plain_resolve host specifier referrer
      rw [hresolve] at h hplain
      cases h
      exact hplain.elim
  | ok location =>
      cases hp : location.path? with
      | none => simp [hresolve, hp] at h
      | some p =>
          have hplain := host.config.plain_detect host.files p
          cases hdetect : host.config.detect host.files p with
          | error e =>
              simp only [hresolve, hp, hdetect] at h hplain
              cases h
              exact hplain.elim
          | ok d =>
              rcases d with - | d
              · simp [hresolve, hp, hdetect] at h
              · cases d with
                | synthetic => simp [hresolve, hp, hdetect] at h
                | source =>
                    simp only [hresolve, hp, hdetect] at h
                    split at h
                    · rename_i hchain
                      cases h
                      exact ⟨p, ⟨resolveFile_eq_ok.2 ⟨location, hresolve, hp⟩, hdetect,
                        by simpa using hchain⟩, rfl⟩
                    · cases h

/-- The error is not the linker's own. There was a record to be built, and when that was tried it
was code that the host runs that answered with the error. -/
def PassesOn (host : Host σ η) (serve : (c : Call) → Eff σ η c.Reply) (specifier : String)
    (referrer : Referrer) (e : Error) (s t : State σ η) : Prop :=
  ∃ d name, plan host specifier referrer = .ok (d, name) ∧
    (build host serve d name referrer).runIn s = (.error (.error e), t) ∧
    HostFails host serve referrer e s d name t

/-- A link that reports a circle has come to a file that closes one, or the error is passed on. -/
theorem circular_of_link
    (h : (link host serve specifier referrer).runIn s =
      (.error (.error (.circularImport chain)), t)) :
    plan host specifier referrer = .error (.circularImport chain) ∨
      PassesOn host serve specifier referrer (.circularImport chain) s t := by
  rw [link_eq_plan] at h
  rcases runIn_bind_eq_error.1 h with hrefused | ⟨⟨d, name⟩, m, hplanned, hbuild⟩
  · exact .inl (runIn_ofExcept_eq_error.1 hrefused).1
  · obtain ⟨hplan, rfl⟩ := runIn_ofExcept_eq_ok.1 hplanned
    exact .inr ⟨d, name, hplan, hbuild, hostFails_of_build id hbuild⟩

end Linker

/-! ### The way to a circle -/

theorem ModuleRecord.referrer_of_bare {a b : ModuleRecord σ η} (h : b.bare = a.bare) :
    b.referrer = a.referrer := by
  have hreferrer := congrArg ModuleRecord.referrer h
  exact hreferrer

theorem State.record?_of_bare {s t : State σ η} (h : t.bare = s.bare) {x : RecordId}
    {a : ModuleRecord σ η} (ha : s.record? x = some a) :
    ∃ b, t.record? x = some b ∧ b.bare = a.bare := by
  have hmap : (t.record? x).map ModuleRecord.bare = (s.record? x).map ModuleRecord.bare := by
    have hat := congrArg (fun u : State σ η => u.records[x.index]?) h
    simpa only [State.bare, State.record?, Array.getElem?_map] using hat
  rw [ha] at hmap
  exact Option.map_eq_some_iff.1 hmap

namespace Descent

variable {host : Host σ η} {t : State σ η} {r : RecordId} {d : Descent} {reason : String}
  {chain : List String}

/-- The chain is that of the way down, by the names of the records on it, and at its end a source
file that is on it already. That file is what the last record on the way requests. -/
def ComesBack (host : Host σ η) (t : State σ η) (r : RecordId) (chain : List String)
    (d : Descent) : Prop :=
  ∃ names c p, (d.way r).map (fun x => (t.record? x).map ModuleRecord.identifier) = names.map some ∧
    t.record? (d.last r).1 = some c ∧ (d.last r).2 ∈ c.requests ∧
    Linker.resolveFile host (d.last r).2 c.referrer = .ok p ∧
    host.config.detect host.files p = .ok (some .source) ∧
    p.text ∈ names ∧ chain = names ++ [p.text]

theorem head?_names {names : List String}
    (hnames : (d.way r).map (fun x => (t.record? x).map ModuleRecord.identifier) = names.map some) :
    names.head? = (t.record? r).map ModuleRecord.identifier := by
  have hfirst : (d.way r).head? = some r := by cases d <;> rfl
  have hhead := congrArg List.head? hnames
  rw [List.head?_map, List.head?_map, hfirst] at hhead
  cases names with
  | nil => cases hhead
  | cons name names => exact (Option.some.inj hhead).symm

/-- A chain that comes back begins with the name of the record that the way begins at. -/
theorem ComesBack.head? (h : d.ComesBack host t r chain) :
    chain.head? = (t.record? r).map ModuleRecord.identifier := by
  obtain ⟨names, c, p, hnames, -, -, -, -, hmem, rfl⟩ := h
  rw [← head?_names hnames]
  exact List.head?_append_of_ne_nil _ (List.ne_nil_of_mem hmem)

/-- The chain of the last record on the way is that of the first one and the way. -/
theorem Stands.exists_last {b : ModuleRecord σ η} (h : d.Stands host t reason r)
    (hb : t.record? r = some b) :
    ∃ c names, t.record? (d.last r).1 = some c ∧ (d.last r).2 ∈ c.requests ∧
      (d.way r).map (fun x => (t.record? x).map ModuleRecord.identifier) = names.map some ∧
      c.chain = b.lineage ++ names := by
  induction d generalizing r b with
  | stop done specifier =>
      obtain ⟨b', hb', hbroken⟩ := h
      obtain rfl : b = b' := by simpa [hb] using hb'
      refine ⟨b, [b.identifier], hb, hbroken.requests.subset (by simp [last]), ?_, rfl⟩
      rw [way, List.map_singleton, hb]
      rfl
  | down done specifier root rest ih =>
      obtain ⟨⟨b', c, hb', -, hc, hchild⟩, hrest⟩ := h
      obtain rfl : b = b' := by simpa [hb] using hb'
      obtain ⟨e, names, he, hrequests, hnames, hchain⟩ := ih hrest hc
      refine ⟨e, b.identifier :: names, he, hrequests, ?_, ?_⟩
      · rw [way, List.map_cons, hnames, hb]
        rfl
      · rw [hchain, hchild.lineage, List.append_assoc]
        rfl

end Descent

/-- The edges on a way down but for the last were linked one after the other, and in the state that
this has led to the record of the last one is being linked. -/
structure Descent.Reaches (host : Host σ η) (depth : Nat) (r : RecordId) (c : ModuleRecord σ η)
    (d : Descent) (s t : State σ η) : Prop where
  links : Linker.Links host depth (d.preorder r) s t
  record : t.record? (d.last r).1 = some c
  phase : c.phase = .linking

/-- In the first state the error is passed on, one call further down. After that nothing has changed
but how far records have come. -/
def Linker.PassesOnBelow (host : Host σ η) (depth : Nat) (specifier : String) (referrer : Referrer)
    (e : Error) (s t : State σ η) : Prop :=
  ∃ depth' u, depth = depth' + 1 ∧ PassesOn host (serve host depth') specifier referrer e s u ∧
    t.bare = u.bare

/-! ### What is new -/

theorem Forest.exists_mem_preorder {f : Forest} (r : RecordId) {x : RecordId}
    (hx : x ∈ f.postorder) : ∃ e ∈ f.preorder r, e.2.2 = x := by
  induction f generalizing r with
  | nil => exact absurd hx List.not_mem_nil
  | cons specifier root below rest ihbelow ihrest =>
      rw [postorder, List.mem_append, List.mem_cons] at hx
      rcases hx with hx | rfl | hx
      · obtain ⟨e, he, hend⟩ := ihbelow root hx
        exact ⟨e, List.mem_cons_of_mem _ (List.mem_append_left _ he), hend⟩
      · exact ⟨(r, specifier, x), List.mem_cons_self, rfl⟩
      · obtain ⟨e, he, hend⟩ := ihrest r hx
        exact ⟨e, List.mem_cons_of_mem _ (List.mem_append_right _ he), hend⟩

theorem Descent.exists_mem_preorder {d : Descent} {r x : RecordId} (hx : x ∈ d.way r ++ d.done) :
    x = r ∨ ∃ e ∈ d.preorder r, e.2.2 = x := by
  induction d generalizing r with
  | stop done specifier =>
      rcases List.mem_append.1 hx with hx | hx
      · exact .inl (List.mem_singleton.1 hx)
      · exact .inr (done.exists_mem_preorder r hx)
  | down done specifier root rest ih =>
      have hlater : x ∈ rest.way root ++ rest.done →
          ∃ e ∈ (down done specifier root rest).preorder r, e.2.2 = x := fun hx => by
        rcases ih hx with rfl | ⟨e, he, hend⟩
        · exact ⟨(r, specifier, x), List.mem_append_right _ List.mem_cons_self, rfl⟩
        · exact ⟨e, List.mem_append_right _ (List.mem_cons_of_mem _ he), hend⟩
      rcases List.mem_append.1 hx with hx | hx
      · rcases List.mem_cons.1 hx with rfl | hx
        · exact .inl rfl
        · exact .inr (hlater (List.mem_append_left _ hx))
      · rcases List.mem_append.1 hx with hx | hx
        · obtain ⟨e, he, hend⟩ := done.exists_mem_preorder r hx
          exact .inr ⟨e, List.mem_append_left _ he, hend⟩
        · exact .inr (hlater (List.mem_append_right _ hx))

section

variable {host : Host σ η} {depth : Nat}

/-- Records only come to be, and what a link hands out has come to be on its way. -/
theorem loadInvariant_size (n : Nat) (host : Host σ η) (depth : Nat) :
    LoadInvariant (fun s => n ≤ s.records.size) (fun _ => True) (fun _ => True)
      (fun r => n ≤ r.index)
      host (serve host depth) (serve host depth) where
  core s t heq hs := by
    have hrecords : t.records = s.records := congrArg (·.1) heq
    rwa [hrecords]
  error _ _ := trivial
  add s _ _ _ hs _ := ⟨by rw [State.size_add]; exact Nat.le_succ_of_le hs, hs⟩
  foreign := by
    have hcall (c : Call) : Keeps (fun s => n ≤ s.records.size) (fun _ => True) (fun _ => True)
        (serve host depth c) (serve host depth c) :=
      .of_runIn fun s hs => ⟨Nat.le_trans hs (size_le_of_serve (Prod.ext rfl rfl)), ends_true _⟩
    refine host.every_of_forall (fun _ _ p hP E' => ?_) (fun _ => trivial) fun _ => trivial
    refine (p.keeps_run (fun a s hs => ?_) hcall E').imp (fun _ h => h) fun a _ => hP a
    rwa [a.records_carryOut]

theorem size_le_of_link {specifier : String} {referrer : Referrer} {s t : State σ η} {r : RecordId}
    (h : (serve host depth (.link specifier referrer)).runIn s = (.ok r, t)) :
    s.records.size ≤ r.index := by
  cases depth with
  | zero => simp [serve] at h
  | succ depth =>
      have hlink := (loadInvariant_size s.records.size host depth).link (fun _ => trivial)
        specifier referrer
      exact (hlink.of_eq_ok (Nat.le_refl _) h).2

theorem size_le_of_buildSource {specifier : String} {referrer : Referrer} {s t : State σ η}
    {r : RecordId} (h : (serve host depth (.buildSource specifier referrer)).runIn s = (.ok r, t)) :
    s.records.size ≤ r.index := by
  cases depth with
  | zero => simp [serve] at h
  | succ depth =>
      have hbuild := (loadInvariant_size s.records.size host depth).buildSource specifier referrer
      exact (hbuild.of_eq_ok (Nat.le_refl _) h).2

theorem State.size_of_bare {s t : State σ η} (h : t.bare = s.bare) :
    t.records.size = s.records.size := by
  have hsize := congrArg (fun u : State σ η => u.records.size) h
  simpa only [State.bare, Array.size_map] using hsize

/-- Every edge that is linked leads to a new record. -/
theorem Linker.Links.size_le {es : List (RecordId × String × RecordId)} {s t : State σ η}
    (h : Linker.Links host depth es s t) : ∀ e ∈ es, s.records.size ≤ e.2.2.index := by
  induction h with
  | nil => exact fun _ he => absurd he List.not_mem_nil
  | cons hbare _ _ hlink _ ih =>
      intro e he
      rw [← State.size_of_bare hbare]
      rcases List.mem_cons.1 he with rfl | he
      · exact size_le_of_link hlink
      · exact Nat.le_trans (size_le_of_serve hlink) (ih e he)

end

/-! ### Imports -/

section

variable {host : Host σ η} {E : Error → Prop} {B : Compiled σ η → Prop} {depth : Nat}
  {referrer : Referrer} {specifier : String} {chain : List String} {s t m u : State σ η}
  {r : RecordId} {o : Except Fault Namespace}

theorem follows_importModule (hhost : host.CodeFailsWithin E B) (hs : s.Good host E B)
    (hrun : ((Script.importModule referrer specifier).exec (serve host depth)).runIn s = (o, t)) :
    t.Good host E B ∧ State.Follows s t :=
  (host.leads_op hhost depth (Script.failsWithin_importModule referrer specifier) hs).of_eq hrun

/-- The record that an import begins with. -/
theorem fresh_of_link
    (hlink : (serve host depth (.link specifier referrer)).runIn s = (.ok r, m)) :
    ∃ name kind, m.record? r = some (.fresh name referrer kind) := by
  cases depth with
  | zero => simp [serve] at hlink
  | succ depth =>
      obtain ⟨name, kind, m', rfl, rfl, -⟩ := Linker.link_eq_ok hlink
      exact ⟨name, kind, State.records_add_next m' _⟩

/-- If an import has a namespace, then this is that of the record it began with, and all that is
below the record is evaluated. -/
theorem evaluated_of_importModule (hhost : host.CodeFailsWithin E B)
    (hs : s.Good host E B) {n : Namespace}
    (hrun : ((Script.importModule referrer specifier).exec (serve host depth)).runIn s =
      (.ok n, t)) :
    ∃ r m, (serve host depth (.link specifier referrer)).runIn s = (.ok r, m) ∧
      (∃ b, t.record? r = some b ∧ b.phase = .evaluated n) ∧
      ∀ path x, t.along r path = some x → ∃ b n', t.record? x = some b ∧
        b.phase = .evaluated n' := by
  have ht := (follows_importModule hhost hs hrun).1
  rw [Script.exec_importModule] at hrun
  obtain ⟨r, m, hlink, hrun⟩ := runIn_bind_eq_ok.1 hrun
  obtain ⟨_, u, hlinked, heval⟩ := runIn_bind_eq_ok.1 hrun
  have hkeepsGood := keepsGood_serve hhost depth
  have hm := ((hkeepsGood.call (.link specifier referrer) s hs).of_eq_ok hlink).1.1
  have hu := ((hkeepsGood.call (.linkModule r) m hm).of_eq_ok hlinked).1.1
  obtain ⟨b, hb, hphase⟩ := hkeepsGood.evaluate r u n t hu heval
  refine ⟨r, m, hlink, ⟨b, hb, hphase⟩, fun path x hx => ?_⟩
  have hdone : b.status = .evaluated := by rw [ModuleRecord.status, hphase]; rfl
  obtain ⟨c, hc, hcdone⟩ := ht.sound.evaluated_of_along hb hdone hx
  obtain ⟨n', hn'⟩ := (ht.formed hc).exists_of_evaluated hcdone
  exact ⟨c, n', hc, hn'⟩

/-- Nothing closes a circle on an empty chain. -/
theorem passesOn_of_link (hempty : referrer.lineage = [])
    (hlink : (serve host depth (.link specifier referrer)).runIn s =
      (.error (.error (.circularImport chain)), m)) :
    Linker.PassesOnBelow host depth specifier referrer (.circularImport chain) s m := by
  cases depth with
  | zero => simp [serve] at hlink
  | succ depth =>
      rcases Linker.circular_of_link hlink with hplan | hpassed
      · obtain ⟨p, hp, -⟩ := Linker.plan_eq_circular hplan
        have hmem := hp.onChain
        rw [hempty] at hmem
        exact absurd hmem List.not_mem_nil
      · exact ⟨depth, m, rfl, hpassed, rfl⟩

/-- If a new record on an empty chain cannot be linked because of a circle, then linking broke off
on a way down from the record on which everything is new. At the last edge the linker has come back,
or the error is passed on. -/
theorem circle_below (hhost : host.CodeFailsWithin E B)
    (hm : m.Good host E B) {a : ModuleRecord σ η}
    (ha : m.record? r = some a) (hphase : a.phase = .unlinked) (hempty : a.lineage = []) {n : Nat}
    (hnew : n ≤ r.index)
    (hrun : (serve host depth (.linkModule r)).runIn m =
      (.error (.error (.circularImport chain)), u)) :
    ∃ (d : Descent) (v : State σ η) (c : ModuleRecord σ η),
      d.Stands host u (Error.circularImport chain).message r ∧
      (∀ x ∈ d.way r ++ d.done, n ≤ x.index) ∧ d.Reaches host depth r c m v ∧
      ((Linker.plan host (d.last r).2 c.referrer = .error (.circularImport chain) ∧
          d.ComesBack host u r chain ∧ chain.head? = (u.record? r).map ModuleRecord.identifier) ∨
        Linker.PassesOnBelow host depth (d.last r).2 c.referrer (.circularImport chain) v u) := by
  obtain ⟨d, hd⟩ := Linker.fails_linkModule hhost depth r m u _ _ hm ha hphase hrun
  obtain ⟨v, hlinks, e, w, he, hlinking, hfails, hbare⟩ := hd.follows
  obtain ⟨b, hb, hsame⟩ := bare_of_serve hrun ha
  have hlineage : b.lineage = [] := by
    have hstart := congrArg ModuleRecord.lineage hsame
    exact hstart.trans hempty
  obtain ⟨c, names, hc, hrequests, hnames, hchain⟩ := hd.stands.exists_last hb
  -- the record on whose behalf the last edge was linked is still the same one
  obtain ⟨e', he', hsame⟩ := bare_of_serve hfails he
  obtain ⟨c', hc', hsame'⟩ := State.record?_of_bare hbare he'
  obtain rfl : c = c' := by simpa [hc] using hc'
  have hreferrer := ModuleRecord.referrer_of_bare (hsame'.trans hsame)
  refine ⟨d, v, e, hd.stands, fun x hx => ?_, ⟨hlinks, he, hlinking⟩, ?_⟩
  · rcases Descent.exists_mem_preorder hx with rfl | ⟨f, hf, rfl⟩
    · exact hnew
    · exact Nat.le_trans (Nat.le_of_lt (Nat.lt_of_le_of_lt hnew (State.lt_of_record? ha)))
        (hlinks.size_le f hf)
  · cases depth with
    | zero => simp [serve] at hfails
    | succ depth =>
        rcases Linker.circular_of_link hfails with hplan | hpassed
        · obtain ⟨p, hp, hend⟩ := Linker.plan_eq_circular hplan
          rw [← hreferrer] at hp hend
          rw [hlineage, List.nil_append] at hchain
          have hback : d.ComesBack host u r chain := by
            refine ⟨names, c, p, hnames, hc, hrequests, hp.found, hp.source, ?_, ?_⟩
            · rw [← hchain]
              exact hp.onChain
            · rw [hend, ← hchain]
              rfl
          exact .inl ⟨hplan, hback, hback.head?⟩
        · exact .inr ⟨depth, w, rfl, hpassed, hbare⟩

end

/-- A module that is being evaluated is left as it was by its imports, however they end. The record
that an import has built is new and on an empty chain, with a static tree that is new as well, and
if the import has a namespace then all of the tree is evaluated. A circle is reported only if the
tree closes one itself, or if code of the host made the error up. -/
theorem imports_are_whole (host : Host σ η) (s : State σ η)
    (hs : s.Good host (fun _ => True) (Compiled.FailsWithin fun _ => True)) (asking : RecordId)
    (a : ModuleRecord σ η) (ha : s.records[asking.index]? = some a)
    (hevaluating : a.status = .evaluating) (specifier : String) (depth : Nat)
    (o : Except Fault Namespace) (t : State σ η)
    (hrun : ((Script.importModule a.importer specifier).exec (serve host depth)).runIn s = (o, t)) :
    (t.Good host (fun _ => True) (Compiled.FailsWithin fun _ => True) ∧
      t.records[asking.index]? = some a) ∧
    (∀ r m, (serve host depth (.link specifier a.importer)).runIn s = (.ok r, m) →
      (∃ b, m.records[r.index]? = some b ∧ b.status = .unlinked ∧ b.lineage = []) ∧
      ∀ path x, t.along r path = some x → s.records.size ≤ x.index) ∧
    (∀ n, o = .ok n → ∃ r m, (serve host depth (.link specifier a.importer)).runIn s = (.ok r, m) ∧
      (∃ b, t.records[r.index]? = some b ∧ b.phase = .evaluated n) ∧
      ∀ path x, t.along r path = some x →
        ∃ b n', t.records[x.index]? = some b ∧ b.phase = .evaluated n') ∧
    (∀ chain m, (serve host depth (.link specifier a.importer)).runIn s =
        (.error (.error (.circularImport chain)), m) →
      Linker.PassesOnBelow host depth specifier a.importer (.circularImport chain) s m) ∧
    (∀ r m chain u, (serve host depth (.link specifier a.importer)).runIn s = (.ok r, m) →
      (serve host depth (.linkModule r)).runIn m = (.error (.error (.circularImport chain)), u) →
      ∃ (d : Descent) (v : State σ η) (c : ModuleRecord σ η),
        d.Stands host u (Error.circularImport chain).message r ∧
        (∀ x ∈ d.way r ++ d.done, s.records.size ≤ x.index) ∧ d.Reaches host depth r c m v ∧
        ((Linker.plan host (d.last r).2 c.referrer = .error (.circularImport chain) ∧
            d.ComesBack host u r chain ∧
            chain.head? = u.records[r.index]?.map ModuleRecord.identifier) ∨
          Linker.PassesOnBelow host depth (d.last r).2 c.referrer
            (.circularImport chain) v u)) := by
  have hfree := host.failsWithin_true.codeFailsWithin fun _ _ => trivial
  obtain ⟨ht, hst⟩ := follows_importModule hfree hs hrun
  refine ⟨⟨ht, hst.busy asking a ha (by rw [hevaluating]; rfl) id⟩, fun r m hlink => ?_,
    fun n hn => evaluated_of_importModule hfree hs (hn ▸ hrun), fun chain m hlink => ?_,
    fun r m chain u hlink hlinked => ?_⟩
  · obtain ⟨name, kind, hfresh⟩ := fresh_of_link hlink
    refine ⟨⟨_, hfresh, rfl, rfl⟩, fun path x hx => ?_⟩
    exact Nat.le_trans (size_le_of_link hlink)
      (Nat.le_trans (Nat.le_add_right _ _) (ht.sound.le_of_along hx))
  · exact passesOn_of_link rfl hlink
  · have hm := ((keepsGood_serve hfree depth).call (.link specifier a.importer) s hs).of_eq hlink
    obtain ⟨name, kind, hfresh⟩ := fresh_of_link hlink
    exact circle_below hfree hm.1 hfresh rfl rfl (size_le_of_link hlink) hlinked

/-- A host with two modules. The body of each stops the first time that one is run, and ends with
nothing exported from then on. The second requests itself. -/
def stoppingWorld : Host Bool Empty where
  files := ⟨[(["a.mjs"], .file (some "")), (["b.mjs"], .file (some "itself"))]⟩
  config := {}
  builtins := ⟨"node:", []⟩
  linkerBuiltins? := none
  scriptContext := ⟨0⟩
  compile text _ := pure ⟨if text = "itself" then ["./b.mjs"] else [], fun _ => do
    let again ← Script.perform .store
    if again then Script.perform (.newNamespace .empty)
    else do
      Script.perform (.modifyStore fun _ => true)
      Script.panic "stopped"⟩
  runScript _ _ := pure ()
  hook h := nomatch h
  lookup? := none

def suspended : State Bool Empty :=
  (stoppingWorld.exec 3 (Script.runEntry ⟨"/a.mjs"⟩ none).run (.initial false)).2

def importsItself : Except Fault Namespace × State Bool Empty :=
  ((Script.importModule (.root "/a.mjs" ⟨0⟩) "./a.mjs").exec (serve stoppingWorld 3)).runIn
    suspended

def circleBuilt : Except Fault RecordId × State Bool Empty :=
  (serve stoppingWorld 3 (.link "./b.mjs" (.root "/a.mjs" ⟨0⟩))).runIn suspended

def circleLinked : Except Fault Unit × State Bool Empty :=
  (serve stoppingWorld 3 (.linkModule ⟨1⟩)).runIn circleBuilt.2

def importsCircle : Except Fault Namespace × State Bool Empty :=
  ((Script.importModule (.root "/a.mjs" ⟨0⟩) "./b.mjs").exec (serve stoppingWorld 3)).runIn
    suspended

theorem not_passesOn_stoppingWorld (serve : (c : Call) → Eff Bool Empty c.Reply)
    (specifier : String)
    (referrer : Referrer) (e : Error) (s t : State Bool Empty) :
    ¬ Linker.PassesOn stoppingWorld serve specifier referrer e s t := by
  rintro ⟨d, name, -, -, ⟨-, -, -, hrun⟩ | ⟨-, -, ⟨hf, -⟩ | ⟨-, -, -, hrun⟩, -⟩⟩
  · cases hrun
  · cases hf
  · cases hrun

/-- The module that is being evaluated imports itself, and a second record is evaluated for it. It
imports the other one, and is told that this goes round in a circle. Either way it is left as it
was. -/
theorem imports_are_whole_stoppingWorld :
    (∃ a, suspended.records[0]? = some a ∧ a.status = .evaluating ∧
      importsItself.2.records[0]? = some a ∧ importsCircle.2.records[0]? = some a) ∧
    (∃ b n, importsItself.2.records[1]? = some b ∧ b.identifier = "/a.mjs" ∧
      b.phase = .evaluated n) ∧
    ∃ d : Descent, d.ComesBack stoppingWorld circleLinked.2 ⟨1⟩ ["/b.mjs", "/b.mjs"] := by
  have hgood : suspended.Good stoppingWorld (fun _ => True) (Compiled.FailsWithin fun _ => True) :=
    stoppingWorld.good_exec (stoppingWorld.failsWithin_true.codeFailsWithin fun _ _ => trivial) 3
      (Program.failsWithin_of_forall (fun _ => trivial) _) false
  have hbefore : suspended.records[0]?.map (fun a => (a.status, a.importer)) =
      some (.evaluating, .root "/a.mjs" ⟨0⟩) := by decide +kernel
  obtain ⟨a, ha, hpair⟩ := Option.map_eq_some_iff.1 hbefore
  obtain ⟨hevaluating, himporter⟩ := Prod.mk.inj hpair
  have himports (specifier : String) := imports_are_whole stoppingWorld suspended hgood ⟨0⟩ a ha
    hevaluating specifier 3
  rw [himporter] at himports
  obtain ⟨⟨-, hself⟩, -, hwhole, -, -⟩ :=
    himports "./a.mjs" importsItself.1 importsItself.2 (Prod.eta importsItself).symm
  obtain ⟨⟨-, hcircle⟩, -, -, -, hback⟩ :=
    himports "./b.mjs" importsCircle.1 importsCircle.2 (Prod.eta importsCircle).symm
  refine ⟨⟨a, ha, hevaluating, hself, hcircle⟩, ?_, ?_⟩
  · have hended : importsItself.1.isOk := by decide +kernel
    have hnames : importsItself.2.records[1]?.map ModuleRecord.identifier = some "/a.mjs" := by
      decide +kernel
    obtain ⟨n, hn⟩ : ∃ n, importsItself.1 = .ok n := by
      cases ho : importsItself.1 with
      | ok n => exact ⟨n, rfl⟩
      | error e => rw [ho] at hended; cases hended
    obtain ⟨r, m, hlink, ⟨b, hb, hphase⟩, -⟩ := hwhole n hn
    have hr : ((serve stoppingWorld 3 (.link "./a.mjs" (.root "/a.mjs" ⟨0⟩))).runIn
        suspended).1.toOption = some ⟨1⟩ := by decide +kernel
    rw [hlink] at hr
    obtain rfl : r = ⟨1⟩ := Option.some.inj hr
    obtain ⟨b', hb', hname⟩ := Option.map_eq_some_iff.1 hnames
    obtain rfl : b = b' := Option.some.inj (hb.symm.trans hb')
    exact ⟨b, n, hb, hname, hphase⟩
  · have hbuilt : circleBuilt.1.toOption = some ⟨1⟩ := by decide +kernel
    have hfails : error? circleLinked.1 = some (.circularImport ["/b.mjs", "/b.mjs"]) := by
      decide +kernel
    obtain ⟨d, v, c, -, -, -, hcomes⟩ := hback ⟨1⟩ circleBuilt.2 ["/b.mjs", "/b.mjs"] circleLinked.2
      (runIn_eq_ok_of_toOption hbuilt) (runIn_eq_error_of_error? hfails)
    rcases hcomes with ⟨-, hcomes, -⟩ | ⟨_, _, -, hpassed, -⟩
    · exact ⟨d, hcomes⟩
    · exact absurd hpassed (not_passesOn_stoppingWorld _ _ _ _ _ _)

end ModuleLoader
