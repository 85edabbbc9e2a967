import ModuleLoader.Proofs.LoadedOnce
import ModuleLoader.Proofs.Path.Lookup
import ModuleLoader.Proofs.Path.Place
/-!
One key for each file.

What is kept for a file is kept under the path that a lookup came to, and another
path is another key, unless it takes the same steps. So a file is loaded once only
if all lookups that end at it come to one path, however their ids are spelled.
Lookups from canonical paths do come to canonical paths, and of these there is one
for each place in a tree. Then the value is shared and the body is run once.

All of them do but those of blurred ids. The index file of a package whose name
ends in dots after a scope is found under a path that has the dots in it
(`RequireId.canonical_iff`). It is in a directory that may well be reached by other
ids, and then the file has two keys and its body is run for each.
-/

namespace ModuleLoader

open Eff History Path

variable {σ η : Type}

namespace Path

/-- What is between the slashes of a canonical path is names. -/
theorem Canonical.isName {l : List String} (h : Canonical (rooted l)) (hne : l ≠ [])
    (hl : ∀ t ∈ l, IsSegment t) : l = [""] ∨ ∀ t ∈ l, IsName t := by
  obtain ⟨names, hnames, heq⟩ := h
  refine (eq_of_rooted_eq hne hl (fun t ht => (hnames t ht).segment) heq).imp_right ?_
  rintro rfl
  exact hnames

end Path

namespace RequireId

variable {files : FileTree} {id : String} {parent dir q : Path}

def KeepsDots (id : String) (parent q : Path) : Prop :=
  Blurred id ∧ ∃ dir ∈ parent.ancestors, q ∈ indexes (packageDir id dir)

theorem segments_of_blurred {scope dots : String} (hscope : IsSegment scope)
    (hdots : dots = "." ∨ dots = "..") (hdir : Canonical dir)
    (hq : q ∈ indexes (packageDir ("@" ++ scope ++ "/" ++ dots) dir)) :
    ∃ names name, (∀ t ∈ names, IsName t) ∧ IsName name ∧
      (∀ t ∈ names ++ [dots, name], IsSegment t) ∧ q = rooted (names ++ [dots, name]) := by
  obtain ⟨above, habove, rfl⟩ := hdir
  obtain ⟨ext, hext, rfl⟩ := List.mem_map.1 hq
  let names := above ++ ["node_modules"] ++ ["@" ++ scope]
  let name := "index" ++ ext
  have hnames : ∀ t ∈ names, IsName t :=
    isName_append (isName_append habove (by decide)) (isName_scope hscope)
  have hname : IsName name := isName_extension hext (by decide)
  have hdots_segment : IsSegment dots ∧ dots ≠ "" := by
    rcases hdots with rfl | rfl <;> decide
  have hlast : ∀ t ∈ (names ++ [dots]).getLast?, IsSegment t ∧ t ≠ "" := by
    intro t ht
    obtain rfl : dots = t := by simpa using ht
    exact hdots_segment
  have hjoin :
      (rooted (names ++ [dots])).join ⟨joined [name]⟩ = rooted (names ++ [dots] ++ [name]) :=
    join_rooted_joined hlast hname.segment hname.ne_empty
  rw [joined_singleton, List.append_assoc names] at hjoin
  have hdir :
      packageDir ("@" ++ scope ++ "/" ++ dots) (rooted above) = rooted (names ++ [dots]) := by
    rw [packageDir_scoped habove hscope, List.append_cons]
  refine ⟨names, name, hnames, hname, ?_, (congrArg (Path.join · ⟨name⟩) hdir).trans hjoin⟩
  refine List.forall_mem_append.2 ⟨fun t ht => (hnames t ht).segment, ?_⟩
  simpa using ⟨hdots_segment.1, hname.segment⟩

theorem Blurred.not_canonical (h : Blurred id) (hdir : Canonical dir)
    (hq : q ∈ indexes (packageDir id dir)) : ¬ Canonical q := by
  obtain ⟨scope, dots, hscope, hdots, rfl⟩ := h
  obtain ⟨names, name, -, -, hsegments, rfl⟩ := segments_of_blurred hscope hdots hdir hq
  have hdots_segment : ¬ IsName dots ∧ dots ≠ "" := by
    rcases hdots with rfl | rfl <;> decide
  have hmem : dots ∈ names ++ [dots, name] := by simp
  intro hcanonical
  rcases hcanonical.isName (by simp) hsegments with hblank | hall
  · rw [hblank, List.mem_singleton] at hmem
    exact hdots_segment.2 hmem
  · exact hdots_segment.1 (hall _ hmem)

/-- What is found from a canonical path is found under a canonical path, unless dots are kept in it.
-/
theorem canonical_iff (hparent : Canonical parent) (h : file? files id parent = .ok (some q)) :
    Canonical q ↔ ¬ KeepsDots id parent q := by
  refine ⟨?_, fun hclear => ?_⟩
  · rintro hq ⟨hblurred, dir, hdir, hindex⟩
    exact hblurred.not_canonical (hparent.mem_ancestors hdir) hindex hq
  rcases canonical_or_namesIndex hparent.isAbsolute h with hq | hindex
  · exact hq
  · exact (hindex.canonical_or_blurred hparent).resolve_right fun hblurred =>
      hclear ⟨hblurred, hindex.index⟩

/-- What is resolved to a file has been found, and the path says how it is to be loaded. -/
theorem file?_of_resolve {Provider : Type} {builtins : Registry Provider} {found : Resolution}
    (h : resolve files builtins id parent = .ok found) (hq : found.path? = some q) :
    file? files id parent = .ok (some q) ∧ found = .ofFile q := by
  rcases resolve_eq_ok h with ⟨name, -, rfl⟩ | ⟨p, hfile, rfl⟩
  · cases hq
  · rw [path?_ofFile] at hq
    obtain rfl := Option.some.inj hq
    exact ⟨hfile, rfl⟩

end RequireId

/-! ### Lookups of one file -/

/-- The lookup is made from a canonical path and comes to the file at the path, which is at the
place, and there are no dots in it that an id has left. -/
structure Host.FindsAt (host : Host σ η) (call : LookupCall) (q : Path) (place : Place) : Prop where
  parent : Canonical call.parent
  found : ∃ found, RequireId.resolve host.files host.builtins call.id call.parent = .ok found ∧
    found.path? = some q
  place : ∃ e, host.files.locate q = .ok (place, e)
  clear : ¬ RequireId.KeepsDots call.id call.parent q

namespace Host

variable {host : Host σ η} {call call' : LookupCall} {q q' : Path} {place : Place}

theorem FindsAt.canonical (h : host.FindsAt call q place) : Canonical q := by
  obtain ⟨found, hfound, hq⟩ := h.found
  exact (RequireId.canonical_iff h.parent (RequireId.file?_of_resolve hfound hq).1).2 h.clear

theorem FindsAt.eq (h : host.FindsAt call q place) (h' : host.FindsAt call' q' place) : q = q' := by
  obtain ⟨e, he⟩ := h.place
  obtain ⟨e', he'⟩ := h'.place
  exact FileTree.eq_of_locate h.canonical h'.canonical he he'

theorem FindsAt.resolve_eq (h : host.FindsAt call q place) :
    RequireId.resolve host.files host.builtins call.id call.parent = .ok (.ofFile q) := by
  obtain ⟨found, hfound, hq⟩ := h.found
  rw [hfound, (RequireId.file?_of_resolve hfound hq).2]

/-- In every run, and as long as the file is not evicted, its body is run for one load at most, and
what that comes to is what the file gives. -/
def LoadsOnce (host : Host σ η) (q : Path) : Prop :=
  ∀ (α : Type) depth (program : Program σ η α) store before span after,
    (host.exec depth program (State.initial store)).2.history = before ++ span ++ after →
    (before ++ span ++ after).EvictsAtRest → (∀ e ∈ span, ¬ e.Evicts q) →
    (∀ a e b v, span = a ++ e :: b → e.Loads q v → ∀ x ∈ a ++ b, ∀ w, ¬ x.Loads q w) ∧
      ∀ a e b v, span = a ++ e :: b → Gives q v (before ++ a) e →
        (∀ x ∈ b, ¬ x.Enters q) ∧
        ∀ a' x b' w, span = a' ++ x :: b' → Gives q w (before ++ a') x → w = v

theorem loadsOnce (host : Host σ η) (q : Path) : host.LoadsOnce q := by
  intro α depth program store before span after hhistory hrest hspan
  have hlegal : (before ++ span ++ after).Legal :=
    hhistory ▸ (host.ledgerHolds_exec depth program store).legal
  refine ⟨fun a e b v hsplit he => not_loads_of_loads hlegal hrest hspan hsplit he,
    fun a e b v hsplit he => ⟨fun x hx henters => ?_,
      fun a' x b' w hsplit' hx => eq_of_gives hlegal hrest hspan hsplit he hsplit' hx⟩⟩
  exact ((accepts_of_gives hlegal hrest hspan hsplit he).2 x hx).touches henters.touches

/-- Of two lookups in a run the second has the value that the first one had, and no body is run for
it, unless the first was made from within the load of the file, or the file has been evicted since.
-/
def Shares (host : Host σ η) (call call' : LookupCall) (q : Path) : Prop :=
  ∀ (α β : Type) depth store (first : Program σ η α) (between : Program σ η β) s t s' t' v v',
    s = (host.exec depth first (State.initial store)).2 →
    (serve host depth (.require call)).runIn s = (.ok v, t) →
    s' = (host.exec depth between t).2 →
    (serve host depth (.require call')).runIn s' = (.ok v', t') →
    ¬ s.history.ledger.Runs q → t'.history.EvictsAtRest →
    (∀ e ∈ t'.history.drop s.history.length, ¬ e.Evicts q) →
    v' = v ∧ ∀ e ∈ t'.history.drop t.history.length, ¬ e.Enters q

theorem FindsAt.shares (h : host.FindsAt call q place) (h' : host.FindsAt call' q place)
    (hlookup : host.lookup? = none) : host.Shares call call' q := by
  intro α β depth store first between s t s' t' v v' hs hrun hs' hrun' hruns hrest hevicts
  obtain ⟨found, hfound, hq⟩ := h.found
  obtain ⟨found', hfound', hq'⟩ := h'.found
  obtain ⟨b, a, ht, ⟨c, rfl⟩, hrunning⟩ :=
    tracesAnswers hlookup depth call s v t found q hfound hq hrun
  obtain ⟨b', a', ht', hbefore, -⟩ :=
    tracesAnswers hlookup depth call' s' v' t' found' q hfound' hq' hrun'
  have hserve := ledger_serve host depth
  have hst := (hserve (.require call) s).of_eq_ok hrun
  have hbetween : ledgerRelation.reaches t s' :=
    hs' ▸ ((ledger_holdsOfSteps hserve).program between t).1
  have hst' := (hserve (.require call') s').of_eq_ok hrun'
  have hholds : t'.LedgerHolds :=
    hst'.1.1.2 (hbetween.2 (hst.1.1.2 (hs ▸ host.ledgerHolds_exec depth first store)))
  -- the two answers in the stretch from the first lookup on
  obtain ⟨m, hm⟩ := hbetween.1.trans hbefore
  let rest := a ++ m ++ .answer q v' :: a'
  have hwhole : t'.history = s.history ++ (c ++ .answer q v :: rest) ++ [] := by
    simp [ht', ← hm, ht, rest]
  have hlegal := hholds.legal
  rw [hwhole] at hlegal hrest hevicts
  rw [List.append_nil, List.drop_left] at hevicts
  have hgives : Gives q v (s.history ++ c) (.answer q v) := by
    refine .inr ⟨⟨same_refl q, rfl⟩, ?_⟩
    rwa [Ledger.Runs, hrunning]
  have haccepts := (accepts_of_gives hlegal hrest hevicts rfl hgives).2
  have hanswer := haccepts (.answer q v') (by simp [rest])
  refine ⟨hanswer.answers _ ⟨same_refl q, rfl⟩, fun e he henters => ?_⟩
  have he : e ∈ rest := by
    rw [ht', ← hm, List.append_assoc, List.drop_left] at he
    simp only [rest, List.append_assoc]
    exact List.mem_append_right _ he
  exact (haccepts e he).touches henters.touches

end Host

/-- Of two lookups that come to one file the second comes to the path of the first and has its
value, without a body being run, unless an index file was found under a blurred id, by the dots in
it. -/
theorem files_have_one_key (host : Host σ η) :
    (∀ id parent found q, Canonical parent →
      RequireId.resolve host.files host.builtins id parent = .ok found → found.path? = some q →
      q.isAbsolute = true ∧ (Canonical q ↔ ¬ RequireId.KeepsDots id parent q)) ∧
    ∀ call call' q q' place, host.FindsAt call q place → host.FindsAt call' q' place →
      q = q' ∧
      RequireId.resolve host.files host.builtins call.id call.parent =
        RequireId.resolve host.files host.builtins call'.id call'.parent ∧
      host.LoadsOnce q ∧ (host.lookup? = none → host.Shares call call' q) := by
  refine ⟨fun id parent found q hparent hfound hq => ?_, fun call call' q q' place h h' => ?_⟩
  · have hfile := (RequireId.file?_of_resolve hfound hq).1
    exact ⟨(RequireId.spelling_of_file? hparent.isAbsolute hfile).1,
      RequireId.canonical_iff hparent hfile⟩
  · obtain rfl := h.eq h'
    exact ⟨rfl, h.resolve_eq.trans h'.resolve_eq.symm, host.loadsOnce q, h.shares h'⟩

/-- The second file of the scripted world is asked for twice, by two ids and from two directories.
In between the first file requires it too. -/
theorem files_have_one_key_requiringWorld :
    let call : LookupCall := ⟨"./b.cjs", ⟨"/main.mjs"⟩⟩
    let call' : LookupCall := ⟨"/x/../b", ⟨"/y/main.mjs"⟩⟩
    let first := (serve requiringWorld 4 (.require call)).runIn (State.initial .initial)
    let between := Program.attempt (.require ⟨"./a.cjs", ⟨"/main.mjs"⟩⟩)
    let second := (serve requiringWorld 4 (.require call')).runIn
      (requiringWorld.exec 4 between first.2).2
    requiringWorld.FindsAt call ⟨"/b.cjs"⟩ ["b.cjs"] ∧
      requiringWorld.FindsAt call' ⟨"/b.cjs"⟩ ["b.cjs"] ∧
      (∃ v, first.1 = .ok v ∧ second.1 = .ok v) ∧
      ∀ e ∈ second.2.history.drop first.2.history.length, ¬ e.Enters ⟨"/b.cjs"⟩ := by
  intro call call' first between second
  have hunscoped : ∀ id : String, id.toList.head? ≠ some '@' → ¬ RequireId.Blurred id := by
    rintro id hid ⟨scope, dots, -, -, rfl⟩
    simp at hid
  have hcall : requiringWorld.FindsAt call ⟨"/b.cjs"⟩ ["b.cjs"] :=
    { parent := ⟨["main.mjs"], by decide, by decide⟩
      found := ⟨.script ⟨"/b.cjs"⟩, by decide +kernel, rfl⟩
      place := ⟨.file (some "[[\"export\", \"x\", 1]]"), by decide +kernel⟩
      clear := fun hkept => hunscoped "./b.cjs" (by decide) hkept.1 }
  have hcall' : requiringWorld.FindsAt call' ⟨"/b.cjs"⟩ ["b.cjs"] :=
    { parent := ⟨["y", "main.mjs"], by decide, by decide⟩
      found := ⟨.script ⟨"/b.cjs"⟩, by decide +kernel, rfl⟩
      place := ⟨.file (some "[[\"export\", \"x\", 1]]"), by decide +kernel⟩
      clear := fun hkept => hunscoped "/x/../b" (by decide) hkept.1 }
  have hfacts : first.1.toOption.isSome ∧ second.1.toOption.isSome ∧
      second.2.history.EvictsAtRest ∧ ∀ e ∈ second.2.history, ¬ e.Evicts ⟨"/b.cjs"⟩ := by
    decide +kernel
  obtain ⟨hfirst, hsecond, hrest, hevicts⟩ := hfacts
  obtain ⟨v, hv⟩ := Option.isSome_iff_exists.1 hfirst
  obtain ⟨v', hv'⟩ := Option.isSome_iff_exists.1 hsecond
  obtain ⟨-, hlookups⟩ := files_have_one_key requiringWorld
  obtain ⟨-, -, -, hshares⟩ := hlookups call call' _ _ _ hcall hcall'
  have hidle : ¬ (State.initial .initial : State Scripted.Session
    Scripted.HookPlan).history.ledger.Runs
      ⟨"/b.cjs"⟩ := by
    rintro ⟨script, hscript, -⟩
    cases hscript
  obtain ⟨rfl, hnone⟩ := hshares rfl Unit _ 4 .initial (pure ()) between _ _ _ _ v v' rfl
    (runIn_eq_ok_of_toOption hv) rfl (runIn_eq_ok_of_toOption hv') hidle hrest
    fun e he => hevicts e (List.mem_of_mem_drop he)
  exact ⟨hcall, hcall', ⟨v', congrArg Prod.fst (runIn_eq_ok_of_toOption hv),
    congrArg Prod.fst (runIn_eq_ok_of_toOption hv')⟩, hnone⟩

/-- A scripted world in which the directory of a scope is in that of the packages, and beside it an
index file. -/
def dottedWorld : Host Scripted.Session Scripted.HookPlan :=
  Scripted.host
    ⟨[(["app"], .directory), (["node_modules", "app"], .directory),
      (["@s", "node_modules", "app"], .directory),
      (["index.js", "node_modules", "app"], .file (some "[[\"export\", \"x\", 1]]"))]⟩
    {} ⟨"node:", []⟩ none ⟨0⟩

/-- Under a blurred id the index file is found under a path of its own. Then its body is run a
second time, and it has two objects. -/
theorem dotted_file_has_two_keys :
    let parent : Path := ⟨"/app/main.cjs"⟩
    let dotted : Path := ⟨"/app/node_modules/@s/../index.js"⟩
    let plain : Path := ⟨"/app/node_modules/index.js"⟩
    let first := (serve dottedWorld 4 (.require ⟨"@s/..", parent⟩)).runIn (State.initial .initial)
    let second := (serve dottedWorld 4 (.require ⟨plain.text, parent⟩)).runIn first.2
    parent.isAbsolute = true ∧ parent.normalize = parent ∧
      RequireId.resolve dottedWorld.files dottedWorld.builtins "@s/.." parent =
        .ok (.script dotted) ∧
      RequireId.resolve dottedWorld.files dottedWorld.builtins plain.text parent =
        .ok (.script plain) ∧
      dottedWorld.files.locate dotted = dottedWorld.files.locate plain ∧
      dotted.normalize = plain ∧
      second.2.history.filterMap Event.finished? = [dotted, plain] ∧
      second.2.history.all (!·.isEviction) = true ∧
      first.1.toOption.bind Value.object? = some ⟨0⟩ ∧
      second.1.toOption.bind Value.object? = some ⟨1⟩ := by
  decide +kernel

end ModuleLoader
