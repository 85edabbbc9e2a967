import Mathlib.Data.List.Induction
import ModuleLoader.Legacy.Loader
import ModuleLoader.Proofs.Depth
/-!
What a specifier addresses in a table of built-in modules.

A table is what a sequence of registrations has left, and of two registrations of
one name the later one counts. A specifier is first rid of the scheme, if it
begins with it, and what remains is looked up. So a name can always be addressed
behind the scheme. By itself it can be addressed as long as it does not begin with
the scheme; if it does, then what is looked up is the rest of it, which may be
another name or none at all. A name of which the rest is no name is eclipsed. It is
in the table, and there is a specifier that spells it and finds nothing.
-/

namespace ModuleLoader

variable {Provider : Type}

theorem lookup_sortedInsert (key k : String) (value : Provider)
    (pairs : List (String × Provider)) :
    (sortedInsert key value pairs).lookup k = if k == key then some value else pairs.lookup k := by
  induction pairs with
  | nil =>
      by_cases h : k = key
      · simp [sortedInsert, h]
      · simp [sortedInsert, List.lookup_cons, beq_eq_false_iff_ne.2 h]
  | cons pair rest ih =>
      obtain ⟨name, p⟩ := pair
      unfold sortedInsert
      by_cases h : k = key
      · subst h
        split
        · simp
        · rename_i hne
          split
          · simp
          · simp [List.lookup_cons, beq_eq_false_iff_ne.2 hne, ih]
      · have hk : (k == key) = false := beq_eq_false_iff_ne.2 h
        split
        · rename_i heq
          simp [List.lookup_cons, ← heq, hk]
        · split
          · simp [List.lookup_cons, hk]
          · simp [List.lookup_cons, ih, hk]

theorem Program.error?_runIn_run {σ η α : Type} (p : Program σ η α)
    (serve : (c : Call) → Eff σ η c.Reply) (s : State σ η) :
    Eff.error? ((p.run serve).runIn s).1 = none := by
  have hkeeps : Eff.Keeps (fun _ : State σ η => True) (fun _ => False) (fun _ => True) (p.run serve)
      (p.run serve) :=
    p.keeps_run (fun _ _ _ => trivial) (fun c => Eff.Continues.refl (serve c)) _
  have hends := (hkeeps s trivial).2.1
  match hrun : ((p.run serve).runIn s).1, hends with
  | .ok _, _ | .error (.panic _), _ | .error .outOfDepth, _ => rfl

namespace Registry

variable {r : Registry Provider} {name specifier : String}

/-! ### The table after some registrations -/

theorem provider?_register (r : Registry Provider) (name k : String) (p : Provider) :
    (r.register name p).provider? k = if k == name then some p else r.provider? k :=
  lookup_sortedInsert name k p r.providers

theorem ofList_concat (scheme : String) (registrations : List (String × Provider))
    (entry : String × Provider) :
    ofList scheme (registrations ++ [entry]) =
      (ofList scheme registrations).register entry.1 entry.2 := by
  rw [ofList, List.foldl_append]
  rfl

@[simp] theorem scheme_ofList (scheme : String) (registrations : List (String × Provider)) :
    (ofList scheme registrations).scheme = scheme := by
  induction registrations using List.reverseRecOn with
  | nil => rfl
  | append_singleton before entry ih => rw [ofList_concat]; exact ih

theorem provider?_ofList (scheme : String) (registrations : List (String × Provider))
    (name : String) :
    (ofList scheme registrations).provider? name = registrations.reverse.lookup name := by
  induction registrations using List.reverseRecOn with
  | nil => rfl
  | append_singleton before entry ih =>
      rw [ofList_concat, provider?_register, ih, List.reverse_concat, List.lookup_cons]
      cases name == entry.1 <;> rfl

/-- The provider was registered under the name, and none has been since. -/
def IsLatest (registrations : List (String × Provider)) (name : String) (p : Provider) : Prop :=
  ∃ before after, registrations = before ++ (name, p) :: after ∧ ∀ entry ∈ after, entry.1 ≠ name

theorem isLatest_of_provider? {scheme : String} {registrations : List (String × Provider)}
    {p : Provider} (h : (ofList scheme registrations).provider? name = some p) :
    IsLatest registrations name p := by
  rw [provider?_ofList] at h
  obtain ⟨later, earlier, hsplit, hlater⟩ := List.lookup_eq_some_iff.1 h
  refine ⟨earlier.reverse, later.reverse, ?_, fun entry hentry heq => ?_⟩
  · rw [← List.reverse_reverse registrations, hsplit]
    simp
  · have hne := hlater entry (List.mem_reverse.1 hentry)
    simp [heq] at hne

theorem isSome_provider?_ofList {scheme : String} {registrations : List (String × Provider)} :
    ((ofList scheme registrations).provider? name).isSome ↔ name ∈ registrations.map Prod.fst := by
  rw [provider?_ofList, List.lookup_isSome_iff, List.mem_map]
  simp only [List.mem_reverse, beq_iff_eq, @eq_comm _ name]

/-! ### Taking off the scheme -/

theorem withoutScheme_append (r : Registry Provider) (name : String) :
    r.withoutScheme (r.scheme ++ name) = name := by
  rw [withoutScheme, String.toList_append, if_pos (List.isPrefixOf_iff_prefix.2 ⟨_, rfl⟩),
    List.drop_left, String.ofList_toList]

theorem withoutScheme_of_forall_ne (h : ∀ rest, specifier ≠ r.scheme ++ rest) :
    r.withoutScheme specifier = specifier := by
  refine if_neg fun hprefix => ?_
  obtain ⟨rest, hrest⟩ := List.isPrefixOf_iff_prefix.1 hprefix
  refine h (String.ofList rest) (String.toList_inj.1 ?_)
  rw [← hrest, String.toList_append, String.toList_ofList]

theorem canonicalName?_append (r : Registry Provider) (name : String) :
    r.canonicalName? (r.scheme ++ name) =
      if (r.provider? name).isSome then some name else none := by
  rw [canonicalName?, withoutScheme_append]

theorem canonicalName?_of_forall_ne (h : ∀ rest, specifier ≠ r.scheme ++ rest) :
    r.canonicalName? specifier =
      if (r.provider? specifier).isSome then some specifier else none := by
  rw [canonicalName?, withoutScheme_of_forall_ne h]

theorem isSome_provider?_of_canonicalName? (h : r.canonicalName? specifier = some name) :
    (r.provider? name).isSome := by
  dsimp only [canonicalName?] at h
  split at h
  · rename_i hsome
    cases h
    exact hsome
  · cases h

/-- The name is in the table, and it is the scheme in front of something that is not. -/
def Eclipsed (scheme : String) (names : List String) (name : String) : Prop :=
  name ∈ names ∧ ∃ rest, name = scheme ++ rest ∧ rest ∉ names

/-! ### What is provided -/

variable {σ η : Type}

theorem provide_of_canonicalName? {r : Registry (ModuleLoader.Provider σ η)}
    (serve : (c : Call) → Eff σ η c.Reply) (h : r.canonicalName? specifier = some name)
    {p : ModuleLoader.Provider σ η} (hp : r.provider? name = some p) :
    Legacy.provide serve r specifier = (do Eff.emit (.provide specifier); p.run serve) := by
  have hfind : r.find? specifier = some p := by rw [find?, h]; exact hp
  rw [Legacy.provide, hfind]

theorem provide_of_not_isBuiltin {r : Registry (ModuleLoader.Provider σ η)}
    (serve : (c : Call) → Eff σ η c.Reply) (h : r.isBuiltin specifier = false) :
    Legacy.provide serve r specifier = Eff.fail (.unknownBuiltin specifier) := by
  have hname : r.canonicalName? specifier = none := by simpa [isBuiltin] using h
  rw [Legacy.provide, find?, hname]
  rfl

/-- A specifier is that of a built-in module just if it is a registered name or the scheme in front
of one, and is no eclipsed name. What it is given is made by the provider that was registered last
under the name that it addresses, and any other specifier is refused as unknown. -/
theorem names_addressable (scheme : String) (serve : (c : Call) → Eff σ η c.Reply)
    (registrations : List (String × ModuleLoader.Provider σ η)) :
    let r := ofList scheme registrations
    let names := registrations.map Prod.fst
    (∀ specifier, r.isBuiltin specifier = true ↔
      (specifier ∈ names ∨ ∃ name ∈ names, specifier = scheme ++ name) ∧
        ¬ Eclipsed scheme names specifier) ∧
    (∀ name ∈ names, r.canonicalName? (scheme ++ name) = some name ∧
      (¬ Eclipsed scheme names name → (∀ other ∈ names, name = scheme ++ other → other = name) →
        r.canonicalName? name = some name)) ∧
    (∀ specifier, r.isBuiltin specifier = true →
      ∃ name p, r.canonicalName? specifier = some name ∧ IsLatest registrations name p ∧
        Legacy.provide serve r specifier = (do Eff.emit (.provide specifier); p.run serve) ∧
        ∀ s, Eff.error? ((Legacy.provide serve r specifier).runIn s).1 = none) ∧
    (∀ specifier, r.isBuiltin specifier = false →
      Legacy.provide serve r specifier = Eff.fail (.unknownBuiltin specifier)) := by
  intro r names
  have hscheme : r.scheme = scheme := scheme_ofList scheme registrations
  have hnames {name : String} : (r.provider? name).isSome ↔ name ∈ names := isSome_provider?_ofList
  have hbehind (rest : String) :
      r.canonicalName? (scheme ++ rest) = if rest ∈ names then some rest else none := by
    simpa only [hscheme, hnames] using canonicalName?_append r rest
  have hplain {name : String} (h : ∀ rest, name ≠ scheme ++ rest) :
      r.canonicalName? name = if name ∈ names then some name else none := by
    rw [← hscheme] at h
    simpa only [hnames] using canonicalName?_of_forall_ne h
  refine ⟨fun specifier => ?_, fun name hname => ⟨?_, fun hclear hothers => ?_⟩,
    fun specifier hbuiltin => ?_, fun specifier => provide_of_not_isBuiltin serve⟩
  · by_cases hprefix : ∃ rest, specifier = scheme ++ rest
    · obtain ⟨rest, rfl⟩ := hprefix
      have hinj {name : String} : scheme ++ rest = scheme ++ name ↔ rest = name :=
        String.append_right_inj scheme
      rw [isBuiltin, hbehind]
      by_cases hrest : rest ∈ names <;> simp [Eclipsed, hinj, hrest]
    · push Not at hprefix
      rw [isBuiltin, hplain hprefix]
      by_cases hname : specifier ∈ names <;> simp [Eclipsed, hprefix, hname]
  · rw [hbehind, if_pos hname]
  · by_cases hprefix : ∃ rest, name = scheme ++ rest
    · obtain ⟨rest, heq⟩ := hprefix
      have hrest : rest ∈ names := by
        by_contra hmiss
        exact hclear ⟨hname, rest, heq, hmiss⟩
      rw [hothers rest hrest heq] at heq
      have hname' := hbehind name
      rwa [← heq, if_pos hname] at hname'
    · push Not at hprefix
      rw [hplain hprefix, if_pos hname]
  · obtain ⟨name, hcanonical⟩ := Option.isSome_iff_exists.1 hbuiltin
    obtain ⟨p, hp⟩ := Option.isSome_iff_exists.1 (isSome_provider?_of_canonicalName? hcanonical)
    have hprovide := provide_of_canonicalName? serve hcanonical hp
    refine ⟨name, p, hcanonical, isLatest_of_provider? hp, hprovide, fun s => ?_⟩
    rw [hprovide]
    exact p.error?_runIn_run serve (s.emit (.provide specifier))

/-- Registrations that get in each other's way: a name behind the scheme and the rest of it, and a
name that is registered twice. -/
def doubledNames : List (String × ModuleLoader.Provider Unit Empty) :=
  [("path", .done (.string "old")), ("node:path", .done (.string "behind")),
    ("node:test", .done (.string "test")), ("path", .done (.string "new"))]

/-- Behind the scheme every name is addressed. Without it `node:path` addresses another name, and
`node:test` none, since `test` is no name. -/
theorem names_addressable_doubledNames :
    let r := ofList "node:" doubledNames
    let names := doubledNames.map Prod.fst
    r.canonicalName? "node:node:test" = some "node:test" ∧
      (∃ name p, r.canonicalName? "node:path" = some name ∧ IsLatest doubledNames name p) ∧
      Eclipsed "node:" names "node:test" ∧ r.isBuiltin "node:test" = false := by
  intro r names
  have heclipsed : Eclipsed "node:" names "node:test" :=
    ⟨by decide, "test", by decide, by decide⟩
  have hclear : ¬ Eclipsed "node:" names "node:path" := by
    rintro ⟨-, rest, heq, hmiss⟩
    have hrest : "path" = rest := (String.append_right_inj "node:").1 heq
    exact hmiss (hrest ▸ by decide)
  obtain ⟨hbuiltin, hnames, hprovided, -⟩ :=
    names_addressable (σ := Unit) (η := Empty) "node:" (fun _ => throw .outOfDepth) doubledNames
  refine ⟨(hnames "node:test" (by decide)).1, ?_, heclipsed, ?_⟩
  · obtain ⟨name, p, hcanonical, hlatest, -⟩ :=
      hprovided "node:path" ((hbuiltin "node:path").2 ⟨.inl (by decide), hclear⟩)
    exact ⟨name, p, hcanonical, hlatest⟩
  · exact Bool.eq_false_iff.2 fun h => ((hbuiltin "node:test").1 h).2 heclipsed

/-- A name that begins with the scheme is registered, and what spells it is no specifier of a
built-in module. -/
theorem registered_name_not_builtin :
    let registrations : List (String × Unit) := [("node:test", ())]
    let r := ofList "node:" registrations
    "node:test" ∈ registrations.map Prod.fst ∧
      (∀ other ∈ registrations.map Prod.fst, "node:test" ≠ "node:" ++ other) ∧
      r.isBuiltin "node:test" = false ∧ r.canonicalName? "node:test" = none := by
  decide +kernel

end Registry

end ModuleLoader
