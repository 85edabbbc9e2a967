import ModuleLoader.OrderedMap
/-!
The table of built-in modules.

A built-in module has a name and a provider that makes its exports. It is
addressed by its name or by its name behind the scheme of the registry, and the
scheme is taken off before the table is asked. A name that itself begins with
the scheme is therefore out of reach under its own spelling, unless what remains
of it is also a name.

The registry does not care what a provider is.
-/

namespace ModuleLoader

structure Registry (Provider : Type) where
  scheme : String
  /-- The providers, in the order of the names. -/
  providers : List (String × Provider)

namespace Registry

variable {Provider : Type}

instance : Inhabited (Registry Provider) := ⟨⟨"", []⟩⟩

def empty (scheme : String) : Registry Provider := ⟨scheme, []⟩

def register (r : Registry Provider) (name : String) (provider : Provider) : Registry Provider :=
  { r with providers := sortedInsert name provider r.providers }

def ofList (scheme : String) (providers : List (String × Provider)) : Registry Provider :=
  providers.foldl (fun r p => r.register p.1 p.2) (empty scheme)

def names (r : Registry Provider) : List String := r.providers.map Prod.fst

/-- A specifier without the scheme, if it begins with it. -/
def withoutScheme (r : Registry Provider) (specifier : String) : String :=
  if r.scheme.toList.isPrefixOf specifier.toList then
    String.ofList (specifier.toList.drop r.scheme.toList.length)
  else specifier

def provider? (r : Registry Provider) (name : String) : Option Provider :=
  r.providers.lookup name

/-- The name under which the table knows what a specifier addresses. -/
def canonicalName? (r : Registry Provider) (specifier : String) : Option String :=
  let name := r.withoutScheme specifier
  if (r.provider? name).isSome then some name else none

def isBuiltin (r : Registry Provider) (specifier : String) : Bool :=
  (r.canonicalName? specifier).isSome

def find? (r : Registry Provider) (specifier : String) : Option Provider :=
  (r.canonicalName? specifier).bind r.provider?

theorem exists_mem_of_find? {r : Registry Provider} {specifier : String} {p : Provider}
    (h : r.find? specifier = some p) : ∃ name, (name, p) ∈ r.providers := by
  obtain ⟨name, -, hname⟩ := Option.bind_eq_some_iff.1 h
  obtain ⟨before, after, hproviders, -⟩ := List.lookup_eq_some_iff.1 hname
  refine ⟨name, ?_⟩
  rw [hproviders]
  exact List.mem_append_right _ List.mem_cons_self

def map {Other : Type} (f : Provider → Other) (r : Registry Provider) : Registry Other :=
  ⟨r.scheme, r.providers.map fun (name, p) => (name, f p)⟩

/-! ### Registries with other providers -/

section

variable {Other : Type} (f : Provider → Other) (r : Registry Provider)

@[simp] theorem withoutScheme_map (specifier : String) :
    (r.map f).withoutScheme specifier = r.withoutScheme specifier := rfl

@[simp] theorem provider?_map (name : String) :
    (r.map f).provider? name = (r.provider? name).map f := by
  rw [provider?, provider?, map]
  induction r.providers with
  | nil => rfl
  | cons entry rest ih =>
      rw [List.map_cons, List.lookup_cons, List.lookup_cons, ih]
      cases name == entry.1 <;> rfl

@[simp] theorem canonicalName?_map (specifier : String) :
    (r.map f).canonicalName? specifier = r.canonicalName? specifier := by
  simp [canonicalName?]

theorem find?_map (specifier : String) : (r.map f).find? specifier = (r.find? specifier).map f := by
  rw [find?, find?, canonicalName?_map]
  cases r.canonicalName? specifier with
  | none => rfl
  | some name => exact provider?_map f r name

end

end Registry

end ModuleLoader
