import ModuleLoader.Proofs.Keeps
/-!
Errors that have nothing to do with records.

A record that is asked to make a move it may not make answers with an error of
its own kind, and so does the linker when a chain of imports comes back to its
beginning. Much of the loader never touches a record: it resolves names, reads
manifests, looks for formats. Whatever is wrong there is said in other words,
and here that is established once, for every function that can fail.
-/

namespace ModuleLoader

variable {σ η α β : Type}

/-- The error that says that a record cannot make a move. -/
def Error.IsMove : Error → Prop
  | .invalidStatus .. => True
  | _ => False

/-- The error is about no record: neither about a move nor about a chain. -/
def Error.IsPlain : Error → Prop
  | .invalidStatus .. => False
  | .circularImport _ => False
  | _ => True

theorem Error.IsPlain.not_isMove {e : Error} (h : e.IsPlain) : ¬ e.IsMove := by
  cases e <;> first | exact h.elim | exact id

abbrev FailsPlainly (o : Except Error α) : Prop := Eff.Answers Error.IsPlain (fun _ => True) o

theorem FailsPlainly.error {o : Except Error α} (h : FailsPlainly o) {e : Error}
    (he : o = .error e) :
    FailsPlainly (.error e : Except Error β) := by
  subst he
  exact h

theorem FailsPlainly.map {o : Except Error α} (h : FailsPlainly o) (f : α → β) :
    FailsPlainly (o.map f) := by
  cases o with
  | ok a => trivial
  | error e => exact h

theorem FailsPlainly.bind {o : Except Error α} (h : FailsPlainly o) {f : α → Except Error β}
    (hf : ∀ a, FailsPlainly (f a)) : FailsPlainly (o >>= f) := by
  cases o with
  | ok a => exact hf a
  | error e => exact h

theorem Package.plain_field (name text : String) : FailsPlainly (Package.field name text) := by
  unfold Package.field
  split
  · trivial
  · trivial

theorem Config.plain_detect (c : Config) (files : FileTree) (p : Path) :
    FailsPlainly (c.detect files p) := by
  unfold Config.detect
  split
  · trivial
  · split
    · refine FailsPlainly.map ?_ _
      unfold Config.scopedFormat
      split
      · trivial
      · exact (Package.plain_field _ _).map _
    · trivial
  · trivial

theorem ImportMeta.plain_ofPath (p : Path) : FailsPlainly (ImportMeta.ofPath p) := by
  unfold ImportMeta.ofPath
  split
  · trivial
  · trivial

namespace RequireId

theorem plain_asDirectory? (files : FileTree) (dir : Path) :
    FailsPlainly (asDirectory? files dir) := by
  refine FailsPlainly.map ?_ _
  unfold main?
  dsimp only
  split
  · split
    · trivial
    · exact Package.plain_field _ _
  · trivial

theorem plain_asPath? (files : FileTree) (p : Path) : FailsPlainly (asPath? files p) := by
  unfold asPath?
  split
  · trivial
  · split
    · exact plain_asDirectory? files p
    · trivial

theorem plain_inPackage? (files : FileTree) (package : Path) (sub? : Option String) :
    FailsPlainly (inPackage? files package sub?) := by
  cases sub? with
  | none => exact plain_asDirectory? files package
  | some sub =>
      rw [inPackage?]
      generalize (package.join ⟨sub⟩).normalize = p
      exact plain_asPath? files p

theorem plain_inPackages? (files : FileTree) (name : String) (sub? : Option String)
    (dirs : List Path) : FailsPlainly (inPackages? files name sub? dirs) := by
  induction dirs with
  | nil => trivial
  | cons dir rest ih =>
      have hpackage := plain_inPackage? files (packageDir name dir) sub?
      unfold inPackages?
      dsimp only
      split
      · split
        · rename_i e he
          exact hpackage.error he
        · trivial
        · exact ih
      · exact ih

theorem plain_resolve {Provider : Type} (files : FileTree) (builtins : Registry Provider)
    (id : String) (parent : Path) : FailsPlainly (resolve files builtins id parent) := by
  have hfile : FailsPlainly (file? files id parent) := by
    unfold file?
    split
    · generalize target id parent = p
      exact plain_asPath? files p
    · exact plain_inPackages? _ _ _ _
  unfold resolve
  split
  · trivial
  · split
    · rename_i e he
      exact hfile.error he
    · trivial
    · trivial

theorem plain_resolvePackage {Provider : Type} (files : FileTree) (builtins : Registry Provider)
    (specifier : String) (anchor : Path) :
    FailsPlainly (resolvePackage files builtins specifier anchor) := by
  have h := plain_resolve files builtins specifier anchor
  unfold resolvePackage
  split
  · split
    · trivial
    · trivial
  · trivial
  · rename_i e _ he
    exact h.error he

end RequireId

theorem Location.plain_resolve {Provider : Type} (builtins : Registry Provider)
    {packages : String → Path → Except Error Path} (h : ∀ s p, FailsPlainly (packages s p))
    (specifier referrer : String) :
    FailsPlainly (Location.resolve builtins packages specifier referrer) := by
  unfold Location.resolve
  dsimp only
  split
  · trivial
  split
  · trivial
  split
  · trivial
  split
  · trivial
  · exact (h _ _).map _

namespace Linker

theorem plain_resolve (host : Host σ η) (specifier : String) (referrer : Referrer) :
    FailsPlainly (resolve host specifier referrer) :=
  Location.plain_resolve _ (RequireId.plain_resolvePackage _ _) _ _

theorem plain_resolveFile (host : Host σ η) (specifier : String) (referrer : Referrer) :
    FailsPlainly (resolveFile host specifier referrer) := by
  refine (plain_resolve host specifier referrer).bind fun location => ?_
  split
  · trivial
  · trivial

end Linker

end ModuleLoader
