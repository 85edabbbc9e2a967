import ModuleLoader.Proofs.Path.Walking
/-!
Joining is normalising what the parts come to when they are written one after the other.

Of the segments of a text only those that are not blank leave a trace on the stack that
it is walked with. So it makes no difference where blank segments stand, and that is all
that separators in excess, empty parts and slashes at the beginning of a part amount to.
Whether the result is absolute is not on the stack. Normalising takes it from the text,
and joining from the first part, which is the beginning of the text unless it is empty.
-/

namespace ModuleLoader

namespace Builtin.Path

variable {absolute : Bool} {stack : List String}

/-! ### Joining -/

/-- A part without the slashes that it begins with. -/
def bare (part : String) : ModuleLoader.Path := ⟨String.ofList (part.toList.dropWhile isSeparator)⟩

theorem isAbsolute_bare (part : String) : (bare part).isAbsolute = false := by
  have hhead := List.head?_dropWhile_not isSeparator part.toList
  rw [ModuleLoader.Path.isAbsolute, bare, String.toList_ofList]
  cases h : (part.toList.dropWhile isSeparator).head? with
  | none => rfl
  | some c =>
      rw [h] at hhead
      have hc : c ≠ '/' := by rintro rfl; cases hhead
      simpa using hc

theorem walk_bare (part : String) :
    walk absolute stack (bare part).text.toList = walk absolute stack part.toList := by
  rw [bare, String.toList_ofList, walk_dropWhile]

theorem walk_join (p : ModuleLoader.Path) {q : ModuleLoader.Path} (hq : q.isAbsolute = false) :
    walk absolute stack (p.join q).text.toList =
      walk absolute (walk absolute stack p.text.toList) q.text.toList := by
  unfold ModuleLoader.Path.join
  rw [if_neg (by simp [hq])]
  split
  · rename_i hlast
    rw [String.toList_append]
    cases hend : p.text.toList.getLast? with
    | none => rw [List.getLast?_eq_none_iff.1 hend]; rfl
    | some c =>
        rw [hend] at hlast
        obtain rfl : c = '/' := by simpa using hlast
        obtain ⟨init, hinit⟩ := List.getLast?_eq_some_iff.1 hend
        rw [hinit, List.append_assoc, List.singleton_append, walk_append_cons rfl,
          walk_append_cons rfl, walk_nil]
  · rw [String.append_assoc, String.toList_append, String.toList_append]
    exact walk_append_cons rfl _ _

theorem isAbsolute_join {p q : ModuleLoader.Path} (hp : p.isAbsolute = false)
    (hq : q.isAbsolute = false) : (p.join q).isAbsolute = false := by
  unfold ModuleLoader.Path.join
  rw [if_neg (by simp [hq])]
  unfold ModuleLoader.Path.isAbsolute at *
  cases htext : p.text.toList with
  | nil => simpa [htext] using hq
  | cons c rest =>
      rw [htext] at hp
      split <;> simpa [htext] using hp

/-- What the parts come to when they are joined as paths is relative, and it is walked as they are.
-/
theorem walk_foldl_join (parts : List String) {p : ModuleLoader.Path} (hp : p.isAbsolute = false) :
    let joint := parts.foldl (fun path part => path.join (bare part)) p
    joint.isAbsolute = false ∧ walk absolute stack joint.text.toList =
      walkAll absolute (walk absolute stack p.text.toList) parts := by
  induction parts generalizing p with
  | nil => exact ⟨hp, rfl⟩
  | cons part rest ih =>
      obtain ⟨hjoint, hwalk⟩ := ih (isAbsolute_join hp (isAbsolute_bare part))
      refine ⟨hjoint, hwalk.trans ?_⟩
      rw [walk_join p (isAbsolute_bare part), walk_bare]
      rfl

/-- The first part is absolute. -/
def leads (parts : List String) : Bool := parts.head?.any isAbsolute

theorem normalize_of_relative {text : String} (h : isAbsolute text = false) :
    normalize text = written false (walk false [] text.toList) := by
  rw [normalize_eq, h]

theorem normalize_slash_append (text : String) :
    normalize ("/" ++ text) = written true (walk true [] text.toList) := by
  have habsolute : isAbsolute ("/" ++ text) = true := by
    simp [isAbsolute, ModuleLoader.Path.isAbsolute]
  rw [normalize_eq, habsolute, String.toList_append]
  exact congrArg (written true) (walk_cons rfl text.toList)

theorem join_eq (parts : List String) :
    join parts = written (leads parts) (walkAll (leads parts) [] parts) := by
  let joint := parts.foldl (fun path part => path.join (bare part)) (⟨""⟩ : ModuleLoader.Path)
  have hjoint (absolute : Bool) : joint.isAbsolute = false ∧
      walk absolute [] joint.text.toList = walkAll absolute [] parts :=
    walk_foldl_join parts rfl
  cases parts with
  | nil => rfl
  | cons first rest =>
      have hleads : leads (first :: rest) = isAbsolute first := rfl
      rw [hleads]
      cases hfirst : isAbsolute first with
      | true =>
          refine (if_pos hfirst).trans ((normalize_slash_append _).trans ?_)
          exact congrArg (written true) (hjoint true).2
      | false =>
          refine (if_neg (by simp [hfirst])).trans ?_
          refine (normalize_of_relative (hjoint false).1).trans ?_
          exact congrArg (written false) (hjoint false).2

/-- Empty parts make no difference, and neither do the slashes that a part begins with. -/
theorem walkAll_bare (parts : List String) :
    walkAll absolute stack (parts.map fun part => (bare part).text) =
      walkAll absolute stack parts := by
  simp only [walkAll, List.foldl_map, walk_bare]

theorem isAbsolute_normalize (text : String) : isAbsolute (normalize text) = isAbsolute text :=
  isAbsolute_written (Settled.nil.walk _)

theorem isAbsolute_append {a : String} (ha : a ≠ "") (b : String) :
    isAbsolute (a ++ b) = isAbsolute a := by
  have hne : a.toList ≠ [] := by simpa using ha
  obtain ⟨c, rest, hcons⟩ := List.exists_cons_of_ne_nil hne
  simp [isAbsolute, ModuleLoader.Path.isAbsolute, hcons]

theorem isAbsolute_intercalate {parts : List String} (h : ∀ part ∈ parts, part ≠ "") :
    isAbsolute ("/".intercalate parts) = parts.head?.any isAbsolute := by
  match parts with
  | [] => rfl
  | [part] => simp
  | part :: next :: others =>
      rw [String.intercalate_cons_cons, String.append_assoc,
        isAbsolute_append (h part List.mem_cons_self)]
      rfl

theorem mapM_textArgument (function : String) (before after : List String) :
    (List.range' before.length after.length).mapM
      (textArgument function ((before ++ after).map .string)) = .ok after := by
  induction after generalizing before with
  | nil => rfl
  | cons part rest ih =>
      have hpart : textArgument function ((before ++ part :: rest).map .string) before.length =
          .ok part := by
        simp [textArgument]
      have hrest := ih (before ++ [part])
      rw [List.append_assoc, List.singleton_append, List.length_append] at hrest
      rw [List.length_cons, List.range'_succ, List.mapM_cons, hpart]
      exact
        congrArg (fun texts => Except.ok part >>= fun t => texts >>= fun ts => .ok (t :: ts)) hrest

theorem joinCode_strings (parts : List String) :
    joinCode (parts.map .string) = .ok (.string (join parts)) := by
  have htexts := mapM_textArgument "join" [] parts
  rw [joinCode, List.length_map, List.range_eq_range']
  exact congrArg (Except.map fun texts => Value.string (join texts)) htexts

/-- Joining is normalising the concatenation of the parts, with a slash between each two that are
not empty, unless the first part is empty and the first that is not is absolute. Then the slashes at
the beginning are lost. -/
theorem join_normalizes_concatenation (parts : List String) :
    let text := "/".intercalate (parts.filter (· ≠ ""))
    joinCode (parts.map .string) = .ok (.string (join parts)) ∧
    (join parts = normalize text ↔ (parts.head? = some "" → isAbsolute text = false)) ∧
    (parts.head? = some "" → join parts = normalize (bare text).text) ∧
    isAbsolute (join parts) = parts.head?.any isAbsolute ∧
    isAbsolute text = (parts.find? (· ≠ "")).any isAbsolute ∧
    ((∀ part ∈ parts, part = "") → join parts = ".") ∧
    ∀ first rest, parts = first :: rest →
      join parts = join (first :: rest.filter (· ≠ "")) ∧
      join parts = join (first :: rest.map fun part => (bare part).text) := by
  intro text
  have hwalk (absolute : Bool) : walk absolute [] text.toList = walkAll absolute [] parts :=
    (walk_intercalate _).trans (walkAll_filter parts)
  have hjoin : join parts = written (leads parts) (walk (leads parts) [] text.toList) := by
    rw [hwalk, join_eq]
  have hresult : isAbsolute (join parts) = leads parts := by
    rw [hjoin]
    exact isAbsolute_written (Settled.nil.walk _)
  have htext : isAbsolute text = (parts.find? (· ≠ "")).any isAbsolute := by
    rw [← List.head?_filter]
    exact isAbsolute_intercalate fun part hpart => by simpa using (List.mem_filter.1 hpart).2
  have hleads (hagree : parts.head? = some "" → isAbsolute text = false) :
      leads parts = isAbsolute text := by
    cases parts with
    | nil => rfl
    | cons first rest =>
        by_cases hfirst : first = ""
        · subst hfirst
          exact (hagree rfl).symm
        · rw [htext, List.find?_cons_of_pos (by simpa using hfirst)]
          rfl
  have hrelative (hempty : parts.head? = some "") : leads parts = false := by
    rw [leads, hempty]
    rfl
  refine ⟨joinCode_strings parts, ⟨fun heq hempty => ?_, fun hagree => ?_⟩,
    fun hempty => ?_, hresult,
    htext, fun hnone => ?_, ?_⟩
  · rw [← isAbsolute_normalize, ← heq, hresult, hrelative hempty]
  · rw [hjoin, hleads hagree, normalize_eq]
  · rw [hjoin, hrelative hempty, ← walk_bare]
    exact (normalize_of_relative (isAbsolute_bare text)).symm
  · have htext_nil : text = "" := by
      have hfilter : parts.filter (· ≠ "") = [] := by simpa using hnone
      exact congrArg ("/".intercalate ·) hfilter
    rw [hjoin, hleads fun _ => by rw [htext_nil]; rfl, htext_nil]
    rfl
  · rintro first rest rfl
    rw [join_eq, join_eq, join_eq]
    refine ⟨congrArg (written _) ?_, congrArg (written _) ?_⟩
    · exact (walkAll_filter rest).symm
    · exact (walkAll_bare rest).symm

/-- Empty parts in the middle, slashes and backslashes at the beginning of a part, and a step up. -/
theorem join_normalizes_concatenation_mixed :
    join ["/a", "", "//b\\..", "\\c"] = normalize "/a///b\\../\\c" ∧
      isAbsolute (join ["/a", "", "//b\\..", "\\c"]) = true := by
  obtain ⟨-, hjoin, -, habsolute, -⟩ :=
    join_normalizes_concatenation ["/a", "", "//b\\..", "\\c"]
  exact ⟨hjoin.2 fun hempty => absurd hempty (by decide), habsolute⟩

/-- An empty text before an absolute one makes it relative. -/
theorem empty_first_part_not_skipped :
    join ["", "/a"] = "a" ∧ normalize ("/".intercalate (["", "/a"].filter (· ≠ ""))) = "/a" := by
  decide +kernel

end Builtin.Path

end ModuleLoader
