import ModuleLoader.Proofs.Path.Containment
/-!
Package ids taken apart by offsets.

Where the name of a package ends can be told in characters or in bytes. By bytes it takes
some counting: slashes are found in what stands behind the mark of a scope, or behind the
scope, and are then counted from the beginning of the id. A text may be cut where a
character begins and where it ends, and nowhere else. Since a slash is one byte, as the
mark of a scope is, all the cuts are before a slash, behind one, or at an end.

What is counted comes to what is found by going along the characters. So either way
nothing is lost, and the slashes of an id alone say whether there is a path in it.
-/

namespace ModuleLoader

namespace RequireId

open Path (IsSegment)

/-! ### Offsets -/

/-- The text between two offsets in bytes. There is one if a character begins or the text ends at
each of the two, and if the second is not before the first. -/
def slice? (text : String) (start stop : Nat) : Option String :=
  if h : start ≤ stop ∧ String.Pos.Raw.IsValid text ⟨start⟩ ∧
    String.Pos.Raw.IsValid text ⟨stop⟩ then
    some (text.slice (text.pos ⟨start⟩ h.2.1) (text.pos ⟨stop⟩ h.2.2) h.1).copy
  else none

def slashOffset? (text : String) : Option Nat := (text.find? '/').map (·.offset.byteIdx)

/-- The name of a package and the path inside it, cut out of the id where the slashes are. -/
def cutPackage? (id : String) : Option (String × Option String) :=
  match id.toList with
  | '@' :: inner =>
    match slashOffset? (String.ofList inner) with
    | none => some (id, none)
    | some slash => do
      let afterScope ← slice? id (slash + 2) id.utf8ByteSize
      match slashOffset? afterScope with
      | none => return (id, none)
      | some subpath =>
        let nameEnd := slash + 2 + subpath
        return (← slice? id 0 nameEnd, some (← slice? id (nameEnd + 1) id.utf8ByteSize))
  | _ =>
    match slashOffset? id with
    | none => some (id, none)
    | some slash => return (← slice? id 0 slash, some (← slice? id (slash + 1) id.utf8ByteSize))

variable {before after : String}

theorem slice?_append (a b c : String) :
    slice? (a ++ b ++ c) a.utf8ByteSize (a ++ b).utf8ByteSize = some b := by
  have hstart : String.Pos.Raw.IsValid (a ++ b ++ c) ⟨a.utf8ByteSize⟩ :=
    String.Pos.Raw.isValid_iff_exists_append.2 ⟨a, b ++ c, String.append_assoc, rfl⟩
  have hstop : String.Pos.Raw.IsValid (a ++ b ++ c) ⟨(a ++ b).utf8ByteSize⟩ :=
    String.Pos.Raw.isValid_iff_exists_append.2 ⟨a ++ b, c, rfl, rfl⟩
  have hle : a.utf8ByteSize ≤ (a ++ b).utf8ByteSize := by simp
  have hslice :
      ∃ h, ((a ++ b ++ c).slice (String.pos _ _ hstart) (String.pos _ _ hstop) h).copy = b :=
    String.copy_slice_eq_iff_splits.2 ⟨a, c, ⟨String.append_assoc, rfl⟩, ⟨rfl, rfl⟩⟩
  obtain ⟨_, hcopy⟩ := hslice
  rw [slice?, dif_pos ⟨hle, hstart, hstop⟩]
  exact congrArg some hcopy

theorem slice?_before : slice? (before ++ "/" ++ after) 0 before.utf8ByteSize = some before := by
  have hslice := slice?_append "" before ("/" ++ after)
  rwa [String.empty_append, ← String.append_assoc] at hslice

theorem slice?_behind : slice? (before ++ "/" ++ after) (before.utf8ByteSize + 1)
    (before ++ "/" ++ after).utf8ByteSize = some after := by
  have hslice := slice?_append (before ++ "/") after ""
  have hsize : (before ++ "/").utf8ByteSize = before.utf8ByteSize + 1 := String.utf8ByteSize_append
  rwa [String.append_empty, hsize] at hslice

theorem slashOffset?_append (h : IsSegment before) :
    slashOffset? (before ++ "/" ++ after) = some before.utf8ByteSize := by
  have hpos : String.Pos.Raw.IsValid (before ++ "/" ++ after) ⟨before.utf8ByteSize⟩ :=
    String.Pos.Raw.isValid_iff_exists_append.2 ⟨before, "/" ++ after, String.append_assoc, rfl⟩
  have hfind : (before ++ "/" ++ after).find? '/' = some (String.pos _ _ hpos) :=
    String.find?_char_eq_some_iff_splits.2 ⟨before, after, ⟨String.append_assoc, rfl⟩, h⟩
  rw [slashOffset?, hfind]
  rfl

theorem slashOffset?_eq_none {text : String} (h : IsSegment text) : slashOffset? text = none := by
  rw [slashOffset?, Option.map_eq_none_iff, Option.eq_none_iff_forall_not_mem]
  intro pos hpos
  obtain ⟨t, u, hsplit, -⟩ := String.find?_char_eq_some_iff_splits.1 hpos
  apply h
  rw [hsplit.eq_append]
  simp

/-! ### Ids and their slashes -/

/-- How many slashes there are in a text. -/
def slashes (text : String) : Nat := text.toList.count '/'

@[simp] theorem slashes_append (a b : String) : slashes (a ++ b) = slashes a + slashes b := by
  simp [slashes]

theorem slashes_eq_zero {text : String} (h : IsSegment text) : slashes text = 0 :=
  List.count_eq_zero.2 h

theorem slashes_scoped {scope n : String} (hscope : IsSegment scope) (hn : IsSegment n) :
    slashes ("@" ++ scope ++ "/" ++ n) = 1 := by
  have hmarks : slashes "@" = 0 ∧ slashes "/" = 1 := by decide
  rw [slashes_append, slashes_append, slashes_append, slashes_eq_zero hscope, slashes_eq_zero hn,
    hmarks.1, hmarks.2]

/-- Which of its slashes ends the name in an id: the first, or the second if the name has a scope.
-/
def endingSlash (id : String) : Nat := if id.toList.head? = some '@' then 2 else 1

theorem isSegment_tail {text : String} (h : IsSegment text) {c : Char} {rest : List Char}
    (htext : text.toList = c :: rest) : IsSegment (String.ofList rest) := by
  rw [IsSegment, String.toList_ofList]
  exact fun hmem => h (htext ▸ List.mem_cons_of_mem _ hmem)

theorem isSegment_or_append (text : String) :
    IsSegment text ∨ ∃ before after, IsSegment before ∧ text = before ++ "/" ++ after := by
  by_cases h : '/' ∈ text.toList
  · obtain ⟨before, after, htext, hbefore⟩ := List.eq_append_cons_of_mem h
    refine .inr ⟨String.ofList before, String.ofList after, ?_, String.ext (by simp [htext])⟩
    rwa [IsSegment, String.toList_ofList]
  · exact .inl h

/-- The shapes that a package id can have. -/
theorem package_id_cases (id : String) :
    (IsSegment id ∨ ∃ scope n, IsSegment scope ∧ IsSegment n ∧ id = "@" ++ scope ++ "/" ++ n) ∨
      ∃ name sub, IsPackageName name ∧ id = name ++ "/" ++ sub := by
  rcases isSegment_or_append id with hid | ⟨first, others, hfirst, rfl⟩
  · exact .inl (.inl hid)
  by_cases hhead : first.toList.head? = some '@'
  · obtain ⟨rest, hrest⟩ := List.head?_eq_some_iff.1 hhead
    have hscope : first = "@" ++ String.ofList rest := String.ext (by simp [hrest])
    have hsegment := isSegment_tail hfirst hrest
    rw [hscope]
    rcases isSegment_or_append others with hothers | ⟨n, sub, hn, rfl⟩
    · exact .inl (.inr ⟨_, others, hsegment, hothers, rfl⟩)
    · exact .inr ⟨_, sub, .inr ⟨_, n, hsegment, hn, rfl⟩, by simp only [String.append_assoc]⟩
  · exact .inr ⟨first, others, .inl ⟨hfirst, hhead⟩, rfl⟩

section

variable {id scope n name sub : String}

theorem splitPackage_of_isSegment (h : IsSegment id) : splitPackage id = (id, none) := by
  unfold splitPackage
  split
  · rename_i rest hid
    have hrest : '/' ∉ rest := by simpa [IsSegment] using isSegment_tail h hid
    rw [splitAtSlash_eq_none_iff.2 hrest]
  · rw [splitAtSlash_eq_none_iff.2 h]

theorem splitPackage_scoped (hscope : IsSegment scope) (hn : IsSegment n) :
    splitPackage ("@" ++ scope ++ "/" ++ n) = ("@" ++ scope ++ "/" ++ n, none) := by
  have hid : ("@" ++ scope ++ "/" ++ n).toList = '@' :: (scope.toList ++ '/' :: n.toList) := by
    simp
  unfold splitPackage
  rw [hid]
  simp only [splitAtSlash_append hscope, splitAtSlash_eq_none_iff.2 hn]

/-! ### The cuts -/

theorem cutPackage?_of_isSegment (h : IsSegment id) : cutPackage? id = some (id, none) := by
  unfold cutPackage?
  split
  · rename_i inner hid
    rw [slashOffset?_eq_none (isSegment_tail h hid)]
  · rw [slashOffset?_eq_none h]

/-- Behind the scope and its slash the cut is found from where the scope ends. -/
theorem slice?_behind_scope (scope behind : String) :
    slice? ("@" ++ scope ++ "/" ++ behind) (scope.utf8ByteSize + 2)
      ("@" ++ scope ++ "/" ++ behind).utf8ByteSize = some behind := by
  have hsize : ("@" ++ scope).utf8ByteSize + 1 = scope.utf8ByteSize + 2 := by
    rw [String.utf8ByteSize_append]
    exact congrArg (· + 1) (Nat.add_comm 1 scope.utf8ByteSize)
  rw [← hsize]
  exact slice?_behind

theorem cutPackage?_scope (scope behind : String) (hscope : IsSegment scope) :
    let id := "@" ++ scope ++ "/" ++ behind
    cutPackage? id = match slashOffset? behind with
      | none => some (id, none)
      | some subpath => do
        let nameEnd := scope.utf8ByteSize + 2 + subpath
        return (← slice? id 0 nameEnd, some (← slice? id (nameEnd + 1) id.utf8ByteSize)) := by
  intro id
  have hid : id.toList = '@' :: (scope ++ "/" ++ behind).toList := by simp [id]
  have hbehind := slice?_behind_scope scope behind
  unfold cutPackage?
  simp only [hid, String.ofList_toList, slashOffset?_append hscope]
  rw [hbehind]
  rfl

theorem head?_append (name sub : String) :
    (name ++ "/" ++ sub).toList.head? = some '@' ↔ name.toList.head? = some '@' := by
  cases h : name.toList <;> simp [h]

theorem cutPackage?_append (h : IsPackageName name) (sub : String) :
    cutPackage? (name ++ "/" ++ sub) = some (name, some sub) := by
  rcases h with ⟨hname, hhead⟩ | ⟨scope, n, hscope, hn, rfl⟩
  · unfold cutPackage?
    split
    · rename_i inner hid
      have hscoped : (name ++ "/" ++ sub).toList.head? = some '@' := by rw [hid]; rfl
      exact absurd ((head?_append name sub).1 hscoped) hhead
    · simp only [slashOffset?_append hname, slice?_before, slice?_behind]
      rfl
  · have hcut := cutPackage?_scope scope (n ++ "/" ++ sub) hscope
    have hid : "@" ++ scope ++ "/" ++ (n ++ "/" ++ sub) = "@" ++ scope ++ "/" ++ n ++
      "/" ++ sub := by
      simp only [String.append_assoc]
    have hend :
        scope.utf8ByteSize + 2 + n.utf8ByteSize = ("@" ++ scope ++ "/" ++ n).utf8ByteSize := by
      simp only [String.utf8ByteSize_append]
      have hmarks : "@".utf8ByteSize = 1 ∧ "/".utf8ByteSize = 1 := ⟨rfl, rfl⟩
      omega
    simp only [slashOffset?_append hn, hid, hend, slice?_before, slice?_behind] at hcut
    exact hcut

theorem cutPackage?_scoped (hscope : IsSegment scope) (hn : IsSegment n) :
    cutPackage? ("@" ++ scope ++ "/" ++ n) = some ("@" ++ scope ++ "/" ++ n, none) := by
  have hcut := cutPackage?_scope scope n hscope
  simp only [slashOffset?_eq_none hn] at hcut
  exact hcut

end

/-- Taking a package id apart loses nothing. All the offsets at which it is cut are between
characters and inside the id, and the name ends at the first slash, or at the second if it has a
scope. -/
theorem splitPackage_lossless (id : String) :
    cutPackage? id = some (splitPackage id) ∧
    ((splitPackage id = (id, none) ∧ slashes id < endingSlash id) ∨
      ∃ name sub, splitPackage id = (name, some sub) ∧ id = name ++ "/" ++ sub ∧
        slashes name + 1 = endingSlash id ∧ endingSlash id ≤ slashes id) := by
  rcases package_id_cases id with (hid | ⟨scope, n, hscope, hn, rfl⟩) | ⟨name, sub, hname, rfl⟩
  · refine ⟨?_, .inl ⟨splitPackage_of_isSegment hid, ?_⟩⟩
    · rw [cutPackage?_of_isSegment hid, splitPackage_of_isSegment hid]
    · rw [slashes_eq_zero hid, endingSlash]
      split <;> decide
  · refine ⟨?_, .inl ⟨splitPackage_scoped hscope hn, ?_⟩⟩
    · rw [cutPackage?_scoped hscope hn, splitPackage_scoped hscope hn]
    · have hending : endingSlash ("@" ++ scope ++ "/" ++ n) = 2 := if_pos (by simp)
      rw [hending, slashes_scoped hscope hn]
      decide
  · have hslashes : slashes name + 1 = endingSlash (name ++ "/" ++ sub) := by
      simp only [endingSlash, head?_append]
      rcases hname with ⟨hname, hhead⟩ | ⟨scope, n, hscope, hn, rfl⟩
      · rw [if_neg hhead, slashes_eq_zero hname]
      · rw [if_pos (by simp), slashes_scoped hscope hn]
    refine ⟨?_, .inr ⟨name, sub, splitPackage_append hname sub, rfl, hslashes, ?_⟩⟩
    · rw [cutPackage?_append hname, splitPackage_append hname]
    · rw [← hslashes, slashes_append, slashes_append]
      exact Nat.le_add_right _ _

/-- Slashes in excess are part of the path. -/
example : splitPackage "@é//ñ//x/" = ("@é/", some "ñ//x/") := by decide

end RequireId

end ModuleLoader
