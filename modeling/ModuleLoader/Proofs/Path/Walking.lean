import ModuleLoader.Builtin.Path
import ModuleLoader.Proofs.Path.NormalForm
/-!
Walking a text with a stack of segments.

A text is walked segment by segment, and a walk can be broken off at any separator and
go on from the stack that it has come to. That is how texts can be joined.

The stack has steps up at the bottom, none of them in an absolute text, and names above
them. It is so at the beginning and every segment keeps it so. A stack of this shape is
written as a text that leads back to it, and whether the text is absolute is to be seen
there, if not on the stack.
-/

namespace ModuleLoader

namespace Builtin.Path

open ModuleLoader.Path (joined IsSegment IsName)

/-! ### Walking a text -/

def walk (absolute : Bool) (stack : List String) (text : List Char) : List String :=
  ((text.splitOnP isSeparator).map String.ofList).foldl (pushSegment absolute) stack

def written (absolute : Bool) (stack : List String) : String :=
  let text := joined stack.reverse
  if absolute then "/" ++ text else if text == "" then "." else text

theorem normalize_eq (text : String) :
    normalize text = written (isAbsolute text) (walk (isAbsolute text) [] text.toList) := rfl

variable {absolute : Bool} {stack : List String}

@[simp] theorem walk_nil : walk absolute stack [] = stack := rfl

theorem walk_append_cons {c : Char} (hc : isSeparator c) (a b : List Char) :
    walk absolute stack (a ++ c :: b) = walk absolute (walk absolute stack a) b := by
  rw [walk, List.splitOnP_append_cons a b hc, List.map_append, List.foldl_append]
  rfl

theorem walk_cons {c : Char} (hc : isSeparator c) (text : List Char) :
    walk absolute stack (c :: text) = walk absolute stack text :=
  walk_append_cons hc [] text

theorem walk_dropWhile (text : List Char) :
    walk absolute stack (text.dropWhile isSeparator) = walk absolute stack text := by
  induction text with
  | nil => rfl
  | cons c rest ih =>
      by_cases hc : isSeparator c
      · rw [List.dropWhile_cons_of_pos hc, ih, walk_cons hc]
      · rw [List.dropWhile_cons_of_neg hc]

def walkAll (absolute : Bool) (stack : List String) (parts : List String) : List String :=
  parts.foldl (fun stack part => walk absolute stack part.toList) stack

theorem walkAll_append (parts parts' : List String) :
    walkAll absolute stack (parts ++ parts') =
      walkAll absolute (walkAll absolute stack parts) parts' :=
  List.foldl_append

theorem walkAll_filter (parts : List String) :
    walkAll absolute stack (parts.filter (· ≠ "")) = walkAll absolute stack parts := by
  induction parts generalizing stack with
  | nil => rfl
  | cons part rest ih =>
      by_cases hpart : part = ""
      · subst hpart
        exact ih
      · rw [List.filter_cons_of_pos (by simpa using hpart)]
        exact ih

theorem walk_intercalate (parts : List String) :
    walk absolute stack ("/".intercalate parts).toList = walkAll absolute stack parts := by
  induction parts generalizing stack with
  | nil => rfl
  | cons part rest ih =>
      cases rest with
      | nil => simp [walkAll]
      | cons next others =>
          rw [String.intercalate_cons_cons, String.append_assoc, String.toList_append,
            String.toList_append]
          exact (walk_append_cons rfl _ _).trans ih

/-! ### The shape of a stack -/

def Whole (t : String) : Prop := ∀ c ∈ t.toList, isSeparator c = false

theorem whole_iff {t : String} : Whole t ↔ IsSegment t ∧ '\\' ∉ t.toList := by
  constructor
  · intro h
    exact ⟨fun hslash => Bool.noConfusion (h '/' hslash),
      fun hback => Bool.noConfusion (h '\\' hback)⟩
  · rintro ⟨hslash, hback⟩ c hc
    have hne : c ≠ '/' ∧ c ≠ '\\' := ⟨fun h => hslash (h ▸ hc), fun h => hback (h ▸ hc)⟩
    simp [isSeparator, hne]

structure IsStep (t : String) : Prop extends IsName t where
  no_backslash : '\\' ∉ t.toList

inductive Settled (absolute : Bool) : List String → Prop
  | nil : Settled absolute []
  | up {stack : List String} : absolute = false → Settled absolute stack →
      (∀ t ∈ stack.head?, t = "..") → Settled absolute (".." :: stack)
  | name {t : String} {stack : List String} : IsStep t → Settled absolute stack →
      Settled absolute (t :: stack)

theorem pushSegment_of_ne {t : String} (hempty : t ≠ "") (hhere : t ≠ ".") (hup : t ≠ "..") :
    pushSegment absolute stack t = t :: stack := by
  rw [pushSegment] <;> assumption

theorem Settled.pushSegment (h : Settled absolute stack) {t : String} (ht : Whole t) :
    Settled absolute (pushSegment absolute stack t) := by
  unfold Builtin.Path.pushSegment
  split
  · exact h
  · exact h
  · cases h with
    | nil =>
        cases absolute with
        | true => exact .nil
        | false => exact .up rfl .nil nofun
    | up hrelative hrest hhead =>
        -- a step up takes back names only, and an absolute text would have none on its stack
        subst hrelative
        exact .up rfl (.up rfl hrest hhead) (by simp)
    | name hname hrest =>
        dsimp only
        rw [if_pos (by simpa using hname.ne_up)]
        exact hrest
  · rename_i hempty hhere hup
    obtain ⟨hslash, hback⟩ := whole_iff.1 ht
    exact .name ⟨⟨hslash, hempty, hhere, hup⟩, hback⟩ h

/-- The segment on top is one that would be pushed there. -/
theorem Settled.pushSegment_top {t : String} (h : Settled absolute (t :: stack)) :
    Builtin.Path.pushSegment absolute stack t = t :: stack := by
  cases h with
  | up hrelative hrest hhead =>
      subst hrelative
      cases stack with
      | nil => rfl
      | cons u rest =>
          obtain rfl : u = ".." := hhead u rfl
          rfl
  | name ht _ => exact pushSegment_of_ne ht.ne_empty ht.ne_here ht.ne_up

theorem Settled.tail {t : String} (h : Settled absolute (t :: stack)) : Settled absolute stack := by
  cases h with
  | up _ hrest _ => exact hrest
  | name _ hrest => exact hrest

theorem Settled.foldl_reverse (h : Settled absolute stack) :
    stack.reverse.foldl (Builtin.Path.pushSegment absolute) [] = stack := by
  induction stack with
  | nil => rfl
  | cons t rest ih =>
      rw [List.reverse_cons, List.foldl_append, ih h.tail]
      exact h.pushSegment_top

theorem settled_names (h : Settled absolute stack) {names : List String}
    (hnames : ∀ t ∈ names, IsStep t) : Settled absolute (names ++ stack) := by
  induction names with
  | nil => exact h
  | cons t rest ih =>
      obtain ⟨ht, hrest⟩ := List.forall_mem_cons.1 hnames
      exact .name ht (ih hrest)

theorem settled_replicate (n : Nat) (h : absolute = true → n = 0) :
    Settled absolute (List.replicate n "..") := by
  cases absolute with
  | true =>
      rw [h rfl]
      exact .nil
  | false =>
      induction n with
      | zero => exact .nil
      | succ n ih =>
          exact .up rfl (ih nofun) fun t ht => List.eq_of_mem_replicate (List.mem_of_head? ht)

/-- All that a stack can be. -/
theorem settled_iff : Settled absolute stack ↔ ∃ n names, (absolute = true → n = 0) ∧
    (∀ t ∈ names, IsStep t) ∧ stack = names ++ List.replicate n ".." := by
  constructor
  · intro h
    induction h with
    | nil => exact ⟨0, [], fun _ => rfl, nofun, rfl⟩
    | up hrelative _ hhead ih =>
        obtain ⟨n, names, -, hnames, rfl⟩ := ih
        have hnone : names = [] := by
          cases names with
          | nil => rfl
          | cons t rest => exact absurd (hhead t rfl) (hnames t List.mem_cons_self).ne_up
        have hn : absolute = true → n + 1 = 0 := by simp [hrelative]
        exact ⟨n + 1, [], hn, nofun, by simp [hnone, List.replicate_succ]⟩
    | name ht _ ih =>
        obtain ⟨n, names, hn, hnames, rfl⟩ := ih
        exact ⟨n, _ :: names, hn, List.forall_mem_cons.2 ⟨ht, hnames⟩, rfl⟩
  · rintro ⟨n, names, hn, hnames, rfl⟩
    exact settled_names (settled_replicate n hn) hnames

theorem Settled.mem (h : Settled absolute stack) {t : String} (ht : t ∈ stack) :
    t = ".." ∨ IsStep t := by
  obtain ⟨n, names, -, hnames, rfl⟩ := settled_iff.1 h
  rcases List.mem_append.1 ht with ht | ht
  · exact .inr (hnames t ht)
  · exact .inl (List.eq_of_mem_replicate ht)

theorem Settled.whole (h : Settled absolute stack) {t : String} (ht : t ∈ stack) : Whole t := by
  rw [whole_iff]
  rcases h.mem ht with rfl | hstep
  · decide
  · exact ⟨hstep.segment, hstep.no_backslash⟩

/-- Every segment on the stack is a text between slashes, and not an empty one. -/
def Proper (stack : List String) : Prop :=
  ∀ segment ∈ stack, ModuleLoader.Path.IsSegment segment ∧ segment ≠ ""

theorem Settled.proper (h : Settled absolute stack) : Proper stack := by
  intro t ht
  refine ⟨(whole_iff.1 (h.whole ht)).1, ?_⟩
  rcases h.mem ht with rfl | hstep
  · decide
  · exact hstep.ne_empty

/-! ### Walking keeps the shape -/

theorem walk_of_whole {t : String} (h : Whole t) :
    walk absolute stack t.toList = pushSegment absolute stack t := by
  have hsplit : t.toList.splitOnP isSeparator = [t.toList] :=
    List.splitOnP_eq_singleton h
  rw [walk, hsplit]
  simp

theorem walkAll_of_whole {parts : List String} (h : ∀ t ∈ parts, Whole t) :
    walkAll absolute stack parts = parts.foldl (pushSegment absolute) stack := by
  induction parts generalizing stack with
  | nil => rfl
  | cons part rest ih =>
      obtain ⟨hpart, hrest⟩ := List.forall_mem_cons.1 h
      exact (ih hrest).trans (congrArg (rest.foldl (pushSegment absolute)) (walk_of_whole hpart))

theorem Settled.foldl (h : Settled absolute stack) {parts : List String}
    (hparts : ∀ t ∈ parts, Whole t) :
    Settled absolute (parts.foldl (Builtin.Path.pushSegment absolute) stack) := by
  induction parts generalizing stack with
  | nil => exact h
  | cons part rest ih =>
      obtain ⟨hpart, hrest⟩ := List.forall_mem_cons.1 hparts
      exact ih (h.pushSegment hpart) hrest

theorem Settled.walk (h : Settled absolute stack) (text : List Char) :
    Settled absolute (walk absolute stack text) := by
  apply h.foldl
  intro t ht
  obtain ⟨piece, hpiece, rfl⟩ := List.mem_map.1 ht
  rw [Whole, String.toList_ofList]
  exact ModuleLoader.Path.eq_false_of_mem_splitOnP hpiece

theorem Settled.walkAll (h : Settled absolute stack) (parts : List String) :
    Settled absolute (walkAll absolute stack parts) := by
  induction parts generalizing stack with
  | nil => exact h
  | cons part rest ih => exact ih (h.walk part.toList)

/-! ### What a stack is written as -/

/-- Whether a text is absolute is not on the stack, but it is to be seen where the stack is written.
-/
theorem isAbsolute_written (h : Settled absolute stack) :
    isAbsolute (written absolute stack) = absolute := by
  cases absolute with
  | true => simp [written, isAbsolute, ModuleLoader.Path.isAbsolute]
  | false =>
      have hreverse : Proper stack.reverse := fun t ht => h.proper t (List.mem_reverse.1 ht)
      unfold written
      rw [if_neg (by simp)]
      split
      · rfl
      · rename_i hne
        cases hsegments : stack.reverse with
        | nil => simp [hsegments] at hne
        | cons t rest =>
            obtain ⟨ht, hnonempty⟩ := hreverse t (by simp [hsegments])
            exact ModuleLoader.Path.isAbsolute_joined ht hnonempty

theorem joined_eq_intercalate (parts : List String) : joined parts = "/".intercalate parts := by
  induction parts with
  | nil => rfl
  | cons part rest ih =>
      cases rest with
      | nil => simp
      | cons next others =>
          rw [ModuleLoader.Path.joined_cons part (List.cons_ne_nil _ _), ih,
            String.intercalate_cons_cons]

theorem walk_joined (parts : List String) :
    walk absolute stack (joined parts).toList = walkAll absolute stack parts := by
  rw [joined_eq_intercalate, walk_intercalate]

/-- A slash before the text, or a dot in its place, leaves no trace. -/
theorem walk_written_eq :
    walk absolute [] (written absolute stack).toList = walk absolute []
      (joined stack.reverse).toList := by
  unfold written
  cases absolute with
  | true =>
      rw [if_pos rfl, String.toList_append]
      exact walk_cons rfl _
  | false =>
      rw [if_neg (by simp)]
      split
      · rename_i hempty
        rw [eq_of_beq hempty]
        rfl
      · rfl

theorem Settled.walk_written (h : Settled absolute stack) :
    Builtin.Path.walk absolute [] (written absolute stack).toList = stack := by
  have hwhole : ∀ t ∈ stack.reverse, Whole t := fun t ht => h.whole (List.mem_reverse.1 ht)
  rw [walk_written_eq, walk_joined, walkAll_of_whole hwhole, h.foldl_reverse]

theorem Settled.normalize_written (h : Settled absolute stack) :
    normalize (written absolute stack) = written absolute stack := by
  rw [normalize_eq, isAbsolute_written h, h.walk_written]

end Builtin.Path

end ModuleLoader
