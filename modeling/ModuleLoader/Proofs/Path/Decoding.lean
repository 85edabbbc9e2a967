import ModuleLoader.Path.Url
import ModuleLoader.Proofs.Path.Folding
/-!
Reading a URL back.

Every character of a step is either shown as it is or as the bytes that it has in UTF-8,
each with a percent sign before it, and a percent sign is never shown as it is. So it is
to be seen at every character what it stands for, and the bytes of the steps come out
one after the other, with those of the slashes between them.

What is read back are the steps and not the text that the path was built from. They make
up the text again just if nothing in it is blank. Two paths have the same URL just if
they take the same steps.
-/

namespace ModuleLoader

namespace Path

/-! ### Characters -/

def hexValue? (c : Char) : Option Nat :=
  if '0' ≤ c ∧ c ≤ '9' then some (c.toNat - 48)
  else if 'A' ≤ c ∧ c ≤ 'F' then some (c.toNat - 55)
  else if 'a' ≤ c ∧ c ≤ 'f' then some (c.toNat - 87)
  else none

/-- The bytes that a text stands for. A percent sign stands for itself unless two digits follow. -/
def percentDecode : List Char → List UInt8
  | [] => []
  | '%' :: high :: low :: rest =>
    match hexValue? high, hexValue? low with
    | some h, some l => UInt8.ofNat (16 * h + l) :: percentDecode rest
    | _, _ => String.utf8EncodeChar '%' ++ percentDecode (high :: low :: rest)
  | c :: rest => String.utf8EncodeChar c ++ percentDecode rest

/-- The path of a `file` URL without a host, if what it stands for is text. -/
def decodeUrl? (url : String) : Option String :=
  ("file://".toList.isPrefixOf? url.toList).bind fun path =>
    String.fromUTF8? (percentDecode path).toByteArray

/-- The bytes of a text. -/
def bytes (text : List Char) : List UInt8 := text.flatMap String.utf8EncodeChar

theorem hexValue?_hexDigit {n : Nat} (h : n < 16) : hexValue? (hexDigit n) = some n := by
  revert n
  decide

theorem percentDecode_percentByte (b : UInt8) (rest : List Char) :
    percentDecode (percentByte b ++ rest) = b :: percentDecode rest := by
  have hb : b.toNat < 256 := b.toNat_lt
  have hhigh := hexValue?_hexDigit (n := b.toNat / 16) (by omega)
  have hlow := hexValue?_hexDigit (n := b.toNat % 16) (by omega)
  have hbyte : UInt8.ofNat (16 * (b.toNat / 16) + b.toNat % 16) = b := by
    rw [Nat.div_add_mod, UInt8.ofNat_toNat]
  change percentDecode ('%' :: hexDigit (b.toNat / 16) :: hexDigit (b.toNat % 16) :: rest) = _
  rw [percentDecode, hhigh, hlow]
  dsimp only
  rw [hbyte]

theorem percentDecode_flatMap_percentByte (bs : List UInt8) (rest : List Char) :
    percentDecode (bs.flatMap percentByte ++ rest) = bs ++ percentDecode rest := by
  induction bs with
  | nil => rfl
  | cons b bs ih =>
      rw [List.flatMap_cons, List.append_assoc, percentDecode_percentByte, ih, List.cons_append]

theorem percentDecode_cons {c : Char} (hc : c ≠ '%') (rest : List Char) :
    percentDecode (c :: rest) = String.utf8EncodeChar c ++ percentDecode rest := by
  rw [percentDecode]
  rintro high low tail rfl
  exact absurd rfl hc

theorem percentDecode_percentChar (c : Char) (rest : List Char) :
    percentDecode (percentChar c ++ rest) = String.utf8EncodeChar c ++ percentDecode rest := by
  unfold percentChar
  split
  · rename_i hplain
    refine percentDecode_cons ?_ rest
    rintro rfl
    exact absurd hplain (by decide)
  · exact percentDecode_flatMap_percentByte _ rest

theorem percentDecode_percentEncode (text : String) (rest : List Char) :
    percentDecode ((percentEncode text).toList ++ rest) = bytes text.toList ++
      percentDecode rest := by
  rw [percentEncode, String.toList_ofList, bytes]
  induction text.toList with
  | nil => rfl
  | cons c cs ih =>
      rw [List.flatMap_cons, List.append_assoc, percentDecode_percentChar, ih, List.flatMap_cons,
        List.append_assoc]

theorem fromUTF8?_bytes (text : String) :
    String.fromUTF8? (bytes text.toList).toByteArray = some text := by
  have hbytes : (bytes text.toList).toByteArray = text.toByteArray := String.utf8Encode_toList
  rw [hbytes, String.fromUTF8?, dif_pos text.isValidUTF8]
  rfl

/-! ### Steps -/

/-- Encoded steps, each behind a slash, are read back with the slashes. -/
theorem percentDecode_join (steps : List String) :
    percentDecode (String.join (steps.map fun step => "/" ++ percentEncode step)).toList =
      bytes (String.join (steps.map ("/" ++ ·))).toList := by
  induction steps with
  | nil => rfl
  | cons step rest ih =>
      have hslash : percentDecode ('/' :: ((percentEncode step).toList ++
          (String.join (rest.map fun step => "/" ++ percentEncode step)).toList)) =
            String.utf8EncodeChar '/' ++ (bytes step.toList ++
              bytes (String.join (rest.map ("/" ++ ·))).toList) := by
        rw [percentDecode_cons (by decide), percentDecode_percentEncode, ih]
      simpa [bytes] using hslash

theorem join_slashes {l : List String} (hl : l ≠ []) :
    String.join (l.map ("/" ++ ·)) = "/" ++ joined l := by
  induction l with
  | nil => exact absurd rfl hl
  | cons t rest ih =>
      by_cases hrest : rest = []
      · simp [hrest]
      · rw [List.map_cons, String.join_cons, ih hrest, joined_cons t hrest]
        simp only [String.append_assoc]

/-- The steps of a path can be read off its URL. -/
theorem decodeUrl?_of_fileUrl? {p : Path} {url : String} (h : p.fileUrl? = some url) :
    decodeUrl? url = some (ofComponents p.components).text := by
  unfold fileUrl? at h
  split at h
  · -- the slash of the root stands before no step
    rename_i hroot
    rw [hroot, ← Option.some.inj h]
    decide +kernel
  · rename_i steps hne hsteps
    have hmap : steps.map Component.text ≠ [] := by simpa using hne
    have htext : (ofComponents p.components).text =
        String.join ((steps.map Component.text).map ("/" ++ ·)) := by
      rw [hsteps, join_slashes hmap]
      rfl
    rw [htext, ← Option.some.inj h, decodeUrl?, String.toList_append,
      List.isPrefixOf?_eq_some_iff_append_eq.2 rfl]
    have hdecoded := percentDecode_join (steps.map Component.text)
    rw [List.map_map] at hdecoded
    exact (congrArg (fun bs : List UInt8 => String.fromUTF8? bs.toByteArray) hdecoded).trans
      (fromUTF8?_bytes _)
  · cases h

/-! ### Clean paths -/

/-- A slash and segments that are steps, each of them. -/
def Clean (p : Path) : Prop :=
  ∃ l, (∀ t ∈ l, IsSegment t ∧ isBlank t = false) ∧ p = rooted l

variable {p q : Path}

theorem Clean.isAbsolute (h : Clean p) : p.isAbsolute = true := by
  obtain ⟨l, -, rfl⟩ := h
  exact isAbsolute_rooted l

theorem Canonical.clean (h : Canonical p) : Clean p := by
  obtain ⟨names, hnames, rfl⟩ := h
  exact ⟨names, fun t ht => ⟨(hnames t ht).segment, (hnames t ht).isBlank⟩, rfl⟩

/-- What is between the slashes of a clean path is not blank. -/
theorem Clean.isBlank_eq_false {l : List String} (h : Clean (rooted l)) (hne : l ≠ [])
    (hl : ∀ t ∈ l, IsSegment t) : l = [""] ∨ ∀ t ∈ l, isBlank t = false := by
  obtain ⟨l', hl', heq⟩ := h
  refine (eq_of_rooted_eq hne hl (fun t ht => (hl' t ht).1) heq).imp_right ?_
  rintro rfl
  exact fun t ht => (hl' t ht).2

/-- The steps that segments spell have the segments for their texts. -/
theorem map_text_ofSegment? (l : List String) :
    (l.filterMap Component.ofSegment?).map Component.text = l.filter fun t => !isBlank t := by
  induction l with
  | nil => rfl
  | cons t rest ih =>
      cases ht : isBlank t with
      | true =>
          rw [List.filterMap_cons_none (ofSegment?_of_isBlank ht), ih,
            List.filter_cons_of_neg (by simp [ht])]
      | false =>
          obtain ⟨c, hc, htext⟩ := exists_ofSegment? ht
          rw [List.filterMap_cons_some hc, List.map_cons, htext, ih,
            List.filter_cons_of_pos (by simp [ht])]

/-- The path that takes the steps of an absolute path is what is left of it without blanks. -/
theorem ofComponents_rooted {l : List String} (hl : ∀ t ∈ l, IsSegment t) :
    ofComponents (rooted l).components = rooted (l.filter fun t => !isBlank t) := by
  rw [components_rooted hl, ← map_text_ofSegment?]
  rfl

theorem clean_iff (h : p.isAbsolute = true) : Clean p ↔ ofComponents p.components = p := by
  constructor
  · rintro ⟨l, hl, rfl⟩
    rw [ofComponents_rooted fun t ht => (hl t ht).1,
      List.filter_eq_self.2 fun t ht => by simp [(hl t ht).2]]
  · intro heq
    obtain ⟨l, -, hl, rfl⟩ := exists_rooted h
    rw [ofComponents_rooted hl] at heq
    refine ⟨_, fun t ht => ?_, heq.symm⟩
    obtain ⟨ht, hblank⟩ := List.mem_filter.1 ht
    exact ⟨hl t ht, by simpa using hblank⟩

/-- The path written from the components of another takes the same steps. -/
theorem components_ofComponents (h : p.isAbsolute = true) :
    (ofComponents p.components).components = p.components := by
  rw [components_of_isAbsolute h]
  exact components_ofComponents_origin (fun _ hc => isStep_of_mem_steps hc) true

theorem Clean.eq_of_components (hp : Clean p) (hq : Clean q) (h : p.components = q.components) :
    p = q := by
  rw [← (clean_iff hp.isAbsolute).1 hp, h, (clean_iff hq.isAbsolute).1 hq]

/-- Two paths have one URL if they take the same steps, and only then. -/
theorem fileUrl?_eq_iff (hp : p.isAbsolute = true) (hq : q.isAbsolute = true) {url url' : String}
    (h : p.fileUrl? = some url) (h' : q.fileUrl? = some url') :
    url = url' ↔ p.components = q.components := by
  constructor
  · rintro rfl
    have htext := (decodeUrl?_of_fileUrl? h).symm.trans (decodeUrl?_of_fileUrl? h')
    have hpath : ofComponents p.components = ofComponents q.components :=
      congrArg Path.mk (Option.some.inj htext)
    rw [← components_ofComponents hp, hpath, components_ofComponents hq]
  · intro heq
    unfold fileUrl? at h h'
    rw [heq, h'] at h
    exact (Option.some.inj h).symm

/-- What the URL of a path is read back to is the path just if the path is clean. -/
theorem decodeUrl?_eq_iff (hp : p.isAbsolute = true) {url : String} (h : p.fileUrl? = some url) :
    decodeUrl? url = some p.text ↔ Clean p := by
  rw [decodeUrl?_of_fileUrl? h, clean_iff hp, Option.some.injEq]
  exact ⟨congrArg Path.mk, congrArg Path.text⟩

/-- A clean path is put together again from its parent and its file name. -/
theorem Clean.join_fileName (h : Clean p) {name : String} (hname : p.fileName? = some name) :
    ∃ dir, p.parent? = some dir ∧ dir.join ⟨name⟩ = p := by
  obtain ⟨l, hl, rfl⟩ := h
  rcases List.eq_nil_or_concat' l with rfl | ⟨init, t, rfl⟩
  · have hnone : (rooted []).fileName? = none := by decide
    rw [hnone] at hname
    cases hname
  have hsegments : ∀ u ∈ init ++ [t], IsSegment u := fun u hu => (hl u hu).1
  have hanchored := anchored_rooted (by simp) hsegments
  have hblank : ∀ u ∈ init ++ [t], isBlank u = false := fun u hu => (hl u hu).2
  have hbody : trimmed (rooted (init ++ [t])).body = init ++ [t] := by
    rw [body, hanchored]
    exact trimmed_eq_self fun u hu => hblank u (List.mem_of_getLast? hu)
  have hinit : trimmed init = init :=
    trimmed_eq_self fun u hu => hblank u (List.mem_append_left _ (List.mem_of_getLast? hu))
  have ht : t = name := by
    have hlast := getLast?_components hbody
    unfold fileName? at hname
    obtain ⟨c, hc, htext⟩ := exists_ofSegment? (hl t (by simp)).2
    rw [hlast, hc] at hname
    cases c with
    | name u => exact htext.symm.trans (Option.some.inj hname)
    | _ => cases hname
  subst ht
  refine ⟨rooted init, ?_, ?_⟩
  · rw [parent?_of_trimmed hbody, mark, hanchored, hinit]
    rfl
  · have hlast : ∀ u ∈ init.getLast?, IsSegment u ∧ u ≠ "" := by
      intro u hu
      obtain ⟨hu, hblank⟩ := hl u (List.mem_append_left _ (List.mem_of_getLast? hu))
      exact ⟨hu, fun hempty => by simp [hempty, isBlank] at hblank⟩
    obtain ⟨ht, hblank⟩ := hl t (by simp)
    have hne : t ≠ "" := fun hempty => by simp [hempty, isBlank] at hblank
    have hjoin : (rooted init).join ⟨joined [t]⟩ = rooted (init ++ [t]) :=
      join_rooted_joined hlast ht hne
    rwa [joined_singleton] at hjoin

end Path

end ModuleLoader
