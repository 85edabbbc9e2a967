import ModuleLoader.Cache
/-!
The cache after a change.

Paths are one key if they take the same steps. So every change of the cache is a
change for a whole class of paths, and what is found under a path afterwards
depends on that class alone.
-/

namespace ModuleLoader

namespace Path

variable {p q r : Path}

theorem same_iff : p.same q ↔ p.components = q.components := beq_iff_eq

@[simp] theorem same_refl (p : Path) : p.same p := same_iff.2 rfl

theorem same_symm (h : p.same q) : q.same p := same_iff.2 (same_iff.1 h).symm

theorem same_comm (p q : Path) : p.same q = q.same p :=
  Bool.eq_iff_iff.2 ⟨same_symm, same_symm⟩

theorem same_trans (hpq : p.same q) (hqr : q.same r) : p.same r :=
  same_iff.2 ((same_iff.1 hpq).trans (same_iff.1 hqr))

theorem same_congr (h : p.same q) : p.same r ↔ q.same r :=
  ⟨same_trans (same_symm h), same_trans h⟩

end Path

namespace CachedModule

@[simp] theorem exports_addChild (m : CachedModule) (child : Path) :
    (m.addChild child).exports = m.exports := by
  unfold addChild
  split <;> rfl

@[simp] theorem parent?_addChild (m : CachedModule) (child : Path) :
    (m.addChild child).parent? = m.parent? := by
  unfold addChild
  split <;> rfl

end CachedModule

namespace Cache

variable {c : Cache} {p q : Path}

theorem get?_congr (c : Cache) (h : p.same q) : c.get? p = c.get? q := by
  simp only [get?, Path.same, Path.same_iff.1 h]

@[simp] theorem get?_empty (p : Path) : empty.get? p = none := rfl

theorem get?_modify (c : Cache) (p q : Path) (f : CachedModule → CachedModule) :
    (c.modify p f).get? q = if q.same p then (c.get? q).map f else c.get? q := by
  let g : Path × CachedModule → Path × CachedModule :=
    fun e => if e.1.same p then (e.1, f e.2) else (e.1, e.2)
  have hkey (e : Path × CachedModule) : (g e).1 = e.1 := by dsimp only [g]; split <;> rfl
  have hfind : (c.modify p f).get? q = ((c.entries.find? (·.1.same q)).map g).map Prod.snd := by
    change ((c.entries.map g).find? _).map Prod.snd = _
    rw [List.find?_map]
    simp only [Function.comp_def, hkey]
  rw [hfind, get?]
  cases hentry : c.entries.find? (·.1.same q) with
  | none => simp
  | some e =>
      have he : e.1.same q := by simpa using List.find?_some hentry
      have hsame : e.1.same p ↔ q.same p := Path.same_congr he
      by_cases hq : q.same p
      · simp [g, hq, hsame.2 hq]
      · simp [g, hq, mt hsame.1 hq]

theorem get?_insert (c : Cache) (p q : Path) (m : CachedModule) :
    (c.insert p m).get? q = if q.same p then some m else c.get? q := by
  unfold insert
  by_cases hp : c.contains p
  · rw [if_pos hp, get?_modify]
    by_cases hq : q.same p
    · obtain ⟨e, he⟩ := Option.isSome_iff_exists.1 hp
      rw [if_pos hq, if_pos hq, c.get?_congr hq, he, Option.map_some]
    · rw [if_neg hq, if_neg hq]
  · have hnone : c.get? p = none := by simpa [contains] using hp
    simp only [if_neg hp, get?, List.find?_append, List.find?_singleton]
    by_cases hq : q.same p
    · rw [← c.get?_congr hq] at hnone
      have hmiss : c.entries.find? (·.1.same q) = none := Option.map_eq_none_iff.1 hnone
      simp [hmiss, hq, Path.same_symm hq]
    · simp [hq, mt Path.same_symm hq]

theorem get?_erase (c : Cache) (p q : Path) :
    (c.erase p).get? q = if q.same p then none else c.get? q := by
  simp only [get?, erase, List.find?_filter]
  by_cases hq : q.same p
  · rw [if_pos hq, Option.map_eq_none_iff, List.find?_eq_none]
    intro e _ he
    simp only [Bool.not_eq_true', decide_eq_true_eq] at he
    simp [Path.same_trans he.2 hq] at he
  · rw [if_neg hq]
    congr 2
    funext e
    by_cases he : e.1.same q
    · simp [he, mt (Path.same_congr he).1 hq]
    · simp [he]

theorem exports?_addChild (c : Cache) (parent child p : Path) :
    (c.addChild parent child).exports? p = c.exports? p := by
  rw [exports?, addChild, get?_modify, exports?]
  split
  · simp [Function.comp_def]
  · rfl

end Cache

end ModuleLoader
