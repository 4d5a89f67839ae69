import Mathlib.Data.List.Nodup
import Mathlib.Data.List.Infix
import Mathlib.Data.List.Basic

/-!
# Interners

An interner is a list of distinct entries, an entry's id its position.
Interning answers the position of an entry that is there and appends one that
is not, so positions never move: every later interner extends the earlier one.

Merging interns a list of entries one after the other and keeps their
positions. Distinct entries are merged to distinct positions, and positions
move only where the entries of the two sides disagree.
-/

namespace Moth.Lib

/-- Distinct entries in order. -/
structure Interner (α : Type) where
  entries : List α
  nodup : entries.Nodup

namespace Interner

variable {α : Type}

def resolve (t : Interner α) (i : Nat) : Option α := t.entries[i]?

def len (t : Interner α) : Nat := t.entries.length

/-- The other interner has the same entries, and maybe more after them. -/
def Extends (t t' : Interner α) : Prop := t.entries <+: t'.entries

theorem Extends.refl (t : Interner α) : t.Extends t := List.prefix_refl _

theorem Extends.trans {t t' t'' : Interner α} (h : t.Extends t') (h' : t'.Extends t'') :
    t.Extends t'' := List.IsPrefix.trans h h'

theorem Extends.resolve {t t' : Interner α} (h : t.Extends t') {i : Nat} (hi : i < t.len) :
    t'.resolve i = t.resolve i := by
  obtain ⟨rest, hrest⟩ := h
  rw [Interner.resolve, Interner.resolve, ← hrest, List.getElem?_append_left hi]

theorem Extends.len_le {t t' : Interner α} (h : t.Extends t') : t.len ≤ t'.len :=
  List.IsPrefix.length_le h

theorem resolve_lt {t : Interner α} {i : Nat} {x : α} (h : t.resolve i = some x) : i < t.len :=
  (List.getElem?_eq_some_iff.1 h).1

theorem resolve_inj {t : Interner α} {i j : Nat} (hi : i < t.len) :
    t.resolve i = t.resolve j ↔ i = j := by
  constructor
  · intro h
    have hget : t.resolve i = some t.entries[i] := List.getElem?_eq_getElem hi
    rw [hget] at h
    obtain ⟨hj, heq⟩ := List.getElem?_eq_some_iff.1 h.symm
    exact ((List.Nodup.getElem_inj_iff t.nodup).1 heq).symm
  · rintro rfl
    rfl

section Intern

variable [DecidableEq α]

def find (t : Interner α) (x : α) : Option Nat := t.entries.idxOf? x

theorem find_eq_some {t : Interner α} {x : α} {i : Nat} :
    t.find x = some i ↔ t.resolve i = some x := by
  rw [find, resolve, List.idxOf?_eq_some_iff, List.getElem?_eq_some_iff]
  constructor
  · rintro ⟨hlt, hget, -⟩
    exact ⟨hlt, hget⟩
  · rintro ⟨hlt, hget⟩
    refine ⟨hlt, hget, fun j hj heq => ?_⟩
    have hsame : j = i := (List.Nodup.getElem_inj_iff t.nodup).1 (heq.trans hget.symm)
    omega

theorem find_eq_none {t : Interner α} {x : α} : t.find x = none ↔ x ∉ t.entries :=
  List.idxOf?_eq_none_iff

/-- Append an entry that is not there. -/
def push (t : Interner α) (x : α) (h : x ∉ t.entries) : Interner α where
  entries := t.entries ++ [x]
  nodup := by
    rw [List.nodup_append]
    refine ⟨t.nodup, List.nodup_singleton x, fun a ha b hb heq => ?_⟩
    cases List.mem_singleton.1 hb
    exact h (heq ▸ ha)

theorem idxOf?_append (xs ys : List α) (x : α) :
    (xs ++ ys).idxOf? x = (xs.idxOf? x).or ((ys.idxOf? x).map fun i => xs.length + i) := by
  unfold List.idxOf?
  rw [List.findIdx?_append]
  cases ys.findIdx? (fun y => y == x) with
  | none => rfl
  | some i => rw [Option.map_some, Option.map_some, Nat.add_comm]

theorem find_push {t : Interner α} {x : α} (h : x ∉ t.entries) (y : α) :
    (t.push x h).find y = (t.find y).or (if x = y then some t.len else none) := by
  show (t.entries ++ [x]).idxOf? y = _
  rw [idxOf?_append, List.idxOf?_singleton]
  by_cases hxy : x = y
  · rw [if_pos (beq_iff_eq.2 hxy), if_pos hxy]
    rfl
  · rw [if_neg (by simpa using hxy), if_neg hxy]
    rfl

/-- The position of an entry, appended if it is not there. -/
def intern (t : Interner α) (x : α) : Nat × Interner α :=
  match h : t.find x with
  | some i => (i, t)
  | none => (t.len, t.push x (find_eq_none.1 h))

theorem intern_of_find {t : Interner α} {x : α} {i : Nat} (h : t.find x = some i) :
    t.intern x = (i, t) := by
  rw [intern]
  split
  · next j hj =>
      rw [hj] at h
      cases h
      rfl
  · next hnone =>
      rw [hnone] at h
      cases h

theorem intern_of_notMem {t : Interner α} {x : α} (h : x ∉ t.entries) :
    t.intern x = (t.len, t.push x h) := by
  rw [intern]
  split
  · next i hi =>
      rw [find_eq_none.2 h] at hi
      cases hi
  · rfl

theorem intern_extends (t : Interner α) (x : α) : t.Extends (t.intern x).2 := by
  by_cases h : x ∈ t.entries
  · cases hfind : t.find x with
    | none => exact absurd h (find_eq_none.1 hfind)
    | some i =>
        rw [intern_of_find hfind]
        exact Extends.refl t
  · rw [intern_of_notMem h]
    exact List.prefix_append _ _

theorem resolve_intern (t : Interner α) (x : α) :
    (t.intern x).2.resolve (t.intern x).1 = some x := by
  by_cases h : x ∈ t.entries
  · cases hfind : t.find x with
    | none => exact absurd h (find_eq_none.1 hfind)
    | some i =>
        rw [intern_of_find hfind]
        exact find_eq_some.1 hfind
  · rw [intern_of_notMem h]
    show (t.entries ++ [x])[t.entries.length]? = some x
    rw [List.getElem?_concat_length]

end Intern

/-! ## Merged lists -/

/-- Positions of a list of entries, one for each. -/
def Located (t : Interner α) (xs : List α) (ids : List Nat) : Prop :=
  List.Forall₂ (fun x i => t.resolve i = some x) xs ids

theorem Located.extends {t t' : Interner α} {xs : List α} {ids : List Nat}
    (h : t.Located xs ids) (hext : t.Extends t') : t'.Located xs ids :=
  h.imp fun _ _ hi => (hext.resolve (resolve_lt hi)).trans hi

theorem Located.concat {t : Interner α} {xs : List α} {ids : List Nat} {x : α} {i : Nat}
    (h : t.Located xs ids) (hi : t.resolve i = some x) :
    t.Located (xs ++ [x]) (ids ++ [i]) :=
  List.rel_append h (.cons hi .nil)

theorem Located.resolve {t : Interner α} {xs : List α} {ids : List Nat} (h : t.Located xs ids)
    {k : Nat} {x : α} (hx : xs[k]? = some x) : ∃ i, ids[k]? = some i ∧ t.resolve i = some x := by
  induction h generalizing k with
  | nil => cases hx
  | cons hhead _ ih =>
      cases k with
      | zero =>
          cases hx
          exact ⟨_, rfl, hhead⟩
      | succ k => exact ih hx

end Interner

end Moth.Lib

/-!
## Pools

Objects in a list, by position. An operation replaces one of them or adds a
new one; what it does to the one is what happened to the pool.
-/

namespace Moth.Lib

variable {α : Type}

/-- Every object is still in its place, and became a related one. -/
def EachBecomes (related : α → α → Prop) (pool next : List α) : Prop :=
  ∀ (i : Nat) (x : α), pool[i]? = some x → ∃ y, next[i]? = some y ∧ related x y

theorem EachBecomes.refl {related : α → α → Prop} (hrefl : ∀ x, related x x) (pool : List α) :
    EachBecomes related pool pool := fun _ x hx => ⟨x, hx, hrefl x⟩

theorem EachBecomes.trans {related : α → α → Prop}
    (htrans : ∀ x y z, related x y → related y z → related x z) {pool next last : List α}
    (h : EachBecomes related pool next) (h' : EachBecomes related next last) :
    EachBecomes related pool last := by
  intro i x hx
  obtain ⟨y, hy, hxy⟩ := h i x hx
  obtain ⟨z, hz, hyz⟩ := h' i y hy
  exact ⟨z, hz, htrans x y z hxy hyz⟩

theorem EachBecomes.set {related : α → α → Prop} (hrefl : ∀ x, related x x) {pool : List α}
    {i : Nat} {x y : α} (hx : pool[i]? = some x) (hxy : related x y) :
    EachBecomes related pool (pool.set i y) := by
  intro j z hz
  by_cases hj : i = j
  · subst hj
    rw [hx] at hz
    cases hz
    exact ⟨y, List.getElem?_set_self (List.getElem?_eq_some_iff.1 hx).1, hxy⟩
  · exact ⟨z, (List.getElem?_set_ne hj).trans hz, hrefl z⟩

theorem EachBecomes.append {related : α → α → Prop} (hrefl : ∀ x, related x x) (pool : List α)
    (x : α) : EachBecomes related pool (pool ++ [x]) := by
  intro i y hy
  refine ⟨y, ?_, hrefl y⟩
  rw [List.getElem?_append_left (List.getElem?_eq_some_iff.1 hy).1, hy]

theorem forall_mem_set {P : α → Prop} {pool : List α} (h : ∀ x ∈ pool, P x) {i : Nat} {y : α}
    (hy : P y) : ∀ x ∈ pool.set i y, P x := by
  intro x hmem
  cases List.mem_or_eq_of_mem_set hmem with
  | inl hin => exact h x hin
  | inr heq => exact heq ▸ hy

theorem forall_mem_append {P : α → Prop} {pool : List α} (h : ∀ x ∈ pool, P x) {y : α}
    (hy : P y) : ∀ x ∈ pool ++ [y], P x := by
  intro x hmem
  cases List.mem_append.1 hmem with
  | inl hin => exact h x hin
  | inr heq => exact List.mem_singleton.1 heq ▸ hy

theorem getElem?_set_of_some {pool : List α} {i : Nat} {x : α} (hx : pool[i]? = some x) (y : α) :
    (pool.set i y)[i]? = some y := List.getElem?_set_self (List.getElem?_eq_some_iff.1 hx).1

theorem set_of_some {pool : List α} {i : Nat} {x : α} (hx : pool[i]? = some x) :
    pool.set i x = pool := by
  obtain ⟨hi, hget⟩ := List.getElem?_eq_some_iff.1 hx
  rw [← hget, List.set_getElem_self]

end Moth.Lib
