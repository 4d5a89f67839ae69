import Mathlib.Data.Finset.Lattice.Fold
import Mathlib.Data.List.Nodup
import Mathlib.Logic.Relation
import Mathlib.Order.Lattice.Nat

/-!
# Levels of a relation

Levels list nodes so that what a node depends on lies in earlier levels, and
one of these in the level just before. They order the nodes along the
relation, and the level of a node is determined by the levels of what it
depends on.
-/

namespace Moth.Lib

variable {ν : Type} {edge : ν → ν → Prop}

def atLevel (levels : List (List ν)) (k : Nat) : List ν := (levels[k]?).getD []

structure Levels (edge : ν → ν → Prop) (levels : List (List ν)) : Prop where
  nodup : levels.flatten.Nodup
  below : ∀ k, ∀ m ∈ atLevel levels k, ∀ p, edge p m → ∃ j < k, p ∈ atLevel levels j
  tight : ∀ k, ∀ m ∈ atLevel levels (k + 1), ∃ p, edge p m ∧ p ∈ atLevel levels k

theorem mem_flatten_iff {levels : List (List ν)} {m : ν} :
    m ∈ levels.flatten ↔ ∃ k, m ∈ atLevel levels k := by
  rw [List.mem_flatten]
  constructor
  · rintro ⟨level, hlevel, hm⟩
    obtain ⟨k, hk⟩ := List.getElem?_of_mem hlevel
    refine ⟨k, ?_⟩
    rw [atLevel, hk]
    exact hm
  · rintro ⟨k, hm⟩
    rw [atLevel] at hm
    cases hk : levels[k]? with
    | none =>
        rw [hk] at hm
        cases hm
    | some level =>
        rw [hk] at hm
        exact ⟨level, List.mem_of_getElem? hk, hm⟩

theorem atLevel_append_left {levels : List (List ν)} {k : Nat} (h : k < levels.length)
    (ready : List ν) : atLevel (levels ++ [ready]) k = atLevel levels k := by
  rw [atLevel, List.getElem?_append_left h, atLevel]

theorem atLevel_last (levels : List (List ν)) (ready : List ν) :
    atLevel (levels ++ [ready]) levels.length = ready := by
  rw [atLevel, List.getElem?_concat_length]
  rfl

theorem atLevel_of_length_le {levels : List (List ν)} {k : Nat} (h : levels.length ≤ k) :
    atLevel levels k = [] := by
  rw [atLevel, List.getElem?_eq_none h]
  rfl

theorem levels_nil : Levels edge [] where
  nodup := List.nodup_nil
  below := fun _ _ hm => absurd hm List.not_mem_nil
  tight := fun _ _ hm => absurd hm List.not_mem_nil

namespace Levels

variable {levels : List (List ν)} (h : Levels edge levels)

include h

/-- Add the nodes that depend on nothing but what is listed, on the last level among them. -/
theorem push {ready : List ν} (hnodup : ready.Nodup) (hnew : ∀ m ∈ ready, m ∉ levels.flatten)
    (hbelow : ∀ m ∈ ready, ∀ p, edge p m → p ∈ levels.flatten)
    (htight : ∀ m ∈ ready, ∀ k, levels.length = k + 1 → ∃ p, edge p m ∧ p ∈ atLevel levels k) :
    Levels edge (levels ++ [ready]) := by
  have hcases : ∀ k, ∀ m ∈ atLevel (levels ++ [ready]) k,
      k < levels.length ∧ m ∈ atLevel levels k ∨ k = levels.length ∧ m ∈ ready := by
    intro k m hm
    rcases Nat.lt_trichotomy k levels.length with hlt | rfl | hgt
    · rw [atLevel_append_left hlt] at hm
      exact .inl ⟨hlt, hm⟩
    · rw [atLevel_last] at hm
      exact .inr ⟨rfl, hm⟩
    · rw [atLevel_of_length_le] at hm
      · cases hm
      · rw [List.length_append, List.length_singleton]
        omega
  have hlift : ∀ k, ∀ m ∈ atLevel levels k, k < levels.length ∧
      m ∈ atLevel (levels ++ [ready]) k := by
    intro k m hm
    have hlt : k < levels.length := by
      by_contra hge
      rw [atLevel_of_length_le (Nat.not_lt.1 hge)] at hm
      cases hm
    rw [atLevel_append_left hlt]
    exact ⟨hlt, hm⟩
  constructor
  · rw [List.flatten_append, List.flatten_singleton]
    exact List.nodup_append'.2 ⟨h.nodup, hnodup, fun m hm hready => hnew m hready hm⟩
  · intro k m hm p hp
    rcases hcases k m hm with ⟨-, hold⟩ | ⟨rfl, hready⟩
    · obtain ⟨j, hj, hpj⟩ := h.below k m hold p hp
      exact ⟨j, hj, (hlift j p hpj).2⟩
    · obtain ⟨j, hpj⟩ := mem_flatten_iff.1 (hbelow m hready p hp)
      exact ⟨j, hlift j p hpj⟩
  · intro k m hm
    rcases hcases (k + 1) m hm with ⟨-, hold⟩ | ⟨hk, hready⟩
    · obtain ⟨p, hp, hpk⟩ := h.tight k m hold
      exact ⟨p, hp, (hlift k p hpk).2⟩
    · obtain ⟨p, hp, hpk⟩ := htight m hready k hk.symm
      exact ⟨p, hp, (hlift k p hpk).2⟩

theorem unique {m : ν} {j k : Nat} (hj : m ∈ atLevel levels j) (hk : m ∈ atLevel levels k) :
    j = k := by
  have hdisjoint := (List.nodup_flatten.1 h.nodup).2
  have hne : ∀ {j k : Nat}, m ∈ atLevel levels j → m ∈ atLevel levels k → ¬ j < k := by
    intro j k hj hk hlt
    have hlen : k < levels.length := by
      by_contra hge
      rw [atLevel_of_length_le (Nat.not_lt.1 hge)] at hk
      cases hk
    rw [atLevel, List.getElem?_eq_getElem (by omega)] at hj
    rw [atLevel, List.getElem?_eq_getElem hlen] at hk
    exact List.pairwise_iff_getElem.1 hdisjoint j k (by omega) hlen hlt hj hk
  exact Nat.le_antisymm (Nat.not_lt.1 (hne hk hj)) (Nat.not_lt.1 (hne hj hk))

end Levels

section Index

variable [DecidableEq ν]

/-- The level a node is on. -/
def levelOf (levels : List (List ν)) (m : ν) : Nat := levels.findIdx fun level => decide (m ∈ level)

namespace Levels

variable {levels : List (List ν)} (h : Levels edge levels)

include h

theorem levelOf_eq {m : ν} {k : Nat} (hm : m ∈ atLevel levels k) : levelOf levels m = k := by
  refine h.unique ?_ hm
  have hexists : ∃ level ∈ levels, decide (m ∈ level) = true := by
    obtain ⟨level, hlevel, hmem⟩ := List.mem_flatten.1 (mem_flatten_iff.2 ⟨k, hm⟩)
    exact ⟨level, hlevel, decide_eq_true hmem⟩
  have hlt := List.findIdx_lt_length_of_exists hexists
  have hfound := List.findIdx_getElem (w := hlt)
  rw [levelOf, atLevel, List.getElem?_eq_getElem hlt]
  exact of_decide_eq_true hfound

theorem levelOf_lt {m p : ν} (hm : m ∈ levels.flatten) (hp : edge p m) :
    levelOf levels p < levelOf levels m := by
  obtain ⟨k, hk⟩ := mem_flatten_iff.1 hm
  obtain ⟨j, hj, hpj⟩ := h.below k m hk p hp
  rw [h.levelOf_eq hk, h.levelOf_eq hpj]
  exact hj

theorem acyclic (hall : ∀ p m, edge p m → m ∈ levels.flatten) (x : ν) :
    ¬ Relation.TransGen edge x x := by
  have hlt : ∀ {a b}, Relation.TransGen edge a b → levelOf levels a < levelOf levels b := by
    intro a b hab
    induction hab with
    | single hedge => exact h.levelOf_lt (hall _ _ hedge) hedge
    | tail _ hedge ih => exact ih.trans (h.levelOf_lt (hall _ _ hedge) hedge)
  exact fun hcycle => Nat.lt_irrefl _ (hlt hcycle)

theorem levelOf_eq_sup {m : ν} (hm : m ∈ levels.flatten) {providers : Finset ν}
    (hproviders : ∀ p, p ∈ providers ↔ edge p m) :
    levelOf levels m = providers.sup fun p => levelOf levels p + 1 := by
  refine Nat.le_antisymm ?_ (Finset.sup_le fun p hp => h.levelOf_lt hm ((hproviders p).1 hp))
  obtain ⟨k, hk⟩ := mem_flatten_iff.1 hm
  rw [h.levelOf_eq hk]
  cases k with
  | zero => exact Nat.zero_le _
  | succ k =>
      obtain ⟨p, hp, hpk⟩ := h.tight k m hk
      have hle := Finset.le_sup (f := fun p => levelOf levels p + 1) ((hproviders p).2 hp)
      rw [h.levelOf_eq hpk] at hle
      exact hle

end Levels

end Index

end Moth.Lib
