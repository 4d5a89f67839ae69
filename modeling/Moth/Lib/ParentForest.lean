import Mathlib.Data.Finset.Card
import Mathlib.Data.Finset.Lattice.Fold
import Mathlib.Algebra.Order.Ring.Nat

/-!
# Forests of parent links

A node points at its parent and a root at itself. What the links mean is the
root each node is led to, so a forest is stated together with that function:
shortening a path leaves it as it was, and linking one root below another
changes it for the nodes of the first root alone.

A rank grows along every link. It is what a climb terminates by, and where
each root has at least `2 ^ rank` nodes, what bounds the climb.
-/

namespace Moth.Lib

/-- The links of a forest and the root that each node's links lead to. -/
structure ParentForest (parent rank root : ℕ → ℕ) : Prop where
  climbs : ∀ x, parent x ≠ x → rank x < rank (parent x)
  bounded : ∃ bound, ∀ x, rank x ≤ bound
  root_parent : ∀ x, root (parent x) = root x
  root_self : ∀ x, parent x = x → root x = x

namespace ParentForest

variable {parent rank root : ℕ → ℕ}

theorem induct (h : ParentForest parent rank root) {motive : ℕ → Prop}
    (step : ∀ x, (parent x ≠ x → motive (parent x)) → motive x) (x : ℕ) : motive x := by
  obtain ⟨bound, hbound⟩ := h.bounded
  induction hn : bound - rank x using Nat.strong_induction_on generalizing x with
  | _ n ih =>
      refine step x fun hne => ih _ ?_ (parent x) rfl
      have hclimb := h.climbs x hne
      have hle := hbound (parent x)
      omega

theorem parent_root (h : ParentForest parent rank root) (x : ℕ) : parent (root x) = root x := by
  induction x using h.induct with
  | step x ih =>
      by_cases hx : parent x = x
      · rw [h.root_self x hx, hx]
      · rw [← h.root_parent x]
        exact ih hx

theorem root_root (h : ParentForest parent rank root) (x : ℕ) : root (root x) = root x :=
  h.root_self _ (h.parent_root x)

theorem root_eq_self (h : ParentForest parent rank root) {x : ℕ} :
    root x = x ↔ parent x = x := by
  constructor
  · intro hx
    rw [← hx]
    exact h.parent_root x
  · exact h.root_self x

theorem rank_le_root (h : ParentForest parent rank root) (x : ℕ) : rank x ≤ rank (root x) := by
  induction x using h.induct with
  | step x ih =>
      by_cases hx : parent x = x
      · rw [h.root_self x hx]
      · have hclimb := h.climbs x hx
        have hroot := ih hx
        rw [h.root_parent] at hroot
        omega

theorem root_of_closed (h : ParentForest parent rank root) {p : ℕ → Prop}
    (closed : ∀ x, p x → p (parent x)) (x : ℕ) (hx : p x) : p (root x) := by
  revert hx
  induction x using h.induct with
  | step x ih =>
      intro hx
      by_cases hself : parent x = x
      · rw [h.root_self x hself]
        exact hx
      · rw [← h.root_parent x]
        exact ih hself (closed x hx)

/-- A node may point at its grandparent instead. -/
theorem halve (h : ParentForest parent rank root) (x : ℕ) :
    ParentForest (Function.update parent x (parent (parent x))) rank root where
  climbs y hne := by
    by_cases hyx : y = x
    · subst hyx
      rw [Function.update_self] at hne ⊢
      by_cases hy : parent y = y
      · rw [hy, hy] at hne
        exact absurd rfl hne
      · have hfirst := h.climbs y hy
        by_cases hpp : parent (parent y) = parent y
        · rw [hpp]
          exact hfirst
        · exact hfirst.trans (h.climbs _ hpp)
    · rw [Function.update_of_ne hyx] at hne ⊢
      exact h.climbs y hne
  bounded := h.bounded
  root_parent y := by
    by_cases hyx : y = x
    · subst hyx
      rw [Function.update_self, h.root_parent, h.root_parent]
    · rw [Function.update_of_ne hyx, h.root_parent]
  root_self y hy := by
    by_cases hyx : y = x
    · subst hyx
      rw [Function.update_self] at hy
      by_cases hself : parent y = y
      · exact h.root_self y hself
      · have hfirst := h.climbs y hself
        have hne : parent (parent y) ≠ parent y := by
          intro heq
          exact hself (heq.symm.trans hy)
        have hsecond := h.climbs _ hne
        rw [hy] at hsecond
        omega
    · rw [Function.update_of_ne hyx] at hy
      exact h.root_self y hy

/-- The roots after `loser` was linked below `winner`. -/
def linked (root : ℕ → ℕ) (winner loser x : ℕ) : ℕ :=
  if root x = loser then winner else root x

/-- One root may be linked below another whose rank is then above its own. -/
theorem link (h : ParentForest parent rank root) {winner loser newRank : ℕ}
    (hwinner : parent winner = winner) (hloser : parent loser = loser) (hne : winner ≠ loser)
    (hkeep : rank winner ≤ newRank) (habove : rank loser < newRank) :
    ParentForest (Function.update parent loser winner) (Function.update rank winner newRank)
      (linked root winner loser) where
  climbs x hx := by
    by_cases hxl : x = loser
    · subst hxl
      rw [Function.update_self, Function.update_self, Function.update_of_ne hne.symm]
      exact habove
    · rw [Function.update_of_ne hxl] at hx ⊢
      have hxw : x ≠ winner := by
        intro heq
        subst heq
        exact hx hwinner
      rw [Function.update_of_ne hxw]
      have hclimb := h.climbs x hx
      by_cases hpw : parent x = winner
      · rw [hpw, Function.update_self]
        rw [hpw] at hclimb
        omega
      · rw [Function.update_of_ne hpw]
        exact hclimb
  bounded := by
    obtain ⟨bound, hbound⟩ := h.bounded
    refine ⟨max bound newRank, fun x => ?_⟩
    by_cases hxw : x = winner
    · subst hxw
      rw [Function.update_self]
      exact le_max_right _ _
    · rw [Function.update_of_ne hxw]
      exact (hbound x).trans (le_max_left _ _)
  root_parent x := by
    by_cases hxl : x = loser
    · subst hxl
      rw [Function.update_self]
      have hw := h.root_self _ hwinner
      have hl := h.root_self _ hloser
      rw [linked, linked, hw, hl, if_pos rfl, if_neg hne]
    · rw [Function.update_of_ne hxl, linked, linked, h.root_parent]
  root_self x hx := by
    have hxl : x ≠ loser := by
      intro heq
      subst heq
      rw [Function.update_self] at hx
      exact hne hx
    rw [Function.update_of_ne hxl] at hx
    rw [linked, h.root_self x hx, if_neg hxl]

end ParentForest

section Weight

open Finset

/-- Each root below `count` has at least `2 ^ rank` nodes below `count`. -/
def Heavy (count : ℕ) (rank root : ℕ → ℕ) : Prop :=
  ∀ r < count, root r = r → 2 ^ rank r ≤ #{x ∈ range count | root x = r}

variable {count : ℕ} {parent rank root : ℕ → ℕ}

theorem Heavy.pow_rank_le (h : Heavy count rank root) (hforest : ParentForest parent rank root)
    {x : ℕ} (hx : root x < count) : 2 ^ rank x ≤ count := by
  have hroot := h (root x) hx (hforest.root_root x)
  have hle : 2 ^ rank x ≤ 2 ^ rank (root x) :=
    Nat.pow_le_pow_right (by omega) (hforest.rank_le_root x)
  have hcard : #{y ∈ range count | root y = root x} ≤ count := by
    have hfilter := card_filter_le (range count) (fun y => root y = root x)
    rw [card_range] at hfilter
    exact hfilter
  omega

/-- Linking a root below one of at least its rank, which grows where the two
are equal, keeps every root heavy. -/
theorem Heavy.link (h : Heavy count rank root) {winner loser : ℕ}
    (hwinner : root winner = winner) (hloser : root loser = loser) (hne : winner ≠ loser)
    (hwc : winner < count) (hlc : loser < count) (hle : rank loser ≤ rank winner) :
    Heavy count
      (Function.update rank winner
        (if rank winner = rank loser then rank winner + 1 else rank winner))
      (ParentForest.linked root winner loser) := by
  intro r hr hroot
  have hrl : r ≠ loser := by
    intro heq
    subst heq
    rw [ParentForest.linked, if_pos hloser] at hroot
    exact hne hroot
  have hold : root r = r := by
    rw [ParentForest.linked] at hroot
    split at hroot
    · next hr' =>
        subst hroot
        rw [hwinner] at hr'
        exact absurd hr' hne
    · exact hroot
  by_cases hrw : r = winner
  · subst hrw
    have hset : #{x ∈ range count | ParentForest.linked root r loser x = r}
        = #{x ∈ range count | root x = r} + #{x ∈ range count | root x = loser} := by
      rw [← card_union_of_disjoint]
      · congr 1
        ext x
        rw [mem_filter, mem_union, mem_filter, mem_filter, ParentForest.linked]
        by_cases hx : root x = loser
        · rw [if_pos hx]
          simp [hx, hne.symm]
        · rw [if_neg hx]
          simp [hx]
      · rw [disjoint_left]
        intro x hx hx'
        exact hne ((mem_filter.mp hx).2.symm.trans (mem_filter.mp hx').2)
    have hw := h r hr hold
    have hl := h loser hlc hloser
    rw [hset, Function.update_self]
    by_cases heq : rank r = rank loser
    · rw [if_pos heq, Nat.pow_succ]
      rw [← heq] at hl
      omega
    · rw [if_neg heq]
      omega
  · rw [Function.update_of_ne hrw]
    have hset : #{x ∈ range count | ParentForest.linked root winner loser x = r}
        = #{x ∈ range count | root x = r} := by
      congr 1
      ext x
      rw [mem_filter, mem_filter, ParentForest.linked]
      by_cases hx : root x = loser
      · rw [if_pos hx, hx]
        simp [Ne.symm hrw, Ne.symm hrl]
      · rw [if_neg hx]
    rw [hset]
    exact h r hr hold

theorem Heavy.grow (h : Heavy count rank root) (hnew : root count = count)
    (hrank : rank count = 0) : Heavy (count + 1) rank root := by
  intro r hr hroot
  have hmono : #{x ∈ range count | root x = r} ≤ #{x ∈ range (count + 1) | root x = r} := by
    apply card_le_card
    intro x hx
    rw [mem_filter, mem_range] at hx ⊢
    exact ⟨by omega, hx.2⟩
  by_cases heq : r = count
  · subst heq
    rw [hrank, Nat.pow_zero, Nat.succ_le_iff, card_pos]
    exact ⟨r, mem_filter.mpr ⟨mem_range.mpr hr, hnew⟩⟩
  · exact (h r (by omega) hroot).trans hmono

end Weight

end Moth.Lib
