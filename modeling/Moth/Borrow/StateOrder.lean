import Mathlib.Data.Fintype.Sum
import Mathlib.Data.Fintype.Prod
import Moth.Borrow.Join
import Moth.Lib.Sweep

/-!
# The order of borrow states

One state is above another when, row by row, its mode has the other's bits and
its root sets hold the other's roots. A state is determined by which of these
bits it has, so the order is inclusion of bit sets: it has finite height, and
`join_in_place` is its least upper bound and reports exactly the joins that
changed the left side.
-/

namespace Moth.Borrow

open Moth.Lib

variable {n : Nat}

/-- The mode has every bit of the other. -/
def LocalMode.Within (a b : LocalMode) : Prop := ∀ k : Fin 8, a.bits.getLsbD k → b.bits.getLsbD k

instance (a b : LocalMode) : Decidable (a.Within b) :=
  inferInstanceAs (Decidable (∀ _, _))

namespace BorrowState

/-- Mode-wise and root-wise order. -/
def Le (s t : BorrowState n) : Prop :=
  ∀ i, (s.localState i).mode.Within (t.localState i).mode ∧
    (s.localState i).valueRoots ⊆ (t.localState i).valueRoots ∧
    (s.localState i).directAliasRoots ⊆ (t.localState i).directAliasRoots

instance (s t : BorrowState n) : Decidable (s.Le t) := inferInstanceAs (Decidable (∀ _, _))

/-- One bit of a state: of a row's mode, its value roots or its direct roots. -/
def hasBit (s : BorrowState n) : Fin n × (Fin 8 ⊕ (Fin n ⊕ Fin n)) → Bool
  | (i, .inl k) => (s.localState i).mode.bits.getLsbD k
  | (i, .inr (.inl root)) => decide (root ∈ (s.localState i).valueRoots)
  | (i, .inr (.inr root)) => decide (root ∈ (s.localState i).directAliasRoots)

def bitSet (s : BorrowState n) : Finset (Fin n × (Fin 8 ⊕ (Fin n ⊕ Fin n))) :=
  Finset.univ.filter fun bit => s.hasBit bit = true

theorem mem_bitSet {s : BorrowState n} {bit : Fin n × (Fin 8 ⊕ (Fin n ⊕ Fin n))} :
    bit ∈ s.bitSet ↔ s.hasBit bit = true := by simp [bitSet]

theorem mem_bitSet_mode {s : BorrowState n} {i : Fin n} {k : Fin 8} :
    (i, Sum.inl k) ∈ s.bitSet ↔ (s.localState i).mode.bits.getLsbD k = true := mem_bitSet

theorem mem_bitSet_value {s : BorrowState n} {i root : Fin n} :
    (i, Sum.inr (Sum.inl root)) ∈ s.bitSet ↔ root ∈ (s.localState i).valueRoots := by
  rw [mem_bitSet, hasBit, decide_eq_true_iff]

theorem mem_bitSet_direct {s : BorrowState n} {i root : Fin n} :
    (i, Sum.inr (Sum.inr root)) ∈ s.bitSet ↔ root ∈ (s.localState i).directAliasRoots := by
  rw [mem_bitSet, hasBit, decide_eq_true_iff]

theorem bitSet_subset_iff {s t : BorrowState n} : s.bitSet ⊆ t.bitSet ↔ s.Le t := by
  constructor
  · intro h i
    refine ⟨fun k hk => ?_, fun root hroot => ?_, fun root hroot => ?_⟩
    · exact mem_bitSet_mode.1 (h (mem_bitSet_mode.2 hk))
    · exact mem_bitSet_value.1 (h (mem_bitSet_value.2 hroot))
    · exact mem_bitSet_direct.1 (h (mem_bitSet_direct.2 hroot))
  · rintro h ⟨i, k | root | root⟩ hbit
    · exact mem_bitSet_mode.2 ((h i).1 k (mem_bitSet_mode.1 hbit))
    · exact mem_bitSet_value.2 ((h i).2.1 (mem_bitSet_value.1 hbit))
    · exact mem_bitSet_direct.2 ((h i).2.2 (mem_bitSet_direct.1 hbit))

theorem mode_ext {a b : LocalMode} (h : ∀ k : Fin 8, a.bits.getLsbD k = b.bits.getLsbD k) :
    a = b := by
  cases a with
  | mk bits =>
      cases b with
      | mk bits' =>
          congr 1
          exact BitVec.eq_of_getLsbD_eq fun k hk => h ⟨k, hk⟩

theorem bitSet_injective : Function.Injective (bitSet (n := n)) := by
  intro s t h
  have hle := bitSet_subset_iff.1 h.subset
  have hge := bitSet_subset_iff.1 h.symm.subset
  have hrows : s.locals = t.locals := by
    funext i
    have hmode : (s.localState i).mode = (t.localState i).mode :=
      mode_ext fun k => Bool.eq_iff_iff.2 ⟨(hle i).1 k, (hge i).1 k⟩
    have hvalue := Finset.Subset.antisymm (hle i).2.1 (hge i).2.1
    have hdirect := Finset.Subset.antisymm (hle i).2.2 (hge i).2.2
    exact LocalState.mk.injEq .. ▸ ⟨hmode, hvalue, hdirect⟩
  cases s
  cases t
  exact congrArg _ hrows

/-- Borrow states under inclusion of their bits. -/
def ascent (n : Nat) : Ascent (BorrowState n) :=
  (Ascent.growing _).comap bitSet bitSet_injective

theorem ascent_le {s t : BorrowState n} : (ascent n).le s t ↔ s.Le t := bitSet_subset_iff

theorem ascent_bound (n : Nat) : (ascent n).bound = n * (8 + (n + n)) := by
  simp [ascent, Ascent.comap, Ascent.growing]

theorem bitSet_joinInPlace (s t : BorrowState n) :
    (s.joinInPlace t).1.bitSet = s.bitSet ∪ t.bitSet := by
  ext ⟨i, k | root | root⟩
  · rw [Finset.mem_union, mem_bitSet_mode, mem_bitSet_mode, mem_bitSet_mode, joinInPlace_mode]
    simp [LocalMode.union]
  · rw [Finset.mem_union, mem_bitSet_value, mem_bitSet_value, mem_bitSet_value,
      joinInPlace_valueRoots, Finset.mem_union]
  · rw [Finset.mem_union, mem_bitSet_direct, mem_bitSet_direct, mem_bitSet_direct,
      joinInPlace_directAliasRoots, Finset.mem_union]

theorem le_joinInPlace_left (s t : BorrowState n) : (ascent n).le s (s.joinInPlace t).1 := by
  show s.bitSet ⊆ (s.joinInPlace t).1.bitSet
  rw [bitSet_joinInPlace]
  exact Finset.subset_union_left

theorem le_joinInPlace_right (s t : BorrowState n) : (ascent n).le t (s.joinInPlace t).1 := by
  show t.bitSet ⊆ (s.joinInPlace t).1.bitSet
  rw [bitSet_joinInPlace]
  exact Finset.subset_union_right

theorem joinRow_grows (left right : LocalState n) :
    (left.joinRow right).2 = true ↔ (left.joinRow right).1 ≠ left := by
  have hvalue := RootSet.unionWith_snd (s := left.valueRoots) (t := right.valueRoots)
  have hdirect := RootSet.unionWith_snd (s := left.directAliasRoots) (t := right.directAliasRoots)
  cases left with
  | mk mode values direct =>
      simp only [LocalState.joinRow, Bool.or_eq_true, bne_iff_ne, hvalue, hdirect, ne_eq,
        LocalState.mk.injEq, not_and_or, or_assoc]

theorem joinInPlace_grows (s t : BorrowState n) :
    (s.joinInPlace t).2 = true ↔ (s.joinInPlace t).1 ≠ s := by
  have hrows : (s.joinInPlace t).1 = s ↔
      ∀ i, ((s.localState i).joinRow (t.localState i)).1 = s.localState i := by
    constructor
    · intro h i
      exact congrFun (congrArg BorrowState.locals h) i
    · intro h
      cases s
      exact congrArg _ (funext h)
  rw [ne_eq, hrows, not_forall]
  simp only [joinInPlace, List.any_eq_true, List.mem_finRange, true_and]
  exact exists_congr fun i => joinRow_grows _ _

end BorrowState

end Moth.Borrow
