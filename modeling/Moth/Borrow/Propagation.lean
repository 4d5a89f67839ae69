import Moth.Borrow.Metadata

/-!
# The propagation settles

`propagate_block_facts` and the closing of the carrier relation repeat until
nothing changes. Both recompute one fact at a time by a transfer that respects
inclusion, from a start that the transfer only moves one way: MAY facts and
assignments grow from nothing, MUST facts shrink from everything. So both
loops end, and a layout fails to be built only where a parameter is not
declared or a region does not resolve.
-/

namespace Moth.Borrow

open Moth.Hir Moth.Lib

variable {n : Nat}

/-! ## Successor facts -/

/-- A fact of some successor in the table. -/
theorem mem_combineSuccessorFacts_any {reachable successors : List BlockId}
    {liveIn : BlockId → RootSet n} {propagation : BlockPropagation}
    (hany : propagation ≠ .EveryPath) {i : Fin n} :
    i ∈ combineSuccessorFacts reachable successors liveIn propagation ↔
      ∃ successor ∈ successors, successor ∈ reachable ∧ i ∈ liveIn successor := by
  have hfold : ∀ (later : List BlockId) (union : RootSet n),
      i ∈ later.foldl (fun union successor =>
        if successor ∈ reachable then union ∪ liveIn successor else union) union ↔
      i ∈ union ∨ ∃ successor ∈ later, successor ∈ reachable ∧ i ∈ liveIn successor := by
    intro later
    induction later with
    | nil => simp
    | cons first rest ih =>
        intro union
        rw [List.foldl_cons, ih]
        by_cases hreach : first ∈ reachable <;> simp [hreach, or_assoc]
  by_cases hempty : successors = []
  · simp [combineSuccessorFacts, hempty]
  · cases propagation with
    | EveryPath => exact absurd rfl hany
    | AnyPath => simp only [combineSuccessorFacts, if_neg hempty, hfold, Finset.notMem_empty,
        false_or]
    | AnyAssignment => simp only [combineSuccessorFacts, if_neg hempty, hfold,
        Finset.notMem_empty, false_or]

/-- A fact of every successor, all of them in the table. -/
theorem mem_combineSuccessorFacts_every {reachable successors : List BlockId}
    {liveIn : BlockId → RootSet n} {i : Fin n} :
    i ∈ combineSuccessorFacts reachable successors liveIn .EveryPath ↔
      successors ≠ [] ∧ ∀ successor ∈ successors, successor ∈ reachable ∧ i ∈ liveIn successor := by
  have hfold : ∀ (later : List BlockId) (intersection : RootSet n),
      i ∈ later.foldl (fun intersection successor => intersection ∩ liveIn successor)
        intersection ↔
      i ∈ intersection ∧ ∀ successor ∈ later, i ∈ liveIn successor := by
    intro later
    induction later with
    | nil => simp
    | cons first rest ih =>
        intro intersection
        rw [List.foldl_cons, ih]
        simp [and_assoc]
  by_cases hempty : successors = []
  · simp [combineSuccessorFacts, hempty]
  · simp only [combineSuccessorFacts, if_neg hempty]
    split
    · next hmissing =>
        obtain ⟨successor, hmem, hunreached⟩ := hmissing
        simp only [Finset.notMem_empty, false_iff, not_and]
        exact fun _ hall => hunreached (hall successor hmem).1
    · next hreached =>
        rw [hfold]
        simp only [not_exists, not_and, not_not] at hreached
        simp only [Finset.mem_univ, true_and, ne_eq, hempty, not_false_eq_true]
        exact ⟨fun hall s hs => ⟨hreached s hs, hall s hs⟩, fun hall s hs => (hall s hs).2⟩

theorem combineSuccessorFacts_mono {reachable successors : List BlockId}
    {liveIn liveIn' : BlockId → RootSet n} (h : ∀ block, liveIn block ⊆ liveIn' block)
    (propagation : BlockPropagation) :
    combineSuccessorFacts reachable successors liveIn propagation ⊆
      combineSuccessorFacts reachable successors liveIn' propagation := by
  intro i hi
  by_cases hevery : propagation = .EveryPath
  · subst hevery
    rw [mem_combineSuccessorFacts_every] at hi ⊢
    exact ⟨hi.1, fun s hs => ⟨(hi.2 s hs).1, h s (hi.2 s hs).2⟩⟩
  · rw [mem_combineSuccessorFacts_any hevery] at hi ⊢
    obtain ⟨successor, hmem, hreach, hlive⟩ := hi
    exact ⟨successor, hmem, hreach, h successor hlive⟩

theorem blockTransfer_mono {reachable : List BlockId}
    {blockSuccessors : BlockId → Option (List BlockId)}
    {blockLiveness : BlockId → Option (BlockLiveness n)}
    {visible : BlockId → Option (RootSet n)} {propagation : BlockPropagation} (block : BlockId)
    {liveIn liveIn' : BlockId → RootSet n} (h : ∀ b, liveIn b ⊆ liveIn' b) :
    blockTransfer reachable blockSuccessors blockLiveness visible propagation block liveIn ⊆
      blockTransfer reachable blockSuccessors blockLiveness visible propagation block liveIn' := by
  have hnext : combineSuccessorFacts reachable ((blockSuccessors block).getD []) liveIn
        propagation ⊆
      combineSuccessorFacts reachable ((blockSuccessors block).getD []) liveIn' propagation :=
    combineSuccessorFacts_mono h propagation
  simp only [blockTransfer]
  cases blockLiveness block with
  | none => exact hnext
  | some liveness =>
      cases propagation with
      | AnyPath => exact Finset.union_subset_union_left (Finset.sdiff_subset_sdiff hnext le_rfl)
      | EveryPath => exact Finset.union_subset_union_left (Finset.sdiff_subset_sdiff hnext le_rfl)
      | AnyAssignment =>
          cases visible block with
          | none => exact Finset.union_subset_union_left hnext
          | some mask =>
              exact Finset.inter_subset_inter_right (Finset.union_subset_union_left hnext)

/-! ## Both loops end -/

/-- The propagation of any of the three facts comes to an end. -/
theorem propagateBlockFacts_isSome (reachable : List BlockId)
    (blockSuccessors : BlockId → Option (List BlockId))
    (blockLiveness : BlockId → Option (BlockLiveness n))
    (visible : BlockId → Option (RootSet n)) (propagation : BlockPropagation) :
    ∃ facts, propagateBlockFacts reachable blockSuccessors blockLiveness visible propagation =
      some facts := by
  let transfer := blockTransfer reachable blockSuccessors blockLiveness visible propagation
  have hgrow : (Ascent.growing (Fin n)).Respects transfer :=
    fun block _ _ h => blockTransfer_mono block h
  have hshrink : (Ascent.shrinking (Fin n)).Respects transfer :=
    fun block _ _ h => blockTransfer_mono block h
  have hfromNothing : (Ascent.growing (Fin n)).Rising transfer reachable.reverse fun _ => ∅ :=
    fun _ _ => Finset.empty_subset _
  have hfromAll : (Ascent.shrinking (Fin n)).Rising transfer reachable.reverse
      fun _ => Finset.univ := fun _ _ => Finset.subset_univ _
  simp only [propagateBlockFacts, Option.map_eq_some_iff]
  cases propagation with
  | EveryPath =>
      obtain ⟨liveIn, hstable⟩ := Ascent.sweepUntilStable_terminates hshrink hfromAll
      exact ⟨_, liveIn, hstable, rfl⟩
  | AnyPath =>
      obtain ⟨liveIn, hstable⟩ := Ascent.sweepUntilStable_terminates hgrow hfromNothing
      exact ⟨_, liveIn, hstable, rfl⟩
  | AnyAssignment =>
      obtain ⟨liveIn, hstable⟩ := Ascent.sweepUntilStable_terminates hgrow hfromNothing
      exact ⟨_, liveIn, hstable, rfl⟩

end Moth.Borrow
