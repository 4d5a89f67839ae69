import Moth.Borrow.Propagation
import Moth.Lib.DepthFirst

/-!
# Block facts are path facts

`propagate_block_facts` over any table of blocks: what the three fixed points
contain, in terms of the paths of the table. The MAY facts and the assignment
facts are least fixed points and so hold exactly where a path establishes them;
the MUST facts are a greatest one and so fail exactly where a finite path loses
them.

A successor outside the table is a block without facts: no path goes on from
it, it establishes nothing, and it guarantees nothing.
-/

namespace Moth.Borrow

open Moth.Hir Moth.Lib

variable {n : Nat} (reachable : List BlockId) (successors : BlockId → List BlockId)
  (liveness : BlockId → BlockLiveness n) (visible : BlockId → RootSet n)

/-- Some path reaches an upward-exposed read, and no earlier block of it defines the local. -/
def ReadBeforeDefined (block : BlockId) (i : Fin n) : Prop :=
  Reach (fun a b => i ∉ (liveness a).definitions ∧ b ∈ successors a ∧ b ∈ reachable)
    (fun last => i ∈ (liveness last).upwardExposedReads) block

/-- Some path passes no upward-exposed read and reaches a block that defines the
local or has no successor. -/
def LostBeforeRead (block : BlockId) (i : Fin n) : Prop :=
  Reach (fun a b => a ∈ reachable ∧ i ∉ (liveness a).upwardExposedReads ∧ b ∈ successors a)
    (fun last => last ∉ reachable ∨ i ∉ (liveness last).upwardExposedReads ∧
      (i ∈ (liveness last).definitions ∨ successors last = [])) block

/-- Some path reaches a direct assignment, and the local is visible in every block of it. -/
def AssignedWhileVisible (block : BlockId) (i : Fin n) : Prop :=
  Reach (fun a b => i ∈ visible a ∧ b ∈ successors a ∧ b ∈ reachable)
    (fun last => i ∈ visible last ∧ i ∈ (liveness last).directAssignments) block

variable {reachable successors liveness visible}

section Transfer

variable {block : BlockId} {liveIn : BlockId → RootSet n} {i : Fin n}

variable (reachable successors liveness visible) in
/-- The transfer over total tables of facts. -/
def pathTransfer (propagation : BlockPropagation) (block : BlockId)
    (liveIn : BlockId → RootSet n) : RootSet n :=
  blockTransfer reachable (fun b => some (successors b)) (fun b => some (liveness b))
    (fun b => some (visible b)) propagation block liveIn

theorem mem_pathTransfer_anyPath :
    i ∈ pathTransfer reachable successors liveness visible .AnyPath block liveIn ↔
    i ∈ (liveness block).upwardExposedReads ∨ i ∉ (liveness block).definitions ∧
      ∃ successor ∈ successors block, successor ∈ reachable ∧ i ∈ liveIn successor := by
  have hany : i ∈ combineSuccessorFacts reachable (successors block) liveIn .AnyPath ↔ _ :=
    mem_combineSuccessorFacts_any (by decide)
  simp only [pathTransfer, blockTransfer, Option.getD_some, Finset.mem_union, Finset.mem_sdiff,
    hany]
  rw [or_comm, and_comm]

theorem mem_pathTransfer_everyPath :
    i ∈ pathTransfer reachable successors liveness visible .EveryPath block liveIn ↔
    i ∈ (liveness block).upwardExposedReads ∨ i ∉ (liveness block).definitions ∧
      successors block ≠ [] ∧
      ∀ successor ∈ successors block, successor ∈ reachable ∧ i ∈ liveIn successor := by
  simp only [pathTransfer, blockTransfer, Option.getD_some, Finset.mem_union, Finset.mem_sdiff,
    mem_combineSuccessorFacts_every]
  rw [or_comm, and_comm]

theorem mem_pathTransfer_anyAssignment :
    i ∈ pathTransfer reachable successors liveness visible .AnyAssignment block liveIn ↔
    i ∈ visible block ∧ (i ∈ (liveness block).directAssignments ∨
      ∃ successor ∈ successors block, successor ∈ reachable ∧ i ∈ liveIn successor) := by
  have hany : i ∈ combineSuccessorFacts reachable (successors block) liveIn .AnyAssignment ↔ _ :=
    mem_combineSuccessorFacts_any (by decide)
  simp only [pathTransfer, blockTransfer, Option.getD_some, Finset.mem_union, Finset.mem_inter,
    hany]
  rw [and_comm, or_comm]

end Transfer

section Fixpoint

variable {table : BlockId → RootSet n} {propagation : BlockPropagation} {block : BlockId}
  {i : Fin n}

/-- What the table must satisfy at its blocks. -/
def Solves (reachable : List BlockId) (successors : BlockId → List BlockId)
    (liveness : BlockId → BlockLiveness n) (visible : BlockId → RootSet n)
    (propagation : BlockPropagation) (table : BlockId → RootSet n) : Prop :=
  ∀ block ∈ reachable,
    table block = pathTransfer reachable successors liveness visible propagation block table

theorem mem_of_readBeforeDefined
    (hsolves : Solves reachable successors liveness visible .AnyPath table)
    (h : ReadBeforeDefined reachable successors liveness block i) :
    block ∈ reachable → i ∈ table block := by
  refine Reach.induction (P := fun b => b ∈ reachable → i ∈ table b) ?_ ?_ h
  · intro last hread hmem
    rw [hsolves last hmem, mem_pathTransfer_anyPath]
    exact .inl hread
  · rintro a b ⟨hkept, hsuccessor, hreach⟩ ih hmem
    rw [hsolves a hmem, mem_pathTransfer_anyPath]
    exact .inr ⟨hkept, b, hsuccessor, hreach, ih hreach⟩

theorem not_mem_of_lostBeforeRead
    (hsolves : Solves reachable successors liveness visible .EveryPath table)
    (h : LostBeforeRead reachable successors liveness block i) :
    block ∈ reachable → i ∉ table block := by
  refine Reach.induction (P := fun b => b ∈ reachable → i ∉ table b) ?_ ?_ h
  · rintro last hlost hmem hin
    rw [hsolves last hmem, mem_pathTransfer_everyPath] at hin
    rcases hlost with hout | ⟨hunread, hend⟩
    · exact hout hmem
    · obtain ⟨hkept, hnonempty, -⟩ := hin.resolve_left hunread
      rcases hend with hdefined | hexit
      · exact hkept hdefined
      · exact hnonempty hexit
  · rintro a b ⟨-, hunread, hsuccessor⟩ ih hmem hin
    rw [hsolves a hmem, mem_pathTransfer_everyPath] at hin
    obtain ⟨-, -, hall⟩ := hin.resolve_left hunread
    obtain ⟨hreach, hin'⟩ := hall b hsuccessor
    exact ih hreach hin'

theorem mem_of_assignedWhileVisible
    (hsolves : Solves reachable successors liveness visible .AnyAssignment table)
    (h : AssignedWhileVisible reachable successors liveness visible block i) :
    block ∈ reachable → i ∈ table block := by
  refine Reach.induction (P := fun b => b ∈ reachable → i ∈ table b) ?_ ?_ h
  · rintro last ⟨hvisible, hassigned⟩ hmem
    rw [hsolves last hmem, mem_pathTransfer_anyAssignment]
    exact ⟨hvisible, .inl hassigned⟩
  · rintro a b ⟨hvisible, hsuccessor, hreach⟩ ih hmem
    rw [hsolves a hmem, mem_pathTransfer_anyAssignment]
    exact ⟨hvisible, .inr ⟨b, hsuccessor, hreach, ih hreach⟩⟩

end Fixpoint

/-! ## What one recomputation keeps -/

section Recomputation

variable {table : BlockId → RootSet n} {i : Fin n}

theorem readBeforeDefined_of_mem_transfer
    (hknown : ∀ b, i ∈ table b → ReadBeforeDefined reachable successors liveness b i)
    {block : BlockId}
    (h : i ∈ pathTransfer reachable successors liveness visible .AnyPath block table) :
    ReadBeforeDefined reachable successors liveness block i := by
  rw [mem_pathTransfer_anyPath] at h
  rcases h with hread | ⟨hkept, successor, hsuccessor, hreach, hlive⟩
  · exact .here hread
  · exact .head ⟨hkept, hsuccessor, hreach⟩ (hknown successor hlive)

theorem lostBeforeRead_of_not_mem_transfer
    (hknown : ∀ b ∈ reachable, i ∉ table b → LostBeforeRead reachable successors liveness b i)
    {block : BlockId} (hmem : block ∈ reachable)
    (h : i ∉ pathTransfer reachable successors liveness visible .EveryPath block table) :
    LostBeforeRead reachable successors liveness block i := by
  rw [mem_pathTransfer_everyPath] at h
  push Not at h
  obtain ⟨hunread, hrest⟩ := h
  by_cases hdefined : i ∈ (liveness block).definitions
  · exact .here (.inr ⟨hunread, .inl hdefined⟩)
  by_cases hexit : successors block = []
  · exact .here (.inr ⟨hunread, .inr hexit⟩)
  obtain ⟨successor, hsuccessor, hlost⟩ := hrest hdefined hexit
  refine .head ⟨hmem, hunread, hsuccessor⟩ ?_
  by_cases hreach : successor ∈ reachable
  · exact hknown successor hreach (hlost hreach)
  · exact .here (.inl hreach)

theorem assignedWhileVisible_of_mem_transfer
    (hknown : ∀ b, i ∈ table b → AssignedWhileVisible reachable successors liveness visible b i)
    {block : BlockId}
    (h : i ∈ pathTransfer reachable successors liveness visible .AnyAssignment block table) :
    AssignedWhileVisible reachable successors liveness visible block i := by
  rw [mem_pathTransfer_anyAssignment] at h
  obtain ⟨hvisible, hassigned | ⟨successor, hsuccessor, hreach, hlater⟩⟩ := h
  · exact .here ⟨hvisible, hassigned⟩
  · exact .head ⟨hvisible, hsuccessor, hreach⟩ (hknown successor hlater)

/-- What a table claims, as a path property. -/
def PathFact (reachable : List BlockId) (successors : BlockId → List BlockId)
    (liveness : BlockId → BlockLiveness n) (visible : BlockId → RootSet n) :
    BlockPropagation → BlockId → Fin n → Prop
  | .AnyPath => ReadBeforeDefined reachable successors liveness
  | .EveryPath => fun block i => ¬ LostBeforeRead reachable successors liveness block i
  | .AnyAssignment => AssignedWhileVisible reachable successors liveness visible

end Recomputation

/-! ## The stable table -/

variable {stable : BlockId → RootSet n} {fuel : Nat}

theorem solves_of_stable {propagation : BlockPropagation} {seed : BlockId → RootSet n}
    (h : sweepUntilStable (pathTransfer reachable successors liveness visible propagation)
      reachable.reverse fuel seed = some stable) :
    Solves reachable successors liveness visible propagation stable := by
  intro block hmem
  exact sweepUntilStable_fixed h block (List.mem_reverse.2 hmem)

theorem forall_update {table : BlockId → RootSet n} {block : BlockId} {next : RootSet n}
    {P : BlockId → RootSet n → Prop} (hknown : ∀ b, P b (table b)) (hnext : P block next) :
    ∀ b, P b (Function.update table block next b) := by
  intro b
  by_cases heq : b = block
  · subst heq
    rw [Function.update_self]
    exact hnext
  · rw [Function.update_of_ne heq]
    exact hknown b

variable {block : BlockId} {i : Fin n}

variable (visible) in
theorem mem_stable_anyPath
    (h : sweepUntilStable (pathTransfer reachable successors liveness visible .AnyPath)
      reachable.reverse fuel (fun _ => ∅) = some stable) (hmem : block ∈ reachable) :
    i ∈ stable block ↔ ReadBeforeDefined reachable successors liveness block i := by
  constructor
  · refine sweepUntilStable_induction
      (P := fun x => ∀ b, i ∈ x b → ReadBeforeDefined reachable successors liveness b i)
      ?_ ?_ h block
    · intro x c _ hknown
      exact forall_update
        (P := fun b set => i ∈ set → ReadBeforeDefined reachable successors liveness b i) hknown
        (readBeforeDefined_of_mem_transfer hknown)
    · intro b hin
      exact absurd hin (Finset.notMem_empty i)
  · intro hpath
    exact mem_of_readBeforeDefined (solves_of_stable h) hpath hmem

variable (visible) in
theorem mem_stable_everyPath
    (h : sweepUntilStable (pathTransfer reachable successors liveness visible .EveryPath)
      reachable.reverse fuel (fun _ => Finset.univ) = some stable) (hmem : block ∈ reachable) :
    i ∈ stable block ↔ ¬ LostBeforeRead reachable successors liveness block i := by
  constructor
  · intro hin hlost
    exact not_mem_of_lostBeforeRead (solves_of_stable h) hlost hmem hin
  · intro hkept
    by_contra hout
    refine hkept (sweepUntilStable_induction
      (P := fun x => ∀ b, b ∈ reachable → i ∉ x b →
        LostBeforeRead reachable successors liveness b i) ?_ ?_ h block hmem hout)
    · intro x c hc hknown
      exact forall_update
        (P := fun b set => b ∈ reachable → i ∉ set →
          LostBeforeRead reachable successors liveness b i) hknown
        fun _ => lostBeforeRead_of_not_mem_transfer hknown (List.mem_reverse.1 hc)
    · intro b _ hout
      exact absurd (Finset.mem_univ i) hout

theorem mem_stable_anyAssignment
    (h : sweepUntilStable (pathTransfer reachable successors liveness visible .AnyAssignment)
      reachable.reverse fuel (fun _ => ∅) = some stable) (hmem : block ∈ reachable) :
    i ∈ stable block ↔ AssignedWhileVisible reachable successors liveness visible block i := by
  constructor
  · refine sweepUntilStable_induction
      (P := fun x => ∀ b, i ∈ x b →
        AssignedWhileVisible reachable successors liveness visible b i) ?_ ?_ h block
    · intro x c _ hknown
      exact forall_update
        (P := fun b set => i ∈ set →
          AssignedWhileVisible reachable successors liveness visible b i) hknown
        (assignedWhileVisible_of_mem_transfer hknown)
    · intro b hin
      exact absurd hin (Finset.notMem_empty i)
  · intro hpath
    exact mem_of_assignedWhileVisible (solves_of_stable h) hpath hmem

/-- The propagation ends, and each block's set holds the locals whose path fact is true. -/
theorem propagateBlockFacts_paths (reachable : List BlockId)
    (successors : BlockId → List BlockId) (liveness : BlockId → BlockLiveness n)
    (visible : BlockId → RootSet n) (propagation : BlockPropagation) :
    ∃ facts, propagateBlockFacts reachable (fun b => some (successors b))
        (fun b => some (liveness b)) (fun b => some (visible b)) propagation = some facts ∧
      ∀ block ∈ reachable, ∃ set, facts block = some set ∧
        ∀ i, i ∈ set ↔ PathFact reachable successors liveness visible propagation block i := by
  obtain ⟨facts, hfacts⟩ := propagateBlockFacts_isSome reachable (fun b => some (successors b))
    (fun b => some (liveness b)) (fun b => some (visible b)) propagation
  refine ⟨facts, hfacts, ?_⟩
  simp only [propagateBlockFacts, Option.map_eq_some_iff] at hfacts
  obtain ⟨stable, hstable, rfl⟩ := hfacts
  intro block hmem
  refine ⟨stable block, if_pos hmem, fun i => ?_⟩
  cases propagation with
  | AnyPath => exact mem_stable_anyPath visible hstable hmem
  | EveryPath => exact mem_stable_everyPath visible hstable hmem
  | AnyAssignment => exact mem_stable_anyAssignment hstable hmem

end Moth.Borrow
