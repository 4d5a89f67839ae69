import Moth.Borrow.State
import Moth.Hir.Flow

/-!
# The layout of one function

`FunctionLayout` of `state.rs`: the dense local indices of a function with the
order and liveness facts that the transfer reads, and the queries on them. A
hash map keyed by an id is a function to an `Option`. Order keys are `Int`,
with `-1` for none, and are handed out one per statement and terminator, so
that their `i32` range is never the limit of a function that fits in memory.
-/

namespace Moth.Borrow

open Moth.Hir

def UNKNOWN_ORDER_KEY : Int := -1

structure FunctionLayout (n : Nat) where
  localIds : Fin n → LocalId
  localMutable : Fin n → Bool
  localFirstWriteOrder : Fin n → Int
  localLastUseOrder : Fin n → Int
  statementOrderById : HirNodeId → Option Int
  terminatorOrderByBlock : BlockId → Option Int
  blockLocalMaxUseOrder : BlockId → Option (Fin n → Int)
  blockSuccessors : BlockId → Option (List BlockId)
  visibleLocalsByBlock : BlockId → Option (RootSet n)
  mayUseFromBlock : BlockId → Option (RootSet n)
  mustUseFromBlock : BlockId → Option (RootSet n)
  mayAssignFromBlock : BlockId → Option (RootSet n)

inductive FutureUseKind where
  | None
  | May
  | Must
deriving DecidableEq

/-- The dense index of a local id. -/
def indexIn {n : Nat} (localIds : Fin n → LocalId) (target : LocalId) : Option (Fin n) :=
  (List.finRange n).find? fun i => localIds i = target

/-- Whether a map holds a root set for the block with the root in it. -/
def containsAt {n : Nat} (sets : BlockId → Option (RootSet n)) (block : BlockId) (i : Fin n) :
    Bool :=
  match sets block with
  | some roots => decide (i ∈ roots)
  | none => false

namespace FunctionLayout

variable {n : Nat}

def indexOf (layout : FunctionLayout n) (target : LocalId) : Option (Fin n) :=
  indexIn layout.localIds target

def statementOrderOrUnknown (layout : FunctionLayout n) (statement : HirNodeId) : Int :=
  (layout.statementOrderById statement).getD UNKNOWN_ORDER_KEY

def terminatorOrderOrUnknown (layout : FunctionLayout n) (block : BlockId) : Int :=
  (layout.terminatorOrderByBlock block).getD UNKNOWN_ORDER_KEY

def localIsExpired (layout : FunctionLayout n) (i : Fin n) (currentOrder : Int) : Bool :=
  let lastUse := layout.localLastUseOrder i
  decide (0 ≤ lastUse ∧ lastUse < currentOrder)

def localHasFutureUseInBlock (layout : FunctionLayout n) (block : BlockId) (i : Fin n)
    (currentOrder : Int) : Bool :=
  match layout.blockLocalMaxUseOrder block with
  | some maxUseOrder => decide (currentOrder < maxUseOrder i)
  | none => false

/-- The use of a local that the paths after a point may or must make. -/
def futureUseKind (layout : FunctionLayout n) (block : BlockId) (i : Fin n)
    (currentOrder : Int) : FutureUseKind :=
  if layout.localHasFutureUseInBlock block i currentOrder then .Must
  else
    match layout.blockSuccessors block with
    | none => .None
    | some successors =>
        if successors = [] then .None
        else
          let may := successors.any fun successor => containsAt layout.mayUseFromBlock successor i
          let must := successors.all fun successor =>
            containsAt layout.mustUseFromBlock successor i
          if !may then .None else if must then .Must else .May

/-- Whether a successor directly assigns this local on any path. -/
def localHasFutureAssignment (layout : FunctionLayout n) (block : BlockId) (i : Fin n) : Bool :=
  match layout.blockSuccessors block with
  | none => false
  | some successors =>
      successors.any fun successor => containsAt layout.mayAssignFromBlock successor i

/-- What a future use of kind `None` rules out: a later key in the block, and a successor
from which the local may be used. -/
theorem futureUseKind_eq_none {layout : FunctionLayout n} {block : BlockId} {i : Fin n}
    {currentOrder : Int} (h : layout.futureUseKind block i currentOrder = .None) :
    layout.localHasFutureUseInBlock block i currentOrder = false ∧
      ∀ successors, layout.blockSuccessors block = some successors →
        ∀ successor ∈ successors, containsAt layout.mayUseFromBlock successor i = false := by
  simp only [futureUseKind] at h
  split at h
  · cases h
  · next hlocal =>
      refine ⟨Bool.eq_false_iff.2 hlocal, fun successors hsuccessors successor hmem => ?_⟩
      rw [hsuccessors] at h
      simp only at h
      split at h
      · next hempty => exact absurd hmem (by simp [hempty])
      · split at h
        · next hmay =>
            simp only [Bool.not_eq_true', List.any_eq_false, Bool.not_eq_true] at hmay
            exact hmay successor hmem
        · split at h <;> cases h

/-- A use is ahead where the block has a later key or a successor from which the local may be
used. -/
theorem futureUseKind_ne_none_iff {layout : FunctionLayout n} {block : BlockId} {i : Fin n}
    {currentOrder : Int} :
    layout.futureUseKind block i currentOrder ≠ .None ↔
      layout.localHasFutureUseInBlock block i currentOrder = true ∨
        ∃ successors, layout.blockSuccessors block = some successors ∧
          ∃ successor ∈ successors, containsAt layout.mayUseFromBlock successor i = true := by
  constructor
  · intro hne
    by_contra hnone
    push Not at hnone
    refine hne ?_
    rw [futureUseKind, if_neg hnone.1]
    cases hsuccessors : layout.blockSuccessors block with
    | none => rfl
    | some successors =>
        have hmay : (successors.any fun successor =>
            containsAt layout.mayUseFromBlock successor i) = false := by
          rw [List.any_eq_false]
          exact hnone.2 successors hsuccessors
        simp [hmay]
  · intro hused hnone
    obtain ⟨hinBlock, hnever⟩ := futureUseKind_eq_none hnone
    rcases hused with hlater | ⟨successors, hsuccessors, successor, hmem, hmay⟩
    · rw [hinBlock] at hlater
      exact Bool.false_ne_true hlater
    · rw [hnever successors hsuccessors successor hmem] at hmay
      exact Bool.false_ne_true hmay

theorem localHasFutureUseInBlock_eq_false {layout : FunctionLayout n} {block : BlockId}
    {i : Fin n} {currentOrder : Int} {maxUseOrder : Fin n → Int}
    (h : layout.localHasFutureUseInBlock block i currentOrder = false)
    (hmax : layout.blockLocalMaxUseOrder block = some maxUseOrder) :
    maxUseOrder i ≤ currentOrder := by
  simp only [localHasFutureUseInBlock, hmax, decide_eq_false_iff_not, Int.not_lt] at h
  exact h

end FunctionLayout

end Moth.Borrow
