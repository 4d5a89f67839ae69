import Mathlib.Data.Fintype.Pi
import Mathlib.Data.Finset.Lattice.Basic
import Mathlib.Data.List.FinRange
import Mathlib.Data.BitVec

/-!
# The borrow state of one function

The forward transfer engine keeps one row per function-local: a mode byte
and two root sets. This file is `state.rs` and the mode bits of `types.rs`,
with the dense local index as a `Fin n`, so that the bounds checks of the
original (`insert` past the width does nothing, `contains` past it is false)
have nothing left to say and a root set is a finite set of indices.

What the checker reads off a row is not the row but its *effective roots*:
the allocations the local's current binding keeps alive. A slot that stores
a fresh value owns its own allocation and nothing else; a slot whose value
came out of an aliasing call stands for the older allocations instead of its
own; an alias stands for its value roots. The rule is a case split on the
mode bits and on whether the value roots are empty, and it is not monotone,
which is what `Join.lean` is about.
-/

namespace Moth.Borrow

/-- The roots of one width: a set of local indices below it. -/
abbrev RootSet (n : Nat) := Finset (Fin n)

namespace RootSet

variable {n : Nat}

/-- Union in place, with whether any bit was added. -/
def unionWith (s t : RootSet n) : RootSet n × Bool :=
  (s ∪ t, decide (¬ t ⊆ s))

/-- Whether every index below the local count is a member. -/
def coversAll (s : RootSet n) : Bool := decide (s = Finset.univ)

/-- The members in ascending order. -/
def iterOnes (s : RootSet n) : List (Fin n) :=
  (List.finRange n).filter (fun i => decide (i ∈ s))

theorem unionWith_fst (s t : RootSet n) : (s.unionWith t).1 = s ∪ t := rfl

theorem unionWith_snd {s t : RootSet n} :
    (s.unionWith t).2 = true ↔ (s.unionWith t).1 ≠ s := by
  simp [unionWith]

@[simp] theorem mem_iterOnes {s : RootSet n} {i : Fin n} : i ∈ s.iterOnes ↔ i ∈ s := by
  simp [iterOnes]

end RootSet

/-- The binding representations that may have reached a point, one bit each. -/
structure LocalMode where
  bits : BitVec 8
deriving DecidableEq

namespace LocalMode

def UNINIT : LocalMode := ⟨0b001⟩
def SLOT : LocalMode := ⟨0b010⟩
def ALIAS : LocalMode := ⟨0b100⟩

def contains (self other : LocalMode) : Bool :=
  (self.bits &&& other.bits) == other.bits

def union (self other : LocalMode) : LocalMode := ⟨self.bits ||| other.bits⟩

def isDefinitelyUninit (self : LocalMode) : Bool := self.bits == UNINIT.bits

/-! Each flag is one bit, so containing it is reading that bit, and a union
contains it exactly when one side does. -/

theorem contains_slot (m : LocalMode) : m.contains SLOT = m.bits.getLsbD 1 := by
  cases m with
  | mk b => revert b; decide

theorem contains_alias (m : LocalMode) : m.contains ALIAS = m.bits.getLsbD 2 := by
  cases m with
  | mk b => revert b; decide

@[simp] theorem union_contains_slot (a b : LocalMode) :
    (a.union b).contains SLOT = (a.contains SLOT || b.contains SLOT) := by
  simp [contains_slot, union]

@[simp] theorem union_contains_alias (a b : LocalMode) :
    (a.union b).contains ALIAS = (a.contains ALIAS || b.contains ALIAS) := by
  simp [contains_alias, union]

end LocalMode

/-- One row: the binding storage mode, the provenance of the stored value, and
the roots the row aliases directly. -/
structure LocalState (n : Nat) where
  mode : LocalMode
  valueRoots : RootSet n
  directAliasRoots : RootSet n
deriving DecidableEq

namespace LocalState

variable {n : Nat}

def uninit (n : Nat) : LocalState n := ⟨.UNINIT, ∅, ∅⟩

def slot (n : Nat) : LocalState n := ⟨.SLOT, ∅, ∅⟩

def slotWithValueRoots (valueRoots directAliasRoots : RootSet n) : LocalState n :=
  ⟨.SLOT, valueRoots, directAliasRoots⟩

/-- A root-free binding of the given mode. -/
def reset (mode : LocalMode) : LocalState n := ⟨mode, ∅, ∅⟩

def hasValueAliases (row : LocalState n) : Bool := decide (row.valueRoots ≠ ∅)

def isAliasOnly (row : LocalState n) : Bool :=
  row.mode.contains .ALIAS && !row.mode.contains .SLOT

/-- One row of `join_in_place`, with whether the left row grew. -/
def joinRow (left right : LocalState n) : LocalState n × Bool :=
  let mode := left.mode.union right.mode
  let values := left.valueRoots.unionWith right.valueRoots
  let direct := left.directAliasRoots.unionWith right.directAliasRoots
  (⟨mode, values.1, direct.1⟩, mode != left.mode || values.2 || direct.2)

/-- One visible row of `kill_invisible`. A row without value roots keeps its
direct-alias roots; one whose value roots all leave scope loses its alias. -/
def narrow (visibleMask : RootSet n) (row : LocalState n) : LocalState n :=
  if row.valueRoots = ∅ then row
  else
    let values := row.valueRoots ∩ visibleMask
    let direct := row.directAliasRoots ∩ visibleMask
    if values = ∅ then reset (if row.mode.contains .SLOT then .SLOT else .UNINIT)
    else ⟨row.mode, values, direct⟩

/-- What every rule of the transfer keeps of a row. -/
def DirectWithinValues (row : LocalState n) : Prop := row.directAliasRoots ⊆ row.valueRoots

instance (row : LocalState n) : Decidable row.DirectWithinValues :=
  inferInstanceAs (Decidable (row.directAliasRoots ⊆ row.valueRoots))

end LocalState

/-- One lattice row per function-local index. -/
structure BorrowState (n : Nat) where
  locals : Fin n → LocalState n

namespace BorrowState

variable {n : Nat}

instance : DecidableEq (BorrowState n) := fun a b =>
  decidable_of_iff (a.locals = b.locals) ⟨fun h => by cases a; cases b; simp_all, fun h => by rw [h]⟩

def newUninitialized (n : Nat) : BorrowState n := ⟨fun _ => .uninit n⟩

def localState (s : BorrowState n) (i : Fin n) : LocalState n := s.locals i

def updateLocalState (s : BorrowState n) (i : Fin n) (row : LocalState n) : BorrowState n :=
  ⟨Function.update s.locals i row⟩

def initializeParameter (s : BorrowState n) (i : Fin n) : BorrowState n :=
  s.updateLocalState i (.slot n)

/-- Which sources of `effectiveRoots` apply: the local's own allocation root,
and its value roots. -/
def effectiveRootSources (s : BorrowState n) (i : Fin n) : Bool × Bool :=
  let row := s.localState i
  let hasSlotBinding := row.mode.contains .SLOT
  let hasAliasBinding := row.mode.contains .ALIAS
  let hasValueRoots := row.hasValueAliases
  (hasSlotBinding && (hasAliasBinding || !hasValueRoots),
    hasAliasBinding || (hasSlotBinding && hasValueRoots))

/-- The roots a local's current binding keeps alive. -/
def effectiveRoots (s : BorrowState n) (i : Fin n) : RootSet n :=
  let sources := s.effectiveRootSources i
  (if sources.1 then {i} else ∅) ∪ (if sources.2 then (s.localState i).valueRoots else ∅)

/-- The membership test of `effectiveRoots`, without building the set. -/
def effectiveRootContains (s : BorrowState n) (i root : Fin n) : Bool :=
  let sources := s.effectiveRootSources i
  (sources.1 && decide (root = i)) ||
    (sources.2 && decide (root ∈ (s.localState i).valueRoots))

/-- Join `other` into this state, reporting whether this state grew. -/
def joinInPlace (s other : BorrowState n) : BorrowState n × Bool :=
  (⟨fun i => ((s.localState i).joinRow (other.localState i)).1⟩,
    (List.finRange n).any (fun i => ((s.localState i).joinRow (other.localState i)).2))

/-- Reset the locals outside the visibility mask and drop their roots from the
visible ones. A mask that covers every local changes nothing. -/
def killInvisible (s : BorrowState n) (visibleMask : RootSet n) : BorrowState n :=
  if visibleMask.coversAll then s
  else ⟨fun i =>
    if i ∈ visibleMask then (s.localState i).narrow visibleMask else .reset .UNINIT⟩

/-- Every row keeps its direct-alias roots within its value roots. -/
def DirectWithinValues (s : BorrowState n) : Prop :=
  ∀ i, (s.localState i).DirectWithinValues

instance (s : BorrowState n) : Decidable s.DirectWithinValues :=
  inferInstanceAs (Decidable (∀ i, (s.localState i).DirectWithinValues))

theorem effectiveRootContains_iff {s : BorrowState n} {i root : Fin n} :
    s.effectiveRootContains i root = true ↔ root ∈ s.effectiveRoots i := by
  rcases hs : s.effectiveRootSources i with ⟨self, values⟩
  cases self <;> cases values <;> simp [effectiveRootContains, effectiveRoots, hs]

theorem mem_effectiveRoots {s : BorrowState n} {i root : Fin n} :
    root ∈ s.effectiveRoots i ↔
      (root = i ∧ (s.localState i).mode.contains .SLOT = true ∧
        ((s.localState i).mode.contains .ALIAS = true ∨ (s.localState i).valueRoots = ∅)) ∨
      (root ∈ (s.localState i).valueRoots ∧
        ((s.localState i).mode.contains .ALIAS = true ∨
          (s.localState i).mode.contains .SLOT = true)) := by
  rw [← effectiveRootContains_iff]
  have hne : root ∈ (s.localState i).valueRoots → (s.localState i).valueRoots ≠ ∅ :=
    fun h => Finset.ne_empty_of_mem h
  simp only [effectiveRootContains, effectiveRootSources, LocalState.hasValueAliases,
    Bool.or_eq_true, Bool.and_eq_true, decide_eq_true_eq, Bool.not_eq_true',
    decide_eq_false_iff_not, not_not]
  tauto

end BorrowState

end Moth.Borrow
