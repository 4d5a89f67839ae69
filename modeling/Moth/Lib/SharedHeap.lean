import Mathlib.Data.List.Basic
import Mathlib.Data.List.Count
import Mathlib.Logic.Function.Basic

/-!
# A heap of shared values

A heap gives every address a value and the number of its owners. A program
allocates with one owner, adds an owner, drops one, and writes. What makes
writing through one owner invisible to the others is that a write happens only
at an address with a single owner, and the count is exact: it is the number of
times the address occurs among the owners the program holds.

`Owned` is that invariant, over the list of the addresses held. The order of
the list says nothing, so an operation is stated on the first owner and applied
to any of them by a permutation.
-/

namespace Moth.Lib

/-- Values with the number of their owners. -/
structure SharedHeap (β : Type*) where
  strong : Nat → Nat
  value : Nat → β
  next : Nat

namespace SharedHeap

variable {β : Type*}

def alloc (heap : SharedHeap β) (v : β) : SharedHeap β :=
  { strong := Function.update heap.strong heap.next 1
    value := Function.update heap.value heap.next v
    next := heap.next + 1 }

def share (heap : SharedHeap β) (a : Nat) : SharedHeap β :=
  { heap with strong := Function.update heap.strong a (heap.strong a + 1) }

def release (heap : SharedHeap β) (a : Nat) : SharedHeap β :=
  { heap with strong := Function.update heap.strong a (heap.strong a - 1) }

def write (heap : SharedHeap β) (a : Nat) (v : β) : SharedHeap β :=
  { heap with value := Function.update heap.value a v }

@[simp] theorem release_value (heap : SharedHeap β) (a : Nat) :
    (heap.release a).value = heap.value := rfl

@[simp] theorem write_value_self (heap : SharedHeap β) (a : Nat) (v : β) :
    (heap.write a v).value a = v := Function.update_self ..

theorem write_value_of_ne {heap : SharedHeap β} {a b : Nat} {v : β} (h : b ≠ a) :
    (heap.write a v).value b = heap.value b := Function.update_of_ne h ..

@[simp] theorem alloc_value_self (heap : SharedHeap β) (v : β) :
    (heap.alloc v).value heap.next = v := Function.update_self ..

@[simp] theorem alloc_strong_self (heap : SharedHeap β) (v : β) :
    (heap.alloc v).strong heap.next = 1 := Function.update_self ..

theorem release_strong_of_ne {heap : SharedHeap β} {a b : Nat} (h : b ≠ a) :
    (heap.release a).strong b = heap.strong b := Function.update_of_ne h ..

/-- Every count is the number of owners held, and the fresh addresses have none. -/
structure Owned (heap : SharedHeap β) (owners : List Nat) : Prop where
  strong_eq : ∀ a, heap.strong a = owners.count a
  lt_next : ∀ a ∈ owners, a < heap.next

variable {heap : SharedHeap β} {owners owners' : List Nat} {a : Nat} {v : β}

theorem Owned.perm (h : Owned heap owners) (hperm : owners.Perm owners') : Owned heap owners' where
  strong_eq := fun b => (h.strong_eq b).trans (hperm.count_eq b)
  lt_next := fun b hmem => h.lt_next b (hperm.mem_iff.2 hmem)

theorem Owned.next_not_mem (h : Owned heap owners) : heap.next ∉ owners := fun hmem =>
  Nat.lt_irrefl _ (h.lt_next _ hmem)

theorem Owned.alloc (h : Owned heap owners) : Owned (heap.alloc v) (heap.next :: owners) where
  strong_eq := by
    intro b
    simp only [SharedHeap.alloc]
    by_cases heq : b = heap.next
    · rw [heq, Function.update_self, List.count_cons_self, List.count_eq_zero_of_not_mem
        h.next_not_mem]
    · rw [Function.update_of_ne heq, List.count_cons_of_ne (Ne.symm heq), h.strong_eq]
  lt_next := by
    intro b hmem
    cases List.mem_cons.1 hmem with
    | inl heq => exact Nat.lt_succ_of_le (Nat.le_of_eq heq)
    | inr hin => exact Nat.lt_succ_of_lt (h.lt_next b hin)

theorem Owned.alloc_value (h : Owned heap owners) {b : Nat} (hb : b ∈ owners) :
    (heap.alloc v).value b = heap.value b :=
  Function.update_of_ne (Nat.ne_of_lt (h.lt_next b hb)) ..

theorem Owned.share (h : Owned heap owners) (hmem : a ∈ owners) :
    Owned (heap.share a) (a :: owners) where
  strong_eq := by
    intro b
    simp only [SharedHeap.share]
    by_cases heq : b = a
    · rw [heq, Function.update_self, List.count_cons_self, h.strong_eq]
    · rw [Function.update_of_ne heq, List.count_cons_of_ne (Ne.symm heq), h.strong_eq]
  lt_next := by
    intro b hb
    cases List.mem_cons.1 hb with
    | inl heq => exact heq ▸ h.lt_next a hmem
    | inr hin => exact h.lt_next b hin

theorem Owned.release (h : Owned heap (a :: owners)) : Owned (heap.release a) owners where
  strong_eq := by
    intro b
    have hb := h.strong_eq b
    simp only [SharedHeap.release]
    by_cases heq : b = a
    · rw [heq, List.count_cons_self] at hb
      rw [heq, Function.update_self, hb, Nat.add_sub_cancel]
    · rw [List.count_cons_of_ne (Ne.symm heq)] at hb
      rw [Function.update_of_ne heq, hb]
  lt_next := fun b hb => h.lt_next b (List.mem_cons_of_mem _ hb)

theorem Owned.write (h : Owned heap owners) : Owned (heap.write a v) owners where
  strong_eq := h.strong_eq
  lt_next := h.lt_next

theorem Owned.not_mem_of_strong_eq_one (h : Owned heap (a :: owners)) (hone : heap.strong a = 1) :
    a ∉ owners := by
  have hcount := h.strong_eq a
  rw [hone, List.count_cons_self] at hcount
  exact List.count_eq_zero.1 (by omega)

end SharedHeap

end Moth.Lib
