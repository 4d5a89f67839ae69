import Mathlib.Data.List.Nodup
import Mathlib.Data.List.Sort

/-!
# Binary search by a key

A search halves the range it looks at, and stops at a row with the key it
wants. In rows of strictly increasing keys it finds the one row with the key
exactly when there is one.
-/

namespace Moth.Lib

variable {α : Type}

/-- The search in `size` rows from `lo`. -/
def binarySearchIn (key : α → Nat) (rows : List α) (wanted : Nat) (size lo : Nat) : Option α :=
  if size = 0 then none
  else
    match rows[lo + size / 2]? with
    | none => none
    | some row =>
        if key row = wanted then some row
        else if key row < wanted then
          binarySearchIn key rows wanted (size - size / 2 - 1) (lo + size / 2 + 1)
        else binarySearchIn key rows wanted (size / 2) lo
termination_by size
decreasing_by all_goals omega

def binarySearchByKey (key : α → Nat) (rows : List α) (wanted : Nat) : Option α :=
  binarySearchIn key rows wanted rows.length 0

variable {key : α → Nat} {rows : List α} {wanted : Nat}

theorem binarySearchIn_sound {size lo : Nat} {row : α}
    (h : binarySearchIn key rows wanted size lo = some row) : row ∈ rows ∧ key row = wanted := by
  fun_induction binarySearchIn key rows wanted size lo with
  | case1 => cases h
  | case2 => cases h
  | case3 size lo hsize found hfound hkey =>
      cases h
      exact ⟨List.mem_of_getElem? hfound, hkey⟩
  | case4 size lo hsize found hfound hkey hlt ih => exact ih h
  | case5 size lo hsize found hfound hkey hlt ih => exact ih h

theorem key_lt_of_lt (hkeys : rows.Pairwise fun row other => key row < key other) {i j : Nat}
    {row other : α} (hi : rows[i]? = some row) (hj : rows[j]? = some other) (hlt : i < j) :
    key row < key other := by
  obtain ⟨hi', rfl⟩ := List.getElem?_eq_some_iff.1 hi
  obtain ⟨hj', rfl⟩ := List.getElem?_eq_some_iff.1 hj
  exact List.pairwise_iff_getElem.1 hkeys i j hi' hj' hlt

theorem binarySearchIn_complete (hkeys : rows.Pairwise fun row other => key row < key other)
    {size lo i : Nat} {row : α} (hrow : rows[i]? = some row) (hwanted : key row = wanted)
    (hlo : lo ≤ i) (hhi : i < lo + size) (hsize : lo + size ≤ rows.length) :
    binarySearchIn key rows wanted size lo = some row := by
  fun_induction binarySearchIn key rows wanted size lo with
  | case1 => omega
  | case2 size lo hpos hnone =>
      rw [List.getElem?_eq_none_iff] at hnone
      omega
  | case3 size lo hpos found hfound hkey =>
      rcases Nat.lt_trichotomy (lo + size / 2) i with hlt | heq | hlt
      · have := key_lt_of_lt hkeys hfound hrow hlt
        omega
      · rw [← hrow, ← heq, hfound]
      · have := key_lt_of_lt hkeys hrow hfound hlt
        omega
  | case4 size lo hpos found hfound hkey hless ih =>
      have hlt : lo + size / 2 < i := by
        rcases Nat.lt_trichotomy (lo + size / 2) i with hlt | heq | hlt
        · exact hlt
        · subst heq
          cases hfound.symm.trans hrow
          exact absurd hwanted hkey
        · have := key_lt_of_lt hkeys hrow hfound hlt
          omega
      exact ih hlt (by omega) (by omega)
  | case5 size lo hpos found hfound hkey hless ih =>
      have hlt : i < lo + size / 2 := by
        rcases Nat.lt_trichotomy (lo + size / 2) i with hlt | heq | hlt
        · have := key_lt_of_lt hkeys hfound hrow hlt
          omega
        · subst heq
          cases hfound.symm.trans hrow
          exact absurd hwanted hkey
        · exact hlt
      exact ih hlo hlt (by omega)

theorem binarySearchByKey_iff (hkeys : rows.Pairwise fun row other => key row < key other)
    {row : α} : binarySearchByKey key rows wanted = some row ↔ row ∈ rows ∧ key row = wanted := by
  refine ⟨binarySearchIn_sound, fun ⟨hmem, hwanted⟩ => ?_⟩
  obtain ⟨i, hrow⟩ := List.mem_iff_getElem?.1 hmem
  have hi : i < rows.length := by
    by_contra hge
    rw [List.getElem?_eq_none (Nat.le_of_not_lt hge)] at hrow
    cases hrow
  exact binarySearchIn_complete hkeys hrow hwanted (Nat.zero_le i) (by omega) (by omega)

theorem mergeSort_key_ascending (key : α → Nat) (hkeys : (rows.map key).Nodup) :
    (rows.mergeSort fun row other => decide (key row ≤ key other)).Pairwise fun row other =>
      key row < key other := by
  have hsorted : (rows.mergeSort fun row other => decide (key row ≤ key other)).Pairwise
      fun row other => decide (key row ≤ key other) = true := by
    refine List.pairwise_mergeSort (fun a b c hab hbc => ?_) (fun a b => ?_) rows
    · rw [decide_eq_true_eq] at hab hbc ⊢
      omega
    · rw [Bool.or_eq_true, decide_eq_true_eq, decide_eq_true_eq]
      omega
  have hperm := List.mergeSort_perm rows fun row other => decide (key row ≤ key other)
  have hdistinct := List.pairwise_map.1 ((hperm.map key).nodup_iff.2 hkeys)
  refine (hsorted.and hdistinct).imp fun hab => ?_
  have hle := of_decide_eq_true hab.1
  have hne := hab.2
  omega

end Moth.Lib

/-!
## Ordered sets as sorted lists

A set whose iteration order is its order, as the strictly sorted list of its
members. Two such sets with the same members are the same list.
-/

namespace Moth.Lib

variable {α : Type} [LinearOrder α]

/-- Strictly increasing. -/
def Ascending (set : List α) : Prop := set.Pairwise (· < ·)

def insertSorted (x : α) : List α → List α
  | [] => [x]
  | y :: rest =>
      if x < y then x :: y :: rest
      else if x = y then y :: rest
      else y :: insertSorted x rest

theorem mem_insertSorted {x z : α} {set : List α} : z ∈ insertSorted x set ↔ z = x ∨ z ∈ set := by
  induction set with
  | nil => rw [insertSorted, List.mem_singleton, or_iff_left List.not_mem_nil]
  | cons y rest ih =>
      rw [insertSorted]
      split
      · rw [List.mem_cons]
      · split
        · rename_i heq
          rw [heq, List.mem_cons, ← or_assoc, or_self_iff]
        · rw [List.mem_cons, ih, List.mem_cons, or_left_comm]

theorem Ascending.insertSorted {x : α} {set : List α} (h : Ascending set) :
    Ascending (insertSorted x set) := by
  induction set with
  | nil => exact List.pairwise_singleton _ _
  | cons y rest ih =>
      obtain ⟨hy, hrest⟩ := List.pairwise_cons.1 h
      rw [Lib.insertSorted]
      split
      · rename_i hlt
        refine List.pairwise_cons.2 ⟨fun z hz => ?_, h⟩
        rcases List.mem_cons.1 hz with rfl | hz
        · exact hlt
        · exact hlt.trans (hy z hz)
      · split
        · exact h
        · rename_i hnlt hne
          refine List.pairwise_cons.2 ⟨fun z hz => ?_, ih hrest⟩
          rcases mem_insertSorted.1 hz with rfl | hz
          · exact lt_of_le_of_ne (not_lt.1 hnlt) (Ne.symm hne)
          · exact hy z hz

theorem Ascending.nodup {set : List α} (h : Ascending set) : set.Nodup :=
  h.imp fun hlt => hlt.ne

theorem Ascending.ext {set other : List α} (h : Ascending set) (h' : Ascending other)
    (hmem : ∀ x, x ∈ set ↔ x ∈ other) : set = other :=
  List.Perm.eq_of_pairwise (fun _ _ _ _ hab hba => absurd (hab.trans hba) (lt_irrefl _)) h h'
    ((List.perm_ext_iff_of_nodup h.nodup h'.nodup).2 hmem)

theorem ascending_insertionSort {list : List α} (h : list.Nodup) :
    Ascending (list.insertionSort (· ≤ ·)) := by
  have hsorted := List.pairwise_insertionSort (· ≤ ·) list
  have hnodup := (List.perm_insertionSort (· ≤ ·) list).nodup_iff.2 h
  exact (hsorted.and hnodup).imp fun hab => lt_of_le_of_ne hab.1 hab.2

end Moth.Lib
