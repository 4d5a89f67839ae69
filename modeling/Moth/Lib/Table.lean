import Mathlib.Data.List.Nodup
import Mathlib.Logic.Function.Basic

/-!
# Tables filled row by row

A map as a function to optional values, and what a traversal that inserts a
list of rows leaves in it: under distinct keys every row is found again, and
keys without a row keep what they had. An insertion that finds an older row may
also merge the two. A list of rows is read by its first row of a key.
-/

namespace Moth.Lib

variable {κ φ : Type} [DecidableEq κ]

theorem foldl_update_of_notMem {rows : List (κ × φ)} {table : κ → Option φ} {key : κ}
    (h : key ∉ rows.map Prod.fst) :
    rows.foldl (fun (facts : κ → Option φ) row => Function.update facts row.1 (some row.2))
      table key = table key := by
  induction rows generalizing table with
  | nil => rfl
  | cons row rest ih =>
      rw [List.map_cons, List.mem_cons, not_or] at h
      rw [List.foldl_cons, ih h.2, Function.update_of_ne h.1]

theorem foldl_update_of_mem {rows : List (κ × φ)} {table : κ → Option φ}
    (hnodup : (rows.map Prod.fst).Nodup) {row : κ × φ} (hmem : row ∈ rows) :
    rows.foldl (fun (facts : κ → Option φ) row => Function.update facts row.1 (some row.2))
      table row.1 = some row.2 := by
  induction rows generalizing table with
  | nil => exact absurd hmem List.not_mem_nil
  | cons first rest ih =>
      rw [List.map_cons, List.nodup_cons] at hnodup
      rw [List.foldl_cons]
      cases List.mem_cons.1 hmem with
      | inl heq =>
          subst heq
          rw [foldl_update_of_notMem hnodup.1, Function.update_self]
      | inr hin => exact ih hnodup.2 hin

/-! ## Lists of rows -/

theorem lookup_map_modify {rows : List (κ × φ)} {changed key : κ} {change : φ → φ} :
    (rows.map fun row => if row.1 = changed then (changed, change row.2) else row).lookup key =
      if key = changed then (rows.lookup changed).map change else rows.lookup key := by
  induction rows with
  | nil => simp
  | cons row rest ih =>
      obtain ⟨k, value⟩ := row
      rw [List.map_cons]
      by_cases hk : k = changed
      · subst hk
        by_cases hkey : key = k
        · simp [hkey]
        · have hne : (key == k) = false := by simpa using hkey
          rw [if_pos rfl, List.lookup_cons, hne, if_neg hkey, List.lookup_cons (a := key), hne]
          rw [if_neg hkey] at ih
          exact ih
      · by_cases hkey : key = k
        · subst hkey
          simp [hk]
        · have hne : (key == k) = false := by simpa using hkey
          have hne' : (changed == k) = false := by simpa using Ne.symm hk
          rw [if_neg hk, List.lookup_cons, hne, List.lookup_cons, hne', List.lookup_cons, hne]
          exact ih

theorem lookup_eq_some_iff_mem {rows : List (κ × φ)} (hnodup : (rows.map Prod.fst).Nodup)
    {key : κ} {value : φ} : rows.lookup key = some value ↔ (key, value) ∈ rows := by
  induction rows with
  | nil => simp
  | cons row rest ih =>
      rw [List.map_cons, List.nodup_cons] at hnodup
      rw [List.mem_cons]
      by_cases hkey : key = row.1
      · subst hkey
        have hout : (row.1, value) ∉ rest := fun hin =>
          hnodup.1 (List.mem_map.2 ⟨_, hin, rfl⟩)
        rw [List.lookup_cons_self, Option.some.injEq, or_iff_left hout, Prod.mk.injEq]
        exact ⟨fun h => ⟨rfl, h.symm⟩, fun h => h.2.symm⟩
      · have hne : (key == row.1) = false := by simpa using hkey
        rw [List.lookup_cons, hne, Prod.mk.injEq, or_iff_right fun h => hkey h.1]
        exact ih hnodup.2

theorem lookup_eq_none_iff_notMem {rows : List (κ × φ)} {key : κ} :
    rows.lookup key = none ↔ key ∉ rows.map Prod.fst := by
  induction rows with
  | nil => simp
  | cons row rest ih =>
      by_cases hkey : key = row.1
      · simp [hkey]
      · have hne : (key == row.1) = false := by simpa using hkey
        rw [List.lookup_cons, hne, List.map_cons, List.mem_cons, not_or]
        exact ih.trans ⟨fun h => ⟨hkey, h⟩, fun h => h.2⟩

theorem lookup_map_value {ψ : Type} {rows : List (κ × φ)} (f : φ → ψ) (key : κ) :
    (rows.map fun row => (row.1, f row.2)).lookup key = (rows.lookup key).map f := by
  induction rows with
  | nil => rfl
  | cons row rest ih =>
      rw [List.map_cons, List.lookup_cons, List.lookup_cons]
      by_cases hkey : key = row.1
      · simp [hkey]
      · have hne : (key == row.1) = false := by simpa using hkey
        simp only [hne]
        exact ih

/-- Rows merged into a table under distinct keys: each key holds what it held and what the rows
have for it. -/
theorem foldl_merge_lookup (merge : φ → φ → φ)
    {step : (κ → Option φ) → κ × φ → κ → Option φ}
    (hstep : ∀ table row, step table row =
      Function.update table row.1 (Option.merge merge (table row.1) (some row.2)))
    {rows : List (κ × φ)} (hnodup : (rows.map Prod.fst).Nodup) (table : κ → Option φ) (key : κ) :
    rows.foldl step table key = Option.merge merge (table key) (rows.lookup key) := by
  induction rows generalizing table with
  | nil => cases h : table key <;> simp [h, Option.merge]
  | cons row rest ih =>
      obtain ⟨k, value⟩ := row
      rw [List.map_cons, List.nodup_cons] at hnodup
      rw [List.foldl_cons, ih hnodup.2, hstep, List.lookup_cons]
      by_cases hkey : key = k
      · subst hkey
        have hrest : rest.lookup key = none := lookup_eq_none_iff_notMem.2 hnodup.1
        rw [hrest, Function.update_self]
        cases table key <;> simp [Option.merge]
      · have hne : (key == k) = false := by simpa using hkey
        rw [hne, Function.update_of_ne hkey]

end Moth.Lib

/-!
## Simultaneous assignment by moves

A list of pairs, each a destination and a source, is assigned at once: every
destination gets the value its source had before any of them was written. Code
does it with moves that run one after the other, and a move that runs later
sees what an earlier one wrote.

Two things make a sequence of moves do the same as the assignment at once: the
destinations are different from each other, and no move writes what a later one
reads. Where an assignment does not have the second, its sources are first
saved to locals of their own.
-/

namespace Moth.Lib

variable {ι V : Type*}

/-- What the places hold after, from what they held before. -/
structure SimultaneousAssignment (pairs : List (ι × ι)) (before after : ι → V → Prop) : Prop where
  assigned : ∀ p ∈ pairs, ∀ v, after p.1 v ↔ before p.2 v
  kept : ∀ x, x ∉ pairs.map Prod.fst → ∀ v, after x v ↔ before x v

variable [DecidableEq ι]

/-- The moves one after the other. -/
def runMoves (moves : List (ι × ι)) (store : ι → V) : ι → V :=
  moves.foldl (fun s m => Function.update s m.1 (s m.2)) store

theorem runMoves_cons (m : ι × ι) (moves : List (ι × ι)) (store : ι → V) :
    runMoves (m :: moves) store = runMoves moves (Function.update store m.1 (store m.2)) := rfl

theorem runMoves_append (first later : List (ι × ι)) (store : ι → V) :
    runMoves (first ++ later) store = runMoves later (runMoves first store) :=
  List.foldl_append

theorem runMoves_of_notMem {moves : List (ι × ι)} {x : ι} (h : x ∉ moves.map Prod.fst)
    (store : ι → V) : runMoves moves store x = store x := by
  induction moves generalizing store with
  | nil => rfl
  | cons m rest ih =>
      rw [List.map_cons, List.mem_cons, not_or] at h
      rw [runMoves_cons, ih h.2, Function.update_of_ne h.1]

/-- No move writes what a later one reads. -/
def ReadsFirst (moves : List (ι × ι)) : Prop := moves.Pairwise fun m later => m.1 ≠ later.2

theorem runMoves_of_mem {moves : List (ι × ι)} (hnodup : (moves.map Prod.fst).Nodup)
    (hreads : ReadsFirst moves) {m : ι × ι} (hm : m ∈ moves) (store : ι → V) :
    runMoves moves store m.1 = store m.2 := by
  induction moves generalizing store with
  | nil => exact absurd hm List.not_mem_nil
  | cons first rest ih =>
      rw [List.map_cons, List.nodup_cons] at hnodup
      rcases List.mem_cons.1 hm with heq | hrest
      · rw [heq, runMoves_cons, runMoves_of_notMem hnodup.1, Function.update_self]
      · have hne : first.1 ≠ m.2 := (List.pairwise_cons.1 hreads).1 m hrest
        rw [runMoves_cons, ih hnodup.2 (List.pairwise_cons.1 hreads).2 hrest,
          Function.update_of_ne hne.symm]

omit [DecidableEq ι] in
theorem readsFirst_of_disjoint {moves : List (ι × ι)}
    (h : ∀ m ∈ moves, ∀ later ∈ moves, m.1 ≠ later.2) : ReadsFirst moves :=
  List.Pairwise.imp_of_mem (fun hm hlater _ => h _ hm _ hlater)
    (List.pairwise_of_forall fun _ _ => trivial : moves.Pairwise fun _ _ => True)

end Moth.Lib
