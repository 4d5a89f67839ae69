import Mathlib.Data.List.Basic

/-!
# Lines between separators

A sequence read as lines: the runs between the places of one separator. A
sequence has one line more than it has separators, and the lines put together
with the separator between them are the sequence.
-/

namespace Moth.Lib

variable {α : Type} [DecidableEq α]

/-- Each line with the separator before it. -/
def tailLines (sep : α) (lines : List (List α)) : List α := lines.flatMap fun line => sep :: line

def joinLines (sep : α) : List (List α) → List α
  | [] => []
  | line :: lines => line ++ tailLines sep lines

/-- The first line and the later ones. -/
def cutLines (sep : α) : List α → List α × List (List α)
  | [] => ([], [])
  | x :: rest =>
      if x = sep then ([], (cutLines sep rest).1 :: (cutLines sep rest).2)
      else (x :: (cutLines sep rest).1, (cutLines sep rest).2)

def separatedLines (sep : α) (xs : List α) : List (List α) :=
  (cutLines sep xs).1 :: (cutLines sep xs).2

variable {sep : α}

omit [DecidableEq α] in
@[simp] theorem tailLines_nil : tailLines sep [] = [] := rfl

omit [DecidableEq α] in
@[simp] theorem tailLines_cons (line : List α) (lines : List (List α)) :
    tailLines sep (line :: lines) = sep :: (line ++ tailLines sep lines) := rfl

omit [DecidableEq α] in
theorem tailLines_append (lines later : List (List α)) :
    tailLines sep (lines ++ later) = tailLines sep lines ++ tailLines sep later :=
  List.flatMap_append

omit [DecidableEq α] in
theorem tailLines_eq_cons (lines : List (List α)) (h : lines ≠ []) :
    tailLines sep lines = sep :: joinLines sep lines := by
  cases lines with
  | nil => exact absurd rfl h
  | cons line lines => rfl

theorem joinLines_cutLines (xs : List α) :
    (cutLines sep xs).1 ++ tailLines sep (cutLines sep xs).2 = xs := by
  induction xs with
  | nil => rfl
  | cons x rest ih =>
      rw [cutLines]
      by_cases hx : x = sep
      · rw [if_pos hx, List.nil_append, tailLines_cons, ih, hx]
      · rw [if_neg hx, List.cons_append, ih]

theorem joinLines_separatedLines (xs : List α) : joinLines sep (separatedLines sep xs) = xs :=
  joinLines_cutLines xs

theorem not_mem_cutLines (xs : List α) :
    sep ∉ (cutLines sep xs).1 ∧ ∀ line ∈ (cutLines sep xs).2, sep ∉ line := by
  induction xs with
  | nil => exact ⟨List.not_mem_nil, fun line h => absurd h List.not_mem_nil⟩
  | cons x rest ih =>
      rw [cutLines]
      by_cases hx : x = sep
      · rw [if_pos hx]
        refine ⟨List.not_mem_nil, ?_⟩
        intro line hline
        rcases List.mem_cons.1 hline with rfl | hline
        · exact ih.1
        · exact ih.2 line hline
      · rw [if_neg hx]
        refine ⟨?_, ih.2⟩
        intro hmem
        rcases List.mem_cons.1 hmem with heq | hmem
        · exact hx heq.symm
        · exact ih.1 hmem

theorem not_mem_separatedLines {xs line : List α} (h : line ∈ separatedLines sep xs) :
    sep ∉ line := by
  rcases List.mem_cons.1 h with rfl | h
  · exact (not_mem_cutLines xs).1
  · exact (not_mem_cutLines xs).2 line h

omit [DecidableEq α] in
theorem filter_tailLines {p : α → Bool} (hsep : p sep = false) (lines : List (List α)) :
    (tailLines sep lines).filter p = lines.flatMap (List.filter p) := by
  induction lines with
  | nil => rfl
  | cons line lines ih =>
      rw [tailLines_cons, List.filter_cons_of_neg (by rw [hsep]; exact Bool.false_ne_true),
        List.filter_append, ih, List.flatMap_cons]

omit [DecidableEq α] in
theorem filter_joinLines {p : α → Bool} (hsep : p sep = false) (lines : List (List α)) :
    (joinLines sep lines).filter p = lines.flatMap (List.filter p) := by
  cases lines with
  | nil => rfl
  | cons line lines =>
      rw [joinLines, List.filter_append, filter_tailLines hsep, List.flatMap_cons]

/-! ## Leading runs -/

omit [DecidableEq α] in
theorem takeWhile_append_tailLines {p : α → Bool} (hsep : p sep = false) (line : List α)
    (lines : List (List α)) :
    (line ++ tailLines sep lines).takeWhile p = line.takeWhile p := by
  induction line with
  | nil =>
      cases lines with
      | nil => rfl
      | cons later lines =>
          exact List.takeWhile_cons_of_neg (by rw [hsep]; exact Bool.false_ne_true)
  | cons x rest ih =>
      rw [List.cons_append, List.takeWhile_cons, List.takeWhile_cons, ih]

end Moth.Lib
