import Mathlib.Data.List.Forall2

/-!
# Related lists by position

Two lists related entry by entry, `List.Forall₂`, read and changed at one
position.
-/

namespace Moth.Lib

variable {α β : Type*} {R R' : α → β → Prop} {l : List α} {m : List β} {i : Nat}

theorem forall₂_getElem? (h : List.Forall₂ R l m) (i : Nat) : Option.Rel R l[i]? m[i]? := by
  induction h generalizing i with
  | nil => exact .none
  | cons hab _ ih =>
      cases i with
      | zero => exact .some hab
      | succ i => exact ih i

theorem forall₂_imp_mem (h : List.Forall₂ R l m) (hframe : ∀ a ∈ l, ∀ b, R a b → R' a b) :
    List.Forall₂ R' l m :=
  List.forall₂_iff_zip.2 ⟨h.length_eq, fun hmem =>
    hframe _ (List.of_mem_zip hmem).1 _ (List.forall₂_zip h hmem)⟩

theorem forall₂_eraseIdx (h : List.Forall₂ R l m)
    (hframe : ∀ a ∈ l.eraseIdx i, ∀ b, R a b → R' a b) :
    List.Forall₂ R' (l.eraseIdx i) (m.eraseIdx i) := by
  induction h generalizing i with
  | nil => exact .nil
  | cons hab hrest ih =>
      cases i with
      | zero =>
          rw [List.eraseIdx_cons_zero] at hframe ⊢
          exact forall₂_imp_mem hrest hframe
      | succ i =>
          rw [List.eraseIdx_cons_succ] at hframe ⊢
          exact .cons (hframe _ List.mem_cons_self _ hab)
            (ih fun a ha => hframe a (List.mem_cons_of_mem _ ha))

theorem forall₂_set (h : List.Forall₂ R l m)
    (hframe : ∀ a ∈ l.eraseIdx i, ∀ b, R a b → R' a b) {x : α} {y : β} (hnew : R' x y) :
    List.Forall₂ R' (l.set i x) (m.set i y) := by
  induction h generalizing i with
  | nil => exact .nil
  | cons hab hrest ih =>
      cases i with
      | zero =>
          rw [List.eraseIdx_cons_zero] at hframe
          exact .cons hnew (forall₂_imp_mem hrest hframe)
      | succ i =>
          rw [List.eraseIdx_cons_succ] at hframe
          exact .cons (hframe _ List.mem_cons_self _ hab)
            (ih fun a ha => hframe a (List.mem_cons_of_mem _ ha))

end Moth.Lib
