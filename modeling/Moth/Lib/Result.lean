import Mathlib.Data.List.Forall2
import Mathlib.Data.List.Perm.Basic

/-!
# Fallible computations

Taking a chain of fallible steps apart. A chain that succeeded has a first
step that succeeded and a rest that succeeded on its answer, so a long body is
read from the top with one lemma and no unfolding of the monad.
-/

namespace Moth.Lib

variable {ε α β : Type}

theorem bind_eq_ok {x : Except ε α} {f : α → Except ε β} {b : β} :
    (x >>= f) = .ok b ↔ ∃ a, x = .ok a ∧ f a = .ok b := by
  cases x with
  | error e => simp [bind, Except.bind]
  | ok a => simp [bind, Except.bind]

@[simp] theorem ok_bind (a : α) (f : α → Except ε β) : (Except.ok a >>= f) = f a := rfl

@[simp] theorem error_bind (e : ε) (f : α → Except ε β) :
    (Except.error e >>= f) = .error e := rfl

theorem foldlM_cons_ok {σ : Type} {step : σ → α → Except ε σ} {state next : σ} {x : α}
    (h : step state x = .ok next) (xs : List α) :
    (x :: xs).foldlM step state = xs.foldlM step next := by
  rw [List.foldlM_cons, h]
  rfl

theorem foldlM_append_ok {σ : Type} {step : σ → α → Except ε σ} {state next : σ}
    {xs : List α} (h : xs.foldlM step state = .ok next) (ys : List α) :
    (xs ++ ys).foldlM step state = ys.foldlM step next := by
  rw [List.foldlM_append, h]
  rfl

theorem foldlM_induction {σ : Type} {P : σ → Prop} {f : σ → α → Except ε σ} {rows : List α}
    (hstep : ∀ state, ∀ row ∈ rows, ∀ next, P state → f state row = .ok next → P next)
    {state final : σ} (hstate : P state) (h : rows.foldlM f state = .ok final) : P final := by
  induction rows generalizing state with
  | nil =>
      cases h
      exact hstate
  | cons row rest ih =>
      rw [List.foldlM_cons] at h
      obtain ⟨next, hnext, hrest⟩ := bind_eq_ok.1 h
      refine ih (fun s r hr => hstep s r (List.mem_cons_of_mem _ hr)) ?_ hrest
      exact hstep state row List.mem_cons_self next hstate hnext

theorem foldlM_error {σ : Type} {f : σ → α → Except ε σ} {rows : List α} {state : σ} {e : ε}
    (h : rows.foldlM f state = .error e) : ∃ row ∈ rows, ∃ before, f before row = .error e := by
  induction rows generalizing state with
  | nil => cases h
  | cons row rest ih =>
      rw [List.foldlM_cons] at h
      cases hrow : f state row with
      | error e' =>
          rw [hrow] at h
          cases h
          exact ⟨row, List.mem_cons_self, state, hrow⟩
      | ok next =>
          rw [hrow, ok_bind] at h
          obtain ⟨other, hmem, before, hother⟩ := ih h
          exact ⟨other, List.mem_cons_of_mem _ hmem, before, hother⟩

/-! ## One step for each row -/

theorem mapM_cons_ok {f : α → Except ε β} {row : α} {rest : List α} {answers : List β} :
    (row :: rest).mapM f = .ok answers ↔
      ∃ first later, f row = .ok first ∧ rest.mapM f = .ok later ∧ answers = first :: later := by
  rw [List.mapM_cons, bind_eq_ok]
  constructor
  · intro h
    obtain ⟨first, hfirst, hrest⟩ := h
    obtain ⟨later, hlater, hanswers⟩ := bind_eq_ok.1 hrest
    cases hanswers
    exact ⟨first, later, hfirst, hlater, rfl⟩
  · intro h
    obtain ⟨first, later, hfirst, hlater, heq⟩ := h
    exact ⟨first, hfirst, by rw [hlater, heq]; rfl⟩

theorem mapM_ok_iff {f : α → Except ε β} {rows : List α} {answers : List β} :
    rows.mapM f = .ok answers ↔ List.Forall₂ (fun row answer => f row = .ok answer) rows answers := by
  induction rows generalizing answers with
  | nil =>
      constructor
      · intro h
        cases h
        exact .nil
      · intro h
        cases h
        rfl
  | cons row rest ih =>
      rw [mapM_cons_ok]
      constructor
      · intro h
        obtain ⟨first, later, hfirst, hlater, heq⟩ := h
        rw [heq]
        exact .cons hfirst (ih.1 hlater)
      · intro h
        cases h with
        | cons hfirst hlater => exact ⟨_, _, hfirst, ih.2 hlater, rfl⟩

theorem mapM_error {f : α → Except ε β} {rows : List α} {e : ε} (h : rows.mapM f = .error e) :
    ∃ row ∈ rows, f row = .error e := by
  induction rows with
  | nil => cases h
  | cons row rest ih =>
      rw [List.mapM_cons] at h
      cases hrow : f row with
      | error e' =>
          rw [hrow] at h
          cases h
          exact ⟨row, List.mem_cons_self, hrow⟩
      | ok first =>
          rw [hrow, ok_bind] at h
          cases hrest : rest.mapM f with
          | error e' =>
              rw [hrest] at h
              cases h
              obtain ⟨other, hmem, hother⟩ := ih hrest
              exact ⟨other, List.mem_cons_of_mem _ hmem, hother⟩
          | ok later =>
              rw [hrest] at h
              cases h

theorem mapM_congr {f g : α → Except ε β} {rows : List α} (h : ∀ row ∈ rows, f row = g row) :
    rows.mapM f = rows.mapM g := by
  induction rows with
  | nil => rfl
  | cons row rest ih =>
      rw [List.mapM_cons, List.mapM_cons, h row List.mem_cons_self,
        ih fun other hmem => h other (List.mem_cons_of_mem _ hmem)]

theorem forall₂_exists_right {R : α → β → Prop} {rows : List α} {answers : List β}
    (h : List.Forall₂ R rows answers) {row : α} (hmem : row ∈ rows) :
    ∃ answer ∈ answers, R row answer := by
  induction h with
  | nil => exact absurd hmem List.not_mem_nil
  | cons hfirst _ ih =>
      cases List.mem_cons.1 hmem with
      | inl heq =>
          rw [heq]
          exact ⟨_, List.mem_cons_self, hfirst⟩
      | inr hin =>
          obtain ⟨answer, hanswer, hrel⟩ := ih hin
          exact ⟨answer, List.mem_cons_of_mem _ hanswer, hrel⟩

theorem forall₂_exists_left {R : α → β → Prop} {rows : List α} {answers : List β}
    (h : List.Forall₂ R rows answers) {answer : β} (hmem : answer ∈ answers) :
    ∃ row ∈ rows, R row answer :=
  forall₂_exists_right (List.Forall₂.flip (R := flip R) h) hmem

theorem mapM_perm {f : α → Except ε β} {rows rows' : List α} {answers : List β}
    (hperm : rows'.Perm rows) (h : rows.mapM f = .ok answers) :
    ∃ answers', rows'.mapM f = .ok answers' ∧ answers'.Perm answers := by
  obtain ⟨answers', hanswers', hperm'⟩ := List.perm_comp_forall₂ hperm (mapM_ok_iff.1 h)
  exact ⟨answers', mapM_ok_iff.2 hanswers', hperm'⟩

/-- A traversal whose steps succeed wherever those of another do, with no more in each answer. -/
theorem mapM_flatten_mono {f g : α → Except ε (List β)} {rows : List α} {above : List (List β)}
    (hstep : ∀ row ∈ rows, ∀ answer', g row = .ok answer' →
      ∃ answer, f row = .ok answer ∧ answer ⊆ answer')
    (h : rows.mapM g = .ok above) :
    ∃ answers, rows.mapM f = .ok answers ∧ answers.flatten ⊆ above.flatten := by
  induction rows generalizing above with
  | nil =>
      cases h
      exact ⟨[], rfl, List.Subset.refl _⟩
  | cons row rest ih =>
      obtain ⟨first', later', hfirst', hlater', heq⟩ := mapM_cons_ok.1 h
      obtain ⟨first, hfirst, hsub⟩ := hstep row List.mem_cons_self first' hfirst'
      obtain ⟨later, hlater, hrest⟩ :=
        ih (fun other hmem => hstep other (List.mem_cons_of_mem _ hmem)) hlater'
      refine ⟨first :: later, mapM_cons_ok.2 ⟨first, later, hfirst, hlater, rfl⟩, ?_⟩
      rw [heq, List.flatten_cons, List.flatten_cons]
      exact List.append_subset.2 ⟨fun x hx => List.mem_append_left _ (hsub hx),
        fun x hx => List.mem_append_right _ (hrest hx)⟩

theorem mem_mapM_flatten {f : α → Except ε (List β)} {P : α → Prop} {rows : List α}
    {answers : List (List β)} {x : β}
    (hstep : ∀ row ∈ rows, ∀ answer, f row = .ok answer → (x ∈ answer ↔ P row))
    (h : rows.mapM f = .ok answers) : x ∈ answers.flatten ↔ ∃ row ∈ rows, P row := by
  have hall := mapM_ok_iff.1 h
  rw [List.mem_flatten]
  constructor
  · intro hx
    obtain ⟨answer, hmem, hin⟩ := hx
    obtain ⟨row, hrow, hanswer⟩ := forall₂_exists_left hall hmem
    exact ⟨row, hrow, (hstep row hrow answer hanswer).1 hin⟩
  · intro hP
    obtain ⟨row, hrow, hp⟩ := hP
    obtain ⟨answer, hmem, hanswer⟩ := forall₂_exists_right hall hrow
    exact ⟨answer, hmem, (hstep row hrow answer hanswer).2 hp⟩

theorem option_mapM_of_isSome {α β : Type} {f : α → Option β} {rows : List α}
    (h : ∀ row ∈ rows, (f row).isSome) : ∃ answers, rows.mapM f = some answers ∧
      ∀ answer, answer ∈ answers ↔ ∃ row ∈ rows, f row = some answer := by
  induction rows with
  | nil => exact ⟨[], rfl, by simp⟩
  | cons row rest ih =>
      obtain ⟨first, hfirst⟩ := Option.isSome_iff_exists.1 (h row List.mem_cons_self)
      obtain ⟨answers, hanswers, hmem⟩ := ih fun row hrow => h row (List.mem_cons_of_mem _ hrow)
      refine ⟨first :: answers, by rw [List.mapM_cons, hfirst, hanswers]; rfl, fun answer => ?_⟩
      rw [List.mem_cons, hmem]
      simp only [List.mem_cons, exists_eq_or_imp, hfirst, Option.some.injEq]
      exact or_congr_left eq_comm

/-- A traversal that succeeded, seen from the rows already done at each step. -/
theorem option_foldlM_prefix {σ : Type} {P : List α → σ → Prop} {f : σ → α → Option σ}
    {rows : List α}
    (hstep : ∀ done row rest, rows = done ++ row :: rest → ∀ state next, P done state →
      f state row = some next → P (done ++ [row]) next)
    {state final : σ} (hstate : P [] state) (h : rows.foldlM f state = some final) :
    P rows final := by
  suffices hgen : ∀ rest done state, rows = done ++ rest → P done state →
      rest.foldlM f state = some final → P rows final from hgen rows [] state rfl hstate h
  intro rest
  induction rest with
  | nil =>
      intro done state heq hdone hfold
      cases hfold
      rw [heq, List.append_nil]
      exact hdone
  | cons row rest ih =>
      intro done state heq hdone hfold
      rw [List.foldlM_cons] at hfold
      obtain ⟨next, hnext, hrest⟩ := Option.bind_eq_some_iff.1 hfold
      refine ih (done ++ [row]) next ?_ (hstep done row rest heq state next hdone hnext) hrest
      rw [heq, List.append_assoc]
      rfl

end Moth.Lib
