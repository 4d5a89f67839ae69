import Moth.Borrow.State

/-!
# What a join keeps of the effective roots

`join_in_place` is a join of rows: modes are or-ed, root sets are united. The
effective roots are not read off the row monotonically, though. A definite
slot without value roots owns its own allocation, and a definite slot *with*
value roots has given it up, so uniting the empty value roots of one edge with
the nonempty ones of the other turns the first kind of row into the second,
and the allocation the first edge still owned is gone.

That is the only way a root gets lost. `OwnRootSurvives` names the condition
on the two rows under which it does not happen, and `keepsRoots_iff` says that
a join keeps the roots of a local exactly when the condition holds from both
sides. Everything else is monotone: an alias bit on either side keeps both
sources of the joined row open, and value roots only grow.
-/

namespace Moth.Borrow

variable {n : Nat}

namespace LocalState

/-- A row bound to a fresh allocation of its own and to nothing older. -/
def OwnsFresh (row : LocalState n) : Prop :=
  row.mode.contains .SLOT = true ∧ row.mode.contains .ALIAS = false ∧ row.valueRoots = ∅

/-- Joining `other` into `row` does not close off the allocation of `l` itself. -/
def OwnRootSurvives (l : Fin n) (row other : LocalState n) : Prop :=
  row.OwnsFresh →
    other.mode.contains .ALIAS = true ∨ other.valueRoots = ∅ ∨ l ∈ other.valueRoots

instance (row : LocalState n) : Decidable row.OwnsFresh := by
  unfold OwnsFresh; infer_instance

instance (l : Fin n) (row other : LocalState n) : Decidable (OwnRootSurvives l row other) := by
  unfold OwnRootSurvives; infer_instance

end LocalState

namespace BorrowState

@[simp] theorem joinInPlace_mode (a b : BorrowState n) (i : Fin n) :
    ((a.joinInPlace b).1.localState i).mode =
      (a.localState i).mode.union (b.localState i).mode := rfl

@[simp] theorem joinInPlace_valueRoots (a b : BorrowState n) (i : Fin n) :
    ((a.joinInPlace b).1.localState i).valueRoots =
      (a.localState i).valueRoots ∪ (b.localState i).valueRoots := rfl

@[simp] theorem joinInPlace_directAliasRoots (a b : BorrowState n) (i : Fin n) :
    ((a.joinInPlace b).1.localState i).directAliasRoots =
      (a.localState i).directAliasRoots ∪ (b.localState i).directAliasRoots := rfl

theorem mem_effectiveRoots_joinInPlace {a b : BorrowState n} {i root : Fin n} :
    root ∈ (a.joinInPlace b).1.effectiveRoots i ↔
      (root = i ∧
        ((a.localState i).mode.contains .SLOT = true ∨
          (b.localState i).mode.contains .SLOT = true) ∧
        (((a.localState i).mode.contains .ALIAS = true ∨
            (b.localState i).mode.contains .ALIAS = true) ∨
          ((a.localState i).valueRoots = ∅ ∧ (b.localState i).valueRoots = ∅))) ∨
      ((root ∈ (a.localState i).valueRoots ∨ root ∈ (b.localState i).valueRoots) ∧
        (((a.localState i).mode.contains .ALIAS = true ∨
            (b.localState i).mode.contains .ALIAS = true) ∨
          ((a.localState i).mode.contains .SLOT = true ∨
            (b.localState i).mode.contains .SLOT = true))) := by
  rw [mem_effectiveRoots]
  simp [Finset.union_eq_empty]

theorem effectiveRoots_joinInPlace_comm (a b : BorrowState n) (i : Fin n) :
    (a.joinInPlace b).1.effectiveRoots i = (b.joinInPlace a).1.effectiveRoots i := by
  ext root
  rw [mem_effectiveRoots_joinInPlace, mem_effectiveRoots_joinInPlace]
  tauto

/-- The left side of a join keeps its roots of `l` exactly when the joined row
does not close off the allocation of `l` itself. -/
theorem effectiveRoots_subset_joinInPlace_iff {a b : BorrowState n} {l : Fin n} :
    a.effectiveRoots l ⊆ (a.joinInPlace b).1.effectiveRoots l ↔
      LocalState.OwnRootSurvives l (a.localState l) (b.localState l) := by
  constructor
  · intro hsub hfresh
    obtain ⟨hslot, halias, hempty⟩ := hfresh
    have hown : l ∈ a.effectiveRoots l :=
      mem_effectiveRoots.2 (.inl ⟨rfl, hslot, .inr hempty⟩)
    have hmem := mem_effectiveRoots_joinInPlace.1 (hsub hown)
    simp only [hslot, halias, hempty, Finset.notMem_empty, true_and, true_or, or_true,
      and_true, false_or, Bool.false_eq_true] at hmem
    tauto
  · intro hkeep root hroot
    rw [mem_effectiveRoots_joinInPlace]
    rcases mem_effectiveRoots.1 hroot with ⟨rfl, hslot, hown⟩ | ⟨hvalue, hbound⟩
    · cases halias : (a.localState root).mode.contains .ALIAS with
      | true => exact .inl ⟨rfl, .inl hslot, .inl (.inl rfl)⟩
      | false =>
          have hempty : (a.localState root).valueRoots = ∅ :=
            hown.resolve_left (by simp [halias])
          rcases hkeep ⟨hslot, halias, hempty⟩ with halias' | hempty' | hvalue'
          · exact .inl ⟨rfl, .inl hslot, .inl (.inr halias')⟩
          · exact .inl ⟨rfl, .inl hslot, .inr ⟨hempty, hempty'⟩⟩
          · exact .inr ⟨.inr hvalue', .inr (.inl hslot)⟩
    · exact .inr ⟨.inl hvalue, hbound.imp .inl .inl⟩

/-- A join loses none of the roots that `l` has on either incoming edge. -/
def KeepsRoots (a b : BorrowState n) (l : Fin n) : Prop :=
  a.effectiveRoots l ⊆ (a.joinInPlace b).1.effectiveRoots l ∧
    b.effectiveRoots l ⊆ (a.joinInPlace b).1.effectiveRoots l

instance (a b : BorrowState n) (l : Fin n) : Decidable (KeepsRoots a b l) := by
  unfold KeepsRoots; infer_instance

/-- A join keeps the roots of a local exactly when neither side owns a fresh
allocation that the other side's value roots close off. -/
theorem keepsRoots_iff (a b : BorrowState n) (l : Fin n) :
    KeepsRoots a b l ↔
      LocalState.OwnRootSurvives l (a.localState l) (b.localState l) ∧
        LocalState.OwnRootSurvives l (b.localState l) (a.localState l) := by
  have hright : b.effectiveRoots l ⊆ (a.joinInPlace b).1.effectiveRoots l ↔
      LocalState.OwnRootSurvives l (b.localState l) (a.localState l) := by
    rw [effectiveRoots_joinInPlace_comm, effectiveRoots_subset_joinInPlace_iff]
  exact and_congr effectiveRoots_subset_joinInPlace_iff hright

/-- One edge leaves local 0 with a fresh value, the other with the result of a
call that aliases local 1: the join forgets local 0's own allocation. -/
theorem joinInPlace_loses_own_root :
    ¬ ∀ (n : Nat) (a b : BorrowState n), a.DirectWithinValues → b.DirectWithinValues →
      ∀ l, KeepsRoots a b l := by
  intro h
  let fresh : BorrowState 2 := (newUninitialized 2).initializeParameter 1
    |>.updateLocalState 0 (.slot 2)
  let aliased : BorrowState 2 := (newUninitialized 2).initializeParameter 1
    |>.updateLocalState 0 (.slotWithValueRoots {1} ∅)
  have hkeeps : KeepsRoots fresh aliased 0 := h 2 fresh aliased (by decide) (by decide) 0
  exact absurd hkeeps (by decide)

end BorrowState

end Moth.Borrow
