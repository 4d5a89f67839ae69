import Mathlib.Data.Finset.Card
import Mathlib.Data.Fintype.Card
import Mathlib.Algebra.BigOperators.Group.Finset.Basic
import Mathlib.Algebra.Order.BigOperators.Group.Finset

/-!
# Sweeping a table of facts until nothing changes

A table gives every node a fact, and a transfer recomputes the fact of one
node from the table. A sweep visits a list of nodes in order, each visit
seeing what the earlier ones wrote, and remembers whether any fact changed;
sweeps repeat until one changes nothing. The table that is left satisfies the
transfer's equation at every visited node, whatever the transfer is.

That the repetition ends needs an order of finite height, a transfer that
respects it and a start that the transfer only moves up: the start stays below
its own transfer, so a change moves one fact strictly up and the total height
of the table is bounded. The order is a parameter, so that the same statement
serves a table that grows and one that shrinks.
-/

namespace Moth.Lib

section Loop

variable {ν L : Type*} [DecidableEq ν] [DecidableEq L] (F : ν → (ν → L) → L)

/-- Recompute the fact of one node. -/
def visit (x : ν → L) (b : ν) : (ν → L) × Bool :=
  let next := F b x
  if x b = next then (x, false) else (Function.update x b next, true)

/-- Visit a list of nodes, with whether any fact changed. -/
def sweep : List ν → (ν → L) → (ν → L) × Bool
  | [], x => (x, false)
  | b :: rest, x =>
      let first := visit F x b
      let later := sweep rest first.1
      (later.1, first.2 || later.2)

/-- Sweep until a sweep changes nothing; `none` when the fuel runs out first. -/
def sweepUntilStable (order : List ν) : Nat → (ν → L) → Option (ν → L)
  | 0, _ => none
  | fuel + 1, x =>
      let swept := sweep F order x
      if swept.2 then sweepUntilStable order fuel swept.1 else some swept.1

variable {F}

theorem visit_unchanged {x : ν → L} {b : ν} (h : (visit F x b).2 = false) :
    (visit F x b).1 = x ∧ x b = F b x := by
  simp only [visit] at h ⊢
  split at h
  · next heq => rw [if_pos heq]; exact ⟨rfl, heq⟩
  · cases h

theorem sweep_unchanged {order : List ν} {x : ν → L} (h : (sweep F order x).2 = false) :
    (sweep F order x).1 = x ∧ ∀ b ∈ order, x b = F b x := by
  induction order generalizing x with
  | nil => exact ⟨rfl, fun _ hmem => absurd hmem List.not_mem_nil⟩
  | cons b rest ih =>
      simp only [sweep, Bool.or_eq_false_iff] at h ⊢
      obtain ⟨hfirst, hlater⟩ := h
      obtain ⟨hsame, hfact⟩ := visit_unchanged hfirst
      rw [hsame] at hlater ⊢
      obtain ⟨hsame', hrest⟩ := ih hlater
      refine ⟨hsame', fun c hmem => ?_⟩
      cases List.mem_cons.1 hmem with
      | inl heq => subst heq; exact hfact
      | inr hin => exact hrest c hin

theorem sweepUntilStable_fixed {order : List ν} {fuel : Nat} {x r : ν → L}
    (h : sweepUntilStable F order fuel x = some r) : ∀ b ∈ order, r b = F b r := by
  induction fuel generalizing x with
  | zero => cases h
  | succ fuel ih =>
      simp only [sweepUntilStable] at h
      split at h
      · exact ih h
      · next hstable =>
          obtain ⟨hsame, hfacts⟩ := sweep_unchanged (Bool.eq_false_iff.2 hstable)
          cases h
          rw [hsame]
          exact hfacts

theorem sweep_congr {G : ν → (ν → L) → L} {order : List ν} (h : ∀ b ∈ order, ∀ x, F b x = G b x)
    (x : ν → L) : sweep F order x = sweep G order x := by
  induction order generalizing x with
  | nil => rfl
  | cons b rest ih =>
      have hvisit : visit F x b = visit G x b := by
        simp only [visit, h b List.mem_cons_self]
      simp only [sweep, hvisit, ih fun c hmem => h c (List.mem_cons_of_mem _ hmem)]

theorem sweepUntilStable_congr {G : ν → (ν → L) → L} {order : List ν}
    (h : ∀ b ∈ order, ∀ x, F b x = G b x) (fuel : Nat) (x : ν → L) :
    sweepUntilStable F order fuel x = sweepUntilStable G order fuel x := by
  induction fuel generalizing x with
  | zero => rfl
  | succ fuel ih => simp only [sweepUntilStable, sweep_congr h, ih]

theorem sweep_induction {P : (ν → L) → Prop} {order : List ν}
    (hstep : ∀ x, ∀ b ∈ order, P x → P (Function.update x b (F b x))) {x : ν → L} (hx : P x) :
    P (sweep F order x).1 := by
  induction order generalizing x with
  | nil => exact hx
  | cons b rest ih =>
      refine ih (fun y c hmem => hstep y c (List.mem_cons_of_mem _ hmem)) ?_
      simp only [visit]
      split
      · exact hx
      · exact hstep x b List.mem_cons_self hx

theorem sweepUntilStable_induction {P : (ν → L) → Prop} {order : List ν}
    (hstep : ∀ x, ∀ b ∈ order, P x → P (Function.update x b (F b x))) {fuel : Nat}
    {x r : ν → L} (hx : P x) (h : sweepUntilStable F order fuel x = some r) : P r := by
  induction fuel generalizing x with
  | zero => cases h
  | succ fuel ih =>
      have hswept := sweep_induction hstep hx
      simp only [sweepUntilStable] at h
      split at h
      · exact ih hswept h
      · cases h
        exact hswept

end Loop

/-- An order of finite height. -/
structure Ascent (L : Type*) where
  le : L → L → Prop
  refl : ∀ a, le a a
  trans : ∀ {a b c}, le a b → le b c → le a c
  height : L → Nat
  bound : Nat
  height_le : ∀ a, height a ≤ bound
  height_lt : ∀ {a b}, le a b → a ≠ b → height a < height b

/-- Sets below a finite type, growing. -/
def Ascent.growing (α : Type*) [Fintype α] [DecidableEq α] : Ascent (Finset α) where
  le s t := s ⊆ t
  refl := fun s => Finset.Subset.refl s
  trans := Finset.Subset.trans
  height := Finset.card
  bound := Fintype.card α
  height_le := Finset.card_le_univ
  height_lt := fun h hne => Finset.card_lt_card (Finset.ssubset_iff_subset_ne.2 ⟨h, hne⟩)

/-- The same sets, shrinking. -/
def Ascent.shrinking (α : Type*) [Fintype α] [DecidableEq α] : Ascent (Finset α) where
  le s t := t ⊆ s
  refl := fun s => Finset.Subset.refl s
  trans := fun h h' => Finset.Subset.trans h' h
  height s := Fintype.card α - s.card
  bound := Fintype.card α
  height_le := fun s => Nat.sub_le _ _
  height_lt := fun {s t} h hne => by
    have hlt := Finset.card_lt_card (Finset.ssubset_iff_subset_ne.2 ⟨h, fun heq => hne heq.symm⟩)
    have hle := Finset.card_le_univ s
    omega

/-- The order of values that an injective reading pulls back. -/
def Ascent.comap {K L : Type*} (A : Ascent L) (f : K → L) (hinj : Function.Injective f) :
    Ascent K where
  le a b := A.le (f a) (f b)
  refl := fun a => A.refl (f a)
  trans := A.trans
  height a := A.height (f a)
  bound := A.bound
  height_le := fun a => A.height_le (f a)
  height_lt := fun h hne => A.height_lt h fun heq => hne (hinj heq)

section Termination

variable {ν L : Type*} [DecidableEq ν] (A : Ascent L) {F : ν → (ν → L) → L}

/-- A table that its transfer only moves up, at the nodes of a list. -/
def Ascent.Rising (F : ν → (ν → L) → L) (order : List ν) (x : ν → L) : Prop :=
  ∀ b ∈ order, A.le (x b) (F b x)

/-- A transfer that respects the order. -/
def Ascent.Respects (F : ν → (ν → L) → L) : Prop :=
  ∀ b x y, (∀ c, A.le (x c) (y c)) → A.le (F b x) (F b y)

variable {A}

theorem Ascent.le_update {order : List ν} {x : ν → L} {b : ν} (hrise : A.Rising F order x)
    (hb : b ∈ order) (c : ν) : A.le (x c) (Function.update x b (F b x) c) := by
  by_cases heq : c = b
  · subst heq
    rw [Function.update_self]
    exact hrise c hb
  · rw [Function.update_of_ne heq]
    exact A.refl _

theorem Ascent.rising_update (hmono : A.Respects F) {order : List ν} {x : ν → L} {b : ν}
    (hb : b ∈ order) (hrise : A.Rising F order x) :
    A.Rising F order (Function.update x b (F b x)) := by
  intro c hc
  have hup := hmono c x _ (fun d => A.le_update hrise hb d)
  by_cases heq : c = b
  · subst heq
    rw [Function.update_self]
    exact hup
  · rw [Function.update_of_ne heq]
    exact A.trans (hrise c hc) hup

/-- The total height of a table over a list of nodes. -/
def Ascent.total (A : Ascent L) (order : List ν) (x : ν → L) : Nat :=
  ∑ b ∈ order.toFinset, A.height (x b)

theorem Ascent.total_le (order : List ν) (x : ν → L) :
    A.total order x ≤ order.length * A.bound := by
  calc A.total order x ≤ order.toFinset.card * A.bound :=
        Finset.sum_le_card_nsmul _ _ _ fun b _ => A.height_le (x b)
    _ ≤ order.length * A.bound := Nat.mul_le_mul_right _ order.toFinset_card_le

theorem Ascent.height_mono {a b : L} (h : A.le a b) : A.height a ≤ A.height b := by
  by_cases heq : a = b
  · rw [heq]
  · exact Nat.le_of_lt (A.height_lt h heq)

theorem Ascent.total_lt {order : List ν} {x y : ν → L} (hle : ∀ c, A.le (x c) (y c)) {b : ν}
    (hb : b ∈ order) (hne : x b ≠ y b) : A.total order x < A.total order y :=
  Finset.sum_lt_sum (fun c _ => A.height_mono (hle c))
    ⟨b, List.mem_toFinset.2 hb, A.height_lt (hle b) hne⟩

variable [DecidableEq L]

/-- A sweep keeps a rising table rising and moves its total height up when it changes it. -/
theorem Ascent.sweep_rises (hmono : A.Respects F) {order : List ν} {nodes : List ν}
    (hsub : ∀ b ∈ order, b ∈ nodes) {x : ν → L} (hrise : A.Rising F nodes x) :
    A.Rising F nodes (sweep F order x).1 ∧
      A.total nodes x ≤ A.total nodes (sweep F order x).1 ∧
      ((sweep F order x).2 = true → A.total nodes x < A.total nodes (sweep F order x).1) := by
  induction order generalizing x with
  | nil => exact ⟨hrise, Nat.le_refl _, fun h => by cases h⟩
  | cons b rest ih =>
      have hb := hsub b List.mem_cons_self
      have hrest := fun c hmem => hsub c (List.mem_cons_of_mem _ hmem)
      simp only [sweep, visit]
      split
      · simp only [Bool.false_or]
        exact ih hrest hrise
      · next hchanged =>
          obtain ⟨hrise', hle, -⟩ := ih hrest (A.rising_update hmono hb hrise)
          have hlt : A.total nodes x < A.total nodes (Function.update x b (F b x)) :=
            A.total_lt (fun c => A.le_update hrise hb c) hb
              (by rw [Function.update_self]; exact hchanged)
          exact ⟨hrise', Nat.le_trans (Nat.le_of_lt hlt) hle, fun _ => Nat.lt_of_lt_of_le hlt hle⟩

theorem Ascent.sweepUntilStable_of_fuel (hmono : A.Respects F) {order : List ν} {fuel : Nat}
    {x : ν → L} (hrise : A.Rising F order x)
    (hfuel : order.length * A.bound < fuel + A.total order x) :
    ∃ r, sweepUntilStable F order fuel x = some r := by
  induction fuel generalizing x with
  | zero => exact absurd (A.total_le order x) (by omega)
  | succ fuel ih =>
      obtain ⟨hrise', -, hgrow⟩ := A.sweep_rises hmono (fun _ hmem => hmem) hrise
      simp only [sweepUntilStable]
      split
      · next hchanged =>
          have hlt := hgrow hchanged
          exact ih hrise' (by omega)
      · exact ⟨_, rfl⟩

/-- The number of sweeps that always suffices. -/
def Ascent.sweepBound (A : Ascent L) (order : List ν) : Nat := order.length * A.bound + 1

theorem Ascent.sweepUntilStable_terminates (hmono : A.Respects F) {order : List ν} {x : ν → L}
    (hrise : A.Rising F order x) :
    ∃ r, sweepUntilStable F order (A.sweepBound order) x = some r :=
  A.sweepUntilStable_of_fuel hmono hrise (by simp only [sweepBound]; omega)

end Termination

end Moth.Lib
