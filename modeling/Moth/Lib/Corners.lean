import Mathlib

/-!
# Bounding a function of two arguments by its corners

On a segment where `f` is monotone or antitone its values lie between the two
endpoint values. A function of two arguments that is monotone or antitone
along each axis of a rectangle therefore lies between bounds of its four
corner values; which of the two it is may change from row to row. The
integer product and the truncated quotient by a divisor of one sign are the
two instances.
-/

namespace Moth.Lib

open Set

/-- Monotone or antitone: the values of a segment lie between its endpoints'. -/
def OneWayOn {α γ : Type*} [Preorder α] [Preorder γ] (f : α → γ) (s : Set α) : Prop :=
  MonotoneOn f s ∨ AntitoneOn f s

section Corners

variable {α β γ : Type*} [Preorder α] [Preorder β] [Preorder γ]

theorem OneWayOn.le_of_endpoints {f : α → γ} {a b x : α} {low : γ}
    (h : OneWayOn f (Icc a b)) (hx : x ∈ Icc a b) (ha : low ≤ f a) (hb : low ≤ f b) :
    low ≤ f x := by
  have hab : a ≤ b := le_trans hx.1 hx.2
  cases h with
  | inl hmono => exact le_trans ha (hmono (left_mem_Icc.2 hab) hx hx.1)
  | inr hanti => exact le_trans hb (hanti hx (right_mem_Icc.2 hab) hx.2)

theorem OneWayOn.ge_of_endpoints {f : α → γ} {a b x : α} {high : γ}
    (h : OneWayOn f (Icc a b)) (hx : x ∈ Icc a b) (ha : f a ≤ high) (hb : f b ≤ high) :
    f x ≤ high := by
  have hab : a ≤ b := le_trans hx.1 hx.2
  cases h with
  | inl hmono => exact le_trans (hmono hx (right_mem_Icc.2 hab) hx.2) hb
  | inr hanti => exact le_trans (hanti (left_mem_Icc.2 hab) hx hx.1) ha

/-- Bounds of the four corners are bounds of the rectangle. -/
theorem between_corners {f : α → β → γ} {a b x : α} {c d y : β} {low high : γ}
    (hrow : ∀ y ∈ Icc c d, OneWayOn (fun x => f x y) (Icc a b))
    (hcol : ∀ x ∈ Icc a b, OneWayOn (f x) (Icc c d))
    (hx : x ∈ Icc a b) (hy : y ∈ Icc c d)
    (hcorner : ∀ u v, (u = a ∨ u = b) → (v = c ∨ v = d) → low ≤ f u v ∧ f u v ≤ high) :
    low ≤ f x y ∧ f x y ≤ high := by
  have hab : a ≤ b := le_trans hx.1 hx.2
  have hedge : ∀ u, (u = a ∨ u = b) → low ≤ f u y ∧ f u y ≤ high := by
    intro u hu
    have hmem : u ∈ Icc a b := by
      rcases hu with rfl | rfl
      · exact left_mem_Icc.2 hab
      · exact right_mem_Icc.2 hab
    have hc := hcorner u c hu (Or.inl rfl)
    have hd := hcorner u d hu (Or.inr rfl)
    exact ⟨(hcol u hmem).le_of_endpoints hy hc.1 hd.1,
      (hcol u hmem).ge_of_endpoints hy hc.2 hd.2⟩
  have ha := hedge a (Or.inl rfl)
  have hb := hedge b (Or.inr rfl)
  exact ⟨(hrow y hy).le_of_endpoints hx ha.1 hb.1, (hrow y hy).ge_of_endpoints hx ha.2 hb.2⟩

end Corners

/-! ## The integer product -/

theorem oneWayOn_mul_left (c : Int) (s : Set Int) : OneWayOn (fun x => x * c) s := by
  cases le_total 0 c with
  | inl hc => exact Or.inl fun _ _ _ _ hxy => mul_le_mul_of_nonneg_right hxy hc
  | inr hc => exact Or.inr fun _ _ _ _ hxy => mul_le_mul_of_nonpos_right hxy hc

theorem oneWayOn_mul_right (c : Int) (s : Set Int) : OneWayOn (fun y => c * y) s := by
  cases le_total 0 c with
  | inl hc => exact Or.inl fun _ _ _ _ hxy => mul_le_mul_of_nonneg_left hxy hc
  | inr hc => exact Or.inr fun _ _ _ _ hxy => mul_le_mul_of_nonpos_left hxy hc

/-! ## The truncated quotient -/

theorem oneWayOn_tdiv_left {c : Int} (hc : c ≠ 0) (s : Set Int) :
    OneWayOn (fun x => x.tdiv c) s := by
  cases lt_or_gt_of_ne hc with
  | inl hneg =>
      refine Or.inr fun x _ y _ hxy => ?_
      have h := Int.tdiv_le_tdiv (c := -c) (by omega) hxy
      simp only [Int.tdiv_neg] at h
      exact neg_le_neg_iff.1 h
  | inr hpos => exact Or.inl fun _ _ _ _ hxy => Int.tdiv_le_tdiv hpos hxy

theorem tdiv_antitone_of_pos {x y z : Int} (hx : 0 ≤ x) (hy : 0 < y) (hyz : y ≤ z) :
    x.tdiv z ≤ x.tdiv y := by
  have hquot : 0 ≤ x.tdiv z := Int.tdiv_nonneg hx (by omega)
  refine Int.le_tdiv_of_mul_le hy ?_
  calc x.tdiv z * y ≤ x.tdiv z * z := mul_le_mul_of_nonneg_left hyz hquot
    _ = x - x.tmod z := by rw [Int.tmod_def, mul_comm]; omega
    _ ≤ x := by
      have := Int.tmod_nonneg z hx
      omega

/-- On divisors of one sign, truncated division is one-way in the divisor. -/
theorem oneWayOn_tdiv_right (x : Int) {c d : Int} (h : 0 < c ∨ d < 0) :
    OneWayOn (fun y => x.tdiv y) (Icc c d) := by
  have hanti : ∀ w : Int, 0 ≤ w → AntitoneOn (fun y => w.tdiv y) (Icc c d) := by
    intro w hw y hy z hz hyz
    cases h with
    | inl hc => exact tdiv_antitone_of_pos hw (lt_of_lt_of_le hc hy.1) hyz
    | inr hd =>
        have hz' : z ≤ d := hz.2
        have hflip := tdiv_antitone_of_pos (y := -z) (z := -y) hw (by omega) (by omega)
        simp only [Int.tdiv_neg] at hflip
        exact neg_le_neg_iff.1 hflip
  cases le_total 0 x with
  | inl hx => exact Or.inr (hanti x hx)
  | inr hx =>
      refine Or.inl fun y hy z hz hyz => ?_
      have hflip := hanti (-x) (by omega) hy hz hyz
      simp only [Int.neg_tdiv] at hflip
      exact neg_le_neg_iff.1 hflip

end Moth.Lib
