import Mathlib.Algebra.Order.Floor.Ring
import Mathlib.Algebra.Order.Group.Abs
import Mathlib.Algebra.Field.Basic
import Mathlib.Algebra.Ring.Int.Parity
import Mathlib.Tactic.Linarith
import Mathlib.Tactic.Ring
import Mathlib.Tactic.NormNum
import Mathlib.Tactic.FieldSimp

/-!
# Rounding to the nearest integer, ties to even

`IsNearestEven q z` is the specification: `z` is at most one half away from
`q`, and even when it is exactly one half away. It determines `z`, so any
procedure whose answer satisfies it computes `roundHalfEven q`, and that is
how the lemmas below are meant to be used: show the two clauses of an answer
and conclude with `IsNearestEven.eq_roundHalfEven`.

The last section is the procedure that works on a truncated quotient and its
remainder. Truncation leaves a remainder with the sign of the numerator, so
the distance from the quotient is the quotient of the two magnitudes whatever
the signs are, and the direction of a correction is read off the signs.
-/

namespace Moth.Lib

variable {K : Type*} [Field K] [LinearOrder K]

/-- `z` is a nearest integer of `q`, and an even one when two are as near. -/
structure IsNearestEven (q : K) (z : ℤ) : Prop where
  near : |q - z| ≤ 1 / 2
  tie : |q - z| = 1 / 2 → Even z

namespace IsNearestEven

theorem of_lt {q : K} {z : ℤ} (h : |q - z| < 1 / 2) : IsNearestEven q z where
  near := le_of_lt h
  tie := fun heq => absurd heq (ne_of_lt h)

variable [IsStrictOrderedRing K]

theorem of_intCast (z : ℤ) : IsNearestEven (z : K) z :=
  .of_lt (by simp)

/-- Two nearest integers that differ are consecutive, both one half away, and
one of the two is odd. -/
theorem unique {q : K} {y z : ℤ} (hy : IsNearestEven q y) (hz : IsNearestEven q z) :
    y = z := by
  wlog hlt : y < z generalizing y z with hwlog
  · rcases lt_trichotomy y z with h | h | h
    · exact absurd h hlt
    · exact h
    · exact (hwlog hz hy h).symm
  have hya := abs_le.1 hy.near
  have hza := abs_le.1 hz.near
  have hstep : (y : K) + 1 ≤ z := by exact_mod_cast hlt
  have hqy : q - y = 1 / 2 := by linarith [hya.1, hya.2, hza.1, hza.2]
  have hqz : q - z = -(1 / 2) := by linarith [hya.1, hya.2, hza.1, hza.2]
  have hy_even : Even y := hy.tie (by rw [hqy]; norm_num)
  have hz_even : Even z := hz.tie (by rw [hqz, abs_neg]; norm_num)
  have hsucc : z = y + 1 := by
    have hcast : (z : K) = y + 1 := by linarith
    exact_mod_cast hcast
  rw [hsucc, Int.even_add_one] at hz_even
  exact absurd hy_even hz_even

end IsNearestEven

section Floor

variable [IsStrictOrderedRing K] [FloorRing K]

/-- Round half to even, read off the floor and the fractional part. -/
def roundHalfEven (q : K) : ℤ :=
  if Int.fract q < 1 / 2 then ⌊q⌋
  else if Int.fract q = 1 / 2 ∧ Even ⌊q⌋ then ⌊q⌋
  else ⌊q⌋ + 1

/-- Truncation toward zero. -/
def truncate (q : K) : ℤ := if 0 ≤ q then ⌊q⌋ else ⌈q⌉

theorem isNearestEven_roundHalfEven (q : K) : IsNearestEven q (roundHalfEven q) := by
  have hfloor : q - (⌊q⌋ : K) = Int.fract q := Int.self_sub_floor q
  have hnonneg := Int.fract_nonneg q
  have hlt := Int.fract_lt_one q
  unfold roundHalfEven
  split
  · next hsmall =>
      refine .of_lt ?_
      rw [hfloor, abs_of_nonneg hnonneg]
      exact hsmall
  · next hbig =>
      split
      · next htie =>
          refine ⟨?_, fun _ => htie.2⟩
          rw [hfloor, abs_of_nonneg hnonneg, htie.1]
      · next htie =>
          have hup : q - ((⌊q⌋ + 1 : ℤ) : K) = Int.fract q - 1 := by
            push_cast
            rw [← hfloor]
            ring
          have habs : |q - ((⌊q⌋ + 1 : ℤ) : K)| = 1 - Int.fract q := by
            rw [hup, abs_of_nonpos (by linarith)]
            ring
          refine ⟨?_, ?_⟩
          · rw [habs]
            linarith
          · intro heq
            rw [habs] at heq
            have hhalf : Int.fract q = 1 / 2 := by linarith
            rw [Int.even_add_one]
            exact fun heven => htie ⟨hhalf, heven⟩

theorem IsNearestEven.eq_roundHalfEven {q : K} {z : ℤ} (h : IsNearestEven q z) :
    z = roundHalfEven q :=
  h.unique (isNearestEven_roundHalfEven q)

@[simp] theorem roundHalfEven_intCast (z : ℤ) : roundHalfEven (z : K) = z :=
  (IsNearestEven.of_intCast z).eq_roundHalfEven.symm

theorem roundHalfEven_eq_zero {q : K} (h : |q| < 1 / 2) : roundHalfEven q = 0 :=
  (IsNearestEven.of_lt (by simpa using h)).eq_roundHalfEven.symm

end Floor

/-! ## Rounding from a truncated quotient -/

section Truncated

variable [IsStrictOrderedRing K] {n d : ℤ}

theorem div_sub_tdiv (hd : d ≠ 0) :
    ((n : K) / d) - (n.tdiv d : ℤ) = (n.tmod d : ℤ) / d := by
  have hdK : (d : K) ≠ 0 := by exact_mod_cast hd
  have hn : (n : K) = (n.tdiv d : ℤ) * d + (n.tmod d : ℤ) := by
    exact_mod_cast (Int.tdiv_mul_add_tmod n d).symm
  rw [eq_div_iff hdK, sub_mul, div_mul_cancel₀ _ hdK]
  linarith

theorem abs_div_sub_tdiv (hd : d ≠ 0) :
    |((n : K) / d) - (n.tdiv d : ℤ)| = ((n.tmod d).natAbs : K) / (d.natAbs : K) := by
  rw [div_sub_tdiv hd, abs_div, Nat.cast_natAbs, Nat.cast_natAbs, Int.cast_abs, Int.cast_abs]

/-! The remainder of a truncated division has the sign of the numerator, so its
quotient by the divisor is nonnegative exactly when the two signs agree. -/

theorem tmod_nonpos_of_nonpos (h : n ≤ 0) : n.tmod d ≤ 0 := by
  have hneg := Int.tmod_nonneg d (Int.neg_nonneg.2 h)
  rw [Int.neg_tmod] at hneg
  omega

theorem tmod_div_nonneg (hsign : n.sign = d.sign) : (0 : K) ≤ (n.tmod d : ℤ) / d := by
  rcases lt_trichotomy d 0 with hneg | rfl | hpos
  · have hn : n < 0 := by
      rwa [Int.sign_eq_neg_one_of_neg hneg, Int.sign_eq_neg_one_iff_neg] at hsign
    refine div_nonneg_of_nonpos ?_ (by exact_mod_cast hneg.le)
    exact_mod_cast tmod_nonpos_of_nonpos hn.le
  · simp
  · have hn : 0 < n := by
      rwa [Int.sign_eq_one_of_pos hpos, Int.sign_eq_one_iff_pos] at hsign
    refine div_nonneg ?_ (by exact_mod_cast hpos.le)
    exact_mod_cast Int.tmod_nonneg d hn.le

theorem tmod_div_nonpos (hsign : n.sign ≠ d.sign) : ((n.tmod d : ℤ) : K) / d ≤ 0 := by
  rcases lt_trichotomy d 0 with hneg | rfl | hpos
  · have hn : 0 ≤ n := by
      rw [Int.sign_eq_neg_one_of_neg hneg, Ne, Int.sign_eq_neg_one_iff_neg] at hsign
      exact not_lt.1 hsign
    refine div_nonpos_of_nonneg_of_nonpos ?_ (by exact_mod_cast hneg.le)
    exact_mod_cast Int.tmod_nonneg d hn
  · simp
  · have hn : n ≤ 0 := by
      rw [Int.sign_eq_one_of_pos hpos, Ne, Int.sign_eq_one_iff_pos] at hsign
      exact not_lt.1 hsign
    refine div_nonpos_of_nonpos_of_nonneg ?_ (by exact_mod_cast hpos.le)
    exact_mod_cast tmod_nonpos_of_nonpos hn

theorem abs_div_sub_tdiv_lt_one (hd : d ≠ 0) :
    |((n : K) / d) - (n.tdiv d : ℤ)| < 1 := by
  have hpos : (0 : K) < (d.natAbs : K) := by exact_mod_cast Int.natAbs_pos.2 hd
  rw [abs_div_sub_tdiv hd, div_lt_one hpos, Int.natAbs_tmod]
  exact_mod_cast Nat.mod_lt _ (Int.natAbs_pos.2 hd)

/-- The truncated quotient of two integers truncates the exact one. -/
theorem truncate_div [FloorRing K] (hd : d ≠ 0) : truncate ((n : K) / d) = n.tdiv d := by
  have hlt := abs_lt.1 (abs_div_sub_tdiv_lt_one (K := K) (n := n) hd)
  have hdist := div_sub_tdiv (K := K) (n := n) hd
  unfold truncate
  split
  · next hq =>
      have hrem : (0 : K) ≤ (n.tmod d : ℤ) / d := by
        rcases lt_trichotomy n 0 with hn | rfl | hn
        · rcases lt_or_gt_of_ne hd with hneg | hpos
          · exact tmod_div_nonneg (by
              rw [Int.sign_eq_neg_one_of_neg hn, Int.sign_eq_neg_one_of_neg hneg])
          · exact absurd hq (not_le.2 (div_neg_of_neg_of_pos
              (by exact_mod_cast hn) (by exact_mod_cast hpos)))
        · simp
        · rcases lt_or_gt_of_ne hd with hneg | hpos
          · exact absurd hq (not_le.2 (div_neg_of_pos_of_neg
              (by exact_mod_cast hn) (by exact_mod_cast hneg)))
          · exact tmod_div_nonneg (by
              rw [Int.sign_eq_one_of_pos hn, Int.sign_eq_one_of_pos hpos])
      rw [Int.floor_eq_iff]
      constructor <;> linarith
  · next hq =>
      have hrem : ((n.tmod d : ℤ) : K) / d ≤ 0 := by
        refine tmod_div_nonpos fun hsign => hq ?_
        rcases lt_or_gt_of_ne hd with hneg | hpos
        · rw [Int.sign_eq_neg_one_of_neg hneg, Int.sign_eq_neg_one_iff_neg] at hsign
          exact div_nonneg_of_nonpos (by exact_mod_cast hsign.le) (by exact_mod_cast hneg.le)
        · rw [Int.sign_eq_one_of_pos hpos, Int.sign_eq_one_iff_pos] at hsign
          exact div_nonneg (by exact_mod_cast hsign.le) (by exact_mod_cast hpos.le)
      rw [Int.ceil_eq_iff]
      constructor <;> linarith

theorem isNearestEven_tdiv_of_lt (hd : d ≠ 0) (h : 2 * (n.tmod d).natAbs < d.natAbs) :
    IsNearestEven ((n : K) / d) (n.tdiv d) := by
  have hpos : (0 : K) < (d.natAbs : K) := by exact_mod_cast Int.natAbs_pos.2 hd
  refine .of_lt ?_
  rw [abs_div_sub_tdiv hd, div_lt_iff₀ hpos]
  have hcast : (2 : K) * ((n.tmod d).natAbs : K) < (d.natAbs : K) := by exact_mod_cast h
  linarith

theorem isNearestEven_tdiv_of_eq (hd : d ≠ 0) (h : 2 * (n.tmod d).natAbs = d.natAbs)
    (heven : Even (n.tdiv d)) : IsNearestEven ((n : K) / d) (n.tdiv d) := by
  have hpos : (0 : K) < (d.natAbs : K) := by exact_mod_cast Int.natAbs_pos.2 hd
  refine ⟨?_, fun _ => heven⟩
  rw [abs_div_sub_tdiv hd, div_le_iff₀ hpos]
  have hcast : (2 : K) * ((n.tmod d).natAbs : K) = (d.natAbs : K) := by exact_mod_cast h
  linarith

/-- The correction away from zero, when the remainder is at least half the
divisor and the tie, if it is one, sits on an odd quotient. -/
theorem isNearestEven_correct (hd : d ≠ 0) (h : d.natAbs ≤ 2 * (n.tmod d).natAbs)
    (hodd : 2 * (n.tmod d).natAbs = d.natAbs → ¬ Even (n.tdiv d)) :
    IsNearestEven ((n : K) / d)
      (if n.sign = d.sign then n.tdiv d + 1 else n.tdiv d - 1) := by
  have hpos : (0 : K) < (d.natAbs : K) := by exact_mod_cast Int.natAbs_pos.2 hd
  obtain ⟨t, ht⟩ : ∃ t : K, t = ((n.tmod d).natAbs : K) / (d.natAbs : K) := ⟨_, rfl⟩
  have hhalf : 1 / 2 ≤ t := by
    rw [ht, le_div_iff₀ hpos]
    have hcast : (d.natAbs : K) ≤ 2 * ((n.tmod d).natAbs : K) := by exact_mod_cast h
    linarith
  have hone : t < 1 := by
    rw [ht, ← abs_div_sub_tdiv hd]
    exact abs_div_sub_tdiv_lt_one hd
  have hparity : 1 - t = 1 / 2 → ¬ Even (n.tdiv d) := by
    intro heq
    have hthalf : t = 1 / 2 := by linarith
    rw [ht, div_eq_iff (ne_of_gt hpos)] at hthalf
    have hcast : (2 : K) * ((n.tmod d).natAbs : K) = (d.natAbs : K) := by linarith
    exact hodd (by exact_mod_cast hcast)
  have hdist := abs_div_sub_tdiv (K := K) (n := n) hd
  rw [← ht] at hdist
  -- the signed distance from the quotient is `t` with the sign of the exact one
  split
  · next hsign =>
      rw [abs_of_nonneg (by rw [div_sub_tdiv hd]; exact tmod_div_nonneg hsign)] at hdist
      have hup : |((n : K) / d) - ((n.tdiv d + 1 : ℤ) : K)| = 1 - t := by
        push_cast
        rw [← sub_sub, hdist, abs_of_nonpos (by linarith)]
        ring
      refine ⟨by rw [hup]; linarith, fun heq => ?_⟩
      rw [hup] at heq
      exact Int.even_add_one.2 (hparity heq)
  · next hsign =>
      rw [abs_of_nonpos (by rw [div_sub_tdiv hd]; exact tmod_div_nonpos hsign)] at hdist
      have hdown : |((n : K) / d) - ((n.tdiv d - 1 : ℤ) : K)| = 1 - t := by
        have hsub : ((n : K) / d) - ((n.tdiv d - 1 : ℤ) : K) = 1 - t := by
          push_cast
          linarith
        rw [hsub, abs_of_nonneg (by linarith)]
      refine ⟨by rw [hdown]; linarith, fun heq => ?_⟩
      rw [hdown] at heq
      exact Int.even_sub_one.2 (hparity heq)

end Truncated

end Moth.Lib
