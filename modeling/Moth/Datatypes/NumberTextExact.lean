import Mathlib.Algebra.Order.Field.Power
import Mathlib.Tactic.Positivity
import Moth.Lexical.NormalizedFacts
import Moth.Datatypes.NumberArithmetic
import Moth.Datatypes.NumberText

/-!
# Decimal text is converted exactly

Reading. The value of a spelling at a scale is its coefficient times a power
of ten, `10^shift`, with `shift` the scale plus the exponent less the number
of fraction digits. A shift to the left appends zeros and is always exact. A
shift to the right is exact when it removes nothing but zeros, and the number
of zeros at the end of the coefficient says when. The code never looks at the
number: it compares the effective scale, which saturates on huge exponents,
and the point of `effectiveScale_le_iff` is that the saturated comparison still
decides integrality, because a string is shorter than half the address space.

Writing. The unsigned text of a value is a normalized spelling again, of the
digits padded to at least one more than the scale, with the zeros at the end
of the fraction dropped, so reading it back is an instance of the above.
-/

namespace Moth.Datatypes

open Moth.Lexical Moth.Lib

/-! ## The coefficient -/

theorem parseCoefficient_digits {digits : List Char} (h : IsDigits digits) :
    parseCoefficient digits = .ok (Nat.ofDigitChars 10 digits 0 : ℤ) := by
  rw [parseCoefficient, if_pos ⟨h.ne_nil, List.all_eq_true.2 h.isDigit⟩]

theorem expandDigits_eq (integerPart fractionalPart : List Char) (retained appended : ℕ) :
    expandDigits integerPart fractionalPart retained appended =
      (integerPart ++ fractionalPart).take retained ++ List.replicate appended '0' := by
  unfold expandDigits
  simp only
  rw [List.take_append, Nat.min_comm, ← List.take_eq_take_min]
  congr 2
  split
  · rfl
  · next hle =>
      rw [Nat.sub_eq_zero_of_le (not_lt.1 hle), List.take_zero]

variable {host : Host} {d : NormalizedDecimal} {scale : NumberScale}

/-- The decimal point's net move to the right at a scale. -/
def shift (d : NormalizedDecimal) (scale : NumberScale) : ℤ :=
  scale.get + d.exponentValue - d.fractionDigits.length

theorem value_scaled (d : NormalizedDecimal) (scale : NumberScale) :
    d.value * 10 ^ scale.get = d.coefficient * (10 : ℚ) ^ shift d scale := by
  have hsum : shift d scale = (d.exponentValue - d.fractionDigits.length) + (scale.get : ℤ) := by
    unfold shift
    ring
  rw [NormalizedDecimal.value, hsum, zpow_add₀ (by norm_num), zpow_natCast, mul_assoc]

/-- What the backward scan found at the end of a nonzero coefficient. -/
structure TrailingZeroes (d : NormalizedDecimal) (t : ℕ) : Prop where
  split : ∃ l c, c.isDigit = true ∧ c ≠ '0' ∧
    d.coefficientDigits = l ++ [c] ++ List.replicate t '0'

namespace TrailingZeroes

variable {t : ℕ}

theorem lt_length (h : TrailingZeroes d t) : t < d.coefficientDigits.length := by
  obtain ⟨l, c, -, -, hsplit⟩ := h.split
  have hlen := congrArg List.length hsplit
  simp only [List.length_append, List.length_cons, List.length_nil, List.length_replicate] at hlen
  omega

theorem pow_dvd_iff (h : TrailingZeroes d t) {k : ℕ} : 10 ^ k ∣ d.coefficient ↔ k ≤ t := by
  obtain ⟨l, c, hc, h0, hsplit⟩ := h.split
  rw [NormalizedDecimal.coefficient, hsplit]
  exact pow_ten_dvd_ofDigitChars_iff hc h0

theorem coefficient_ne_zero (h : TrailingZeroes d t) : d.coefficient ≠ 0 := by
  intro hzero
  have hdvd : 10 ^ (t + 1) ∣ d.coefficient := by rw [hzero]; exact dvd_zero _
  have hle := h.pow_dvd_iff.1 hdvd
  omega

theorem coefficient_eq_take (h : TrailingZeroes d t) {k : ℕ} (hk : k ≤ t) :
    d.coefficient =
      Nat.ofDigitChars 10 (d.coefficientDigits.take (d.coefficientDigits.length - k)) 0 *
        10 ^ k := by
  obtain ⟨l, c, -, -, hsplit⟩ := h.split
  obtain ⟨j, rfl⟩ := Nat.exists_eq_add_of_le' hk
  have hlong : d.coefficientDigits = (l ++ [c] ++ List.replicate j '0') ++ List.replicate k '0' := by
    rw [hsplit, List.append_assoc _ (List.replicate j '0'), List.replicate_append_replicate]
  have htake : d.coefficientDigits.take (d.coefficientDigits.length - k) =
      l ++ [c] ++ List.replicate j '0' := by
    rw [hlong]
    refine List.take_left' ?_
    simp only [List.length_append, List.length_replicate]
    omega
  rw [htake, ← ofDigitChars_append_zeros, ← hlong, NormalizedDecimal.coefficient]

/-- The value at the scale is an integer exactly when a shift to the right
removes only zeros. -/
theorem exists_int_iff (h : TrailingZeroes d t) :
    (∃ z : ℤ, d.value * 10 ^ scale.get = z) ↔ -shift d scale ≤ t := by
  rw [value_scaled]
  constructor
  · rintro ⟨z, hz⟩
    by_contra hlt
    obtain ⟨k, hk⟩ := Int.eq_ofNat_of_zero_le (show 0 ≤ -shift d scale by omega)
    have hshift : shift d scale = -(k : ℤ) := by omega
    rw [hshift, zpow_neg, zpow_natCast, ← div_eq_mul_inv,
      div_eq_iff (by positivity)] at hz
    have hdvd : (10 ^ k : ℤ) ∣ (d.coefficient : ℤ) := by
      refine ⟨z, ?_⟩
      rw [mul_comm]
      exact_mod_cast hz
    have hle := h.pow_dvd_iff.1 (by exact_mod_cast hdvd)
    omega
  · intro hle
    rcases le_or_gt 0 (shift d scale) with hpos | hneg
    · obtain ⟨k, hk⟩ := Int.eq_ofNat_of_zero_le hpos
      refine ⟨(d.coefficient * 10 ^ k : ℕ), ?_⟩
      rw [hk, zpow_natCast]
      push_cast
      ring
    · obtain ⟨k, hk⟩ := Int.eq_ofNat_of_zero_le (show 0 ≤ -shift d scale by omega)
      obtain ⟨m, hm⟩ := h.pow_dvd_iff.2 (show k ≤ t by omega)
      have hshift : shift d scale = -(k : ℤ) := by omega
      refine ⟨(m : ℕ), ?_⟩
      rw [hshift, zpow_neg, zpow_natCast, hm]
      push_cast
      field_simp

end TrailingZeroes

/-! ## The decision -/

theorem analyze_cases (host : Host) (d : NormalizedDecimal) :
    (d.coefficient = 0 ∧ (NormalizedDecimalFacts.analyze host d.text).coefficientIsZero = true) ∨
    ∃ t, TrailingZeroes d t ∧ NormalizedDecimalFacts.analyze host d.text =
      ⟨d.integer, d.fractionDigits, t, false,
        if d.exponentMagnitude ≤ host.usizeMax then some d.exponentMagnitude else none,
        d.exponentNegative⟩ := by
  rcases d.trailingZeroes_split with ⟨hzero, hscan⟩ | ⟨t, l, c, hscan, hc, h0, hsplit⟩
  · left
    refine ⟨hzero, ?_⟩
    rw [NormalizedDecimal.analyze_text, if_pos hscan]
  · right
    refine ⟨t, ⟨l, c, hc, h0, hsplit⟩, ?_⟩
    rw [NormalizedDecimal.analyze_text, hscan, if_neg (by simp)]

theorem coefficientDigits_length_le (hlen : d.text.length ≤ host.isizeMax) :
    d.coefficientDigits.length ≤ host.isizeMax := by
  refine le_trans ?_ hlen
  unfold NormalizedDecimal.coefficientDigits NormalizedDecimal.text
    NormalizedDecimal.fractionDigits
  cases d.fraction with
  | none => simp [fractionText]
  | some digits =>
      simp [fractionText]
      omega

theorem fractionDigits_length_le (d : NormalizedDecimal) :
    d.fractionDigits.length ≤ d.coefficientDigits.length := by
  simp [NormalizedDecimal.coefficientDigits]

/-- The saturated comparison decides whether the shift removes only zeros. -/
theorem effectiveScale_le_iff {t : ℕ} (h : TrailingZeroes d t)
    (hlen : d.text.length ≤ host.isizeMax) :
    (NormalizedDecimalFacts.effectiveScale host
      ⟨d.integer, d.fractionDigits, t, false,
        if d.exponentMagnitude ≤ host.usizeMax then some d.exponentMagnitude else none,
        d.exponentNegative⟩) ≤ scale.get ↔ -shift d scale ≤ t := by
  have hdigits := coefficientDigits_length_le hlen
  have hfrac := fractionDigits_length_le d
  have ht := h.lt_length
  have hhost := host.isizeMax_add_lt
  have hscale := scale.get_le_max
  have hmax : NumberScale.MAX = 256 := rfl
  have hmag : (if d.exponentMagnitude ≤ host.usizeMax then some d.exponentMagnitude
      else none).getD host.usizeMax = min d.exponentMagnitude host.usizeMax := by
    split
    · next hle => rw [Option.getD_some, Nat.min_eq_left hle]
    · next hlt => rw [Option.getD_none, Nat.min_eq_right (le_of_not_ge hlt)]
  simp only [NormalizedDecimalFacts.effectiveScale, hmag, Bool.false_eq_true, if_false]
  unfold shift NormalizedDecimal.exponentValue Host.saturatingAdd
  cases d.exponentNegative with
  | true =>
      simp only [if_true]
      omega
  | false =>
      simp only [Bool.false_eq_true, if_false]
      omega

/-- The digits of the shifted coefficient fit the host: they are spelled by the
integer digits as they stand, or a buffer for them can be reserved. -/
def FitsHost (host : Host) (d : NormalizedDecimal) (scale : NumberScale) : Prop :=
  d.coefficient = 0 ∨ (d.fractionDigits = [] ∧ scale.get + d.exponentValue = 0) ∨
    host.tryReserveExact (d.integer.length + scale.get + d.exponentValue).toNat = true

instance (host : Host) (d : NormalizedDecimal) (scale : NumberScale) :
    Decidable (FitsHost host d scale) := by
  unfold FitsHost
  infer_instance

theorem decimalShifts_eq {mag frac : ℕ} {neg : Bool}
    (hneg : neg = true → frac + mag ≤ host.usizeMax) :
    decimalShifts host scale.get mag frac neg =
      if neg = false ∧ host.usizeMax < scale.get + mag then .error .Capacity
      else .ok (scale.get + (if neg then 0 else mag), frac + (if neg then mag else 0)) := by
  unfold decimalShifts Host.checkedAdd orCapacity
  cases neg with
  | true =>
      simp only [if_true, hneg rfl, Bool.true_eq_false, false_and, if_false, ok_bind]
      rfl
  | false =>
      simp only [Bool.false_eq_true, if_false, true_and, ok_bind]
      by_cases hfit : scale.get + mag ≤ host.usizeMax
      · rw [if_pos hfit, if_neg (by omega)]
        rfl
      · rw [if_neg hfit, if_pos (by omega)]
        rfl

theorem expandCoefficient_eq {t appended removed : ℕ} (h : TrailingZeroes d t)
    (hdigits : d.coefficientDigits.length ≤ host.isizeMax) (hremoved : removed ≤ t) :
    expandCoefficient host d.integer d.fractionDigits t appended removed =
      if (d.fractionDigits = [] ∧ appended = 0 ∧ removed = 0) ∨
        host.tryReserveExact (d.coefficientDigits.length - removed + appended) = true then
        .ok (Nat.ofDigitChars 10
          (d.coefficientDigits.take (d.coefficientDigits.length - removed)) 0 * 10 ^ appended : ℕ)
      else .error .Capacity := by
  have hlength : d.integer.length + d.fractionDigits.length = d.coefficientDigits.length := by
    simp [NormalizedDecimal.coefficientDigits]
  have hhost := host.isizeMax_add_lt
  have ht := h.lt_length
  have hkeep : IsDigits (d.coefficientDigits.take (d.coefficientDigits.length - removed)) := by
    have hall := d.isDigits_coefficientDigits
    refine ⟨?_, fun c hc => hall.isDigit c (List.mem_of_mem_take hc)⟩
    intro hnil
    have := congrArg List.length hnil
    simp only [List.length_take, List.length_nil] at this
    omega
  unfold expandCoefficient Host.checkedAdd
  rw [hlength, if_pos (by omega)]
  simp only [orCapacity, ok_bind]
  rw [if_neg (by omega), if_pos (by omega)]
  simp only [ok_bind]
  by_cases hfit : d.coefficientDigits.length - removed + appended ≤ host.usizeMax
  · rw [if_pos hfit]
    simp only [ok_bind]
    by_cases hplain : d.fractionDigits = [] ∧ appended = 0 ∧ removed = 0
    · obtain ⟨hfrac, rfl, rfl⟩ := hplain
      have hint : d.coefficientDigits = d.integer := by
        simp [NormalizedDecimal.coefficientDigits, hfrac]
      rw [if_pos ⟨hfrac, rfl, rfl⟩, if_pos (.inl ⟨hfrac, rfl, rfl⟩),
        parseCoefficient_digits d.integer_ok, pow_zero, mul_one, Nat.sub_zero,
        List.take_length, hint]
    · rw [if_neg hplain]
      by_cases hres : host.tryReserveExact (d.coefficientDigits.length - removed + appended) = true
      · rw [if_pos hres, if_pos (.inr hres), expandDigits_eq, ← NormalizedDecimal.coefficientDigits,
          parseCoefficient_digits, ofDigitChars_append_zeros]
        refine isDigits_append hkeep fun c hc => ?_
        rw [(List.mem_replicate.1 hc).2]
        rfl
      · rw [if_neg hres, if_neg (by tauto)]
  · rw [if_neg hfit, if_neg]
    · rfl
    · rintro (⟨-, h0, -⟩ | hres)
      · omega
      · have hle := host.reserve_le _ hres
        have hisize : host.isizeMax = 2 ^ (host.pointerBits - 1) - 1 := rfl
        omega

theorem value_scaled_eq_expanded {t p q : ℕ} (h : TrailingZeroes d t)
    (hshift : shift d scale = (p : ℤ) - q) (hle : q - p ≤ t) :
    d.value * 10 ^ scale.get =
      ((Nat.ofDigitChars 10
        (d.coefficientDigits.take (d.coefficientDigits.length - (q - p))) 0 *
          10 ^ (p - q) : ℕ) : ℚ) := by
  rw [value_scaled, hshift, h.coefficient_eq_take hle]
  push_cast
  rcases le_or_gt q p with hqp | hpq
  · rw [Nat.sub_eq_zero_of_le hqp, pow_zero, mul_one, ← zpow_natCast, Nat.cast_sub hqp]
  · have hexp : (p : ℤ) - q = -((q - p : ℕ) : ℤ) := by
      rw [Nat.cast_sub hpq.le]
      ring
    rw [Nat.sub_eq_zero_of_le hpq.le, pow_zero, mul_one, hexp, zpow_neg, zpow_natCast, mul_assoc,
      mul_inv_cancel₀ (by positivity), mul_one]

/-- The value of a spelling with its sign. -/
def signedValue (sign : NumericLiteralSign) (d : NormalizedDecimal) : ℚ :=
  match sign with
  | .Positive => d.value
  | .Negative => -d.value

theorem fromNormalized_inexact {t : ℕ} {sign : NumericLiteralSign} (h : TrailingZeroes d t)
    (hlen : d.text.length ≤ host.isizeMax)
    (hfacts : NormalizedDecimalFacts.analyze host d.text =
      ⟨d.integer, d.fractionDigits, t, false,
        if d.exponentMagnitude ≤ host.usizeMax then some d.exponentMagnitude else none,
        d.exponentNegative⟩) (hlt : ¬ -shift d scale ≤ t) :
    NumberValue.fromNormalized host d.text sign scale = .error .InexactScale := by
  unfold NumberValue.fromNormalized
  simp only [hfacts, Bool.false_eq_true, if_false]
  rw [if_pos (not_le.1 (mt (effectiveScale_le_iff h hlen).1 hlt))]

/-- A shift that removes only zeros gives the value at the scale, if it fits. -/
theorem fromNormalized_exact {t : ℕ} (sign : NumericLiteralSign) (h : TrailingZeroes d t)
    (hlen : d.text.length ≤ host.isizeMax)
    (hfacts : NormalizedDecimalFacts.analyze host d.text =
      ⟨d.integer, d.fractionDigits, t, false,
        if d.exponentMagnitude ≤ host.usizeMax then some d.exponentMagnitude else none,
        d.exponentNegative⟩) (hle : -shift d scale ≤ t) :
    ∃ z : ℤ, signedValue sign d * 10 ^ scale.get = z ∧
      (FitsHost host d scale →
        NumberValue.fromNormalized host d.text sign scale = .ok ⟨z, scale⟩) ∧
      (¬ FitsHost host d scale →
        NumberValue.fromNormalized host d.text sign scale = .error .Capacity) := by
  have hdigits := coefficientDigits_length_le hlen
  have hfrac := fractionDigits_length_le d
  have ht := h.lt_length
  have hhost := host.isizeMax_add_lt
  have hscale := scale.get_le_max
  have hmax : NumberScale.MAX = 256 := rfl
  have hlength : d.integer.length + d.fractionDigits.length = d.coefficientDigits.length := by
    simp [NormalizedDecimal.coefficientDigits]
  have hvalue : d.exponentValue =
      if d.exponentNegative then -(d.exponentMagnitude : ℤ) else d.exponentMagnitude := rfl
  -- the two shifts, the exponent on whichever side its sign puts it
  obtain ⟨p, hp⟩ : ∃ p, p = scale.get + (if d.exponentNegative then 0 else d.exponentMagnitude) :=
    ⟨_, rfl⟩
  obtain ⟨q, hq⟩ : ∃ q,
      q = d.fractionDigits.length + (if d.exponentNegative then d.exponentMagnitude else 0) :=
    ⟨_, rfl⟩
  have hshift : shift d scale = (p : ℤ) - q := by
    unfold shift
    rw [hvalue, hp, hq]
    cases d.exponentNegative with
    | true =>
        simp
        omega
    | false => simp
  have hremoved : q - p ≤ t := by omega
  obtain ⟨m, hm⟩ : ∃ m, m = Nat.ofDigitChars 10
      (d.coefficientDigits.take (d.coefficientDigits.length - (q - p))) 0 * 10 ^ (p - q) := ⟨_, rfl⟩
  have hscaled : d.value * 10 ^ scale.get = ((m : ℤ) : ℚ) := by
    rw [value_scaled_eq_expanded h hshift hremoved, hm, Int.cast_natCast]
  have hcount : d.coefficientDigits.length - (q - p) + (p - q) =
      (d.integer.length + scale.get + d.exponentValue).toNat := by
    unfold shift at hshift
    omega
  have hfits : FitsHost host d scale ↔
      (d.fractionDigits = [] ∧ p - q = 0 ∧ q - p = 0) ∨
        host.tryReserveExact (d.coefficientDigits.length - (q - p) + (p - q)) = true := by
    rw [hcount]
    unfold FitsHost
    rw [or_iff_right h.coefficient_ne_zero]
    refine or_congr (and_congr_right fun hnil => ?_) Iff.rfl
    unfold shift at hshift
    rw [hnil, List.length_nil] at hshift
    omega
  have hbody : NumberValue.fromNormalized host d.text sign scale =
      if FitsHost host d scale then
        .ok ⟨applySign sign m, scale⟩
      else .error .Capacity := by
    unfold NumberValue.fromNormalized
    simp only [hfacts, Bool.false_eq_true, if_false]
    rw [if_neg (not_lt.2 ((effectiveScale_le_iff h hlen).2 hle))]
    by_cases hmag : d.exponentMagnitude ≤ host.usizeMax
    · rw [if_pos hmag]
      simp only [orCapacity, ok_bind]
      rw [decimalShifts_eq]
      · by_cases hover : d.exponentNegative = false ∧
            host.usizeMax < scale.get + d.exponentMagnitude
        · rw [if_pos hover, error_bind, if_neg]
          rw [hfits]
          rintro (⟨-, hpq, -⟩ | hres)
          · simp only [hover.1, Bool.false_eq_true, if_false] at hp hq
            omega
          · have hbound := host.reserve_le _ hres
            have hisize : host.isizeMax = 2 ^ (host.pointerBits - 1) - 1 := rfl
            simp only [hover.1, Bool.false_eq_true, if_false] at hp hq
            omega
        · rw [if_neg hover, ok_bind]
          simp only
          rw [← hp, ← hq, expandCoefficient_eq h hdigits hremoved, ← hm]
          by_cases hfit : FitsHost host d scale
          · rw [if_pos hfit, if_pos (hfits.1 hfit), ok_bind]
          · rw [if_neg hfit, if_neg (mt hfits.2 hfit), error_bind]
      · intro hneg
        simp only [hneg, if_true] at hp hq
        omega
    · rw [if_neg hmag]
      simp only [orCapacity, error_bind]
      rw [if_neg]
      rw [hfits]
      cases hneg : d.exponentNegative with
      | true =>
          simp only [hneg, if_true] at hp hq
          omega
      | false =>
          simp only [hneg, Bool.false_eq_true, if_false] at hp hq
          rintro (⟨-, hpq, -⟩ | hres)
          · omega
          · have hbound := host.reserve_le _ hres
            have hisize : host.isizeMax = 2 ^ (host.pointerBits - 1) - 1 := rfl
            omega
  refine ⟨applySign sign m, ?_, fun hfit => ?_, fun hfit => ?_⟩
  · cases sign with
    | Positive => exact hscaled
    | Negative =>
        simp only [signedValue, applySign, neg_mul, hscaled]
        push_cast
        rfl
  · rw [hbody, if_pos hfit]
  · rw [hbody, if_neg hfit]

/-- Reading a normalized spelling: the value at the scale when it is an integer
and fits the host, the capacity failure when it does not fit, and the inexact
failure when it is no integer. -/
theorem fromNormalized_spec (sign : NumericLiteralSign) (scale : NumberScale)
    (hlen : d.text.length ≤ host.isizeMax) :
    (∀ z : ℤ, signedValue sign d * 10 ^ scale.get = z → FitsHost host d scale →
      NumberValue.fromNormalized host d.text sign scale = .ok ⟨z, scale⟩) ∧
    (∀ z : ℤ, signedValue sign d * 10 ^ scale.get = z → ¬ FitsHost host d scale →
      NumberValue.fromNormalized host d.text sign scale = .error .Capacity) ∧
    ((¬ ∃ z : ℤ, signedValue sign d * 10 ^ scale.get = z) →
      NumberValue.fromNormalized host d.text sign scale = .error .InexactScale) := by
  have hsigned : (∃ z : ℤ, signedValue sign d * 10 ^ scale.get = z) ↔
      ∃ z : ℤ, d.value * 10 ^ scale.get = z := by
    cases sign with
    | Positive => rfl
    | Negative =>
        simp only [signedValue, neg_mul]
        constructor
        · rintro ⟨z, hz⟩
          exact ⟨-z, by push_cast; linarith⟩
        · rintro ⟨z, hz⟩
          exact ⟨-z, by push_cast; linarith⟩
  rcases analyze_cases host d with ⟨hzero, hfacts⟩ | ⟨t, h, hfacts⟩
  · have hvalue : d.value = 0 := by simp [NormalizedDecimal.value, hzero]
    have hsv : signedValue sign d = 0 := by cases sign <;> simp [signedValue, hvalue]
    have hread : NumberValue.fromNormalized host d.text sign scale = .ok ⟨0, scale⟩ := by
      unfold NumberValue.fromNormalized
      simp only [hfacts, if_true]
    rw [hsv, zero_mul]
    refine ⟨fun z hz _ => ?_, fun z _ hfit => absurd (Or.inl hzero) hfit, fun hno => ?_⟩
    · have hz0 : z = 0 := by exact_mod_cast hz.symm
      rw [hread, hz0]
    · exact absurd ⟨0, by simp⟩ hno
  · by_cases hle : -shift d scale ≤ t
    · obtain ⟨z, hz, hok, herr⟩ := fromNormalized_exact sign h hlen hfacts hle
      have huniq : ∀ z' : ℤ, signedValue sign d * 10 ^ scale.get = z' → z' = z := by
        intro z' hz'
        rw [hz] at hz'
        exact_mod_cast hz'.symm
      refine ⟨fun z' hz' hfit => ?_, fun _ _ hfit => herr hfit, fun hno => absurd ⟨z, hz⟩ hno⟩
      rw [huniq z' hz', hok hfit]
    · have hno : ¬ ∃ z : ℤ, signedValue sign d * 10 ^ scale.get = z := by
        rw [hsigned, h.exists_int_iff]
        exact hle
      exact ⟨fun z hz _ => absurd ⟨z, hz⟩ hno, fun z hz _ => absurd ⟨z, hz⟩ hno,
        fun _ => fromNormalized_inexact h hlen hfacts hle⟩

/-! ## Rescaling -/

namespace NumberValue

/-- Rescaling answers the value at the target scale when it is an integer there
and the inexact failure when it is not. -/
theorem rescale_spec (v : NumberValue) (target : NumberScale) :
    (∀ z : ℤ, v.toRat * 10 ^ target.get = z → v.rescale target = .ok ⟨z, target⟩) ∧
    ((¬ ∃ z : ℤ, v.toRat * 10 ^ target.get = z) →
      v.rescale target = .error .InexactScale) := by
  unfold rescale
  split
  · next hsame =>
      have hself : v.toRat * 10 ^ target.get = (v.coefficient : ℤ) := by
        rw [hsame, coefficient_cast]
      refine ⟨fun z hz => ?_, fun hno => absurd ⟨_, hself⟩ hno⟩
      rw [hself] at hz
      have hc : v.coefficient = z := by exact_mod_cast hz
      cases v
      simp only at hsame hc
      rw [hsame, hc]
  · split
    · next hzero =>
        have hself : v.toRat * 10 ^ target.get = ((0 : ℤ) : ℚ) := by
          rw [toRat_eq_zero_iff.2 hzero, zero_mul, Int.cast_zero]
        refine ⟨fun z hz => ?_, fun hno => absurd ⟨_, hself⟩ hno⟩
        rw [hself] at hz
        have hz0 : z = 0 := by exact_mod_cast hz.symm
        rw [hzero, hz0]
    · split
      · next hgt =>
          have hwide : v.toRat * 10 ^ target.get =
              ((v.coefficient * 10 ^ (target.get - v.scale.get) : ℤ) : ℚ) := by
            rw [← Nat.sub_add_cancel hgt.le, pow_add, Nat.add_sub_cancel, Int.cast_mul,
              coefficient_cast]
            push_cast
            ring
          refine ⟨fun z hz => ?_, fun hno => absurd ⟨_, hwide⟩ hno⟩
          rw [hwide] at hz
          have hc : v.coefficient * 10 ^ (target.get - v.scale.get) = z := by exact_mod_cast hz
          rw [hc]
      · next hle =>
          obtain ⟨k, hk⟩ := Nat.exists_eq_add_of_le (not_lt.1 hle)
          have hnarrow : v.toRat * 10 ^ target.get * 10 ^ k = v.coefficient := by
            rw [coefficient_cast, hk, pow_add]
            ring
          rw [hk, Nat.add_sub_cancel_left]
          have hsplit := Int.tdiv_mul_add_tmod v.coefficient (10 ^ k)
          have hpow : (10 : ℤ) ^ k ≠ 0 := by positivity
          simp only
          constructor
          · intro z hz
            rw [hz] at hnarrow
            have hc : z * 10 ^ k = v.coefficient := by exact_mod_cast hnarrow
            rw [← hc, Int.mul_tmod_left, Int.mul_tdiv_cancel _ hpow]
            simp
          · intro hno
            rw [if_pos]
            intro hrem
            rw [hrem, add_zero] at hsplit
            refine hno ⟨v.coefficient.tdiv (10 ^ k), ?_⟩
            have hcast : ((v.coefficient.tdiv (10 ^ k) : ℤ) : ℚ) * 10 ^ k = v.coefficient := by
              exact_mod_cast hsplit
            rw [← hcast] at hnarrow
            exact mul_right_cancel₀ (by positivity) hnarrow

theorem rescale_widen_narrow {v : NumberValue} {target : NumberScale}
    (h : v.scale.get ≤ target.get) :
    ∃ w, v.rescale target = .ok w ∧ w.toRat = v.toRat ∧ w.rescale v.scale = .ok v := by
  have hwide : v.toRat * 10 ^ target.get =
      ((v.coefficient * 10 ^ (target.get - v.scale.get) : ℤ) : ℚ) := by
    rw [← Nat.sub_add_cancel h, pow_add, Nat.add_sub_cancel, Int.cast_mul, coefficient_cast]
    push_cast
    ring
  have hsame : (NumberValue.mk (v.coefficient * 10 ^ (target.get - v.scale.get)) target).toRat =
      v.toRat := by
    rw [toRat_mk, ← hwide]
    field_simp
  refine ⟨⟨_, target⟩, (v.rescale_spec target).1 _ hwide, hsame, ?_⟩
  refine (rescale_spec _ v.scale).1 v.coefficient ?_
  rw [hsame, coefficient_cast]

end NumberValue

/-! ## Writing and reading back -/

/-- The loop stops somewhere in the fraction and passes only zeros. -/
theorem fractionalEnd_spec {digits : List Char} {k n : ℕ} (hk : k ≤ n) (hn : n ≤ digits.length) :
    k ≤ NumberValue.fractionalEnd digits k n ∧ NumberValue.fractionalEnd digits k n ≤ n ∧
      digits.take n = digits.take (NumberValue.fractionalEnd digits k n) ++
        List.replicate (n - NumberValue.fractionalEnd digits k n) '0' := by
  induction n with
  | zero => simp [NumberValue.fractionalEnd, hk]
  | succ n ih =>
      rw [NumberValue.fractionalEnd]
      split
      · next h =>
          obtain ⟨hlo, hhi, hsplit⟩ := ih (by omega) (by omega)
          refine ⟨hlo, by omega, ?_⟩
          rw [List.take_add_one, h.2, hsplit, Nat.succ_sub hhi, List.replicate_succ',
            Option.toList_some, List.append_assoc]
      · exact ⟨hk, le_refl _, by simp⟩

/-- The unsigned text of a nonzero magnitude is a normalized spelling of it. -/
theorem displayUnsigned_spelling {digits : List Char} (hd : IsDigits digits)
    (hne : Nat.ofDigitChars 10 digits 0 ≠ 0) (scale : NumberScale) :
    ∃ d : NormalizedDecimal, d.text = NumberValue.displayUnsigned digits scale.get ∧
      d.value * 10 ^ scale.get = Nat.ofDigitChars 10 digits 0 ∧
      d.exponentValue = 0 ∧ d.integer.length + scale.get = max digits.length (scale.get + 1) := by
  obtain ⟨k, hk⟩ : ∃ k, k = digits.length - scale.get := ⟨_, rfl⟩
  obtain ⟨e, he⟩ : ∃ e, e = NumberValue.fractionalEnd digits k digits.length := ⟨_, rfl⟩
  have hklen : k ≤ digits.length := by omega
  obtain ⟨hlo, hhi, hsplit⟩ := fractionalEnd_spec hklen (le_refl digits.length)
  rw [← he] at hlo hhi hsplit
  rw [List.take_length] at hsplit
  have hlen : 0 < digits.length := List.length_pos_iff.2 hd.ne_nil
  have hnumber : Nat.ofDigitChars 10 digits 0 =
      Nat.ofDigitChars 10 (digits.take e) 0 * 10 ^ (digits.length - e) := by
    rw [← ofDigitChars_append_zeros, ← hsplit]
  have hetop : 0 < e := by
    rcases Nat.eq_zero_or_pos e with h0 | hpos
    · rw [h0, List.take_zero, Nat.ofDigitChars_nil, zero_mul] at hnumber
      exact absurd hnumber hne
    · exact hpos
  have htake : IsDigits (digits.take e) := by
    refine ⟨?_, fun c hc => hd.isDigit c (List.mem_of_mem_take hc)⟩
    intro hnil
    have := congrArg List.length hnil
    simp only [List.length_take, List.length_nil] at this
    omega
  -- the integer digits, `0` when the scale takes them all
  obtain ⟨i, hi⟩ : ∃ i, i = if k = 0 then ['0'] else digits.take k := ⟨_, rfl⟩
  have hiok : IsDigits i := by
    rw [hi]
    split
    · exact ⟨by simp, by simp⟩
    · next hk0 =>
        refine ⟨?_, fun c hc => hd.isDigit c (List.mem_of_mem_take hc)⟩
        intro hnil
        have := congrArg List.length hnil
        simp only [List.length_take, List.length_nil] at this
        omega
  have hilen : i.length + scale.get = max digits.length (scale.get + 1) := by
    rw [hi]
    split
    · simp only [List.length_cons, List.length_nil]
      omega
    · rw [List.length_take]
      omega
  obtain ⟨f, hf⟩ : ∃ f, f = List.replicate (scale.get - digits.length) '0' ++
      (digits.take e).drop k := ⟨_, rfl⟩
  have hflen : f.length + (digits.length - e) = scale.get := by
    rw [hf, List.length_append, List.length_replicate, List.length_drop, List.length_take]
    omega
  have hfdigit : ∀ c ∈ f, c.isDigit = true := by
    intro c hc
    rw [hf] at hc
    rcases List.mem_append.1 hc with h | h
    · rw [(List.mem_replicate.1 h).2]
      rfl
    · exact htake.isDigit c (List.mem_of_mem_drop h)
  have hjoin : Nat.ofDigitChars 10 (i ++ f) 0 = Nat.ofDigitChars 10 (digits.take e) 0 := by
    rw [hi, hf]
    split
    · next hk0 =>
        rw [hk0, List.drop_zero, ← List.append_assoc]
        exact ofDigitChars_zeros_append (digits.take e) (1 + (scale.get - digits.length))
          |>.symm ▸ by rw [List.replicate_add]; rfl
    · next hk0 =>
        rw [Nat.sub_eq_zero_of_le (by omega), List.replicate_zero, List.nil_append]
        have hpre : digits.take k = (digits.take e).take k := by
          rw [List.take_take, Nat.min_eq_left hlo]
        rw [hpre, List.take_append_drop]
  have hvalue : ∀ d : NormalizedDecimal, d.coefficientDigits = i ++ f → d.exponentValue = 0 →
      d.fractionDigits.length = f.length →
      d.value * 10 ^ scale.get = Nat.ofDigitChars 10 digits 0 := by
    intro d hdigits hexp hfl
    rw [value_scaled, NormalizedDecimal.coefficient, hdigits, hjoin, hnumber, shift, hexp, hfl]
    have hshift : (scale.get : ℤ) + 0 - f.length = ((digits.length - e : ℕ) : ℤ) := by omega
    rw [hshift, zpow_natCast]
    push_cast
    rfl
  unfold NumberValue.displayUnsigned
  simp only [← hk, ← he, ← hi, ← hf]
  by_cases hek : e > k
  · have hfne : f ≠ [] := by
      intro hnil
      rw [hnil, List.length_nil] at hflen
      omega
    refine ⟨⟨i, some f, none, hiok, ?_, by simp⟩, ?_, ?_, rfl, hilen⟩
    · intro digits' h'
      cases h'
      exact ⟨hfne, hfdigit⟩
    · rw [if_pos hek]
      simp [NormalizedDecimal.text, fractionText, exponentText]
    · exact hvalue _ rfl rfl rfl
  · have hfnil : f = [] := by
      refine List.length_eq_zero_iff.1 ?_
      omega
    refine ⟨⟨i, none, none, hiok, by simp, by simp⟩, ?_, ?_, rfl, hilen⟩
    · rw [if_neg hek]
      simp [NormalizedDecimal.text, fractionText, exponentText]
    · refine hvalue _ ?_ rfl ?_
      · rw [hfnil]
        rfl
      · rw [hfnil]
        rfl

/-- ASCII text has as many bytes as characters. -/
theorem byteLength_text (d : NormalizedDecimal) : byteLength d.text = d.text.length := by
  have hascii : ∀ c ∈ d.text, c.utf8Size = 1 := by
    intro c hc
    simp only [NormalizedDecimal.text, List.mem_append] at hc
    rcases hc with (hc | hc) | hc
    · exact utf8Size_of_isDigit (d.integer_ok.isDigit c hc)
    · cases hf : d.fraction with
      | none => simp [fractionText, hf] at hc
      | some digits =>
          rw [hf, fractionText, List.mem_cons] at hc
          rcases hc with rfl | hc
          · rfl
          · exact utf8Size_of_isDigit ((d.fraction_ok digits hf).isDigit c hc)
    · cases hexp : d.exponent with
      | none => simp [exponentText, hexp] at hc
      | some parts =>
          obtain ⟨sign, digits⟩ := parts
          rw [hexp, exponentText, List.mem_cons, List.mem_append] at hc
          rcases hc with rfl | hc | hc
          · rfl
          · cases sign with
            | None => simp [exponentSignText] at hc
            | Positive =>
                simp only [exponentSignText, List.mem_singleton] at hc
                rw [hc]
                rfl
            | Negative =>
                simp only [exponentSignText, List.mem_singleton] at hc
                rw [hc]
                rfl
          · exact utf8Size_of_isDigit ((d.exponent_ok sign digits hexp).isDigit c hc)
  unfold byteLength
  rw [List.map_congr_left hascii, List.map_const', List.sum_replicate_nat, mul_one]

namespace NumberValue

/-- The text of the magnitude, without a sign. -/
def unsignedText (v : NumberValue) : List Char :=
  (NumberValue.mk v.coefficient.natAbs v.scale).display

/-- The digits a value's text expands to fit the host. -/
def DisplayFits (host : Host) (v : NumberValue) : Prop :=
  v.coefficient = 0 ∨ v.scale = .ZERO ∨
    host.tryReserveExact
      (max (Nat.toDigits 10 v.coefficient.natAbs).length (v.scale.get + 1)) = true

instance (host : Host) (v : NumberValue) : Decidable (DisplayFits host v) := by
  unfold DisplayFits
  infer_instance

theorem unsignedText_eq (v : NumberValue) :
    v.unsignedText =
      if v.scale.get = 0 then Nat.toDigits 10 v.coefficient.natAbs
      else if v.coefficient = 0 then ['0']
      else displayUnsigned (Nat.toDigits 10 v.coefficient.natAbs) v.scale.get := by
  have hnonneg : ¬ ((v.coefficient.natAbs : ℤ) < 0) := by omega
  have hzero : ((v.coefficient.natAbs : ℤ) = 0) ↔ v.coefficient = 0 := by omega
  unfold unsignedText display
  simp only [Int.natAbs_natCast, if_neg hnonneg, List.nil_append, hzero]

theorem display_eq (v : NumberValue) :
    v.display = (if v.coefficient < 0 then ['-'] else []) ++ v.unsignedText := by
  rw [unsignedText_eq, display]
  by_cases hscale : v.scale.get = 0
  · simp only [if_pos hscale]
  · by_cases hzero : v.coefficient = 0
    · simp [hscale, hzero]
    · simp only [if_neg hscale, if_neg hzero]

/-- The unsigned text is a normalized spelling of the magnitude. -/
theorem unsignedText_spelling (v : NumberValue) :
    ∃ d : NormalizedDecimal, d.text = v.unsignedText ∧
      d.value * 10 ^ v.scale.get = v.coefficient.natAbs ∧
      ∀ host, (FitsHost host d v.scale ↔ DisplayFits host v) := by
  have hdigits := isDigits_toDigits v.coefficient.natAbs
  by_cases hscale : v.scale.get = 0
  · refine ⟨.mk (Nat.toDigits 10 v.coefficient.natAbs) none none hdigits (by simp) (by simp),
      ?_, ?_, ?_⟩
    · rw [unsignedText_eq, if_pos hscale]
      simp [NormalizedDecimal.text, fractionText, exponentText]
    · rw [value_scaled]
      simp [shift, NormalizedDecimal.exponentValue, NormalizedDecimal.exponentNegative,
        NormalizedDecimal.exponentMagnitude, NormalizedDecimal.fractionDigits, hscale,
        NormalizedDecimal.coefficient, NormalizedDecimal.coefficientDigits]
    · intro host
      constructor
      · intro _
        exact .inr (.inl (NumberScale.eq_zero_iff.2 hscale))
      · intro _
        refine .inr (.inl ⟨rfl, ?_⟩)
        simp [NormalizedDecimal.exponentValue, NormalizedDecimal.exponentNegative,
          NormalizedDecimal.exponentMagnitude, hscale]
  · by_cases hzero : v.coefficient = 0
    · refine ⟨.mk ['0'] none none ⟨by simp, by simp⟩ (by simp) (by simp), ?_, ?_, ?_⟩
      · rw [unsignedText_eq, if_neg hscale, if_pos hzero]
        rfl
      · rw [value_scaled]
        simp [hzero, NormalizedDecimal.coefficient, NormalizedDecimal.coefficientDigits,
          NormalizedDecimal.fractionDigits, Nat.ofDigitChars_cons]
      · exact fun host => ⟨fun _ => .inl hzero, fun _ => .inl (by decide)⟩
    · have hnumber : Nat.ofDigitChars 10 (Nat.toDigits 10 v.coefficient.natAbs) 0 ≠ 0 := by
        rw [Nat.ofDigitChars_ten_toDigits]
        omega
      obtain ⟨d, htext, hvalue, hexp, hlen⟩ :=
        displayUnsigned_spelling hdigits hnumber v.scale
      rw [Nat.ofDigitChars_ten_toDigits] at hvalue
      refine ⟨d, ?_, hvalue, ?_⟩
      · rw [unsignedText_eq, if_neg hscale, if_neg hzero, htext]
      · intro host
        have hcoef : d.coefficient ≠ 0 := by
          intro h0
          rw [value_scaled, h0, Nat.cast_zero, zero_mul] at hvalue
          have habs : (v.coefficient.natAbs : ℚ) ≠ 0 := by
            exact_mod_cast Int.natAbs_ne_zero.2 hzero
          exact habs hvalue.symm
        have hcount : ((d.integer.length : ℤ) + v.scale.get + d.exponentValue).toNat =
            max (Nat.toDigits 10 v.coefficient.natAbs).length (v.scale.get + 1) := by
          rw [hexp]
          omega
        unfold FitsHost DisplayFits
        rw [or_iff_right hcoef, or_iff_right hzero, hcount, hexp]
        refine or_congr ⟨fun h => ?_, fun h => ?_⟩ Iff.rfl
        · exact absurd h.2 (by omega)
        · exact absurd (NumberScale.eq_zero_iff.1 h) hscale

/-- Reading a value's text back at its scale: the value, unless the text is
too long for the parser or its digits do not fit the host. -/
theorem parse_display (host : Host) (v : NumberValue)
    (hlen : v.unsignedText.length ≤ host.isizeMax) :
    parseNumericTextToNumber host v.display v.scale =
      if v.unsignedText.length ≤ numericInputMax ∧ DisplayFits host v then .ok v
      else .error .ParseOverflow := by
  obtain ⟨d, htext, hvalue, hfits⟩ := v.unsignedText_spelling
  rw [← htext] at hlen ⊢
  obtain ⟨sign, hsign, hsigned⟩ : ∃ sign, splitSign v.display = .ok (sign, d.text) ∧
      signedValue sign d * 10 ^ v.scale.get = v.coefficient := by
    rw [v.display_eq, ← htext]
    obtain ⟨c, tail, hhead⟩ : ∃ c tail, d.text = c :: tail ∧ c.isDigit = true := by
      have hne := d.integer_ok.ne_nil
      cases hint : d.integer with
      | nil => exact absurd hint hne
      | cons c tail =>
          refine ⟨c, tail ++ fractionText d.fraction ++ exponentText d.exponent, ?_, ?_⟩
          · simp [NormalizedDecimal.text, hint]
          · exact d.integer_ok.isDigit c (by simp [hint])
    by_cases hneg : v.coefficient < 0
    · refine ⟨.Negative, ?_, ?_⟩
      · rw [if_pos hneg, List.singleton_append, splitSign, if_neg]
        rw [hhead.1]
        simp
      · have hint : (v.coefficient.natAbs : ℤ) = -v.coefficient := by omega
        rw [signedValue, neg_mul, hvalue, ← Int.cast_natCast, hint, Int.cast_neg, neg_neg]
    · refine ⟨.Positive, ?_, ?_⟩
      · have hminus : c ≠ '-' := ne_of_isDigit hhead.2 rfl
        have hplus : c ≠ '+' := ne_of_isDigit hhead.2 rfl
        rw [if_neg hneg, List.nil_append, hhead.1]
        simp [splitSign, hminus, hplus]
      · have hint : (v.coefficient.natAbs : ℤ) = v.coefficient := by omega
        rw [signedValue, hvalue, ← Int.cast_natCast, hint]
  unfold parseNumericTextToNumber
  rw [hsign, ok_bind]
  simp only
  by_cases hshort : d.text.length ≤ numericInputMax
  · have hparsed := parseNumericLiteral_text d (by rw [byteLength_text]; exact hshort)
    have hnormal : d.described.normalizedText = d.text := rfl
    obtain ⟨hok, herr, -⟩ := fromNormalized_spec sign v.scale hlen
    rw [hparsed, ok_bind, hnormal, materializeNormalizedNumber]
    by_cases hfit : DisplayFits host v
    · rw [if_pos ⟨hshort, hfit⟩, hok v.coefficient hsigned ((hfits host).2 hfit)]
    · rw [if_neg (by tauto), herr v.coefficient hsigned (mt (hfits host).1 hfit)]
  · rw [if_neg (by tauto), parseNumericLiteral_overflow (by rw [byteLength_text]; omega),
      error_bind]

end NumberValue

/-! ## The conversions together -/

/-- Reading a normalized spelling, writing a value and reading it back, and
changing a value's scale. -/
theorem number_text_exact (host : Host) :
    (∀ (d : NormalizedDecimal) (sign : NumericLiteralSign) (scale : NumberScale),
      d.text.length ≤ host.isizeMax →
      (∀ z : ℤ, signedValue sign d * 10 ^ scale.get = z → FitsHost host d scale →
        NumberValue.fromNormalized host d.text sign scale = .ok ⟨z, scale⟩) ∧
      (∀ z : ℤ, signedValue sign d * 10 ^ scale.get = z → ¬ FitsHost host d scale →
        NumberValue.fromNormalized host d.text sign scale = .error .Capacity) ∧
      ((¬ ∃ z : ℤ, signedValue sign d * 10 ^ scale.get = z) →
        NumberValue.fromNormalized host d.text sign scale = .error .InexactScale)) ∧
    (∀ v : NumberValue, v.unsignedText.length ≤ host.isizeMax →
      parseNumericTextToNumber host v.display v.scale =
        if v.unsignedText.length ≤ numericInputMax ∧ v.DisplayFits host then .ok v
        else .error .ParseOverflow) ∧
    (∀ (v : NumberValue) (target : NumberScale),
      (∀ z : ℤ, v.toRat * 10 ^ target.get = z → v.rescale target = .ok ⟨z, target⟩) ∧
      ((¬ ∃ z : ℤ, v.toRat * 10 ^ target.get = z) →
        v.rescale target = .error .InexactScale)) ∧
    (∀ (v : NumberValue) (target : NumberScale), v.scale.get ≤ target.get →
      ∃ w, v.rescale target = .ok w ∧ w.toRat = v.toRat ∧ w.rescale v.scale = .ok v) :=
  ⟨fun _ sign scale hlen => fromNormalized_spec sign scale hlen,
    fun v hlen => NumberValue.parse_display host v hlen,
    fun v target => v.rescale_spec target,
    fun _ _ hle => NumberValue.rescale_widen_narrow hle⟩

/-- A 64-bit machine that can reserve any buffer a string could fill. -/
def host64 : Host where
  pointerBits := 64
  le_pointerBits := by decide
  tryReserveExact n := decide (n ≤ 2 ^ 63 - 1)
  reserve_le n h := of_decide_eq_true h

/-- `1.20` at scale one, `-1.05` written and read back, `0.5` widened and narrowed. -/
theorem number_text_exact_host64 :
    NumberValue.fromNormalized host64 "1.20".toList .Positive ⟨1, by decide⟩ =
        .ok ⟨12, 1, by decide⟩ ∧
      parseNumericTextToNumber host64 (NumberValue.mk (-105) ⟨2, by decide⟩).display ⟨2, by decide⟩ =
        .ok ⟨-105, 2, by decide⟩ ∧
      ∃ w, (NumberValue.mk 5 ⟨1, by decide⟩).rescale ⟨3, by decide⟩ = .ok w ∧
        w.toRat = (NumberValue.mk 5 ⟨1, by decide⟩).toRat ∧
        w.rescale ⟨1, by decide⟩ = .ok ⟨5, 1, by decide⟩ := by
  obtain ⟨hread, hdisplay, -, hwiden⟩ := number_text_exact host64
  let d : NormalizedDecimal := ⟨['1'], some ['2', '0'], none, ⟨by simp, by simp⟩,
    by intro _ h; cases h; exact ⟨by simp, by simp⟩, by simp⟩
  refine ⟨?_, ?_, hwiden ⟨5, 1, by decide⟩ ⟨3, by decide⟩ (by decide)⟩
  · refine (hread d .Positive ⟨1, by decide⟩ (by decide)).1 12 ?_ (by decide)
    have hcoef : d.coefficient = 120 := rfl
    have hexp : d.exponentValue - d.fractionDigits.length = -2 := rfl
    rw [signedValue, NormalizedDecimal.value, hcoef, hexp]
    norm_num
  · rw [hdisplay ⟨-105, 2, by decide⟩ (by decide), if_pos (by decide)]

theorem toDigits_pow_ten_length {k : ℕ} (hk : 0 < k) : (Nat.toDigits 10 (10 ^ k)).length = k + 1 := by
  have hpow : 10 ^ k < 10 ^ (k + 1) := Nat.pow_lt_pow_right (by omega) (by omega)
  have hle := (Nat.length_toDigits_le_iff (b := 10) (n := 10 ^ k) (by omega) (Nat.succ_pos k)).2 hpow
  have hlt : ¬ (Nat.toDigits 10 (10 ^ k)).length ≤ k := by
    rw [Nat.length_toDigits_le_iff (by omega) hk]
    exact lt_irrefl _
  omega

theorem unsignedText_pow_ten {k : ℕ} (hk : 0 < k) :
    (NumberValue.mk (10 ^ k) .ZERO).unsignedText.length = k + 1 := by
  have habs : ((10 : ℤ) ^ k).natAbs = 10 ^ k := by rw [Int.natAbs_pow]; rfl
  rw [NumberValue.unsignedText_eq, if_pos (show NumberScale.ZERO.get = 0 from rfl), habs,
    toDigits_pow_ten_length hk]

/-- A value of `2^32 + 1` digits: the parser refuses the text it is written as. -/
theorem parse_display_too_long :
    ¬ ∀ (host : Host) (v : NumberValue), v.display.length ≤ host.isizeMax →
      parseNumericTextToNumber host v.display v.scale = .ok v := by
  intro hall
  obtain ⟨k, hk⟩ : ∃ k : ℕ, k = 2 ^ 32 := ⟨_, rfl⟩
  have hpos : 0 < k := by omega
  have hlen := unsignedText_pow_ten hpos
  have hisize : host64.isizeMax = 2 ^ 63 - 1 := rfl
  have hsame : (NumberValue.mk (10 ^ k) .ZERO).display =
      (NumberValue.mk (10 ^ k) .ZERO).unsignedText := by
    have hnonneg : ¬ ((10 : ℤ) ^ k < 0) := not_lt.2 (by positivity)
    rw [NumberValue.display_eq]
    simp only [if_neg hnonneg, List.nil_append]
  have hread := hall host64 ⟨10 ^ k, .ZERO⟩ (by rw [hsame]; omega)
  rw [NumberValue.parse_display host64 _ (by omega), if_neg] at hread
  · simp at hread
  · rintro ⟨hshort, -⟩
    have hmax : numericInputMax = 2 ^ 32 - 1 := rfl
    omega

end Moth.Datatypes
