import Mathlib.Data.List.TakeWhile
import Mathlib.Order.Compare
import Moth.Lexical.DecimalBinary16

/-!
# Decimals are rounded to binary16 once

The comparison with the authored digits is exact for every spelling whose
exponent fits `i64`, and a spelling whose parse ends on a midpoint has one. The
`f64` in between then never shows: what comes out is the decimal rounded to
nearest, ties to even.
-/

namespace Moth.Lexical

open Moth.Lib BinaryFormat

/-! ## What a spelling denotes -/

theorem exponentOfText_eq (d : NormalizedDecimal) :
    exponentOfText (d.exponent.map fun parts => exponentSignText parts.1 ++ parts.2) =
      d.exponentValue := by
  unfold NormalizedDecimal.exponentValue NormalizedDecimal.exponentMagnitude
    NormalizedDecimal.exponentNegative
  cases hexp : d.exponent with
  | none => rfl
  | some parts =>
      obtain ⟨sign, digits⟩ := parts
      cases sign with
      | Positive => rfl
      | Negative => rfl
      | None =>
          obtain ⟨hne, hall⟩ := d.exponent_ok _ digits hexp
          cases digits with
          | nil => exact absurd rfl hne
          | cons c tail =>
              have hc := hall c List.mem_cons_self
              have hplus : c ≠ '+' := ne_of_isDigit hc rfl
              have hminus : c ≠ '-' := ne_of_isDigit hc rfl
              simp [exponentOfText, exponentSignText, hplus, hminus]

theorem decimalValue_text (d : NormalizedDecimal) : decimalValue d.text = d.value := by
  simp only [decimalValue, d.splitExponent_text, d.splitPoint_text, exponentOfText_eq]
  rfl

/-! ## Comparing digits -/

theorem compare_lead {a b B x y : Nat} (hx : x < B) (hy : y < B) :
    (compare a b).then (compare x y) = compare (a * B + x) (b * B + y) := by
  rcases Nat.lt_trichotomy a b with hlt | rfl | hgt
  · have hle : (a + 1) * B ≤ b * B := Nat.mul_le_mul_right B hlt
    rw [Nat.add_one_mul] at hle
    rw [compare_lt_iff_lt.2 hlt, compare_lt_iff_lt.2 (show a * B + x < b * B + y by omega)]
    rfl
  · rw [compare_eq_iff_eq.2 rfl]
    rcases Nat.lt_trichotomy x y with hlt | rfl | hgt
    · rw [compare_lt_iff_lt.2 hlt, compare_lt_iff_lt.2 (show a * B + x < a * B + y by omega)]
      rfl
    · rw [compare_eq_iff_eq.2 rfl, compare_eq_iff_eq.2 rfl]
      rfl
    · rw [compare_gt_iff_gt.2 hgt, compare_gt_iff_gt.2 (show a * B + x > a * B + y by omega)]
      rfl
  · have hle : (b + 1) * B ≤ a * B := Nat.mul_le_mul_right B hgt
    rw [Nat.add_one_mul] at hle
    rw [compare_gt_iff_gt.2 hgt, compare_gt_iff_gt.2 (show a * B + x > b * B + y by omega)]
    rfl

theorem ofDigitChars_lead (c : Char) (digits : List Char) :
    Nat.ofDigitChars 10 (c :: digits) 0 =
      (c.toNat - 48) * 10 ^ digits.length + Nat.ofDigitChars 10 digits 0 := by
  rw [Nat.ofDigitChars_cons, Nat.mul_zero, Nat.zero_add, Nat.ofDigitChars_eq_ofDigitChars_zero,
    Nat.mul_comm]
  rfl

theorem ofDigitChars_lt {digits : List Char} (h : ∀ c ∈ digits, c.isDigit = true) :
    Nat.ofDigitChars 10 digits 0 < 10 ^ digits.length := by
  induction digits with
  | nil => exact Nat.one_pos
  | cons c rest ih =>
      have hc := isDigit_toNat (h c List.mem_cons_self)
      have hrest := ih fun x hx => h x (List.mem_cons_of_mem _ hx)
      have hle : (c.toNat - 48) * 10 ^ rest.length ≤ 9 * 10 ^ rest.length :=
        Nat.mul_le_mul_right _ (by omega)
      rw [ofDigitChars_lead, List.length_cons, Nat.pow_succ]
      omega

theorem pow_le_ofDigitChars {c : Char} (hc : c.isDigit = true) (hne : c ≠ '0')
    (digits : List Char) : 10 ^ digits.length ≤ Nat.ofDigitChars 10 (c :: digits) 0 := by
  have hrange := isDigit_toNat hc
  have hpos : c.toNat ≠ 48 := fun heq => hne (Char.toNat_inj.1 heq)
  have hle : 1 * 10 ^ digits.length ≤ (c.toNat - 48) * 10 ^ digits.length :=
    Nat.mul_le_mul_right _ (by omega)
  rw [ofDigitChars_lead]
  omega

theorem compare_digit {a b : Nat} (ha : 48 ≤ a) (hb : 48 ≤ b) :
    compare a b = compare (a - 48) (b - 48) := by
  rcases Nat.lt_trichotomy a b with hlt | rfl | hgt
  · rw [compare_lt_iff_lt.2 hlt, compare_lt_iff_lt.2 (show a - 48 < b - 48 by omega)]
  · rw [compare_eq_iff_eq.2 rfl, compare_eq_iff_eq.2 rfl]
  · rw [compare_gt_iff_gt.2 hgt, compare_gt_iff_gt.2 (show a - 48 > b - 48 by omega)]

/-- Two runs compare as the numbers they denote once brought to one length. -/
theorem compareDigits_eq {lefts rights : List Char} (hl : ∀ c ∈ lefts, c.isDigit = true)
    (hr : ∀ c ∈ rights, c.isDigit = true) :
    compareDigits lefts rights =
      compare (Nat.ofDigitChars 10 lefts 0 * 10 ^ (rights.length - lefts.length))
        (Nat.ofDigitChars 10 rights 0 * 10 ^ (lefts.length - rights.length)) := by
  fun_induction compareDigits lefts rights with
  | case1 => rfl
  | case2 left lefts ih =>
      have hleft := isDigit_toNat (hl left List.mem_cons_self)
      have hlefts : ∀ c ∈ lefts, c.isDigit = true := fun c hc => hl c (List.mem_cons_of_mem _ hc)
      have hlt := ofDigitChars_lt hlefts
      have ih := ih hlefts hr
      simp only [List.length_nil, Nat.zero_sub, Nat.sub_zero, Nat.pow_zero, Nat.mul_one,
        Nat.ofDigitChars_nil, Nat.zero_mul] at ih ⊢
      rw [ih, compare_digit hleft.1 (Nat.le_refl _), compare_lead hlt (Nat.zero_lt_of_lt hlt),
        ofDigitChars_lead]
      simp
  | case3 right rights ih =>
      have hright := isDigit_toNat (hr right List.mem_cons_self)
      have hrights : ∀ c ∈ rights, c.isDigit = true := fun c hc => hr c (List.mem_cons_of_mem _ hc)
      have hlt := ofDigitChars_lt hrights
      have ih := ih hl hrights
      simp only [List.length_nil, Nat.zero_sub, Nat.sub_zero, Nat.pow_zero, Nat.mul_one,
        Nat.ofDigitChars_nil, Nat.zero_mul] at ih ⊢
      rw [ih, compare_digit (Nat.le_refl _) hright.1, compare_lead (Nat.zero_lt_of_lt hlt) hlt,
        ofDigitChars_lead]
      simp
  | case4 left lefts right rights ih =>
      have hleft := isDigit_toNat (hl left List.mem_cons_self)
      have hright := isDigit_toNat (hr right List.mem_cons_self)
      have hlefts : ∀ c ∈ lefts, c.isDigit = true := fun c hc => hl c (List.mem_cons_of_mem _ hc)
      have hrights : ∀ c ∈ rights, c.isDigit = true := fun c hc => hr c (List.mem_cons_of_mem _ hc)
      have hltl := Nat.mul_lt_mul_of_pos_right (ofDigitChars_lt hlefts)
        (Nat.pow_pos (n := rights.length - lefts.length) (show 0 < 10 by decide))
      have hltr := Nat.mul_lt_mul_of_pos_right (ofDigitChars_lt hrights)
        (Nat.pow_pos (n := lefts.length - rights.length) (show 0 < 10 by decide))
      rw [← Nat.pow_add] at hltl hltr
      have hsame : rights.length + (lefts.length - rights.length) =
          lefts.length + (rights.length - lefts.length) := by omega
      rw [hsame] at hltr
      rw [ih hlefts hrights, compare_digit hleft.1 hright.1, compare_lead hltl hltr,
        ofDigitChars_lead, ofDigitChars_lead, Nat.add_mul, Nat.add_mul, Nat.mul_assoc,
        Nat.mul_assoc, ← Nat.pow_add, ← Nat.pow_add, List.length_cons, List.length_cons,
        Nat.add_sub_add_right, Nat.add_sub_add_right, hsame]

/-! ## Comparing scaled digits -/

theorem compare_scaled {m n : Nat} {u : ℚ} (hu : 0 < u) :
    compare m n = cmp ((m : ℚ) * u) (n * u) := by
  rw [cmp_mul_pos_right hu]
  rcases Nat.lt_trichotomy m n with hlt | rfl | hgt
  · rw [compare_lt_iff_lt.2 hlt, (cmp_eq_lt_iff _ _).2 (Nat.cast_lt.2 hlt)]
  · rw [compare_eq_iff_eq.2 rfl, cmp_self_eq_eq]
  · rw [compare_gt_iff_gt.2 hgt, (cmp_eq_gt_iff _ _).2 (Nat.cast_lt.2 hgt)]

theorem decade {m length : Nat} (scale : Int) (hlow : 10 ^ (length - 1) ≤ m)
    (hhigh : m < 10 ^ length) (hlength : 0 < length) :
    (10 : ℚ) ^ (scale + length - 1) ≤ m * 10 ^ scale ∧
      (m : ℚ) * 10 ^ scale < 10 ^ (scale + length) := by
  have hten : (0 : ℚ) < 10 ^ scale := zpow_pos (by norm_num) _
  have hlow' : (10 : ℚ) ^ (length - 1 : Nat) ≤ m := by exact_mod_cast hlow
  have hhigh' : (m : ℚ) < 10 ^ length := by exact_mod_cast hhigh
  have hsplit : scale + length - 1 = ((length - 1 : Nat) : ℤ) + scale := by omega
  refine ⟨?_, ?_⟩
  · rw [hsplit, zpow_add₀ (by norm_num), zpow_natCast]
    exact mul_le_mul_of_nonneg_right hlow' hten.le
  · rw [Int.add_comm, zpow_add₀ (by norm_num), zpow_natCast]
    exact mul_lt_mul_of_pos_right hhigh' hten

theorem compareScaledDecimals_eq {digits : List Char} {scale exactScale : Int} {exactDigits : Nat}
    (hdigits : ∀ c ∈ digits, c.isDigit = true) (hne : digits ≠ [])
    (hlead : 10 ^ (digits.length - 1) ≤ Nat.ofDigitChars 10 digits 0) (hpos : 0 < exactDigits) :
    compareScaledDecimals digits scale exactDigits exactScale =
      cmp ((Nat.ofDigitChars 10 digits 0 : ℚ) * 10 ^ scale) (exactDigits * 10 ^ exactScale) := by
  have hlength : 0 < digits.length := List.length_pos_iff.2 hne
  obtain ⟨hlow, hhigh⟩ := decade scale hlead (ofDigitChars_lt hdigits) hlength
  have hexact : 0 < (Nat.toDigits 10 exactDigits).length := Nat.length_toDigits_pos
  have hexactLow : 10 ^ ((Nat.toDigits 10 exactDigits).length - 1) ≤ exactDigits := by
    rcases Nat.eq_zero_or_pos ((Nat.toDigits 10 exactDigits).length - 1) with hzero | hmore
    · rw [hzero]
      exact hpos
    · by_contra hlt
      have := (Nat.length_toDigits_le_iff (by decide) hmore).2 (Nat.lt_of_not_le hlt)
      omega
  have hexactHigh : exactDigits < 10 ^ (Nat.toDigits 10 exactDigits).length :=
    (Nat.length_toDigits_le_iff (by decide) hexact).1 (Nat.le_refl _)
  obtain ⟨hlow', hhigh'⟩ := decade exactScale hexactLow hexactHigh hexact
  have htext : ∀ c ∈ Nat.toDigits 10 exactDigits, c.isDigit = true :=
    (isDigits_toDigits exactDigits).isDigit
  have hnumber : Nat.ofDigitChars 10 (Nat.toDigits 10 exactDigits) 0 = exactDigits :=
    Nat.ofDigitChars_toDigits (by decide) (by decide)
  rw [compareScaledDecimals]
  generalize Nat.toDigits 10 exactDigits = text at *
  have hmono : ∀ {p q : Int}, p ≤ q → (10 : ℚ) ^ p ≤ 10 ^ q :=
    fun h => zpow_le_zpow_right₀ (by norm_num) h
  rcases lt_trichotomy (scale + digits.length) (exactScale + text.length) with hlt | heq | hgt
  · rw [if_pos hlt.ne, compare_lt_iff_lt.2 hlt, eq_comm, cmp_eq_lt_iff]
    exact lt_of_lt_of_le hhigh (le_trans (hmono (by omega)) hlow')
  · have hdigitsEq := compareDigits_eq hdigits htext
    rw [if_neg (not_not.2 heq), hdigitsEq, hnumber, compare_scaled (u := 10 ^ (scale -
      (text.length - digits.length : Nat))) (zpow_pos (by norm_num) _)]
    have hbring : ∀ (k : Nat) (s : Int), (10 : ℚ) ^ s = 10 ^ k * 10 ^ (s - k) := by
      intro k s
      rw [← zpow_natCast, ← zpow_add₀ (by norm_num)]
      congr 1
      omega
    have hsame : scale - (text.length - digits.length : Nat) =
        exactScale - (digits.length - text.length : Nat) := by omega
    rw [hbring (text.length - digits.length) scale,
      hbring (digits.length - text.length) exactScale, ← hsame]
    rw [Nat.cast_mul, Nat.cast_mul, Nat.cast_pow, Nat.cast_pow, Nat.cast_ofNat, mul_assoc,
      mul_assoc]
  · rw [if_pos hgt.ne', compare_gt_iff_gt.2 hgt, eq_comm, cmp_eq_gt_iff]
    exact lt_of_lt_of_le hhigh' (le_trans (hmono (by omega)) hlow)

/-! ## The significant digits -/

theorem saturatingDigits_eq {digits : List Char} (h : Nat.ofDigitChars 10 digits 0 ≤ 2 ^ 63 - 1) :
    saturatingDigits digits = Nat.ofDigitChars 10 digits 0 := by
  have hall : ∀ (rest : List Char) (value : Nat), Nat.ofDigitChars 10 rest value ≤ 2 ^ 63 - 1 →
      rest.foldl saturatingDigit value = Nat.ofDigitChars 10 rest value := by
    intro rest
    induction rest with
    | nil => exact fun value _ => (Nat.ofDigitChars_nil).symm
    | cons c rest ih =>
        intro value hle
        rw [Nat.ofDigitChars_cons] at hle ⊢
        have hgrow : Nat.ofDigitChars 10 rest (10 * value + (c.toNat - '0'.toNat)) =
            10 ^ rest.length * (10 * value + (c.toNat - '0'.toNat)) + Nat.ofDigitChars 10 rest 0 :=
          Nat.ofDigitChars_eq_ofDigitChars_zero
        have hpow : 0 < 10 ^ rest.length := Nat.pow_pos (by decide)
        have hself : 10 * value + (c.toNat - '0'.toNat) ≤
            10 ^ rest.length * (10 * value + (c.toNat - '0'.toNat)) := Nat.le_mul_of_pos_left _ hpow
        have hstep : saturatingDigit value c = 10 * value + (c.toNat - '0'.toNat) := by
          unfold saturatingDigit
          rw [Nat.mul_comm value]
          omega
        rw [List.foldl_cons, hstep]
        exact ih _ hle
  exact hall digits 0 h

theorem parseDecimalExponent_eq (d : NormalizedDecimal) (h : d.exponentMagnitude ≤ 2 ^ 63 - 1) :
    ((d.exponent.map fun parts => exponentSignText parts.1 ++ parts.2).map
      parseDecimalExponent).getD 0 = d.exponentValue := by
  unfold NormalizedDecimal.exponentValue NormalizedDecimal.exponentNegative
  unfold NormalizedDecimal.exponentMagnitude at *
  cases hexp : d.exponent with
  | none => rfl
  | some parts =>
      obtain ⟨sign, digits⟩ := parts
      rw [hexp] at h
      have hvalue := saturatingDigits_eq h
      cases sign with
      | Positive => simp [parseDecimalExponent, exponentSignText, hvalue]
      | Negative => simp [parseDecimalExponent, exponentSignText, hvalue]
      | None =>
          obtain ⟨hne, hall⟩ := d.exponent_ok _ digits hexp
          cases digits with
          | nil => exact absurd rfl hne
          | cons c tail =>
              have hc := hall c List.mem_cons_self
              have hplus : c ≠ '+' := ne_of_isDigit hc rfl
              have hminus : c ≠ '-' := ne_of_isDigit hc rfl
              simp [parseDecimalExponent, exponentSignText, hplus, hminus, hvalue]

theorem dropWhile_zeros (digits : List Char) :
    Nat.ofDigitChars 10 (digits.dropWhile (· == '0')) 0 = Nat.ofDigitChars 10 digits 0 := by
  have hzeros : digits.takeWhile (· == '0') =
      List.replicate (digits.takeWhile (· == '0')).length '0' := by
    refine List.eq_replicate_iff.2 ⟨rfl, fun c hc => ?_⟩
    exact eq_of_beq (List.mem_takeWhile_imp (p := (· == '0')) hc)
  have hwhole := List.takeWhile_append_dropWhile (p := (· == '0')) (l := digits)
  rw [hzeros] at hwhole
  rw [← ofDigitChars_zeros_append _ (digits.takeWhile (· == '0')).length, hwhole]

/-- Zeros at the end are powers of ten. -/
theorem dropTrailingZeroes_spec (digits : List Char) :
    digits = dropTrailingZeroes digits ++
      List.replicate (digits.length - (dropTrailingZeroes digits).length) '0' := by
  have hsplit := List.takeWhile_append_dropWhile (p := (· == '0')) (l := digits.reverse)
  have hzeros : digits.reverse.takeWhile (· == '0') =
      List.replicate (digits.reverse.takeWhile (· == '0')).length '0' := by
    refine List.eq_replicate_iff.2 ⟨rfl, fun c hc => ?_⟩
    exact eq_of_beq (List.mem_takeWhile_imp (p := (· == '0')) hc)
  have hwhole : digits = dropTrailingZeroes digits ++
      List.replicate (digits.reverse.takeWhile (· == '0')).length '0' := by
    have := congrArg List.reverse hsplit
    rw [List.reverse_append, List.reverse_reverse, hzeros, List.reverse_replicate] at this
    exact this.symm
  have hlength := congrArg List.length hwhole
  rw [List.length_append, List.length_replicate] at hlength
  have hcount : digits.length - (dropTrailingZeroes digits).length =
      (digits.reverse.takeWhile (· == '0')).length := by omega
  rw [hcount]
  exact hwhole

theorem decomposeDecimalMagnitude_eq (d : NormalizedDecimal)
    (h : d.exponentMagnitude ≤ 2 ^ 63 - 1) {digits : List Char} {scale : Int}
    (hd : decomposeDecimalMagnitude d.text = (digits, scale)) :
    d.value = Nat.ofDigitChars 10 digits 0 * 10 ^ scale ∧ (∀ c ∈ digits, c.isDigit = true) ∧
      (digits ≠ [] → 10 ^ (digits.length - 1) ≤ Nat.ofDigitChars 10 digits 0) := by
  simp only [decomposeDecimalMagnitude, d.splitExponent_text, d.splitPoint_text,
    parseDecimalExponent_eq d h] at hd
  have hcoefficient : d.integer ++ d.fractionDigits = d.coefficientDigits := rfl
  rw [hcoefficient] at hd
  generalize hdrop : d.coefficientDigits.dropWhile (· == '0') = stripped at hd
  obtain ⟨hdigits, hscale⟩ := Prod.mk.injEq .. ▸ hd
  have hwhole := dropTrailingZeroes_spec stripped
  rw [hdigits] at hwhole hscale
  have hnumber : d.coefficient =
      Nat.ofDigitChars 10 digits 0 * 10 ^ (stripped.length - digits.length) := by
    rw [← ofDigitChars_append_zeros, ← hwhole, ← hdrop, dropWhile_zeros]
    rfl
  have hall : ∀ c ∈ stripped, c.isDigit = true := by
    intro c hc
    rw [← hdrop] at hc
    exact d.isDigits_coefficientDigits.isDigit c (List.dropWhile_subset _ hc)
  refine ⟨?_, fun c hc => ?_, fun hne => ?_⟩
  · rw [NormalizedDecimal.value, hnumber, ← hscale, zpow_add₀ (by norm_num)]
    push_cast
    rw [zpow_natCast]
    ring
  · rw [hwhole] at hall
    exact hall c (List.mem_append_left _ hc)
  · cases digits with
    | nil => exact absurd rfl hne
    | cons c rest =>
        have hhead : stripped.head? = some c := by
          rw [hwhole]
          rfl
        have hnonzero : c ≠ '0' := by
          have hfirst := List.head?_dropWhile_not (p := (· == '0')) (l := d.coefficientDigits)
          rw [hdrop, hhead] at hfirst
          intro heq
          rw [heq] at hfirst
          cases hfirst
        have hc := hall c (by rw [hwhole]; exact List.mem_cons_self)
        rw [List.length_cons, Nat.add_sub_cancel]
        exact pow_le_ofDigitChars hc hnonzero rest

theorem binaryDecimalExpansion_eq {significand : Nat} (exponent : Int) (hpos : 0 < significand) :
    0 < (binaryDecimalExpansion significand exponent).1 ∧
      ((binaryDecimalExpansion significand exponent).1 : ℚ) *
        10 ^ (binaryDecimalExpansion significand exponent).2 = significand * 2 ^ exponent := by
  unfold binaryDecimalExpansion
  by_cases hexponent : 0 ≤ exponent
  · obtain ⟨k, rfl⟩ := Int.eq_ofNat_of_zero_le hexponent
    rw [if_pos hexponent]
    refine ⟨Nat.mul_pos hpos (Nat.two_pow_pos _), ?_⟩
    simp
  · obtain ⟨k, rfl⟩ : ∃ k : Nat, exponent = -(k : Int) := ⟨exponent.natAbs, by omega⟩
    rw [if_neg hexponent]
    refine ⟨Nat.mul_pos hpos (Nat.pow_pos (by decide)), ?_⟩
    have hten : (10 : ℚ) ^ k = 5 ^ k * 2 ^ k := by
      rw [← mul_pow]
      norm_num
    simp only [neg_neg, Int.toNat_natCast]
    push_cast
    rw [zpow_neg, zpow_neg, zpow_natCast, zpow_natCast, hten]
    field_simp

/-- The comparison is that of the two numbers. -/
theorem compareDecimalMagnitude_eq (d : NormalizedDecimal)
    (h : d.exponentMagnitude ≤ 2 ^ 63 - 1) {significand : Nat} (hpos : 0 < significand)
    (exponent : Int) :
    compareDecimalMagnitude d.text significand exponent =
      cmp d.value (significand * 2 ^ exponent) := by
  obtain ⟨hexact, hvalue⟩ := binaryDecimalExpansion_eq exponent hpos
  cases hd : decomposeDecimalMagnitude d.text with
  | mk digits scale =>
      obtain ⟨hnumber, hdigits, hlead⟩ := decomposeDecimalMagnitude_eq d h hd
      have hcompare : compareDecimalMagnitude d.text significand exponent =
          if digits = [] then .lt
          else compareScaledDecimals digits scale (binaryDecimalExpansion significand exponent).1
            (binaryDecimalExpansion significand exponent).2 := by
        simp only [compareDecimalMagnitude, hd]
      rw [hcompare]
      by_cases hempty : digits = []
      · have hzero : d.value = 0 := by
          rw [hnumber, hempty, Nat.ofDigitChars_nil, Nat.cast_zero, zero_mul]
        rw [if_pos hempty, hzero, eq_comm, cmp_eq_lt_iff]
        exact mul_pos (Nat.cast_pos.2 hpos) (zpow_pos (by norm_num) _)
      · rw [if_neg hempty, compareScaledDecimals_eq hdigits hempty (hlead hempty) hexact, hvalue,
          hnumber]

/-! ## The parts of a magnitude -/

theorem magnitudeValue_binary64 (a : Nat) :
    binary64.magnitudeValue a = binary64.units a * 2 ^ (-1074 : ℤ) := rfl

theorem magnitudeValue_binary16 (a : Nat) :
    binary16.magnitudeValue a = binary16.units a * 2 ^ (-24 : ℤ) := rfl

theorem infinity_binary64 : binary64.infinity = 2047 * 2 ^ 52 := rfl

theorem infinity_binary16 : binary16.infinity = 31744 := rfl

theorem magnitudeValue_infinity16 : binary16.magnitudeValue binary16.infinity = 2 ^ (16 : ℤ) := by
  have hunits : binary16.units binary16.infinity = 2 ^ 40 := by decide
  rw [magnitudeValue_binary16, hunits]
  norm_num

theorem significandExponent_value {a : Nat} (hfinite : a < binary64.infinity) :
    binary64.magnitudeValue a =
      (significandExponent a).1 * 2 ^ (significandExponent a).2 := by
  rw [infinity_binary64] at hfinite
  have hfield : a / 2 ^ 52 % 2 ^ 11 = a / 2 ^ 52 := Nat.mod_eq_of_lt (by omega)
  have hunits : binary64.units a = if a / 2 ^ 52 = 0 then a
      else (2 ^ 52 + a % 2 ^ 52) * 2 ^ (a / 2 ^ 52 - 1) := rfl
  rw [magnitudeValue_binary64, hunits]
  simp only [significandExponent, hfield]
  by_cases hzero : a / 2 ^ 52 = 0
  · have hmod : a % 2 ^ 52 = a := Nat.mod_eq_of_lt (by omega)
    rw [if_pos hzero, if_pos hzero, hmod]
  · rw [if_neg hzero, if_neg hzero]
    have hexponent : ((a / 2 ^ 52 : Nat) : ℤ) - 1023 - 52 =
        ((a / 2 ^ 52 - 1 : Nat) : ℤ) + (-1074) := by omega
    simp only [hexponent]
    rw [zpow_add₀ (by norm_num), zpow_natCast, Nat.add_comm]
    simp only [Nat.cast_mul, Nat.cast_add, Nat.cast_pow, Nat.cast_ofNat]
    exact mul_assoc _ _ _

theorem significandExponent_bounds (a : Nat) :
    (significandExponent a).1 < 2 ^ 53 ∧
      (2 ^ 52 ≤ (significandExponent a).1 ∨ (significandExponent a).2 = -1074) := by
  unfold significandExponent
  by_cases hzero : a / 2 ^ 52 % 2 ^ 11 = 0
  · simp only [hzero, if_true]
    exact ⟨by omega, Or.inr trivial⟩
  · simp only [hzero, if_false]
    exact ⟨by omega, Or.inl (by omega)⟩

theorem scalePow2_value {q : Nat} (unit : Int) (hq : q ≠ 0) (hlog : q.log2 ≤ 52)
    (hlow : -1022 ≤ unit + q.log2) (hhigh : unit + q.log2 ≤ 1023) :
    binary64.magnitudeValue (scalePow2 q unit) = q * 2 ^ unit ∧
      scalePow2 q unit < binary64.infinity := by
  have hle := Nat.log2_self_le hq
  have hlt : q < 2 ^ (q.log2 + 1) := Nat.lt_log2_self
  obtain ⟨k, hk⟩ : ∃ k, 52 - q.log2 = k := ⟨_, rfl⟩
  have hlead : 2 ^ 52 ≤ q * 2 ^ k ∧ q * 2 ^ k < 2 * 2 ^ 52 := by
    have hpow : 2 ^ 52 = 2 ^ q.log2 * 2 ^ k := by
      rw [← Nat.pow_add]
      congr 1
      omega
    rw [hpow, ← Nat.mul_assoc, ← Nat.pow_succ']
    exact ⟨Nat.mul_le_mul_right _ hle, Nat.mul_lt_mul_of_pos_right hlt (Nat.two_pow_pos _)⟩
  have hmantissa : q * 2 ^ k % 2 ^ 52 = q * 2 ^ k - 2 ^ 52 := by
    rw [Nat.mod_eq_sub_mod hlead.1, Nat.mod_eq_of_lt (by omega)]
  obtain ⟨e, he⟩ : ∃ e : Nat, unit + q.log2 + 1023 = e := ⟨(unit + q.log2 + 1023).toNat, by omega⟩
  have hpattern : scalePow2 q unit = e * 2 ^ 52 + (q * 2 ^ k - 2 ^ 52) := by
    simp only [scalePow2, hk, hmantissa, he, Int.toNat_natCast]
  have hF : q * 2 ^ k - 2 ^ 52 < 2 ^ binary64.fractionBits := by
    show _ < 2 ^ 52
    omega
  have hunits := binary64.units_normal (e := e) hF (by omega)
  have hwhole : 2 ^ binary64.fractionBits + (q * 2 ^ k - 2 ^ 52) = q * 2 ^ k := by
    show 2 ^ 52 + _ = _
    omega
  rw [hwhole] at hunits
  constructor
  · have hexponent : unit = (k : ℤ) + ((e - 1 : Nat) : ℤ) + (-1074) := by omega
    rw [magnitudeValue_binary64, hpattern]
    show ((binary64.units (e * 2 ^ binary64.fractionBits + (q * 2 ^ k - 2 ^ 52)) : Nat) : ℚ) * _ = _
    rw [hunits, hexponent, zpow_add₀ (by norm_num), zpow_add₀ (by norm_num), zpow_natCast,
      zpow_natCast]
    simp only [Nat.cast_mul, Nat.cast_pow, Nat.cast_ofNat, mul_assoc]
  · rw [hpattern, infinity_binary64]
    have hle' : e * 2 ^ 52 ≤ 2046 * 2 ^ 52 := Nat.mul_le_mul_right _ (by omega)
    omega

/-- A quotient of the destination's unit as the magnitude it stands for. -/
theorem scaledValue_eq {q b : Nat} {unit : Int} (hq : q < 2 ^ 12) (hunit : -24 ≤ unit)
    (hb : b ≤ binary16.infinity) (hvalue : binary16.magnitudeValue b = q * 2 ^ unit) :
    scaledValue q unit = convertMagnitude binary16 binary64 b := by
  unfold scaledValue
  by_cases hzero : q = 0
  · have hb0 : b = 0 := by
      rw [hzero, Nat.cast_zero, zero_mul, ← binary16.magnitudeValue_zero] at hvalue
      exact binary16.magnitudeValue_strictMono.injective hvalue
    rw [if_pos hzero, hb0]
    refine (convertMagnitude_of_eq (by decide) (Nat.zero_le _) ?_).symm
    rw [binary16.magnitudeValue_zero, binary64.magnitudeValue_zero]
  rw [if_neg hzero]
  have hlow : ((2 ^ q.log2 : Nat) : ℚ) ≤ q := by exact_mod_cast Nat.log2_self_le hzero
  have hhigh : (q : ℚ) < ((2 ^ (q.log2 + 1) : Nat) : ℚ) := by
    exact_mod_cast (Nat.lt_log2_self : q < 2 ^ (q.log2 + 1))
  push_cast at hlow hhigh
  have htwo : (0 : ℚ) < 2 ^ unit := zpow_pos (by norm_num) _
  have hmono : ∀ {m n : Int}, m ≤ n → (2 : ℚ) ^ m ≤ 2 ^ n :=
    fun h => zpow_le_zpow_right₀ (by norm_num) h
  by_cases hlarge : 15 < unit + q.log2
  · have hinfinite : binary16.infinity ≤ b := by
      by_contra hlt
      have hless := binary16.magnitudeValue_strictMono (Nat.lt_of_not_le hlt)
      rw [magnitudeValue_infinity16, hvalue] at hless
      have hge : (2 : ℚ) ^ (16 : ℤ) ≤ 2 ^ q.log2 * 2 ^ unit := by
        rw [← zpow_natCast, ← zpow_add₀ (by norm_num)]
        exact hmono (by omega)
      exact absurd (lt_of_le_of_lt (mul_le_mul_of_nonneg_right hlow htwo.le) hless)
        (not_lt.2 hge)
    rw [if_pos hlarge, convertMagnitude, if_pos hinfinite]
  · have hfinite : b < binary16.infinity := by
      refine Nat.lt_of_le_of_ne hb fun heq => ?_
      rw [heq, magnitudeValue_infinity16] at hvalue
      have hlt : (q : ℚ) * 2 ^ unit < 2 ^ (q.log2 + 1) * 2 ^ unit :=
        mul_lt_mul_of_pos_right hhigh htwo
      have hle : (2 : ℚ) ^ (q.log2 + 1) * 2 ^ unit ≤ 2 ^ (16 : ℤ) := by
        rw [← zpow_natCast, ← zpow_add₀ (by norm_num)]
        exact hmono (by omega)
      rw [← hvalue] at hlt
      exact absurd hlt (not_lt.2 hle)
    have hlog : q.log2 < 12 := (Nat.log2_lt hzero).2 hq
    obtain ⟨hexact, hless⟩ := scalePow2_value unit hzero (by omega) (by omega) (by omega)
    rw [if_neg hlarge]
    exact (convertMagnitude_of_eq hfinite hless.le (hexact.trans hvalue.symm)).symm

theorem scaledValue_large {q : Nat} {unit : Int} (hq : 2 ^ 10 ≤ q) (hunit : 6 ≤ unit) :
    scaledValue q unit = binary64.infinity := by
  have hne : q ≠ 0 := by omega
  have hlog : 10 ≤ q.log2 := (Nat.le_log2 hne).2 hq
  rw [scaledValue, if_neg hne, if_pos (by omega)]

/-! ## Rounding a magnitude -/

/-- The rounding of a number, and the midpoint it is on if it is on one. -/
structure RoundsMagnitude (v : ℚ) (rounding : F16MagnitudeRounding) : Prop where
  value : ∃ h, binary16.RoundsTo v h ∧ rounding.value = convertMagnitude binary16 binary64 h
  plain : rounding.midpoint = none →
    ∀ b, b + 1 ≤ binary16.infinity →
      2 * v ≠ binary16.magnitudeValue b + binary16.magnitudeValue (b + 1)
  midpoint : ∀ m, rounding.midpoint = some m →
    (binary16.magnitudeValue binary16.infinity ≤ v ∧ m.below = binary64.infinity ∧
        m.above = binary64.infinity) ∨
      ∃ b, b + 1 ≤ binary16.infinity ∧
        2 * v = binary16.magnitudeValue b + binary16.magnitudeValue (b + 1) ∧
        m.below = convertMagnitude binary16 binary64 b ∧
        m.above = convertMagnitude binary16 binary64 (b + 1) ∧ 0 < m.significand ∧
        (m.significand : ℚ) * 2 ^ m.exponent = v

theorem roundsMagnitude_tiny {v : ℚ} (hv : 2 * v < binary16.magnitudeValue 1) :
    RoundsMagnitude v ⟨0, none⟩ := by
  have hzero := binary16.magnitudeValue_zero
  refine ⟨⟨0, ?_, ?_⟩, fun _ b _ heq => ?_, fun _ h => nomatch h⟩
  · refine roundsTo_between (Nat.zero_le _) (fun b hb => by omega) fun _ => ?_
    rw [hzero, zero_add]
    exact hv
  · refine (convertMagnitude_of_eq (by decide) (Nat.zero_le _) ?_).symm
    rw [hzero, binary64.magnitudeValue_zero]
  · have hone := binary16.magnitudeValue_strictMono.monotone (show 1 ≤ b + 1 by omega)
    have hnonneg := binary16.magnitudeValue_nonneg b
    linarith

/-- The code's cut of a significand, rounded in the destination's unit. -/
def cutRounding (S s : Nat) (unit : Int) : F16MagnitudeRounding :=
  ⟨scaledValue (if roundsUp (S / 2 ^ s) (S % 2 ^ s) (2 ^ (s - 1)) then S / 2 ^ s + 1
      else S / 2 ^ s) unit,
    if S % 2 ^ s = 2 ^ (s - 1) then some (F16Midpoint.new (S / 2 ^ s) unit) else none⟩

theorem roundsMagnitude_large {S s : Nat} {unit : Int} {v : ℚ} (hcut : 2 ^ 10 ≤ S / 2 ^ s)
    (hunit : 6 ≤ unit) (hv : binary16.magnitudeValue binary16.infinity ≤ v) :
    RoundsMagnitude v (cutRounding S s unit) := by
  have hconvert : convertMagnitude binary16 binary64 binary16.infinity = binary64.infinity := by
    rw [convertMagnitude, if_pos (Nat.le_refl _)]
  refine ⟨⟨_, roundsTo_infinity hv, ?_⟩, fun _ b hb heq => ?_, fun m hm => Or.inl ⟨hv, ?_⟩⟩
  · rw [hconvert]
    exact scaledValue_large (by split <;> omega) hunit
  · have hle := binary16.magnitudeValue_strictMono.monotone hb
    have hless := binary16.magnitudeValue_strictMono (Nat.lt_succ_self b)
    linarith
  · simp only [cutRounding, Option.ite_none_right_eq_some, Option.some.injEq] at hm
    obtain ⟨-, rfl⟩ := hm
    exact ⟨scaledValue_large hcut hunit, scaledValue_large (q := S / 2 ^ s + 1) (by omega) hunit⟩

theorem roundsMagnitude_cut {S s : Nat} {unit exponent : Int} (hs : 0 < s)
    (hunit : unit = exponent + s) (hlow : -24 ≤ unit) (hhigh : unit ≤ 5)
    (hcut : S / 2 ^ s < 2 ^ 11) (hlead : unit = -24 ∨ 2 ^ 10 ≤ S / 2 ^ s) :
    RoundsMagnitude (S * 2 ^ exponent) (cutRounding S s unit) := by
  obtain ⟨k, hk⟩ : ∃ k : Nat, unit + 24 = k := ⟨(unit + 24).toNat, by omega⟩
  have hfields := units_lead (f := binary16) (s := k) (t := S / 2 ^ s) hcut
    (hlead.imp_left fun h => by omega)
  obtain ⟨b, hb⟩ : ∃ b, k * 2 ^ binary16.fractionBits + S / 2 ^ s = b := ⟨_, rfl⟩
  rw [hb] at hfields
  have hbits : k * 2 ^ 10 + S / 2 ^ s = b := hb
  have hbound : b + 1 ≤ binary16.infinity := by
    rw [infinity_binary16]
    have hle : k * 2 ^ 10 ≤ 29 * 2 ^ 10 := Nat.mul_le_mul_right _ (by omega)
    omega
  have hscale : (2 : ℚ) ^ k * 2 ^ (-24 : ℤ) = 2 ^ unit := by
    rw [← zpow_natCast, ← zpow_add₀ (by norm_num)]
    congr 1
    omega
  have hshift : (2 : ℚ) ^ s * 2 ^ exponent = 2 ^ unit := by
    rw [← zpow_natCast, ← zpow_add₀ (by norm_num)]
    congr 1
    omega
  have hvalue : binary16.magnitudeValue b = (S / 2 ^ s : Nat) * 2 ^ unit := by
    rw [magnitudeValue_binary16, hfields.1, Nat.cast_mul, Nat.cast_pow, Nat.cast_ofNat, mul_assoc,
      hscale]
  have hnext : binary16.magnitudeValue (b + 1) = ((S / 2 ^ s : Nat) + 1) * 2 ^ unit := by
    rw [magnitudeValue_binary16, binary16.units_succ, hfields.1, hfields.2, Nat.cast_add,
      Nat.cast_mul, Nat.cast_pow, Nat.cast_ofNat, ← add_one_mul, mul_assoc, hscale]
  have hpositive : (0 : ℚ) < 2 ^ exponent := zpow_pos (by norm_num) _
  have hrounds := roundsTo_shift (f := binary16) (S := S) (s := s) (b := b) hs hpositive hbound
    (by omega) (by rw [hvalue, mul_assoc, hshift]) (by rw [hnext, mul_assoc, hshift])
  have hsplit : (S : ℚ) = (S / 2 ^ s : Nat) * 2 ^ s + (S % 2 ^ s : Nat) := by
    exact_mod_cast (Nat.div_add_mod' S (2 ^ s)).symm
  have hv : (S : ℚ) * 2 ^ exponent =
      (S / 2 ^ s : Nat) * 2 ^ unit + (S % 2 ^ s : Nat) * 2 ^ exponent := by
    rw [← hshift, hsplit]
    ring
  have htwice : (2 : ℚ) ^ unit = 2 * ((2 ^ (s - 1) : Nat) : ℚ) * 2 ^ exponent := by
    have hnat : 2 ^ s = 2 * 2 ^ (s - 1) := by
      rw [← Nat.pow_succ', Nat.succ_eq_add_one, Nat.sub_add_cancel hs]
    have hcast : ((2 : ℚ) ^ s) = 2 * ((2 ^ (s - 1) : Nat) : ℚ) := by exact_mod_cast hnat
    rw [← hshift, hcast]
  have hnextConvert := scaledValue_eq (q := S / 2 ^ s + 1) (by omega) hlow hbound
    (by rw [hnext]; push_cast; rfl)
  have hconvert := scaledValue_eq (q := S / 2 ^ s) (by omega) hlow (by omega) hvalue
  refine ⟨⟨_, hrounds, ?_⟩, fun hplain => ?_, fun m hm => Or.inr ⟨b, hbound, ?_⟩⟩
  · simp only [cutRounding]
    split
    · exact hnextConvert
    · exact hconvert
  · have hrem : S % 2 ^ s ≠ 2 ^ (s - 1) := by
      simpa [cutRounding] using hplain
    have hlt : S % 2 ^ s < 2 ^ s := Nat.mod_lt _ (Nat.two_pow_pos s)
    have hcast : ((S % 2 ^ s : Nat) : ℚ) < 2 ^ s := by exact_mod_cast hlt
    refine fun c _ => ne_midpoint (b := b) ?_ ?_ ?_ c
    · rw [hvalue, hv]
      have : 0 ≤ ((S % 2 ^ s : Nat) : ℚ) * 2 ^ exponent :=
        mul_nonneg (Nat.cast_nonneg _) hpositive.le
      linarith
    · rw [hnext, hv]
      have := mul_lt_mul_of_pos_right hcast hpositive
      rw [hshift] at this
      linarith
    · rw [hnext, hvalue, hv]
      intro heq
      have hsame : ((S % 2 ^ s : Nat) : ℚ) * 2 ^ exponent =
          ((2 ^ (s - 1) : Nat) : ℚ) * 2 ^ exponent := by
        linarith
      exact hrem (by exact_mod_cast mul_right_cancel₀ hpositive.ne' hsame)
  · simp only [cutRounding, Option.ite_none_right_eq_some, Option.some.injEq] at hm
    obtain ⟨hrem, rfl⟩ := hm
    rw [hrem] at hv
    refine ⟨?_, hconvert, hnextConvert, Nat.succ_pos _, ?_⟩
    · rw [hvalue, hnext, hv, htwice]
      ring
    · have hhalf : (2 : ℚ) ^ unit = 2 * 2 ^ (unit - 1) := by
        rw [← zpow_one_add₀ (by norm_num)]
        congr 1
        omega
      rw [hv]
      simp only [F16Midpoint.new]
      push_cast at htwice ⊢
      have hcut : ((2 : ℚ) ^ (s - 1)) * 2 ^ exponent = 2 ^ (unit - 1) := by linarith
      rw [hcut, hhalf]
      ring

/-- What the rounding of a finite magnitude reports. -/
theorem roundFiniteMagnitudeToF16_spec {a : Nat} (hfinite : a < binary64.infinity) :
    RoundsMagnitude (binary64.magnitudeValue a) (roundFiniteMagnitudeToF16 a) := by
  have hone : binary16.magnitudeValue 1 = 2 ^ (-24 : ℤ) := by
    rw [magnitudeValue_binary16, binary16.units_subnormal (show 1 < 2 ^ 10 by decide),
      Nat.cast_one, one_mul]
  have hmono : ∀ {m n : Int}, m ≤ n → (2 : ℚ) ^ m ≤ 2 ^ n :=
    fun h => zpow_le_zpow_right₀ (by norm_num) h
  unfold roundFiniteMagnitudeToF16
  by_cases hzero : a = 0
  · rw [if_pos hzero, hzero, binary64.magnitudeValue_zero]
    refine roundsMagnitude_tiny ?_
    rw [mul_zero, hone]
    exact zpow_pos (by norm_num) _
  rw [if_neg hzero]
  have hvalue := significandExponent_value hfinite
  have hbounds := significandExponent_bounds a
  have hpos : 0 < binary64.magnitudeValue a := by
    rw [← binary64.magnitudeValue_zero]
    exact binary64.magnitudeValue_strictMono (Nat.pos_of_ne_zero hzero)
  generalize significandExponent a = parts at hvalue hbounds
  obtain ⟨S, E⟩ := parts
  simp only at hvalue hbounds
  have hne : S ≠ 0 := by
    rintro rfl
    rw [hvalue, Nat.cast_zero, zero_mul] at hpos
    exact lt_irrefl _ hpos
  have hlog : S.log2 < 53 := (Nat.log2_lt hne).2 hbounds.1
  have hnormal : S.log2 = 52 ∨ E = -1074 := by
    rcases hbounds.2 with hbig | hsmall
    · have := (Nat.le_log2 hne).2 hbig
      omega
    · exact Or.inr hsmall
  obtain ⟨unit, hunit⟩ : ∃ unit, max (E + S.log2 - 10) (-24) = unit := ⟨_, rfl⟩
  simp only [hunit]
  rw [hvalue]
  rw [if_neg (by omega)]
  by_cases hfar : unit - E < 64
  · rw [if_pos hfar]
    obtain ⟨s, hs⟩ : ∃ s : Nat, unit - E = s := ⟨(unit - E).toNat, by omega⟩
    have hlarge : S.log2 = 52 := by omega
    have hlow := Nat.log2_self_le hne
    rw [hlarge] at hlow
    simp only [hs, Int.toNat_natCast]
    have hcut : S / 2 ^ s < 2 ^ 11 := by
      rw [Nat.div_lt_iff_lt_mul (Nat.two_pow_pos s), ← Nat.pow_add]
      exact Nat.lt_of_lt_of_le hbounds.1 (Nat.pow_le_pow_right (by decide) (by omega))
    have hlead : unit = -24 ∨ 2 ^ 10 ≤ S / 2 ^ s := by
      rcases Int.lt_or_eq_of_le (show -24 ≤ unit by omega) with hlt | heq
      · right
        rw [Nat.le_div_iff_mul_le (Nat.two_pow_pos s), ← Nat.pow_add]
        exact Nat.le_trans (Nat.pow_le_pow_right (by decide) (by omega)) hlow
      · exact Or.inl heq.symm
    by_cases hhuge : 6 ≤ unit
    · refine roundsMagnitude_large (hlead.resolve_left (by omega)) hhuge ?_
      have hcast : (2 : ℚ) ^ (52 : ℤ) ≤ S := by exact_mod_cast hlow
      rw [magnitudeValue_infinity16]
      refine le_trans ?_ (mul_le_mul_of_nonneg_right hcast (zpow_pos (by norm_num) _).le)
      rw [← zpow_add₀ (by norm_num)]
      exact hmono (by omega)
    · exact roundsMagnitude_cut (by omega) (by omega) (by omega) (by omega) hcut hlead
  · rw [if_neg hfar]
    refine roundsMagnitude_tiny ?_
    have hcast : (S : ℚ) < 2 ^ (53 : ℤ) := by exact_mod_cast hbounds.1
    have hlt := mul_lt_mul_of_pos_right hcast (zpow_pos (show (0 : ℚ) < 2 by norm_num) E)
    rw [← zpow_add₀ (by norm_num)] at hlt
    have hle : (2 : ℚ) ^ (53 + E) ≤ 2 ^ (-25 : ℤ) := hmono (by omega)
    have hdouble : (2 : ℚ) ^ (-24 : ℤ) = 2 * 2 ^ (-25 : ℤ) := by norm_num
    rw [hone, hdouble]
    linarith

/-! ## Rounding a decimal -/

theorem leastUnit_binary16 : binary16.leastUnit = 2 ^ 1050 * binary64.leastUnit := by
  have hnarrow : binary16.leastUnit = 2 ^ (-24 : ℤ) := rfl
  have hwide : binary64.leastUnit = 2 ^ (-1074 : ℤ) := rfl
  rw [hnarrow, hwide, ← zpow_natCast, ← zpow_add₀ (by norm_num)]
  rfl

theorem infinity16_le : binary16.magnitudeValue binary16.infinity ≤
    binary64.magnitudeValue binary64.infinity := by
  have hunits : binary64.units binary64.infinity = 2 ^ 2098 := by decide +kernel
  rw [magnitudeValue_infinity16, magnitudeValue_binary64, hunits, Nat.cast_pow, Nat.cast_ofNat,
    ← zpow_natCast, ← zpow_add₀ (by norm_num)]
  exact zpow_le_zpow_right₀ (by norm_num) (by norm_num)

theorem midpointsIn_binary64 : MidpointsIn binary16 binary64 :=
  midpointsIn_of_finer leastUnit_binary16 (by decide) (by decide) infinity16_le

theorem convertMagnitude_infinity :
    convertMagnitude binary16 binary64 binary16.infinity = binary64.infinity := by
  rw [convertMagnitude, if_pos (Nat.le_refl _)]

theorem infinity_le_convertMagnitude {h : Nat} (hle : h ≤ binary16.infinity) :
    binary64.infinity ≤ convertMagnitude binary16 binary64 h ↔ h = binary16.infinity := by
  constructor
  · intro hinfinite
    by_contra hne
    have := (convertMagnitude_value leastUnit_binary16 (by decide) infinity16_le
      (Nat.lt_of_le_of_ne hle hne)).2
    omega
  · rintro rfl
    rw [convertMagnitude_infinity]

theorem roundsTo_infinity16 {x : ℚ} {a : Nat} (hx : binary64.RoundsTo x a)
    (hv : binary16.magnitudeValue binary16.infinity ≤ binary64.magnitudeValue a) :
    binary16.RoundsTo x binary16.infinity := by
  refine hx.again midpointsIn_binary64 (roundsTo_infinity hv) fun b hb heq => ?_
  have hle := binary16.magnitudeValue_strictMono.monotone hb
  have hless := binary16.magnitudeValue_strictMono (Nat.lt_succ_self b)
  linarith

theorem coefficientDigits_le_text (d : NormalizedDecimal) :
    d.coefficientDigits.length ≤ d.text.length := by
  unfold NormalizedDecimal.coefficientDigits NormalizedDecimal.fractionDigits
    NormalizedDecimal.text
  cases d.fraction with
  | none => simp
  | some digits =>
      simp [fractionText]
      omega

/-- An exponent is no larger than the digits and the size of the value allow. -/
theorem exponentMagnitude_le (d : NormalizedDecimal) (hlow : 2 ^ (-26 : ℤ) < d.value)
    (hhigh : d.value ≤ 2 ^ (16 : ℤ)) : d.exponentMagnitude ≤ d.text.length + 8 := by
  have hten : ∀ {m n : Int}, (10 : ℚ) ^ m < 10 ^ n → m < n :=
    fun h => (zpow_lt_zpow_iff_right₀ (by norm_num)).1 h
  have hscale : (0 : ℚ) < 10 ^ (d.exponentValue - d.fractionDigits.length) :=
    zpow_pos (by norm_num) _
  have hdigits : d.coefficient < 10 ^ d.coefficientDigits.length :=
    ofDigitChars_lt d.isDigits_coefficientDigits.isDigit
  have hcast : (d.coefficient : ℚ) < 10 ^ (d.coefficientDigits.length : ℤ) := by
    exact_mod_cast hdigits
  have hpos : 1 ≤ d.coefficient := by
    by_contra hzero
    have hnone : d.coefficient = 0 := by omega
    rw [NormalizedDecimal.value, hnone, Nat.cast_zero, zero_mul] at hlow
    exact absurd hlow (not_lt.2 (zpow_pos (by norm_num) _).le)
  have hone : (1 : ℚ) ≤ d.coefficient := by exact_mod_cast hpos
  have hsum : d.fractionDigits.length ≤ d.coefficientDigits.length := by
    rw [NormalizedDecimal.coefficientDigits, List.length_append]
    omega
  have htext := coefficientDigits_le_text d
  rw [NormalizedDecimal.value] at hlow hhigh
  have habove : d.exponentValue - d.fractionDigits.length < 5 := by
    refine hten (lt_of_le_of_lt ?_ (lt_of_le_of_lt hhigh (by norm_num)))
    exact le_mul_of_one_le_left hscale.le hone
  have hbelow : -8 < (d.coefficientDigits.length : ℤ) +
      (d.exponentValue - d.fractionDigits.length) := by
    refine hten (lt_of_lt_of_le (show (10 : ℚ) ^ (-8 : ℤ) < 2 ^ (-26 : ℤ) by norm_num) ?_)
    rw [zpow_add₀ (by norm_num)]
    exact (hlow.trans (mul_lt_mul_of_pos_right hcast hscale)).le
  unfold NormalizedDecimal.exponentValue at habove hbelow
  split at habove <;> rename_i hsign
  · rw [if_pos hsign] at hbelow
    omega
  · rw [if_neg hsign] at hbelow
    omega

/-- A decimal whose parse is a midpoint lies in the range of binary16. -/
theorem midpoint_range {x : ℚ} {a b : Nat} (hx : binary64.RoundsTo x a)
    (hb : b + 1 ≤ binary16.infinity)
    (hmid : 2 * binary64.magnitudeValue a =
      binary16.magnitudeValue b + binary16.magnitudeValue (b + 1)) :
    binary16.magnitudeValue b < x ∧ x < binary16.magnitudeValue (b + 1) ∧ 2 ^ (-26 : ℤ) < x := by
  have hless := binary16.magnitudeValue_strictMono (Nat.lt_succ_self b)
  have hexists := exists_magnitudeValue_eq leastUnit_binary16 (show 10 ≤ 52 by decide)
  have hfinite := infinity16_le
  have htop := binary16.magnitudeValue_strictMono.monotone hb
  have hbound : ∀ {c}, binary64.magnitudeValue c ≤ binary64.magnitudeValue binary64.infinity →
      c ≤ binary64.infinity := fun h => binary64.magnitudeValue_strictMono.le_iff_le.1 h
  obtain ⟨c, hc⟩ := hexists b
  obtain ⟨c', hc'⟩ := hexists (b + 1)
  have hone : binary16.magnitudeValue 1 = 2 ^ (-24 : ℤ) := by
    rw [magnitudeValue_binary16, binary16.units_subnormal (show 1 < 2 ^ 10 by decide),
      Nat.cast_one, one_mul]
  have hleast := binary16.magnitudeValue_strictMono.monotone (show 1 ≤ b + 1 by omega)
  have hnonneg := binary16.magnitudeValue_nonneg b
  obtain ⟨hquarter, hsmall⟩ := scalePow2_value (q := 1) (-26) (by decide) (by decide)
    (by decide) (by decide)
  refine ⟨?_, ?_, ?_⟩
  · rw [← hc]
    exact hx.gt_of_gt (hbound (by linarith)) (by linarith)
  · rw [← hc']
    exact hx.lt_of_lt (hbound (by linarith)) (by linarith)
  · have hdouble : (2 : ℚ) ^ (-24 : ℤ) = 4 * 2 ^ (-26 : ℤ) := by norm_num
    have hvalue : binary64.magnitudeValue (scalePow2 1 (-26)) = 2 ^ (-26 : ℤ) := by
      rw [hquarter, Nat.cast_one, one_mul]
    have hpositive : (0 : ℚ) < 2 ^ (-26 : ℤ) := zpow_pos (by norm_num) _
    rw [← hvalue]
    refine hx.gt_of_gt hsmall.le ?_
    rw [hvalue]
    linarith

/-- What rounding a decimal comes to, given the magnitude it is rounded to. -/
def Rounded (x : ℚ) (negative : Bool) (answer : Option Nat) : Prop :=
  ∃ h, binary16.RoundsTo x h ∧ answer = if h = binary16.infinity then none
    else some (binary64.pattern negative (convertMagnitude binary16 binary64 h))

theorem rounded_of_convert {x : ℚ} {h value : Nat} (negative : Bool)
    (hrounds : binary16.RoundsTo x h) (hvalue : value = convertMagnitude binary16 binary64 h) :
    Rounded x negative
      (if binary64.infinity ≤ value then none else some (binary64.pattern negative value)) := by
  refine ⟨h, hrounds, ?_⟩
  rw [hvalue]
  simp only [infinity_le_convertMagnitude hrounds.le_infinity]

theorem head_of_text (d : NormalizedDecimal) :
    ∃ c rest, c.isDigit = true ∧ d.text = c :: rest := by
  cases hint : d.integer with
  | nil => exact absurd hint d.integer_ok.ne_nil
  | cons c rest =>
      refine ⟨c, rest ++ fractionText d.fraction ++ exponentText d.exponent, ?_, ?_⟩
      · exact d.integer_ok.isDigit c (by rw [hint]; exact List.mem_cons_self)
      · rw [NormalizedDecimal.text, hint]
        rfl

/-- The authored digits decide where the parse ended on a midpoint. -/
theorem settleMidpoint_rounds (d : NormalizedDecimal) (hlen : d.text.length ≤ numericInputMax)
    {a : Nat} (hx : binary64.RoundsTo d.value a) {rounding : F16MagnitudeRounding}
    (hspec : RoundsMagnitude (binary64.magnitudeValue a) rounding) :
    ∃ h, binary16.RoundsTo d.value h ∧
      settleMidpoint d.text rounding = convertMagnitude binary16 binary64 h := by
  obtain ⟨h, hrounds, hvalue⟩ := hspec.value
  unfold settleMidpoint
  cases hmidpoint : rounding.midpoint with
  | none => exact ⟨h, hx.again midpointsIn_binary64 hrounds (hspec.plain hmidpoint), hvalue⟩
  | some m =>
      simp only
      rcases hspec.midpoint m hmidpoint with ⟨hlarge, hbelow, habove⟩ | hmid
      · have hsame := hrounds.unique (roundsTo_infinity hlarge)
        refine ⟨_, roundsTo_infinity16 hx hlarge, ?_⟩
        rw [convertMagnitude_infinity]
        split
        · exact hbelow
        · exact habove
        · rw [hvalue, hsame, convertMagnitude_infinity]
      · obtain ⟨b, hb, hdouble, hbelow, habove, hpos, hexact⟩ := hmid
        obtain ⟨hlow, hhigh, hsmall⟩ := midpoint_range hx hb hdouble
        have htop := binary16.magnitudeValue_strictMono.monotone hb
        rw [magnitudeValue_infinity16] at htop
        have hexponent := exponentMagnitude_le d hsmall (hhigh.le.trans htop)
        have hfits : d.exponentMagnitude ≤ 2 ^ 63 - 1 := by
          unfold numericInputMax at hlen
          omega
        rw [compareDecimalMagnitude_eq d hfits hpos, hexact]
        rcases lt_trichotomy d.value (binary64.magnitudeValue a) with hlt | heq | hgt
        · rw [(cmp_eq_lt_iff _ _).2 hlt]
          exact ⟨b, roundsTo_lower hb hlow.le (.inl (by linarith)), hbelow⟩
        · rw [(cmp_eq_eq_iff _ _).2 heq]
          exact ⟨h, heq ▸ hrounds, hvalue⟩
        · rw [(cmp_eq_gt_iff _ _).2 hgt]
          exact ⟨b + 1, roundsTo_upper hb hhigh.le (.inl (by linarith)), habove⟩

/-- The decimal is rounded to binary16 as if there were no `f64` in between. -/
theorem decimalToF16_rounds (d : NormalizedDecimal) (hlen : d.text.length ≤ numericInputMax)
    (negative : Bool) : Rounded d.value negative (decimalToF16 d.text negative) := by
  have hnonneg : 0 ≤ d.value := mul_nonneg (Nat.cast_nonneg _) (zpow_pos (by norm_num) _).le
  have hfirst : ¬(d.text.head? = some '-' ∨ d.text.head? = some '+') := by
    obtain ⟨c, rest, hc, htext⟩ := head_of_text d
    rw [htext, List.head?_cons]
    rintro (heq | heq)
    · exact ne_of_isDigit hc rfl (Option.some.inj heq)
    · exact ne_of_isDigit hc rfl (Option.some.inj heq)
  have hx : binary64.RoundsTo d.value (parseFloat binary64 d.text) := by
    rw [parseFloat, decimalValue_text]
    exact nearestMagnitude_rounds hnonneg
  simp only [decimalToF16]
  rw [if_neg hfirst]
  generalize parseFloat binary64 d.text = a at hx
  by_cases hinfinite : binary64.infinity ≤ a
  · rw [if_pos hinfinite]
    refine ⟨binary16.infinity, roundsTo_infinity16 hx ?_, (if_pos rfl).symm⟩
    exact le_trans infinity16_le (binary64.magnitudeValue_strictMono.monotone hinfinite)
  · rw [if_neg hinfinite]
    have hspec := roundFiniteMagnitudeToF16_spec (Nat.lt_of_not_le hinfinite)
    obtain ⟨h, hrounds, hvalue⟩ := settleMidpoint_rounds d hlen hx hspec
    exact rounded_of_convert negative hrounds hvalue

theorem roundF64ToF16_rounds {value : Nat} (hfinite : binary64.IsFinite value) :
    ∃ h, binary16.RoundsTo |binary64.value value| h ∧
      roundF64ToF16 value = binary64.pattern (binary64.negative value)
        (convertMagnitude binary16 binary64 h) := by
  obtain ⟨h, hrounds, hvalue⟩ := (roundFiniteMagnitudeToF16_spec hfinite).value
  refine ⟨h, ?_, ?_⟩
  · rw [binary64.abs_value]
    exact hrounds
  · rw [roundF64ToF16, if_neg (Nat.not_le.2 hfinite), hvalue]

theorem length_le_byteLength (text : List Char) : text.length ≤ byteLength text := by
  induction text with
  | nil => exact Nat.le_refl _
  | cons c rest ih =>
      have hcons : byteLength (c :: rest) = c.utf8Size + byteLength rest := List.sum_cons
      have hpos := c.utf8Size_pos
      rw [hcons, List.length_cons]
      omega

theorem parsed_described {source : List Char} {parsed : ParsedNumericLiteral}
    (h : parseNumericLiteral source = .ok parsed) :
    ∃ d : NormalizedDecimal, d.text = parsed.normalizedText ∧ parsed = d.described ∧
      byteLength d.text ≤ numericInputMax := by
  have hlength : byteLength source ≤ numericInputMax := by
    by_contra hlt
    rw [parseNumericLiteral_overflow (Nat.lt_of_not_le hlt)] at h
    cases h
  obtain ⟨s, hs, hparsed⟩ := parseNumericLiteral_inv h
  have hnormal := byteLength_unseparated s.text
  rw [← s.normalized_text, hs] at hnormal
  exact ⟨s.normalized, by rw [hparsed]; rfl, hparsed, Nat.le_trans hnormal hlength⟩

/-- A literal is rounded to binary16 once, whatever its length and exponent. -/
theorem f16_literals_round_once {source : List Char} {parsed : ParsedNumericLiteral}
    (h : parseNumericLiteral source = .ok parsed) (negative : Bool) :
    ∃ d : NormalizedDecimal, d.text = parsed.normalizedText ∧ parsed = d.described ∧
      Rounded d.value negative (decimalToF16 parsed.normalizedText negative) := by
  obtain ⟨d, htext, hparsed, hlen⟩ := parsed_described h
  refine ⟨d, htext, hparsed, ?_⟩
  rw [← htext]
  exact decimalToF16_rounds d (Nat.le_trans (length_le_byteLength _) hlen) negative

/-- A hair above the midpoint of 1 and its successor: once rounded up, twice rounded down. -/
theorem f16_literals_round_once_above_midpoint :
    ∃ parsed, parseNumericLiteral "1.00048828125000000000000000001".toList = .ok parsed ∧
      ∃ d : NormalizedDecimal, d.text = parsed.normalizedText ∧
        Rounded d.value true (decimalToF16 parsed.normalizedText true) := by
  have hparsed : ∃ parsed, parseNumericLiteral "1.00048828125000000000000000001".toList =
      .ok parsed := ⟨_, rfl⟩
  obtain ⟨parsed, hparsed⟩ := hparsed
  obtain ⟨d, htext, -, hrounded⟩ := f16_literals_round_once hparsed true
  exact ⟨parsed, hparsed, d, htext, hrounded⟩

end Moth.Lexical
