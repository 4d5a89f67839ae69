import Moth.Lexical.NumericGrammar

/-!
# The facts of a normalized spelling

`NormalizedDecimalFacts` of `numeric/decimal.rs` reads a normalized text apart
again: at the exponent mark, at the decimal point, and backwards over the
zeros at its end. On the text of a `NormalizedDecimal` it finds the parts that
the text was made of.
-/

namespace Moth.Lexical

open Moth.Lib

theorem splitOnce_append {c : Char} {l r : List Char} (h : c ∉ l) :
    splitOnce c (l ++ c :: r) = some (l, r) := by
  induction l with
  | nil => simp [splitOnce]
  | cons x xs ih =>
      simp only [List.mem_cons, not_or] at h
      rw [List.cons_append, splitOnce, if_neg (Ne.symm h.1), ih h.2]
      rfl

theorem splitOnce_none {c : Char} {l : List Char} (h : c ∉ l) : splitOnce c l = none := by
  induction l with
  | nil => rfl
  | cons x xs ih =>
      simp only [List.mem_cons, not_or] at h
      rw [splitOnce, if_neg (Ne.symm h.1), ih h.2]
      rfl

theorem notMem_of_isDigit {l : List Char} (h : ∀ x ∈ l, x.isDigit = true) {c : Char}
    (hc : c.isDigit = false) : c ∉ l :=
  fun hmem => ne_of_isDigit (h c hmem) hc rfl

theorem checkedStep_eq (host : Host) (value digit : ℕ) :
    (host.checkedMul value 10).bind (host.checkedAdd · digit) =
      if 10 * value + digit ≤ host.usizeMax then some (10 * value + digit) else none := by
  unfold Host.checkedMul Host.checkedAdd
  by_cases hmul : value * 10 ≤ host.usizeMax
  · rw [if_pos hmul, Option.bind_some, Nat.mul_comm value 10]
  · rw [if_neg hmul, if_neg (by omega), Option.bind_none]

/-- The checked fold reads the magnitude, or overflows exactly when it does not fit. -/
theorem checkedDecimalUsize_eq (host : Host) {digits : List Char} {value : ℕ}
    (hv : value ≤ host.usizeMax) :
    checkedDecimalUsize host value digits =
      if Nat.ofDigitChars 10 digits value ≤ host.usizeMax then
        some (Nat.ofDigitChars 10 digits value) else none := by
  induction digits generalizing value with
  | nil => simp [checkedDecimalUsize, hv]
  | cons c tail ih =>
      rw [Nat.ofDigitChars_cons, checkedDecimalUsize, checkedStep_eq]
      by_cases hfit : 10 * value + (c.toNat - '0'.toNat) ≤ host.usizeMax
      · rw [if_pos hfit]
        exact ih hfit
      · rw [if_neg hfit]
        have hgrow : 10 * value + (c.toNat - '0'.toNat) ≤
            Nat.ofDigitChars 10 tail (10 * value + (c.toNat - '0'.toNat)) := by
          rw [Nat.ofDigitChars_eq_ofDigitChars_zero]
          have hone : 1 ≤ 10 ^ tail.length := Nat.one_le_pow _ _ (by omega)
          nlinarith
        rw [if_neg (by omega)]

/-- The backward scan splits off the zeros and stops at the first other digit. -/
theorem scanTrailingZeroes_spec {text : List Char} {count : ℕ} {isZero : Bool}
    (h : scanTrailingZeroes text = (count, isZero)) :
    (isZero = true ∧ text = List.replicate count '0') ∨
      (isZero = false ∧ ∃ c rest, c ≠ '0' ∧ text = List.replicate count '0' ++ c :: rest) := by
  induction text generalizing count isZero with
  | nil =>
      simp only [scanTrailingZeroes, Prod.mk.injEq] at h
      obtain ⟨rfl, rfl⟩ := h
      exact .inl ⟨rfl, rfl⟩
  | cons c tail ih =>
      rw [scanTrailingZeroes] at h
      split at h
      · next hc =>
          simp only [Prod.mk.injEq] at h
          obtain ⟨rfl, rfl⟩ := h
          subst hc
          rcases ih rfl with ⟨hz, hall⟩ | ⟨hz, c, rest, hc, hsplit⟩
          · refine .inl ⟨hz, ?_⟩
            rw [List.replicate_succ, ← hall]
          · refine .inr ⟨hz, c, rest, hc, ?_⟩
            rw [List.replicate_succ, List.cons_append, ← hsplit]
      · next hc =>
          simp only [Prod.mk.injEq] at h
          obtain ⟨rfl, rfl⟩ := h
          exact .inr ⟨rfl, c, tail, hc, rfl⟩

namespace NormalizedDecimal

/-- The zeros at the end of the coefficient, and what comes before them. -/
theorem trailingZeroes_split (d : NormalizedDecimal) :
    (d.coefficient = 0 ∧
      (scanTrailingZeroes d.coefficientDigits.reverse).2 = true) ∨
    (∃ t l c, scanTrailingZeroes d.coefficientDigits.reverse = (t, false) ∧
      c.isDigit = true ∧ c ≠ '0' ∧
      d.coefficientDigits = l ++ [c] ++ List.replicate t '0') := by
  rcases hscan : scanTrailingZeroes d.coefficientDigits.reverse with ⟨t, isZero⟩
  rcases scanTrailingZeroes_spec hscan with ⟨rfl, hall⟩ | ⟨rfl, c, rest, hc, hsplit⟩
  · left
    have hdigits : d.coefficientDigits = List.replicate t '0' := by
      rw [← List.reverse_reverse d.coefficientDigits, hall, List.reverse_replicate]
    refine ⟨?_, rfl⟩
    rw [coefficient, hdigits, Nat.ofDigitChars_replicate_zero, mul_zero]
  · right
    have hdigits : d.coefficientDigits = rest.reverse ++ [c] ++ List.replicate t '0' := by
      rw [← List.reverse_reverse d.coefficientDigits, hsplit]
      simp
    refine ⟨t, rest.reverse, c, rfl, ?_, hc, hdigits⟩
    exact d.isDigits_coefficientDigits.isDigit c (by simp [hdigits])

theorem analyzeExponent_eq (host : Host) (d : NormalizedDecimal) :
    NormalizedDecimalFacts.analyzeExponent host
        (d.exponent.map fun parts => exponentSignText parts.1 ++ parts.2) =
      (if d.exponentMagnitude ≤ host.usizeMax then some d.exponentMagnitude else none,
        d.exponentNegative) := by
  have hzero : 0 ≤ host.usizeMax := Nat.zero_le _
  unfold exponentMagnitude exponentNegative
  cases hexp : d.exponent with
  | none => simp [NormalizedDecimalFacts.analyzeExponent]
  | some parts =>
      obtain ⟨sign, digits⟩ := parts
      have hd := d.exponent_ok sign digits hexp
      cases sign with
      | Positive =>
          simp [NormalizedDecimalFacts.analyzeExponent, exponentSignText,
            checkedDecimalUsize_eq host hzero]
      | Negative =>
          simp [NormalizedDecimalFacts.analyzeExponent, exponentSignText,
            checkedDecimalUsize_eq host hzero]
      | None =>
          obtain ⟨hne, hall⟩ := hd
          cases digits with
          | nil => exact absurd rfl hne
          | cons c tail =>
              have hc := hall c (List.mem_cons_self ..)
              have hplus : c ≠ '+' := ne_of_isDigit hc rfl
              have hminus : c ≠ '-' := ne_of_isDigit hc rfl
              simp [NormalizedDecimalFacts.analyzeExponent, exponentSignText, hplus, hminus,
                checkedDecimalUsize_eq host hzero]

theorem splitPoint_text (d : NormalizedDecimal) :
    NormalizedDecimalFacts.splitPoint (d.integer ++ fractionText d.fraction) =
      (d.integer, d.fractionDigits) := by
  have hint : '.' ∉ d.integer := notMem_of_isDigit d.integer_ok.isDigit rfl
  unfold fractionDigits NormalizedDecimalFacts.splitPoint
  cases d.fraction with
  | none => simp [fractionText, splitOnce_none hint]
  | some digits => simp [fractionText, splitOnce_append hint]

theorem splitExponent_text (d : NormalizedDecimal) :
    NormalizedDecimalFacts.splitExponent d.text =
      (d.integer ++ fractionText d.fraction,
        d.exponent.map fun parts => exponentSignText parts.1 ++ parts.2) := by
  have hcoef : 'e' ∉ d.integer ++ fractionText d.fraction := by
    intro hmem
    rcases List.mem_append.1 hmem with h | h
    · exact notMem_of_isDigit d.integer_ok.isDigit rfl h
    · cases hf : d.fraction with
      | none => simp [fractionText, hf] at h
      | some digits =>
          rw [hf, fractionText, List.mem_cons] at h
          rcases h with h | h
          · cases h
          · exact notMem_of_isDigit (d.fraction_ok digits hf).isDigit rfl h
  unfold text NormalizedDecimalFacts.splitExponent
  cases d.exponent with
  | none => simp [exponentText, splitOnce_none hcoef]
  | some parts =>
      rw [exponentText, splitOnce_append hcoef]
      rfl

theorem analyze_text (host : Host) (d : NormalizedDecimal) :
    NormalizedDecimalFacts.analyze host d.text =
      if (scanTrailingZeroes d.coefficientDigits.reverse).2 then
        ⟨d.integer, d.fractionDigits, (scanTrailingZeroes d.coefficientDigits.reverse).1, true,
          some 0, false⟩
      else
        ⟨d.integer, d.fractionDigits, (scanTrailingZeroes d.coefficientDigits.reverse).1, false,
          if d.exponentMagnitude ≤ host.usizeMax then some d.exponentMagnitude else none,
          d.exponentNegative⟩ := by
  unfold NormalizedDecimalFacts.analyze
  have hdigits : d.integer ++ d.fractionDigits = d.coefficientDigits := rfl
  simp only [splitExponent_text, splitPoint_text, analyzeExponent_eq, hdigits]
  rcases scanTrailingZeroes d.coefficientDigits.reverse with ⟨t, isZero⟩
  cases isZero with
  | true => rfl
  | false => rfl

end NormalizedDecimal

end Moth.Lexical
