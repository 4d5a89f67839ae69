import Moth.Wasm.Binary16Exec

/-!
# Narrowing rounds to nearest, ties to even

Counted in the least subnormal of binary16 a finite F32 is its significand cut
some bits above its end, and the cut is where the code shifts. Below the cuts
the value is nearer to zero than to the least subnormal; above them it is past
the largest finite binade.
-/

namespace Moth.Wasm.Binary16

open Moth.Lib Moth.Lib.Wasm Moth.Lib.BitFields BinaryFormat

variable {x : BitVec 32}

/-! ## The fields of an F32 -/

theorem toNat_exponentOf (x : BitVec 32) :
    (exponentOf x).toNat = binary32.magnitude x.toNat / 2 ^ 23 := by
  have hmagnitude : binary32.magnitude x.toNat = x.toNat % 2 ^ 31 := rfl
  rw [exponentOf, toNat_and_low (k := 8) rfl, toNat_shiftRight, hmagnitude]
  omega

theorem toNat_significandOf (x : BitVec 32) :
    (significandOf x).toNat = 2 ^ 23 + binary32.magnitude x.toNat % 2 ^ 23 := by
  have hmagnitude : binary32.magnitude x.toNat = x.toNat % 2 ^ 31 := rfl
  have hfraction : (x &&& f32FractionMask).toNat = x.toNat % 2 ^ 23 := toNat_and_low rfl
  rw [significandOf, BitVec.or_comm, toNat_or (k := 23) (a := 1) rfl (by omega), hfraction,
    hmagnitude, Nat.one_mul]
  omega

theorem toNat_signOf (x : BitVec 32) :
    (signOf x).toNat = if binary32.negative x.toNat then 2 ^ 15 else 0 := by
  have hhalf : (x >>> 16).toNat = x.toNat / 2 ^ 16 := toNat_shiftRight x 16
  have hx := x.isLt
  have htop : 2 ^ 15 ≤ x.toNat / 2 ^ 16 ↔ 2 ^ 31 ≤ x.toNat := by omega
  rw [signOf, toNat_and_bit (k := 15) rfl (by omega), hhalf, negative]
  simp only [htop, decide_eq_true_eq]
  rfl

theorem signOf_or {word : BitVec 32} (hword : word.toNat < 2 ^ 15) :
    signOf x ||| word =
      BitVec.ofNat 32 (binary16.pattern (binary32.negative x.toNat) word.toNat) := by
  have hweight : (signOf x).toNat = (if binary32.negative x.toNat then 1 else 0) * 2 ^ 15 := by
    rw [toNat_signOf]
    split <;> rfl
  have hpattern : (signOf x ||| word).toNat =
      binary16.pattern (binary32.negative x.toNat) word.toNat := by
    rw [toNat_or hweight hword, pattern, ← hweight, toNat_signOf]
    rfl
  rw [← hpattern, BitVec.ofNat_toNat, BitVec.setWidth_eq]

/-! ## The rounded quotient -/

theorem toNat_rounded {S k : BitVec 32} (hS : S.toNat < 2 ^ 24) (hk : 0 < k.toNat)
    (hk' : k.toNat ≤ 24) :
    (rounded S k).toNat =
      if roundsUp (S.toNat / 2 ^ k.toNat) (S.toNat % 2 ^ k.toNat) (2 ^ (k.toNat - 1))
      then S.toNat / 2 ^ k.toNat + 1 else S.toNat / 2 ^ k.toNat := by
  have hshift : k.toNat % 32 = k.toNat := Nat.mod_eq_of_lt (by omega)
  have hpred : (k - 1).toNat = k.toNat - 1 := BitVec.toNat_sub_of_le hk
  have hpow : ∀ j ≤ 24, ((1 : BitVec 32) <<< j).toNat = 2 ^ j := by
    intro j hj
    have hone : (1 : BitVec 32).toNat = 1 := rfl
    have hlt : 2 ^ j < 2 ^ 32 := Nat.pow_lt_pow_right (by decide) (by omega)
    rw [toNat_shiftLeft (by rw [hone, Nat.one_mul]; exact hlt), hone, Nat.one_mul]
  have hquotient : (S >>> k.toNat).toNat = S.toNat / 2 ^ k.toNat := toNat_shiftRight S _
  have hmask : ((1 : BitVec 32) <<< k.toNat - 1).toNat = 2 ^ k.toNat - 1 := by
    have hle : (1 : BitVec 32) ≤ (1 : BitVec 32) <<< k.toNat := by
      rw [BitVec.le_def, hpow _ hk']
      exact Nat.two_pow_pos _
    rw [BitVec.toNat_sub_of_le hle, hpow _ hk']
    rfl
  have hremainder : (((1 : BitVec 32) <<< k.toNat - 1) &&& S).toNat = S.toNat % 2 ^ k.toNat := by
    rw [BitVec.and_comm, toNat_and_low hmask]
  have hhalf : ((1 : BitVec 32) <<< (k.toNat - 1)).toNat = 2 ^ (k.toNat - 1) := hpow _ (by omega)
  have hlt : S.toNat / 2 ^ k.toNat < 2 ^ 24 := Nat.lt_of_le_of_lt (Nat.div_le_self _ _) hS
  have hup : roundsUpBits (S >>> k.toNat) (((1 : BitVec 32) <<< k.toNat - 1) &&& S)
      ((1 : BitVec 32) <<< (k.toNat - 1)) =
      roundsUp (S.toNat / 2 ^ k.toNat) (S.toNat % 2 ^ k.toNat) (2 ^ (k.toNat - 1)) := by
    have hequal : ∀ a b : BitVec 32, (a == b) = decide (a.toNat = b.toNat) := by
      intro a b
      rw [Bool.beq_eq_decide_eq]
      exact decide_eq_decide.2 BitVec.toNat_inj.symm
    rw [roundsUpBits, roundsUp, BitVec.ult, hequal, hquotient, hremainder, hhalf]
  rw [rounded, hpred, hshift, Nat.mod_eq_of_lt (show k.toNat - 1 < 32 by omega), hup]
  split
  · have hone : (1 : BitVec 32).toNat = 1 := rfl
    rw [BitVec.toNat_add, hquotient, hone]
    exact Nat.mod_eq_of_lt (by omega)
  · exact hquotient

/-! ## The value of the cut -/

theorem leastUnit_binary16 : binary16.leastUnit = 2 ^ 125 * binary32.leastUnit := by
  have hnarrow : binary16.leastUnit = 2 ^ (-24 : ℤ) := rfl
  have hwide : binary32.leastUnit = 2 ^ (-149 : ℤ) := rfl
  have hscale : (2 : ℚ) ^ 125 = 2 ^ (125 : ℤ) := (zpow_natCast 2 125).symm
  rw [hnarrow, hwide, hscale, ← zpow_add₀ (by norm_num)]
  rfl

/-- What one unit of the significand counts. -/
def significandUnit (e : Nat) : ℚ := 2 ^ (e - 1) * binary32.leastUnit

theorem significandUnit_pos (e : Nat) : 0 < significandUnit e :=
  mul_pos (by positivity) binary32.leastUnit_pos

theorem magnitudeValue_normal {x : BitVec 32} (he : 0 < (exponentOf x).toNat) :
    binary32.magnitudeValue (binary32.magnitude x.toNat) =
      (significandOf x).toNat * significandUnit (exponentOf x).toNat := by
  have hunits := binary32.units_normal (e := (exponentOf x).toNat)
    (F := binary32.magnitude x.toNat % 2 ^ 23) (Nat.mod_lt _ (by decide)) he
  have hsplit : (exponentOf x).toNat * 2 ^ binary32.fractionBits +
      binary32.magnitude x.toNat % 2 ^ 23 = binary32.magnitude x.toNat := by
    rw [toNat_exponentOf]
    exact Nat.div_add_mod' _ _
  rw [hsplit] at hunits
  rw [magnitudeValue, hunits, toNat_significandOf, significandUnit]
  push_cast
  exact mul_assoc _ _ _

theorem leastUnit_shift {e k m : Nat} (h : k + (e - 1) = m + 125) :
    (2 : ℚ) ^ m * binary16.leastUnit = 2 ^ k * significandUnit e := by
  rw [leastUnit_binary16, significandUnit, ← mul_assoc, ← mul_assoc, ← pow_add, ← pow_add, h]

theorem magnitudeValue_cut {a q m k e : Nat} (hunits : binary16.units a = q * 2 ^ m)
    (hstep : binary16.step a = 2 ^ m) (h : k + (e - 1) = m + 125) :
    binary16.magnitudeValue a = q * 2 ^ k * significandUnit e ∧
      binary16.magnitudeValue (a + 1) = (q + 1) * 2 ^ k * significandUnit e := by
  have hshift := leastUnit_shift h
  refine ⟨?_, ?_⟩
  · rw [magnitudeValue, hunits]
    push_cast
    rw [mul_assoc, hshift, mul_assoc]
  · rw [magnitudeValue, binary16.units_succ, hunits, hstep]
    push_cast
    rw [← add_one_mul, mul_assoc, hshift, mul_assoc]

/-! ## The exits -/

theorem infinity_binary16 : binary16.infinity = 31744 := rfl

/-- The magnitude that a normal result has before it is rounded. -/
def normalCut (x : BitVec 32) : Nat :=
  ((exponentOf x).toNat - 112) * 1024 + ((significandOf x).toNat / 2 ^ 13 - 1024)

theorem significandOf_bounds (x : BitVec 32) :
    2 ^ 23 ≤ (significandOf x).toNat ∧ (significandOf x).toNat < 2 ^ 24 := by
  rw [toNat_significandOf]
  omega

theorem units_normalCut (he : 113 ≤ (exponentOf x).toNat) : binary16.units (normalCut x) =
    (significandOf x).toNat / 2 ^ 13 * 2 ^ ((exponentOf x).toNat - 113) := by
  have hbounds := significandOf_bounds x
  have hfraction : (significandOf x).toNat / 2 ^ 13 - 1024 < 2 ^ binary16.fractionBits := by
    show _ < 1024
    omega
  have hlead : 2 ^ binary16.fractionBits + ((significandOf x).toNat / 2 ^ 13 - 1024) =
      (significandOf x).toNat / 2 ^ 13 := by
    show 1024 + _ = _
    omega
  have hcut : normalCut x = ((exponentOf x).toNat - 112) * 2 ^ binary16.fractionBits +
      ((significandOf x).toNat / 2 ^ 13 - 1024) := rfl
  rw [hcut, binary16.units_normal hfraction (by omega), hlead, Nat.sub_sub]

variable (x) in
theorem step_normalCut (he : 113 ≤ (exponentOf x).toNat) :
    binary16.step (normalCut x) = 2 ^ ((exponentOf x).toNat - 113) := by
  have hbounds := significandOf_bounds x
  have hfield : normalCut x / 2 ^ binary16.fractionBits = (exponentOf x).toNat - 112 := by
    show normalCut x / 1024 = _
    unfold normalCut
    omega
  rw [step, hfield, Nat.sub_sub]

/-- What the code's carry comes to: the fields of the rounded magnitude. -/
theorem carried_fields {q h : Nat} (he : 113 ≤ (exponentOf x).toNat)
    (he' : (exponentOf x).toNat ≤ 142) (hq : (normalQuotient x).toNat = q)
    (hlow : 1024 ≤ q) (hhigh : q ≤ 2048)
    (hh : h = ((exponentOf x).toNat - 112) * 1024 + (q - 1024)) :
    (carriedExponent x (normalQuotient x)).toNat = h / 1024 ∧
      (carriedQuotient (normalQuotient x) - 1024).toNat = h % 1024 := by
  have hexponent : (exponentOf x - 112).toNat = (exponentOf x).toNat - 112 :=
    BitVec.toNat_sub_of_le (show 112 ≤ (exponentOf x).toNat by omega)
  unfold carriedExponent carriedQuotient
  cases hcarries : carries (normalQuotient x) with
  | true =>
      have hle : 2048 ≤ (normalQuotient x).toNat := of_decide_eq_true hcarries
      have hone : (exponentOf x - 112 + 1).toNat = (exponentOf x).toNat - 112 + 1 := by
        rw [BitVec.toNat_add, hexponent]
        exact Nat.mod_eq_of_lt (show _ + 1 < 2 ^ 32 by omega)
      rw [if_pos rfl, if_pos rfl, hone]
      refine ⟨by omega, ?_⟩
      show 0 = _
      omega
  | false =>
      have hlt : ¬2048 ≤ (normalQuotient x).toNat := of_decide_eq_false hcarries
      have hsub : (normalQuotient x - 1024).toNat = (normalQuotient x).toNat - 1024 :=
        BitVec.toNat_sub_of_le (show 1024 ≤ (normalQuotient x).toNat by omega)
      rw [if_neg Bool.false_ne_true, if_neg Bool.false_ne_true, hexponent, hsub]
      omega

theorem narrowed_normal (he : 113 ≤ (exponentOf x).toNat) (he' : (exponentOf x).toNat ≤ 142) :
    ∃ h, binary16.RoundsTo (binary32.magnitudeValue (binary32.magnitude x.toNat)) h ∧
      (if BitVec.ule 31 (carriedExponent x (normalQuotient x)) then none
        else some (packed x (normalQuotient x))) =
        if h = binary16.infinity then none
        else some (BitVec.ofNat 32 (binary16.pattern (binary32.negative x.toNat) h)) := by
  have hbounds := significandOf_bounds x
  have hk : (13 : BitVec 32).toNat = 13 := rfl
  have hquotient := toNat_rounded (S := significandOf x) (k := 13) hbounds.2 (by decide)
    (by decide)
  rw [hk, ← normalQuotient] at hquotient
  have hcut := magnitudeValue_cut (a := normalCut x) (q := (significandOf x).toNat / 2 ^ 13)
    (m := (exponentOf x).toNat - 113) (k := 13) (e := (exponentOf x).toNat)
    (units_normalCut he) (step_normalCut x he) (by omega)
  have hrounds := roundsTo_shift (f := binary16) (S := (significandOf x).toNat) (s := 13)
    (by decide) (significandUnit_pos (exponentOf x).toNat) (b := normalCut x)
    (by rw [infinity_binary16]; unfold normalCut; omega) (by unfold normalCut; omega)
    hcut.1 hcut.2
  rw [← magnitudeValue_normal (show 0 < (exponentOf x).toNat by omega)] at hrounds
  refine ⟨_, hrounds, ?_⟩
  generalize hup : roundsUp ((significandOf x).toNat / 2 ^ 13) ((significandOf x).toNat % 2 ^ 13)
    (2 ^ (13 - 1)) = up at hquotient
  generalize hh : (if up then normalCut x + 1 else normalCut x) = h
  generalize hq : (if up then (significandOf x).toNat / 2 ^ 13 + 1
    else (significandOf x).toNat / 2 ^ 13) = q at hquotient
  have hmagnitude : h = ((exponentOf x).toNat - 112) * 1024 + (q - 1024) ∧ 1024 ≤ q ∧
      q ≤ 2048 := by
    rw [← hh, ← hq]
    unfold normalCut
    cases up with
    | true =>
        rw [if_pos rfl, if_pos rfl]
        omega
    | false =>
        rw [if_neg Bool.false_ne_true, if_neg Bool.false_ne_true]
        omega
  obtain ⟨hexponent, hfraction⟩ := carried_fields he he' hquotient hmagnitude.2.1 hmagnitude.2.2
    hmagnitude.1
  have htrap : BitVec.ule 31 (carriedExponent x (normalQuotient x)) =
      decide (h = binary16.infinity) := by
    rw [BitVec.ule, hexponent, infinity_binary16, decide_eq_decide]
    show 31 ≤ _ ↔ _
    omega
  rw [htrap]
  by_cases hinfinity : h = binary16.infinity
  · rw [decide_eq_true hinfinity, if_pos rfl, if_pos hinfinity]
  · rw [decide_eq_false hinfinity, if_neg Bool.false_ne_true, if_neg hinfinity]
    rw [infinity_binary16] at hinfinity
    have hshifted : (carriedExponent x (normalQuotient x) <<< 10).toNat = h / 1024 * 2 ^ 10 := by
      rw [toNat_shiftLeft (by rw [hexponent]; omega), hexponent]
    have hword : (carriedExponent x (normalQuotient x) <<< 10 |||
        (carriedQuotient (normalQuotient x) - 1024)).toNat = h := by
      rw [toNat_or hshifted (by omega), hfraction]
      omega
    rw [packed, BitVec.or_assoc, signOf_or (by omega), hword]

theorem narrowed_subnormal (he : 102 ≤ (exponentOf x).toNat) (he' : (exponentOf x).toNat < 113) :
    ∃ h, binary16.RoundsTo (binary32.magnitudeValue (binary32.magnitude x.toNat)) h ∧
      some (signOf x ||| rounded (significandOf x) (126 - exponentOf x)) =
        if h = binary16.infinity then none
        else some (BitVec.ofNat 32 (binary16.pattern (binary32.negative x.toNat) h)) := by
  have hbounds := significandOf_bounds x
  have hk : (126 - exponentOf x).toNat = 126 - (exponentOf x).toNat :=
    BitVec.toNat_sub_of_le (show (exponentOf x).toNat ≤ 126 by omega)
  have hquotient := toNat_rounded (S := significandOf x) (k := 126 - exponentOf x) hbounds.2
    (by omega) (by omega)
  generalize hcount : 126 - (exponentOf x).toNat = k at hk
  rw [hk] at hquotient
  have hsmall : (significandOf x).toNat / 2 ^ k < 1024 := by
    have hpow : 2 ^ 14 ≤ 2 ^ k := Nat.pow_le_pow_right (by decide) (by omega)
    apply Nat.div_lt_of_lt_mul
    omega
  have hcut := magnitudeValue_cut (a := (significandOf x).toNat / 2 ^ k)
    (q := (significandOf x).toNat / 2 ^ k) (m := 0) (k := k) (e := (exponentOf x).toNat)
    (by rw [binary16.units_subnormal hsmall, Nat.pow_zero, Nat.mul_one])
    (by
      have hfield : (significandOf x).toNat / 2 ^ k / 2 ^ binary16.fractionBits = 0 :=
        Nat.div_eq_of_lt hsmall
      rw [step, hfield])
    (by omega)
  have hrounds := roundsTo_shift (f := binary16) (S := (significandOf x).toNat) (s := k)
    (by omega) (significandUnit_pos (exponentOf x).toNat) (by rw [infinity_binary16]; omega) rfl
    hcut.1 hcut.2
  rw [← magnitudeValue_normal (show 0 < (exponentOf x).toNat by omega)] at hrounds
  refine ⟨_, hrounds, ?_⟩
  rw [← hquotient]
  have hle : (rounded (significandOf x) (126 - exponentOf x)).toNat ≤ 1024 := by
    rw [hquotient]
    split <;> omega
  rw [if_neg (by rw [infinity_binary16]; omega), signOf_or (by omega)]

/-- Less than half the least subnormal. -/
theorem roundsTo_zero (he : (exponentOf x).toNat < 102) :
    binary16.RoundsTo (binary32.magnitudeValue (binary32.magnitude x.toNat)) 0 := by
  have hunits : binary32.units (binary32.magnitude x.toNat) < 2 ^ 124 := by
    have hlt : binary32.magnitude x.toNat < 102 * 2 ^ 23 := by
      rw [toNat_exponentOf] at he
      omega
    exact Nat.lt_of_lt_of_le (binary32.units_strictMono hlt) (by decide)
  have hone : binary16.magnitudeValue 1 = 2 ^ 125 * binary32.leastUnit := by
    rw [magnitudeValue, binary16.units_subnormal (show 1 < 2 ^ 10 by decide), Nat.cast_one, one_mul,
      leastUnit_binary16]
  have hcast : (binary32.units (binary32.magnitude x.toNat) : ℚ) < 2 ^ 124 := by
    exact_mod_cast hunits
  have hvalue : binary32.magnitudeValue (binary32.magnitude x.toNat) <
      2 ^ 124 * binary32.leastUnit := mul_lt_mul_of_pos_right hcast binary32.leastUnit_pos
  have hhalf : (2 : ℚ) ^ 125 * binary32.leastUnit = 2 * (2 ^ 124 * binary32.leastUnit) := by ring
  apply roundsTo_lower (b := 0) (by rw [infinity_binary16]; omega)
  · rw [binary16.magnitudeValue_zero]
    exact binary32.magnitudeValue_nonneg _
  · left
    rw [binary16.magnitudeValue_zero, hone, hhalf]
    linarith

theorem roundsTo_overflow (he : 142 < (exponentOf x).toNat) :
    binary16.RoundsTo (binary32.magnitudeValue (binary32.magnitude x.toNat))
      binary16.infinity := by
  apply roundsTo_infinity
  have hlimit : binary32.magnitudeValue (143 * 2 ^ 23) =
      binary16.magnitudeValue binary16.infinity := by
    have hwide : binary32.units (143 * 2 ^ 23) = 2 ^ 165 := by decide
    have hnarrow : binary16.units binary16.infinity = 2 ^ 40 := by decide
    rw [magnitudeValue, magnitudeValue, hwide, hnarrow, leastUnit_binary16]
    push_cast
    ring
  rw [← hlimit]
  apply binary32.magnitudeValue_strictMono.monotone
  rw [toNat_exponentOf] at he
  omega

/-- Narrowing a finite F32 rounds it, and traps where it rounds to infinity. -/
theorem narrowed_rounds (hfinite : binary32.IsFinite x.toNat) :
    ∃ h, binary16.RoundsTo |binary32.value x.toNat| h ∧
      narrowed x = if h = binary16.infinity then none
        else some (BitVec.ofNat 32 (binary16.pattern (binary32.negative x.toNat) h)) := by
  have hexponent : (exponentOf x).toNat < 255 := by
    rw [toNat_exponentOf]
    exact Nat.div_lt_of_lt_mul hfinite
  have hnumber : (exponentOf x == 0xff) = false := by
    apply beq_eq_false_iff_ne.2
    intro heq
    rw [heq] at hexponent
    exact absurd hexponent (by decide)
  rw [binary32.abs_value, narrowed, hnumber, Bool.false_or]
  split
  · next hbig =>
      exact ⟨_, roundsTo_overflow (of_decide_eq_true hbig), (if_pos rfl).symm⟩
  next hbig =>
  have hle : (exponentOf x).toNat ≤ 142 := Nat.le_of_not_lt fun hlt => hbig (decide_eq_true hlt)
  split
  · next hzero =>
      refine ⟨0, roundsTo_zero (of_decide_eq_true hzero), ?_⟩
      rw [if_neg (by decide)]
      have hword := @signOf_or x 0#32 (by decide)
      rw [BitVec.or_zero] at hword
      exact congrArg some hword
  next hzero =>
  have hge : 102 ≤ (exponentOf x).toNat := Nat.le_of_not_lt fun hlt => hzero (decide_eq_true hlt)
  split
  · next hnormal =>
      exact narrowed_normal (of_decide_eq_true hnormal) hle
  · next hnormal =>
      exact narrowed_subnormal hge (Nat.lt_of_not_le fun hle => hnormal (decide_eq_true hle))

theorem narrowed_of_not_finite (hfinite : ¬binary32.IsFinite x.toNat) : narrowed x = none := by
  have hexponent : (exponentOf x).toNat = 255 := by
    have hlt := binary32.infinity_lt_signWeight
    have hmagnitude := magnitude_lt (f := binary32) x.toNat
    have hle : 2139095040 ≤ binary32.magnitude x.toNat := Nat.le_of_not_lt hfinite
    have hweight : binary32.signWeight = 2147483648 := rfl
    rw [toNat_exponentOf]
    omega
  have hnumber : exponentOf x = 0xff := BitVec.eq_of_toNat_eq hexponent
  rw [narrowed, hnumber]
  rfl

end Moth.Wasm.Binary16
