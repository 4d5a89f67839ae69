import Moth.Wasm.FloatRemainderExec

/-!
# The float remainder helper is exact

A pass of the first loop keeps the remainder of the significands, shifted by
what is left of the exponent difference; a pass of the second keeps the number.
Both loops end: the first counts the difference down, the second brings a
leading bit up by one place.
-/

namespace Moth.Wasm.FloatRemainder

open Moth.Lib Moth.Lib.Wasm Moth.Lib.BitFields BinaryFormat

variable {ι σ : Type} (meaning : ι → (Nat → Value) → σ → HostResult σ) (fuel : Nat)
  {s : State σ} {l r : BitVec 64}

/-! ## The division loop -/

/-- What the division loop comes to: a signed zero, or a remainder to go on with. -/
structure Divides (s : State σ) (o : Outcome σ) (sign : BitVec 64) (total : Nat) : Prop where
  zero : total = 0 → o.Returns ⟨.I64, sign⟩ s.store
  nonzero : total ≠ 0 → ∃ t rem, o = .branch 0 t ∧ s.enter.AgreesOff [remainder, shift] t ∧
    t.locals remainder = ⟨.I64, rem⟩ ∧ rem.toNat = total

theorem Dividing.enter {rem divisor n sign : BitVec 64} (h : Dividing s rem divisor n sign) :
    Dividing s.enter rem divisor n sign := ⟨h.remainder, h.divisor, h.shift, h.sign⟩

theorem Divides.of_step {s s' : State σ} {o : Outcome σ} {sign : BitVec 64} {total total' : Nat}
    (h : Divides s' o sign total') (htotal : total' = total)
    (hagrees : s.enter.AgreesOff [remainder, shift] s') : Divides s o sign total := by
  subst htotal
  refine ⟨?_, ?_⟩
  · intro hzero
    rw [show s.store = s'.store from hagrees.store.symm]
    exact h.zero hzero
  · intro hnonzero
    obtain ⟨t, rem, ho, hmore, hrem, hvalue⟩ := h.nonzero hnonzero
    exact ⟨t, rem, ho, hagrees.enter.trans hmore, hrem, hvalue⟩

theorem mod_step (rem divisor n : Nat) (hn : 0 < n) :
    rem % divisor * 2 * 2 ^ (n - 1) % divisor = rem * 2 ^ n % divisor := by
  obtain ⟨k, rfl⟩ := Nat.exists_eq_succ_of_ne_zero hn.ne'
  rw [Nat.succ_sub_one, Nat.mul_assoc, ← Nat.pow_succ', Nat.mod_mul_mod]

theorem divides_iterate {divisor sign : BitVec 64} (hdivisor : divisor.toNat < 2 ^ 53)
    (outer : List Value) (passes : Nat) :
    ∀ {s : State σ} {rem n : BitVec 64}, Dividing s rem divisor n sign →
      rem.toNat < 2 * divisor.toNat → n.toNat < passes →
      Divides s (iterate (fun t => exec meaning fuel divisionPass t) outer passes s) sign
        (rem.toNat * 2 ^ n.toNat % divisor.toNat) := by
  induction passes with
  | zero =>
      intro s rem n _ _ hn
      exact absurd hn (Nat.not_lt_zero _)
  | succ passes ih =>
      intro s rem n h hrem hn
      have hpass := exec_divisionPass meaning fuel h.enter
      have hreduced := toNat_reduced hrem
      have hlt : rem.toNat % divisor.toNat < divisor.toNat := Nat.mod_lt _ (by omega)
      simp only [iterate]
      rw [hpass]
      by_cases hzero : reduced rem divisor = 0
      · rw [if_pos hzero]
        have hmod : rem.toNat % divisor.toNat = 0 := by
          rw [← hreduced, hzero]
          rfl
        have htotal : rem.toNat * 2 ^ n.toNat % divisor.toNat = 0 := by
          rw [Nat.mul_mod, hmod, Nat.zero_mul, Nat.zero_mod]
        refine ⟨?_, fun hne => absurd htotal hne⟩
        intro _
        exact .push _ _
      · rw [if_neg hzero]
        have hmod : rem.toNat % divisor.toNat ≠ 0 := by
          intro hnone
          rw [← hreduced] at hnone
          exact hzero (BitVec.eq_of_toNat_eq hnone)
        by_cases hend : n = 0
        · rw [if_pos hend]
          have htotal : rem.toNat * 2 ^ n.toNat % divisor.toNat = rem.toNat % divisor.toNat := by
            rw [hend]
            show _ * 2 ^ 0 % _ = _
            rw [Nat.pow_zero, Nat.mul_one]
          rw [htotal]
          refine ⟨fun hnone => absurd hnone hmod, ?_⟩
          intro _
          exact ⟨_, reduced rem divisor, rfl,
            (State.AgreesOff.refl _).setLocal (by simp) _, State.setLocal_self _ _ _, hreduced⟩
        · rw [if_neg hend]
          have hpos : 0 < n.toNat := Nat.pos_of_ne_zero fun hnone =>
            hend (BitVec.eq_of_toNat_eq hnone)
          have hnext : (n - 1).toNat = n.toNat - 1 :=
            BitVec.toNat_sub_of_le hpos
          have hdouble : (reduced rem divisor <<< 1).toNat = rem.toNat % divisor.toNat * 2 := by
            rw [toNat_shiftLeft (by omega), hreduced, Nat.pow_one]
          refine (@ih _ (reduced rem divisor <<< 1) (n - 1) ⟨?_, ?_, ?_, ?_⟩ ?_ ?_).of_step
            ?_ ?_
          · rw [State.setLocal_of_ne _ _ (by decide), State.setLocal_self]
          · simpa (disch := decide) using h.divisor
          · rw [State.setLocal_self]
          · simpa (disch := decide) using h.sign
          · omega
          · omega
          · rw [hdouble, hnext]
            exact mod_step _ _ _ hpos
          · exact (((State.AgreesOff.refl _).setLocal (by simp) _).setLocal (by simp) _).setLocal
              (by simp) _

/-! ## The normalization loop -/

/-- The locals of the normalization loop. -/
structure Normalizing (s : State σ) (rem : BitVec 64) (n : Nat) : Prop where
  remainder : s.locals remainder = ⟨.I64, rem⟩
  exponent : s.locals rightExponent = ⟨.I64, BitVec.ofNat 64 n - 1074⟩

theorem exec_normalizationPass {rem : BitVec 64} {n : Nat} (h : Normalizing s rem n) :
    exec meaning fuel normalizationPass s =
      if implicitBit.ule rem then .branch 1 s
      else .branch 0 ((s.setLocal remainder ⟨.I64, rem <<< 1⟩).setLocal rightExponent
        ⟨.I64, BitVec.ofNat 64 n - 1074 - 1⟩) := by
  cases hle : implicitBit.ule rem <;>
    simp -implicitDefEqProofs (disch := decide) [normalizationPass, h.remainder, h.exponent, hle]

/-- A remainder with its leading bit in place, and the number it stands for as before. -/
structure Normalized (s t : State σ) (number : Nat) (rem : BitVec 64) (n : Nat) : Prop where
  agrees : s.enter.AgreesOff [remainder, rightExponent] t
  locals : Normalizing t rem n
  low : 2 ^ 52 ≤ rem.toNat
  high : rem.toNat < 2 ^ 53
  number : rem.toNat * 2 ^ n = number
  bound : n ≤ 2097

theorem exponent_pos {rem n : Nat} (hnumber : 2 ^ 52 ≤ rem * 2 ^ n) (hlow : rem < 2 ^ 52) :
    0 < n := by
  apply Nat.pos_of_ne_zero
  rintro rfl
  omega

theorem normalized_iterate (outer : List Value) (passes : Nat) :
    ∀ {s : State σ} {rem : BitVec 64} {n k : Nat}, Normalizing s rem n → rem.toNat < 2 ^ 53 →
      2 ^ 52 ≤ rem.toNat * 2 ^ n → 2 ^ 52 ≤ rem.toNat * 2 ^ k → k < passes → n ≤ 2097 →
      ∃ t rem' n', iterate (fun t => exec meaning fuel normalizationPass t) outer passes s =
          .branch 0 t ∧ Normalized s t (rem.toNat * 2 ^ n) rem' n' := by
  induction passes with
  | zero =>
      intro s rem n k _ _ _ _ hk
      exact absurd hk (Nat.not_lt_zero _)
  | succ passes ih =>
      intro s rem n k h hhigh hnumber hroom hk hbound
      have hpass := exec_normalizationPass meaning fuel (s := s.enter)
        ⟨h.remainder, h.exponent⟩
      simp only [iterate]
      rw [hpass]
      by_cases hlow : 2 ^ 52 ≤ rem.toNat
      · have hle : implicitBit.ule rem = true := decide_eq_true hlow
        rw [if_pos hle]
        exact ⟨_, rem, n, rfl, .refl _, ⟨h.remainder, h.exponent⟩, hlow, hhigh, rfl, hbound⟩
      · have hle : implicitBit.ule rem = false := decide_eq_false hlow
        rw [hle, if_neg Bool.false_ne_true]
        obtain ⟨m, rfl⟩ := Nat.exists_eq_succ_of_ne_zero
          (exponent_pos hnumber (Nat.lt_of_not_le hlow)).ne'
        obtain ⟨j, rfl⟩ := Nat.exists_eq_succ_of_ne_zero
          (exponent_pos hroom (Nat.lt_of_not_le hlow)).ne'
        have hdouble : (rem <<< 1).toNat = rem.toNat * 2 := by
          rw [toNat_shiftLeft (by omega), Nat.pow_one]
        have hkeeps : ∀ i, (rem <<< 1).toNat * 2 ^ i = rem.toNat * 2 ^ (i + 1) := by
          intro i
          rw [hdouble, Nat.mul_assoc, ← Nat.pow_succ']
        obtain ⟨t, rem', n', hrun, hnormal⟩ := @ih
          ((s.enter.setLocal remainder ⟨.I64, rem <<< 1⟩).setLocal rightExponent
            ⟨.I64, BitVec.ofNat 64 (m + 1) - 1074 - 1⟩) (rem <<< 1) m j
          ⟨by rw [State.setLocal_of_ne _ _ (by decide), State.setLocal_self], by
            rw [State.setLocal_self]
            congr 1
            bv_omega⟩
          (by omega) (by rw [hkeeps]; exact hnumber) (by rw [hkeeps]; exact hroom)
          (Nat.lt_of_succ_lt_succ hk) (Nat.le_of_succ_le hbound)
        refine ⟨t, rem', n', hrun, ?_, hnormal.locals, hnormal.low, hnormal.high,
          hnormal.number.trans (hkeeps m), hnormal.bound⟩
        refine State.AgreesOff.trans ?_ hnormal.agrees
        exact (((State.AgreesOff.refl s.enter).setLocal (by simp) _).setLocal (by simp) _).enter

/-! ## Packing -/

theorem exponent_normal_iff {n : Nat} (hn : n ≤ 2097) :
    BitVec.sle (-1022) (BitVec.ofNat 64 n - 1074) = decide (52 ≤ n) := by
  have hvalue : (BitVec.ofNat 64 n - 1074).toInt = n - 1074 := by
    rw [BitVec.toInt_eq_toNat_cond]
    split <;> bv_omega
  rw [BitVec.sle, hvalue, decide_eq_decide]
  show (-1022 : Int) ≤ _ ↔ _
  omega

section Packing

variable {rem e sign : BitVec 64} (hremainder : s.locals remainder = ⟨.I64, rem⟩)
  (hexponent : s.locals rightExponent = ⟨.I64, e⟩)
  (hsign : s.locals resultSign = ⟨.I64, sign⟩)

include hexponent in
theorem exec_packingTest :
    exec meaning fuel
      [.localGet rightExponent, .const .I64 (-1022), .relation .I64 .geS] s =
      .next (s.push (.bool (BitVec.sle (-1022) e))) := by
  simp -implicitDefEqProofs [hexponent]
  rfl

include hremainder hexponent hsign

theorem exec_packing_normal (hnormal : BitVec.sle (-1022) e = true) :
    ∃ t : State σ, exec meaning fuel
        (resultPacking ++ [.localGet resultBits, .reinterpret .I64]) s =
        .next (t.push ⟨.I64, (e + 1023) <<< 52 ||| (rem &&& fractionMask) ||| sign⟩) ∧
      t.store = s.store := by
  have hshift : (BitVec.toNat exponentShift) % 64 = 52 := rfl
  refine ⟨s.setLocal resultBits ⟨.I64, (e + 1023) <<< 52 ||| (rem &&& fractionMask) ||| sign⟩, ?_,
    rfl⟩
  show exec meaning fuel ([_, _, _] ++ _) s = _
  rw [exec_append, exec_packingTest meaning fuel hexponent, Outcome.andThen_next, hnormal]
  simp -implicitDefEqProofs (disch := decide) [hremainder, hexponent, hsign, hshift,
    -BitVec.shiftLeft_add_distrib]

theorem exec_packing_subnormal (hnormal : BitVec.sle (-1022) e = false) {k : BitVec 64}
    (hk : k = -1022 - e) :
    ∃ t : State σ, exec meaning fuel
        (resultPacking ++ [.localGet resultBits, .reinterpret .I64]) s =
        .next (t.push ⟨.I64, rem >>> (k.toNat % 64) ||| sign⟩) ∧
      t.store = s.store := by
  subst hk
  refine ⟨(s.setLocal shift ⟨.I64, -1022 - e⟩).setLocal resultBits
    ⟨.I64, rem >>> ((-1022 - e).toNat % 64) ||| sign⟩, ?_, rfl⟩
  show exec meaning fuel ([_, _, _] ++ _) s = _
  rw [exec_append, exec_packingTest meaning fuel hexponent, Outcome.andThen_next, hnormal]
  simp -implicitDefEqProofs (disch := decide) [hremainder, hexponent, hsign,
    -BitVec.toNat_sub]
  rfl

end Packing

theorem toNat_or_sign {word sign : BitVec 64} {negative : Bool}
    (hsign : sign.toNat = if negative then 2 ^ 63 else 0) (hword : word.toNat < 2 ^ 63) :
    (word ||| sign).toNat = binary64.pattern negative word.toNat := by
  have hweight : sign.toNat = (if negative then 1 else 0) * 2 ^ 63 := by
    rw [hsign]
    split <;> rfl
  rw [BitVec.or_comm, toNat_or hweight hword, pattern, ← hweight, hsign]
  rfl

/-- The packed result counts what the normalized remainder counts. -/
theorem exec_packing {rem sign : BitVec 64} {n R : Nat} {negative : Bool}
    (h : Normalizing s rem n) (hsign : s.locals resultSign = ⟨.I64, sign⟩)
    (hnegative : sign.toNat = if negative then 2 ^ 63 else 0) (hlow : 2 ^ 52 ≤ rem.toNat)
    (hhigh : rem.toNat < 2 ^ 53) (hbound : n ≤ 2097) (hnumber : rem.toNat * 2 ^ n = R * 2 ^ 52) :
    ∃ (t : State σ) (bits : BitVec 64) (a : Nat),
      exec meaning fuel (resultPacking ++ [.localGet resultBits, .reinterpret .I64]) s =
        .next (t.push ⟨.I64, bits⟩) ∧ t.store = s.store ∧
      bits.toNat = binary64.pattern negative a ∧ binary64.units a = R := by
  by_cases hnormal : 52 ≤ n
  · have hexponent : (BitVec.ofNat 64 n - 1074 + 1023).toNat = n - 51 := by
      clear hnumber
      bv_omega
    have hfraction : (rem &&& fractionMask).toNat = rem.toNat - 2 ^ 52 := by
      rw [toNat_fractionField, Nat.mod_eq_sub_mod hlow, Nat.mod_eq_of_lt (by omega)]
    have hfield : ((BitVec.ofNat 64 n - 1074 + 1023) <<< 52).toNat = (n - 51) * 2 ^ 52 := by
      rw [toNat_shiftLeft (by omega), hexponent]
    have hword : ((BitVec.ofNat 64 n - 1074 + 1023) <<< 52 ||| (rem &&& fractionMask)).toNat =
        (n - 51) * 2 ^ 52 + (rem.toNat - 2 ^ 52) := by
      rw [toNat_or hfield (by omega), hfraction]
    obtain ⟨t, hrun, hstore⟩ := exec_packing_normal meaning fuel
      h.remainder h.exponent hsign ((exponent_normal_iff hbound).trans (decide_eq_true hnormal))
    refine ⟨t, _, _, hrun, hstore, toNat_or_sign hnegative (by omega), ?_⟩
    have hunits := binary64.units_normal (e := n - 51) (F := rem.toNat - 2 ^ 52)
      (show _ < 2 ^ 52 by omega) (by omega)
    rw [hword]
    rw [show 2 ^ binary64.fractionBits = 2 ^ 52 from rfl, Nat.add_sub_cancel' hlow] at hunits
    rw [hunits]
    apply Nat.eq_of_mul_eq_mul_right (Nat.two_pow_pos 52)
    have hexponents : n - 51 - 1 + 52 = n := by omega
    rw [Nat.mul_assoc, ← Nat.pow_add, hexponents, hnumber]
  · have hshift : (-1022 - (BitVec.ofNat 64 n - 1074)).toNat = 52 - n := by
      clear hnumber
      bv_omega
    have hsplit : rem.toNat = R * 2 ^ (52 - n) := by
      apply Nat.eq_of_mul_eq_mul_right (Nat.two_pow_pos n)
      have hexponents : 52 - n + n = 52 := by omega
      rw [hnumber, Nat.mul_assoc, ← Nat.pow_add, hexponents]
    have hword : (rem >>> ((-1022 - (BitVec.ofNat 64 n - 1074)).toNat % 64)).toNat = R := by
      rw [toNat_shiftRight, hshift, Nat.mod_eq_of_lt (by omega), hsplit,
        Nat.mul_div_cancel _ (Nat.two_pow_pos _)]
    have hR : R < 2 ^ 52 := by
      obtain ⟨m, hm⟩ := Nat.exists_eq_succ_of_ne_zero (show 52 - n ≠ 0 by omega)
      rw [hm, Nat.pow_succ, ← Nat.mul_assoc] at hsplit
      have hle : R * 1 ≤ R * 2 ^ m := Nat.mul_le_mul_left _ (Nat.two_pow_pos m)
      omega
    obtain ⟨t, hrun, hstore⟩ := exec_packing_subnormal meaning fuel
      h.remainder h.exponent hsign ((exponent_normal_iff hbound).trans (decide_eq_false hnormal))
      rfl
    refine ⟨t, _, _, hrun, hstore, toNat_or_sign hnegative (by omega), ?_⟩
    rw [hword]
    exact binary64.units_subnormal hR

end Moth.Wasm.FloatRemainder
