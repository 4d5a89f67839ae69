import Moth.Wasm.FloatRemainderExact

/-!
# A call of the float remainder helper

The guards answer what has no remainder, what is below its divisor and what
equals it. What is left goes through both loops.
-/

namespace Moth.Wasm.FloatRemainder

open Moth.Lib Moth.Lib.Wasm BinaryFormat

variable {ι σ : Type} (meaning : ι → (Nat → Value) → σ → HostResult σ) (fuel : Nat)
  {s : State σ} {l r : BitVec 64}

theorem exponent_le {sl sr nl nr : Nat} (hsl : sl < 2 ^ 53) (hsr : 2 ^ 52 ≤ sr)
    (hlt : sr * 2 ^ nr ≤ sl * 2 ^ nl) : nr ≤ nl := by
  by_contra hmore
  obtain ⟨m, rfl⟩ := Nat.exists_eq_add_of_lt (Nat.lt_of_not_le hmore)
  have hleft : sl * 2 ^ nl < 2 ^ 53 * 2 ^ nl := Nat.mul_lt_mul_of_pos_right hsl (Nat.two_pow_pos _)
  have hright : 2 ^ 53 * 2 ^ nl ≤ sr * 2 ^ (nl + m + 1) := by
    have hpow : 2 ^ (nl + m + 1) = 2 ^ nl * 2 ^ m * 2 := by rw [Nat.pow_succ, Nat.pow_add]
    rw [hpow]
    have hmul : 2 ^ 52 * (2 ^ nl * 2 ^ m * 2) ≤ sr * (2 ^ nl * 2 ^ m * 2) :=
      Nat.mul_le_mul_right _ hsr
    have hone : 2 ^ nl * 1 ≤ 2 ^ nl * 2 ^ m := Nat.mul_le_mul_left _ (Nat.two_pow_pos m)
    omega
  omega

theorem mod_significands {ul ur sl sr nl nr : Nat} (hle : nr ≤ nl)
    (hl : ul * 2 ^ 52 = sl * 2 ^ nl) (hr : ur * 2 ^ 52 = sr * 2 ^ nr) :
    sl * 2 ^ (nl - nr) % sr * 2 ^ nr = ul % ur * 2 ^ 52 := by
  have hexponents : nl - nr + nr = nl := Nat.sub_add_cancel hle
  rw [← Nat.mul_mod_mul_right, ← Nat.mul_mod_mul_right, hl, hr, Nat.mul_assoc, ← Nat.pow_add,
    hexponents]

theorem exec_divisionStart {el er sl : BitVec 64} (hel : s.locals leftExponent = ⟨.I64, el⟩)
    (her : s.locals rightExponent = ⟨.I64, er⟩)
    (hsl : s.locals leftSignificand = ⟨.I64, sl⟩) :
    exec meaning fuel divisionStart s =
      .next ((s.setLocal shift ⟨.I64, el - er⟩).setLocal remainder ⟨.I64, sl⟩) := by
  simp -implicitDefEqProofs (disch := decide) [divisionStart, hel, her, hsl]

/-- What the helper does once its operands need a division. -/
def divisionCode : List (Instr ι) :=
  divisionStart ++ ([.block [.loop divisionPass]] ++ ([.block [.loop normalizationPass]] ++
    (resultPacking ++ [.localGet resultBits, .reinterpret .I64])))

/-- The result of a division: the sign of the dividend over the remainder of the counts. -/
def IsResult (l r bits : BitVec 64) : Prop :=
  ∃ a, bits.toNat = binary64.pattern (binary64.negative l.toNat) a ∧
    binary64.units a = binary64.units (binary64.magnitude l.toNat) %
      binary64.units (binary64.magnitude r.toNat)

theorem isResult_signedZero (hzero : binary64.units (binary64.magnitude l.toNat) %
    binary64.units (binary64.magnitude r.toNat) = 0) : IsResult l r (l &&& signMask) := by
  refine ⟨0, ?_, ?_⟩
  · rw [toNat_and_signMask]
    rfl
  · rw [hzero]
    rfl

theorem exec_divisionCode {sl sr : BitVec 64} {nl nr : Nat} (hfuel : 2100 ≤ fuel)
    (hsign : s.locals resultSign = ⟨.I64, l &&& signMask⟩)
    (hl : Unpacked s leftSignificand leftExponent (binary64.magnitude l.toNat) sl nl)
    (hr : Unpacked s rightSignificand rightExponent (binary64.magnitude r.toNat) sr nr)
    (hlt : binary64.magnitude r.toNat < binary64.magnitude l.toNat) :
    ∃ bits, (exec meaning fuel divisionCode s).Yields ⟨.I64, bits⟩ s.store ∧ IsResult l r bits := by
  have hunits := binary64.units_strictMono hlt
  have hle : nr ≤ nl := by
    apply exponent_le hl.high hr.low
    rw [← hl.units, ← hr.units]
    exact Nat.mul_le_mul_right _ hunits.le
  have hmod := mod_significands hle hl.units hr.units
  have hcount : (BitVec.ofNat 64 nl - 1074 - (BitVec.ofNat 64 nr - 1074)).toNat = nl - nr := by
    have hbound := hl.bound
    clear hmod hunits
    bv_omega
  have hdividing : Dividing (((s.setLocal shift ⟨.I64, BitVec.ofNat 64 nl - 1074 -
      (BitVec.ofNat 64 nr - 1074)⟩).setLocal remainder ⟨.I64, sl⟩).enter) sl sr
      (BitVec.ofNat 64 nl - 1074 - (BitVec.ofNat 64 nr - 1074)) (l &&& signMask) := by
    refine ⟨?_, ?_, ?_, ?_⟩ <;>
      simp (disch := decide) [hr.significand, hsign]
  have hdivides := divides_iterate meaning fuel hr.high [] fuel hdividing
    (by have := hl.high; have := hr.low; omega) (by have := hl.bound; omega)
  rw [hcount] at hdivides
  rw [divisionCode, exec_append, exec_divisionStart meaning fuel hl.exponent hr.exponent
    hl.significand,
    Outcome.andThen_next, exec_append, exec_block_loop]
  by_cases hzero : sl.toNat * 2 ^ (nl - nr) % sr.toNat = 0
  · refine ⟨l &&& signMask, .inl (((hdivides.zero hzero).leaveBlock _).andThen _),
      isResult_signedZero ?_⟩
    rw [hzero, Nat.zero_mul] at hmod
    exact (Nat.mul_eq_zero.1 hmod.symm).resolve_right (by decide)
  · obtain ⟨t, rem, hrun, hagrees, hrem, htotal⟩ := hdivides.nonzero hzero
    rw [hrun, Outcome.leaveBlock_branch_zero, Outcome.andThen_next, exec_append, exec_block_loop,
      State.setLocal_stack, State.setLocal_stack]
    rw [← htotal] at hmod hzero
    have hpositive : 1 ≤ binary64.units (binary64.magnitude l.toNat) %
        binary64.units (binary64.magnitude r.toNat) := by
      apply Nat.pos_of_ne_zero
      intro hnone
      rw [hnone, Nat.zero_mul] at hmod
      exact hzero ((Nat.mul_eq_zero.1 hmod).resolve_right (Nat.two_pow_pos _).ne')
    have hhigh : rem.toNat < 2 ^ 53 := by
      rw [htotal]
      exact Nat.lt_trans (Nat.mod_lt _ (by have := hr.low; omega)) hr.high
    obtain ⟨t', rem', n, hnormalRun, hnormal⟩ := normalized_iterate meaning fuel []
      fuel (s := (t.leave s.stack).enter) (n := nr) (k := 52)
      ⟨hrem, (hagrees.locals _ (by decide)).trans (by simpa (disch := decide) using hr.exponent)⟩
      hhigh (by omega) (by omega) (by omega) hr.bound
    rw [hnormalRun, Outcome.leaveBlock_branch_zero, Outcome.andThen_next]
    obtain ⟨t'', bits, a, hpacked, hstore, hbits, ha⟩ := exec_packing meaning fuel
      (s := t'.leave (t.leave s.stack).stack)
      (R := binary64.units (binary64.magnitude l.toNat) %
        binary64.units (binary64.magnitude r.toNat))
      ⟨hnormal.locals.remainder, hnormal.locals.exponent⟩
      (by
        have hkept := hnormal.agrees.locals resultSign (by decide)
        have hbefore := hagrees.locals resultSign (by decide)
        exact hkept.trans (hbefore.trans (by simpa (disch := decide) using hsign)))
      (toNat_and_signMask l) hnormal.low hnormal.high hnormal.bound
      (hnormal.number.trans hmod)
    refine ⟨bits, .inr ⟨t'', hpacked, ?_⟩, a, hbits, ha⟩
    rw [hstore]
    exact hnormal.agrees.store.trans hagrees.store

/-! ## The whole helper -/

theorem emitFloatRemainder_body : (emitFloatRemainder (ι := ι)).body =
    operandFields ++ (operandGuards ++
      (emitUnpackSignificand absLeft leftSignificand leftExponent scratch shift ++
        (emitUnpackSignificand absRight rightSignificand rightExponent scratch shift ++
          divisionCode))) := rfl

theorem toNat_infinityBits : infinityBits.toNat = binary64.infinity := by decide

/-- The operands that are divided. -/
structure Divisible (l r : BitVec 64) : Prop where
  right_ne_zero : binary64.magnitude r.toNat ≠ 0
  left_finite : binary64.IsFinite l.toNat
  right_lt_left : binary64.magnitude r.toNat < binary64.magnitude l.toNat

theorem exec_operandsDivided (hfuel : 2100 ≤ fuel) (h : Operands s l r)
  (hdivisible : Divisible l r) :
    ∃ bits, (exec meaning fuel
        (emitUnpackSignificand absLeft leftSignificand leftExponent scratch shift ++
          (emitUnpackSignificand absRight rightSignificand rightExponent scratch shift ++
            divisionCode)) s).Yields ⟨.I64, bits⟩ s.store ∧ IsResult l r bits := by
  have hleft : (l &&& absMask).toNat ≠ 0 := by
    rw [toNat_and_absMask]
    have := hdivisible.right_lt_left
    omega
  obtain ⟨t, sl, nl, hrunLeft, hl, hagreesLeft⟩ := exec_unpack meaning fuel
    leftSignificand leftExponent h.absLeft hleft
    (by rw [toNat_and_absMask]; exact hdivisible.left_finite)
    (by decide) (by decide) (by decide) (by decide)
  obtain ⟨t', sr, nr, hrunRight, hr, hagreesRight⟩ := exec_unpack meaning fuel
    rightSignificand rightExponent
    ((hagreesLeft.locals absRight (by decide)).trans h.absRight)
    (by rw [toNat_and_absMask]; exact hdivisible.right_ne_zero)
    (by
      rw [toNat_and_absMask]
      exact Nat.lt_trans hdivisible.right_lt_left hdivisible.left_finite)
    (by decide) (by decide) (by decide) (by decide)
  rw [toNat_and_absMask] at hl hr
  have hkept : Unpacked t' leftSignificand leftExponent (binary64.magnitude l.toNat) sl nl :=
    ⟨(hagreesRight.locals _ (by decide)).trans hl.significand,
      (hagreesRight.locals _ (by decide)).trans hl.exponent, hl.low, hl.high, hl.bound, hl.units⟩
  have hsign : t'.locals resultSign = ⟨.I64, l &&& signMask⟩ :=
    (hagreesRight.locals _ (by decide)).trans
      ((hagreesLeft.locals _ (by decide)).trans h.resultSign)
  rw [exec_append, hrunLeft, Outcome.andThen_next, exec_append, hrunRight, Outcome.andThen_next]
  rw [← hagreesLeft.store, ← hagreesRight.store]
  exact exec_divisionCode meaning fuel hfuel hsign hkept hr hdivisible.right_lt_left

/-- A zero divisor, an infinite dividend or an operand that is not a number. -/
def Undefined (l r : BitVec 64) : Prop :=
  binary64.magnitude r.toNat = 0 ∨ binary64.infinity ≤ binary64.magnitude l.toNat ∨
    binary64.infinity < binary64.magnitude r.toNat

/-- What a call answers. -/
structure Answers (l r bits : BitVec 64) : Prop where
  undefined : Undefined l r → bits = nanBits
  defined : ¬Undefined l r → IsResult l r bits

theorem Answers.nan (h : Undefined l r) : Answers l r nanBits :=
  ⟨fun _ => rfl, fun hdefined => absurd h hdefined⟩

theorem Answers.unique {bits bits' : BitVec 64} (h : Answers l r bits) (h' : Answers l r bits') :
    bits' = bits := by
  by_cases hundefined : Undefined l r
  · rw [h.undefined hundefined, h'.undefined hundefined]
  · obtain ⟨a, hbits, ha⟩ := h.defined hundefined
    obtain ⟨a', hbits', ha'⟩ := h'.defined hundefined
    apply BitVec.eq_of_toNat_eq
    rw [hbits, hbits', binary64.units_strictMono.injective (ha'.trans ha.symm)]

theorem exec_body (hfuel : 2100 ≤ fuel) (hl : s.locals 0 = ⟨.I64, l⟩)
    (hr : s.locals 1 = ⟨.I64, r⟩) :
    ∃ bits, (exec meaning fuel (emitFloatRemainder (ι := ι)).body s).Yields ⟨.I64, bits⟩ s.store ∧
      Answers l r bits := by
  obtain ⟨t, hfields, h, hstore⟩ := exec_operandFields meaning fuel hl hr
  have hguards := exec_operandGuards meaning fuel h
  rw [emitFloatRemainder_body, exec_append, hfields, Outcome.andThen_next, exec_append, hguards,
    ← hstore]
  have hmagnitudeLeft := toNat_and_absMask l
  have hmagnitudeRight := toNat_and_absMask r
  have hreturns : ∀ bits : BitVec 64, ((Outcome.returned (t.enter.push ⟨.I64, bits⟩)).andThen
      (exec meaning fuel
        (emitUnpackSignificand absLeft leftSignificand leftExponent scratch shift ++
          (emitUnpackSignificand absRight rightSignificand rightExponent scratch shift ++
            divisionCode)))).Yields ⟨.I64, bits⟩ t.store :=
    fun bits => .inl ((Outcome.Returns.push t.enter ⟨.I64, bits⟩).andThen _)
  split
  · next hzero =>
      refine ⟨_, hreturns _, .nan (.inl ?_)⟩
      rw [← hmagnitudeRight, beq_iff_eq.1 hzero]
      rfl
  next hright =>
  split
  · next hinfinite =>
      refine ⟨_, hreturns _, .nan (.inr (.inl ?_))⟩
      rw [← hmagnitudeLeft, ← toNat_infinityBits]
      exact of_decide_eq_true hinfinite
  next hleft =>
  split
  · next hinfinite =>
      refine ⟨_, hreturns _, .nan (.inr (.inr ?_))⟩
      rw [← hmagnitudeRight, ← toNat_infinityBits]
      exact of_decide_eq_true hinfinite
  next hnumber =>
  have hdefined : ¬Undefined l r := by
    unfold Undefined
    rw [← hmagnitudeLeft, ← hmagnitudeRight, ← toNat_infinityBits]
    intro hundefined
    rcases hundefined with hzero | hinfinite | hinfinite
    · exact hright (beq_iff_eq.2 (BitVec.eq_of_toNat_eq hzero))
    · exact hleft (decide_eq_true hinfinite)
    · exact hnumber (decide_eq_true hinfinite)
  split
  · next hless =>
      have hlt := of_decide_eq_true hless
      rw [hmagnitudeLeft, hmagnitudeRight] at hlt
      refine ⟨_, hreturns _, fun h => absurd h hdefined, fun _ =>
        ⟨binary64.magnitude l.toNat, ?_, ?_⟩⟩
      · exact (pattern_negative_magnitude l.isLt).symm
      · exact (Nat.mod_eq_of_lt (binary64.units_strictMono hlt)).symm
  next hmore =>
  split
  · next hequal =>
      refine ⟨_, hreturns _, fun h => absurd h hdefined, fun _ => isResult_signedZero ?_⟩
      rw [← hmagnitudeLeft, ← hmagnitudeRight, beq_iff_eq.1 hequal, Nat.mod_self]
  next hdiffers =>
  have hdivisible : Divisible l r := by
    refine ⟨fun hzero => hdefined (.inl hzero), ?_, ?_⟩
    · exact Nat.lt_of_not_le fun hle => hdefined (.inr (.inl hle))
    · rw [← hmagnitudeLeft, ← hmagnitudeRight]
      apply Nat.lt_of_le_of_ne
      · exact Nat.le_of_not_lt fun hlt => hmore (decide_eq_true hlt)
      · intro heq
        exact hdiffers (beq_iff_eq.2 (BitVec.eq_of_toNat_eq heq.symm))
  rw [Outcome.andThen_next]
  obtain ⟨bits, hyields, hresult⟩ := exec_operandsDivided meaning fuel hfuel h hdivisible
  exact ⟨bits, hyields, fun h => absurd h hdefined, fun _ => hresult⟩

theorem IsResult.isRemainder {bits : BitVec 64} (h : IsResult l r bits)
    (hleft : binary64.IsFinite l.toNat) (hright : binary64.magnitude r.toNat ≠ 0) :
    binary64.IsRemainder l.toNat r.toNat bits.toNat := by
  obtain ⟨a, hbits, hunits⟩ := h
  rw [hbits]
  exact binary64.isRemainder_of_units hleft hright hunits

/-- Whatever its operands are the helper comes back, and where they have a
remainder it comes back with the one pattern that is their remainder. -/
theorem emitFloatRemainder_exact (meaning : ι → (Nat → Value) → σ → HostResult σ) (store : σ)
    (left right : BitVec 64) :
    ∃ bits : BitVec 64,
      (∀ fuel, 2100 ≤ fuel →
        emitFloatRemainder.call meaning fuel [⟨.I64, left⟩, ⟨.I64, right⟩] store =
          .value ⟨.I64, bits⟩ store) ∧
      (binary64.IsFinite left.toNat → binary64.IsFinite right.toNat →
        binary64.value right.toNat ≠ 0 →
        binary64.IsRemainder left.toNat right.toNat bits.toNat ∧
          ∀ r : BitVec 64, binary64.IsRemainder left.toNat right.toNat r.toNat → r = bits) := by
  have hcall : ∀ fuel, 2100 ≤ fuel → ∃ bits : BitVec 64,
      emitFloatRemainder.call meaning fuel [⟨.I64, left⟩, ⟨.I64, right⟩] store =
        .value ⟨.I64, bits⟩ store ∧ Answers left right bits := by
    intro fuel hfuel
    obtain ⟨bits, hyields, hanswers⟩ := exec_body meaning fuel (l := left) (r := right)
      (s := ⟨emitFloatRemainder.frame [⟨.I64, left⟩, ⟨.I64, right⟩], [], store⟩) hfuel rfl rfl
    exact ⟨bits, hyields.callResult, hanswers⟩
  obtain ⟨bits, _, hanswers⟩ := hcall 2100 (Nat.le_refl _)
  refine ⟨bits, ?_, ?_⟩
  · intro fuel hfuel
    obtain ⟨bits', hrun, hanswers'⟩ := hcall fuel hfuel
    rw [hrun, hanswers.unique hanswers']
  · intro hleft hright hne
    have hzero := binary64.value_ne_zero_iff.1 hne
    have hdefined : ¬Undefined left right := by
      intro hundefined
      rcases hundefined with hnone | hinfinite | hinfinite
      · exact hzero hnone
      · exact Nat.not_lt.2 hinfinite hleft
      · exact Nat.lt_asymm hinfinite hright
    have hremainder := (hanswers.defined hdefined).isRemainder hleft hzero
    refine ⟨hremainder, ?_⟩
    intro r hr
    exact BitVec.eq_of_toNat_eq (hremainder.unique hr bits.isLt r.isLt)

end Moth.Wasm.FloatRemainder
