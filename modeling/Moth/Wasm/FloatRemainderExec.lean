import Moth.Lib.BinaryFloat
import Moth.Lib.BitFields
import Moth.Lib.Wasm

/-!
# What the float remainder helper computes

Every magnitude counts least subnormals, and 2^52 times that count is a
significand of 53 bits times a power of two. So the first loop, which divides
significands, divides counts; the second only moves factors of two; and packing
drops the 52 factors again, all of them zero bits.
-/

/-!
## The float remainder helper

The helper works on the bits of its operands. It divides the significands by
shifting and subtracting, one pass for each step of the difference between the
exponents, and puts the remainder back under the divisor's exponent.
-/

namespace Moth.Wasm.FloatRemainder

open Moth.Lib.Wasm

def signMask : BitVec 64 := BitVec.intMin 64
def absMask : BitVec 64 := 0x7fffffffffffffff
def exponentMask : BitVec 64 := 0x7ff0000000000000
def fractionMask : BitVec 64 := 0x000fffffffffffff
def implicitBit : BitVec 64 := 0x0010000000000000
def infinityBits : BitVec 64 := 0x7ff0000000000000
def exponentShift : BitVec 64 := 52

/-- The bits of `f64::NAN`. -/
def nanBits : BitVec 64 := 0x7ff8000000000000

-- Locals 0 and 1 are the parameters.
def leftBits : Nat := 2
def rightBits : Nat := 3
def absLeft : Nat := 4
def absRight : Nat := 5
def resultSign : Nat := 6
def leftExponent : Nat := 7
def rightExponent : Nat := 8
def leftSignificand : Nat := 9
def rightSignificand : Nat := 10
def scratch : Nat := 11
def shift : Nat := 12
def remainder : Nat := 13
def resultBits : Nat := 14

variable {ι : Type}

def emitSignedZeroReturn : List (Instr ι) :=
  [.localGet resultSign, .reinterpret .I64, .ret]

def emitNanReturn : List (Instr ι) :=
  [.const .I64 nanBits, .ret]

def emitUnpackSignificand (bitsLocal significandLocal exponentLocal scratchLocal shiftLocal : Nat) :
    List (Instr ι) :=
  [.localGet bitsLocal, .const .I64 exponentMask, .binary .I64 .and,
   .const .I64 exponentShift, .binary .I64 .shrU, .localTee scratchLocal, .eqz .I64,
   .ite
    [.localGet bitsLocal, .const .I64 fractionMask, .binary .I64 .and,
     .localTee significandLocal, .clz .I64, .const .I64 11, .binary .I64 .sub,
     .localSet shiftLocal,
     .localGet significandLocal, .localGet shiftLocal, .binary .I64 .shl,
     .localSet significandLocal,
     .const .I64 (-1022), .localGet shiftLocal, .binary .I64 .sub, .localSet exponentLocal]
    [.localGet bitsLocal, .const .I64 fractionMask, .binary .I64 .and,
     .const .I64 implicitBit, .binary .I64 .or, .localSet significandLocal,
     .localGet scratchLocal, .const .I64 1023, .binary .I64 .sub, .localSet exponentLocal]]

/-- The operands' bits and magnitudes, and the sign of the result. -/
def operandFields : List (Instr ι) :=
  [.localGet 0, .reinterpret .I64, .localTee leftBits, .const .I64 absMask, .binary .I64 .and,
   .localSet absLeft,
   .localGet 1, .reinterpret .I64, .localTee rightBits, .const .I64 absMask, .binary .I64 .and,
   .localSet absRight,
   .localGet leftBits, .const .I64 signMask, .binary .I64 .and, .localSet resultSign]

/-- The operands that need no division. -/
def operandGuards : List (Instr ι) :=
  -- fmod is undefined for a zero divisor, NaN operands, or an infinite dividend.
  [.localGet absRight, .eqz .I64, .ite emitNanReturn [],
   .localGet absLeft, .const .I64 infinityBits, .relation .I64 .geU, .ite emitNanReturn [],
   .localGet absRight, .const .I64 infinityBits, .relation .I64 .gtU, .ite emitNanReturn [],
   -- A finite dividend modulo infinity is the dividend itself.
   .localGet absLeft, .localGet absRight, .relation .I64 .ltU, .ite [.localGet 0, .ret] [],
   .localGet absLeft, .localGet absRight, .relation .I64 .eq, .ite emitSignedZeroReturn []]

/-- The exponent difference, and the dividend to start from. -/
def divisionStart : List (Instr ι) :=
  [.localGet leftExponent, .localGet rightExponent, .binary .I64 .sub, .localSet shift,
   .localGet leftSignificand, .localSet remainder]

/-- Subtract only when the divisor fits, then shift. -/
def divisionPass : List (Instr ι) :=
  [.localGet remainder, .localGet rightSignificand, .relation .I64 .geU,
   .ite [.localGet remainder, .localGet rightSignificand, .binary .I64 .sub, .localSet remainder]
    [],
   .localGet remainder, .eqz .I64, .ite emitSignedZeroReturn [],
   .localGet shift, .eqz .I64, .brIf 1,
   .localGet remainder, .const .I64 1, .binary .I64 .shl, .localSet remainder,
   .localGet shift, .const .I64 1, .binary .I64 .sub, .localSet shift,
   .br 0]

def normalizationPass : List (Instr ι) :=
  [.localGet remainder, .const .I64 implicitBit, .relation .I64 .geU, .brIf 1,
   .localGet remainder, .const .I64 1, .binary .I64 .shl, .localSet remainder,
   .localGet rightExponent, .const .I64 1, .binary .I64 .sub, .localSet rightExponent,
   .br 0]

/-- A normal result is packed directly; packing a subnormal one discards only zero bits. -/
def resultPacking : List (Instr ι) :=
  [.localGet rightExponent, .const .I64 (-1022), .relation .I64 .geS,
   .ite
    [.localGet rightExponent, .const .I64 1023, .binary .I64 .add, .const .I64 exponentShift,
     .binary .I64 .shl, .localGet remainder, .const .I64 fractionMask, .binary .I64 .and,
     .binary .I64 .or, .localGet resultSign, .binary .I64 .or, .localSet resultBits]
    [.const .I64 (-1022), .localGet rightExponent, .binary .I64 .sub, .localSet shift,
     .localGet remainder, .localGet shift, .binary .I64 .shrU, .localGet resultSign,
     .binary .I64 .or, .localSet resultBits]]

def emitFloatRemainder : Function ι where
  params := [.I64, .I64]
  locals := List.replicate 13 .I64
  result := .I64
  body :=
    operandFields ++ operandGuards ++
    emitUnpackSignificand absLeft leftSignificand leftExponent scratch shift ++
    emitUnpackSignificand absRight rightSignificand rightExponent scratch shift ++
    divisionStart ++
    [.block [.loop divisionPass]] ++
    [.block [.loop normalizationPass]] ++
    resultPacking ++
    [.localGet resultBits, .reinterpret .I64]

end Moth.Wasm.FloatRemainder

namespace Moth.Wasm.FloatRemainder

open Moth.Lib Moth.Lib.Wasm Moth.Lib.BitFields BinaryFormat

variable {ι σ : Type} (meaning : ι → (Nat → Value) → σ → HostResult σ) (fuel : Nat)
  {s : State σ} {l r : BitVec 64}

/-! ## The operands -/

theorem toNat_and_absMask (x : BitVec 64) :
    (x &&& absMask).toNat = binary64.magnitude x.toNat :=
  toNat_and_low rfl

theorem toNat_and_signMask (x : BitVec 64) :
    (x &&& signMask).toNat = if binary64.negative x.toNat then 2 ^ 63 else 0 := by
  rw [toNat_and_bit (k := 63) rfl x.isLt, negative]
  simp only [decide_eq_true_eq]
  rfl

/-- What the division reads: both magnitudes and the sign of the result. -/
structure Operands (s : State σ) (l r : BitVec 64) : Prop where
  left : s.locals 0 = ⟨.I64, l⟩
  absLeft : s.locals absLeft = ⟨.I64, l &&& absMask⟩
  absRight : s.locals absRight = ⟨.I64, r &&& absMask⟩
  resultSign : s.locals resultSign = ⟨.I64, l &&& signMask⟩

theorem exec_operandFields (hl : s.locals 0 = ⟨.I64, l⟩) (hr : s.locals 1 = ⟨.I64, r⟩) :
    ∃ s', exec meaning fuel operandFields s = .next s' ∧ Operands s' l r ∧ s'.store = s.store := by
  have hrun : exec meaning fuel operandFields s = .next
      (((((s.setLocal leftBits ⟨.I64, l⟩).setLocal absLeft ⟨.I64, l &&& absMask⟩).setLocal
        rightBits ⟨.I64, r⟩).setLocal absRight ⟨.I64, r &&& absMask⟩).setLocal
        resultSign ⟨.I64, l &&& signMask⟩) := by
    simp -implicitDefEqProofs (disch := decide) [operandFields, hl, hr]
  refine ⟨_, hrun, ⟨?_, ?_, ?_, ?_⟩, rfl⟩
  all_goals simp (disch := decide) [hl]

theorem exec_operandGuards (h : Operands s l r) :
    exec meaning fuel operandGuards s =
      if r &&& absMask == 0 then .returned (s.enter.push ⟨.I64, nanBits⟩)
      else if infinityBits.ule (l &&& absMask) then .returned (s.enter.push ⟨.I64, nanBits⟩)
      else if infinityBits.ult (r &&& absMask) then .returned (s.enter.push ⟨.I64, nanBits⟩)
      else if (l &&& absMask).ult (r &&& absMask) then .returned (s.enter.push ⟨.I64, l⟩)
      else if l &&& absMask == r &&& absMask then
        .returned (s.enter.push ⟨.I64, l &&& signMask⟩)
      else .next s := by
  simp -implicitDefEqProofs [operandGuards, emitNanReturn, emitSignedZeroReturn, h.left,
    h.absLeft, h.absRight,
    h.resultSign]

/-! ## Unpacking -/

/-- A magnitude as a significand and an exponent, both counted from the least subnormal. -/
structure Unpacked (s : State σ) (significandLocal exponentLocal a : Nat) (sig : BitVec 64)
    (n : Nat) : Prop where
  significand : s.locals significandLocal = ⟨.I64, sig⟩
  exponent : s.locals exponentLocal = ⟨.I64, BitVec.ofNat 64 n - 1074⟩
  low : 2 ^ 52 ≤ sig.toNat
  high : sig.toNat < 2 ^ 53
  bound : n ≤ 2097
  units : binary64.units a * 2 ^ 52 = sig.toNat * 2 ^ n

theorem toNat_exponentField {a : BitVec 64} (ha : a.toNat < binary64.infinity) :
    ((a &&& exponentMask) >>> 52).toNat = a.toNat / 2 ^ 52 := by
  have hmask : (a &&& exponentMask) >>> 52 = (a >>> 52) &&& (exponentMask >>> 52) :=
    BitVec.ushiftRight_and_distrib _ _ _
  have hlt : a.toNat / 2 ^ 52 < 2 ^ 11 := by
    apply Nat.div_lt_of_lt_mul
    exact Nat.lt_trans ha (by decide)
  rw [hmask, toNat_and_low (k := 11) rfl, toNat_shiftRight, Nat.mod_eq_of_lt hlt]

theorem toNat_fractionField (a : BitVec 64) : (a &&& fractionMask).toNat = a.toNat % 2 ^ 52 :=
  toNat_and_low rfl

/-- The locals that unpacking writes. -/
def unpackWrites (significandLocal exponentLocal : Nat) : List Nat :=
  [significandLocal, exponentLocal, scratch, shift]

section Unpack

variable {bitsLocal significandLocal exponentLocal : Nat} {a : BitVec 64}

/-- The exponent field, and whether it is zero. -/
def unpackTest (bitsLocal : Nat) : List (Instr ι) :=
  [.localGet bitsLocal, .const .I64 exponentMask, .binary .I64 .and,
   .const .I64 exponentShift, .binary .I64 .shrU, .localTee scratch, .eqz .I64]

theorem exec_unpackTest (hbits : s.locals bitsLocal = ⟨.I64, a⟩) :
    exec meaning fuel (unpackTest bitsLocal) s =
      .next ((s.setLocal scratch ⟨.I64, (a &&& exponentMask) >>> 52⟩).push
        (.bool ((a &&& exponentMask) >>> 52 == 0))) := by
  have hshift : (BitVec.toNat exponentShift) % 64 = 52 := rfl
  simp -implicitDefEqProofs [unpackTest, hbits, hshift]

theorem exec_unpack_normal (hbits : s.locals bitsLocal = ⟨.I64, a⟩)
    (hscratch : bitsLocal ≠ scratch) (hsignificand : scratch ≠ significandLocal)
    (hfield : ((a &&& exponentMask) >>> 52 == 0) = false) :
    exec meaning fuel (emitUnpackSignificand bitsLocal significandLocal exponentLocal scratch shift)
        s = .next
      (((s.setLocal scratch ⟨.I64, (a &&& exponentMask) >>> 52⟩).setLocal significandLocal
        ⟨.I64, (a &&& fractionMask) ||| implicitBit⟩).setLocal exponentLocal
        ⟨.I64, (a &&& exponentMask) >>> 52 - 1023⟩) := by
  show exec meaning fuel (unpackTest bitsLocal ++ [_]) s = _
  rw [exec_append, exec_unpackTest meaning fuel hbits, Outcome.andThen_next, exec_singleton,
    execInstr_ite,
    hfield, if_neg Bool.false_ne_true]
  simp -implicitDefEqProofs [hbits, hscratch, hsignificand]

theorem exec_unpack_subnormal (hbits : s.locals bitsLocal = ⟨.I64, a⟩)
    (hscratch : bitsLocal ≠ scratch) (hsignificand : shift ≠ significandLocal)
    (hfield : ((a &&& exponentMask) >>> 52 == 0) = true) {k : BitVec 64}
    (hk : k = (a &&& fractionMask).clz - 11) :
    exec meaning fuel (emitUnpackSignificand bitsLocal significandLocal exponentLocal scratch shift)
        s = .next
      (((((s.setLocal scratch ⟨.I64, (a &&& exponentMask) >>> 52⟩).setLocal significandLocal
        ⟨.I64, a &&& fractionMask⟩).setLocal shift ⟨.I64, k⟩).setLocal significandLocal
        ⟨.I64, (a &&& fractionMask) <<< (k.toNat % 64)⟩).setLocal exponentLocal
        ⟨.I64, -1022 - k⟩) := by
  show exec meaning fuel (unpackTest bitsLocal ++ [_]) s = _
  rw [exec_append, exec_unpackTest meaning fuel hbits, Outcome.andThen_next, exec_singleton,
    execInstr_ite,
    hfield, if_pos rfl]
  subst hk
  simp -implicitDefEqProofs [hbits, hscratch, hsignificand, hsignificand.symm, -BitVec.toNat_sub]

theorem exponent_subnormal {c : BitVec 64} {k : Nat} (hc : c.toNat = 12 + k)
    (hlt : c.toNat < 64) : -1022 - (c - 11) = BitVec.ofNat 64 (51 - k) - 1074 := by
  bv_omega

variable (significandLocal exponentLocal) in
theorem exec_unpack (hbits : s.locals bitsLocal = ⟨.I64, a⟩) (hzero : a.toNat ≠ 0)
    (hfinite : a.toNat < binary64.infinity) (hbitsScratch : bitsLocal ≠ scratch)
    (hscratch : scratch ≠ significandLocal) (hshift : shift ≠ significandLocal)
    (hdistinct : significandLocal ≠ exponentLocal) :
    ∃ s' sig n, exec meaning fuel
        (emitUnpackSignificand bitsLocal significandLocal exponentLocal scratch shift) s =
        .next s' ∧
      Unpacked s' significandLocal exponentLocal a.toNat sig n ∧
      s.AgreesOff (unpackWrites significandLocal exponentLocal) s' := by
  have hfield := toNat_exponentField hfinite
  have hsplit := Nat.div_add_mod' a.toNat (2 ^ 52)
  have hfraction := toNat_fractionField a
  have hlt : a.toNat % 2 ^ 52 < 2 ^ 52 := Nat.mod_lt _ (by decide)
  have hexponent : a.toNat / 2 ^ 52 < 2047 := Nat.div_lt_of_lt_mul (Nat.lt_of_lt_of_le hfinite
    (by decide))
  cases hcase : ((a &&& exponentMask) >>> 52 == 0) with
  | false =>
      have hpos : 0 < a.toNat / 2 ^ 52 := by
        rw [← hfield]
        apply Nat.pos_of_ne_zero
        intro hnone
        exact beq_eq_false_iff_ne.1 hcase (BitVec.eq_of_toNat_eq hnone)
      have hsig : ((a &&& fractionMask) ||| implicitBit).toNat = 2 ^ 52 + a.toNat % 2 ^ 52 := by
        rw [BitVec.or_comm, toNat_or (k := 52) (a := 1) rfl (by omega), hfraction, Nat.one_mul]
      refine ⟨_, (a &&& fractionMask) ||| implicitBit, a.toNat / 2 ^ 52 + 51,
        exec_unpack_normal meaning fuel hbits hbitsScratch hscratch hcase,
          ⟨?_, ?_, ?_, ?_, ?_, ?_⟩, ?_⟩
      · rw [State.setLocal_of_ne _ _ hdistinct, State.setLocal_self]
      · rw [State.setLocal_self]
        congr 1
        generalize (a &&& exponentMask) >>> 52 = field at hfield
        bv_omega
      · omega
      · omega
      · omega
      · have hunits := binary64.units_normal hlt hpos
        obtain ⟨e, he⟩ := Nat.exists_eq_add_of_lt hpos
        rw [show 2 ^ binary64.fractionBits = 2 ^ 52 from rfl, hsplit] at hunits
        rw [hunits, hsig, he, Nat.zero_add, Nat.add_sub_cancel, Nat.pow_add, Nat.pow_succ]
        ring
      · exact (((State.AgreesOff.refl s).setLocal (by simp [unpackWrites]) _).setLocal
          (by simp [unpackWrites]) _).setLocal (by simp [unpackWrites]) _
  | true =>
      have hexponentZero : a.toNat / 2 ^ 52 = 0 := by
        rw [← hfield, beq_iff_eq.1 hcase]
        rfl
      have hmagnitude : a.toNat % 2 ^ 52 = a.toNat := by omega
      rw [hmagnitude] at hfraction hlt
      have hnonzero : a &&& fractionMask ≠ 0 := by
        intro hnone
        rw [hnone] at hfraction
        exact hzero hfraction.symm
      have hlow := BitVec.two_pow_sub_clz_le_toNat_of_ne_zero (by decide) hnonzero
      have hhigh := BitVec.toNat_lt_two_pow_sub_clz (x := a &&& fractionMask)
      rw [hfraction] at hlow hhigh
      generalize hclz : (a &&& fractionMask).clz = c at hlow hhigh
      have hless : 63 - c.toNat < 52 := by
        rw [← Nat.pow_lt_pow_iff_right (a := 2) (by decide)]
        exact Nat.lt_of_le_of_lt hlow hlt
      have hmore : c.toNat < 64 := by
        by_contra hbig
        rw [Nat.sub_eq_zero_of_le (by omega)] at hhigh
        omega
      obtain ⟨k, hk⟩ := Nat.exists_eq_add_of_le (show 12 ≤ c.toNat by omega)
      have hshiftNat : (c - 11).toNat = k + 1 := by bv_omega
      have hsigLt : a.toNat * 2 ^ (k + 1) < 2 ^ 53 := by
        have hpow : 2 ^ 53 = 2 ^ (64 - c.toNat) * 2 ^ (k + 1) := by
          rw [← Nat.pow_add]
          congr 1
          omega
        rw [hpow]
        exact Nat.mul_lt_mul_of_pos_right hhigh (Nat.two_pow_pos _)
      have hsigLe : 2 ^ 52 ≤ a.toNat * 2 ^ (k + 1) := by
        have hpow : 2 ^ 52 = 2 ^ (64 - 1 - c.toNat) * 2 ^ (k + 1) := by
          rw [← Nat.pow_add]
          congr 1
          omega
        rw [hpow]
        exact Nat.mul_le_mul_right _ hlow
      have hsig : ((a &&& fractionMask) <<< ((c - 11).toNat % 64)).toNat =
          a.toNat * 2 ^ (k + 1) := by
        rw [hshiftNat, Nat.mod_eq_of_lt (by omega), toNat_shiftLeft (by rw [hfraction]; omega),
          hfraction]
      refine ⟨_, (a &&& fractionMask) <<< ((c - 11).toNat % 64), 51 - k,
        exec_unpack_subnormal meaning fuel hbits hbitsScratch hshift hcase (by rw [hclz]),
        ⟨?_, ?_, ?_, ?_, ?_, ?_⟩, ?_⟩
      · rw [State.setLocal_of_ne _ _ hdistinct, State.setLocal_self]
      · rw [State.setLocal_self, exponent_subnormal hk hmore]
      · omega
      · omega
      · omega
      · have hexponents : k + 1 + (51 - k) = 52 := by omega
        rw [hsig, binary64.units_subnormal hlt, Nat.mul_assoc, ← Nat.pow_add, hexponents]
      · exact (((((State.AgreesOff.refl s).setLocal (by simp [unpackWrites]) _).setLocal
          (by simp [unpackWrites]) _).setLocal (by simp [unpackWrites]) _).setLocal
          (by simp [unpackWrites]) _).setLocal (by simp [unpackWrites]) _

end Unpack

/-! ## Division -/

/-- The dividend once the divisor was taken off where it fits. -/
def reduced (rem divisor : BitVec 64) : BitVec 64 :=
  if divisor.ule rem then rem - divisor else rem

theorem toNat_reduced {rem divisor : BitVec 64} (h : rem.toNat < 2 * divisor.toNat) :
    (reduced rem divisor).toNat = rem.toNat % divisor.toNat := by
  unfold reduced
  by_cases hle : divisor.toNat ≤ rem.toNat
  · rw [if_pos (by simpa [BitVec.ule] using hle), BitVec.toNat_sub_of_le hle,
      Nat.mod_eq_sub_mod hle, Nat.mod_eq_of_lt (by omega)]
  · rw [if_neg (by simpa [BitVec.ule] using hle), Nat.mod_eq_of_lt (by omega)]

/-- The locals of the division loop. -/
structure Dividing (s : State σ) (rem divisor n sign : BitVec 64) : Prop where
  remainder : s.locals remainder = ⟨.I64, rem⟩
  divisor : s.locals rightSignificand = ⟨.I64, divisor⟩
  shift : s.locals shift = ⟨.I64, n⟩
  sign : s.locals resultSign = ⟨.I64, sign⟩

theorem exec_divisionPass {rem divisor n sign : BitVec 64} (h : Dividing s rem divisor n sign) :
    exec meaning fuel divisionPass s =
      if reduced rem divisor = 0 then
        .returned ((s.setLocal remainder ⟨.I64, reduced rem divisor⟩).enter.push ⟨.I64, sign⟩)
      else if n = 0 then .branch 1 (s.setLocal remainder ⟨.I64, reduced rem divisor⟩)
      else .branch 0 (((s.setLocal remainder ⟨.I64, reduced rem divisor⟩).setLocal remainder
        ⟨.I64, reduced rem divisor <<< 1⟩).setLocal shift ⟨.I64, n - 1⟩) := by
  have hsubtract : exec meaning fuel
      [.localGet remainder, .localGet rightSignificand, .relation .I64 .geU,
       .ite [.localGet remainder, .localGet rightSignificand, .binary .I64 .sub,
         .localSet remainder] []] s =
      .next (s.setLocal remainder ⟨.I64, reduced rem divisor⟩) := by
    unfold reduced
    cases hle : divisor.ule rem with
    | true => simp -implicitDefEqProofs [h.remainder, h.divisor, hle]
    | false =>
        rw [if_neg Bool.false_ne_true, State.setLocal_same h.remainder]
        simp -implicitDefEqProofs [h.remainder, h.divisor, hle]
  show exec meaning fuel ([.localGet remainder, .localGet rightSignificand, .relation .I64 .geU,
       .ite [.localGet remainder, .localGet rightSignificand, .binary .I64 .sub,
         .localSet remainder] []] ++ _) s = _
  rw [exec_append, hsubtract, Outcome.andThen_next]
  simp -implicitDefEqProofs (disch := decide) [emitSignedZeroReturn, h.sign, h.shift]

end Moth.Wasm.FloatRemainder
