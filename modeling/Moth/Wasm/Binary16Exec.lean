import Moth.Lib.BinaryRounding
import Moth.Lib.BitFields
import Moth.Lib.Wasm

/-!
# What narrowing to binary16 runs

The code in steps: what it reads from its input, how it rounds, and what each
of its exits leaves.
-/

/-!
## Conversions between binary16 and binary32

An F16 value travels through Wasm as an F32 carrier. Narrowing rounds a
significand on its bits, by the quotient and the remainder of a shift; widening
is exact and only has a leading bit to find for the subnormal values.
-/

namespace Moth.Wasm.Binary16

open Moth.Lib.Wasm

def f32Input : Nat := 0
def f32Bits : Nat := 1
def f32Exponent : Nat := 2
def f16Sign : Nat := 3
def significand : Nat := 4
def shift : Nat := 5
def quotient : Nat := 6
def remainder : Nat := 7
def halfway : Nat := 8
def f16Exponent : Nat := 9

def f16SignMask : BitVec 32 := 0x8000
def f32FractionMask : BitVec 32 := 0x007fffff
def f32ImplicitBit : BitVec 32 := 0x00800000
def f16ImplicitBit : BitVec 32 := 0x0400
def f16FractionMask : BitVec 32 := 0x03ff

variable {ι : Type}

def emitF32Significand : List (Instr ι) :=
  [.localGet f32Bits, .const .I32 f32FractionMask, .binary .I32 .and,
   .const .I32 f32ImplicitBit, .binary .I32 .or, .localSet significand]

def incrementQuotient : List (Instr ι) :=
  [.localGet quotient, .const .I32 1, .binary .I32 .add, .localSet quotient]

def emitRoundToNearestEven : List (Instr ι) :=
  [.localGet significand, .localGet shift, .binary .I32 .shrU, .localSet quotient,
   .const .I32 1, .localGet shift, .binary .I32 .shl, .const .I32 1, .binary .I32 .sub,
   .localGet significand, .binary .I32 .and, .localSet remainder,
   .const .I32 1, .localGet shift, .const .I32 1, .binary .I32 .sub, .binary .I32 .shl,
   .localSet halfway,
   .localGet remainder, .localGet halfway, .relation .I32 .gtU,
   .ite incrementQuotient
    [.localGet remainder, .localGet halfway, .relation .I32 .eq,
     .localGet quotient, .const .I32 1, .binary .I32 .and, .binary .I32 .and,
     .ite incrementQuotient []]]

/-- The bits, the exponent field and the sign in its binary16 place. -/
def narrowFields : List (Instr ι) :=
  [.localGet f32Input, .reinterpret .I32, .localTee f32Bits, .const .I32 23, .binary .I32 .shrU,
   .const .I32 0xff, .binary .I32 .and, .localSet f32Exponent,
   .localGet f32Bits, .const .I32 16, .binary .I32 .shrU, .const .I32 f16SignMask,
   .binary .I32 .and, .localSet f16Sign]

def narrowGuards : List (Instr ι) :=
  -- Non-finite inputs and finite values rounding above 65504 are invalid semantic F16 values.
  [.localGet f32Exponent, .const .I32 0xff, .relation .I32 .eq,
   .localGet f32Exponent, .const .I32 142, .relation .I32 .gtU, .binary .I32 .or,
   .ite [.unreachable] [],
   -- Values below the halfway point to the least subnormal round to signed zero.
   .localGet f32Exponent, .const .I32 102, .relation .I32 .ltU, .ite [.localGet f16Sign, .ret] []]

/-- A rounded significand of 2^11 carries into the exponent. -/
def narrowCarry : List (Instr ι) :=
  [.localGet f32Exponent, .const .I32 112, .binary .I32 .sub, .localSet f16Exponent,
   .localGet quotient, .const .I32 2048, .relation .I32 .geU,
   .ite [.const .I32 1024, .localSet quotient, .localGet f16Exponent, .const .I32 1,
     .binary .I32 .add, .localSet f16Exponent] []]

/-- Only the carry beyond exponent 30 is non-finite. -/
def narrowOverflow : List (Instr ι) :=
  [.localGet f16Exponent, .const .I32 31, .relation .I32 .geU, .ite [.unreachable] []]

def narrowNormalPacking : List (Instr ι) :=
  [.localGet f16Sign, .localGet f16Exponent, .const .I32 10, .binary .I32 .shl, .binary .I32 .or,
   .localGet quotient, .const .I32 1024, .binary .I32 .sub, .binary .I32 .or, .ret]

def narrowNormalShift : List (Instr ι) := [.const .I32 13, .localSet shift]

def narrowNormal : List (Instr ι) :=
  emitF32Significand ++ narrowNormalShift ++ emitRoundToNearestEven ++ narrowCarry ++
    narrowOverflow ++ narrowNormalPacking

/-- Subnormal values share a fixed unit. -/
def narrowSubnormalShift : List (Instr ι) :=
  [.const .I32 126, .localGet f32Exponent, .binary .I32 .sub, .localSet shift]

def narrowSubnormalPacking : List (Instr ι) :=
  [.localGet f16Sign, .localGet quotient, .binary .I32 .or, .ret]

def narrowSubnormal : List (Instr ι) :=
  emitF32Significand ++ narrowSubnormalShift ++ emitRoundToNearestEven ++ narrowSubnormalPacking

def narrowChoice : List (Instr ι) :=
  [.localGet f32Exponent, .const .I32 113, .relation .I32 .geU, .ite narrowNormal []]

/-- Convert one finite F32 carrier directly to a finite binary16 bit pattern. -/
def emitF32ToF16Bits : Function ι where
  params := [.I32]
  locals := List.replicate 9 .I32
  result := .I32
  body := narrowFields ++ narrowGuards ++ narrowChoice ++ narrowSubnormal

namespace Widen

def input : Nat := 0
def sign : Nat := 1
def exponent : Nat := 2
def significand : Nat := 3
def f32Exponent : Nat := 4

end Widen

def emitF32BitsFromComponents (sign exponent significand : Nat) : List (Instr ι) :=
  [.localGet sign, .localGet exponent, .const .I32 23, .binary .I32 .shl, .binary .I32 .or,
   .localGet significand, .const .I32 f16FractionMask, .binary .I32 .and,
   .const .I32 13, .binary .I32 .shl, .binary .I32 .or]

def widenFields : List (Instr ι) :=
  [.localGet Widen.input, .const .I32 f16SignMask, .binary .I32 .and, .const .I32 16,
   .binary .I32 .shl, .localSet Widen.sign,
   .localGet Widen.input, .const .I32 10, .binary .I32 .shrU, .const .I32 0x1f,
   .binary .I32 .and, .localSet Widen.exponent,
   .localGet Widen.input, .const .I32 f16FractionMask, .binary .I32 .and,
   .localSet Widen.significand]

def normalizationPass : List (Instr ι) :=
  [.localGet Widen.significand, .const .I32 f16ImplicitBit, .binary .I32 .and, .eqz .I32,
   .ite
    [.localGet Widen.significand, .const .I32 1, .binary .I32 .shl, .localSet Widen.significand,
     .localGet Widen.f32Exponent, .const .I32 1, .binary .I32 .sub, .localSet Widen.f32Exponent,
     .br 1] [],
   .br 1]

def widenZero : List (Instr ι) :=
  [.localGet Widen.significand, .eqz .I32, .ite [.localGet Widen.sign, .reinterpret .I32, .ret] []]

def widenNormalization : List (Instr ι) :=
  [.const .I32 113, .localSet Widen.f32Exponent, .block [.loop normalizationPass]]

def widenPacking : List (Instr ι) :=
  emitF32BitsFromComponents Widen.sign Widen.f32Exponent Widen.significand ++
  [.reinterpret .I32, .ret]

/-- Zero has no leading bit; any other fraction is shifted until its own is in place. -/
def widenSubnormal : List (Instr ι) := widenZero ++ widenNormalization ++ widenPacking

/-- Corrupt storage must not manufacture a semantic infinity or NaN. -/
def widenGuard : List (Instr ι) :=
  [.localGet Widen.exponent, .const .I32 31, .relation .I32 .eq, .ite [.unreachable] []]

/-- A normal half exponent differs from the F32 exponent bias by 112. -/
def widenExponent : List (Instr ι) :=
  [.localGet Widen.exponent, .const .I32 112, .binary .I32 .add, .localSet Widen.f32Exponent]

def widenChoice : List (Instr ι) :=
  [.localGet Widen.exponent, .eqz .I32, .ite widenSubnormal []]

/-- Convert one finite binary16 bit pattern to its exact F32 carrier. -/
def emitF16BitsToF32 : Function ι where
  params := [.I32]
  locals := List.replicate 4 .I32
  result := .I32
  body := widenFields ++ widenGuard ++ widenChoice ++ widenExponent ++ widenPacking

end Moth.Wasm.Binary16

namespace Moth.Wasm.Binary16

open Moth.Lib Moth.Lib.Wasm Moth.Lib.BitFields BinaryFormat

variable {ι σ : Type} (meaning : ι → (Nat → Value) → σ → HostResult σ) (fuel : Nat)
  {s : State σ} {x : BitVec 32}

/-- The exponent field of an F32. -/
def exponentOf (x : BitVec 32) : BitVec 32 := (x >>> 23) &&& 0xff

/-- The sign of an F32 in its binary16 place. -/
def signOf (x : BitVec 32) : BitVec 32 := (x >>> 16) &&& f16SignMask

/-- The significand of a normal F32. -/
def significandOf (x : BitVec 32) : BitVec 32 := (x &&& f32FractionMask) ||| f32ImplicitBit

structure Narrowing (s : State σ) (x : BitVec 32) : Prop where
  bits : s.locals f32Bits = ⟨.I32, x⟩
  exponent : s.locals f32Exponent = ⟨.I32, exponentOf x⟩
  sign : s.locals f16Sign = ⟨.I32, signOf x⟩

theorem exec_narrowFields (hx : s.locals f32Input = ⟨.I32, x⟩) :
    ∃ s', exec meaning fuel narrowFields s = .next s' ∧ Narrowing s' x ∧ s'.store = s.store := by
  have hrun : exec meaning fuel narrowFields s = .next
      (((s.setLocal f32Bits ⟨.I32, x⟩).setLocal f32Exponent ⟨.I32, exponentOf x⟩).setLocal
        f16Sign ⟨.I32, signOf x⟩) := by
    simp -implicitDefEqProofs (disch := decide) [narrowFields, hx, exponentOf, signOf]
    rfl
  refine ⟨_, hrun, ⟨?_, ?_, ?_⟩, rfl⟩
  all_goals simp (disch := decide)

theorem exec_narrowGuards (h : Narrowing s x) :
    exec meaning fuel narrowGuards s =
      if exponentOf x == 0xff || BitVec.ult 142 (exponentOf x) then .trap
      else if (exponentOf x).ult 102 then .returned (s.enter.push ⟨.I32, signOf x⟩)
      else .next s := by
  simp -implicitDefEqProofs [narrowGuards, h.exponent, h.sign]

theorem exec_significand (h : Narrowing s x) :
    exec meaning fuel emitF32Significand s =
      .next (s.setLocal significand ⟨.I32, significandOf x⟩) := by
  simp -implicitDefEqProofs [emitF32Significand, h.bits, significandOf]

/-! ## Rounding -/

section Rounding

variable {S k q r half : BitVec 32}

/-- The quotient, the remainder and the halfway point of a cut. -/
def cutWrites : List Nat := [quotient, remainder, halfway]

structure Cut (s : State σ) (q r half : BitVec 32) : Prop where
  quotient : s.locals quotient = ⟨.I32, q⟩
  remainder : s.locals remainder = ⟨.I32, r⟩
  halfway : s.locals halfway = ⟨.I32, half⟩

def cutCode : List (Instr ι) :=
  [.localGet significand, .localGet shift, .binary .I32 .shrU, .localSet quotient,
   .const .I32 1, .localGet shift, .binary .I32 .shl, .const .I32 1, .binary .I32 .sub,
   .localGet significand, .binary .I32 .and, .localSet remainder,
   .const .I32 1, .localGet shift, .const .I32 1, .binary .I32 .sub, .binary .I32 .shl,
   .localSet halfway]

theorem exec_cutCode (hS : s.locals significand = ⟨.I32, S⟩) (hk : s.locals shift = ⟨.I32, k⟩) :
    ∃ s', exec meaning fuel cutCode s = .next s' ∧
      Cut s' (S >>> (k.toNat % 32)) ((((1 : BitVec 32) <<< (k.toNat % 32)) - 1) &&& S)
        ((1 : BitVec 32) <<< ((k - 1).toNat % 32)) ∧ s.AgreesOff cutWrites s' := by
  have hrun : exec meaning fuel cutCode s = .next
      (((s.setLocal quotient ⟨.I32, S >>> (k.toNat % 32)⟩).setLocal remainder
        ⟨.I32, (((1 : BitVec 32) <<< (k.toNat % 32)) - 1) &&& S⟩).setLocal halfway
        ⟨.I32, (1 : BitVec 32) <<< ((k - 1).toNat % 32)⟩) := by
    simp -implicitDefEqProofs (disch := decide) [cutCode, hS, hk, -BitVec.toNat_sub]
  refine ⟨_, hrun, ⟨?_, ?_, ?_⟩, ?_⟩
  · simp (disch := decide)
  · simp (disch := decide)
  · simp (disch := decide)
  · exact (((State.AgreesOff.refl s).setLocal (by simp [cutWrites]) _).setLocal
      (by simp [cutWrites]) _).setLocal (by simp [cutWrites]) _

/-- Above halfway, or halfway from an odd quotient. -/
def roundsUpBits (q r half : BitVec 32) : Bool := half.ult r || (r == half && q.toNat % 2 == 1)

theorem bool_low (q : BitVec 32) : (⟨.I32, q &&& 1⟩ : Value) = .bool (q.toNat % 2 == 1) := by
  have hlow : (q &&& 1).toNat = q.toNat % 2 := toNat_and_low (k := 1) rfl
  rw [Value.bool]
  congr 1
  apply BitVec.eq_of_toNat_eq
  rw [hlow]
  rcases Nat.mod_two_eq_zero_or_one q.toNat with hzero | hone
  · rw [hzero]
    rfl
  · rw [hone]
    rfl

theorem exec_incrementQuotient (hq : s.locals quotient = ⟨.I32, q⟩) :
    exec meaning fuel incrementQuotient s = .next (s.setLocal quotient ⟨.I32, q + 1⟩) := by
  simp -implicitDefEqProofs [incrementQuotient, hq]

def decideCode : List (Instr ι) :=
  [.localGet remainder, .localGet halfway, .relation .I32 .gtU,
   .ite incrementQuotient
    [.localGet remainder, .localGet halfway, .relation .I32 .eq,
     .localGet quotient, .const .I32 1, .binary .I32 .and, .binary .I32 .and,
     .ite incrementQuotient []]]

theorem exec_quotientIsOdd (hq : s.locals quotient = ⟨.I32, q⟩) :
    exec meaning fuel [.localGet quotient, .const .I32 1, .binary .I32 .and] s =
      .next (s.push (.bool (q.toNat % 2 == 1))) := by
  rw [← bool_low]
  simp -implicitDefEqProofs [hq]

theorem exec_tie (h : Cut s q r half) :
    exec meaning fuel
      [.localGet remainder, .localGet halfway, .relation .I32 .eq,
       .localGet quotient, .const .I32 1, .binary .I32 .and, .binary .I32 .and] s =
      .next (s.push (.bool (r == half && q.toNat % 2 == 1))) := by
  have hequal : exec meaning fuel
      [.localGet remainder, .localGet halfway, .relation .I32 .eq] s =
      .next (s.push (.bool (r == half))) := by
    simp -implicitDefEqProofs [h.remainder, h.halfway]
  show exec meaning fuel ([.localGet remainder, .localGet halfway, .relation .I32 .eq] ++
    ([.localGet quotient, .const .I32 1, .binary .I32 .and] ++ [.binary .I32 .and])) s = _
  rw [exec_append, hequal, Outcome.andThen_next, exec_append,
    exec_quotientIsOdd meaning fuel (s := s.push (.bool (r == half))) h.quotient,
    Outcome.andThen_next, exec_singleton, execInstr_and_bool]

theorem exec_increment_ite (hq : s.locals quotient = ⟨.I32, q⟩) (b : Bool) :
    exec meaning fuel [.ite incrementQuotient []] (s.push (.bool b)) =
      .next (s.setLocal quotient ⟨.I32, if b then q + 1 else q⟩) := by
  rw [exec_singleton, execInstr_ite, exec_incrementQuotient meaning fuel (s := s.enter) hq]
  cases b with
  | true => rfl
  | false =>
      show Outcome.next s = _
      rw [if_neg Bool.false_ne_true, State.setLocal_same hq]

theorem exec_decideCode (h : Cut s q r half) :
    exec meaning fuel decideCode s = .next
      (s.setLocal quotient ⟨.I32, if roundsUpBits q r half then q + 1 else q⟩) := by
  have habove : exec meaning fuel
      [.localGet remainder, .localGet halfway, .relation .I32 .gtU] s =
      .next (s.push (.bool (half.ult r))) := by
    simp -implicitDefEqProofs [h.remainder, h.halfway]
  have htie : exec meaning fuel
      ([.localGet remainder, .localGet halfway, .relation .I32 .eq,
       .localGet quotient, .const .I32 1, .binary .I32 .and, .binary .I32 .and] ++
       [.ite incrementQuotient []]) s.enter =
      .next (s.enter.setLocal quotient
        ⟨.I32, if r == half && q.toNat % 2 == 1 then q + 1 else q⟩) := by
    rw [exec_append, exec_tie meaning fuel (s := s.enter) ⟨h.quotient, h.remainder, h.halfway⟩,
      Outcome.andThen_next, exec_increment_ite meaning fuel (s := s.enter) h.quotient]
  show exec meaning fuel
    ([.localGet remainder, .localGet halfway, .relation .I32 .gtU] ++ [_]) s = _
  rw [exec_append, habove, Outcome.andThen_next, exec_singleton, execInstr_ite,
    exec_incrementQuotient meaning fuel (s := s.enter) h.quotient]
  unfold roundsUpBits
  cases half.ult r with
  | true => rfl
  | false =>
      rw [if_neg Bool.false_ne_true]
      exact congrArg (fun o : Outcome σ => o.leaveBlock s.stack) htie

/-- The rounded quotient. -/
def rounded (S k : BitVec 32) : BitVec 32 :=
  if roundsUpBits (S >>> (k.toNat % 32)) ((((1 : BitVec 32) <<< (k.toNat % 32)) - 1) &&& S)
    ((1 : BitVec 32) <<< ((k - 1).toNat % 32))
  then S >>> (k.toNat % 32) + 1 else S >>> (k.toNat % 32)

theorem exec_roundToNearestEven (hS : s.locals significand = ⟨.I32, S⟩)
    (hk : s.locals shift = ⟨.I32, k⟩) :
    ∃ s', exec meaning fuel emitRoundToNearestEven s = .next s' ∧
      s'.locals quotient = ⟨.I32, rounded S k⟩ ∧ s.AgreesOff cutWrites s' := by
  obtain ⟨t, hcut, h, hagrees⟩ := exec_cutCode meaning fuel hS hk
  refine ⟨_, ?_, State.setLocal_self _ _ _, hagrees.setLocal (by simp [cutWrites]) _⟩
  show exec meaning fuel (cutCode ++ decideCode) s = _
  rw [exec_append, hcut, Outcome.andThen_next, exec_decideCode meaning fuel h]
  rfl

end Rounding

/-! ## The exits -/

/-- The value a subnormal result is rounded to. -/
theorem exec_narrowSubnormal (h : Narrowing s x) :
    (exec meaning fuel narrowSubnormal s).Returns
      ⟨.I32, signOf x ||| rounded (significandOf x) (126 - exponentOf x)⟩ s.store := by
  have hshift : exec meaning fuel narrowSubnormalShift
      (s.setLocal significand ⟨.I32, significandOf x⟩) =
      .next ((s.setLocal significand ⟨.I32, significandOf x⟩).setLocal shift
        ⟨.I32, 126 - exponentOf x⟩) := by
    simp -implicitDefEqProofs (disch := decide) [narrowSubnormalShift, h.exponent]
  obtain ⟨t, hround, hquotient, hagrees⟩ := exec_roundToNearestEven meaning fuel
    (s := (s.setLocal significand ⟨.I32, significandOf x⟩).setLocal shift
      ⟨.I32, 126 - exponentOf x⟩) (S := significandOf x) (k := 126 - exponentOf x)
    (by simp (disch := decide)) (State.setLocal_self _ _ _)
  have hsign : t.locals f16Sign = ⟨.I32, signOf x⟩ := by
    rw [hagrees.locals _ (by decide)]
    simpa (disch := decide) using h.sign
  rw [narrowSubnormal, exec_append, exec_append, exec_append, exec_significand meaning fuel h,
    Outcome.andThen_next, hshift, Outcome.andThen_next, hround, Outcome.andThen_next]
  refine ⟨t.push ⟨.I32, signOf x ||| rounded (significandOf x) (126 - exponentOf x)⟩, ?_, rfl,
    hagrees.store⟩
  simp -implicitDefEqProofs [narrowSubnormalPacking, hsign, hquotient]

section Normal

variable {q : BitVec 32}

/-- A quotient of 2^11 is 2^10 with the exponent one higher. -/
def carries (q : BitVec 32) : Bool := BitVec.ule 2048 q

def carriedQuotient (q : BitVec 32) : BitVec 32 := if carries q then 1024 else q

def carriedExponent (x q : BitVec 32) : BitVec 32 :=
  if carries q then exponentOf x - 112 + 1 else exponentOf x - 112

structure Carried (s : State σ) (x q : BitVec 32) : Prop where
  quotient : s.locals quotient = ⟨.I32, carriedQuotient q⟩
  exponent : s.locals f16Exponent = ⟨.I32, carriedExponent x q⟩
  sign : s.locals f16Sign = ⟨.I32, signOf x⟩

theorem exec_narrowCarry (h : Narrowing s x) (hq : s.locals quotient = ⟨.I32, q⟩) :
    ∃ s', exec meaning fuel narrowCarry s = .next s' ∧ Carried s' x q ∧ s'.store = s.store := by
  cases hcarries : carries q with
  | true =>
      have hrun : exec meaning fuel narrowCarry s = .next
          (((s.setLocal f16Exponent ⟨.I32, exponentOf x - 112⟩).setLocal quotient
            ⟨.I32, 1024⟩).setLocal f16Exponent ⟨.I32, exponentOf x - 112 + 1⟩) := by
        have hule : (2048#(Carrier.bits .I32)).ule q = true := hcarries
        simp -implicitDefEqProofs (disch := decide) [narrowCarry, h.exponent, hq, hule]
      refine ⟨_, hrun, ⟨?_, ?_, ?_⟩, rfl⟩
      · simp (disch := decide) [carriedQuotient, hcarries]
      · simp (disch := decide) [carriedExponent, hcarries]
      · simp (disch := decide) [h.sign]
  | false =>
      have hrun : exec meaning fuel narrowCarry s = .next
          (s.setLocal f16Exponent ⟨.I32, exponentOf x - 112⟩) := by
        have hule : (2048#(Carrier.bits .I32)).ule q = false := hcarries
        simp -implicitDefEqProofs (disch := decide) [narrowCarry, h.exponent, hq, hule]
      refine ⟨_, hrun, ⟨?_, ?_, ?_⟩, rfl⟩
      · simp (disch := decide) [carriedQuotient, hcarries, hq]
      · simp (disch := decide) [carriedExponent, hcarries]
      · simp (disch := decide) [h.sign]

/-- The packed normal result. -/
def packed (x q : BitVec 32) : BitVec 32 :=
  signOf x ||| (carriedExponent x q <<< 10) ||| (carriedQuotient q - 1024)

theorem exec_normalExit (h : Carried s x q) :
    exec meaning fuel (narrowOverflow ++ narrowNormalPacking) s =
      if BitVec.ule 31 (carriedExponent x q) then .trap
      else .returned (s.push ⟨.I32, packed x q⟩) := by
  simp -implicitDefEqProofs [narrowOverflow, narrowNormalPacking, h.quotient, h.exponent,
    h.sign, packed]
  rfl

/-- The quotient of a normal result, before its carry. -/
def normalQuotient (x : BitVec 32) : BitVec 32 := rounded (significandOf x) 13

theorem exec_narrowNormal (h : Narrowing s x) :
    ∃ t : State σ, t.store = s.store ∧ exec meaning fuel narrowNormal s =
      if BitVec.ule 31 (carriedExponent x (normalQuotient x)) then .trap
      else .returned (t.push ⟨.I32, packed x (normalQuotient x)⟩) := by
  have hshift : exec meaning fuel narrowNormalShift
      (s.setLocal significand ⟨.I32, significandOf x⟩) =
      .next ((s.setLocal significand ⟨.I32, significandOf x⟩).setLocal shift ⟨.I32, 13⟩) := by
    simp -implicitDefEqProofs [narrowNormalShift]
  obtain ⟨t, hround, hquotient, hagrees⟩ := exec_roundToNearestEven meaning fuel
    (s := (s.setLocal significand ⟨.I32, significandOf x⟩).setLocal shift ⟨.I32, 13⟩)
    (S := significandOf x) (k := 13) (by simp (disch := decide)) (State.setLocal_self _ _ _)
  have hnarrowing : Narrowing t x := by
    refine ⟨?_, ?_, ?_⟩
    · rw [hagrees.locals _ (by decide)]
      simpa (disch := decide) using h.bits
    · rw [hagrees.locals _ (by decide)]
      simpa (disch := decide) using h.exponent
    · rw [hagrees.locals _ (by decide)]
      simpa (disch := decide) using h.sign
  obtain ⟨t', hcarry, hcarried, hstore⟩ := exec_narrowCarry meaning fuel hnarrowing hquotient
  refine ⟨t', hstore.trans hagrees.store, ?_⟩
  have hexit := exec_normalExit meaning fuel hcarried
  rw [narrowNormal, List.append_assoc, exec_append, exec_append, exec_append, exec_append,
    exec_significand meaning fuel h, Outcome.andThen_next, hshift, Outcome.andThen_next, hround,
    Outcome.andThen_next, hcarry, Outcome.andThen_next, hexit]
  rfl

end Normal

theorem exec_narrowChoice (h : Narrowing s x) :
    exec meaning fuel narrowChoice s =
      if BitVec.ule 113 (exponentOf x) then
        (exec meaning fuel narrowNormal s.enter).leaveBlock s.stack
      else .next s := by
  have htest : exec meaning fuel [.localGet f32Exponent, .const .I32 113, .relation .I32 .geU] s =
      .next (s.push (.bool (BitVec.ule 113 (exponentOf x)))) := by
    simp -implicitDefEqProofs [h.exponent]
  have hsplit : (narrowChoice : List (Instr ι)) =
      [.localGet f32Exponent, .const .I32 113, .relation .I32 .geU] ++ [.ite narrowNormal []] := rfl
  rw [hsplit, exec_append, htest, Outcome.andThen_next, exec_singleton, execInstr_ite]
  rfl

/-- The bits that the narrowing of an F32 ends with, where it does not trap. -/
def narrowed (x : BitVec 32) : Option (BitVec 32) :=
  if exponentOf x == 0xff || BitVec.ult 142 (exponentOf x) then none
  else if (exponentOf x).ult 102 then some (signOf x)
  else if BitVec.ule 113 (exponentOf x) then
    if BitVec.ule 31 (carriedExponent x (normalQuotient x)) then none
    else some (packed x (normalQuotient x))
  else some (signOf x ||| rounded (significandOf x) (126 - exponentOf x))

theorem call_narrow (store : σ) (x : BitVec 32) :
    emitF32ToF16Bits.call meaning fuel [⟨.I32, x⟩] store =
      .ofOption store ((narrowed x).map fun bits => ⟨.I32, bits⟩) := by
  obtain ⟨s, hfields, h, hstore⟩ := exec_narrowFields meaning fuel (x := x)
    (s := ⟨emitF32ToF16Bits.frame [⟨.I32, x⟩], [], store⟩) rfl
  have hguards := exec_narrowGuards meaning fuel h
  have hstore' : s.store = store := hstore
  unfold Function.call narrowed
  have hbody : (emitF32ToF16Bits (ι := ι)).body =
      narrowFields ++ narrowGuards ++ narrowChoice ++ narrowSubnormal := rfl
  rw [hbody, exec_append, exec_append, exec_append, hfields, Outcome.andThen_next, hguards]
  split
  · rfl
  split
  · rw [← hstore']
    rfl
  rw [Outcome.andThen_next, exec_narrowChoice meaning fuel h]
  split
  · obtain ⟨t, htstore, hnormal⟩ := exec_narrowNormal meaning fuel (s := s.enter) (x := x)
      ⟨h.bits, h.exponent, h.sign⟩
    rw [hnormal, ← hstore', ← show t.store = s.store from htstore]
    split
    · rfl
    · rfl
  · rw [Outcome.andThen_next, ← hstore']
    exact (exec_narrowSubnormal meaning fuel h).callResult

end Moth.Wasm.Binary16
