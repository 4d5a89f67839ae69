import Moth.Lib.OverflowTests
import Moth.Wasm.CheckedInteger

/-!
# Integer operation domains

The integers of each operation domain, how its carrier holds them, and what
the predicates and native instructions of the checked operations compute on
those bits.
-/

namespace Moth.Wasm

open Moth.Lexical Moth.Datatypes Moth.Hir Moth.Lib Moth.Lib.Wasm

namespace WasmIntegerOperationKind

/-- The inclusive range of the domain. -/
def range : WasmIntegerOperationKind → Int × Int
  | .Signed32 => (-2147483648, 2147483647)
  | .Unsigned32 => (0, 4294967295)
  | .Signed64 => (-9223372036854775808, 9223372036854775807)
  | .Unsigned64 => (0, 18446744073709551615)

/-- The integer is a value of the domain. -/
def Holds (kind : WasmIntegerOperationKind) (v : Int) : Prop :=
  kind.range.1 ≤ v ∧ v ≤ kind.range.2

instance (kind : WasmIntegerOperationKind) (v : Int) : Decidable (kind.Holds v) :=
  inferInstanceAs (Decidable (_ ∧ _))

/-- How the domain reads its carrier. -/
def value (kind : WasmIntegerOperationKind) (x : BitVec kind.carrier.bits) : Int :=
  if kind.isSigned then x.toInt else x.toNat

/-- The bits of an integer of the domain. -/
def bitsOf (kind : WasmIntegerOperationKind) (v : Int) : BitVec kind.carrier.bits :=
  BitVec.ofInt kind.carrier.bits v

theorem value_bitsOf {kind : WasmIntegerOperationKind} {v : Int} (h : kind.Holds v) :
    kind.value (kind.bitsOf v) = v := by
  cases kind with
  | Signed32 =>
      exact BitVec.toInt_ofInt_eq_self (w := 32) (by decide) h.1 (Int.lt_add_one_of_le h.2)
  | Unsigned32 => exact toNat_ofInt_of_range (w := 32) h.1 (Int.lt_add_one_of_le h.2)
  | Signed64 =>
      exact BitVec.toInt_ofInt_eq_self (w := 64) (by decide) h.1 (Int.lt_add_one_of_le h.2)
  | Unsigned64 => exact toNat_ofInt_of_range (w := 64) h.1 (Int.lt_add_one_of_le h.2)

/-- A result, unless it leaves the domain. -/
def checked (kind : WasmIntegerOperationKind) (v : Int) : Option Int :=
  if kind.Holds v then some v else none

theorem add_test (kind : WasmIntegerOperationKind) (x y : BitVec kind.carrier.bits) :
    (if kind.isSigned then ((x ^^^ (x + y)) &&& (y ^^^ (x + y))).slt 0#_ else (x + y).ult x) =
      !decide (kind.Holds (kind.value x + kind.value y)) := by
  rw [signedAdd_test, unsignedAdd_test]
  cases kind with
  | Signed32 => exact saddOverflow_eq_not (w := 32) x y
  | Unsigned32 => exact uaddOverflow_eq_not (w := 32) x y
  | Signed64 => exact saddOverflow_eq_not (w := 64) x y
  | Unsigned64 => exact uaddOverflow_eq_not (w := 64) x y

theorem sub_test (kind : WasmIntegerOperationKind) (x y : BitVec kind.carrier.bits) :
    (if kind.isSigned then ((x ^^^ y) &&& (x ^^^ (x - y))).slt 0#_ else x.ult y) =
      !decide (kind.Holds (kind.value x - kind.value y)) := by
  rw [signedSub_test]
  cases kind with
  | Signed32 => exact ssubOverflow_eq_not (w := 32) x y
  | Unsigned32 => exact ult_eq_not (w := 32) x y
  | Signed64 => exact ssubOverflow_eq_not (w := 64) x y
  | Unsigned64 => exact ult_eq_not (w := 64) x y

variable {kind : WasmIntegerOperationKind} {lhs rhs v u : Int}

theorem bitsOf_inj (hv : kind.Holds v) (hu : kind.Holds u) :
    kind.bitsOf v = kind.bitsOf u ↔ v = u := by
  constructor
  · intro h
    rw [← value_bitsOf hv, h, value_bitsOf hu]
  · rintro rfl
    rfl

theorem bitsOf_beq (hv : kind.Holds v) (hu : kind.Holds u) :
    (kind.bitsOf v == kind.bitsOf u) = decide (v = u) := by
  rw [Bool.eq_iff_iff, beq_iff_eq, decide_eq_true_eq, bitsOf_inj hv hu]

theorem holds_zero (kind : WasmIntegerOperationKind) : kind.Holds 0 := by
  cases kind <;> decide

/-- A quotient of a signed domain leaves it only for the minimum by -1. -/
theorem holds_tdiv_signed (hsigned : kind.isSigned) (hlhs : kind.Holds lhs) :
    kind.Holds (lhs.tdiv rhs) ↔ ¬(lhs = kind.range.1 ∧ rhs = -1) := by
  have habs := Int.natAbs_tdiv lhs rhs
  constructor
  · rintro h ⟨rfl, rfl⟩
    revert h
    cases kind <;> first | decide | cases hsigned
  · intro h
    have hle : (lhs.tdiv rhs).natAbs ≤ lhs.natAbs := Int.natAbs_tdiv_le_natAbs lhs rhs
    by_cases hmin : lhs = kind.range.1
    · have hrhs : rhs ≠ -1 := fun hrhs => h ⟨hmin, hrhs⟩
      by_cases hone : rhs = 1
      · rw [hone, Int.tdiv_one]
        exact hlhs
      · have hhalf : (lhs.tdiv rhs).natAbs ≤ lhs.natAbs / 2 := by
          rw [habs]
          rcases Nat.eq_zero_or_pos rhs.natAbs with hzero | hpos
          · rw [hzero]
            exact (Nat.div_zero _).le.trans (Nat.zero_le _)
          · exact Nat.div_le_div_left (by omega) (by decide)
        cases kind <;> first | (cases hsigned; done) | (simp only [Holds, range] at *; omega)
    · cases kind <;> first | (cases hsigned; done) | (simp only [Holds, range] at *; omega)

theorem holds_tdiv_unsigned (hsigned : kind.isSigned = false) (hlhs : kind.Holds lhs)
    (hrhs : kind.Holds rhs) : kind.Holds (lhs.tdiv rhs) := by
  have hle : (lhs.tdiv rhs).natAbs ≤ lhs.natAbs := Int.natAbs_tdiv_le_natAbs lhs rhs
  have hnonneg : 0 ≤ lhs → 0 ≤ rhs → 0 ≤ lhs.tdiv rhs := Int.tdiv_nonneg
  cases kind <;> first
    | (cases hsigned; done)
    | (simp only [Holds, range] at *
       have := hnonneg hlhs.1 hrhs.1
       omega)

theorem holds_tmod (hlhs : kind.Holds lhs) (hrhs : kind.Holds rhs) :
    kind.Holds (lhs.tmod rhs) := by
  have habs := Int.natAbs_tmod lhs rhs
  have hle : lhs.natAbs % rhs.natAbs ≤ lhs.natAbs := Nat.mod_le _ _
  have hsign : 0 ≤ lhs → 0 ≤ lhs.tmod rhs := Int.tmod_nonneg rhs
  have hsign' : lhs ≤ 0 → lhs.tmod rhs ≤ 0 := by
    intro h
    have hneg : 0 ≤ (-lhs).tmod rhs := Int.tmod_nonneg rhs (by omega)
    rw [Int.neg_tmod] at hneg
    omega
  cases kind <;> simp only [Holds, range] at * <;> omega

theorem toInt_bitsOf (hsigned : kind.isSigned) (hv : kind.Holds v) :
    (kind.bitsOf v).toInt = v := by
  have h := value_bitsOf hv
  rwa [value, if_pos hsigned] at h

theorem toNat_bitsOf (hsigned : kind.isSigned = false) (hv : kind.Holds v) :
    ((kind.bitsOf v).toNat : Int) = v := by
  have h := value_bitsOf hv
  rwa [value, hsigned] at h

theorem bitsOf_zero (kind : WasmIntegerOperationKind) : kind.bitsOf 0 = 0 := by
  cases kind <;> rfl

theorem bitsOf_ne_zero (hv : kind.Holds v) (hne : v ≠ 0) : kind.bitsOf v ≠ 0 := by
  rw [← bitsOf_zero, Ne, bitsOf_inj hv kind.holds_zero]
  exact hne

/-- The native quotient, where it does not trap. -/
theorem apply_divide (hlhs : kind.Holds lhs) (hrhs : kind.Holds rhs) (hne : rhs ≠ 0)
    (hfit : kind.Holds (lhs.tdiv rhs)) :
    (if kind.isSigned then BinaryOp.divS else .divU).apply (kind.bitsOf lhs) (kind.bitsOf rhs) =
      some (kind.bitsOf (lhs.tdiv rhs)) := by
  have hzero := bitsOf_ne_zero hrhs hne
  cases hsigned : kind.isSigned with
  | true =>
      have hcase := (holds_tdiv_signed hsigned hlhs).1 hfit
      have hmin : ¬(kind.bitsOf lhs = BitVec.intMin _ ∧ kind.bitsOf rhs = -1) := by
        rintro ⟨hl, hr⟩
        apply hcase
        have hl' := congrArg BitVec.toInt hl
        have hr' := congrArg BitVec.toInt hr
        rw [toInt_bitsOf hsigned hlhs] at hl'
        rw [toInt_bitsOf hsigned hrhs] at hr'
        rw [hl', hr']
        clear hfit hcase hl hr hl' hr' hlhs hrhs hzero
        cases kind <;> first | (cases hsigned; done) | decide
      have hdiv : (kind.bitsOf lhs).sdiv (kind.bitsOf rhs) = kind.bitsOf (lhs.tdiv rhs) := by
        apply BitVec.eq_of_toInt_eq
        rw [BitVec.toInt_sdiv, toInt_bitsOf hsigned hlhs, toInt_bitsOf hsigned hrhs, bitsOf,
          BitVec.toInt_ofInt]
      rw [if_pos rfl, BinaryOp.apply, if_neg, hdiv]
      rintro (h | h)
      · exact hzero h
      · exact hmin h
  | false =>
      have hdiv : kind.bitsOf lhs / kind.bitsOf rhs = kind.bitsOf (lhs.tdiv rhs) := by
        rw [← ofInt_toNat (kind.bitsOf lhs / kind.bitsOf rhs), BitVec.toNat_udiv, Int.natCast_div,
          toNat_bitsOf hsigned hlhs, toNat_bitsOf hsigned hrhs,
          Int.tdiv_eq_ediv_of_nonneg]
        · rfl
        · rw [← toNat_bitsOf hsigned hlhs]
          exact Int.natCast_nonneg _
      rw [if_neg Bool.false_ne_true, BinaryOp.apply, if_neg hzero, hdiv]

theorem apply_remainder (hlhs : kind.Holds lhs) (hrhs : kind.Holds rhs) (hne : rhs ≠ 0) :
    (if kind.isSigned then BinaryOp.remS else .remU).apply (kind.bitsOf lhs) (kind.bitsOf rhs) =
      some (kind.bitsOf (lhs.tmod rhs)) := by
  have hzero := bitsOf_ne_zero hrhs hne
  cases hsigned : kind.isSigned with
  | true =>
      have hmod : (kind.bitsOf lhs).srem (kind.bitsOf rhs) = kind.bitsOf (lhs.tmod rhs) := by
        apply BitVec.eq_of_toInt_eq
        rw [BitVec.toInt_srem, toInt_bitsOf hsigned hlhs, toInt_bitsOf hsigned hrhs,
          toInt_bitsOf hsigned (holds_tmod hlhs hrhs)]
      rw [if_pos rfl, BinaryOp.apply, if_neg hzero, hmod]
  | false =>
      have hmod : kind.bitsOf lhs % kind.bitsOf rhs = kind.bitsOf (lhs.tmod rhs) := by
        rw [← ofInt_toNat (kind.bitsOf lhs % kind.bitsOf rhs), BitVec.toNat_umod, Int.natCast_mod,
          toNat_bitsOf hsigned hlhs, toNat_bitsOf hsigned hrhs,
          Int.tmod_eq_emod_of_nonneg]
        · rfl
        · rw [← toNat_bitsOf hsigned hlhs]
          exact Int.natCast_nonneg _
      rw [if_neg Bool.false_ne_true, BinaryOp.apply, if_neg hzero, hmod]

end WasmIntegerOperationKind

end Moth.Wasm
