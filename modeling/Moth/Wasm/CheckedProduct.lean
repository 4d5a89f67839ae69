import Moth.Wasm.CheckedIntegerExec

/-!
# Running checked products

The two ways a product is checked. A 32 bit product is exact in 64 bits and is
compared with the bounds of its domain; a 64 bit product is guarded by quotient
tests, whose sign branches keep every division from trapping.
-/

namespace Moth.Wasm

open Moth.Lexical Moth.Datatypes Moth.Hir Moth.Lib Moth.Lib.Wasm

section Execution

variable {ι σ : Type} {meaning : ι → (Nat → Value) → σ → HostResult σ} {fuel : Nat}
  {kind : WasmIntegerOperationKind} {destination left right : Nat} {lhs rhs : Int} {s : State σ}

def SignedRelation.holds (relation : SignedRelation) (x y : Int) : Bool :=
  match relation with
  | .LessThan => decide (x < y)
  | .GreaterThan => decide (y < x)

theorem execInstr_integerConstant (kind : WasmIntegerOperationKind) (v : Int) (s : State σ) :
    execInstr meaning fuel (emitIntegerConstant kind v) s =
      .next (s.push (encode kind.carrier v)) := by
  rw [emitIntegerConstant, execInstr_const]
  rfl

theorem execInstr_signedRelation {relation : SignedRelation} {v u : Int}
    (hsigned : kind.isSigned) (hv : kind.Holds v) (hu : kind.Holds u) :
    execInstr meaning fuel (emitSignedRelationOpcode kind relation)
      ((s.push (encode kind.carrier v)).push (encode kind.carrier u)) =
      .next (s.push (.bool (relation.holds v u))) := by
  have hvInt := WasmIntegerOperationKind.toInt_bitsOf hsigned hv
  have huInt := WasmIntegerOperationKind.toInt_bitsOf hsigned hu
  rw [encode_carrier, encode_carrier]
  cases relation <;> simp only [emitSignedRelationOpcode, execInstr_relation, RelationOp.apply,
    BitVec.slt, SignedRelation.holds, hvInt, huInt]

theorem execInstr_native {op : BinaryOp} {r : Int}
    (happly : op.apply (kind.bitsOf lhs) (kind.bitsOf rhs) = some (kind.bitsOf r)) :
    execInstr meaning fuel (.binary kind.carrier op)
      ((s.push (encode kind.carrier lhs)).push (encode kind.carrier rhs)) =
      .next (s.push (encode kind.carrier r)) := by
  rw [encode_carrier, encode_carrier, encode_carrier, execInstr_binary, happly]

theorem exec_signedLocalRelation {index : Nat} {v : Int} {relation : SignedRelation}
    (hsigned : kind.isSigned) (hv : kind.Holds v)
    (hs : s.locals index = encode kind.carrier v) :
    exec meaning fuel (emitSignedLocalRelation index kind relation) s =
      .next (s.push (.bool (relation.holds v 0))) := by
  simp only [emitSignedLocalRelation, exec_cons, exec_nil, execInstr_localGet, hs,
    Outcome.andThen_next, execInstr_integerConstant,
    execInstr_signedRelation hsigned hv kind.holds_zero]

/-- A factor against the quotient of a bound. -/
theorem exec_signedBoundFailure {compared denominator : Nat} {relation : SignedRelation}
    {c n d : Int} (hc : WasmIntegerOperationKind.Signed64.Holds c)
    (hn : WasmIntegerOperationKind.Signed64.Holds n)
    (hd : WasmIntegerOperationKind.Signed64.Holds d) (hne : d ≠ 0)
    (hfit : WasmIntegerOperationKind.Signed64.Holds (n.tdiv d))
    (hsc : s.locals compared = encode .I64 c) (hsd : s.locals denominator = encode .I64 d) :
    exec meaning fuel (emitSignedBoundFailure compared n denominator relation) s =
      if relation.holds c (n.tdiv d) then .trap else .next s := by
  have hconst : execInstr meaning fuel (emitIntegerConstant .Signed64 n)
      (s.push (encode .I64 c)) = .next ((s.push (encode .I64 c)).push (encode .I64 n)) :=
    execInstr_integerConstant .Signed64 n _
  have hdivide : execInstr meaning fuel (.binary .I64 .divS)
      (((s.push (encode .I64 c)).push (encode .I64 n)).push (encode .I64 d)) =
      .next ((s.push (encode .I64 c)).push (encode .I64 (n.tdiv d))) :=
    execInstr_native (WasmIntegerOperationKind.apply_divide hn hd hne hfit)
  have hrelation : execInstr meaning fuel (emitSignedRelationOpcode .Signed64 relation)
      ((s.push (encode .I64 c)).push (encode .I64 (n.tdiv d))) =
      .next (s.push (.bool (relation.holds c (n.tdiv d)))) :=
    execInstr_signedRelation rfl hc hfit
  simp only [emitSignedBoundFailure, exec_append, exec_cons, exec_nil, execInstr_localGet, hsc,
    Outcome.andThen_next, hconst, State.push_locals, hsd, hdivide, hrelation,
    exec_emitUnreachableIfTrue]

variable (meaning fuel) in
/-- The code traps on a condition and does nothing otherwise. -/
def Guards (code : List (Instr ι)) (s : State σ) (fails : Prop) : Prop :=
  (fails → exec meaning fuel code s = .trap) ∧ (¬fails → exec meaning fuel code s = .next s)

theorem guards_nil (s : State σ) : Guards meaning fuel ([] : List (Instr ι)) s False :=
  ⟨False.elim, fun _ => exec_nil meaning fuel s⟩

theorem Guards.iff {code : List (Instr ι)} {p q : Prop} (h : Guards meaning fuel code s p)
    (hpq : p ↔ q) : Guards meaning fuel code s q :=
  ⟨fun hq => h.1 (hpq.2 hq), fun hq => h.2 fun hp => hq (hpq.1 hp)⟩

theorem Guards.leaveBlock {code : List (Instr ι)} {p : Prop}
    (h : Guards meaning fuel code s.enter p) :
    (p → (exec meaning fuel code s.enter).leaveBlock s.stack = .trap) ∧
    (¬p → (exec meaning fuel code s.enter).leaveBlock s.stack = .next s) := by
  constructor
  · intro hp
    rw [h.1 hp]
    rfl
  · intro hp
    rw [h.2 hp]
    rfl

theorem guards_signBranch {index : Nat} {v : Int} {relation : SignedRelation}
    {onTrue onFalse : List (Instr ι)} {p q : Prop}
    (hv : WasmIntegerOperationKind.Signed64.Holds v)
    (hs : s.locals index = encode .I64 v)
    (hTrue : relation.holds v 0 = true → Guards meaning fuel onTrue s.enter p)
    (hFalse : relation.holds v 0 = false → Guards meaning fuel onFalse s.enter q) :
    Guards meaning fuel
      (emitSignedLocalRelation index .Signed64 relation ++ [.ite onTrue onFalse]) s
      (if relation.holds v 0 then p else q) := by
  have hrun : exec meaning fuel
      (emitSignedLocalRelation index .Signed64 relation ++ [.ite onTrue onFalse]) s =
      if relation.holds v 0 then (exec meaning fuel onTrue s.enter).leaveBlock s.stack
      else (exec meaning fuel onFalse s.enter).leaveBlock s.stack := by
    rw [exec_append, exec_signedLocalRelation rfl hv hs, Outcome.andThen_next,
      exec_singleton, execInstr_ite]
  rw [Guards, hrun]
  cases hcase : relation.holds v 0 with
  | true =>
      simp only [if_true]
      exact (hTrue hcase).leaveBlock
  | false =>
      simp only [Bool.false_eq_true, if_false]
      exact (hFalse hcase).leaveBlock

theorem guards_signedBoundFailure {compared denominator : Nat} {relation : SignedRelation}
    {c n d : Int} {p : Prop} (hc : WasmIntegerOperationKind.Signed64.Holds c)
    (hn : WasmIntegerOperationKind.Signed64.Holds n)
    (hd : WasmIntegerOperationKind.Signed64.Holds d) (hne : d ≠ 0)
    (hfit : n ≠ -9223372036854775808 ∨ d ≠ -1)
    (hsc : s.locals compared = encode .I64 c) (hsd : s.locals denominator = encode .I64 d)
    (hp : relation.holds c (n.tdiv d) = true ↔ p) :
    Guards meaning fuel (emitSignedBoundFailure compared n denominator relation) s p := by
  have hquotient : WasmIntegerOperationKind.Signed64.Holds (n.tdiv d) := by
    rw [WasmIntegerOperationKind.holds_tdiv_signed rfl hn]
    rintro ⟨hmin, hone⟩
    rcases hfit with h | h
    · exact h hmin
    · exact h hone
  rw [Guards, exec_signedBoundFailure hc hn hd hne hquotient hsc hsd, ← hp]
  exact ⟨fun h => if_pos h, fun h => if_neg h⟩

/-- The two branches on the sign of a local, neither taken for zero. -/
theorem guards_bySign {index : Nat} {v : Int} {onPositive onNegative : List (Instr ι)}
    {p q : Prop} (hv : WasmIntegerOperationKind.Signed64.Holds v)
    (hs : s.locals index = encode .I64 v)
    (hPositive : 0 < v → Guards meaning fuel onPositive s.enter p)
    (hNegative : v < 0 → Guards meaning fuel onNegative s.enter q) :
    Guards meaning fuel (emitSignedLocalRelation index .Signed64 .GreaterThan ++
      [.ite onPositive (emitSignedLocalRelation index .Signed64 .LessThan ++
        [.ite onNegative []])]) s
      (if 0 < v then p else if v < 0 then q else False) := by
  have hless : Guards meaning fuel
      (emitSignedLocalRelation index .Signed64 .LessThan ++ [.ite onNegative []]) s.enter
      (if SignedRelation.LessThan.holds v 0 then q else False) := by
    apply guards_signBranch hv (by exact hs)
    · intro h
      exact hNegative (of_decide_eq_true h)
    · intro _
      exact guards_nil _
  have hgreater : Guards meaning fuel (emitSignedLocalRelation index .Signed64 .GreaterThan ++
      [.ite onPositive (emitSignedLocalRelation index .Signed64 .LessThan ++
        [.ite onNegative []])]) s
      (if SignedRelation.GreaterThan.holds v 0 then p
        else if SignedRelation.LessThan.holds v 0 then q else False) := by
    apply guards_signBranch hv hs
    · intro h
      exact hPositive (of_decide_eq_true h)
    · intro _
      exact hless
  refine hgreater.iff ?_
  simp only [SignedRelation.holds, decide_eq_true_eq]

/-- The sign branches trap exactly where the product leaves the domain. -/
theorem guards_signedMultiplyOverflowCheck
    (hlhs : WasmIntegerOperationKind.Signed64.Holds lhs)
    (hrhs : WasmIntegerOperationKind.Signed64.Holds rhs)
    (hl : s.locals left = encode .I64 lhs) (hr : s.locals right = encode .I64 rhs) :
    Guards meaning fuel (emitSignedMultiplyOverflowCheck left right) s
      (¬WasmIntegerOperationKind.Signed64.Holds (lhs * rhs)) := by
  have hmax : WasmIntegerOperationKind.Signed64.Holds 9223372036854775807 := by decide
  have hmin : WasmIntegerOperationKind.Signed64.Holds (-9223372036854775808) := by decide
  refine Guards.iff (guards_bySign hrhs hr ?_ ?_)
    (signedMul_test (l := lhs) (r := rhs) (by decide) (by decide))
  · intro hpos
    refine guards_bySign hlhs hl ?_ ?_
    · intro _
      exact guards_signedBoundFailure hlhs hmax hrhs (by omega) (.inl (by decide)) hl hr
        decide_eq_true_iff
    · intro _
      exact guards_signedBoundFailure hlhs hmin hrhs (by omega) (.inr (by omega)) hl hr
        decide_eq_true_iff
  · intro hneg
    refine guards_bySign hlhs hl ?_ ?_
    · intro _
      exact guards_signedBoundFailure hrhs hmin hlhs (by omega) (.inr (by omega)) hr hl
        decide_eq_true_iff
    · intro _
      exact guards_signedBoundFailure hrhs hmax hlhs (by omega) (.inl (by decide)) hr hl
        decide_eq_true_iff

/-- The quotient test traps exactly where the product leaves the domain. -/
theorem guards_unsignedMultiplyOverflowCheck
    (hlhs : WasmIntegerOperationKind.Unsigned64.Holds lhs)
    (hrhs : WasmIntegerOperationKind.Unsigned64.Holds rhs)
    (hl : s.locals left = encode .I64 lhs) (hr : s.locals right = encode .I64 rhs) :
    Guards meaning fuel (emitUnsignedMultiplyOverflowCheck left right) s
      (¬WasmIntegerOperationKind.Unsigned64.Holds (lhs * rhs)) := by
  have hzeroTest : exec meaning fuel (emitLocalIsZero left .Unsigned64) s =
      .next (s.push (.bool (decide (lhs = 0)))) := exec_localIsZero hlhs hl
  by_cases hzero : lhs = 0
  · have hprod : WasmIntegerOperationKind.Unsigned64.Holds (lhs * rhs) := by
      rw [hzero, Int.zero_mul]
      decide
    refine ⟨fun h => absurd hprod h, fun _ => ?_⟩
    simp [emitUnsignedMultiplyOverflowCheck, hzeroTest, hzero]
  · have hne : BitVec.ofInt 64 lhs ≠ 0#64 :=
      WasmIntegerOperationKind.bitsOf_ne_zero hlhs hzero
    have hlNat := WasmIntegerOperationKind.toNat_bitsOf rfl hlhs
    have hrNat := WasmIntegerOperationKind.toNat_bitsOf rfl hrhs
    have hquotient : BinaryOp.divU.apply (BitVec.ofInt 64 (-1)) (BitVec.ofInt 64 lhs) =
        some (BitVec.allOnes 64 / BitVec.ofInt 64 lhs) := if_neg hne
    have htest : (BitVec.allOnes 64 / BitVec.ofInt 64 lhs).ult (BitVec.ofInt 64 rhs) =
        decide (¬WasmIntegerOperationKind.Unsigned64.Holds (lhs * rhs)) := by
      have hnonneg : 0 ≤ lhs * rhs := Int.mul_nonneg hlhs.1 hrhs.1
      have hcast : ((BitVec.ofInt 64 lhs).toNat * (BitVec.ofInt 64 rhs).toNat : Int) =
          lhs * rhs := congrArg₂ _ hlNat hrNat
      rw [unsignedMul_test _ hne, BitVec.umulOverflow, decide_eq_decide, ge_iff_le,
        ← Int.ofNat_le, Int.natCast_mul, hcast]
      simp only [WasmIntegerOperationKind.Holds, WasmIntegerOperationKind.range]
      omega
    have hdivide : execInstr meaning fuel (.binary .I64 .divU)
        (((s.enter.push (encode .I64 rhs)).push ⟨.I64, BitVec.ofInt 64 (-1)⟩).push
          (encode .I64 lhs)) = .next ((s.enter.push (encode .I64 rhs)).push
            ⟨.I64, BitVec.allOnes 64 / BitVec.ofInt 64 lhs⟩) := by
      rw [encode, encode, execInstr_binary, hquotient]
    have hrelation : execInstr meaning fuel (.relation .I64 .gtU)
        ((s.enter.push (encode .I64 rhs)).push ⟨.I64, BitVec.allOnes 64 / BitVec.ofInt 64 lhs⟩) =
        .next (s.enter.push
          (.bool (decide (¬WasmIntegerOperationKind.Unsigned64.Holds (lhs * rhs))))) := by
      rw [← htest]
      exact execInstr_relation meaning fuel .I64 .gtU _ _ _
    have hrun : exec meaning fuel (emitUnsignedMultiplyOverflowCheck left right) s =
        if ¬WasmIntegerOperationKind.Unsigned64.Holds (lhs * rhs) then .trap else .next s := by
      simp only [emitUnsignedMultiplyOverflowCheck, exec_append, hzeroTest, Outcome.andThen_next,
        exec_cons, exec_nil, execInstr_eqz_bool, execInstr_ite, hzero, decide_false, Bool.not_false,
        execInstr_localGet, execInstr_const, State.push_locals, State.enter_locals, hl, hr,
        hdivide, hrelation, exec_emitUnreachableIfTrue, decide_eq_true_eq, if_true]
      split <;> rfl
    rw [Guards, hrun]
    exact ⟨fun h => if_pos h, fun h => if_neg h⟩

theorem guards_constantTest {index : Nat} {v u : Int} {op : RelationOp} {b : Bool} {p : Prop}
    (hs : s.locals index = encode .I64 v)
    (htest : op.apply (BitVec.ofInt 64 v) (BitVec.ofInt 64 u) = b) (hp : b = true ↔ p) :
    Guards meaning fuel
      ([.localGet index, .const .I64 (BitVec.ofInt 64 u), .relation .I64 op] ++
        emitUnreachableIfTrue) s p := by
  have hrelation : execInstr meaning fuel (.relation .I64 op)
      ((s.push (encode .I64 v)).push ⟨.I64, BitVec.ofInt 64 u⟩) = .next (s.push (.bool b)) := by
    rw [← htest]
    exact execInstr_relation meaning fuel .I64 op (BitVec.ofInt 64 v) (BitVec.ofInt 64 u) s
  rw [Guards, ← hp]
  simp only [exec_append, exec_cons, exec_nil, execInstr_localGet, hs, Outcome.andThen_next,
    execInstr_const, hrelation, exec_emitUnreachableIfTrue]
  exact ⟨fun h => if_pos h, fun h => if_neg h⟩

theorem Guards.append {first rest : List (Instr ι)} {p q : Prop}
    (h : Guards meaning fuel first s p) (h' : Guards meaning fuel rest s q) :
    Guards meaning fuel (first ++ rest) s (p ∨ q) := by
  constructor
  · intro hpq
    rw [exec_append]
    by_cases hp : p
    · rw [h.1 hp]
      rfl
    · rw [h.2 hp]
      exact h'.1 (hpq.resolve_left hp)
  · intro hpq
    rw [not_or] at hpq
    rw [exec_append, h.2 hpq.1]
    exact h'.2 hpq.2

theorem slt_ofInt {v u : Int} (hv : WasmIntegerOperationKind.Signed64.Holds v)
    (hu : WasmIntegerOperationKind.Signed64.Holds u) :
    (BitVec.ofInt 64 v).slt (BitVec.ofInt 64 u) = decide (v < u) := by
  have hvInt := WasmIntegerOperationKind.toInt_bitsOf rfl hv
  have huInt := WasmIntegerOperationKind.toInt_bitsOf rfl hu
  rw [BitVec.slt, decide_eq_decide]
  exact iff_of_eq (congrArg₂ (· < ·) hvInt huInt)

theorem ult_ofInt {v u : Int} (hv : WasmIntegerOperationKind.Unsigned64.Holds v)
    (hu : WasmIntegerOperationKind.Unsigned64.Holds u) :
    (BitVec.ofInt 64 v).ult (BitVec.ofInt 64 u) = decide (v < u) := by
  have hvNat := WasmIntegerOperationKind.toNat_bitsOf rfl hv
  have huNat := WasmIntegerOperationKind.toNat_bitsOf rfl hu
  rw [BitVec.ult, decide_eq_decide, ← Int.ofNat_lt]
  exact iff_of_eq (congrArg₂ (· < ·) hvNat huNat)

/-- The 64 bit domain that holds every product of two 32 bit values. -/
def widened (kind : WasmIntegerOperationKind) : WasmIntegerOperationKind :=
  if kind.isSigned then .Signed64 else .Unsigned64

theorem holds_widened_mul (hsmall : kind.is32Bit) (hlhs : kind.Holds lhs)
    (hrhs : kind.Holds rhs) : (widened kind).Holds (lhs * rhs) := by
  have habs := Int.natAbs_mul lhs rhs
  cases kind with
  | Signed32 =>
      simp only [widened, WasmIntegerOperationKind.Holds, WasmIntegerOperationKind.range] at *
      have hle : lhs.natAbs * rhs.natAbs ≤ 2147483648 * 2147483648 :=
        Nat.mul_le_mul (by omega) (by omega)
      show -9223372036854775808 ≤ lhs * rhs ∧ lhs * rhs ≤ 9223372036854775807
      omega
  | Unsigned32 =>
      simp only [widened, WasmIntegerOperationKind.Holds, WasmIntegerOperationKind.range] at *
      have hle : lhs.natAbs * rhs.natAbs ≤ 4294967295 * 4294967295 :=
        Nat.mul_le_mul (by omega) (by omega)
      have hnonneg : 0 ≤ lhs * rhs := Int.mul_nonneg hlhs.1 hrhs.1
      show 0 ≤ lhs * rhs ∧ lhs * rhs ≤ 18446744073709551615
      omega
  | Signed64 => cases hsmall
  | Unsigned64 => cases hsmall

theorem guards_productRangeCheck {product : Nat} {p : Int} (hsmall : kind.is32Bit)
    (hp : (widened kind).Holds p) (hs : s.locals product = encode .I64 p) :
    Guards meaning fuel (emitProductRangeCheck product kind.isSigned) s (¬kind.Holds p) := by
  cases kind with
  | Signed32 =>
      have hbelow : (BitVec.ofInt 64 p).slt (BitVec.ofInt 64 (-2147483648)) =
          decide (p < -2147483648) := slt_ofInt hp (by decide)
      have habove : (BitVec.ofInt 64 2147483647).slt (BitVec.ofInt 64 p) =
          decide (2147483647 < p) := slt_ofInt (by decide) hp
      have hlow : Guards meaning fuel ([.localGet product,
          .const .I64 (BitVec.ofInt 64 (-2147483648)), .relation .I64 .ltS] ++
          emitUnreachableIfTrue) s (p < -2147483648) :=
        guards_constantTest hs hbelow decide_eq_true_iff
      have hhigh : Guards meaning fuel ([.localGet product,
          .const .I64 (BitVec.ofInt 64 2147483647), .relation .I64 .gtS] ++
          emitUnreachableIfTrue) s (2147483647 < p) :=
        guards_constantTest hs habove decide_eq_true_iff
      refine (hlow.append hhigh).iff ?_
      simp only [WasmIntegerOperationKind.Holds, WasmIntegerOperationKind.range]
      omega
  | Unsigned32 =>
      have habove : (BitVec.ofInt 64 4294967295).ult (BitVec.ofInt 64 p) =
          decide (4294967295 < p) := ult_ofInt (by decide) hp
      have hhigh : Guards meaning fuel ([.localGet product,
          .const .I64 (BitVec.ofInt 64 4294967295), .relation .I64 .gtU] ++
          emitUnreachableIfTrue) s (4294967295 < p) :=
        guards_constantTest hs habove decide_eq_true_iff
      refine hhigh.iff ?_
      have hnonneg : 0 ≤ p := hp.1
      simp only [WasmIntegerOperationKind.Holds, WasmIntegerOperationKind.range]
      omega
  | Signed64 => cases hsmall
  | Unsigned64 => cases hsmall

/-- Widening a value of a 32 bit domain is exact. -/
theorem execInstr_extend {v : Int} (hsmall : kind.is32Bit) (hv : kind.Holds v) :
    execInstr meaning fuel (if kind.isSigned then .extendS else .extendU)
      (s.push (encode kind.carrier v)) = .next (s.push (encode .I64 v)) := by
  cases kind with
  | Signed32 =>
      have hextend : (BitVec.ofInt 32 v).signExtend 64 = BitVec.ofInt 64 v :=
        signExtend_ofInt (by decide) hv.1 (Int.lt_add_one_of_le hv.2)
      rw [encode, encode, ← hextend]
      exact execInstr_extendS meaning fuel (BitVec.ofInt 32 v) s
  | Unsigned32 =>
      have hextend : (BitVec.ofInt 32 v).zeroExtend 64 = BitVec.ofInt 64 v :=
        zeroExtend_ofInt hv.1 (Int.lt_add_one_of_le hv.2)
      rw [encode, encode, ← hextend]
      exact execInstr_extendU meaning fuel (BitVec.ofInt 32 v) s
  | Signed64 => cases hsmall
  | Unsigned64 => cases hsmall

theorem delivers_of_guard {first rest : List (Instr ι)} {destination : Nat} {writes : List Nat}
    {v : Int} (hguard : Guards meaning fuel first s (¬kind.Holds v))
    (hrest : Delivers meaning fuel rest s destination writes kind.carrier (some v)) :
    Delivers meaning fuel (first ++ rest) s destination writes kind.carrier (kind.checked v) := by
  rw [WasmIntegerOperationKind.checked]
  by_cases hv : kind.Holds v
  · rw [if_pos hv]
    obtain ⟨s', hrun, hrest⟩ := hrest
    refine ⟨s', ?_, hrest⟩
    rw [exec_append, hguard.2 (fun h => h hv)]
    exact hrun
  · rw [if_neg hv, Delivers, exec_append, hguard.1 hv]
    rfl

theorem Delivers.after {first rest : List (Instr ι)} {s' : State σ} {writes : List Nat}
    {carrier : Carrier} {result : Option Int} (hfirst : exec meaning fuel first s = .next s')
    (hagrees : s.AgreesOff writes s')
    (h : Delivers meaning fuel rest s' destination writes carrier result) :
    Delivers meaning fuel (first ++ rest) s destination writes carrier result := by
  cases result with
  | none =>
      rw [Delivers, exec_append, hfirst]
      exact h
  | some v =>
      obtain ⟨t, hrun, hvalue, hafter⟩ := h
      refine ⟨t, ?_, hvalue, hagrees.trans hafter⟩
      rw [exec_append, hfirst]
      exact hrun

theorem Delivers.mono {code : List (Instr ι)} {writes more : List Nat} {carrier : Carrier}
    {result : Option Int} (h : Delivers meaning fuel code s destination writes carrier result)
    (hsub : ∀ x ∈ writes, x ∈ more) :
    Delivers meaning fuel code s destination more carrier result := by
  cases result with
  | none => exact h
  | some v =>
      obtain ⟨t, hrun, hvalue, hagrees⟩ := h
      exact ⟨t, hrun, hvalue, hagrees.mono hsub⟩

variable (kind) in
/-- The 32 bit product, through its wide scratch local. -/
theorem narrowProduct_delivers {product : Nat} (hsmall : kind.is32Bit) (hlhs : kind.Holds lhs)
    (hrhs : kind.Holds rhs) (hl : s.locals left = encode kind.carrier lhs)
    (hr : s.locals right = encode kind.carrier rhs) :
    Delivers meaning fuel
      ([.localGet left, if kind.isSigned then .extendS else .extendU, .localGet right,
        if kind.isSigned then .extendS else .extendU, .binary .I64 .mul, .localSet product] ++
        (emitProductRangeCheck product kind.isSigned ++
          [.localGet product, .wrap, .localSet destination]))
      s destination [destination, product] kind.carrier (kind.checked (lhs * rhs)) := by
  have hmul : ∀ t : State σ, execInstr meaning fuel (.binary .I64 .mul)
      ((t.push (encode .I64 lhs)).push (encode .I64 rhs)) =
      .next (t.push (encode .I64 (lhs * rhs))) := by
    intro t
    rw [encode, encode, encode, BitVec.ofInt_mul]
    exact execInstr_binary meaning fuel .I64 .mul (BitVec.ofInt 64 lhs) (BitVec.ofInt 64 rhs) t
  have hwrap : ∀ t : State σ, execInstr meaning fuel .wrap (t.push (encode .I64 (lhs * rhs))) =
      .next (t.push (encode kind.carrier (lhs * rhs))) := by
    intro t
    have hcarrier : kind.carrier = .I32 := by
      cases kind <;> first | rfl | cases hsmall
    have htruncate : (BitVec.ofInt 64 (lhs * rhs)).truncate 32 = BitVec.ofInt 32 (lhs * rhs) :=
      truncate_ofInt (by decide) _
    rw [hcarrier, encode, encode, ← htruncate]
    exact execInstr_wrap meaning fuel (BitVec.ofInt 64 (lhs * rhs)) t
  have hprelude : exec meaning fuel
      [.localGet left, if kind.isSigned then .extendS else .extendU, .localGet right,
        if kind.isSigned then .extendS else .extendU, .binary .I64 .mul, .localSet product] s =
      .next (s.setLocal product (encode .I64 (lhs * rhs))) := by
    simp only [exec_cons, exec_nil, execInstr_localGet, hl, Outcome.andThen_next,
      execInstr_extend hsmall hlhs, State.push_locals, hr, execInstr_extend hsmall hrhs, hmul,
      execInstr_localSet]
  refine Delivers.after hprelude ((State.AgreesOff.refl s).setLocal (by simp) _) ?_
  refine delivers_of_guard
    (guards_productRangeCheck hsmall (holds_widened_mul hsmall hlhs hrhs)
      (State.setLocal_self _ _ _)) (Delivers.mono (delivers_of_set ?_) (by simp))
  simp only [exec_cons, exec_nil, execInstr_localGet, State.setLocal_self, Outcome.andThen_next,
    hwrap, execInstr_localSet]

/-- The checked product, whichever way it is checked. -/
theorem emitCheckedMultiplyInto_delivers {product : Option Nat} {code : List (Instr ι)}
    (hcode : emitCheckedMultiplyInto destination left right kind product = .ok code)
    (hlhs : kind.Holds lhs) (hrhs : kind.Holds rhs)
    (hl : s.locals left = encode kind.carrier lhs)
    (hr : s.locals right = encode kind.carrier rhs) :
    Delivers meaning fuel code s destination (destination :: product.toList) kind.carrier
      (kind.checked (lhs * rhs)) := by
  have hmul : BinaryOp.mul.apply (kind.bitsOf lhs) (kind.bitsOf rhs) =
      some (kind.bitsOf (lhs * rhs)) := congrArg some (BitVec.ofInt_mul lhs rhs).symm
  have hnative : exec meaning fuel [.localGet left, .localGet right, .binary kind.carrier .mul,
      .localSet destination] s = .next (s.setLocal destination (encode kind.carrier (lhs * rhs))) :=
    exec_native hmul hl hr
  cases kind with
  | Signed32 =>
      cases product with
      | none => cases hcode
      | some product =>
          cases hcode
          exact narrowProduct_delivers .Signed32 rfl hlhs hrhs hl hr
  | Unsigned32 =>
      cases product with
      | none => cases hcode
      | some product =>
          cases hcode
          exact narrowProduct_delivers .Unsigned32 rfl hlhs hrhs hl hr
  | Signed64 =>
      cases product with
      | some product => cases hcode
      | none =>
          cases hcode
          rw [List.append_assoc]
          exact delivers_of_guard (guards_signedMultiplyOverflowCheck hlhs hrhs hl hr)
            (delivers_of_set hnative)
  | Unsigned64 =>
      cases product with
      | some product => cases hcode
      | none =>
          cases hcode
          rw [List.append_assoc]
          exact delivers_of_guard (guards_unsignedMultiplyOverflowCheck hlhs hrhs hl hr)
            (delivers_of_set hnative)

end Execution

end Moth.Wasm
