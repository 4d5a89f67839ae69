import Moth.Wasm.IntegerDomain

/-!
# Running checked integer operations

What each emitted sequence does to a machine state: it traps where the exact
result leaves the operation's domain, and leaves the exact result in the
destination otherwise. Locals other than the destination and the operation's
scratch are untouched.
-/

namespace Moth.Wasm

open Moth.Lexical Moth.Datatypes Moth.Hir Moth.Lib Moth.Lib.Wasm

section Execution

variable {ι σ : Type} (meaning : ι → (Nat → Value) → σ → HostResult σ) (fuel : Nat)

@[simp] theorem exec_emitUnreachableIfTrue (b : Bool) (s : State σ) :
    exec meaning fuel emitUnreachableIfTrue (s.push (.bool b)) =
      if b then .trap else .next s := by
  cases b <;> simp [emitUnreachableIfTrue]

/-- The code traps for no result, and otherwise leaves the result in the
destination and changes nothing but the listed locals. -/
def Delivers (code : List (Instr ι)) (s : State σ) (destination : Nat) (writes : List Nat)
    (carrier : Carrier) (result : Option Int) : Prop :=
  match result with
  | none => exec meaning fuel code s = .trap
  | some v => ∃ s', exec meaning fuel code s = .next s' ∧
      s'.locals destination = encode carrier v ∧ s.AgreesOff writes s'

variable {meaning fuel}

theorem encode_carrier (kind : WasmIntegerOperationKind) (v : Int) :
    encode kind.carrier v = ⟨kind.carrier, kind.bitsOf v⟩ := rfl

theorem delivers_of_set {code : List (Instr ι)} {s : State σ} {destination : Nat}
    {carrier : Carrier} {v : Int}
    (h : exec meaning fuel code s = .next (s.setLocal destination (encode carrier v))) :
    Delivers meaning fuel code s destination [destination] carrier (some v) :=
  ⟨_, h, State.setLocal_self _ _ _,
    (State.AgreesOff.refl s).setLocal (List.mem_singleton_self _) _⟩

theorem delivers_of_test {code : List (Instr ι)} {s : State σ} {destination : Nat}
    {kind : WasmIntegerOperationKind} {v : Int}
    (h : exec meaning fuel code s = if !decide (kind.Holds v) then .trap
      else .next (s.setLocal destination (encode kind.carrier v))) :
    Delivers meaning fuel code s destination [destination] kind.carrier (kind.checked v) := by
  by_cases hv : kind.Holds v
  · rw [WasmIntegerOperationKind.checked, if_pos hv]
    rw [decide_eq_true hv] at h
    exact delivers_of_set h
  · rw [WasmIntegerOperationKind.checked, if_neg hv]
    rw [decide_eq_false hv] at h
    exact h

section Operations

variable {kind : WasmIntegerOperationKind} {destination left right : Nat} {lhs rhs : Int}
  {s : State σ}

theorem emitCheckedAdd_delivers (hlhs : kind.Holds lhs) (hrhs : kind.Holds rhs)
    (hl : s.locals left = encode kind.carrier lhs) (hr : s.locals right = encode kind.carrier rhs)
    (hleft : left ≠ destination) (hright : right ≠ destination) :
    ∃ code, emitCheckedAdd destination left right kind = .ok code ∧
      Delivers meaning fuel code s destination [destination] kind.carrier
        (kind.checked (lhs + rhs)) := by
  refine ⟨_, rfl, delivers_of_test ?_⟩
  have htest := kind.add_test (kind.bitsOf lhs) (kind.bitsOf rhs)
  rw [WasmIntegerOperationKind.value_bitsOf hlhs, WasmIntegerOperationKind.value_bitsOf hrhs]
    at htest
  have hsum : kind.bitsOf (lhs + rhs) = kind.bitsOf lhs + kind.bitsOf rhs :=
    BitVec.ofInt_add lhs rhs
  rw [encode_carrier] at hl hr
  rw [← htest, encode_carrier, hsum]
  cases hsigned : kind.isSigned with
  | true => simp [emitAddOverflow, hsigned, hl, hr, hleft, hright, emitIntegerConstant]
  | false => simp [emitAddOverflow, hsigned, hl, hr, hleft]

theorem emitCheckedSubtract_delivers (hlhs : kind.Holds lhs) (hrhs : kind.Holds rhs)
    (hl : s.locals left = encode kind.carrier lhs) (hr : s.locals right = encode kind.carrier rhs)
    (hleft : left ≠ destination) (hright : right ≠ destination) :
    ∃ code, emitCheckedSubtract destination left right kind = .ok code ∧
      Delivers meaning fuel code s destination [destination] kind.carrier
        (kind.checked (lhs - rhs)) := by
  refine ⟨_, rfl, delivers_of_test ?_⟩
  have htest := kind.sub_test (kind.bitsOf lhs) (kind.bitsOf rhs)
  rw [WasmIntegerOperationKind.value_bitsOf hlhs, WasmIntegerOperationKind.value_bitsOf hrhs]
    at htest
  have hdiff : kind.bitsOf (lhs - rhs) = kind.bitsOf lhs - kind.bitsOf rhs := ofInt_sub lhs rhs
  rw [encode_carrier] at hl hr
  rw [← htest, encode_carrier, hdiff]
  cases hsigned : kind.isSigned with
  | true => simp [emitSubtractOverflow, hsigned, hl, hr, hleft, hright, emitIntegerConstant]
  | false => simp [emitSubtractOverflow, hsigned, hl, hr, hleft, hright]

theorem exec_localEqualsConstant {index : Nat} {v u : Int} (hv : kind.Holds v) (hu : kind.Holds u)
    (hs : s.locals index = encode kind.carrier v) :
    exec meaning fuel (emitLocalEqualsConstant index kind u) s =
      .next (s.push (.bool (decide (v = u)))) := by
  have hbeq := WasmIntegerOperationKind.bitsOf_beq hv hu
  rw [WasmIntegerOperationKind.bitsOf, WasmIntegerOperationKind.bitsOf] at hbeq
  simp [emitLocalEqualsConstant, emitIntegerConstant, hs, encode, hbeq]

theorem exec_localIsZero {index : Nat} {v : Int} (hv : kind.Holds v)
    (hs : s.locals index = encode kind.carrier v) :
    exec meaning fuel (emitLocalIsZero index kind) s = .next (s.push (.bool (decide (v = 0)))) := by
  have hbeq := WasmIntegerOperationKind.bitsOf_beq hv kind.holds_zero
  rw [WasmIntegerOperationKind.bitsOf_zero] at hbeq
  rw [encode_carrier] at hs
  simp only [emitLocalIsZero, exec_cons, exec_nil, execInstr_localGet, hs, Outcome.andThen_next,
    execInstr_eqz, hbeq]

/-- `0 - operand`, over indices. -/
def negationCode (destination operand : Nat) (kind : WasmIntegerOperationKind) :
    List (Instr ι) :=
  [emitIntegerConstant kind 0, .localGet operand, .binary kind.carrier .sub,
    .localSet destination]

theorem emitNegation_eq (destination operand : Nat) (kind : WasmIntegerOperationKind) :
    (emitNegation destination operand kind : Except InfrastructureFailure (List (Instr ι))) =
      .ok (negationCode destination operand kind) := rfl

theorem exec_negation {operand : Nat} {v : Int} (hs : s.locals operand = encode kind.carrier v) :
    exec meaning fuel (negationCode destination operand kind) s =
      .next (s.setLocal destination (encode kind.carrier (-v))) := by
  simp [negationCode, emitIntegerConstant, hs, encode, BitVec.ofInt_neg]

theorem holds_neg {v : Int} (hsigned : kind.isSigned) (hv : kind.Holds v) :
    kind.Holds (-v) ↔ v ≠ kind.range.1 := by
  cases kind <;> first
    | (cases hsigned; done)
    | (simp only [WasmIntegerOperationKind.Holds, WasmIntegerOperationKind.range] at *; omega)

theorem signedBounds_eq (hsigned : kind.isSigned) : kind.signedBounds = some kind.range := by
  cases kind <;> first | (cases hsigned; done) | rfl

theorem signedBounds_eq_none (hsigned : kind.isSigned = false) : kind.signedBounds = none := by
  cases kind <;> first | (cases hsigned; done) | rfl

theorem holds_minimum (kind : WasmIntegerOperationKind) : kind.Holds kind.range.1 := by
  cases kind <;> decide

variable (meaning fuel) in
theorem emitCheckedNegation_delivers {operand : Nat} {v : Int} (hsigned : kind.isSigned)
    (hv : kind.Holds v) (hs : s.locals operand = encode kind.carrier v) :
    ∃ code, emitCheckedNegation destination operand kind = .ok code ∧
      Delivers meaning fuel code s destination [destination] kind.carrier (kind.checked (-v)) := by
  refine ⟨emitLocalEqualsConstant operand kind kind.range.1 ++ emitUnreachableIfTrue ++
    negationCode destination operand kind, ?_, delivers_of_test ?_⟩
  · simp only [emitCheckedNegation, signedBounds_eq hsigned, emitNegation_eq, ok_bind]
  have hdecide : (!decide (kind.Holds (-v))) = decide (v = kind.range.1) := by
    rw [decide_eq_decide.2 (holds_neg hsigned hv), decide_not, Bool.not_not]
  rw [exec_append, exec_append, exec_localEqualsConstant hv (holds_minimum kind) hs,
    Outcome.andThen_next, exec_emitUnreachableIfTrue, Outcome.andThen_ite, Outcome.andThen_next,
    Outcome.andThen_trap, exec_negation hs, hdecide]

/-- The quotient that the checked division delivers. -/
def quotientResult (kind : WasmIntegerOperationKind) (lhs rhs : Int) : Option Int :=
  if rhs = 0 then none else kind.checked (lhs.tdiv rhs)

def remainderResult (lhs rhs : Int) : Option Int :=
  if rhs = 0 then none else some (lhs.tmod rhs)

theorem holds_neg_one (hsigned : kind.isSigned) : kind.Holds (-1) := by
  cases kind <;> first | (cases hsigned; done) | decide

/-- The overflow predicate of a division traps exactly where the quotient
leaves the domain. -/
theorem exec_divisionOverflow (hlhs : kind.Holds lhs) (hrhs : kind.Holds rhs)
    (hl : s.locals left = encode kind.carrier lhs)
    (hr : s.locals right = encode kind.carrier rhs) :
    exec meaning fuel (emitDivisionOverflow left right kind) s =
      if kind.Holds (lhs.tdiv rhs) then .next s else .trap := by
  cases hsigned : kind.isSigned with
  | false =>
      rw [if_pos (WasmIntegerOperationKind.holds_tdiv_unsigned hsigned hlhs hrhs)]
      simp [emitDivisionOverflow, signedBounds_eq_none hsigned]
  | true =>
      have hiff : kind.Holds (lhs.tdiv rhs) ↔ ¬(lhs = kind.range.1 ∧ rhs = -1) :=
        WasmIntegerOperationKind.holds_tdiv_signed hsigned hlhs
      simp only [emitDivisionOverflow, signedBounds_eq hsigned, exec_append,
        exec_localEqualsConstant hlhs (holds_minimum kind) hl, Outcome.andThen_next]
      rw [exec_localEqualsConstant hrhs (holds_neg_one hsigned) (by simpa using hr),
        Outcome.andThen_next, exec_cons, execInstr_and_bool, Outcome.andThen_next, exec_nil,
        Outcome.andThen_next, exec_emitUnreachableIfTrue, ← Bool.decide_and]
      by_cases hoverflow : lhs = kind.range.1 ∧ rhs = -1
      · rw [if_neg (fun h => hiff.1 h hoverflow), if_pos (decide_eq_true hoverflow)]
      · rw [if_pos (hiff.2 hoverflow), if_neg]
        rw [decide_eq_false hoverflow]
        exact Bool.false_ne_true

theorem exec_native {op : BinaryOp} {r : Int}
    (happly : op.apply (kind.bitsOf lhs) (kind.bitsOf rhs) = some (kind.bitsOf r))
    (hl : s.locals left = encode kind.carrier lhs)
    (hr : s.locals right = encode kind.carrier rhs) :
    exec meaning fuel
      [.localGet left, .localGet right, .binary kind.carrier op, .localSet destination] s =
      .next (s.setLocal destination (encode kind.carrier r)) := by
  rw [encode_carrier] at hl hr
  simp only [exec_cons, exec_nil, execInstr_localGet, hl, Outcome.andThen_next,
    State.push_locals, hr, execInstr_binary, happly, execInstr_localSet]
  rfl

theorem exec_zeroDivisor {v : Int} (hv : kind.Holds v)
    (hs : s.locals right = encode kind.carrier v) :
    exec meaning fuel (emitLocalIsZero right kind ++ emitUnreachableIfTrue) s =
      if v = 0 then .trap else .next s := by
  rw [exec_append, exec_localIsZero hv hs, Outcome.andThen_next, exec_emitUnreachableIfTrue]
  simp only [decide_eq_true_eq]

theorem emitCheckedDivision_delivers (hlhs : kind.Holds lhs) (hrhs : kind.Holds rhs)
    (hl : s.locals left = encode kind.carrier lhs)
    (hr : s.locals right = encode kind.carrier rhs) :
    ∃ code, emitCheckedDivision destination left right kind = .ok code ∧
      Delivers meaning fuel code s destination [destination] kind.carrier
        (quotientResult kind lhs rhs) := by
  refine ⟨_, rfl, ?_⟩
  rw [List.append_assoc]
  rw [quotientResult]
  by_cases hzero : rhs = 0
  · rw [if_pos hzero, Delivers, exec_append, exec_append, exec_zeroDivisor hrhs hr, if_pos hzero]
    rfl
  rw [if_neg hzero, WasmIntegerOperationKind.checked]
  by_cases hfit : kind.Holds (lhs.tdiv rhs)
  · rw [if_pos hfit]
    apply delivers_of_set
    rw [exec_append, exec_append, exec_zeroDivisor hrhs hr, if_neg hzero, Outcome.andThen_next,
      exec_divisionOverflow hlhs hrhs hl hr, if_pos hfit, Outcome.andThen_next]
    exact exec_native (WasmIntegerOperationKind.apply_divide hlhs hrhs hzero hfit) hl hr
  · rw [if_neg hfit, Delivers, exec_append, exec_append, exec_zeroDivisor hrhs hr, if_neg hzero,
      Outcome.andThen_next, exec_divisionOverflow hlhs hrhs hl hr, if_neg hfit]
    rfl

theorem emitCheckedRemainder_delivers (hlhs : kind.Holds lhs) (hrhs : kind.Holds rhs)
    (hl : s.locals left = encode kind.carrier lhs)
    (hr : s.locals right = encode kind.carrier rhs) :
    ∃ code, emitCheckedRemainder destination left right kind = .ok code ∧
      Delivers meaning fuel code s destination [destination] kind.carrier
        (remainderResult lhs rhs) := by
  refine ⟨_, rfl, ?_⟩
  rw [List.append_assoc]
  rw [remainderResult]
  by_cases hzero : rhs = 0
  · rw [if_pos hzero, Delivers, exec_append, exec_zeroDivisor hrhs hr, if_pos hzero]
    rfl
  · rw [if_neg hzero]
    apply delivers_of_set
    rw [exec_append, exec_zeroDivisor hrhs hr, if_neg hzero, Outcome.andThen_next]
    exact exec_native (WasmIntegerOperationKind.apply_remainder hlhs hrhs hzero) hl hr

end Operations

end Execution

end Moth.Wasm
