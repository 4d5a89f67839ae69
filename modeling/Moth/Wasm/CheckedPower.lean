import Moth.Lib.SquareMultiply
import Moth.Wasm.CheckedProduct

/-!
# Running checked powers

The square-and-multiply loop of a checked power. One pass takes a bit off the
exponent; it traps where a product it needs leaves the domain, and then the
power leaves the domain too.
-/

namespace Moth.Wasm

open Moth.Lexical Moth.Datatypes Moth.Hir Moth.Lib Moth.Lib.Wasm

section Execution

variable {ι σ : Type} {meaning : ι → (Nat → Value) → σ → HostResult σ} {fuel : Nat}
  {kind : WasmIntegerOperationKind} {s : State σ}

/-- No square falls between the two magnitudes of a domain. -/
theorem powerRange (kind : WasmIntegerOperationKind) :
    PowerRange kind.range.1 kind.range.2 := by
  have habs : ∀ f : Int, f * f = (f.natAbs * f.natAbs : Nat) := by
    intro f
    rw [Int.natCast_mul, Int.natAbs_mul_self']
  have hgap : ∀ (f : Int) (root low high : Nat), root * root ≤ low →
      high < (root + 1) * (root + 1) → (low : Int) < f * f → (high : Int) < f * f := by
    intro f root low high hroot hnext hlow
    rw [habs] at hlow ⊢
    have hbig : root < f.natAbs := by
      by_contra hle
      have hsq : f.natAbs * f.natAbs ≤ root * root := Nat.mul_le_mul (by omega) (by omega)
      omega
    have hsq : (root + 1) * (root + 1) ≤ f.natAbs * f.natAbs := Nat.mul_le_mul hbig hbig
    omega
  cases kind with
  | Signed32 =>
      refine ⟨by decide, by decide, fun f h => ?_⟩
      exact hgap f 46340 2147483647 2147483648 (by decide) (by decide) h
  | Unsigned32 =>
      refine ⟨by decide, by decide, fun f h => ?_⟩
      exact lt_trans (by decide) h
  | Signed64 =>
      refine ⟨by decide, by decide, fun f h => ?_⟩
      exact hgap f 3037000499 9223372036854775807 9223372036854775808 (by decide) (by decide) h
  | Unsigned64 =>
      refine ⟨by decide, by decide, fun f h => ?_⟩
      exact lt_trans (by decide) h

theorem holds_nat_lt {e : Nat} (he : kind.Holds e) : e < 2 ^ kind.carrier.bits := by
  have hle := he.2
  cases kind <;> simp only [WasmIntegerOperationKind.range] at hle <;>
    simp only [WasmIntegerOperationKind.carrier, Carrier.bits] <;> omega

theorem exec_localIsOdd {index e : Nat} (hs : s.locals index = encode kind.carrier e) :
    exec meaning fuel (emitLocalIsOdd index kind) s =
      .next (s.push (.bool (decide (e % 2 = 1)))) := by
  have htest := odd_test kind.carrier.bits_pos e
  simp only [encode, BitVec.ofInt_natCast] at hs
  rw [← htest]
  simp [emitLocalIsOdd, emitIntegerConstant, hs]

variable (meaning fuel) in
theorem exec_shiftExponentRight {index e : Nat} (he : kind.Holds e)
    (hs : s.locals index = encode kind.carrier e) :
    exec meaning fuel (emitShiftExponentRight index kind) s =
      .next (s.setLocal index (encode kind.carrier (e / 2 : Nat))) := by
  have hshift := shiftRight_one (holds_nat_lt he)
  simp only [encode, BitVec.ofInt_natCast] at hs ⊢
  rw [← hshift]
  cases kind <;> simp [emitShiftExponentRight, emitIntegerConstant, hs] <;> rfl

/-- A conditional whose skipped branch leaves the destination as it is. -/
theorem delivers_ite {test code : List (Instr ι)} {b : Bool} {destination : Nat}
    {writes : List Nat} {carrier : Carrier} {v : Int} {result : Option Int}
    (htest : exec meaning fuel test s = .next (s.push (.bool b)))
    (hs : s.locals destination = encode carrier v)
    (hcode : b = true → Delivers meaning fuel code s.enter destination writes carrier result) :
    Delivers meaning fuel (test ++ [.ite code []]) s destination writes carrier
      (if b then result else some v) := by
  have hrun : exec meaning fuel (test ++ [.ite code []]) s =
      if b then (exec meaning fuel code s.enter).leaveBlock s.stack else .next s := by
    rw [exec_append, htest, Outcome.andThen_next, exec_singleton, execInstr_ite, exec_nil]
    rfl
  cases b with
  | false => exact ⟨s, hrun, hs, State.AgreesOff.refl s⟩
  | true =>
      have hdelivers := hcode rfl
      rw [if_pos rfl] at hrun ⊢
      cases result with
      | none =>
          rw [Delivers, hrun, hdelivers]
          rfl
      | some u =>
          obtain ⟨t, hcode, hvalue, hagrees⟩ := hdelivers
          refine ⟨t.leave s.stack, ?_, hvalue, ⟨rfl, hagrees.store, hagrees.locals⟩⟩
          rw [hrun, hcode]
          rfl

/-- The loop's locals hold an accumulator, a factor and what is left of the exponent. -/
structure PowerLocals (kind : WasmIntegerOperationKind) (destination : Nat)
    (scratch : WasmIntegerPowerScratch Nat) (s : State σ) (d f : Int) (e : Nat) : Prop where
  destination : s.locals destination = encode kind.carrier d
  factor : s.locals scratch.factor = encode kind.carrier f
  exponent : s.locals scratch.exponent = encode kind.carrier e
  holds_accumulator : kind.Holds d
  holds_factor : kind.Holds f
  holds_exponent : kind.Holds e
  accumulator_zero : d = 0 → f = 0

/-- The locals of a power that must differ. -/
structure PowerDistinct (destination : Nat) (product : Option Nat)
    (scratch : WasmIntegerPowerScratch Nat) : Prop where
  factor_exponent : scratch.factor ≠ scratch.exponent
  factor_destination : scratch.factor ≠ destination
  exponent_destination : scratch.exponent ≠ destination
  product_factor : scratch.factor ∉ product.toList
  product_exponent : scratch.exponent ∉ product.toList
  product_destination : destination ∉ product.toList

/-- The two products of a pass, over locals that differ. -/
structure PowerProducts (kind : WasmIntegerOperationKind) (destination : Nat)
    (product : Option Nat) (scratch : WasmIntegerPowerScratch Nat)
    (accumulate square : List (Instr ι)) : Prop where
  distinct : PowerDistinct destination product scratch
  accumulates : emitCheckedMultiplyInto destination destination scratch.factor kind product =
    .ok accumulate
  squares : emitCheckedMultiplyInto scratch.factor scratch.factor scratch.factor kind product =
    .ok square

/-- The body of the loop. -/
def powerPass (exponent : Nat) (kind : WasmIntegerOperationKind)
    (accumulate square : List (Instr ι)) : List (Instr ι) :=
  (emitLocalIsZero exponent kind ++ [.brIf 1]) ++
  ((emitLocalIsOdd exponent kind ++ [.ite accumulate []]) ++
  (emitShiftExponentRight exponent kind ++
  (((emitLocalIsZero exponent kind ++ [.eqz .I32]) ++ [.ite square []]) ++ [.br 0])))

theorem holds_half {e : Nat} (he : kind.Holds e) : kind.Holds (e / 2 : Nat) := by
  have hlow : kind.range.1 ≤ 0 := (powerRange kind).nonpos
  have hhigh := he.2
  constructor <;> omega

section Pass

variable {destination : Nat} {product : Option Nat} {scratch : WasmIntegerPowerScratch Nat}
  {accumulate square : List (Instr ι)} {d f : Int} {e : Nat}

/-- An exhausted exponent leaves the loop. -/
theorem exec_powerPass_zero (hs : PowerLocals kind destination scratch s d f 0) :
    exec meaning fuel (powerPass scratch.exponent kind accumulate square) s = .branch 1 s := by
  have hzero : exec meaning fuel (emitLocalIsZero scratch.exponent kind) s =
      .next (s.push (.bool true)) := exec_localIsZero hs.holds_exponent hs.exponent
  rw [powerPass, exec_append, exec_append, hzero, Outcome.andThen_next, exec_singleton,
    execInstr_brIf]
  rfl

theorem checked_of_holds {v : Int} (hv : kind.Holds v) : kind.checked v = some v := if_pos hv

theorem checked_of_not_holds {v : Int} (hv : ¬kind.Holds v) : kind.checked v = none := if_neg hv

theorem checked_ite {b : Bool} {u v : Int} (hv : kind.Holds v) :
    (if b then kind.checked u else some v) = kind.checked (if b then u else v) := by
  cases b with
  | false => exact (checked_of_holds hv).symm
  | true => rfl

variable (meaning fuel) in
/-- The accumulator's part of a pass. -/
theorem powerPass_accumulates (h : PowerProducts kind destination product scratch accumulate square)
    (hs : PowerLocals kind destination scratch s d f e) :
    Delivers meaning fuel (emitLocalIsOdd scratch.exponent kind ++ [.ite accumulate []]) s
      destination (destination :: product.toList) kind.carrier
      (kind.checked (if decide (e % 2 = 1) then d * f else d)) := by
  rw [← checked_ite hs.holds_accumulator]
  apply delivers_ite (exec_localIsOdd hs.exponent) hs.destination
  intro _
  exact emitCheckedMultiplyInto_delivers h.accumulates hs.holds_accumulator hs.holds_factor
    hs.destination hs.factor

variable (meaning fuel) in
/-- The factor's part of a pass, after the exponent was halved. -/
theorem powerPass_squares (h : PowerProducts kind destination product scratch accumulate square)
    (he : kind.Holds e) (hf : kind.Holds f)
    (hfactor : s.locals scratch.factor = encode kind.carrier f)
    (hexponent : s.locals scratch.exponent = encode kind.carrier e) :
    Delivers meaning fuel
      ((emitLocalIsZero scratch.exponent kind ++ [.eqz .I32]) ++ [.ite square []]) s
      scratch.factor (scratch.factor :: product.toList) kind.carrier
      (kind.checked (if !decide ((e : Int) = 0) then f * f else f)) := by
  have htest : exec meaning fuel (emitLocalIsZero scratch.exponent kind ++ [.eqz .I32]) s =
      .next (s.push (.bool (!decide ((e : Int) = 0)))) := by
    rw [exec_append, exec_localIsZero he hexponent, Outcome.andThen_next, exec_singleton,
      execInstr_eqz_bool]
  rw [← checked_ite hf]
  apply delivers_ite htest hfactor
  intro _
  exact emitCheckedMultiplyInto_delivers h.squares hf hf hfactor hfactor

/-- The locals a power writes. -/
def powerWrites (destination : Nat) (product : Option Nat)
    (scratch : WasmIntegerPowerScratch Nat) : List Nat :=
  destination :: scratch.factor :: scratch.exponent :: product.toList

theorem accumulator_zero_pass {b c : Bool} (h : d = 0 → f = 0) :
    (if b then d * f else d) = 0 → (if c then f * f else f) = 0 := by
  intro hzero
  have hf : f = 0 := by
    cases b with
    | false => exact h hzero
    | true => exact (Int.mul_eq_zero.1 hzero).elim h id
  rw [hf]
  cases c <;> rfl

variable (meaning fuel) in
/-- A pass over an exponent that is not exhausted: the bit is taken off, unless
a product that the pass needs leaves the domain. -/
theorem exec_powerPass (h : PowerProducts kind destination product scratch accumulate square)
    (he : e ≠ 0) (hs : PowerLocals kind destination scratch s d f e)
    {d' f' : Int} (hd' : d' = if decide (e % 2 = 1) then d * f else d)
    (hf' : f' = if !decide (((e / 2 : Nat) : Int) = 0) then f * f else f) :
    (kind.Holds d' → kind.Holds f' → ∃ s',
      exec meaning fuel (powerPass scratch.exponent kind accumulate square) s = .branch 0 s' ∧
      PowerLocals kind destination scratch s' d' f' (e / 2) ∧
      s.AgreesOff (powerWrites destination product scratch) s') ∧
    (¬(kind.Holds d' ∧ kind.Holds f') →
      exec meaning fuel (powerPass scratch.exponent kind accumulate square) s = .trap) := by
  have hexit : exec meaning fuel (emitLocalIsZero scratch.exponent kind ++ [.brIf 1]) s =
      .next s := by
    have hne : ((e : Int) = 0) = False := by simpa using he
    rw [exec_append, exec_localIsZero hs.holds_exponent hs.exponent, Outcome.andThen_next,
      exec_singleton, execInstr_brIf]
    simp only [hne, decide_false, Bool.false_eq_true, if_false]
  have hfirst := powerPass_accumulates meaning fuel h hs
  rw [← hd'] at hfirst
  by_cases hholds : kind.Holds d'
  · rw [checked_of_holds hholds] at hfirst
    obtain ⟨s₁, hrun₁, hvalue₁, hagrees₁⟩ := hfirst
    have hexponent₁ : s₁.locals scratch.exponent = encode kind.carrier e := by
      rw [hagrees₁.locals, hs.exponent]
      exact List.not_mem_cons_of_ne_of_not_mem h.distinct.exponent_destination
        h.distinct.product_exponent
    have hfactor₁ : s₁.locals scratch.factor = encode kind.carrier f := by
      rw [hagrees₁.locals, hs.factor]
      exact List.not_mem_cons_of_ne_of_not_mem h.distinct.factor_destination
        h.distinct.product_factor
    have hshift := exec_shiftExponentRight meaning fuel
      hs.holds_exponent hexponent₁
    let s₂ := s₁.setLocal scratch.exponent (encode kind.carrier (e / 2 : Nat))
    have hhalf := holds_half hs.holds_exponent
    have hfactor₂ : s₂.locals scratch.factor = encode kind.carrier f := by
      rw [State.setLocal_of_ne _ _ h.distinct.factor_exponent, hfactor₁]
    have hexponent₂ : s₂.locals scratch.exponent = encode kind.carrier (e / 2 : Nat) :=
      State.setLocal_self _ _ _
    have hthird := powerPass_squares meaning fuel h hhalf
      hs.holds_factor hfactor₂ hexponent₂
    rw [← hf'] at hthird
    by_cases hholds' : kind.Holds f'
    · rw [checked_of_holds hholds'] at hthird
      obtain ⟨s₃, hrun₃, hvalue₃, hagrees₃⟩ := hthird
      refine ⟨fun _ _ => ⟨s₃, ?_, ?_, ?_⟩, fun h => absurd ⟨hholds, hholds'⟩ h⟩
      · rw [powerPass, exec_append, hexit, Outcome.andThen_next, exec_append, hrun₁,
          Outcome.andThen_next, exec_append, hshift, Outcome.andThen_next, exec_append, hrun₃,
          Outcome.andThen_next, exec_singleton, execInstr_br]
      · refine ⟨?_, hvalue₃, ?_, hholds, hholds', hhalf, ?_⟩
        · rw [hagrees₃.locals, State.setLocal_of_ne _ _ h.distinct.exponent_destination.symm,
            hvalue₁]
          exact List.not_mem_cons_of_ne_of_not_mem h.distinct.factor_destination.symm
            h.distinct.product_destination
        · rw [hagrees₃.locals, hexponent₂]
          exact List.not_mem_cons_of_ne_of_not_mem h.distinct.factor_exponent.symm
            h.distinct.product_exponent
        · rw [hd', hf']
          exact accumulator_zero_pass hs.accumulator_zero
      · have hwrites₁ : s.AgreesOff (powerWrites destination product scratch) s₁ :=
          hagrees₁.mono (by simp [powerWrites]; tauto)
        have hwrites₃ : s₂.AgreesOff (powerWrites destination product scratch) s₃ :=
          hagrees₃.mono (by simp [powerWrites]; tauto)
        exact (hwrites₁.setLocal (by simp [powerWrites]) _).trans hwrites₃
    · rw [checked_of_not_holds hholds', Delivers] at hthird
      refine ⟨fun _ h => absurd h hholds', fun _ => ?_⟩
      rw [powerPass, exec_append, hexit, Outcome.andThen_next, exec_append, hrun₁,
        Outcome.andThen_next, exec_append, hshift, Outcome.andThen_next, exec_append, hthird]
      rfl
  · rw [checked_of_not_holds hholds, Delivers] at hfirst
    refine ⟨fun h => absurd h hholds, fun _ => ?_⟩
    rw [powerPass, exec_append, hexit, Outcome.andThen_next, exec_append, hfirst]
    rfl

/-- What a pass leaves to compute is what was to be computed. -/
theorem power_pass {d' f' : Int} (hd' : d' = if decide (e % 2 = 1) then d * f else d)
    (hf' : f' = if !decide (((e / 2 : Nat) : Int) = 0) then f * f else f) :
    d * f ^ e = d' * f' ^ (e / 2) := by
  have hbit := pow_bit d f e
  simp only [decide_eq_true_eq] at hd'
  rw [← hd'] at hbit
  rw [hbit]
  by_cases hlast : e / 2 = 0
  · rw [hlast, pow_zero, pow_zero]
  · have hne : (((e / 2 : Nat) : Int) = 0) = False := eq_false (by omega)
    rw [hf']
    simp only [hne, decide_false, Bool.not_false, if_true]

/-- A product that leaves the domain in a pass takes the power with it. -/
theorem not_holds_power {d' f' : Int} (hs : PowerLocals kind destination scratch s d f e)
    (hd' : d' = if decide (e % 2 = 1) then d * f else d)
    (hf' : f' = if !decide (((e / 2 : Nat) : Int) = 0) then f * f else f)
    (hout : ¬(kind.Holds d' ∧ kind.Holds f')) : ¬kind.Holds (d * f ^ e) := by
  have hbit := pow_bit d f e
  simp only [decide_eq_true_eq] at hd'
  by_cases hholds : kind.Holds d'
  · have hsquare : ¬kind.Holds f' := fun h => hout ⟨hholds, h⟩
    by_cases hlast : ((e / 2 : Nat) : Int) = 0
    · rw [hf', decide_eq_true hlast] at hsquare
      exact absurd hs.holds_factor hsquare
    · rw [hf', decide_eq_false hlast] at hsquare
      rw [hbit, ← hd']
      refine (powerRange kind).outside_of_square ?_ (by omega) hsquare
      intro hzero
      rw [hd'] at hzero
      split at hzero
      · exact (Int.mul_eq_zero.1 hzero).elim hs.accumulator_zero id
      · exact hs.accumulator_zero hzero
  · by_cases hodd : e % 2 = 1
    · rw [hd', if_pos hodd] at hholds
      rw [hbit, if_pos hodd]
      exact (powerRange kind).outside_of_product (e / 2) hholds
    · rw [hd', if_neg hodd] at hholds
      exact absurd hs.holds_accumulator hholds

variable (meaning fuel destination product scratch kind accumulate square) in
/-- The loop leaves with the value accumulated, or traps where it leaves the domain. -/
def PowerLeaves (outer : List Value) (passes : Nat) (s : State σ) (v : Int) : Prop :=
  (kind.Holds v → ∃ s',
    iterate (fun t => exec meaning fuel (powerPass scratch.exponent kind accumulate square) t)
      outer passes s = .branch 0 s' ∧
    s'.locals destination = encode kind.carrier v ∧
    s.enter.AgreesOff (powerWrites destination product scratch) s'.enter) ∧
  (¬kind.Holds v →
    iterate (fun t => exec meaning fuel (powerPass scratch.exponent kind accumulate square) t)
      outer passes s = .trap)

theorem PowerLocals.enter (hs : PowerLocals kind destination scratch s d f e) :
    PowerLocals kind destination scratch s.enter d f e :=
  { hs with }

/-- An exhausted exponent: the accumulator is the power. -/
theorem powerLeaves_zero (outer : List Value) (passes : Nat)
    (hs : PowerLocals kind destination scratch s d f 0) :
    PowerLeaves meaning fuel kind destination product scratch accumulate square outer
      (passes + 1) s (d * f ^ 0) := by
  rw [pow_zero, Int.mul_one]
  refine ⟨fun _ => ⟨s.enter, ?_, hs.destination, State.AgreesOff.refl _⟩,
    fun h => absurd hs.holds_accumulator h⟩
  simp only [iterate]
  rw [exec_powerPass_zero hs.enter]

variable (meaning fuel) in
/-- The loop from any of its states, by the bits of the exponent. -/
theorem powerLeaves (h : PowerProducts kind destination product scratch accumulate square)
    (outer : List Value) (n : Nat) :
    ∀ (e passes : Nat) (d f : Int) (s : State σ), e < 2 ^ n → n < passes →
      PowerLocals kind destination scratch s d f e →
      PowerLeaves meaning fuel kind destination product scratch accumulate square outer passes s
        (d * f ^ e) := by
  induction n with
  | zero =>
      intro e passes d f s hlt hpasses hs
      obtain ⟨passes, rfl⟩ : ∃ k, passes = k + 1 := ⟨passes - 1, by omega⟩
      obtain rfl : e = 0 := by omega
      exact powerLeaves_zero outer passes hs
  | succ n ih =>
      intro e passes d f s hlt hpasses hs
      obtain ⟨passes, rfl⟩ : ∃ k, passes = k + 1 := ⟨passes - 1, by omega⟩
      by_cases he : e = 0
      · rw [he] at hs ⊢
        exact powerLeaves_zero outer passes hs
      obtain ⟨hgoes, htraps⟩ := exec_powerPass meaning fuel h he hs.enter rfl rfl
      by_cases hfit : kind.Holds (if decide (e % 2 = 1) then d * f else d) ∧
          kind.Holds (if !decide (((e / 2 : Nat) : Int) = 0) then f * f else f)
      · obtain ⟨s', hrun, hlocals, hagrees⟩ := hgoes hfit.1 hfit.2
        have hrest := ih (e / 2) passes _ _ s' (by omega) (by omega) hlocals
        rw [← power_pass rfl rfl] at hrest
        obtain ⟨hleave, htrap⟩ := hrest
        have hstep : iterate
            (fun t => exec meaning fuel (powerPass scratch.exponent kind accumulate square) t)
            outer (passes + 1) s = iterate
            (fun t => exec meaning fuel (powerPass scratch.exponent kind accumulate square) t)
            outer passes s' := by
          simp only [iterate]
          rw [hrun]
        refine ⟨fun h => ?_, fun h => hstep.trans (htrap h)⟩
        obtain ⟨t, hrun', hvalue, hagrees'⟩ := hleave h
        exact ⟨t, hstep.trans hrun', hvalue, hagrees.enter.trans hagrees'⟩
      · refine ⟨fun h => absurd h (not_holds_power hs rfl rfl hfit), fun _ => ?_⟩
        simp only [iterate]
        rw [htraps hfit]

end Pass

/-- The power that the checked power delivers. -/
def powerResult (kind : WasmIntegerOperationKind) (lhs rhs : Int) : Option Int :=
  if rhs < 0 then none else kind.checked (lhs ^ rhs.toNat)

variable (meaning fuel) in
/-- A negative exponent traps; an unsigned domain has none. -/
theorem guards_exponentSign {index : Nat} {v : Int} (hv : kind.Holds v)
    (hs : s.locals index = encode kind.carrier v) :
    Guards meaning fuel (if kind.isSigned then
      emitSignedLocalRelation index kind .LessThan ++ emitUnreachableIfTrue else []) s
      (v < 0) := by
  cases hsigned : kind.isSigned with
  | true =>
      rw [if_pos rfl, Guards, exec_append, exec_signedLocalRelation hsigned hv hs,
        Outcome.andThen_next, exec_emitUnreachableIfTrue]
      simp only [SignedRelation.holds, decide_eq_true_eq]
      exact ⟨fun h => if_pos h, fun h => if_neg h⟩
  | false =>
      have hnonneg : ¬v < 0 := by
        have hlow := hv.1
        cases kind <;> first | (cases hsigned; done) | exact not_lt_of_ge hlow
      refine ⟨fun h => absurd h hnonneg, fun _ => ?_⟩
      exact exec_nil meaning fuel s

theorem holds_one (kind : WasmIntegerOperationKind) : kind.Holds 1 := by
  cases kind <;> decide

section Power

variable {destination base sourceExponent : Nat} {product : Option Nat}
  {scratch : WasmIntegerPowerScratch Nat} {accumulate square : List (Instr ι)} {lhs rhs : Int}

/-- The locals at the top of the loop. -/
def powerStart (kind : WasmIntegerOperationKind) (destination : Nat)
    (scratch : WasmIntegerPowerScratch Nat) (s : State σ) (lhs rhs : Int) : State σ :=
  ((s.setLocal scratch.factor (encode kind.carrier lhs)).setLocal scratch.exponent
    (encode kind.carrier rhs)).setLocal destination (encode kind.carrier 1)

theorem exec_powerPrelude (hsource : sourceExponent ≠ scratch.factor)
    (hl : s.locals base = encode kind.carrier lhs)
    (hr : s.locals sourceExponent = encode kind.carrier rhs) :
    exec meaning fuel [.localGet base, .localSet scratch.factor, .localGet sourceExponent,
      .localSet scratch.exponent, emitIntegerConstant kind 1, .localSet destination] s =
      .next (powerStart kind destination scratch s lhs rhs) := by
  simp only [exec_cons, exec_nil, execInstr_localGet, hl, Outcome.andThen_next,
    execInstr_localSet, State.setLocal_of_ne _ _ hsource, hr, execInstr_integerConstant]
  rfl

theorem powerLocals_start (hdistinct : PowerDistinct destination product scratch)
    (hlhs : kind.Holds lhs) (hrhs : kind.Holds rhs) (hnonneg : 0 ≤ rhs) :
    PowerLocals kind destination scratch (powerStart kind destination scratch s lhs rhs) 1 lhs
      rhs.toNat := by
  have hcast : ((rhs.toNat : Nat) : Int) = rhs := Int.toNat_of_nonneg hnonneg
  refine ⟨State.setLocal_self _ _ _, ?_, ?_, holds_one kind, hlhs, ?_, fun h => ?_⟩
  · rw [powerStart, State.setLocal_of_ne _ _ hdistinct.factor_destination,
      State.setLocal_of_ne _ _ hdistinct.factor_exponent, State.setLocal_self]
  · rw [powerStart, State.setLocal_of_ne _ _ hdistinct.exponent_destination,
      State.setLocal_self, hcast]
  · rw [hcast]
    exact hrhs
  · cases h

/-- The sequence of a checked power, from its two products. -/
def powerCode (destination base sourceExponent : Nat) (kind : WasmIntegerOperationKind)
    (scratch : WasmIntegerPowerScratch Nat) (accumulate square : List (Instr ι)) :
    List (Instr ι) :=
  (if kind.isSigned then
    emitSignedLocalRelation sourceExponent kind .LessThan ++ emitUnreachableIfTrue else []) ++
  ([.localGet base, .localSet scratch.factor, .localGet sourceExponent,
    .localSet scratch.exponent, emitIntegerConstant kind 1, .localSet destination] ++
  [.block [.loop (powerPass scratch.exponent kind accumulate square)]])

theorem emitCheckedPower_eq (h : PowerProducts kind destination product scratch accumulate square) :
    emitCheckedPower destination base sourceExponent kind product scratch =
      .ok (powerCode destination base sourceExponent kind scratch accumulate square) := by
  simp only [emitCheckedPower, h.accumulates, h.squares, ok_bind, powerCode, powerPass,
    List.append_assoc, List.cons_append, List.nil_append]

variable (meaning) in
/-- Running the loop in its block. -/
theorem exec_powerLoop (h : PowerProducts kind destination product scratch accumulate square)
    (hfuel : kind.carrier.bits < fuel) {d f : Int} {e : Nat}
    (hs : PowerLocals kind destination scratch s d f e) :
    Delivers meaning fuel [.block [.loop (powerPass scratch.exponent kind accumulate square)]] s
      destination (powerWrites destination product scratch) kind.carrier
      (kind.checked (d * f ^ e)) := by
  obtain ⟨hleave, htrap⟩ := powerLeaves meaning fuel h [] kind.carrier.bits e fuel d f s.enter
    (holds_nat_lt hs.holds_exponent) hfuel hs.enter
  have hrun : exec meaning fuel
      [.block [.loop (powerPass scratch.exponent kind accumulate square)]] s =
      (iterate (fun t => exec meaning fuel (powerPass scratch.exponent kind accumulate square) t)
        [] fuel s.enter).leaveBlock s.stack := by
    rw [exec_singleton, execInstr_block, exec_singleton, execInstr_loop, State.enter_stack]
  by_cases hholds : kind.Holds (d * f ^ e)
  · rw [checked_of_holds hholds]
    obtain ⟨s', hiterate, hvalue, hagrees⟩ := hleave hholds
    refine ⟨s'.leave s.stack, ?_, hvalue, rfl, hagrees.store, hagrees.locals⟩
    rw [hrun, hiterate]
    rfl
  · rw [checked_of_not_holds hholds, Delivers, hrun, htrap hholds]
    rfl

/-- The checked power. -/
theorem emitCheckedPower_delivers {code : List (Instr ι)}
    (hcode : emitCheckedPower destination base sourceExponent kind product scratch = .ok code)
    (hdistinct : PowerDistinct destination product scratch)
    (hsource : sourceExponent ≠ scratch.factor) (hfuel : kind.carrier.bits < fuel)
    (hlhs : kind.Holds lhs) (hrhs : kind.Holds rhs)
    (hl : s.locals base = encode kind.carrier lhs)
    (hr : s.locals sourceExponent = encode kind.carrier rhs) :
    Delivers meaning fuel code s destination (powerWrites destination product scratch)
      kind.carrier (powerResult kind lhs rhs) := by
  obtain ⟨accumulate, haccumulate, hrest⟩ := bind_eq_ok.1 hcode
  obtain ⟨square, hsquare, _⟩ := bind_eq_ok.1 hrest
  have hproducts : PowerProducts kind destination product scratch accumulate square :=
    ⟨hdistinct, haccumulate, hsquare⟩
  rw [emitCheckedPower_eq hproducts] at hcode
  obtain rfl := Except.ok.inj hcode
  have hsign := guards_exponentSign meaning fuel hrhs hr
  rw [powerResult, powerCode]
  by_cases hnegative : rhs < 0
  · rw [if_pos hnegative, Delivers, exec_append, hsign.1 hnegative]
    rfl
  rw [if_neg hnegative]
  have hlocals : PowerLocals kind destination scratch
      (powerStart kind destination scratch s lhs rhs) 1 lhs rhs.toNat :=
    powerLocals_start hdistinct hlhs hrhs (by omega)
  have hloop := exec_powerLoop meaning hproducts hfuel hlocals
  rw [Int.one_mul] at hloop
  have hagrees : s.AgreesOff (powerWrites destination product scratch)
      (powerStart kind destination scratch s lhs rhs) :=
    (((State.AgreesOff.refl s).setLocal (by simp [powerWrites]) _).setLocal
      (by simp [powerWrites]) _).setLocal (by simp [powerWrites]) _
  exact Delivers.after (hsign.2 hnegative) (State.AgreesOff.refl s)
    (Delivers.after (exec_powerPrelude hsource hl hr) hagrees hloop)

end Power

end Execution

end Moth.Wasm
