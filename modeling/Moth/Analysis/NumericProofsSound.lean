import Mathlib.Data.List.Pairwise
import Moth.Analysis.NumericExecution
import Moth.Lib.Corners

/-!
# The numeric proof table is sound

The invariant of a block walk is one sentence: the cached local, if any,
holds an integer of the cached interval. From it every interval the analysis
derives for an expression contains the expression's value, so a proven
operation has a result, inside its domain. A statement keeps the invariant
because the only statements that set the cache are those whose effect on the
cached local is known, and what they may do to any other local does not
matter to a cache of one entry.
-/

namespace Moth.Analysis

open Moth.Lexical Moth.Datatypes Moth.Hir Moth.Lib

/-! ## Interval arithmetic -/

theorem cornerFold_sound {combine : Int → Int → Option Int} {corners : List (Int × Int)}
    {bounds result : Interval}
    (h : corners.foldlM (fun (bounds : Interval) (corner : Int × Int) => do
      let result ← combine corner.1 corner.2
      return (min bounds.1 result, max bounds.2 result)) bounds = some result) :
    result.1 ≤ bounds.1 ∧ bounds.2 ≤ result.2 ∧
    ∀ corner ∈ corners, ∃ value, combine corner.1 corner.2 = some value ∧
      Interval.Contains result value := by
  induction corners generalizing bounds with
  | nil =>
      cases h
      exact ⟨le_refl _, le_refl _, fun _ hmem => absurd hmem List.not_mem_nil⟩
  | cons corner rest ih =>
      simp only [List.foldlM_cons, Option.bind_eq_bind, Option.pure_def,
        Option.bind_eq_some_iff, Option.some.injEq] at h
      obtain ⟨_, ⟨value, hvalue, rfl⟩, hrest⟩ := h
      obtain ⟨hlow, hhigh, hall⟩ := ih hrest
      have hlow' : result.1 ≤ min bounds.1 value := hlow
      have hhigh' : max bounds.2 value ≤ result.2 := hhigh
      refine ⟨by omega, by omega, ?_⟩
      intro other hmem
      cases List.mem_cons.1 hmem with
      | inl heq =>
          subst heq
          exact ⟨value, hvalue, by omega, by omega⟩
      | inr hin => exact hall other hin

theorem cornerInterval_corner {combine : Int → Int → Option Int} {left right result : Interval}
    (h : cornerInterval combine left right = some result) {x y : Int}
    (hx : x = left.1 ∨ x = left.2) (hy : y = right.1 ∨ y = right.2) :
    ∃ value, combine x y = some value ∧ Interval.Contains result value := by
  obtain ⟨-, -, hall⟩ := cornerFold_sound h
  refine hall (x, y) ?_
  rcases hx with rfl | rfl <;> rcases hy with rfl | rfl <;> simp

theorem checkedDiv_eq_some {x y value : Int} (h : checkedDiv x y = some value) :
    y ≠ 0 ∧ x.tdiv y = value := by
  simp only [checkedDiv] at h
  split at h
  · cases h
  · next hy => exact ⟨hy, checkedI128_eq_some h⟩

theorem multiply_sound {left right result : Interval} {x y : Int}
    (h : cornerInterval checkedMul left right = some result)
    (hx : Interval.Contains left x) (hy : Interval.Contains right y) :
    Interval.Contains result (x * y) := by
  refine between_corners (fun y _ => oneWayOn_mul_left y _) (fun x _ => oneWayOn_mul_right x _)
    hx hy ?_
  intro u v hu hv
  obtain ⟨value, hvalue, hmem⟩ := cornerInterval_corner h hu hv
  rw [checkedI128_eq_some hvalue]
  exact hmem

theorem integerDivide_sound {left right result : Interval} {x y : Int}
    (h : cornerInterval checkedDiv left right = some result) (hsign : 0 < right.1 ∨ right.2 < 0)
    (hx : Interval.Contains left x) (hy : Interval.Contains right y) :
    Interval.Contains result (x.tdiv y) := by
  refine between_corners (f := fun x y => x.tdiv y) (fun y hmem => ?_)
    (fun x _ => oneWayOn_tdiv_right x hsign) hx hy ?_
  · have h1 : right.1 ≤ y := hmem.1
    have h2 : y ≤ right.2 := hmem.2
    exact oneWayOn_tdiv_left (by omega) _
  · intro u v hu hv
    obtain ⟨value, hvalue, hmem⟩ := cornerInterval_corner h hu hv
    show Interval.Contains result (u.tdiv v)
    rw [(checkedDiv_eq_some hvalue).2]
    exact hmem

theorem tmod_bounds {x y bound : Int} (hy : y ≠ 0) (hbound : |y| - 1 ≤ bound) :
    -bound ≤ x.tmod y ∧ x.tmod y ≤ bound ∧ (0 ≤ x → 0 ≤ x.tmod y) ∧
      (x ≤ 0 → x.tmod y ≤ 0) := by
  have hlt : (x.tmod y).natAbs < y.natAbs := by
    rw [Int.natAbs_tmod]
    exact Nat.mod_lt _ (Int.natAbs_pos.2 hy)
  have habs : |y| = (y.natAbs : Int) := Int.abs_eq_natAbs y
  refine ⟨by omega, by omega, Int.tmod_nonneg y, fun hx => ?_⟩
  have hneg := Int.tmod_nonneg y (a := -x) (by omega)
  rw [Int.neg_tmod] at hneg
  omega

/-- The binary operators on intervals contain the exact result on their members. -/
theorem binaryResult_sound {operator : NumericOperator} {domain left right result : Interval}
    {x y : Int} (h : binaryResult operator domain left right = some result)
    (hx : Interval.Contains left x) (hy : Interval.Contains right y) :
    ∃ value, exactBinary operator x y = some value ∧ Interval.Contains result value := by
  obtain ⟨hx1, hx2⟩ := hx
  obtain ⟨hy1, hy2⟩ := hy
  cases operator with
  | Add =>
      simp only [binaryResult, Option.bind_eq_bind, Option.bind_eq_some_iff] at h
      obtain ⟨low, hlow, high, hhigh, hresult⟩ := h
      cases hresult
      have := checkedI128_eq_some hlow
      have := checkedI128_eq_some hhigh
      exact ⟨x + y, rfl, by show low ≤ _; omega, by show _ ≤ high; omega⟩
  | Subtract =>
      simp only [binaryResult, Option.bind_eq_bind, Option.bind_eq_some_iff] at h
      obtain ⟨low, hlow, high, hhigh, hresult⟩ := h
      cases hresult
      have := checkedI128_eq_some hlow
      have := checkedI128_eq_some hhigh
      exact ⟨x - y, rfl, by show low ≤ _; omega, by show _ ≤ high; omega⟩
  | Multiply => exact ⟨x * y, rfl, multiply_sound h ⟨hx1, hx2⟩ ⟨hy1, hy2⟩⟩
  | IntegerDivide =>
      simp only [binaryResult] at h
      split at h
      · cases h
      · next hzero =>
          split at h
          · cases h
          · have hsign : 0 < right.1 ∨ right.2 < 0 := by omega
            have hdiv := integerDivide_sound h hsign ⟨hx1, hx2⟩ ⟨hy1, hy2⟩
            exact ⟨x.tdiv y, if_neg (by omega), hdiv⟩
  | Remainder =>
      simp only [binaryResult] at h
      split at h
      · cases h
      · next hzero =>
          simp only [Option.bind_eq_bind, Option.bind_eq_some_iff] at h
          obtain ⟨bound, hbound, h⟩ := h
          have hbound := checkedI128_eq_some hbound
          have hy0 : y ≠ 0 := by omega
          have habs : |y| ≤ max |right.1| |right.2| := abs_le_max_abs_abs hy1 hy2
          obtain ⟨hlow, hhigh, hnonneg, hnonpos⟩ :=
            tmod_bounds (x := x) hy0 (show |y| - 1 ≤ bound by omega)
          refine ⟨x.tmod y, if_neg hy0, ?_⟩
          split at h
          · next hleft =>
              cases h
              exact ⟨hnonneg (by omega), hhigh⟩
          · split at h
            · next hleft =>
                cases h
                exact ⟨hlow, hnonpos (by omega)⟩
            · cases h
              exact ⟨hlow, hhigh⟩
  | Negate => cases h
  | Divide => cases h
  | Power => cases h

theorem negateResult_sound {operand result : Interval} {x : Int}
    (h : negateResult operand = some result) (hx : Interval.Contains operand x) :
    Interval.Contains result (-x) := by
  simp only [negateResult, Option.bind_eq_bind, Option.bind_eq_some_iff] at h
  obtain ⟨low, hlow, high, hhigh, hresult⟩ := h
  cases hresult
  obtain ⟨hx1, hx2⟩ := hx
  have := checkedI128_eq_some hlow
  have := checkedI128_eq_some hhigh
  exact ⟨by show low ≤ _; omega, by show _ ≤ high; omega⟩

/-! ## Values of expressions -/

theorem literalInteger_interval {value : FixedScalarValue} {interval : Interval}
    (h : (literalInteger value).map (fun integer => (integer, integer)) = some interval) :
    ∃ integer, literalInteger value = some integer ∧ Interval.Contains interval integer := by
  rw [Option.map_eq_some_iff] at h
  obtain ⟨integer, hinteger, rfl⟩ := h
  exact ⟨integer, hinteger, le_refl _, le_refl _⟩

theorem canonicalInterval_fixedScalarTypeId (environment : TypeEnvironment)
    {fixed : FixedScalar} {range : Interval}
    (h : (NumericScalar.Fixed fixed).integerRange = some range) :
    canonicalInterval environment (fixedScalarTypeId fixed) = some range := by
  have hinteger := NumericScalar.isInteger_of_integerRange h
  simp [canonicalInterval, NumericScalar.fromTypeId_fixedScalarTypeId environment hinteger,
    hinteger, h]

theorem integerRange_fixed {scalar : NumericScalar} {range : Interval}
    (h : scalar.integerRange = some range) : ∃ fixed, scalar = .Fixed fixed := by
  cases scalar with
  | Fixed fixed => exact ⟨fixed, rfl⟩
  | Number scale => cases h

section Values

variable {hir : HirModule} {environment : TypeEnvironment} {state : MachineState}

theorem placeValue_inType (htyped : WellTyped hir environment state) {id : HirValueId}
    {place : HirPlace} (hplace : place.projections = [] →
      declaredType hir place.root = some (hir.expressions.expression id).ty) :
    InType environment (hir.expressions.expression id).ty (placeValue state id place) := by
  simp only [placeValue]
  split
  · next hdirect => exact htyped.1 _ _ (by simp) (hplace hdirect)
  · exact htyped.2 id

/-- Every expression of a well-typed state is in its type: the induction is on the rank, and
only a conversion uses it. -/
theorem evaluate_inType (hvalid : NumericallyValidated hir environment)
    (htyped : WellTyped hir environment state) (id : HirValueId) :
    InType environment (hir.expressions.expression id).ty
      (evaluate hir.expressions state id) := by
  fun_induction evaluate hir.expressions state id with
  | case1 id value hkind => exact hvalid.literal id value hkind
  | case2 id operand source target hkind hinteger ih =>
      have hsome : target.integerRange.isSome = true := by
        rw [NumericScalar.integerRange_isSome]
        exact hinteger
      obtain ⟨targetRange, htarget⟩ := Option.isSome_iff_exists.1 hsome
      obtain ⟨sourceRange, hsource, hlow, hhigh⟩ :=
        hvalid.castInfallible id operand source target targetRange hkind htarget
      obtain ⟨fixedTarget, rfl⟩ := integerRange_fixed htarget
      obtain ⟨fixedSource, rfl⟩ := integerRange_fixed hsource
      obtain ⟨hoperand, hty⟩ := hvalid.castType id operand fixedSource fixedTarget hkind
      intro range hrange
      rw [hty, canonicalInterval_fixedScalarTypeId environment htarget] at hrange
      cases hrange
      rw [hoperand] at ih
      obtain ⟨integer, hvalue, h1, h2⟩ :=
        ih sourceRange (canonicalInterval_fixedScalarTypeId environment hsource)
      exact ⟨integer, hvalue, by omega, by omega⟩
  | case3 id operand source target hkind hinteger => exact htyped.2 id
  | case4 id place hkind => exact placeValue_inType htyped (hvalid.place id place (Or.inl hkind))
  | case5 id place hkind => exact placeValue_inType htyped (hvalid.place id place (Or.inr hkind))
  | case6 => exact htyped.2 _

/-- The cached local holds an integer of the cached interval. -/
def CacheHolds (cache : IntervalCache) (state : MachineState) : Prop :=
  ∀ cachedLocal interval, cache = some (cachedLocal, interval) →
    ∃ integer, state.locals cachedLocal = some integer ∧ Interval.Contains interval integer

theorem cacheHolds_none (state : MachineState) : CacheHolds none state :=
  fun _ _ h => by cases h

theorem placeInterval_sound {cache : IntervalCache} (hcache : CacheHolds cache state)
    {id : HirValueId} {typeId : TypeId} {place : HirPlace} {interval : Interval}
    (htype : InType environment typeId (placeValue state id place))
    (h : placeInterval environment cache typeId place = some interval) :
    ∃ integer, placeValue state id place = some integer ∧
      Interval.Contains interval integer := by
  simp only [placeInterval] at h
  split at h
  · next hdirect =>
      split at h
      · next cachedLocal cachedInterval =>
          split at h
          · next hroot =>
              subst hroot
              cases h
              simp only [placeValue, if_pos hdirect]
              exact hcache _ _ rfl
          · exact htype interval h
      · exact htype interval h
  · exact htype interval h

/-- The interval of an expression contains its value. -/
theorem expressionInterval_sound (hvalid : NumericallyValidated hir environment)
    (htyped : WellTyped hir environment state) {cache : IntervalCache}
    (hcache : CacheHolds cache state) {id : HirValueId} {interval : Interval}
    (h : expressionInterval environment hir.expressions cache id = some interval) :
    ∃ integer, evaluate hir.expressions state id = some integer ∧
      Interval.Contains interval integer := by
  have htype := evaluate_inType hvalid htyped id
  fun_induction expressionInterval environment hir.expressions cache id generalizing interval with
  | case1 id value hkind =>
      rw [evaluate_eq, hkind]
      exact literalInteger_interval h
  | case2 id operand source target hkind ih =>
      simp only [Option.bind_eq_bind, Option.bind_eq_some_iff] at h
      obtain ⟨targetRange, htarget, operandInterval, hoperand, h⟩ := h
      have hvalue : evaluate hir.expressions state id =
          evaluate hir.expressions state operand := by
        rw [evaluate_eq, hkind]
        exact if_pos (NumericScalar.isInteger_of_integerRange htarget)
      obtain ⟨integer, hinteger, h1, h2⟩ := ih hoperand (evaluate_inType hvalid htyped operand)
      obtain ⟨fixedTarget, rfl⟩ := integerRange_fixed htarget
      obtain ⟨sourceRange, hsource, -⟩ :=
        hvalid.castInfallible id operand source _ targetRange hkind htarget
      obtain ⟨fixedSource, rfl⟩ := integerRange_fixed hsource
      rw [(hvalid.castType id operand _ _ hkind).2] at htype
      obtain ⟨integer', hinteger', h3, h4⟩ :=
        htype targetRange (canonicalInterval_fixedScalarTypeId environment htarget)
      rw [hvalue, hinteger] at hinteger'
      cases hinteger'
      refine ⟨integer, hvalue.trans hinteger, ?_⟩
      split at h
      · cases h
        exact ⟨max_le h1 h3, le_min h2 h4⟩
      · cases h
  | case3 id operand policy _ hkind => cases h
  | case4 id place hkind =>
      rw [evaluate_eq, hkind] at htype ⊢
      exact placeInterval_sound hcache htype h
  | case5 id place hkind =>
      rw [evaluate_eq, hkind] at htype ⊢
      exact placeInterval_sound hcache htype h
  | case6 => exact htype interval h

theorem operationInterval_sound (hvalid : NumericallyValidated hir environment)
    (htyped : WellTyped hir environment state) {cache : IntervalCache}
    (hcache : CacheHolds cache state) {op : HirNumericOp} {domain : Interval}
    {operands : HirNumericOperands} {interval : Interval}
    (h : operationInterval environment hir.expressions cache op domain operands =
      some interval) :
    ∃ value, exactResult op.operator operands (evaluate hir.expressions state) = some value ∧
      Interval.Contains interval value := by
  have hvalue : ∀ id interval,
      expressionInterval environment hir.expressions cache id = some interval →
      ∃ integer, evaluate hir.expressions state id = some integer ∧
        Interval.Contains interval integer :=
    fun _ _ => expressionInterval_sound hvalid htyped hcache
  cases operands with
  | Unary operand =>
      cases hop : op.operator <;> simp only [operationInterval, hop] at h
      case Negate =>
        split at h
        · cases h
        · simp only [Option.bind_eq_bind, Option.bind_eq_some_iff] at h
          obtain ⟨operandInterval, hoperand, h⟩ := h
          obtain ⟨x, hx, hmem⟩ := hvalue _ _ hoperand
          exact ⟨-x, by simp [exactResult, hx], negateResult_sound h hmem⟩
      all_goals cases h
  | Binary left right =>
      have hbinary : (do
          let leftInterval ← expressionInterval environment hir.expressions cache left
          let rightInterval ← expressionInterval environment hir.expressions cache right
          binaryResult op.operator domain leftInterval rightInterval) = some interval ∧
          exactResult op.operator (.Binary left right) (evaluate hir.expressions state) = (do
            let leftValue ← evaluate hir.expressions state left
            let rightValue ← evaluate hir.expressions state right
            exactBinary op.operator leftValue rightValue) := by
        cases hop : op.operator <;> simp only [operationInterval, hop] at h
        case Negate => cases h
        all_goals exact ⟨h, rfl⟩
      simp only [Option.bind_eq_bind, Option.bind_eq_some_iff] at hbinary
      obtain ⟨⟨leftInterval, hleft, rightInterval, hright, hresult⟩, hexact⟩ := hbinary
      obtain ⟨x, hx, hxmem⟩ := hvalue _ _ hleft
      obtain ⟨y, hy, hymem⟩ := hvalue _ _ hright
      obtain ⟨value, hexactValue, hmem⟩ := binaryResult_sound hresult hxmem hymem
      refine ⟨value, ?_, hmem⟩
      rw [hexact, hx, hy]
      exact hexactValue

theorem proveOperation_sound (hvalid : NumericallyValidated hir environment)
    (htyped : WellTyped hir environment state) {cache : IntervalCache}
    (hcache : CacheHolds cache state) {op : HirNumericOp} {operands : HirNumericOperands}
    {interval : Interval}
    (h : proveOperation environment hir.expressions cache op operands = some interval) :
    ∃ value, checkedOperation op operands (evaluate hir.expressions state) = some value ∧
      Interval.Contains interval value := by
  simp only [proveOperation, Option.bind_eq_bind, Option.bind_eq_some_iff] at h
  obtain ⟨domain, hdomain, h⟩ := h
  split at h
  · cases h
  · rw [Option.bind_eq_some_iff] at h
    obtain ⟨result, hresult, h⟩ := h
    split at h
    · next hfits =>
        cases h
        obtain ⟨value, hvalue, hmem⟩ := operationInterval_sound hvalid htyped hcache hresult
        refine ⟨value, ?_, hmem⟩
        have hrange : Interval.Contains domain value :=
          ⟨le_trans hfits.1 hmem.1, le_trans hmem.2 hfits.2⟩
        simp only [checkedOperation, hvalue, checkDomain, hdomain]
        exact if_pos hrange
    · cases h

end Values

/-! ## The walk over a block -/

section Walk

variable {hir : HirModule} {environment : TypeEnvironment}

theorem wellTyped_of_target {target : LocalId} {typeId : TypeId} {state : MachineState}
    (hrest : TypedAwayFrom hir environment (some target) state)
    (hdeclared : declaredType hir target = some typeId)
    (hvalue : InType environment typeId (state.locals target)) :
    WellTyped hir environment state := by
  refine ⟨fun other otherType _ hother => ?_, hrest.2⟩
  by_cases heq : target = other
  · subst heq
    rw [hdeclared] at hother
    cases hother
    exact hvalue
  · exact hrest.1 other otherType (by simpa using heq) hother

theorem checkDomain_inType {fixed : FixedScalar} {result value : Int}
    (h : checkDomain (.Fixed fixed) result = some value) :
    InType environment (fixedScalarTypeId fixed) (some value) := by
  intro range hrange
  simp only [checkDomain] at h
  split at h
  · next domain hdomain =>
      split at h
      · next hmem =>
          cases h
          rw [canonicalInterval_fixedScalarTypeId environment hdomain] at hrange
          cases hrange
          exact ⟨result, rfl, hmem⟩
      · cases h
  · cases h

theorem checkedOperation_inType {operator : NumericOperator} {fixed : FixedScalar}
    {operands : HirNumericOperands} {value : HirValueId → Option Int} {result : Int}
    (h : checkedOperation ⟨operator, .Fixed fixed⟩ operands value = some result) :
    InType environment (fixedScalarTypeId fixed) (some result) := by
  simp only [checkedOperation, Option.bind_eq_bind, Option.bind_eq_some_iff] at h
  obtain ⟨exact_, -, h⟩ := h
  exact checkDomain_inType h

theorem proveOperation_isInteger {expressions : HirExpressionStore} {cache : IntervalCache}
    {op : HirNumericOp} {operands : HirNumericOperands} {interval : Interval}
    (h : proveOperation environment expressions cache op operands = some interval) :
    op.domain.isInteger = true := by
  simp only [proveOperation, Option.bind_eq_bind, Option.bind_eq_some_iff] at h
  obtain ⟨domain, hdomain, -⟩ := h
  exact NumericScalar.isInteger_of_integerRange hdomain

/-- What one statement preserves: types, and the cache invariant of its visit. -/
theorem visitStatement_preserves (hvalid : NumericallyValidated hir environment)
    {block : HirBlock} (hblock : block ∈ hir.blocks) {statement : HirStatement}
    (hmem : statement ∈ block.statements) {self : BlockAnalyser} {before after : MachineState}
    (htyped : WellTyped hir environment before) (hcache : CacheHolds self.cache before)
    (hstep : StatementStep hir environment statement before after) :
    WellTyped hir environment after ∧
      CacheHolds (self.visitStatement environment hir.expressions statement).cache after := by
  have hwrite := hvalid.write block hblock statement hmem
  have hresult := hvalid.numericResult block hblock statement hmem
  cases hkind : statement.kind with
  | Write target value =>
      simp only [StatementStep, hkind] at hstep
      simp only [BlockAnalyser.visitStatement, hkind]
      cases hdirect : directLocal target with
      | some targetLocal =>
          simp only [hdirect] at hstep
          obtain ⟨hlocal, hrest⟩ := hstep
          have hvalue := evaluate_inType hvalid htyped value
          rw [← hlocal] at hvalue
          refine ⟨wellTyped_of_target hrest (hwrite _ _ _ hkind hdirect) hvalue, ?_⟩
          intro cachedLocal interval hentry
          simp only [Option.map_eq_some_iff, Prod.mk.injEq] at hentry
          obtain ⟨_, hinterval, rfl, rfl⟩ := hentry
          rw [hlocal]
          exact expressionInterval_sound hvalid htyped hcache hinterval
      | none =>
          simp only [hdirect] at hstep
          exact ⟨hstep, cacheHolds_none after⟩
  | NumericOp op failureMode operands result =>
      simp only [StatementStep, hkind] at hstep
      simp only [BlockAnalyser.visitStatement, hkind]
      by_cases hinteger : op.domain.isInteger = true
      · rw [if_pos hinteger] at hstep
        obtain ⟨value, hvalue, hlocal, hrest⟩ := hstep
        obtain ⟨operator, domain⟩ := op
        cases domain with
        | Number scale => cases hinteger
        | Fixed fixed =>
            refine ⟨wellTyped_of_target hrest (hresult _ _ _ _ _ hkind) ?_, ?_⟩
            · rw [hlocal]
              exact checkedOperation_inType hvalue
            · split
              · next interval hproof =>
                  obtain ⟨proven, hproven, hcontains⟩ :=
                    proveOperation_sound hvalid htyped hcache hproof
                  rw [hvalue] at hproven
                  cases hproven
                  intro cachedLocal cachedInterval hentry
                  cases hentry
                  exact ⟨value, hlocal, hcontains⟩
              · exact cacheHolds_none after
      · rw [if_neg hinteger] at hstep
        refine ⟨hstep, ?_⟩
        split
        · next interval hproof => exact absurd (proveOperation_isInteger hproof) hinteger
        · exact cacheHolds_none after
  | _ =>
      simp only [StatementStep, hkind] at hstep
      simp only [BlockAnalyser.visitStatement, hkind]
      exact ⟨hstep, cacheHolds_none after⟩

theorem visitStatements_preserves (hvalid : NumericallyValidated hir environment)
    {block : HirBlock} (hblock : block ∈ hir.blocks) {statements : List HirStatement}
    (hsub : ∀ statement ∈ statements, statement ∈ block.statements) {self : BlockAnalyser}
    {before after : MachineState} (htyped : WellTyped hir environment before)
    (hcache : CacheHolds self.cache before)
    (hsteps : StatementSteps hir environment statements before after) :
    WellTyped hir environment after ∧
      CacheHolds (self.visitStatements environment hir.expressions statements).cache after := by
  induction statements generalizing self before with
  | nil =>
      cases hsteps
      exact ⟨htyped, hcache⟩
  | cons statement rest ih =>
      obtain ⟨middle, hstep, hrest⟩ := hsteps
      obtain ⟨htyped', hcache'⟩ := visitStatement_preserves hvalid hblock
        (hsub statement List.mem_cons_self) htyped hcache hstep
      exact ih (fun other hmem => hsub other (List.mem_cons_of_mem _ hmem)) htyped' hcache' hrest

end Walk

/-! ## What is recorded, and where -/

section Records

variable (environment : TypeEnvironment) (expressions : HirExpressionStore)

/-- A statement of the block was proven at its visit. -/
def RecordedStatement (block : HirBlock) (id : HirNodeId) : Prop :=
  ∃ earlier statement later op failureMode operands result interval,
    block.statements = earlier ++ statement :: later ∧ statement.id = id ∧
    statement.kind = .NumericOp op failureMode operands result ∧
    proveOperation environment expressions (cacheAfter environment expressions earlier) op
      operands = some interval

/-- The block's `Invoke` was proven at its visit. -/
def RecordedInvoke (block : HirBlock) (id : HirNodeId) : Prop :=
  ∃ op operands success successResults failure errorResult interval,
    block.terminator =
      .Invoke id (.NumericOp op operands) success successResults failure errorResult ∧
    proveOperation environment expressions
      (cacheAfter environment expressions block.statements) op operands = some interval

/-- The block's narrowing cast was proven at its visit. -/
def RecordedNarrowing (block : HirBlock) (id : HirNodeId) : Prop :=
  ∃ policy operand success successResults failure errorResult interval,
    block.terminator =
      .Invoke id (.CastOp policy operand) success successResults failure errorResult ∧
    expressionInterval environment expressions
      (cacheAfter environment expressions block.statements) operand = some interval ∧
    castNarrowingIsProvable policy interval = true

variable {environment expressions}

theorem visitStatement_cache_congr {self other : BlockAnalyser} (h : self.cache = other.cache)
    (statement : HirStatement) :
    (self.visitStatement environment expressions statement).cache =
      (other.visitStatement environment expressions statement).cache := by
  simp only [BlockAnalyser.visitStatement, h]
  split
  · split <;> rfl
  · split <;> rfl
  · rfl

theorem visitStatements_append (self : BlockAnalyser) (first second : List HirStatement) :
    self.visitStatements environment expressions (first ++ second) =
      (self.visitStatements environment expressions first).visitStatements environment
        expressions second :=
  List.foldl_append

theorem visitStatements_cache_congr {self other : BlockAnalyser} (h : self.cache = other.cache)
    (statements : List HirStatement) :
    (self.visitStatements environment expressions statements).cache =
      (other.visitStatements environment expressions statements).cache := by
  induction statements generalizing self other with
  | nil => exact h
  | cons statement rest ih => exact ih (visitStatement_cache_congr h statement)

theorem visitStatements_cache {self : BlockAnalyser} (h : self.cache = none)
    (statements : List HirStatement) :
    (self.visitStatements environment expressions statements).cache =
      cacheAfter environment expressions statements :=
  visitStatements_cache_congr h statements

theorem visitStatement_safeOperations {self : BlockAnalyser} {statement : HirStatement}
    {id : HirNodeId}
    (h : id ∈ (self.visitStatement environment expressions statement).facts.safeOperations) :
    id ∈ self.facts.safeOperations ∨ statement.id = id ∧
      ∃ op failureMode operands result interval,
        statement.kind = .NumericOp op failureMode operands result ∧
        proveOperation environment expressions self.cache op operands = some interval := by
  simp only [BlockAnalyser.visitStatement] at h
  split at h
  · split at h <;> exact Or.inl h
  · next op failureMode operands result hkind =>
      split at h
      · next interval hproof =>
          cases Finset.mem_insert.1 h with
          | inl heq =>
              exact Or.inr
                ⟨heq.symm, op, failureMode, operands, result, interval, hkind, hproof⟩
          | inr hold => exact Or.inl hold
      · exact Or.inl h
  · exact Or.inl h

theorem visitStatement_safeNarrowings (self : BlockAnalyser) (statement : HirStatement) :
    (self.visitStatement environment expressions statement).facts.safeNarrowings =
      self.facts.safeNarrowings := by
  simp only [BlockAnalyser.visitStatement]
  split
  · split <;> rfl
  · split <;> rfl
  · rfl

theorem visitStatements_safeOperations {self : BlockAnalyser} (hcache : self.cache = none)
    {block : HirBlock} {statements : List HirStatement}
    (hsplit : ∃ later, block.statements = statements ++ later) {id : HirNodeId}
    (h : id ∈ (self.visitStatements environment expressions statements).facts.safeOperations) :
    id ∈ self.facts.safeOperations ∨ RecordedStatement environment expressions block id := by
  induction statements using List.reverseRecOn with
  | nil => exact Or.inl h
  | append_singleton earlier statement ih =>
      obtain ⟨later, hlater⟩ := hsplit
      rw [visitStatements_append] at h
      cases visitStatement_safeOperations h with
      | inl hold => exact ih ⟨statement :: later, by simp [hlater]⟩ hold
      | inr hnew =>
          obtain ⟨hid, op, failureMode, operands, result, interval, hkind, hproof⟩ := hnew
          rw [visitStatements_cache hcache] at hproof
          exact Or.inr ⟨earlier, statement, later, op, failureMode, operands, result, interval,
            by simp [hlater], hid, hkind, hproof⟩

theorem visitStatements_safeNarrowings (self : BlockAnalyser) (statements : List HirStatement) :
    (self.visitStatements environment expressions statements).facts.safeNarrowings =
      self.facts.safeNarrowings := by
  induction statements generalizing self with
  | nil => rfl
  | cons statement rest ih =>
      exact (ih _).trans (visitStatement_safeNarrowings self statement)

theorem visitTerminator_safeOperations {self : BlockAnalyser} {terminator : HirTerminator}
    {id : HirNodeId}
    (h : id ∈ (self.visitTerminator environment expressions terminator).facts.safeOperations) :
    id ∈ self.facts.safeOperations ∨
      ∃ op operands success successResults failure errorResult interval,
        terminator = .Invoke id (.NumericOp op operands) success successResults failure
          errorResult ∧
        proveOperation environment expressions self.cache op operands = some interval := by
  simp only [BlockAnalyser.visitTerminator] at h
  split at h
  · next id' op operands success successResults failure errorResult =>
      split at h
      · next hsome =>
          obtain ⟨interval, hproof⟩ := Option.isSome_iff_exists.1 hsome
          cases Finset.mem_insert.1 h with
          | inl heq =>
              subst heq
              exact Or.inr ⟨op, operands, success, successResults, failure, errorResult,
                interval, rfl, hproof⟩
          | inr hold => exact Or.inl hold
      · exact Or.inl h
  · split at h
    · split at h <;> exact Or.inl h
    · exact Or.inl h
  · exact Or.inl h
  · exact Or.inl h

theorem visitTerminator_safeNarrowings {self : BlockAnalyser} {terminator : HirTerminator}
    {id : HirNodeId}
    (h : id ∈ (self.visitTerminator environment expressions terminator).facts.safeNarrowings) :
    id ∈ self.facts.safeNarrowings ∨
      ∃ policy operand success successResults failure errorResult interval,
        terminator = .Invoke id (.CastOp policy operand) success successResults failure
          errorResult ∧
        expressionInterval environment expressions self.cache operand = some interval ∧
        castNarrowingIsProvable policy interval = true := by
  simp only [BlockAnalyser.visitTerminator] at h
  split at h
  · split at h <;> exact Or.inl h
  · next id' policy operand success successResults failure errorResult =>
      split at h
      · next interval hinterval =>
          split at h
          · next hprovable =>
              cases Finset.mem_insert.1 h with
              | inl heq =>
                  subst heq
                  exact Or.inr ⟨policy, operand, success, successResults, failure, errorResult,
                    interval, rfl, hinterval, hprovable⟩
              | inr hold => exact Or.inl hold
          · exact Or.inl h
      · exact Or.inl h
  · exact Or.inl h
  · exact Or.inl h

theorem visitBlock_safeOperations {self : BlockAnalyser} {block : HirBlock} {id : HirNodeId}
    (h : id ∈ (self.visitBlock environment expressions block).facts.safeOperations) :
    id ∈ self.facts.safeOperations ∨ RecordedStatement environment expressions block id ∨
      RecordedInvoke environment expressions block id := by
  cases visitTerminator_safeOperations h with
  | inl hwalk =>
      have hwhole : ∃ later, block.statements = block.statements ++ later := ⟨[], by simp⟩
      cases visitStatements_safeOperations rfl hwhole hwalk with
      | inl hold => exact Or.inl hold
      | inr hstatement => exact Or.inr (Or.inl hstatement)
  | inr hinvoke =>
      rw [visitStatements_cache rfl] at hinvoke
      exact Or.inr (Or.inr hinvoke)

theorem visitBlock_safeNarrowings {self : BlockAnalyser} {block : HirBlock} {id : HirNodeId}
    (h : id ∈ (self.visitBlock environment expressions block).facts.safeNarrowings) :
    id ∈ self.facts.safeNarrowings ∨ RecordedNarrowing environment expressions block id := by
  cases visitTerminator_safeNarrowings h with
  | inl hwalk =>
      rw [visitStatements_safeNarrowings] at hwalk
      exact Or.inl hwalk
  | inr hinvoke =>
      rw [visitStatements_cache rfl] at hinvoke
      exact Or.inr hinvoke

end Records

section Module

variable {hir : HirModule} {environment : TypeEnvironment}

theorem visitBlocks_induction (fact : NumericProofs → Prop) {record : HirBlock → Prop}
    {expressions : HirExpressionStore}
    (hvisit : ∀ self block, fact (BlockAnalyser.visitBlock environment expressions self
      block).facts → fact self.facts ∨ record block)
    {blocks : List HirBlock} {self : BlockAnalyser}
    (h : fact (blocks.foldl (BlockAnalyser.visitBlock environment expressions) self).facts) :
    fact self.facts ∨ ∃ block ∈ blocks, record block := by
  induction blocks generalizing self with
  | nil => exact Or.inl h
  | cons block rest ih =>
      cases ih h with
      | inl hfirst =>
          cases hvisit self block hfirst with
          | inl hold => exact Or.inl hold
          | inr hrecord => exact Or.inr ⟨block, List.mem_cons_self, hrecord⟩
      | inr hlater =>
          obtain ⟨other, hmem, hrecord⟩ := hlater
          exact Or.inr ⟨other, List.mem_cons_of_mem _ hmem, hrecord⟩

theorem mem_safeOperations {id : HirNodeId}
    (h : id ∈ (analyseNumericProofs hir environment).safeOperations) :
    ∃ block ∈ hir.blocks, RecordedStatement environment hir.expressions block id ∨
      RecordedInvoke environment hir.expressions block id := by
  cases visitBlocks_induction (fun facts => id ∈ facts.safeOperations)
    (fun _ _ => visitBlock_safeOperations) h with
  | inl hempty => exact absurd hempty (Finset.notMem_empty id)
  | inr hrecord => exact hrecord

theorem mem_safeNarrowings {id : HirNodeId}
    (h : id ∈ (analyseNumericProofs hir environment).safeNarrowings) :
    ∃ block ∈ hir.blocks, RecordedNarrowing environment hir.expressions block id := by
  cases visitBlocks_induction (fun facts => id ∈ facts.safeNarrowings)
    (fun _ _ => visitBlock_safeNarrowings) h with
  | inl hempty => exact absurd hempty (Finset.notMem_empty id)
  | inr hrecord => exact hrecord

/-! ## One id, one operation -/

theorem statement_id_mem {block : HirBlock} {statement : HirStatement}
    (h : statement ∈ block.statements) : statement.id ∈ block.nodeIds :=
  List.mem_append_left _ (List.mem_map_of_mem h)

theorem invoke_id_mem {block : HirBlock} {id : HirNodeId} {operation : HirFallibleOperation}
    {success failure : BlockId} {successResults : List LocalId} {errorResult : LocalId}
    (h : block.terminator = .Invoke id operation success successResults failure errorResult) :
    id ∈ block.nodeIds := by
  simp [HirBlock.nodeIds, h]

theorem block_unique (hvalid : NumericallyValidated hir environment) {block other : HirBlock}
    (hblock : block ∈ hir.blocks) (hother : other ∈ hir.blocks) {id : HirNodeId}
    (hid : id ∈ block.nodeIds) (hid' : id ∈ other.nodeIds) : block = other := by
  by_contra hne
  have hdisjoint := (List.nodup_flatMap.1 hvalid.nodeIds).2
  have : Std.Symm (Function.onFun List.Disjoint HirBlock.nodeIds) := ⟨fun _ _ h => h.symm⟩
  exact hdisjoint.forall hblock hother hne hid hid'

theorem block_nodup (hvalid : NumericallyValidated hir environment) {block : HirBlock}
    (hblock : block ∈ hir.blocks) : block.nodeIds.Nodup :=
  (List.nodup_flatMap.1 hvalid.nodeIds).1 block hblock

theorem statement_id_ne_invoke (hvalid : NumericallyValidated hir environment)
    {block : HirBlock} (hblock : block ∈ hir.blocks) {statement : HirStatement}
    (hmem : statement ∈ block.statements) {id : HirNodeId} {operation : HirFallibleOperation}
    {success failure : BlockId} {successResults : List LocalId} {errorResult : LocalId}
    (h : block.terminator = .Invoke id operation success successResults failure errorResult) :
    statement.id ≠ id := by
  have hnodup := block_nodup hvalid hblock
  simp only [HirBlock.nodeIds, h] at hnodup
  have hdisjoint := (List.nodup_append.1 hnodup).2.2
  exact hdisjoint statement.id (List.mem_map_of_mem hmem) id (List.mem_singleton.2 rfl)

theorem split_unique (hvalid : NumericallyValidated hir environment) {block : HirBlock}
    (hblock : block ∈ hir.blocks) {earlier later earlier' later' : List HirStatement}
    {statement statement' : HirStatement}
    (h : block.statements = earlier ++ statement :: later)
    (h' : block.statements = earlier' ++ statement' :: later')
    (hid : statement.id = statement'.id) : earlier = earlier' ∧ statement = statement' := by
  have hnodup : (block.statements.map fun statement => statement.id).Nodup :=
    (List.nodup_append.1 (block_nodup hvalid hblock)).1
  have hfirst := hnodup
  rw [h, List.map_append, List.map_cons] at hfirst
  have hnotin : statement' ∉ earlier ∧ statement' ∉ later := by
    have hsplit := List.nodup_append.1 hfirst
    refine ⟨fun hmem => ?_, fun hmem => ?_⟩
    · exact hsplit.2.2 statement'.id (List.mem_map_of_mem hmem) statement.id
        List.mem_cons_self hid.symm
    · have htail := (List.nodup_cons.1 hsplit.2.1).1
      rw [hid] at htail
      exact htail (List.mem_map_of_mem hmem)
  have hsame := h.symm.trans h'
  obtain ⟨h1, h2, -⟩ := (List.append_cons_inj_of_notMem hnotin.1 hnotin.2).1 hsame
  exact ⟨h1, h2⟩

/-! ## Soundness -/

theorem recorded_statement (hvalid : NumericallyValidated hir environment) {block : HirBlock}
    (hblock : block ∈ hir.blocks) {earlier later : List HirStatement} {statement : HirStatement}
    (h : block.statements = earlier ++ statement :: later)
    (hsafe : statement.id ∈ (analyseNumericProofs hir environment).safeOperations)
    {op : HirNumericOp} {failureMode : NumericFailureMode} {operands : HirNumericOperands}
    {result : HirLocalDestination}
    (hkind : statement.kind = .NumericOp op failureMode operands result) :
    ∃ interval, proveOperation environment hir.expressions
      (cacheAfter environment hir.expressions earlier) op operands = some interval := by
  have hmem : statement ∈ block.statements := by simp [h]
  obtain ⟨other, hother, hrecord⟩ := mem_safeOperations hsafe
  cases hrecord with
  | inl hstatement =>
      obtain ⟨earlier', statement', later', op', failureMode', operands', result', interval,
        hsplit, hid, hkind', hproof⟩ := hstatement
      have hmem' : statement' ∈ other.statements := by simp [hsplit]
      have hsame : other = block := block_unique hvalid hother hblock
        (statement_id_mem hmem') (hid ▸ statement_id_mem hmem)
      subst hsame
      obtain ⟨rfl, rfl⟩ := split_unique hvalid hblock hsplit h hid
      rw [hkind] at hkind'
      cases hkind'
      exact ⟨interval, hproof⟩
  | inr hinvoke =>
      obtain ⟨op', operands', success, successResults, failure, errorResult, interval,
        hterminator, -⟩ := hinvoke
      have hsame : other = block := block_unique hvalid hother hblock
        (invoke_id_mem hterminator) (statement_id_mem hmem)
      subst hsame
      exact absurd rfl (statement_id_ne_invoke hvalid hblock hmem hterminator)

theorem recorded_invoke (hvalid : NumericallyValidated hir environment) {block : HirBlock}
    (hblock : block ∈ hir.blocks) {id : HirNodeId} {op : HirNumericOp}
    {operands : HirNumericOperands} {success failure : BlockId} {successResults : List LocalId}
    {errorResult : LocalId}
    (h : block.terminator =
      .Invoke id (.NumericOp op operands) success successResults failure errorResult)
    (hsafe : id ∈ (analyseNumericProofs hir environment).safeOperations) :
    ∃ interval, proveOperation environment hir.expressions
      (cacheAfter environment hir.expressions block.statements) op operands = some interval := by
  obtain ⟨other, hother, hrecord⟩ := mem_safeOperations hsafe
  cases hrecord with
  | inl hstatement =>
      obtain ⟨earlier', statement', later', op', failureMode', operands', result', interval,
        hsplit, rfl, hkind', hproof⟩ := hstatement
      have hmem' : statement' ∈ other.statements := by simp [hsplit]
      have hsame : other = block := block_unique hvalid hother hblock
        (statement_id_mem hmem') (invoke_id_mem h)
      subst hsame
      exact absurd rfl (statement_id_ne_invoke hvalid hblock hmem' h)
  | inr hinvoke =>
      obtain ⟨op', operands', success', successResults', failure', errorResult', interval,
        hterminator, hproof⟩ := hinvoke
      have hsame : other = block := block_unique hvalid hother hblock
        (invoke_id_mem hterminator) (invoke_id_mem h)
      subst hsame
      rw [h] at hterminator
      cases hterminator
      exact ⟨interval, hproof⟩

theorem recorded_narrowing (hvalid : NumericallyValidated hir environment) {block : HirBlock}
    (hblock : block ∈ hir.blocks) {id : HirNodeId} {policy : BuiltinCastPolicyId}
    {operand : HirValueId} {success failure : BlockId} {successResults : List LocalId}
    {errorResult : LocalId}
    (h : block.terminator =
      .Invoke id (.CastOp policy operand) success successResults failure errorResult)
    (hsafe : id ∈ (analyseNumericProofs hir environment).safeNarrowings) :
    ∃ interval, expressionInterval environment hir.expressions
      (cacheAfter environment hir.expressions block.statements) operand = some interval ∧
      castNarrowingIsProvable policy interval = true := by
  obtain ⟨other, hother, policy', operand', success', successResults', failure', errorResult',
    interval, hterminator, hinterval, hprovable⟩ := mem_safeNarrowings hsafe
  have hsame : other = block := block_unique hvalid hother hblock
    (invoke_id_mem hterminator) (invoke_id_mem h)
  subst hsame
  rw [h] at hterminator
  cases hterminator
  exact ⟨interval, hinterval, hprovable⟩

theorem castNarrowingIsProvable_sound {policy : BuiltinCastPolicyId} {interval : Interval}
    {integer : Int} (h : castNarrowingIsProvable policy interval = true)
    (hmem : Interval.Contains interval integer) :
    ∃ source target range, policy = .NumericConversion source target ∧
      target.integerRange = some range ∧ Interval.Contains range integer := by
  cases policy with
  | NumericConversion source target =>
      simp only [castNarrowingIsProvable] at h
      split at h
      · cases h
      · split at h
        · next range hrange =>
            have hfits := of_decide_eq_true h
            exact ⟨source, target, range, rfl, hrange, le_trans hfits.1 hmem.1,
              le_trans hmem.2 hfits.2⟩
        · cases h
  | _ => cases h

theorem cacheAfter_numericOp {expressions : HirExpressionStore} {earlier : List HirStatement}
    {statement : HirStatement} {op : HirNumericOp} {failureMode : NumericFailureMode}
    {operands : HirNumericOperands} {result : HirLocalDestination} {interval : Interval}
    (hkind : statement.kind = .NumericOp op failureMode operands result)
    (hproof : proveOperation environment expressions
      (cacheAfter environment expressions earlier) op operands = some interval) :
    cacheAfter environment expressions (earlier ++ [statement]) =
      some (result.localId, interval) := by
  simp only [cacheAfter] at hproof
  simp only [cacheAfter, visitStatements_append]
  show (BlockAnalyser.visitStatement environment expressions _ statement).cache = _
  simp only [BlockAnalyser.visitStatement, hkind, hproof]

theorem cacheHolds_cacheAfter (hvalid : NumericallyValidated hir environment) {block : HirBlock}
    (hblock : block ∈ hir.blocks) {statements : List HirStatement}
    (hsub : ∀ statement ∈ statements, statement ∈ block.statements)
    {entry state : MachineState} (htyped : WellTyped hir environment entry)
    (hsteps : StatementSteps hir environment statements entry state) :
    WellTyped hir environment state ∧
      CacheHolds (cacheAfter environment hir.expressions statements) state :=
  visitStatements_preserves hvalid hblock hsub htyped (cacheHolds_none entry) hsteps

/-- What the table records cannot fail: a recorded statement's operation has a result, in the
interval that the walk keeps for its result local, a recorded `Invoke`'s operation has a
result, and a recorded narrowing meets a value of its target's range. -/
theorem analyseNumericProofs_sound (hvalid : NumericallyValidated hir environment)
    {block : HirBlock} (hblock : block ∈ hir.blocks) {entry : MachineState}
    (htyped : WellTyped hir environment entry) :
    (∀ earlier statement later op failureMode operands result state,
      block.statements = earlier ++ statement :: later →
      statement.kind = .NumericOp op failureMode operands result →
      (analyseNumericProofs hir environment).integerOperationIsSafe statement.id = true →
      StatementSteps hir environment earlier entry state →
      ∃ value interval,
        checkedOperation op operands (evaluate hir.expressions state) = some value ∧
        cacheAfter environment hir.expressions (earlier ++ [statement]) =
          some (result.localId, interval) ∧
        Interval.Contains interval value) ∧
    (∀ id op operands success successResults failure errorResult state,
      block.terminator =
        .Invoke id (.NumericOp op operands) success successResults failure errorResult →
      (analyseNumericProofs hir environment).integerOperationIsSafe id = true →
      StatementSteps hir environment block.statements entry state →
      ∃ value interval,
        checkedOperation op operands (evaluate hir.expressions state) = some value ∧
        proveOperation environment hir.expressions
          (cacheAfter environment hir.expressions block.statements) op operands =
            some interval ∧
        Interval.Contains interval value) ∧
    (∀ id policy operand success successResults failure errorResult state,
      block.terminator =
        .Invoke id (.CastOp policy operand) success successResults failure errorResult →
      (analyseNumericProofs hir environment).integerNarrowingIsSafe id = true →
      StatementSteps hir environment block.statements entry state →
      ∃ source target range value, policy = .NumericConversion source target ∧
        target.integerRange = some range ∧
        evaluate hir.expressions state operand = some value ∧ Interval.Contains range value) := by
  refine ⟨?_, ?_, ?_⟩
  · intro earlier statement later op failureMode operands result state hsplit hkind hsafe hsteps
    have hsafe := of_decide_eq_true hsafe
    obtain ⟨interval, hproof⟩ := recorded_statement hvalid hblock hsplit hsafe hkind
    obtain ⟨htyped', hcache⟩ := cacheHolds_cacheAfter hvalid hblock
      (fun other hmem => by rw [hsplit]; exact List.mem_append_left _ hmem) htyped hsteps
    obtain ⟨value, hvalue, hmem⟩ := proveOperation_sound hvalid htyped' hcache hproof
    exact ⟨value, interval, hvalue, cacheAfter_numericOp hkind hproof, hmem⟩
  · intro id op operands success successResults failure errorResult state hterminator hsafe hsteps
    have hsafe := of_decide_eq_true hsafe
    obtain ⟨interval, hproof⟩ := recorded_invoke hvalid hblock hterminator hsafe
    obtain ⟨htyped', hcache⟩ :=
      cacheHolds_cacheAfter hvalid hblock (fun _ hmem => hmem) htyped hsteps
    obtain ⟨value, hvalue, hmem⟩ := proveOperation_sound hvalid htyped' hcache hproof
    exact ⟨value, interval, hvalue, hproof, hmem⟩
  · intro id policy operand success successResults failure errorResult state hterminator hsafe
      hsteps
    have hsafe := of_decide_eq_true hsafe
    obtain ⟨interval, hinterval, hprovable⟩ :=
      recorded_narrowing hvalid hblock hterminator hsafe
    obtain ⟨htyped', hcache⟩ :=
      cacheHolds_cacheAfter hvalid hblock (fun _ hmem => hmem) htyped hsteps
    obtain ⟨value, hvalue, hmem⟩ := expressionInterval_sound hvalid htyped' hcache hinterval
    obtain ⟨source, target, range, hpolicy, hrange, hcontains⟩ :=
      castNarrowingIsProvable_sound hprovable hmem
    exact ⟨source, target, range, value, hpolicy, hrange, hvalue, hcontains⟩

end Module

/-! A module with one block: `b = a // 5` over `U8`, then a conversion of `b` to `I8`. -/

/-- The seeded scalars and nothing else. -/
def seededEnvironment : TypeEnvironment where
  builtinKey id :=
    ([.I8, .I16, .I32, .I64, .U8, .U16, .U32, .U64, .F16, .F32, .F64, .Byte].find? fun scalar =>
      fixedScalarTypeId scalar = id).map .FixedScalar
  fixedScalar_seeded scalar := by cases scalar <;> decide

def fifthExpressions : HirExpressionStore where
  expression id :=
    match id.index with
    | 0 => ⟨.Load ⟨⟨0⟩, []⟩, fixedScalarTypeId .U8, .Place⟩
    | 1 => ⟨.FixedScalar ⟨.U8, 5⟩, fixedScalarTypeId .U8, .Const⟩
    | 2 => ⟨.Load ⟨⟨1⟩, []⟩, fixedScalarTypeId .U8, .Place⟩
    | _ => ⟨.Bool true, ⟨0⟩, .Const⟩
  rank _ := 0
  rank_child := by rintro ⟨_ | _ | _ | n⟩ child h <;> cases h

def fifthStatement : HirStatement :=
  ⟨⟨0⟩, .NumericOp ⟨.IntegerDivide, .Fixed .U8⟩ .Trap (.Binary ⟨0⟩ ⟨1⟩) (.Define ⟨1⟩)⟩

def fifthBlock : HirBlock where
  id := ⟨0⟩
  region := ⟨0⟩
  locals := [⟨⟨0⟩, fixedScalarTypeId .U8, false, ⟨0⟩⟩, ⟨⟨1⟩, fixedScalarTypeId .U8, false, ⟨0⟩⟩]
  statements := [fifthStatement]
  terminator := .Invoke ⟨1⟩ (.CastOp (.NumericConversion (.Fixed .U8) (.Fixed .I8)) ⟨2⟩)
    ⟨1⟩ [] ⟨2⟩ ⟨2⟩

def fifthModule : HirModule := ⟨fifthExpressions, [fifthBlock], [], [⟨⟨0⟩, none⟩], fun _ => none⟩

theorem inType_octet {value : Int} (h : Interval.Contains (0, 255) value) :
    InType seededEnvironment (fixedScalarTypeId .U8) (some value) := by
  intro range hrange
  have hcanonical : canonicalInterval seededEnvironment (fixedScalarTypeId .U8) =
      some (0, 255) := by decide
  cases hcanonical.symm.trans hrange
  exact ⟨value, rfl, h⟩

theorem fifthModule_validated : NumericallyValidated fifthModule seededEnvironment where
  nodeIds := by decide
  literal := by
    rintro ⟨_ | _ | _ | n⟩ value h <;> cases h
    exact inType_octet (by decide)
  place := by
    rintro ⟨_ | _ | _ | n⟩ place (h | h) - <;> cases h <;> rfl
  castType := by
    rintro ⟨_ | _ | _ | n⟩ operand source target h <;> cases h
  castInfallible := by
    rintro ⟨_ | _ | _ | n⟩ operand source target targetRange h <;> cases h
  write := by
    intro block hblock statement hmem target value targetLocal hkind
    cases List.mem_singleton.1 hblock
    cases List.mem_singleton.1 hmem
    cases hkind
  numericResult := by
    intro block hblock statement hmem operator fixed failureMode operands result hkind
    cases List.mem_singleton.1 hblock
    cases List.mem_singleton.1 hmem
    cases hkind
    rfl

/-- Both locals hold 100 on entry, and the statement leaves 20 in the second. -/
def fifthState (second : Int) : MachineState where
  locals target := if target = ⟨1⟩ then some second else some 100
  reads _ := some 0

theorem fifthState_typed (second : Int) (h : Interval.Contains (0, 255) second) :
    WellTyped fifthModule seededEnvironment (fifthState second) := by
  refine ⟨?_, ?_⟩
  · intro other typeId _ hdeclared
    have htype : typeId = fixedScalarTypeId .U8 := by
      simp only [declaredType, Option.map_eq_some_iff] at hdeclared
      obtain ⟨declared, hfind, rfl⟩ := hdeclared
      have hmem := List.mem_of_find?_eq_some hfind
      simp only [fifthModule, fifthBlock, List.flatMap_cons, List.flatMap_nil,
        List.append_nil, List.mem_cons, List.not_mem_nil, or_false] at hmem
      rcases hmem with rfl | rfl <;> rfl
    subst htype
    simp only [fifthState]
    split
    · exact inType_octet h
    · exact inType_octet (by decide)
  · rintro ⟨_ | _ | _ | n⟩
    · exact inType_octet (by decide)
    · exact inType_octet (by decide)
    · exact inType_octet (by decide)
    · intro range hrange
      cases hrange

theorem analyseNumericProofs_sound_fifth :
    (∃ value interval,
      checkedOperation ⟨.IntegerDivide, .Fixed .U8⟩ (.Binary ⟨0⟩ ⟨1⟩)
        (evaluate fifthExpressions (fifthState 100)) = some value ∧
      cacheAfter seededEnvironment fifthExpressions [fifthStatement] = some (⟨1⟩, interval) ∧
      Interval.Contains interval value) ∧
    (∃ source target range value,
      BuiltinCastPolicyId.NumericConversion (.Fixed .U8) (.Fixed .I8) =
        .NumericConversion source target ∧
      target.integerRange = some range ∧
      evaluate fifthExpressions (fifthState 20) ⟨2⟩ = some value ∧
      Interval.Contains range value) := by
  have hentry := fifthState_typed 100 (by decide)
  obtain ⟨hstatement, -, hnarrowing⟩ := analyseNumericProofs_sound fifthModule_validated
    (List.mem_singleton.2 rfl : fifthBlock ∈ fifthModule.blocks) hentry
  refine ⟨hstatement [] fifthStatement [] _ _ _ _ _ rfl rfl (by decide +kernel) rfl, ?_⟩
  refine hnarrowing _ _ _ _ _ _ _ (fifthState 20) rfl (by decide +kernel) 
    ⟨fifthState 20, ?_, rfl⟩
  have hafter := fifthState_typed 20 (by decide)
  exact ⟨20, by decide +kernel, rfl, fun other typeId _ => hafter.1 other typeId (by simp),
    hafter.2⟩

end Moth.Analysis
