import Moth.ConstEval.FoldRecursion

/-!
# What a fold returns

Every operation hands its completion as many slots as the completion reads,
and every exponent that is entered is left. So a fold that returns has kept the
nesting depth, and the failures with which the walk guards its own stack are
not reached: `Settles` says both of one computation and composes along the
recursion.
-/

namespace Moth.ConstEval

open Moth.Datatypes Moth.Lib Moth.Symbols

/-- A failure that would mean the walk disagrees with itself. -/
def FoldFailure.walkFault {ε : Type} : FoldFailure ε → Bool
  | .compositeBoundary | .lostChoiceType | .unexpectedChildCount | .lostArgumentSlot
  | .lostCastOperands | .exponentDepthUnderflow | .missingRootResult => true
  | _ => false

section Settling

variable {Ctx ε Leaf Policy TextOp α β : Type}

theorem runFrom_evaluated (y : Staged Ctx ε α) (s : FoldState Ctx) :
    (evaluated y).runFrom s = match y.runFrom s.ctx with
      | (.ok a, ctx) => (.ok a, { s with ctx })
      | (.error e, ctx) => (.error (.evaluation e), { s with ctx }) := rfl

/-- The computation returns at the depth it started from, and fails without a fault of the walk.
It may go `room` exponents deeper on the way. -/
structure Settles (room : Nat) (x : FoldM Ctx ε α) (post : α → Prop) : Prop where
  ok : ∀ {s a s'}, x.runFrom s = (.ok a, s') →
    post a ∧ s'.decPowerExponentDepth = s.decPowerExponentDepth
  error : ∀ {s e s'}, x.runFrom s = (.error e, s') → e.walkFault = false ∧
    (e = .exponentDepthOverflow → 4294967296 ≤ s.decPowerExponentDepth + room)

namespace Settles

variable {room more : Nat} {x : FoldM Ctx ε α} {post : α → Prop} {after : β → Prop}

theorem mono (h : Settles room x post) (hle : room ≤ more) : Settles more x post where
  ok hrun := h.ok hrun
  error hrun := by
    have := h.error hrun
    refine ⟨this.1, fun he => ?_⟩
    have := this.2 he
    omega

theorem pure {a : α} (ha : post a) : Settles room (pure a : FoldM Ctx ε α) post where
  ok hrun := by
    cases hrun
    exact ⟨ha, rfl⟩
  error hrun := by cases hrun

theorem throw {e : FoldFailure ε} (hfault : e.walkFault = false)
    (hdepth : e ≠ .exponentDepthOverflow) :
    Settles room (throw e : FoldM Ctx ε α) post where
  ok hrun := by cases hrun
  error hrun := by
    cases hrun
    exact ⟨hfault, fun he => absurd he hdepth⟩

theorem bind {f : α → FoldM Ctx ε β} (hx : Settles room x post)
    (hf : ∀ a, post a → Settles room (f a) after) : Settles room (x >>= f) after where
  ok hrun := by
    obtain ⟨a, mid, hfirst, hrest⟩ := Staged.bind_eq_ok.1 hrun
    have hmid := hx.ok hfirst
    have hend := (hf a hmid.1).ok hrest
    exact ⟨hend.1, hend.2.trans hmid.2⟩
  error hrun := by
    rcases Staged.bind_eq_error.1 hrun with hfirst | ⟨a, mid, hfirst, hrest⟩
    · exact hx.error hfirst
    · have hmid := hx.ok hfirst
      have hend := (hf a hmid.1).error hrest
      rw [hmid.2] at hend
      exact hend

theorem mapM {f : α → FoldM Ctx ε β} {l : List α}
    (h : ∀ a ∈ l, Settles room (f a) fun _ => True) :
    Settles room (l.mapM f) fun slots => slots.length = l.length := by
  induction l with
  | nil => exact pure rfl
  | cons a rest ih =>
      rw [List.mapM_cons]
      refine bind (h a List.mem_cons_self) fun b _ => ?_
      refine bind (ih fun c hc => h c (List.mem_cons_of_mem _ hc)) fun slots hlength => ?_
      exact pure (congrArg (· + 1) hlength)

theorem evaluated (y : Staged Ctx ε α) : Settles room (evaluated y) fun _ => True where
  ok {s a s'} hrun := by
    rw [runFrom_evaluated] at hrun
    rcases hy : y.runFrom s.ctx with ⟨e | b, ctx⟩
    · rw [hy] at hrun
      cases hrun
    · rw [hy] at hrun
      cases hrun
      exact ⟨trivial, rfl⟩
  error {s e s'} hrun := by
    rw [runFrom_evaluated] at hrun
    rcases hy : y.runFrom s.ctx with ⟨e | b, ctx⟩
    · rw [hy] at hrun
      cases hrun
      exact ⟨rfl, fun h => by cases h⟩
    · rw [hy] at hrun
      cases hrun

theorem readCtx (f : Ctx → α) :
    Settles room (readCtx f : FoldM Ctx ε α) fun _ => True where
  ok hrun := by
    cases hrun
    exact ⟨trivial, rfl⟩
  error hrun := by cases hrun

theorem insideExponent : Settles room (insideExponent : FoldM Ctx ε Bool) fun _ => True where
  ok hrun := by
    cases hrun
    exact ⟨trivial, rfl⟩
  error hrun := by cases hrun

/-- A computation between entering an exponent and leaving it. -/
theorem bracket (h : Settles room x post) {f : α → FoldM Ctx ε β}
    (hf : ∀ a, post a → Settles (room + 1) (f a) after) :
    Settles (room + 1) (do
      enterDecPowerExponent
      let a ← x
      leaveDecPowerExponent
      f a) after := by
  have hleave : ∀ (s : FoldState Ctx), 0 < s.decPowerExponentDepth →
      (leaveDecPowerExponent : FoldM Ctx ε Unit).runFrom s =
        (.ok (), { s with decPowerExponentDepth := s.decPowerExponentDepth - 1 }) := by
    intro s hpos
    obtain ⟨ctx, _ | depth⟩ := s
    · cases hpos
    · rfl
  have henter : ∀ s : FoldState Ctx, (enterDecPowerExponent : FoldM Ctx ε Unit).runFrom s =
      if s.decPowerExponentDepth + 1 < 4294967296 then
        (.ok (), { s with decPowerExponentDepth := s.decPowerExponentDepth + 1 })
      else (.error .exponentDepthOverflow, s) := fun _ => rfl
  constructor
  · intro s b s' hrun
    obtain ⟨_, inner, hin, hrun⟩ := Staged.bind_eq_ok.1 hrun
    obtain ⟨a, mid, hx, hrun⟩ := Staged.bind_eq_ok.1 hrun
    obtain ⟨_, outer, hout, hrun⟩ := Staged.bind_eq_ok.1 hrun
    rw [henter] at hin
    split at hin
    · cases hin
      have hmid := h.ok hx
      rw [hleave mid (by rw [hmid.2]; exact Nat.succ_pos _)] at hout
      cases hout
      have hend := (hf a hmid.1).ok hrun
      refine ⟨hend.1, hend.2.trans ?_⟩
      show mid.decPowerExponentDepth - 1 = _
      rw [hmid.2]
      rfl
    · cases hin
  · intro s e s' hrun
    rcases Staged.bind_eq_error.1 hrun with hin | ⟨_, inner, hin, hrun⟩
    · rw [henter] at hin
      split at hin
      · cases hin
      · cases hin
        refine ⟨rfl, fun _ => ?_⟩
        omega
    · rw [henter] at hin
      split at hin
      · cases hin
        rcases Staged.bind_eq_error.1 hrun with hx | ⟨a, mid, hx, hrun⟩
        · have hfail := h.error hx
          refine ⟨hfail.1, fun he => ?_⟩
          have hroom : 4294967296 ≤ s.decPowerExponentDepth + 1 + room := hfail.2 he
          omega
        · have hmid := h.ok hx
          have hpos : 0 < mid.decPowerExponentDepth := by
            rw [hmid.2]
            exact Nat.succ_pos _
          rcases Staged.bind_eq_error.1 hrun with hout | ⟨_, outer, hout, hrun⟩
          · rw [hleave mid hpos] at hout
            cases hout
          · rw [hleave mid hpos] at hout
            cases hout
            have hend := (hf a hmid.1).error hrun
            refine ⟨hend.1, fun he => ?_⟩
            have hroom : 4294967296 ≤ mid.decPowerExponentDepth - 1 + (room + 1) := hend.2 he
            have hdepth : mid.decPowerExponentDepth = s.decPowerExponentDepth + 1 := hmid.2
            omega
      · cases hin

end Settles

variable {room : Nat} {store : ExpressionStore Policy} {boundary : FoldBoundary}
  {services : FoldServices Ctx ε Leaf Policy TextOp} {id : ExprId} {row : ExpressionRow Policy}
  {typeId : TypeId}

theorem insert_settles (payload : ConstValuePayload Leaf) (kind : ConstValueKind) :
    Settles room (insert services id payload kind) fun _ => True :=
  Settles.bind (.evaluated _) fun _ _ => .pure trivial

theorem boolOperand_settles (value : ConstValueId) :
    Settles room (boolOperand services value : FoldM Ctx ε (Option Bool)) fun _ => True := by
  refine .bind (.readCtx _) fun payload _ => ?_
  split <;> exact .pure trivial

theorem boundaryTypes_settles (h : boundary.foldsComposites = true) :
    Settles room (boundaryTypes boundary : FoldM Ctx ε ContentTypes) fun _ => True := by
  cases boundary with
  | Runtime requirement => cases h
  | Content types requirement => exact .pure trivial

theorem valueTypeId_settles (value : ExprId) :
    Settles room (valueTypeId store value : FoldM Ctx ε TypeId) fun _ => True := by
  have hview : Settles room (view store value : FoldM Ctx ε _) fun _ => True := by
    rw [view]
    split
    · exact .pure trivial
    · exact .throw rfl (fun h => by cases h)
  refine .bind hview fun row _ => ?_
  split
  · exact .pure trivial
  · exact .throw rfl (fun h => by cases h)

/-- A completion finds the slots it reads. -/
theorem complete_settles (hs : row.success = .One typeId) {slots : List Slot}
    (hlength : slots.length = row.operation.children.length) :
    Settles room (complete store boundary services id row slots) fun _ => True := by
  obtain ⟨success, operation⟩ := row
  simp only at hs hlength
  subst hs
  cases operation with
  | NumericUnary operand facts =>
      obtain ⟨slot, rfl⟩ := List.length_eq_one_iff.1 hlength
      show Settles room (pure slot >>= _) _
      rw [pure_bind]
      cases slot with
      | none => exact .pure trivial
      | some value =>
          exact .bind .insideExponent fun _ _ => .bind (.evaluated _) fun _ _ => insert_settles _ _
  | LogicalNot operand =>
      obtain ⟨slot, rfl⟩ := List.length_eq_one_iff.1 hlength
      show Settles room (pure slot >>= _) _
      rw [pure_bind]
      cases slot with
      | none => exact .pure trivial
      | some value =>
          refine .bind (boolOperand_settles value) fun operand _ => ?_
          cases operand with
          | none => exact .pure trivial
          | some value => exact insert_settles _ _
  | NumericBinary left right facts | Compare left right facts =>
      obtain ⟨leftSlot, rightSlot, rfl⟩ := List.length_eq_two.1 hlength
      show Settles room (pure (leftSlot, rightSlot) >>= _) _
      rw [pure_bind]
      cases leftSlot with
      | none => exact .pure trivial
      | some leftValue =>
          cases rightSlot with
          | none => exact .pure trivial
          | some rightValue =>
              refine .bind .insideExponent fun _ _ => .bind (.evaluated _) fun payload _ => ?_
              cases payload with
              | none => exact .pure trivial
              | some payload => exact insert_settles _ _
  | LogicalBinary left right operation =>
      obtain ⟨leftSlot, rightSlot, rfl⟩ := List.length_eq_two.1 hlength
      show Settles room (pure (leftSlot, rightSlot) >>= _) _
      rw [pure_bind]
      cases leftSlot with
      | none => exact .pure trivial
      | some leftValue =>
          cases rightSlot with
          | none => exact .pure trivial
          | some rightValue =>
              refine .bind (boolOperand_settles leftValue) fun left _ =>
                .bind (boolOperand_settles rightValue) fun right _ => ?_
              cases left <;> cases right
              all_goals first
                | exact .pure trivial
                | exact insert_settles _ _
  | Call call =>
      rw [complete]
      simp only
      cases registeredExternalConstEvalOp services call with
      | none => exact .pure trivial
      | some operation =>
          have hcount : ¬ slots.length ≠ call.arguments.length := not_not_intro hlength
          simp only [if_neg hcount]
          split
          · exact .pure trivial
          · refine .bind (.evaluated _) fun settled _ => ?_
            split
            · exact .pure trivial
            · exact .pure trivial
            · exact .throw rfl (fun h => by cases h)
  | Range start end' =>
      rw [complete]
      simp only
      split
      · obtain ⟨startSlot, endSlot, rfl⟩ := List.length_eq_two.1 hlength
        show Settles room (pure (startSlot, endSlot) >>= _) _
        rw [pure_bind]
        split
        · exact insert_settles _ _
        · exact .pure trivial
      · exact .pure trivial
  | Coerce value operation =>
      cases operation
      rw [complete]
      simp only
      split
      · rename_i hcomposites
        obtain ⟨slot, rfl⟩ := List.length_eq_one_iff.1 hlength
        refine .bind (boundaryTypes_settles hcomposites) fun types _ =>
          .bind (valueTypeId_settles value) fun sourceType _ => ?_
        show Settles room (pure slot >>= _) _
        rw [pure_bind]
        split
        · exact .pure trivial
        · split <;> exact insert_settles _ _
      · exact .pure trivial
  | Collection items | Struct fields =>
      rw [complete]
      simp only
      split
      · split
        · exact .pure trivial
        · exact insert_settles _ _
      · exact .pure trivial
  | Choice tag fields =>
      rw [complete]
      simp only
      split
      · rename_i hcomposites
        refine .bind (boundaryTypes_settles hcomposites) fun types _ => ?_
        split
        · exact .pure trivial
        · split
          · exact .throw rfl (fun h => by cases h)
          · exact insert_settles _ _
      · exact .pure trivial
  | _ => exact .pure trivial

theorem entryChecks_settles (row : ExpressionRow Policy) :
    Settles room (entryChecks store boundary row : FoldM Ctx ε Unit) fun _ => True := by
  rw [entryChecks]
  split
  · split
    · rename_i hcomposites
      exact .bind (boundaryTypes_settles hcomposites) fun _ _ =>
        .bind (valueTypeId_settles _) fun _ _ => .pure trivial
    · exact .pure trivial
  · split
    · rename_i hcomposites
      exact .bind (boundaryTypes_settles hcomposites) fun _ _ => .pure trivial
    · exact .pure trivial
  · exact .pure trivial

theorem constantOccurrence_settles {value : ConstValueId} {mismatch : FoldFailure ε}
    (hfault : mismatch.walkFault = false) (hdepth : mismatch ≠ .exponentDepthOverflow) :
    Settles room (constantOccurrence services id typeId value mismatch) fun _ => True := by
  refine .bind (.readCtx _) fun metadata _ => ?_
  split
  · exact .throw hfault hdepth
  · exact .bind (.evaluated _) fun _ _ => .pure trivial

theorem referenceOccurrence_settles (path : PathId) :
    Settles room (referenceOccurrence services id typeId path) fun _ => True := by
  refine .bind (.evaluated _) fun binding _ => ?_
  split
  · exact .pure trivial
  · exact constantOccurrence_settles rfl (fun h => by cases h)

theorem castPolicy_settles (facts : CastFacts Policy) :
    Settles room (castPolicy boundary services id facts) fun _ => True := by
  have hrefuse : ∀ reason, Settles room
      (if boundary.requirement = .Opportunistic then (pure none : FoldM Ctx ε (Option Policy))
        else throw (.evaluation (services.invalidCast reason id facts))) fun _ => True := by
    intro reason
    split
    · exact .pure trivial
    · exact .throw rfl (fun h => by cases h)
  rw [castPolicy]
  simp only
  split
  · split
    · exact .pure trivial
    · exact hrefuse _
  · exact hrefuse _
  · exact hrefuse _

theorem castFold_settles {source : ExprId} {facts : CastFacts Policy}
    (hoperands : castOperands store row = (pure (some (source, facts)) : FoldM Ctx ε _))
    (hsource : Settles room (evaluate store boundary services source) fun _ => True) :
    Settles room (castFold store boundary services id row source facts) fun _ => True := by
  refine .bind (castPolicy_settles facts) fun policy _ => ?_
  cases policy with
  | none => exact .pure trivial
  | some policy =>
      refine .bind hsource fun slot _ => ?_
      show Settles room (pure slot >>= _) _
      rw [pure_bind]
      cases slot with
      | none => exact .pure trivial
      | some value =>
          simp only [hoperands, pure_bind]
          exact .evaluated _

/-- The recursion keeps the depth, and reaches no fault of the walk. An exponent lies below the
power it belongs to, so the rank of the expression bounds how many are entered at once. -/
theorem evaluate_settles (store : ExpressionStore Policy) (boundary : FoldBoundary)
    (services : FoldServices Ctx ε Leaf Policy TextOp) (id : ExprId) :
    Settles (store.rank id) (evaluate store boundary services id) fun _ => True := by
  cases h : store.rows id with
  | none =>
      rw [evaluate_none h]
      exact .throw rfl (fun h => by cases h)
  | some row =>
      have hchild : ∀ child ∈ row.operation.children, store.rank child < store.rank id ∧
          Settles (store.rank child) (evaluate store boundary services child) fun _ => True :=
        fun child hmem =>
          have hlt := (store.edges id row h child hmem).2
          ⟨hlt, evaluate_settles store boundary services child⟩
      cases hs : row.success with
      | Zero =>
          rw [evaluate_unsettled h (by rw [hs]; exact fun t => SuccessShape.noConfusion)]
          exact .pure trivial
      | Multiple types =>
          rw [evaluate_unsettled h (by rw [hs]; exact fun t => SuccessShape.noConfusion)]
          exact .pure trivial
      | One typeId =>
          cases hp : row.operation.plain with
          | true =>
              rw [evaluate_plain h hs hp]
              refine .bind (entryChecks_settles row) fun _ _ => .bind (.mapM fun child hmem => ?_)
                fun slots hlength => complete_settles hs hlength
              exact (hchild child hmem).2.mono (Nat.le_of_lt (hchild child hmem).1)
          | false =>
              rw [evaluate_special h hs hp]
              cases ho : row.operation with
              | Constant value => exact constantOccurrence_settles rfl (fun h => by cases h)
              | Reference path => exact referenceOccurrence_settles path
              | HandleFallible value =>
                  have hvalue := hchild value (by
                    rw [ho]
                    exact List.mem_cons_self)
                  exact hvalue.2.mono (Nat.le_of_lt hvalue.1)
              | NumericBinary left right facts =>
                  have hleft := hchild left (by
                    rw [ho]
                    exact List.mem_cons_self)
                  have hright := hchild right (by
                    rw [ho]
                    exact List.mem_cons_of_mem _ List.mem_cons_self)
                  refine .bind (hleft.2.mono (Nat.le_of_lt hleft.1)) fun leftSlot _ => ?_
                  refine (hright.2.bracket fun rightSlot _ => ?_).mono hright.1
                  exact complete_settles hs (by rw [ho]; rfl)
              | Cast source facts =>
                  have hsource := hchild source (by
                    rw [ho]
                    exact List.mem_cons_self)
                  refine castFold_settles ?_ (hsource.2.mono (Nat.le_of_lt hsource.1))
                  simp only [castOperands, ho]
              | ValueBlock block =>
                  cases block with
                  | Catch handledValue handler expressions =>
                      have hhandler : handler = true := by
                        simpa [ExpressionOperation.plain, ho] using hp
                      subst hhandler
                      have hhandled := store.edges id row h handledValue (by
                        rw [ho]
                        exact List.mem_cons_self)
                      obtain ⟨handled, hrow⟩ := Option.isSome_iff_exists.1 hhandled.1
                      simp only [hrow]
                      cases hcast : handled.operation with
                      | Cast source facts =>
                          have hsource := store.edges handledValue handled hrow source (by
                            rw [hcast]
                            exact List.mem_cons_self)
                          have hlt := Nat.lt_trans hsource.2 hhandled.2
                          refine castFold_settles ?_
                            ((evaluate_settles store boundary services source).mono
                              (Nat.le_of_lt hlt))
                          simp only [castOperands, ho, view, hrow, pure_bind, hcast]
                      | _ => exact .pure trivial
                  | If expressions => exact .pure trivial
                  | LexicalScope expressions => exact .pure trivial
                  | Match expressions => exact .pure trivial
              | _ => exact .pure trivial
termination_by store.rank id

/-! ## Operands that do not fold -/

/-- A completion of operands that all folded. -/
def combine (store : ExpressionStore Policy) (boundary : FoldBoundary)
    (services : FoldServices Ctx ε Leaf Policy TextOp) (id : ExprId) (row : ExpressionRow Policy)
    (slots : List Slot) : FoldM Ctx ε Slot :=
  if none ∈ slots then pure none else complete store boundary services id row slots

/-- The operand of a coercion that the boundary folds has a single type. -/
def OperandTyped (store : ExpressionStore Policy) (boundary : FoldBoundary)
    (row : ExpressionRow Policy) : Prop :=
  boundary.foldsComposites = true → ∀ value operation, row.operation = .Coerce value operation →
    ∃ operand typeId, store.rows value = some operand ∧ operand.success = .One typeId

theorem valueTypeId_one {value : ExprId} {operand : ExpressionRow Policy} {typeId : TypeId}
    (h : store.rows value = some operand) (hs : operand.success = .One typeId) :
    (valueTypeId store value : FoldM Ctx ε TypeId) = pure typeId := by
  rw [valueTypeId, view, h, pure_bind, hs]

theorem boundaryTypes_content (Ctx ε : Type) (h : boundary.foldsComposites = true) :
    ∃ types, (boundaryTypes boundary : FoldM Ctx ε ContentTypes) = pure types := by
  cases boundary with
  | Runtime requirement => cases h
  | Content types requirement => exact ⟨types, rfl⟩

/-- The entry checks read nothing that a fold changes: they pass or they fail. -/
theorem entryChecks_cases (Ctx ε : Type) (store : ExpressionStore Policy)
    (boundary : FoldBoundary) (row : ExpressionRow Policy) :
    OperandTyped store boundary row ∧ entryChecks store boundary row =
        (pure () : FoldM Ctx ε Unit) ∨
      ∃ e, entryChecks store boundary row = (throw e : FoldM Ctx ε Unit) := by
  obtain ⟨success, operation⟩ := row
  cases hcomposites : boundary.foldsComposites with
  | false =>
      refine .inl ⟨fun h => absurd (hcomposites.symm.trans h) Bool.false_ne_true, ?_⟩
      cases operation <;> simp [entryChecks, hcomposites]
  | true =>
      obtain ⟨types, htypes⟩ := boundaryTypes_content Ctx ε hcomposites
      cases operation with
      | Coerce value operation =>
          simp only [entryChecks, hcomposites, if_true, htypes, pure_bind]
          cases hrow : store.rows value with
          | none => exact .inr ⟨_, by rw [valueTypeId, view, hrow]; rfl⟩
          | some operand =>
              cases hs : operand.success with
              | One typeId =>
                  refine .inl ⟨fun _ _ _ heq => ?_, by rw [valueTypeId_one hrow hs, pure_bind]⟩
                  cases heq
                  exact ⟨operand, typeId, hrow, hs⟩
              | Zero | Multiple _ =>
                  exact .inr ⟨_, by rw [valueTypeId, view, hrow, pure_bind, hs]; rfl⟩
      | Choice tag fields =>
          refine .inl ⟨fun _ _ _ heq => (by cases heq), ?_⟩
          simp only [entryChecks, hcomposites, if_true, htypes, pure_bind]
      | _ => exact .inl ⟨fun _ _ _ heq => (by cases heq), rfl⟩

theorem mapM_id_none {slots : List Slot} {same : Slot → Slot} (h : none ∈ slots)
    (hsame : ∀ slot, same slot = slot) : slots.mapM same = none := by
  induction slots with
  | nil => cases h
  | cons slot rest ih =>
      rw [List.mapM_cons]
      cases slot with
      | none =>
          rw [hsame]
          rfl
      | some value =>
          rcases List.mem_cons.1 h with heq | hrest
          · cases heq
          · rw [hsame, ih hrest]
            rfl

theorem recordFields_none {fields : List ConstructorField} {slots : List Slot}
    (hlength : slots.length = fields.length) (h : none ∈ slots) :
    recordFields fields slots = none := by
  induction slots generalizing fields with
  | nil => cases h
  | cons slot rest ih =>
      cases fields with
      | nil => cases hlength
      | cons field fields =>
          rw [recordFields, List.zip_cons_cons, List.mapM_cons]
          cases slot with
          | none => rfl
          | some value =>
              rcases List.mem_cons.1 h with heq | hrest
              · cases heq
              · have hnone := ih (Nat.succ.inj hlength) hrest
                rw [recordFields] at hnone
                rw [hnone]
                rfl

/-- A completion that misses an operand leaves the expression unfolded. -/
theorem complete_unfolded (hs : row.success = .One typeId) {slots : List Slot}
    (hlength : slots.length = row.operation.children.length) (hnone : none ∈ slots)
    (htyped : OperandTyped store boundary row) :
    complete store boundary services id row slots = pure none := by
  obtain ⟨success, operation⟩ := row
  simp only at hs hlength
  subst hs
  cases operation with
  | NumericUnary operand facts | LogicalNot operand =>
      obtain ⟨slot, rfl⟩ := List.length_eq_one_iff.1 hlength
      cases List.mem_singleton.1 hnone
      rfl
  | NumericBinary left right facts | Compare left right facts
  | LogicalBinary left right operation =>
      obtain ⟨leftSlot, rightSlot, rfl⟩ := List.length_eq_two.1 hlength
      cases leftSlot with
      | none => rfl
      | some leftValue =>
          cases rightSlot with
          | none => rfl
          | some rightValue => simp at hnone
  | Call call =>
      rw [complete]
      simp only
      cases registeredExternalConstEvalOp services call with
      | none => rfl
      | some operation =>
          have hcount : ¬ slots.length ≠ call.arguments.length := not_not_intro hlength
          have hany : slots.any Option.isNone = true := List.any_eq_true.2 ⟨none, hnone, rfl⟩
          simp only [if_neg hcount, if_pos hany]
  | Range start end' =>
      rw [complete]
      simp only
      split
      · obtain ⟨startSlot, endSlot, rfl⟩ := List.length_eq_two.1 hlength
        cases startSlot with
        | none => rfl
        | some startValue =>
            cases endSlot with
            | none => rfl
            | some endValue => simp at hnone
      · rfl
  | Coerce value operation =>
      cases operation
      rw [complete]
      simp only
      split
      · rename_i hcomposites
        obtain ⟨slot, rfl⟩ := List.length_eq_one_iff.1 hlength
        cases List.mem_singleton.1 hnone
        obtain ⟨types, htypes⟩ := boundaryTypes_content Ctx ε hcomposites
        obtain ⟨operand, t, hrow, hone⟩ := htyped hcomposites value _ rfl
        rw [htypes, pure_bind, valueTypeId_one hrow hone, pure_bind]
        rfl
      · rfl
  | Collection items =>
      rw [complete]
      simp only
      split
      · rw [mapM_id_none hnone]
        exact fun _ => rfl
      · rfl
  | Struct fields =>
      have hcount : slots.length = fields.length := by
        rw [hlength]
        exact List.length_map _
      rw [complete]
      simp only [recordFields_none hcount hnone]
      split <;> rfl
  | Choice tag fields =>
      have hcount : slots.length = fields.length := by
        rw [hlength]
        exact List.length_map _
      rw [complete]
      simp only [recordFields_none hcount hnone]
      split
      · rename_i hcomposites
        obtain ⟨types, htypes⟩ := boundaryTypes_content Ctx ε hcomposites
        rw [htypes, pure_bind]
      · rfl
  | _ => rfl

/-- One level of the recursion, with the fold of a subexpression as `fold`. -/
def foldOnce (store : ExpressionStore Policy) (boundary : FoldBoundary)
    (services : FoldServices Ctx ε Leaf Policy TextOp) (fold : ExprId → FoldM Ctx ε Slot)
    (id : ExprId) (row : ExpressionRow Policy) (typeId : TypeId) : FoldM Ctx ε Slot :=
  let cast (source : ExprId) (facts : CastFacts Policy) : FoldM Ctx ε Slot := do
    match ← castPolicy boundary services id facts with
    | none => pure none
    | some policy =>
        match ← fold source with
        | none => pure none
        | some value => evaluated (services.castComplete id source facts policy value)
  if row.operation.plain then do
    entryChecks store boundary row
    combine store boundary services id row (← row.operation.children.mapM fold)
  else
    match row.operation with
    | .Constant value => constantOccurrence services id typeId value .constantTypeMismatch
    | .Reference path => referenceOccurrence services id typeId path
    | .HandleFallible value => fold value
    | .NumericBinary left right _ => do
        let leftSlot ← fold left
        enterDecPowerExponent
        let rightSlot ← fold right
        leaveDecPowerExponent
        combine store boundary services id row [leftSlot, rightSlot]
    | .Cast source facts => cast source facts
    | .ValueBlock (.Catch handledValue _ _) =>
        match store.rows handledValue with
        | some ⟨_, .Cast source facts⟩ => cast source facts
        | _ => pure none
    | _ => pure none

theorem combine_eq (hs : row.success = .One typeId) {slots : List Slot}
    (hlength : slots.length = row.operation.children.length)
    (htyped : OperandTyped store boundary row) :
    complete store boundary services id row slots =
      combine store boundary services id row slots := by
  rw [combine]
  split
  · rename_i hnone
    exact complete_unfolded hs hlength hnone htyped
  · rfl

theorem runFrom_bind_congr {x : FoldM Ctx ε α} {f g : α → FoldM Ctx ε β} {room : Nat}
    {post : α → Prop} (hx : Settles room x post) (h : ∀ a, post a → f a = g a) :
    x >>= f = x >>= g := by
  funext s
  show (x >>= f).runFrom s = (x >>= g).runFrom s
  rcases hrun : x.runFrom s with ⟨e | a, s'⟩
  · rw [Staged.bind_error hrun, Staged.bind_error hrun]
  · rw [Staged.bind_ok hrun, Staged.bind_ok hrun, h a (hx.ok hrun).1]

theorem castFold_eq {source : ExprId} {facts : CastFacts Policy}
    (hoperands : castOperands store row = (pure (some (source, facts)) : FoldM Ctx ε _)) :
    castFold store boundary services id row source facts = (do
      match ← castPolicy boundary services id facts with
      | none => pure none
      | some policy =>
          match ← evaluate store boundary services source with
          | none => pure none
          | some value => evaluated (services.castComplete id source facts policy value)) := by
  rw [castFold]
  congr 1
  funext policy
  cases policy with
  | none => rfl
  | some policy =>
      simp only
      congr 1
      funext slot
      show (pure slot >>= _) = _
      rw [pure_bind]
      cases slot with
      | none => rfl
      | some value => simp only [hoperands, pure_bind]

/-- The recursion folds an expression exactly where its operands fold and its own operation
does. -/
theorem evaluate_eq (h : store.rows id = some row) (hs : row.success = .One typeId) :
    evaluate store boundary services id =
      foldOnce store boundary services (evaluate store boundary services) id row typeId := by
  have hchild : ∀ child ∈ row.operation.children, Settles (store.rank id)
      (evaluate store boundary services child) fun _ => True := fun child hmem =>
    (evaluate_settles store boundary services child).mono
      (Nat.le_of_lt (store.edges id row h child hmem).2)
  rw [foldOnce]
  cases hp : row.operation.plain with
  | true =>
      rw [evaluate_plain h hs hp]
      simp only [if_true]
      rcases entryChecks_cases Ctx ε store boundary row with
        ⟨htyped, hchecks⟩ | ⟨e, hfail⟩
      · rw [hchecks, pure_bind, pure_bind]
        exact runFrom_bind_congr (.mapM hchild) fun slots hlength => combine_eq hs hlength htyped
      · rw [hfail]
        rfl
  | false =>
      rw [evaluate_special h hs hp]
      simp only [Bool.false_eq_true, if_false]
      cases ho : row.operation with
      | NumericBinary left right facts =>
          have htyped : OperandTyped store boundary row := fun _ value operation heq => by
            rw [ho] at heq
            cases heq
          simp only
          have hcombine : ∀ leftSlot rightSlot : Slot,
              complete store boundary services id row [leftSlot, rightSlot] =
                combine store boundary services id row [leftSlot, rightSlot] :=
            fun leftSlot rightSlot => combine_eq hs (by rw [ho]; rfl) htyped
          simp only [hcombine]
      | Cast source facts => exact castFold_eq (by simp only [castOperands, ho])
      | ValueBlock block =>
          cases block with
          | Catch handledValue handler expressions =>
              have hhandler : handler = true := by
                simpa [ExpressionOperation.plain, ho] using hp
              subst hhandler
              obtain ⟨handled, hrow⟩ := Option.isSome_iff_exists.1
                (store.edges id row h handledValue (by
                  rw [ho]
                  exact List.mem_cons_self)).1
              obtain ⟨success, operation⟩ := handled
              simp only [hrow]
              cases operation with
              | Cast source facts =>
                  exact castFold_eq (by simp only [castOperands, ho, view, hrow, pure_bind])
              | _ => rfl
          | If _ | LexicalScope _ | Match _ => rfl
      | _ => rfl

/-! ## The walk -/

/-- The walk ends and returns what the recursion over the expression returns, its failure
included. It keeps the exponent depth where it returns a value, and it meets none of the failures
that guard its stack; the depth overflows only below more exponents than a `u32` counts. -/
theorem foldWalk_refines_recursion (store : ExpressionStore Policy) (boundary : FoldBoundary)
    (services : FoldServices Ctx ε Leaf Policy TextOp) (root : ExprId) (s : FoldState Ctx) :
    (∃ needed, ∀ fuel, needed ≤ fuel → foldWalk store boundary services fuel root s =
      some ((evaluate store boundary services root).runFrom s)) ∧
    (∀ id row typeId, store.rows id = some row → row.success = .One typeId →
      evaluate store boundary services id =
        foldOnce store boundary services (evaluate store boundary services) id row typeId) ∧
    (∀ id row, store.rows id = some row → (∀ typeId, row.success ≠ .One typeId) →
      evaluate store boundary services id = pure none) ∧
    (∀ value s', (evaluate store boundary services root).runFrom s = (.ok value, s') →
      s'.decPowerExponentDepth = s.decPowerExponentDepth) ∧
    (∀ e s', (evaluate store boundary services root).runFrom s = (.error e, s') →
      e.walkFault = false ∧ (e = .exponentDepthOverflow →
        4294967296 ≤ s.decPowerExponentDepth + store.rank root)) := by
  have hsettles := evaluate_settles store boundary services root
  refine ⟨foldWalk_eq store boundary services root s, ?_, ?_, ?_, ?_⟩
  · intro id row typeId h hs
    exact evaluate_eq h hs
  · intro id row h hs
    exact evaluate_unsettled h hs
  · intro value s' hrun
    exact (hsettles.ok hrun).2
  · intro e s' hrun
    exact hsettles.error hrun

end Settling

/-! ## Where the walk departs from a fold after its operands -/

/-- References unbound and bound, a negation of the bound one, a user-defined cast of that
negation, and a `Dec` power with the negation as its exponent. -/
def sampleRows (id : ExprId) : Option (ExpressionRow Unit) :=
  match id.index with
  | 0 => some ⟨.One ⟨0⟩, .Reference ⟨0⟩⟩
  | 1 => some ⟨.One ⟨0⟩, .Reference ⟨1⟩⟩
  | 2 => some ⟨.One ⟨0⟩, .NumericUnary ⟨1⟩ ⟨.Numeric ⟨.Negate, .Fixed .I32⟩⟩⟩
  | 3 => some ⟨.One ⟨0⟩, .Cast ⟨2⟩ ⟨⟨0⟩, ⟨0⟩, false, .UserDefined⟩⟩
  | 4 => some ⟨.One ⟨0⟩, .NumericBinary ⟨1⟩ ⟨2⟩ ⟨.Numeric ⟨.Power, .Number Lexical.NumberScale.ZERO⟩⟩⟩
  | _ => none

def sampleStore : ExpressionStore Unit where
  rows := sampleRows
  rank id := id.index
  edges := by
    intro id row h child hmem
    obtain ⟨index⟩ := id
    match index, h with
    | 0, h | 1, h =>
        cases h
        cases hmem
    | 2, h | 3, h =>
        cases h
        cases List.mem_singleton.1 hmem
        exact ⟨rfl, Nat.lt_succ_self _⟩
    | 4, h =>
        cases h
        rcases List.mem_cons.1 hmem with hchild | hmem
        · cases hchild
          exact ⟨rfl, by decide⟩
        · cases List.mem_singleton.1 hmem
          exact ⟨rfl, by decide⟩

/-- Only the path `1` is bound, and every negation overflows. An error names its expression. -/
def sampleServices : FoldServices Unit Nat Unit Unit Unit where
  metadataTypeId _ _ := some ⟨0⟩
  payload _ _ := none
  withOccurrenceProvenance _ value := pure value
  lookup path := pure (if path.index = 1 then some ⟨0⟩ else none)
  insertValue _ _ _ := pure ⟨0⟩
  numericNegationPayload expression _ _ _ := throw expression.index
  binaryPayload _ _ _ _ _ := pure none
  constEval _ := none
  settleExternalCall _ _ _ := pure none
  isConstFoldable _ := false
  invalidCast _ expression _ := expression.index
  castComplete _ _ _ _ _ := pure none

/-- An unbound reference does not fold and has no operand. A cast that its policy refuses fails
before its source, which fails by itself. A power whose exponent fails leaves the depth raised. -/
theorem foldWalk_departures :
    let walk (root : Nat) := foldWalk sampleStore (.Runtime .Required) sampleServices 9 ⟨root⟩
      ⟨(), 0⟩
    let children (id : Nat) := (sampleRows ⟨id⟩).map fun row => row.operation.children
    (children 0 = some [] ∧ walk 0 = some (.ok none, ⟨(), 0⟩)) ∧
      children 3 = some [⟨2⟩] ∧ walk 2 = some (.error (.evaluation 2), ⟨(), 0⟩) ∧
      walk 3 = some (.error (.evaluation 3), ⟨(), 0⟩) ∧
      walk 4 = some (.error (.evaluation 2), ⟨(), 1⟩) :=
  ⟨⟨rfl, rfl⟩, rfl, rfl, rfl, rfl⟩

end Moth.ConstEval
