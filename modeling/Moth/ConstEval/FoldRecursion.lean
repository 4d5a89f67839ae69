import Moth.ConstEval.FoldWalk

/-!
# The walk is the recursion over an expression

`evaluate` folds an expression by recursion on its children. `EntersAs` says
that entering an expression on the stack pushes what `evaluate` returns for it;
it is proved once for each shape that entry can take, and the walk of a root is
then one block of the stack.
-/

namespace Moth.ConstEval

open Moth.Datatypes Moth.Lib Moth.Symbols

section Recursion

variable {Ctx ε Leaf Policy TextOp : Type}

/-- What entry checks before a child is entered. -/
def entryChecks (store : ExpressionStore Policy) (boundary : FoldBoundary)
    (row : ExpressionRow Policy) : FoldM Ctx ε Unit :=
  match row.operation with
  | .Coerce value _ =>
      if boundary.foldsComposites then do
        let _ ← boundaryTypes boundary
        let _ ← valueTypeId store value
        pure ()
      else pure ()
  | .Choice _ _ =>
      if boundary.foldsComposites then do
        let _ ← boundaryTypes boundary
        pure ()
      else pure ()
  | _ => pure ()

/-- An operation that is completed from all its children. -/
def ExpressionOperation.plain : ExpressionOperation Policy → Bool
  | .Constant _ | .Reference _ | .Cast _ _ | .HandleFallible _ => false
  | .ValueBlock (.Catch _ handler _) => !handler
  | .NumericBinary _ _ facts => !facts.isDecPower
  | _ => true

variable (store : ExpressionStore Policy) (boundary : FoldBoundary)
  (services : FoldServices Ctx ε Leaf Policy TextOp)

/-- The direct recursion over an expression: its children from left to right, and then itself. A
cast chooses its policy before its source is folded. -/
def evaluate (id : ExprId) : FoldM Ctx ε Slot :=
  match _h : store.rows id with
  | none => throw .outsideOwner
  | some row =>
      match row.success with
      | .Zero | .Multiple _ => pure none
      | .One typeId =>
          if row.operation.plain then do
            entryChecks store boundary row
            let slots ← row.operation.children.attach.mapM fun child => evaluate child.1
            complete store boundary services id row slots
          else
            match _ho : row.operation with
            | .Constant value =>
                constantOccurrence services id typeId value .constantTypeMismatch
            | .Reference path => referenceOccurrence services id typeId path
            | .HandleFallible value => evaluate value
            | .NumericBinary left right _ => do
                let leftSlot ← evaluate left
                enterDecPowerExponent
                let rightSlot ← evaluate right
                leaveDecPowerExponent
                complete store boundary services id row [leftSlot, rightSlot]
            | .Cast source facts => do
                match ← castPolicy boundary services id facts with
                | none => pure none
                | some policy => completeCast store services id row policy [← evaluate source]
            | .ValueBlock (.Catch handledValue _ _) =>
                match _hc : store.rows handledValue with
                | none => throw .outsideOwner
                | some handled =>
                    match _hs : handled.operation with
                    | .Cast source facts => do
                        match ← castPolicy boundary services id facts with
                        | none => pure none
                        | some policy =>
                            completeCast store services id row policy [← evaluate source]
                    | _ => pure none
            | _ => pure none
termination_by store.rank id
decreasing_by
  · exact (store.edges id row ‹_› child.1 child.2).2
  all_goals
    have hedge := store.edges id row ‹_›
    rw [‹row.operation = _›] at hedge
  · exact (hedge value List.mem_cons_self).2
  · exact (hedge left List.mem_cons_self).2
  · exact (hedge right (List.mem_cons_of_mem _ List.mem_cons_self)).2
  · exact (hedge source List.mem_cons_self).2
  · have hsource := store.edges handledValue handled ‹_›
    rw [‹handled.operation = _›] at hsource
    have hhandled := hedge handledValue List.mem_cons_self
    exact Nat.lt_trans (hsource source List.mem_cons_self).2 hhandled.2

/-- The fold of a cast once its operands are known. -/
def castFold (id : ExprId) (row : ExpressionRow Policy) (source : ExprId)
    (facts : CastFacts Policy) : FoldM Ctx ε Slot := do
  match ← castPolicy boundary services id facts with
  | none => pure none
  | some policy => do
      let slot ← evaluate store boundary services source
      completeCast store services id row policy [slot]

variable {store boundary services} {id : ExprId} {row : ExpressionRow Policy} {typeId : TypeId}

theorem evaluate_none (h : store.rows id = none) :
    evaluate store boundary services id = throw .outsideOwner := by
  rw [evaluate]
  split
  · rfl
  · rename_i row hrow
    cases h.symm.trans hrow

theorem evaluate_unsettled (h : store.rows id = some row) (hs : ∀ t, row.success ≠ .One t) :
    evaluate store boundary services id = pure none := by
  rw [evaluate]
  split
  · rename_i hrow
    cases h.symm.trans hrow
  · rename_i row' hrow
    cases h.symm.trans hrow
    split
    · rfl
    · rfl
    · rename_i t ht
      exact absurd ht (hs t)

theorem mapM_attach {α β : Type} {m : Type → Type} [Monad m] [LawfulMonad m] (l : List α)
    (f : α → m β) : (l.attach.mapM fun a => f a.1) = l.mapM f := by
  show l.attach.mapM (f ∘ Subtype.val) = _
  rw [← List.mapM_map, List.attach_map_subtype_val]

theorem evaluate_plain (h : store.rows id = some row) (hs : row.success = .One typeId)
    (hp : row.operation.plain = true) : evaluate store boundary services id =
      (entryChecks store boundary row >>= fun _ =>
        row.operation.children.mapM (evaluate store boundary services) >>= fun slots =>
          complete store boundary services id row slots) := by
  rw [evaluate]
  split
  · rename_i hrow
    cases h.symm.trans hrow
  · rename_i row' hrow
    cases h.symm.trans hrow
    simp only [hs, hp, if_true]
    rw [mapM_attach]

theorem evaluate_special (h : store.rows id = some row) (hs : row.success = .One typeId)
    (hp : row.operation.plain = false) : evaluate store boundary services id =
      match row.operation with
      | .Constant value => constantOccurrence services id typeId value .constantTypeMismatch
      | .Reference path => referenceOccurrence services id typeId path
      | .HandleFallible value => evaluate store boundary services value
      | .NumericBinary left right _ => do
          let leftSlot ← evaluate store boundary services left
          enterDecPowerExponent
          let rightSlot ← evaluate store boundary services right
          leaveDecPowerExponent
          complete store boundary services id row [leftSlot, rightSlot]
      | .Cast source facts => castFold store boundary services id row source facts
      | .ValueBlock (.Catch handledValue _ _) =>
          match store.rows handledValue with
          | none => throw .outsideOwner
          | some handled =>
              match handled.operation with
              | .Cast source facts => castFold store boundary services id row source facts
              | _ => pure none
      | _ => pure none := by
  rw [evaluate]
  split
  · rename_i hrow
    cases h.symm.trans hrow
  · rename_i row' hrow
    cases h.symm.trans hrow
    simp only [hs, hp, Bool.false_eq_true, if_false]
    split
    · rename_i ho
      simp only [ho]
    · rename_i ho
      simp only [ho]
    · rename_i ho
      simp only [ho]
    · rename_i ho
      simp only [ho]
    · rename_i ho
      simp only [ho]
      rfl
    · rename_i handled _ _ ho
      simp only [ho]
      split
      · rename_i hc
        simp only [hc]
      · rename_i row' hc
        simp only [hc]
        split
        · rename_i hs'
          simp only [hs']
          rfl
        · rename_i hnot
          split
          · rename_i source facts hs'
            exact absurd hs' (hnot source facts)
          · rfl
    · rename_i hconstant hreference hhandle hbinary hcast hblock
      split
      · rename_i ho
        exact absurd ho (hconstant _)
      · rename_i ho
        exact absurd ho (hreference _)
      · rename_i ho
        exact absurd ho (hhandle _)
      · rename_i ho
        exact absurd ho (hbinary _ _ _)
      · rename_i ho
        exact absurd ho (hcast _ _)
      · rename_i ho
        exact absurd ho (hblock _ _ _)
      · rfl

/-! ## The stack unrolls the recursion -/

theorem foldStep_enter (h : store.rows id = some row) (results : List Slot) :
    foldStep store boundary services (.Enter id) results =
      (enter store boundary services results.length id row >>= fun entry =>
        match entry with
        | .Settled value => pure ([], results ++ [value])
        | .Deferred pushed => pure (pushed, results)) := by
  rw [foldStep, view, h]
  exact (pure_bind _ _).trans rfl

theorem yields_complete (h : store.rows id = some row) (base : Nat) (mid : List Slot) :
    Yields (foldStep store boundary services) mid [.Complete id base]
      (complete store boundary services id row (mid.drop base) >>= fun value =>
        pure (mid.take base ++ [value])) := by
  refine Yields.settle ?_
  rw [foldStep, view, h]
  simp only [pure_bind, bind_assoc]

theorem yields_completeCast (h : store.rows id = some row) (base : Nat) (policy : Policy)
    (mid : List Slot) :
    Yields (foldStep store boundary services) mid [.CompleteCast id base policy]
      (completeCast store services id row policy (mid.drop base) >>= fun value =>
        pure (mid.take base ++ [value])) := by
  refine Yields.settle ?_
  rw [foldStep, view, h]
  simp only [pure_bind, bind_assoc]

/-- Entering the expression pushes its value as one slot. -/
def EntersAs (store : ExpressionStore Policy) (boundary : FoldBoundary)
    (services : FoldServices Ctx ε Leaf Policy TextOp) (id : ExprId) (x : FoldM Ctx ε Slot) :
    Prop :=
  ∀ results, Yields (foldStep store boundary services) results [.Enter id]
    (x >>= fun value => pure (results ++ [value]))

theorem EntersAs.settled (h : store.rows id = some row) {x : FoldM Ctx ε Slot}
    (henter : ∀ base, enter store boundary services base id row =
      x >>= fun value => pure (.Settled value)) : EntersAs store boundary services id x := by
  intro results
  refine Yields.settle ?_
  rw [foldStep_enter h, henter]
  simp only [bind_assoc, pure_bind]

/-- An expression parked beneath its children enters as its completion from their values. -/
theorem EntersAs.parked (h : store.rows id = some row) {α : Type} {decide : FoldM Ctx ε α}
    {children : List ExprId} (step : α → Nat → FoldStep Policy)
    (completion : α → List Slot → FoldM Ctx ε Slot)
    (henter : ∀ base, enter store boundary services base id row =
      decide >>= fun a => pure (.defer (step a base) children))
    (hstep : ∀ a base mid, Yields (foldStep store boundary services) mid [step a base]
      (completion a (mid.drop base) >>= fun value => pure (mid.take base ++ [value])))
    (hchildren : ∀ child ∈ children,
      EntersAs store boundary services child (evaluate store boundary services child)) :
    EntersAs store boundary services id (decide >>= fun a =>
      children.mapM (evaluate store boundary services) >>= completion a) := by
  intro results
  have hblock : ∀ a, Yields (foldStep store boundary services) results
      (children.map FoldStep.Enter ++ [step a results.length])
      ((children.mapM (evaluate store boundary services) >>= fun slots =>
          pure (results ++ slots)) >>= fun mid =>
        completion a (mid.drop results.length) >>= fun value =>
          pure (mid.take results.length ++ [value])) := fun a =>
    (Yields.entries hchildren results).append fun _ _ mid _ => hstep a results.length mid
  have hfold : foldStep store boundary services (.Enter id) results =
      decide >>= fun a =>
        pure (children.map FoldStep.Enter ++ [step a results.length], results) := by
    rw [foldStep_enter h, henter]
    simp only [bind_assoc, pure_bind, FoldEntry.defer]
  have hyields := Yields.decided hfold hblock
  simp only [bind_assoc, pure_bind, List.drop_left, List.take_left] at hyields ⊢
  exact hyields

theorem enter_runtime (hchecks : entryChecks store boundary row = (pure () : FoldM Ctx ε Unit))
    (henter : ∀ base, enter store boundary services base id row =
      enter.enterRuntime store boundary services base id row) :
    (∀ base, enter store boundary services base id row =
        entryChecks store boundary row >>= fun _ =>
          pure (.defer (.Complete id base) row.operation.children)) ∨
      row.operation.children = [] ∧
        entryChecks store boundary row = (pure () : FoldM Ctx ε Unit) ∧
        ∀ base, enter store boundary services base id row =
          complete store boundary services id row [] >>= fun value => pure (.Settled value) := by
  by_cases hchildren : row.operation.children = []
  · refine .inr ⟨hchildren, hchecks, fun base => ?_⟩
    rw [henter, enter.enterRuntime, if_pos hchildren]
  · refine .inl fun base => ?_
    rw [henter, enter.enterRuntime, if_neg hchildren, hchecks, pure_bind]

/-- What entering a plain operation does: park it, or settle one that has no children. -/
theorem enter_plain (hs : row.success = .One typeId) (hp : row.operation.plain = true) :
    (∀ base, enter store boundary services base id row =
        entryChecks store boundary row >>= fun _ =>
          pure (.defer (.Complete id base) row.operation.children)) ∨
      row.operation.children = [] ∧
        entryChecks store boundary row = (pure () : FoldM Ctx ε Unit) ∧
        ∀ base, enter store boundary services base id row =
          complete store boundary services id row [] >>= fun value => pure (.Settled value) := by
  obtain ⟨success, operation⟩ := row
  simp only at hs hp
  subst hs
  cases operation with
  | Constant value => cases hp
  | Reference path => cases hp
  | Cast source facts => cases hp
  | HandleFallible value => cases hp
  | NumericUnary operand facts => exact .inl fun base => rfl
  | LogicalNot operand => exact .inl fun base => rfl
  | Compare left right facts => exact .inl fun base => rfl
  | LogicalBinary left right operation => exact .inl fun base => rfl
  | NumericBinary left right facts =>
      have hpower : facts.isDecPower = false := by
        simpa [ExpressionOperation.plain] using hp
      refine .inl fun base => ?_
      simp only [enter, hpower]
      rfl
  | Call call =>
      by_cases hhost : call.isHost ∧ call.handling = false ∧ call.errorType = none
      · refine .inl fun base => ?_
        simp only [enter, if_pos hhost]
        rfl
      · exact enter_runtime rfl fun base => by simp only [enter, if_neg hhost]
  | Range start end' =>
      cases hcomposites : boundary.foldsComposites with
      | true =>
          refine .inl fun base => ?_
          simp only [enter, hcomposites]
          rfl
      | false => exact enter_runtime rfl fun base => by simp [enter, hcomposites]
  | Coerce value operation =>
      cases operation
      cases hcomposites : boundary.foldsComposites with
      | true =>
          refine .inl fun base => ?_
          simp only [enter, entryChecks, hcomposites, if_true, bind_assoc, pure_bind]
          rfl
      | false =>
          exact enter_runtime (by simp [entryChecks, hcomposites]) fun base => by
            simp [enter, hcomposites]
  | Collection items =>
      cases hcomposites : boundary.foldsComposites with
      | true =>
          refine .inl fun base => ?_
          simp only [enter, hcomposites]
          rfl
      | false => exact enter_runtime rfl fun base => by simp [enter, hcomposites]
  | Struct fields =>
      cases hcomposites : boundary.foldsComposites with
      | true =>
          refine .inl fun base => ?_
          simp only [enter, hcomposites]
          rfl
      | false => exact enter_runtime rfl fun base => by simp [enter, hcomposites]
  | Choice tag fields =>
      cases hcomposites : boundary.foldsComposites with
      | true =>
          refine .inl fun base => ?_
          simp only [enter, entryChecks, hcomposites, if_true, bind_assoc, pure_bind]
          rfl
      | false =>
          exact enter_runtime (by simp [entryChecks, hcomposites]) fun base => by
            simp [enter, hcomposites]
  | ValueBlock block =>
      cases block with
      | Catch handledValue handler expressions =>
          cases handler with
          | true => cases hp
          | false => exact enter_runtime rfl fun base => rfl
      | If expressions => exact enter_runtime rfl fun base => rfl
      | LexicalScope expressions => exact enter_runtime rfl fun base => rfl
      | Match expressions => exact enter_runtime rfl fun base => rfl
  | Copy _ | FieldAccess _ | MethodCall _ _ | CollectionBuiltin _ _ | MapBuiltin _ _
  | PropagateOption _ | Map _ | RouteConstruct _ | RuntimeTemplate _
  | RuntimeSlotApplication _ | Template => exact enter_runtime rfl fun base => rfl

theorem EntersAs.handled (h : store.rows id = some row) {value : ExprId}
    (henter : ∀ base, enter store boundary services base id row =
      pure (.Deferred [.Enter value]))
    (hvalue : EntersAs store boundary services value (evaluate store boundary services value)) :
    EntersAs store boundary services id (evaluate store boundary services value) := by
  intro results
  have hfold : foldStep store boundary services (.Enter id) results =
      (pure () : FoldM Ctx ε Unit) >>= fun _ => pure ([FoldStep.Enter value], results) := by
    rw [foldStep_enter h, henter, pure_bind, pure_bind]
  have hyields := Yields.decided hfold fun _ => hvalue results
  rwa [pure_bind] at hyields

theorem EntersAs.decPower (h : store.rows id = some row) {left right : ExprId}
    (henter : ∀ base, enter store boundary services base id row =
      pure (.Deferred [.Enter left, .EnterDecPowerExponent, .Enter right,
        .LeaveDecPowerExponent, .Complete id base]))
    (hleft : EntersAs store boundary services left (evaluate store boundary services left))
    (hright : EntersAs store boundary services right (evaluate store boundary services right)) :
    EntersAs store boundary services id (do
      let leftSlot ← evaluate store boundary services left
      enterDecPowerExponent
      let rightSlot ← evaluate store boundary services right
      leaveDecPowerExponent
      complete store boundary services id row [leftSlot, rightSlot]) := by
  intro results
  have hin : ∀ mid, Yields (foldStep store boundary services) mid [.EnterDecPowerExponent]
      (enterDecPowerExponent >>= fun _ => pure mid) := fun mid =>
    Yields.settle (by simp only [foldStep, bind_assoc, pure_bind])
  have hout : ∀ mid, Yields (foldStep store boundary services) mid [.LeaveDecPowerExponent]
      (leaveDecPowerExponent >>= fun _ => pure mid) := fun mid =>
    Yields.settle (by simp only [foldStep, bind_assoc, pure_bind])
  have hfold : foldStep store boundary services (.Enter id) results =
      (pure () : FoldM Ctx ε Unit) >>= fun _ => pure ([FoldStep.Enter left,
        .EnterDecPowerExponent, .Enter right, .LeaveDecPowerExponent,
        .Complete id results.length], results) := by
    rw [foldStep_enter h, henter, pure_bind, pure_bind]
  have hblock := (hleft results).append fun _ _ mid _ => (hin mid).append fun _ _ mid _ =>
    (hright mid).append fun _ _ mid _ => (hout mid).append fun _ _ mid _ =>
      yields_complete h results.length mid
  have hyields := Yields.decided hfold fun _ => hblock
  simp only [bind_assoc, pure_bind, List.append_assoc, List.drop_left, List.take_left,
    List.singleton_append] at hyields ⊢
  exact hyields

theorem EntersAs.cast (h : store.rows id = some row)
    (henter : ∀ base, enter store boundary services base id row =
      enterCast store boundary services base id row) {source : ExprId} {facts : CastFacts Policy}
    (hoperands : castOperands store row = (pure (some (source, facts)) : FoldM Ctx ε _))
    (hsource : EntersAs store boundary services source (evaluate store boundary services source)) :
    EntersAs store boundary services id
      (castFold store boundary services id row source facts) := by
  intro results
  have hfold : foldStep store boundary services (.Enter id) results =
      castPolicy boundary services id facts >>= fun policy => pure (match policy with
        | none => ([], results ++ [none])
        | some policy =>
            ([FoldStep.Enter source] ++ [.CompleteCast id results.length policy], results)) := by
    rw [foldStep_enter h, henter, enterCast, hoperands, pure_bind]
    simp only [bind_assoc]
    congr 1
    funext policy
    cases policy <;> rfl
  have hyields := Yields.decided (k := fun policy => match policy with
      | none => pure (results ++ [none])
      | some policy => (evaluate store boundary services source >>= fun value =>
          pure (results ++ [value])) >>= fun mid =>
            completeCast store services id row policy (mid.drop results.length) >>= fun value =>
              pure (mid.take results.length ++ [value])) hfold fun policy => by
    cases policy with
    | none => exact Yields.nil
    | some policy =>
        exact (hsource results).append fun _ _ mid _ =>
          yields_completeCast h results.length policy mid
  rw [castFold, bind_assoc]
  refine Eq.mp (congrArg (Yields _ results _) (congrArg _ ?_)) hyields
  funext policy
  cases policy with
  | none => rw [pure_bind]
  | some policy => simp only [bind_assoc, pure_bind, List.drop_left, List.take_left]

/-- Entering an expression pushes what the recursion returns for it. -/
theorem entersAs_evaluate (store : ExpressionStore Policy) (boundary : FoldBoundary)
    (services : FoldServices Ctx ε Leaf Policy TextOp) (id : ExprId) :
    EntersAs store boundary services id (evaluate store boundary services id) := by
  cases h : store.rows id with
  | none =>
      intro results
      refine Yields.settle ?_
      rw [evaluate_none h, foldStep, view, h]
      rfl
  | some row =>
      have hchild : ∀ child ∈ row.operation.children,
          EntersAs store boundary services child (evaluate store boundary services child) :=
        fun child hmem =>
          have := (store.edges id row h child hmem).2
          entersAs_evaluate store boundary services child
      cases hs : row.success with
      | Zero =>
          rw [evaluate_unsettled h (by rw [hs]; exact fun t => SuccessShape.noConfusion)]
          exact .settled h fun base => by simp only [enter, hs, pure_bind]
      | Multiple types =>
          rw [evaluate_unsettled h (by rw [hs]; exact fun t => SuccessShape.noConfusion)]
          exact .settled h fun base => by simp only [enter, hs, pure_bind]
      | One typeId =>
          cases hp : row.operation.plain with
          | true =>
              rw [evaluate_plain h hs hp]
              rcases enter_plain hs hp with henter | ⟨hnone, hchecks, henter⟩
              · exact .parked h (fun _ base => .Complete id base)
                  (fun _ => complete store boundary services id row) henter
                  (fun _ => yields_complete h) hchild
              · rw [hnone, hchecks, List.mapM_nil, pure_bind, pure_bind]
                exact .settled h henter
          | false =>
              rw [evaluate_special h hs hp]
              cases ho : row.operation with
              | Constant value =>
                  exact .settled h fun base => by simp only [enter, hs, ho]
              | Reference path =>
                  exact .settled h fun base => by simp only [enter, hs, ho]
              | HandleFallible value =>
                  refine .handled h (fun base => by simp only [enter, hs, ho]) (hchild value ?_)
                  rw [ho]
                  exact List.mem_cons_self
              | NumericBinary left right facts =>
                  have hpower : facts.isDecPower = true := by
                    simpa [ExpressionOperation.plain, ho] using hp
                  refine .decPower h (fun base => by simp only [enter, hs, ho, hpower, if_true])
                    (hchild left ?_) (hchild right ?_) <;> rw [ho]
                  · exact List.mem_cons_self
                  · exact List.mem_cons_of_mem _ List.mem_cons_self
              | Cast source facts =>
                  refine .cast h (fun base => by simp only [enter, hs, ho])
                    (by simp only [castOperands, ho]) (hchild source ?_)
                  rw [ho]
                  exact List.mem_cons_self
              | ValueBlock block =>
                  cases block with
                  | Catch handledValue handler expressions =>
                      have hhandler : handler = true := by
                        simpa [ExpressionOperation.plain, ho] using hp
                      subst hhandler
                      have hrunEnter : ∀ base, enter store boundary services base id row =
                          enterCast store boundary services base id row := fun base => by
                        simp only [enter, hs, ho]
                      have hhandled := store.edges id row h handledValue (by
                        rw [ho]
                        exact List.mem_cons_self)
                      obtain ⟨handled, hrow⟩ := Option.isSome_iff_exists.1 hhandled.1
                      simp only [hrow]
                      cases hcast : handled.operation with
                      | Cast source facts =>
                          have hsource := store.edges handledValue handled hrow source (by
                            rw [hcast]
                            exact List.mem_cons_self)
                          have := Nat.lt_trans hsource.2 hhandled.2
                          refine .cast h hrunEnter ?_
                            (entersAs_evaluate store boundary services source)
                          simp only [castOperands, ho, view, hrow, pure_bind, hcast]
                      | _ =>
                          refine .settled h fun base => ?_
                          rw [hrunEnter, enterCast, castOperands]
                          simp only [ho, view, hrow, pure_bind, hcast]
                  | If expressions => simp [ExpressionOperation.plain, ho] at hp
                  | LexicalScope expressions => simp [ExpressionOperation.plain, ho] at hp
                  | Match expressions => simp [ExpressionOperation.plain, ho] at hp
              | _ => simp [ExpressionOperation.plain, ho] at hp
termination_by store.rank id

/-- The walk ends, with what the recursion returns for the root. -/
theorem foldWalk_eq (store : ExpressionStore Policy) (boundary : FoldBoundary)
    (services : FoldServices Ctx ε Leaf Policy TextOp) (root : ExprId) (s : FoldState Ctx) :
    ∃ needed, ∀ fuel, needed ≤ fuel →
      foldWalk store boundary services fuel root s =
        some ((evaluate store boundary services root).runFrom s) := by
  obtain ⟨fuel, hrun⟩ := (entersAs_evaluate store boundary services root []).runs s
  have hroot : rootResult ((evaluate store boundary services root >>= fun value =>
      pure ([] ++ [value])).runFrom s) = (evaluate store boundary services root).runFrom s := by
    rw [Staged.runFrom_bind]
    rcases (evaluate store boundary services root).runFrom s with ⟨e | value, s'⟩ <;> rfl
  refine ⟨fuel, fun more hle => ?_⟩
  have hmore := runSteps_mono (Nat.le_trans hle (Nat.le_add_right more 1)) hrun
  rw [runSteps] at hmore
  have hstep : (foldStep store boundary services (.Enter root) []).runFrom s =
      ((view store root >>= fun row => enter store boundary services 0 root row) >>= fun entry =>
        match entry with
        | .Settled value => (pure ([], [value]) : FoldM Ctx ε _)
        | .Deferred pushed => pure (pushed, [])).runFrom s := by
    rw [foldStep, bind_assoc]
    rfl
  rw [hstep] at hmore
  rw [foldWalk]
  rcases hentry : (view store root >>= fun row =>
    enter store boundary services 0 root row).runFrom s with ⟨e | entry, s'⟩
  · rw [Staged.bind_error hentry] at hmore
    have hout := Option.some.inj hmore
    rw [← hroot, ← hout]
    rfl
  · rw [Staged.bind_ok hentry] at hmore
    cases entry with
    | Settled value =>
        simp only [Staged.runFrom_pure, List.append_nil, runSteps.eq_def] at hmore
        rw [← hroot, ← Option.some.inj hmore]
        rfl
    | Deferred pushed =>
        simp only [Staged.runFrom_pure, List.append_nil] at hmore
        show Option.map rootResult (runSteps _ more pushed [] s') = _
        rw [hmore, Option.map_some, hroot]

end Recursion

end Moth.ConstEval
