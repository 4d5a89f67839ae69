import Moth.Ast.NumericJoinRuns

/-!
# The check before a join

The check reads the classes only, so it answers whether one of the joins of a
pair is refused in the classes as they stand. It stops at the keys of a map
that are refused, which a reading walk does not show.
-/

namespace Moth.Ast.NumericConstruction

open Moth.Lib Moth.Datatypes Moth.Source

def ClassAction.refusedIn (v : ClassView) : ClassAction → Bool
  | .join left right => v.refuses left right
  | .note _ _ => false

def ClassView.anyRefused (v : ClassView) (actions : List ClassAction) : Bool :=
  actions.any (ClassAction.refusedIn v)

theorem ClassView.anyRefused_append (v : ClassView) (first rest : List ClassAction) :
    v.anyRefused (first ++ rest) = (v.anyRefused first || v.anyRefused rest) :=
  List.any_append

theorem ClassView.anyRefused_witnesses (v : ClassView) (environment : TypeEnvironment)
    (span : Option SourceSpan) (order : Nat) (leaves : List (Nat × TypeId)) :
    v.anyRefused (leaves.flatMap (witnessActions environment span order)) = false := by
  apply List.any_eq_false.mpr
  intro action haction
  obtain ⟨leaf, _, hleaf⟩ := List.mem_flatMap.mp haction
  cases action with
  | join left right => exact absurd hleaf join_notMem_witnessActions
  | note class_ witness => exact Bool.false_ne_true

/-- The entries say whether a join of their actions is refused. -/
def ChecksHold (types : TypeStore) (s₀ : NumericConstructionState) (v : ClassView)
    (memo : ShapePairMemo) : Prop :=
  ∀ key result, memo.get key = some result → result = v.anyRefused (actionsOf types s₀ key)

/-- A walk that answers whether a join of the actions is refused, and leaves the classes. -/
def Checks (types : TypeStore) (s₀ : NumericConstructionState)
    (walk : NumericConstructionState → ShapePairMemo → PairAnswer)
    (actions : List ClassAction) : Prop :=
  ∀ v self memo, Shows s₀ v self → ChecksHold types s₀ v memo →
    ∃ self' memo', walk self memo = some (v.anyRefused actions, self', memo') ∧
      Shows s₀ v self' ∧ ChecksHold types s₀ v memo'

section Check

variable {types : TypeStore} {s₀ : NumericConstructionState}
  {walk : NumericConstructionState → ShapePairMemo → PairAnswer} {actions : List ClassAction}
  {recurse : ShapePairKey → NumericConstructionState → ShapePairMemo → PairAnswer}

theorem ChecksHold.startDescent {v : ClassView} {memo : ShapePairMemo}
    (h : ChecksHold types s₀ v memo) : ChecksHold types s₀ v memo.startDescent := by
  intro key result hget
  rw [ShapePairMemo.get_startDescent] at hget
  exact h key result hget

theorem Checks.memoised {key : ShapePairKey} (h : Checks types s₀ walk (actionsOf types s₀ key)) :
    Checks types s₀ (memoised key walk) (actionsOf types s₀ key) := by
  intro v self memo hshows hmemo
  cases hget : memo.get key with
  | some result =>
      refine ⟨self, memo, ?_, hshows, hmemo⟩
      rw [NumericConstruction.memoised, hget, ← hmemo key result hget]
  | none =>
      obtain ⟨self', memo', hwalk, hshows', hmemo'⟩ := h v self memo hshows hmemo
      rw [NumericConstruction.memoised, hget]
      simp only []
      rw [hwalk]
      simp only []
      split
      · refine ⟨self', _, rfl, hshows', ?_⟩
        intro other answer hother
        rw [ShapePairMemo.get_insert] at hother
        split at hother
        · next heq =>
            cases hother
            rw [heq]
        · exact hmemo' other answer hother
      · exact ⟨self', memo', rfl, hshows', hmemo'⟩

theorem Checks.nothing : Checks types s₀ (fun self memo => some (false, self, memo)) [] :=
  fun _ self memo hshows hmemo => ⟨self, memo, rfl, hshows, hmemo⟩

theorem Checks.leaves (leaves : List (Nat × TypeId)) (span : Option SourceSpan) (order : Nat) :
    Checks types s₀ (fun self memo => some (false, self, memo))
      (leaves.flatMap (witnessActions types.numericTypes span order)) := by
  intro v self memo hshows hmemo
  rw [ClassView.anyRefused_witnesses]
  exact ⟨self, memo, rfl, hshows, hmemo⟩

theorem Checks.congr {walk' : NumericConstructionState → ShapePairMemo → PairAnswer}
    (h : Checks types s₀ walk actions)
    (heq : ∀ v self memo, Shows s₀ v self → walk' self memo = walk self memo) :
    Checks types s₀ walk' actions := by
  intro v self memo hshows hmemo
  rw [heq v self memo hshows]
  exact h v self memo hshows hmemo

theorem Checks.alone {key : ShapePairKey}
    (h : Checks types s₀ (recurse key) (actionsOf types s₀ key)) :
    Checks types s₀ (recurse key) ([key].flatMap (actionsOf types s₀)) := by
  rw [List.flatMap_singleton]
  exact h

theorem refusedEach_spec (keys : List ShapePairKey)
    (h : ∀ key ∈ keys, Checks types s₀ (recurse key) (actionsOf types s₀ key)) (refused : Bool)
    {v : ClassView} {self : NumericConstructionState} {memo : ShapePairMemo}
    (hshows : Shows s₀ v self) (hmemo : ChecksHold types s₀ v memo) :
    ∃ self' memo', refusedEach recurse keys refused self memo
        = some (refused || v.anyRefused (keys.flatMap (actionsOf types s₀)), self', memo') ∧
      Shows s₀ v self' ∧ ChecksHold types s₀ v memo' := by
  induction keys generalizing refused self memo with
  | nil =>
      refine ⟨self, memo, ?_, hshows, hmemo⟩
      rw [refusedEach]
      show _ = some (refused || false, self, memo)
      rw [Bool.or_false]
  | cons key rest ih =>
      obtain ⟨self₁, memo₁, hwalk, hshows₁, hmemo₁⟩ :=
        h key List.mem_cons_self v self memo.startDescent hshows hmemo.startDescent
      obtain ⟨self₂, memo₂, hrest, hshows₂, hmemo₂⟩ :=
        ih (fun other hother => h other (List.mem_cons_of_mem key hother))
          (refused || v.anyRefused (actionsOf types s₀ key)) hshows₁ hmemo₁
      rw [List.flatMap_cons, ClassView.anyRefused_append]
      refine ⟨self₂, memo₂, ?_, hshows₂, hmemo₂⟩
      rw [refusedEach, hwalk]
      simp only [Option.bind_eq_bind, Option.bind_some]
      rw [hrest, Bool.or_assoc]

theorem Checks.each {keys : List ShapePairKey}
    (h : ∀ key ∈ keys, Checks types s₀ (recurse key) (actionsOf types s₀ key)) :
    Checks types s₀ (refusedEach recurse keys false) (keys.flatMap (actionsOf types s₀)) := by
  intro v self memo hshows hmemo
  obtain ⟨self', memo', heach, hrest⟩ := refusedEach_spec keys h false hshows hmemo
  rw [Bool.false_or] at heach
  exact ⟨self', memo', heach, hrest⟩

theorem Checks.either {first second : ShapePairKey}
    (h : Checks types s₀ (recurse first) (actionsOf types s₀ first))
    (h' : Checks types s₀ (recurse second) (actionsOf types s₀ second)) :
    Checks types s₀ (refusedEither recurse first second)
      ([first, second].flatMap (actionsOf types s₀)) := by
  intro v self memo hshows hmemo
  obtain ⟨self₁, memo₁, hwalk, hshows₁, hmemo₁⟩ :=
    h v self memo.startDescent hshows hmemo.startDescent
  rw [List.flatMap_cons, List.flatMap_singleton, ClassView.anyRefused_append, refusedEither, hwalk]
  simp only [Option.bind_eq_bind, Option.bind_some]
  cases v.anyRefused (actionsOf types s₀ first) with
  | true => exact ⟨self₁, memo₁, rfl, hshows₁, hmemo₁⟩
  | false =>
      obtain ⟨self₂, memo₂, hwalk', hshows₂, hmemo₂⟩ :=
        h' v self₁ memo₁ hshows₁ hmemo₁
      exact ⟨self₂, memo₂, hwalk', hshows₂, hmemo₂⟩

theorem Checks.envelopes {leftDeclared rightDeclared : TypeId}
    {left right : KnownShapeBindingRange}
    (h : Checks types s₀ (recurse (.projection leftDeclared left rightDeclared right))
      (actionsOf types s₀ (.projection leftDeclared left rightDeclared right)))
    (h' : Checks types s₀ (recurse (.projection rightDeclared right leftDeclared left))
      (actionsOf types s₀ (.projection rightDeclared right leftDeclared left))) :
    Checks types s₀ (declaredEnvelopesRefused recurse leftDeclared left rightDeclared right)
      ([.projection leftDeclared left rightDeclared right,
        .projection rightDeclared right leftDeclared left].flatMap (actionsOf types s₀)) := by
  intro v self memo hshows hmemo
  obtain ⟨self₁, memo₁, hwalk, hshows₁, hmemo₁⟩ := h v self memo hshows hmemo
  obtain ⟨self₂, memo₂, hwalk', hshows₂, hmemo₂⟩ := h' v self₁ memo₁ hshows₁ hmemo₁
  rw [List.flatMap_cons, List.flatMap_singleton, ClassView.anyRefused_append]
  refine ⟨self₂, memo₂, ?_, hshows₂, hmemo₂⟩
  rw [declaredEnvelopesRefused, hwalk]
  simp only [Option.bind_eq_bind, Option.bind_some]
  rw [hwalk']
  rfl

theorem Checks.classes {left right : Nat} (hleft : left < s₀.classes.length)
    (hright : right < s₀.classes.length) :
    Checks types s₀ (fun self memo => refusedNodes recurse self memo (.Numeric left)
      (.Numeric right)) [.join left right] := by
  intro v self memo hshows hmemo
  obtain ⟨self', hrefused, hshows'⟩ := hshows.numericClassesJoinRefused hleft hright
  refine ⟨self', memo, ?_, hshows', hmemo⟩
  show ((self.numericClassesJoinRefused left right).bind fun answer =>
    some (answer.1, answer.2, memo)) = some (v.refuses left right || false, self', memo)
  rw [hrefused, Bool.or_false]
  rfl

end Check

/-! ## The bodies of the check -/

/-- One level of the check, without a memo of its own. -/
def refusedBody (recurse : ShapePairKey → NumericConstructionState → ShapePairMemo → PairAnswer)
    (types : TypeStore) : ShapePairKey → NumericConstructionState → ShapePairMemo → PairAnswer
  | .pair left right => shapesJoinRefusedWalk recurse left right
  | .pattern pattern peer shape => patternShapesRefusedWalk recurse types pattern peer shape
  | .projection fromDeclared from_ toDeclared to_ =>
      projectedEdgesRefusedWalk recurse types fromDeclared from_ toDeclared to_

section Bodies

variable {types : TypeStore} {s₀ : NumericConstructionState}
  {recurse : ShapePairKey → NumericConstructionState → ShapePairMemo → PairAnswer} {depth : Nat}

/-- The parts of a key are checked where keys of less depth are. -/
def ChecksWithin (types : TypeStore) (s₀ : NumericConstructionState)
    (recurse : ShapePairKey → NumericConstructionState → ShapePairMemo → PairAnswer)
    (depth : Nat) : Prop :=
  ∀ key, Within s₀ depth key → Checks types s₀ (recurse key) (actionsOf types s₀ key)

theorem ChecksWithin.bindings (h : ChecksWithin types s₀ recurse depth)
    {left right : KnownShapeBindingRange}
    (hsplits : Splits s₀ depth (bindingsStep s₀ left right)) :
    Checks types s₀ (declaredBindingsRefused recurse left right)
      (stepActions types.numericTypes (actionsOf types s₀) (bindingsStep s₀ left right)) := by
  obtain ⟨made, hmade, _, hparts⟩ := hsplits
  obtain ⟨edges, hedges, hmap⟩ := Option.map_eq_some_iff.mp hmade
  rw [hmade, ← hmap]
  refine (Checks.each fun key hkey => h key (hparts _ hmap.symm key hkey)).congr
    fun v self memo hshows => ?_
  rw [declaredBindingsRefused, hshows.bindings, hedges]

theorem Checks.concrete (types : TypeStore) (h : ShapeTables s₀) {concrete other : Nat}
    (hconcrete : concrete < s₀.shapes.length) (hother : other < s₀.shapes.length)
    (receiver : TypeId) (span : Option SourceSpan) :
    Checks types s₀ (fun self memo => some (false, self, memo))
      (stepActions types.numericTypes (actionsOf types s₀)
        (witnessStep types s₀ concrete other receiver span)) := by
  obtain ⟨order, horder⟩ := h.order hconcrete
  obtain ⟨leaves, hleaves⟩ := h.witnessLeaves types hother receiver
  rw [witnessStep, horder, Option.bind_eq_bind, Option.bind_some, hleaves]
  exact Checks.leaves leaves span order

theorem ChecksWithin.pair (htables : ShapeTables s₀) (h : ChecksWithin types s₀ recurse depth)
    {left right : Nat} (hkey : Within s₀ (depth + 1) (.pair left right)) :
    Checks types s₀ (shapesJoinRefusedWalk recurse left right)
      (stepActions types.numericTypes (actionsOf types s₀) (pairStep types s₀ left right)) := by
  obtain ⟨made, hmade, hclasses, hparts⟩ := htables.pairStep_splits types hkey
  obtain ⟨hleft, hright, hdepth⟩ := hkey
  have hleftNode : s₀.shapes[left]? = some s₀.shapes[left] := List.getElem?_eq_getElem hleft
  have hrightNode : s₀.shapes[right]? = some s₀.shapes[right] := List.getElem?_eq_getElem hright
  generalize s₀.shapes[left] = leftNode at hleftNode
  generalize s₀.shapes[right] = rightNode at hrightNode
  rw [pairStep, hleftNode, hrightNode] at hmade ⊢
  have hbody : ∀ v self memo, Shows s₀ v self →
      shapesJoinRefusedWalk recurse left right self memo
        = refusedNodes recurse self memo leftNode rightNode := by
    intro v self memo hshows
    rw [shapesJoinRefusedWalk, hshows.shapes, hleftNode, hrightNode]
  refine Checks.congr ?_ hbody
  simp only [] at hmade ⊢
  have hconcrete := Checks.concrete types htables hleft hright
  have hconcrete' := Checks.concrete types htables hright hleft
  have hlast : ∀ {first second : ShapePairKey},
      second ∈ [first, second] := List.mem_cons_of_mem _ List.mem_cons_self
  cases leftNode with
  | Concrete typeId span =>
      cases rightNode with
      | _ => exact hconcrete typeId span
  | Numeric leftClass =>
      cases rightNode with
      | Concrete typeId span => exact hconcrete' typeId span
      | Numeric rightClass =>
          cases hmade
          obtain ⟨hl, hr⟩ := hclasses leftClass rightClass rfl
          exact Checks.classes hl hr
      | _ => exact Checks.nothing
  | Collection element fixedCapacity =>
      cases rightNode with
      | Concrete typeId span => exact hconcrete' typeId span
      | Collection element' fixedCapacity' =>
          cases hmade
          exact Checks.each fun key hkey => h key (hparts _ rfl key hkey)
      | _ => exact Checks.nothing
  | Map key value =>
      cases rightNode with
      | Concrete typeId span => exact hconcrete' typeId span
      | Map key' value' =>
          cases hmade
          exact Checks.either (h _ (hparts _ rfl _ List.mem_cons_self)) (h _ (hparts _ rfl _ hlast))
      | _ => exact Checks.nothing
  | Optional inner =>
      cases rightNode with
      | Concrete typeId span => exact hconcrete' typeId span
      | Optional inner' =>
          cases hmade
          exact Checks.each fun key hkey => h key (hparts _ rfl key hkey)
      | _ => exact Checks.nothing
  | DeclaredSubstitution declared start end_ =>
      cases rightNode with
      | Concrete typeId span => exact hconcrete' typeId span
      | DeclaredSubstitution declared' start' end_' =>
          simp only [nodesStep, refusedNodes] at hmade ⊢
          by_cases hsame : declared = declared'
          · simp only [if_pos hsame] at hmade ⊢
            exact h.bindings ⟨made, hmade, hclasses, hparts⟩
          · simp only [if_neg hsame] at hmade ⊢
            cases hmade
            exact Checks.envelopes (h _ (hparts _ rfl _ List.mem_cons_self))
              (h _ (hparts _ rfl _ hlast))
      | _ => exact Checks.nothing

theorem ChecksWithin.pattern (htables : ShapeTables s₀)
    (h : ChecksWithin types s₀ recurse depth) {pattern : TypeId} {peer : KnownShapeBindingRange}
    {shape : Nat} (hkey : Within s₀ (depth + 1) (.pattern pattern peer shape)) :
    Checks types s₀ (patternShapesRefusedWalk recurse types pattern peer shape)
      (stepActions types.numericTypes (actionsOf types s₀)
        (patternStep types s₀ pattern peer shape)) := by
  obtain ⟨made, hmade, hclasses, hparts⟩ := htables.patternStep_splits types hkey
  obtain ⟨hshape, bound, hbound, hpeer, hdepth⟩ := hkey
  have hnode : s₀.shapes[shape]? = some s₀.shapes[shape] := List.getElem?_eq_getElem hshape
  generalize s₀.shapes[shape] = node at hnode
  rw [patternStep] at hmade ⊢
  cases hparameter : types.parameter pattern with
  | some parameter =>
      rw [hparameter] at hmade
      simp only [] at hmade ⊢
      obtain ⟨found, hfound, _⟩ := hpeer.declaredBindingShape parameter
      rw [hfound] at hmade ⊢
      cases hmade
      cases found with
      | none =>
          refine Checks.nothing.congr fun v self memo hshows => ?_
          rw [patternShapesRefusedWalk, hparameter]
          simp only []
          rw [hshows.bindingShape, hfound]
      | some peerShape =>
          refine (Checks.alone (h (.pair shape peerShape)
            (hparts _ rfl _ (List.mem_singleton.mpr rfl)))).congr fun v self memo hshows => ?_
          rw [patternShapesRefusedWalk, hparameter]
          simp only []
          rw [hshows.bindingShape, hfound]
  | none =>
      rw [hparameter] at hmade
      simp only [] at hmade ⊢
      by_cases hconcrete : types.containsGenericParameter pattern = false
      · rw [if_pos hconcrete]
        refine (Checks.concrete types htables hshape hshape pattern none).congr
          fun v self memo hshows => ?_
        rw [patternShapesRefusedWalk, hparameter]
        simp only []
        rw [if_pos hconcrete]
      · rw [if_neg hconcrete, hnode] at hmade ⊢
        have hbody : ∀ v self memo, Shows s₀ v self →
            patternShapesRefusedWalk recurse types pattern peer shape self memo
              = refusedPatternNode recurse types pattern peer self memo node := by
          intro v self memo hshows
          rw [patternShapesRefusedWalk, hparameter]
          simp only []
          rw [if_neg hconcrete, hshows.shapes, hnode]
        refine Checks.congr ?_ hbody
        simp only [] at hmade ⊢
        cases node with
        | Concrete typeId span =>
            obtain ⟨order, horder⟩ := htables.order hshape
            obtain ⟨leaves, hleaves⟩ :=
              htables.parameterLeaves types pattern (hpeer.mono hbound) typeId
            rw [patternNodeStep, horder, Option.bind_eq_bind, Option.bind_some, hleaves]
            exact Checks.leaves leaves span order
        | Numeric class_ => exact Checks.nothing
        | Collection element fixedCapacity =>
            simp only [patternNodeStep, refusedPatternNode] at hmade ⊢
            cases hcollection : types.collectionShape pattern with
            | none => exact Checks.nothing
            | some collection =>
                rw [hcollection] at hmade
                simp only [] at hmade ⊢
                by_cases hcapacity : collection.fixedCapacity = fixedCapacity
                · simp only [if_pos hcapacity] at hmade ⊢
                  cases hmade
                  exact Checks.each fun key hkey => h key (hparts _ rfl key hkey)
                · simp only [if_neg hcapacity]
                  exact Checks.nothing
        | Map key value =>
            simp only [patternNodeStep, refusedPatternNode] at hmade ⊢
            cases hmap : types.mapShape pattern with
            | none => exact Checks.nothing
            | some map =>
                rw [hmap] at hmade
                cases hmade
                exact Checks.either (h _ (hparts _ rfl _ List.mem_cons_self))
                  (h _ (hparts _ rfl _ (List.mem_cons_of_mem _ List.mem_cons_self)))
        | Optional inner =>
            simp only [patternNodeStep, refusedPatternNode] at hmade ⊢
            cases hinner : types.optionInnerType pattern with
            | none => exact Checks.nothing
            | some innerPattern =>
                rw [hinner] at hmade
                cases hmade
                exact Checks.each fun key hkey => h key (hparts _ rfl key hkey)
        | DeclaredSubstitution declared start end_ =>
            cases hmade
            exact Checks.alone (h _ (hparts _ rfl _ (List.mem_singleton.mpr rfl)))

theorem ChecksWithin.projection (htables : ShapeTables s₀)
    (h : ChecksWithin types s₀ recurse depth) {fromDeclared toDeclared : TypeId}
    {from_ to_ : KnownShapeBindingRange}
    (hkey : Within s₀ (depth + 1) (.projection fromDeclared from_ toDeclared to_)) :
    Checks types s₀ (projectedEdgesRefusedWalk recurse types fromDeclared from_ toDeclared to_)
      (stepActions types.numericTypes (actionsOf types s₀)
        (projectionStep types s₀ fromDeclared from_ toDeclared to_)) := by
  obtain ⟨made, hmade, hclasses, hparts⟩ := htables.joinStep_splits types hkey
  rw [joinStep, projectionStep] at hmade
  rw [projectionStep]
  by_cases hsame : fromDeclared = toDeclared
  · rw [if_pos hsame] at hmade ⊢
    refine (h.bindings ⟨made, hmade, hclasses, hparts⟩).congr fun v self memo hshows => ?_
    rw [projectedEdgesRefusedWalk, if_pos hsame]
  · rw [if_neg hsame] at hmade ⊢
    cases hprojected : declaredProjection types fromDeclared toDeclared with
    | none =>
        refine Checks.nothing.congr fun v self memo hshows => ?_
        rw [projectedEdgesRefusedWalk, if_neg hsame, hprojected]
    | some projected =>
        rw [hprojected] at hmade
        simp only [] at hmade ⊢
        obtain ⟨keys, hkeys, hmap⟩ := Option.map_eq_some_iff.mp hmade
        rw [hkeys]
        refine (Checks.each fun key hkey => h key (hparts _ hmap.symm key hkey)).congr
          fun v self memo hshows => ?_
        rw [projectedEdgesRefusedWalk, if_neg hsame, hprojected]
        simp only []
        rw [hshows.bindings, hkeys]

theorem ChecksWithin.body (htables : ShapeTables s₀) (h : ChecksWithin types s₀ recurse depth)
    {key : ShapePairKey} (hkey : Within s₀ (depth + 1) key) (hdepth : depth + 1 ≤ s₀.walkFuel) :
    Checks types s₀ (refusedBody recurse types key) (actionsOf types s₀ key) := by
  rw [actionsOf_eq htables (hkey.mono hdepth)]
  cases key with
  | pair left right => exact h.pair htables hkey
  | pattern pattern peer shape => exact h.pattern htables hkey
  | projection fromDeclared from_ toDeclared to_ => exact h.projection htables hkey

end Bodies

/-- The check without a memo. -/
def refusedPlainWalk (types : TypeStore) :
    Nat → ShapePairKey → NumericConstructionState → ShapePairMemo → PairAnswer
  | 0, _, _, _ => none
  | fuel + 1, key, self, memo => refusedBody (refusedPlainWalk types fuel) types key self memo

def refusedPlainly (types : TypeStore) (left right : Nat) (self : NumericConstructionState) :
    Option (Bool × NumericConstructionState) :=
  (refusedPlainWalk types self.walkFuel (.pair left right) self .new).map fun answer =>
    (answer.1, answer.2.1)

section Walks

variable {types : TypeStore} {s₀ : NumericConstructionState}

theorem refusedPlainWalk_checks (htables : ShapeTables s₀) (fuel : Nat)
    (hfuel : fuel ≤ s₀.walkFuel) : ChecksWithin types s₀ (refusedPlainWalk types fuel) fuel := by
  induction fuel with
  | zero => exact fun key hkey => absurd hkey (not_within_zero key)
  | succ fuel ih => exact fun key hkey => (ih (by omega)).body htables hkey hfuel

theorem refusedWalk_checks (htables : ShapeTables s₀) (fuel : Nat) (hfuel : fuel ≤ s₀.walkFuel) :
    ChecksWithin types s₀ (refusedWalk types fuel) fuel := by
  induction fuel with
  | zero => exact fun key hkey => absurd hkey (not_within_zero key)
  | succ fuel ih =>
      intro key hkey
      have hbody := (ih (by omega)).body htables hkey hfuel
      cases key with
      | pair left right =>
          obtain ⟨hl, hr, _⟩ := hkey
          have hleft : s₀.shapes[left]? = some s₀.shapes[left] := List.getElem?_eq_getElem hl
          have hright : s₀.shapes[right]? = some s₀.shapes[right] := List.getElem?_eq_getElem hr
          by_cases hboth : bothComposite s₀.shapes[left] s₀.shapes[right]
          · refine hbody.memoised.congr fun v self memo hshows => ?_
            rw [refusedWalk, shapesJoinRefusedInner, hshows.shapes, hleft, hright]
            simp only []
            rw [if_pos hboth]
            rfl
          · refine hbody.congr fun v self memo hshows => ?_
            rw [refusedWalk, shapesJoinRefusedInner, hshows.shapes, hleft, hright]
            simp only []
            rw [if_neg hboth]
            rfl
      | pattern pattern peer shape => exact hbody.memoised
      | projection fromDeclared from_ toDeclared to_ => exact hbody.memoised

end Walks

end Moth.Ast.NumericConstruction
