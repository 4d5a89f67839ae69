import Moth.Ast.NumericJoinSteps

/-!
# Joining two shapes runs its actions

The walk that joins two shapes answers what the actions of the pair answer and
leaves the classes that they leave, with a memo or without one. An entry of the
memo says what its actions answer in any later state, and a merge, after which
that may fail, empties the memo: the epoch counts the merges, so an entry is
made of a walk only where the walk merged nothing.

The check before a join reads the classes only, and answers whether one of the
joins is refused where it stands.
-/

namespace Moth.Ast.NumericConstruction

open Moth.Lib Moth.Datatypes Moth.Source

/-! ## Tables behind a view -/

section Tables

variable {s₀ self : NumericConstructionState} {v : ClassView}

theorem Shows.shapes (h : Shows s₀ v self) : self.shapes = s₀.shapes :=
  (congrArg NumericConstructionState.shapes h.tables).trans rfl

theorem Shows.bindings (h : Shows s₀ v self) : self.declaredBindings = s₀.declaredBindings :=
  (congrArg NumericConstructionState.declaredBindings h.tables).trans rfl

theorem Shows.orders (h : Shows s₀ v self) : self.shapeAuthoredOrder = s₀.shapeAuthoredOrder :=
  (congrArg NumericConstructionState.shapeAuthoredOrder h.tables).trans rfl

theorem Shows.bindingShape (h : Shows s₀ v self) (range : KnownShapeBindingRange)
    (parameter : GenericParameterId) :
    self.declaredBindingShape range parameter = s₀.declaredBindingShape range parameter := by
  rw [NumericConstructionState.declaredBindingShape, h.bindings]
  rfl

end Tables

theorem ClassView.run_append (environment : TypeEnvironment) (first rest : List ClassAction)
    (v : ClassView) :
    v.run environment (first ++ rest) =
      let before := v.run environment first
      let after := before.2.2.run environment rest
      (before.1 && after.1, before.2.1 + after.2.1, after.2.2) := by
  induction first generalizing v with
  | nil =>
      show _ = (true && _, 0 + _, _)
      rw [Bool.true_and, Nat.zero_add]
      rfl
  | cons action first ih =>
      rw [List.cons_append, run, run, ih]
      show (_ && (_ && _), _ + (_ + _), _) = (_ && _ && _, _ + _ + _, _)
      rw [Bool.and_assoc, Nat.add_assoc]

/-- Noting receivers answers true and merges nothing. -/
theorem ClassView.run_witnesses (environment : TypeEnvironment) (span : Option SourceSpan)
    (order : Nat) (leaves : List (Nat × TypeId)) (v : ClassView) :
    ∃ v', v.run environment (leaves.flatMap (witnessActions environment span order))
      = (true, 0, v') := by
  induction leaves generalizing v with
  | nil => exact ⟨v, rfl⟩
  | cons leaf rest ih =>
      have hleaf : ∃ v₁, v.run environment (witnessActions environment span order leaf)
          = (true, 0, v₁) := by
        rw [witnessActions]
        cases numericWitnessType leaf.2 environment with
        | none => exact ⟨v, rfl⟩
        | some typeId => exact ⟨_, rfl⟩
      obtain ⟨v₁, hv₁⟩ := hleaf
      obtain ⟨v₂, hv₂⟩ := ih v₁
      refine ⟨v₂, ?_⟩
      rw [List.flatMap_cons, ClassView.run_append, hv₁]
      simp only []
      rw [hv₂]
      rfl

/-! ## The memo -/

namespace ShapePairMemo

variable (memo : ShapePairMemo)

theorem lookup_cons {α : Type} [BEq α] [LawfulBEq α] [DecidableEq α] (key other : α) (result : Bool)
    (rows : List (α × Bool)) :
    ((key, result) :: rows).lookup other
      = if other = key then some result else rows.lookup other := by
  rw [List.lookup_cons]
  by_cases h : other = key
  · rw [if_pos h, beq_iff_eq.mpr h]
  · rw [if_neg h, beq_false_of_ne h]

theorem get_insert (result : Bool) (key other : ShapePairKey) :
    (memo.insert result key).get other = if other = key then some result else memo.get other := by
  cases key with
  | pair left right =>
      cases other with
      | pair left' right' =>
          refine (lookup_cons (left, right) (left', right') result memo.pairs).trans ?_
          simp only [ShapePairKey.pair.injEq, Prod.mk.injEq]
          rfl
      | pattern => rfl
      | projection => rfl
  | pattern pattern peer shape =>
      cases other with
      | pattern pattern' peer' shape' =>
          refine (lookup_cons (pattern, peer, shape) (pattern', peer', shape') result
            memo.patterns).trans ?_
          simp only [ShapePairKey.pattern.injEq, Prod.mk.injEq]
          rfl
      | pair => rfl
      | projection => rfl
  | projection fromDeclared from_ toDeclared to_ =>
      cases other with
      | projection fromDeclared' from' toDeclared' to' =>
          refine (lookup_cons (fromDeclared, from_, toDeclared, to_)
            (fromDeclared', from', toDeclared', to') result memo.projections).trans ?_
          simp only [ShapePairKey.projection.injEq, Prod.mk.injEq]
          rfl
      | pair => rfl
      | pattern => rfl

theorem epoch_insert (result : Bool) (key : ShapePairKey) :
    (memo.insert result key).epoch = memo.epoch := by
  cases key with
  | _ => rfl

theorem get_startDescent (key : ShapePairKey) : memo.startDescent.get key = memo.get key := by
  cases key with
  | _ => rfl

theorem get_invalidate (key : ShapePairKey) : memo.invalidate.get key = none := by
  cases key with
  | _ => rfl

theorem get_new (key : ShapePairKey) : new.get key = none := by
  cases key with
  | _ => rfl

end ShapePairMemo

/-- The entries say what their actions answer from these classes on. -/
def MemoHolds (types : TypeStore) (s₀ : NumericConstructionState) (v : ClassView)
    (memo : ShapePairMemo) : Prop :=
  ∀ key result, memo.get key = some result →
    ClassView.Settled types.numericTypes v (actionsOf types s₀ key) result

/-- A walk that answers what the actions answer and leaves what they leave. -/
def Follows (types : TypeStore) (s₀ : NumericConstructionState)
    (walk : NumericConstructionState → ShapePairMemo → PairAnswer)
    (actions : List ClassAction) : Prop :=
  ∀ v self memo, Shows s₀ v self → MemoHolds types s₀ v memo →
    ∃ self' memo', walk self memo = some ((v.run types.numericTypes actions).1, self', memo') ∧
      Shows s₀ (v.run types.numericTypes actions).2.2 self' ∧
      MemoHolds types s₀ (v.run types.numericTypes actions).2.2 memo' ∧
      memo'.epoch = memo.epoch + (v.run types.numericTypes actions).2.1

section Union

variable {types : TypeStore} {s₀ : NumericConstructionState}
  {walk : NumericConstructionState → ShapePairMemo → PairAnswer} {actions : List ClassAction}

theorem MemoHolds.startDescent {v : ClassView} {memo : ShapePairMemo}
    (h : MemoHolds types s₀ v memo) : MemoHolds types s₀ v memo.startDescent := by
  intro key result hget
  rw [ShapePairMemo.get_startDescent] at hget
  exact h key result hget

theorem MemoHolds.later {v v' : ClassView} {memo : ShapePairMemo} (h : MemoHolds types s₀ v memo)
    (hlater : ClassView.Later v v') : MemoHolds types s₀ v' memo :=
  fun key result hget => (h key result hget).later hlater

/-- A walk may be answered from the memo, and remembered. -/
theorem Follows.memoised {key : ShapePairKey} (h : Follows types s₀ walk (actionsOf types s₀ key)) :
    Follows types s₀ (memoised key walk) (actionsOf types s₀ key) := by
  intro v self memo hshows hmemo
  cases hget : memo.get key with
  | some result =>
      have hsettled := hmemo key result hget v (ClassView.Later.refl v)
      rw [hsettled]
      refine ⟨self, memo, ?_, hshows, hmemo, rfl⟩
      rw [NumericConstruction.memoised, hget]
  | none =>
      obtain ⟨self', memo', hwalk, hshows', hmemo', hepoch⟩ := h v self memo hshows hmemo
      rw [NumericConstruction.memoised, hget]
      simp only []
      rw [hwalk]
      simp only []
      split
      · next hkeep =>
          -- No merge came between, so the answer holds from here on.
          obtain ⟨result, merges, v', hrun⟩ : ∃ result merges v',
              v.run types.numericTypes (actionsOf types s₀ key) = (result, merges, v') :=
            ⟨_, _, _, rfl⟩
          rw [hrun] at hshows' hmemo' hepoch ⊢
          simp only [] at hshows' hmemo' hepoch ⊢
          have hmerges : merges = 0 := by
            have := hkeep.2
            omega
          rw [hmerges] at hrun
          refine ⟨self', _, rfl, hshows', ?_, (ShapePairMemo.epoch_insert _ _ _).trans hepoch⟩
          intro other answer hother
          rw [ShapePairMemo.get_insert] at hother
          split at hother
          · next heq =>
              cases hother
              rw [heq]
              exact (ClassView.run_settled hrun).2
          · exact hmemo' other answer hother
      · exact ⟨self', memo', rfl, hshows', hmemo', hepoch⟩

theorem Follows.nothing : Follows types s₀ (fun self memo => some (true, self, memo)) [] :=
  fun _ self memo hshows hmemo => ⟨self, memo, rfl, hshows, hmemo, rfl⟩

variable {recurse : ShapePairKey → NumericConstructionState → ShapePairMemo → PairAnswer}

theorem unionEach_spec (keys : List ShapePairKey)
    (h : ∀ key ∈ keys, Follows types s₀ (recurse key) (actionsOf types s₀ key)) (joined : Bool)
    {v : ClassView} {self : NumericConstructionState} {memo : ShapePairMemo}
    (hshows : Shows s₀ v self) (hmemo : MemoHolds types s₀ v memo) :
    ∃ self' memo', unionEach recurse keys joined self memo
        = some (joined && (v.run types.numericTypes (keys.flatMap (actionsOf types s₀))).1,
          self', memo') ∧
      Shows s₀ (v.run types.numericTypes (keys.flatMap (actionsOf types s₀))).2.2 self' ∧
      MemoHolds types s₀ (v.run types.numericTypes (keys.flatMap (actionsOf types s₀))).2.2
        memo' ∧
      memo'.epoch
        = memo.epoch + (v.run types.numericTypes (keys.flatMap (actionsOf types s₀))).2.1 := by
  induction keys generalizing joined v self memo with
  | nil =>
      refine ⟨self, memo, ?_, hshows, hmemo, rfl⟩
      rw [unionEach]
      show _ = some (joined && true, self, memo)
      rw [Bool.and_true]
  | cons key rest ih =>
      obtain ⟨self₁, memo₁, hwalk, hshows₁, hmemo₁, hepoch₁⟩ :=
        h key List.mem_cons_self v self memo.startDescent hshows hmemo.startDescent
      obtain ⟨self₂, memo₂, hrest, hshows₂, hmemo₂, hepoch₂⟩ :=
        ih (fun other hother => h other (List.mem_cons_of_mem key hother))
          (joined && (v.run types.numericTypes (actionsOf types s₀ key)).1) hshows₁ hmemo₁
      rw [List.flatMap_cons, ClassView.run_append]
      refine ⟨self₂, memo₂, ?_, hshows₂, hmemo₂, ?_⟩
      · rw [unionEach, hwalk]
        simp only [Option.bind_eq_bind, Option.bind_some]
        rw [hrest, Bool.and_assoc]
      · rw [hepoch₂, hepoch₁]
        exact Nat.add_assoc _ _ _

theorem Follows.each {keys : List ShapePairKey}
    (h : ∀ key ∈ keys, Follows types s₀ (recurse key) (actionsOf types s₀ key)) :
    Follows types s₀ (unionEach recurse keys true) (keys.flatMap (actionsOf types s₀)) := by
  intro v self memo hshows hmemo
  obtain ⟨self', memo', heach, hrest⟩ := unionEach_spec keys h true hshows hmemo
  rw [Bool.true_and] at heach
  exact ⟨self', memo', heach, hrest⟩

/-- Two walks of which neither is a descent. -/
theorem Follows.envelopes {leftDeclared rightDeclared : TypeId}
    {left right : KnownShapeBindingRange}
    (h : Follows types s₀ (recurse (.projection leftDeclared left rightDeclared right))
      (actionsOf types s₀ (.projection leftDeclared left rightDeclared right)))
    (h' : Follows types s₀ (recurse (.projection rightDeclared right leftDeclared left))
      (actionsOf types s₀ (.projection rightDeclared right leftDeclared left))) :
    Follows types s₀ (unionDeclaredEnvelopes recurse leftDeclared left rightDeclared right)
      ([.projection leftDeclared left rightDeclared right,
        .projection rightDeclared right leftDeclared left].flatMap (actionsOf types s₀)) := by
  intro v self memo hshows hmemo
  obtain ⟨self₁, memo₁, hwalk, hshows₁, hmemo₁, hepoch₁⟩ := h v self memo hshows hmemo
  obtain ⟨self₂, memo₂, hwalk', hshows₂, hmemo₂, hepoch₂⟩ := h' _ self₁ memo₁ hshows₁ hmemo₁
  rw [List.flatMap_cons, List.flatMap_cons, List.flatMap_nil, List.append_nil,
    ClassView.run_append]
  refine ⟨self₂, memo₂, ?_, hshows₂, hmemo₂, ?_⟩
  · rw [unionDeclaredEnvelopes, hwalk]
    simp only [Option.bind_eq_bind, Option.bind_some]
    rw [hwalk']
    rfl
  · rw [hepoch₂, hepoch₁]
    exact Nat.add_assoc _ _ _

theorem Follows.classes {left right : Nat} (hleft : left < s₀.classes.length)
    (hright : right < s₀.classes.length) :
    Follows types s₀ (unionNumericClasses left right) [.join left right] := by
  intro v self memo hshows hmemo
  obtain ⟨self₁, hrefused, h₁⟩ := hshows.numericClassesJoinRefused hleft hright
  have hrun : v.run types.numericTypes [.join left right]
      = v.act types.numericTypes (.join left right) := by
    rw [ClassView.run, ClassView.run]
    simp only [Bool.and_true, Nat.add_zero]
  rw [hrun, ClassView.act, unionNumericClasses, hrefused]
  simp only [Option.bind_eq_bind, Option.bind_some]
  by_cases hrefuses : v.refuses left right
  · rw [if_pos hrefuses, if_pos hrefuses]
    exact ⟨self₁, memo, rfl, h₁, hmemo, rfl⟩
  · rw [if_neg hrefuses, if_neg hrefuses]
    obtain ⟨self₂, hshare, h₂⟩ := h₁.classesShareRoot hleft hright
    rw [hshare]
    simp only [Option.bind_some]
    by_cases hsame : v.root left = v.root right
    · rw [if_pos hsame, if_pos (beq_iff_eq.mpr hsame)]
      exact ⟨self₂, memo, rfl, h₂, hmemo, rfl⟩
    · have hne : ¬(v.root left == v.root right) = true := fun heq => hsame (beq_iff_eq.mp heq)
      obtain ⟨winner, self₃, hunion, h₃⟩ := h₂.unionClasses hleft hright hsame
      rw [if_neg hsame, if_neg hne, hunion]
      refine ⟨self₃, memo.invalidate, rfl, h₃, ?_, rfl⟩
      intro key result hget
      rw [ShapePairMemo.get_invalidate] at hget
      cases hget

/-- A state that shows what some leaves noted so far. -/
def Noted (types : TypeStore) (s₀ : NumericConstructionState) (v : ClassView)
    (span : Option SourceSpan) (order : Nat) (self : NumericConstructionState)
    (leaves : List (Nat × TypeId)) : Prop :=
  Shows s₀ (v.run types.numericTypes
    (leaves.flatMap (witnessActions types.numericTypes span order))).2.2 self

theorem Noted.leaf {v : ClassView} {span : Option SourceSpan} {order : Nat}
    {self : NumericConstructionState} {leaves : List (Nat × TypeId)}
    (h : Noted types s₀ v span order self leaves) {c : Nat} (hc : c < s₀.classes.length)
    (receiver : TypeId) :
    ∃ self', self.noteReceiver types span order c receiver = some self' ∧
      Noted types s₀ v span order self' (leaves ++ [(c, receiver)]) := by
  obtain ⟨self', hnote, hshows⟩ := h.noteReceiver types span order hc receiver
  refine ⟨self', hnote, ?_⟩
  rw [Noted, List.flatMap_append, List.flatMap_singleton, ClassView.run_append]
  exact hshows

theorem Noted.together (h : ShapeTables s₀) (v : ClassView) (span : Option SourceSpan)
    (order : Nat) :
    WalksTogether (Noted types s₀ v span order) s₀.shapes.length
      (walkReceiver types s₀.shapes s₀.declaredBindings
        (fun self class_ receiver => self.noteReceiver types span order class_ receiver)
        s₀.shapes.length)
      (s₀.listLeaves types) := by
  refine walkReceiver_together (fun self leaves c receiver hc hnoted => ?_) h.nodes
    s₀.shapes.length (le_refl _)
  obtain ⟨self', hnote, hnoted'⟩ := hnoted.leaf hc receiver
  exact ⟨self', _, hnote, rfl, hnoted'⟩

theorem Follows.of_noted {leaves : List (Nat × TypeId)} {span : Option SourceSpan} {order : Nat}
    {register : NumericConstructionState → Option NumericConstructionState}
    (h : ∀ v self, Shows s₀ v self →
      ∃ self', register self = some self' ∧ Noted types s₀ v span order self' leaves) :
    Follows types s₀ (fun self memo => (register self).map fun self => (true, self, memo))
      (leaves.flatMap (witnessActions types.numericTypes span order)) := by
  intro v self memo hshows hmemo
  obtain ⟨self', hregister, hnoted⟩ := h v self hshows
  obtain ⟨v', hrun⟩ := ClassView.run_witnesses types.numericTypes span order leaves v
  rw [Noted, hrun] at hnoted
  rw [hrun]
  exact ⟨self', memo, congrArg (Option.map fun self => (true, self, memo)) hregister, hnoted,
    hmemo.later (ClassView.run_settled hrun).1, rfl⟩

theorem Follows.witness (h : ShapeTables s₀) {other : Nat} (hother : other < s₀.shapes.length)
    {receiver : TypeId} {leaves : List (Nat × TypeId)}
    (hleaves : s₀.witnessLeaves types other receiver = some leaves) (span : Option SourceSpan)
    (order : Nat) :
    Follows types s₀
      (fun self memo => (self.registerOrderedShapeWitness types other receiver span order).map
        fun self => (true, self, memo))
      (leaves.flatMap (witnessActions types.numericTypes span order)) := by
  refine Follows.of_noted fun v self hshows => ?_
  obtain ⟨self', leaves', visited, hwalk, hlist, hnoted⟩ :=
    Noted.together h v span order self [] other receiver [] hother hshows
  rw [NumericConstructionState.witnessLeaves, hlist] at hleaves
  cases hleaves
  refine ⟨self', ?_, hnoted⟩
  rw [NumericConstructionState.registerOrderedShapeWitness,
    NumericConstructionState.registerOrderedShapeWitnessInner, hshows.shapes, hshows.bindings,
    hwalk]
  rfl

theorem Follows.parameters (h : ShapeTables s₀) {pattern : TypeId}
    {peer : KnownShapeBindingRange} (hpeer : RangeBelow s₀ peer s₀.shapes.length)
    {concrete : TypeId} {leaves : List (Nat × TypeId)}
    (hleaves : s₀.parameterLeaves types pattern peer concrete = some leaves)
    (span : Option SourceSpan) (order : Nat) :
    Follows types s₀
      (fun self memo => (self.witnessPatternParameters types pattern peer concrete span order).map
        fun self => (true, self, memo))
      (leaves.flatMap (witnessActions types.numericTypes span order)) := by
  refine Follows.of_noted fun v self hshows => ?_
  rw [NumericConstructionState.parameterLeaves] at hleaves
  rw [NumericConstructionState.witnessPatternParameters]
  cases hmatched : declaredProjection types pattern concrete with
  | none =>
      rw [hmatched] at hleaves
      cases hleaves
      exact ⟨self, rfl, hshows⟩
  | some matched =>
      rw [hmatched] at hleaves
      simp only [] at hleaves ⊢
      obtain ⟨self', leaves', hwalk, hlist, hnoted⟩ := witnessEdges_together
        (Noted.together h v span order) matched peer.indices hpeer.edges (a := self) (b := []) []
        hshows
      rw [hlist] at hleaves
      cases hleaves
      refine ⟨self', ?_, hnoted⟩
      rw [hshows.shapes, hshows.bindings, hwalk]

end Union

/-! ## The bodies of the join -/

/-- One level of the join, without a memo of its own. -/
def unionBody (recurse : ShapePairKey → NumericConstructionState → ShapePairMemo → PairAnswer)
    (types : TypeStore) : ShapePairKey → NumericConstructionState → ShapePairMemo → PairAnswer
  | .pair left right => unionShapeClassesWalk recurse types left right
  | .pattern pattern peer shape => unionPatternShapeWalk recurse types pattern peer shape
  | .projection fromDeclared from_ toDeclared to_ =>
      unionProjectedEdgesWalk recurse types fromDeclared from_ toDeclared to_

section Bodies

variable {types : TypeStore} {s₀ : NumericConstructionState}
  {recurse : ShapePairKey → NumericConstructionState → ShapePairMemo → PairAnswer} {depth : Nat}

theorem Follows.congr {walk walk' : NumericConstructionState → ShapePairMemo → PairAnswer}
    {actions : List ClassAction} (h : Follows types s₀ walk actions)
    (heq : ∀ v self memo, Shows s₀ v self → walk' self memo = walk self memo) :
    Follows types s₀ walk' actions := by
  intro v self memo hshows hmemo
  rw [heq v self memo hshows]
  exact h v self memo hshows hmemo

/-- The parts of a key are followed where keys of less depth are. -/
def FollowsWithin (types : TypeStore) (s₀ : NumericConstructionState)
    (recurse : ShapePairKey → NumericConstructionState → ShapePairMemo → PairAnswer)
    (depth : Nat) : Prop :=
  ∀ key, Within s₀ depth key → Follows types s₀ (recurse key) (actionsOf types s₀ key)

theorem FollowsWithin.bindings (h : FollowsWithin types s₀ recurse depth)
    {left right : KnownShapeBindingRange}
    (hsplits : Splits s₀ depth (bindingsStep s₀ left right)) :
    Follows types s₀ (unionDeclaredBindings recurse left right)
      (stepActions types.numericTypes (actionsOf types s₀) (bindingsStep s₀ left right)) := by
  obtain ⟨made, hmade, _, hparts⟩ := hsplits
  obtain ⟨edges, hedges, hmap⟩ := Option.map_eq_some_iff.mp hmade
  rw [hmade, ← hmap]
  refine (Follows.each fun key hkey => h key (hparts _ hmap.symm key hkey)).congr
    fun v self memo hshows => ?_
  rw [unionDeclaredBindings, hshows.bindings, hedges]

theorem Follows.concrete (types : TypeStore) (h : ShapeTables s₀) {concrete other : Nat}
    (hconcrete : concrete < s₀.shapes.length) (hother : other < s₀.shapes.length)
    (receiver : TypeId) (span : Option SourceSpan) :
    Follows types s₀ (witnessPeer types concrete other receiver span)
      (stepActions types.numericTypes (actionsOf types s₀)
        (witnessStep types s₀ concrete other receiver span)) := by
  obtain ⟨order, horder⟩ := h.order hconcrete
  obtain ⟨leaves, hleaves⟩ := h.witnessLeaves types hother receiver
  rw [witnessStep, horder, Option.bind_eq_bind, Option.bind_some, hleaves]
  refine (Follows.witness h hother hleaves span order).congr fun v self memo hshows => ?_
  rw [witnessPeer, hshows.orders, horder, Option.bind_eq_bind, Option.bind_some,
    Option.map_eq_bind]
  rfl

theorem FollowsWithin.pair (htables : ShapeTables s₀) (h : FollowsWithin types s₀ recurse depth)
    {left right : Nat} (hkey : Within s₀ (depth + 1) (.pair left right)) :
    Follows types s₀ (unionShapeClassesWalk recurse types left right)
      (stepActions types.numericTypes (actionsOf types s₀) (pairStep types s₀ left right)) := by
  obtain ⟨made, hmade, hclasses, hparts⟩ := htables.pairStep_splits types hkey
  obtain ⟨hleft, hright, hdepth⟩ := hkey
  have hleftNode : s₀.shapes[left]? = some s₀.shapes[left] := List.getElem?_eq_getElem hleft
  have hrightNode : s₀.shapes[right]? = some s₀.shapes[right] := List.getElem?_eq_getElem hright
  generalize s₀.shapes[left] = leftNode at hleftNode
  generalize s₀.shapes[right] = rightNode at hrightNode
  rw [pairStep, hleftNode, hrightNode] at hmade ⊢
  have hbody : ∀ v self memo, Shows s₀ v self →
      unionShapeClassesWalk recurse types left right self memo
        = unionNodes recurse types left right self memo leftNode rightNode := by
    intro v self memo hshows
    rw [unionShapeClassesWalk, hshows.shapes, hleftNode, hrightNode]
  refine Follows.congr ?_ hbody
  simp only [] at hmade ⊢
  have hwitness := Follows.concrete types htables hleft hright
  have hwitness' := Follows.concrete types htables hright hleft
  cases leftNode with
  | Concrete typeId span =>
      cases rightNode with
      | _ => exact hwitness typeId span
  | Numeric leftClass =>
      cases rightNode with
      | Concrete typeId span => exact hwitness' typeId span
      | Numeric rightClass =>
          cases hmade
          obtain ⟨hl, hr⟩ := hclasses leftClass rightClass rfl
          exact Follows.classes hl hr
      | _ => exact Follows.nothing
  | Collection element fixedCapacity =>
      cases rightNode with
      | Concrete typeId span => exact hwitness' typeId span
      | Collection element' fixedCapacity' =>
          cases hmade
          exact Follows.each fun key hkey => h key (hparts _ rfl key hkey)
      | _ => exact Follows.nothing
  | Map key value =>
      cases rightNode with
      | Concrete typeId span => exact hwitness' typeId span
      | Map key' value' =>
          cases hmade
          exact Follows.each fun key hkey => h key (hparts _ rfl key hkey)
      | _ => exact Follows.nothing
  | Optional inner =>
      cases rightNode with
      | Concrete typeId span => exact hwitness' typeId span
      | Optional inner' =>
          cases hmade
          exact Follows.each fun key hkey => h key (hparts _ rfl key hkey)
      | _ => exact Follows.nothing
  | DeclaredSubstitution declared start end_ =>
      cases rightNode with
      | Concrete typeId span => exact hwitness' typeId span
      | DeclaredSubstitution declared' start' end_' =>
          simp only [nodesStep, unionNodes] at hmade ⊢
          by_cases hsame : declared = declared'
          · simp only [if_pos hsame] at hmade ⊢
            exact h.bindings ⟨made, hmade, hclasses, hparts⟩
          · simp only [if_neg hsame] at hmade ⊢
            cases hmade
            exact Follows.envelopes (h _ (hparts _ rfl _ List.mem_cons_self))
              (h _ (hparts _ rfl _ (List.mem_cons_of_mem _ List.mem_cons_self)))
      | _ => exact Follows.nothing

theorem Follows.alone {key : ShapePairKey}
    (h : Follows types s₀ (recurse key) (actionsOf types s₀ key)) :
    Follows types s₀ (recurse key) ([key].flatMap (actionsOf types s₀)) := by
  rw [List.flatMap_singleton]
  exact h

theorem FollowsWithin.pattern (htables : ShapeTables s₀)
    (h : FollowsWithin types s₀ recurse depth) {pattern : TypeId} {peer : KnownShapeBindingRange}
    {shape : Nat} (hkey : Within s₀ (depth + 1) (.pattern pattern peer shape)) :
    Follows types s₀ (unionPatternShapeWalk recurse types pattern peer shape)
      (stepActions types.numericTypes (actionsOf types s₀)
        (patternStep types s₀ pattern peer shape)) := by
  obtain ⟨made, hmade, hclasses, hparts⟩ := htables.patternStep_splits types hkey
  obtain ⟨hshape, bound, hbound, hpeer, hdepth⟩ := hkey
  have hnode : s₀.shapes[shape]? = some s₀.shapes[shape] := List.getElem?_eq_getElem hshape
  generalize s₀.shapes[shape] = node at hnode
  rw [patternStep] at hmade ⊢
  cases hparameter : types.parameter pattern with
  | some parameter =>
      rw [hparameter] at hmade
      simp only [] at hmade ⊢
      obtain ⟨found, hfound, _⟩ := hpeer.declaredBindingShape parameter
      rw [hfound] at hmade ⊢
      cases hmade
      cases found with
      | none =>
          refine Follows.nothing.congr fun v self memo hshows => ?_
          rw [unionPatternShapeWalk, hparameter]
          simp only []
          rw [hshows.bindingShape, hfound]
      | some peerShape =>
          refine (Follows.alone (h (.pair shape peerShape)
            (hparts _ rfl _ (List.mem_singleton.mpr rfl)))).congr fun v self memo hshows => ?_
          rw [unionPatternShapeWalk, hparameter]
          simp only []
          rw [hshows.bindingShape, hfound]
  | none =>
      rw [hparameter] at hmade
      simp only [] at hmade ⊢
      by_cases hconcrete : types.containsGenericParameter pattern = false
      · rw [if_pos hconcrete]
        refine (Follows.concrete types htables hshape hshape pattern none).congr
          fun v self memo hshows => ?_
        rw [unionPatternShapeWalk, hparameter]
        simp only []
        rw [if_pos hconcrete]
      · rw [if_neg hconcrete, hnode] at hmade ⊢
        have hbody : ∀ v self memo, Shows s₀ v self →
            unionPatternShapeWalk recurse types pattern peer shape self memo
              = unionPatternNode recurse types pattern peer shape self memo node := by
          intro v self memo hshows
          rw [unionPatternShapeWalk, hparameter]
          simp only []
          rw [if_neg hconcrete, hshows.shapes, hnode]
        refine Follows.congr ?_ hbody
        simp only [] at hmade ⊢
        cases node with
        | Concrete typeId span =>
            obtain ⟨order, horder⟩ := htables.order hshape
            obtain ⟨leaves, hleaves⟩ :=
              htables.parameterLeaves types pattern (hpeer.mono hbound) typeId
            rw [patternNodeStep, horder, Option.bind_eq_bind, Option.bind_some, hleaves]
            refine (Follows.parameters htables (hpeer.mono hbound) hleaves span order).congr
              fun v self memo hshows => ?_
            rw [unionPatternNode, hshows.orders, horder, Option.map_eq_bind]
            rfl
        | Numeric class_ => exact Follows.nothing
        | Collection element fixedCapacity =>
            simp only [patternNodeStep, unionPatternNode] at hmade ⊢
            cases hcollection : types.collectionShape pattern with
            | none => exact Follows.nothing
            | some collection =>
                rw [hcollection] at hmade
                simp only [] at hmade ⊢
                by_cases hcapacity : collection.fixedCapacity = fixedCapacity
                · simp only [if_pos hcapacity] at hmade ⊢
                  cases hmade
                  exact Follows.each fun key hkey => h key (hparts _ rfl key hkey)
                · simp only [if_neg hcapacity]
                  exact Follows.nothing
        | Map key value =>
            simp only [patternNodeStep, unionPatternNode] at hmade ⊢
            cases hmap : types.mapShape pattern with
            | none => exact Follows.nothing
            | some map =>
                rw [hmap] at hmade
                cases hmade
                exact Follows.each fun key hkey => h key (hparts _ rfl key hkey)
        | Optional inner =>
            simp only [patternNodeStep, unionPatternNode] at hmade ⊢
            cases hinner : types.optionInnerType pattern with
            | none => exact Follows.nothing
            | some innerPattern =>
                rw [hinner] at hmade
                cases hmade
                exact Follows.each fun key hkey => h key (hparts _ rfl key hkey)
        | DeclaredSubstitution declared start end_ =>
            cases hmade
            exact Follows.alone (h _ (hparts _ rfl _ (List.mem_singleton.mpr rfl)))

theorem FollowsWithin.projection (htables : ShapeTables s₀)
    (h : FollowsWithin types s₀ recurse depth) {fromDeclared toDeclared : TypeId}
    {from_ to_ : KnownShapeBindingRange}
    (hkey : Within s₀ (depth + 1) (.projection fromDeclared from_ toDeclared to_)) :
    Follows types s₀ (unionProjectedEdgesWalk recurse types fromDeclared from_ toDeclared to_)
      (stepActions types.numericTypes (actionsOf types s₀)
        (projectionStep types s₀ fromDeclared from_ toDeclared to_)) := by
  obtain ⟨made, hmade, hclasses, hparts⟩ := htables.joinStep_splits types hkey
  rw [joinStep, projectionStep] at hmade
  rw [projectionStep]
  by_cases hsame : fromDeclared = toDeclared
  · rw [if_pos hsame] at hmade ⊢
    refine (h.bindings ⟨made, hmade, hclasses, hparts⟩).congr fun v self memo hshows => ?_
    rw [unionProjectedEdgesWalk, if_pos hsame]
  · rw [if_neg hsame] at hmade ⊢
    cases hprojected : declaredProjection types fromDeclared toDeclared with
    | none =>
        refine Follows.nothing.congr fun v self memo hshows => ?_
        rw [unionProjectedEdgesWalk, if_neg hsame, hprojected]
    | some projected =>
        rw [hprojected] at hmade
        simp only [] at hmade ⊢
        obtain ⟨keys, hkeys, hmap⟩ := Option.map_eq_some_iff.mp hmade
        rw [hkeys]
        refine (Follows.each fun key hkey => h key (hparts _ hmap.symm key hkey)).congr
          fun v self memo hshows => ?_
        rw [unionProjectedEdgesWalk, if_neg hsame, hprojected]
        simp only []
        rw [hshows.bindings, hkeys]

theorem FollowsWithin.body (htables : ShapeTables s₀) (h : FollowsWithin types s₀ recurse depth)
    {key : ShapePairKey} (hkey : Within s₀ (depth + 1) key) (hdepth : depth + 1 ≤ s₀.walkFuel) :
    Follows types s₀ (unionBody recurse types key) (actionsOf types s₀ key) := by
  rw [actionsOf_eq htables (hkey.mono hdepth)]
  cases key with
  | pair left right => exact h.pair htables hkey
  | pattern pattern peer shape => exact h.pattern htables hkey
  | projection fromDeclared from_ toDeclared to_ => exact h.projection htables hkey

end Bodies

/-- The join without a memo: each part is walked again wherever it is met. -/
def unionPlainWalk (types : TypeStore) :
    Nat → ShapePairKey → NumericConstructionState → ShapePairMemo → PairAnswer
  | 0, _, _, _ => none
  | fuel + 1, key, self, memo => unionBody (unionPlainWalk types fuel) types key self memo

def unionPlainly (types : TypeStore) (left right : Nat) (self : NumericConstructionState) :
    Option (Bool × NumericConstructionState) :=
  (unionPlainWalk types self.walkFuel (.pair left right) self .new).map fun answer =>
    (answer.1, answer.2.1)

section Walks

variable {types : TypeStore} {s₀ : NumericConstructionState}

theorem unionPlainWalk_follows (htables : ShapeTables s₀) (fuel : Nat)
    (hfuel : fuel ≤ s₀.walkFuel) : FollowsWithin types s₀ (unionPlainWalk types fuel) fuel := by
  induction fuel with
  | zero => exact fun key hkey => absurd hkey (not_within_zero key)
  | succ fuel ih => exact fun key hkey => (ih (by omega)).body htables hkey hfuel

theorem unionWalk_follows (htables : ShapeTables s₀) (fuel : Nat) (hfuel : fuel ≤ s₀.walkFuel) :
    FollowsWithin types s₀ (unionWalk types fuel) fuel := by
  induction fuel with
  | zero => exact fun key hkey => absurd hkey (not_within_zero key)
  | succ fuel ih =>
      intro key hkey
      have hbody := (ih (by omega)).body htables hkey hfuel
      cases key with
      | pair left right =>
          obtain ⟨hl, hr, _⟩ := hkey
          have hleft : s₀.shapes[left]? = some s₀.shapes[left] := List.getElem?_eq_getElem hl
          have hright : s₀.shapes[right]? = some s₀.shapes[right] := List.getElem?_eq_getElem hr
          -- Only two nodes of one composite kind are remembered.
          by_cases hboth : bothComposite s₀.shapes[left] s₀.shapes[right]
          · refine hbody.memoised.congr fun v self memo hshows => ?_
            rw [unionWalk, unionShapeClassesInner, hshows.shapes, hleft, hright]
            simp only []
            rw [if_pos hboth]
            rfl
          · refine hbody.congr fun v self memo hshows => ?_
            rw [unionWalk, unionShapeClassesInner, hshows.shapes, hleft, hright]
            simp only []
            rw [if_neg hboth]
            rfl
      | pattern pattern peer shape => exact hbody.memoised
      | projection fromDeclared from_ toDeclared to_ => exact hbody.memoised

end Walks

end Moth.Ast.NumericConstruction
