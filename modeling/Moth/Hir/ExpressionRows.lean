import Moth.Hir.Syntax
import Moth.Lib.Stateful

/-!
# Expression rows and their rewriting

`hir/expression_store.rs` and `hir/expression_rewrite.rs`: dense expression rows
whose variable-sized edges are ranges of typed side tables, and the bottom-up
rewriting of a graph in such a store. Rows and ranges are shared, so rewriting
never changes one: it appends.

`Syntax` has the rows as an analysis sees them, every range already the list it
stands for. Here a row is generic in what a side range is: a `SideRange` in the
store, a `List` in a row that was read.
-/

namespace Moth.Hir.Rows

open Moth.Hir Moth.Lexical Moth.Datatypes Moth.Lib

structure StringId where
  index : Nat
deriving DecidableEq

/-- `start` and `length` of a range of `u32`. -/
structure SideRange (α : Type) where
  start : Nat
  length : Nat
deriving DecidableEq

structure HirVariantField where
  name : Option StringId
  value : HirValueId
deriving DecidableEq

structure HirMapEntry where
  key : HirValueId
  value : HirValueId
deriving DecidableEq

structure HirPlace (Side : Type → Type) where
  root : LocalId
  projections : Side HirProjection

inductive HirExpressionKind (Side : Type → Type) where
  | FixedScalar (value : FixedScalarValue)
  | Number (value : NumberValue)
  | Bool (value : Bool)
  | Char (value : Char)
  | StringLiteral (value : String)
  | StructuralString (start length : Nat)
  | Load (place : HirPlace Side)
  | Copy (place : HirPlace Side)
  | BinOp (left : HirValueId) (op : HirBinOp) (right : HirValueId)
  | UnaryOp (op : HirUnaryOp) (operand : HirValueId)
  | StructConstruct (structId : StructId) (fields : Side (FieldId × HirValueId))
  | Collection (elements : Side HirValueId)
  | Range (start last : HirValueId)
  | Cast (source : HirValueId) (policy : BuiltinCastPolicyId)
  | VariantConstruct (carrier : HirVariantCarrier) (variantIndex : Nat)
      (fields : Side HirVariantField)
  | RouteConstruct (choiceId : ChoiceId) (variantIndex : Nat) (fields : Side HirVariantField)
      (futureInput : Bool)
  | VariantPayloadGet (carrier : HirVariantCarrier) (source : HirValueId)
      (variantIndex fieldIndex : Nat)
  | MapLiteral (entries : Side HirMapEntry)

/-- What a row has besides its kind. -/
structure RowFacts (Span : Type) where
  ty : TypeId
  valueKind : ValueKind
  region : RegionId
  span : Option Span

structure HirExpression (Span : Type) (Side : Type → Type) where
  kind : HirExpressionKind Side
  facts : RowFacts Span

/-! ## The store -/

inductive HirCapacityResource where
  | ExpressionRows
  | ValueEdges
  | StructFields
  | VariantFields
  | MapEntries
  | PlaceProjections
deriving DecidableEq

inductive HirConstructionFailure (Span : Type) where
  | frozenStore
  | capacity (resource : HirCapacityResource) (span : Option Span)
deriving DecidableEq

structure HirExpressionStore (Span : Type) where
  rows : List (HirExpression Span SideRange)
  values : List HirValueId
  structFields : List (FieldId × HirValueId)
  variantFields : List HirVariantField
  mapEntries : List HirMapEntry
  projections : List HirProjection
  frozen : Bool

/-- One side table of a store. -/
structure SideTable (Span α : Type) where
  resource : HirCapacityResource
  items : HirExpressionStore Span → List α
  withItems : HirExpressionStore Span → List α → HirExpressionStore Span

section Store

variable {Span α : Type}

def valueTable : SideTable Span HirValueId where
  resource := .ValueEdges
  items store := store.values
  withItems store values := { store with values }

def structFieldTable : SideTable Span (FieldId × HirValueId) where
  resource := .StructFields
  items store := store.structFields
  withItems store structFields := { store with structFields }

def variantFieldTable : SideTable Span HirVariantField where
  resource := .VariantFields
  items store := store.variantFields
  withItems store variantFields := { store with variantFields }

def mapEntryTable : SideTable Span HirMapEntry where
  resource := .MapEntries
  items store := store.mapEntries
  withItems store mapEntries := { store with mapEntries }

def projectionTable : SideTable Span HirProjection where
  resource := .PlaceProjections
  items store := store.projections
  withItems store projections := { store with projections }

def sliceForRange (items : List α) (range : SideRange α) : Option (List α) :=
  if range.start + range.length < 4294967296 ∧ range.start + range.length ≤ items.length then
    some ((items.drop range.start).take range.length)
  else none

def checkedSideRange (store : HirExpressionStore Span) (currentLen appendLen : Nat)
    (resource : HirCapacityResource) (span : Option Span) :
    Except (HirConstructionFailure Span) (SideRange α) :=
  if store.frozen then .error .frozenStore
  else if currentLen + appendLen < 4294967296 then .ok ⟨currentLen, appendLen⟩
  else .error (.capacity resource span)

end Store

/-! ## Rewriting -/

/-- The mappings of `HirSideTable` between spans and values. -/
structure HirSideTable (Span : Type) where
  astToHir : Span → List HirValueId
  hirToAst : HirValueId → Option Span

structure RewriteState (Span : Type) where
  store : HirExpressionStore Span
  sideTable : HirSideTable Span

abbrev Rewriting (Span α : Type) : Type :=
  Stateful (RewriteState Span) (HirConstructionFailure Span) α

section Rewriting

variable {Span α : Type}

/-- Reading a row that is not there is a panic. -/
def expression (id : HirValueId) : Rewriting Span (HirExpression Span SideRange) :=
  Stateful.read fun state => state.store.rows[id.index]?

def sideItems (table : SideTable Span α) (range : SideRange α) : Rewriting Span (List α) :=
  Stateful.read fun state => sliceForRange (table.items state.store) range

def appendExpression (row : HirExpression Span SideRange) : Rewriting Span HirValueId :=
  Stateful.change fun state =>
    if state.store.frozen then .error .frozenStore
    else if state.store.rows.length < 4294967296 then
      .ok (⟨state.store.rows.length⟩,
        { state with store := { state.store with rows := state.store.rows ++ [row] } })
    else .error (.capacity .ExpressionRows row.facts.span)

def appendItems (table : SideTable Span α) (items : List α) (span : Option Span) :
    Rewriting Span (SideRange α) :=
  Stateful.change fun state => do
    let range ← checkedSideRange state.store (table.items state.store).length items.length
      table.resource span
    return (range,
      { state with store := table.withItems state.store (table.items state.store ++ items) })

def valueAstSpan (id : HirValueId) : Rewriting Span (Option Span) :=
  Stateful.read fun state => some (state.sideTable.hirToAst id)

def HirSideTable.mapAstToHir [DecidableEq Span] (sideTable : HirSideTable Span)
    (astSpan : Option Span) (id : HirValueId) : HirSideTable Span :=
  match astSpan with
  | none => sideTable
  | some astSpan => {
      astToHir := Function.update sideTable.astToHir astSpan
        (if id ∈ sideTable.astToHir astSpan then sideTable.astToHir astSpan
          else sideTable.astToHir astSpan ++ [id])
      hirToAst := Function.update sideTable.hirToAst id (some astSpan) }

def mapValue [DecidableEq Span] (astSpan : Option Span) (id : HirValueId) : Rewriting Span Unit :=
  Stateful.change fun state =>
    .ok ((), { state with sideTable := state.sideTable.mapAstToHir astSpan id })

/-- The items of a range, each rewritten in its turn. The range is copied at the first item that
changes. -/
def rewriteItems (table : SideTable Span α) (rewriteItem : α → Rewriting Span (Option α))
    (original : SideRange α) : Rewriting Span (Option (List α)) :=
  (List.range original.length).foldlM (fun changed index => do
    let items ← sideItems table original
    let item ← Stateful.read fun _ => items[index]?
    match ← rewriteItem item with
    | none => pure changed
    | some item =>
        let copy ← match changed with
          | some copy => pure copy
          | none => sideItems table original
        pure (some (copy.set index item))) none

/-- A range of rewritten items, and whether it is a new one. -/
def rewriteRange (table : SideTable Span α) (rewriteItem : α → Rewriting Span (Option α))
    (original : SideRange α) (span : Option Span) : Rewriting Span (SideRange α × Bool) := do
  match ← rewriteItems table rewriteItem original with
  | some items =>
      let range ← appendItems table items span
      pure (range, true)
  | none => pure (original, false)

section Edges

variable (rewriteExpression : HirValueId → Rewriting Span HirValueId)

def rewriteEdge (edge : HirValueId) : Rewriting Span (HirValueId × Bool) := do
  let replacement ← rewriteExpression edge
  pure (replacement, decide (replacement ≠ edge))

def rewriteValue (value : HirValueId) : Rewriting Span (Option HirValueId) := do
  let replacement ← rewriteExpression value
  pure (if replacement ≠ value then some replacement else none)

def rewriteStructField (field : FieldId × HirValueId) :
    Rewriting Span (Option (FieldId × HirValueId)) := do
  let replacement ← rewriteExpression field.2
  pure (if replacement ≠ field.2 then some (field.1, replacement) else none)

def rewriteVariantField (field : HirVariantField) : Rewriting Span (Option HirVariantField) := do
  let replacement ← rewriteExpression field.value
  pure (if replacement ≠ field.value then some { field with value := replacement } else none)

def rewriteMapEntry (entry : HirMapEntry) : Rewriting Span (Option HirMapEntry) := do
  let key ← rewriteExpression entry.key
  let value ← rewriteExpression entry.value
  pure (if key ≠ entry.key ∨ value ≠ entry.value then some ⟨key, value⟩ else none)

def rewriteProjection : HirProjection → Rewriting Span (Option HirProjection)
  | .Field _ => pure none
  | .Index value => do
      let replacement ← rewriteExpression value
      pure (if replacement ≠ value then some (.Index replacement) else none)

def rewriteValues (range : SideRange HirValueId) (span : Option Span) :
    Rewriting Span (SideRange HirValueId × Bool) :=
  rewriteRange valueTable (rewriteValue rewriteExpression) range span

def rewritePlaceExpressions (place : HirPlace SideRange) (span : Option Span) :
    Rewriting Span (HirPlace SideRange × Bool) := do
  let (projections, changed) ←
    rewriteRange projectionTable (rewriteProjection rewriteExpression) place.projections span
  pure ({ place with projections }, changed)

def rewriteVariantFields (fields : SideRange HirVariantField) (span : Option Span) :
    Rewriting Span (SideRange HirVariantField × Bool) :=
  rewriteRange variantFieldTable (rewriteVariantField rewriteExpression) fields span

/-- A row with its edges rewritten, and whether one of them changed. -/
def rewriteKind (kind : HirExpressionKind SideRange) (span : Option Span) :
    Rewriting Span (HirExpressionKind SideRange × Bool) :=
  match kind with
  | .Load place => do
      let (place, changed) ← rewritePlaceExpressions rewriteExpression place span
      pure (.Load place, changed)
  | .Copy place => do
      let (place, changed) ← rewritePlaceExpressions rewriteExpression place span
      pure (.Copy place, changed)
  | .BinOp left op right => do
      let (left, leftChanged) ← rewriteEdge rewriteExpression left
      let (right, rightChanged) ← rewriteEdge rewriteExpression right
      pure (.BinOp left op right, leftChanged || rightChanged)
  | .Range start last => do
      let (start, startChanged) ← rewriteEdge rewriteExpression start
      let (last, lastChanged) ← rewriteEdge rewriteExpression last
      pure (.Range start last, startChanged || lastChanged)
  | .UnaryOp op operand => do
      let (operand, changed) ← rewriteEdge rewriteExpression operand
      pure (.UnaryOp op operand, changed)
  | .Cast source policy => do
      let (source, changed) ← rewriteEdge rewriteExpression source
      pure (.Cast source policy, changed)
  | .VariantPayloadGet carrier source variantIndex fieldIndex => do
      let (source, changed) ← rewriteEdge rewriteExpression source
      pure (.VariantPayloadGet carrier source variantIndex fieldIndex, changed)
  | .Collection elements => do
      let (elements, changed) ← rewriteValues rewriteExpression elements span
      pure (.Collection elements, changed)
  | .StructConstruct structId fields => do
      let (fields, changed) ←
        rewriteRange structFieldTable (rewriteStructField rewriteExpression) fields span
      pure (.StructConstruct structId fields, changed)
  | .VariantConstruct carrier variantIndex fields => do
      let (fields, changed) ← rewriteVariantFields rewriteExpression fields span
      pure (.VariantConstruct carrier variantIndex fields, changed)
  | .RouteConstruct choiceId variantIndex fields futureInput => do
      let (fields, changed) ← rewriteVariantFields rewriteExpression fields span
      pure (.RouteConstruct choiceId variantIndex fields futureInput, changed)
  | .MapLiteral entries => do
      let (entries, changed) ←
        rewriteRange mapEntryTable (rewriteMapEntry rewriteExpression) entries span
      pure (.MapLiteral entries, changed)
  | .FixedScalar value => pure (.FixedScalar value, false)
  | .Number value => pure (.Number value, false)
  | .Bool value => pure (.Bool value, false)
  | .Char value => pure (.Char value, false)
  | .StringLiteral value => pure (.StringLiteral value, false)
  | .StructuralString start length => pure (.StructuralString start length, false)

end Edges

/-- The rows that are answered before they are copied. -/
def isLiteral {Side : Type → Type} : HirExpressionKind Side → Bool
  | .FixedScalar _ | .Number _ | .Bool _ | .Char _ | .StringLiteral _
  | .StructuralString _ _ => true
  | _ => false

/-- The fuel bounds the depth of the graph. -/
def rewriteExpressionBottomUp [DecidableEq Span]
    (rewrite : HirExpression Span SideRange → Option HirValueId) :
    Nat → HirValueId → Rewriting Span HirValueId
  | 0, _ => Stateful.stuck
  | fuel + 1, id => do
      let row ← expression id
      if isLiteral row.kind then pure ((rewrite row).getD id)
      else
        let (kind, changed) ←
          rewriteKind (rewriteExpressionBottomUp rewrite fuel) row.kind row.facts.span
        let row := { row with kind }
        match rewrite row with
        | some replacement => pure replacement
        | none =>
            if changed then
              let astSpan := (← valueAstSpan id).or row.facts.span
              let replacement ← appendExpression row
              mapValue astSpan replacement
              pure replacement
            else pure id

/-- The replacement of a load or a copy of a whole local. -/
def localReplacement (substitutions : LocalId → Option HirValueId)
    (rewritten : HirExpression Span SideRange) : Option HirValueId :=
  match rewritten.kind with
  | .Load place | .Copy place =>
      if place.projections.length = 0 then substitutions place.root else none
  | _ => none

def substituteLocalExpressions [DecidableEq Span] (substitutions : LocalId → Option HirValueId)
    (fuel : Nat) (id : HirValueId) : Rewriting Span HirValueId :=
  rewriteExpressionBottomUp (localReplacement substitutions) fuel id

end Rewriting

end Moth.Hir.Rows
