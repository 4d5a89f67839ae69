import Mathlib.Data.List.Forall2
import Moth.Hir.ExpressionRows

/-!
# Rewriting as substitution on trees

A row of a store denotes a tree: the row with its edges blanked, over the trees
of its edges. The store is acyclic when every row denotes one. Rewriting only
appends, so what a row denotes it denotes in every later store, and the answer
denotes the bottom-up substitution of what was rewritten.
-/

namespace Moth.Hir.Rows

open Moth.Hir Moth.Lib

/-! ## Edges -/

/-- Things with edges to expressions, and what they are without them. -/
class Edged (α : Type) where
  edges : α → List HirValueId
  blank : α → α

instance : Edged HirValueId where
  edges value := [value]
  blank _ := ⟨0⟩

instance : Edged (FieldId × HirValueId) where
  edges field := [field.2]
  blank field := (field.1, ⟨0⟩)

instance : Edged HirVariantField where
  edges field := [field.value]
  blank field := { field with value := ⟨0⟩ }

instance : Edged HirMapEntry where
  edges entry := [entry.key, entry.value]
  blank _ := ⟨⟨0⟩, ⟨0⟩⟩

instance : Edged HirProjection where
  edges
    | .Field _ => []
    | .Index value => [value]
  blank
    | .Field field => .Field field
    | .Index _ => .Index ⟨0⟩

instance {α : Type} [Edged α] : Edged (List α) where
  edges items := items.flatMap Edged.edges
  blank items := items.map Edged.blank

instance : Edged (HirPlace List) where
  edges place := Edged.edges place.projections
  blank place := { place with projections := Edged.blank place.projections }

instance : Edged (HirExpressionKind List) where
  edges
    | .Load place | .Copy place => Edged.edges place
    | .BinOp left _ right => [left, right]
    | .Range start last => [start, last]
    | .UnaryOp _ operand => [operand]
    | .Cast source _ | .VariantPayloadGet _ source _ _ => [source]
    | .StructConstruct _ fields => Edged.edges fields
    | .Collection elements => Edged.edges elements
    | .VariantConstruct _ _ fields | .RouteConstruct _ _ fields _ => Edged.edges fields
    | .MapLiteral entries => Edged.edges entries
    | .FixedScalar _ | .Number _ | .Bool _ | .Char _ | .StringLiteral _
    | .StructuralString _ _ => []
  blank
    | .Load place => .Load (Edged.blank place)
    | .Copy place => .Copy (Edged.blank place)
    | .BinOp _ op _ => .BinOp ⟨0⟩ op ⟨0⟩
    | .Range _ _ => .Range ⟨0⟩ ⟨0⟩
    | .UnaryOp op _ => .UnaryOp op ⟨0⟩
    | .Cast _ policy => .Cast ⟨0⟩ policy
    | .VariantPayloadGet carrier _ variantIndex fieldIndex =>
        .VariantPayloadGet carrier ⟨0⟩ variantIndex fieldIndex
    | .StructConstruct structId fields => .StructConstruct structId (Edged.blank fields)
    | .Collection elements => .Collection (Edged.blank elements)
    | .VariantConstruct carrier variantIndex fields =>
        .VariantConstruct carrier variantIndex (Edged.blank fields)
    | .RouteConstruct choiceId variantIndex fields futureInput =>
        .RouteConstruct choiceId variantIndex (Edged.blank fields) futureInput
    | .MapLiteral entries => .MapLiteral (Edged.blank entries)
    | .FixedScalar value => .FixedScalar value
    | .Number value => .Number value
    | .Bool value => .Bool value
    | .Char value => .Char value
    | .StringLiteral value => .StringLiteral value
    | .StructuralString start length => .StructuralString start length

section Denotation

variable {Span α : Type}

/-- The row with each of its ranges read. -/
def resolveKind (store : HirExpressionStore Span) :
    HirExpressionKind SideRange → Option (HirExpressionKind List)
  | .Load place => (sliceForRange store.projections place.projections).map fun projections =>
      .Load ⟨place.root, projections⟩
  | .Copy place => (sliceForRange store.projections place.projections).map fun projections =>
      .Copy ⟨place.root, projections⟩
  | .BinOp left op right => some (.BinOp left op right)
  | .Range start last => some (.Range start last)
  | .UnaryOp op operand => some (.UnaryOp op operand)
  | .Cast source policy => some (.Cast source policy)
  | .VariantPayloadGet carrier source variantIndex fieldIndex =>
      some (.VariantPayloadGet carrier source variantIndex fieldIndex)
  | .StructConstruct structId fields =>
      (sliceForRange store.structFields fields).map (.StructConstruct structId)
  | .Collection elements => (sliceForRange store.values elements).map .Collection
  | .VariantConstruct carrier variantIndex fields =>
      (sliceForRange store.variantFields fields).map (.VariantConstruct carrier variantIndex)
  | .RouteConstruct choiceId variantIndex fields futureInput =>
      (sliceForRange store.variantFields fields).map fun fields =>
        .RouteConstruct choiceId variantIndex fields futureInput
  | .MapLiteral entries => (sliceForRange store.mapEntries entries).map .MapLiteral
  | .FixedScalar value => some (.FixedScalar value)
  | .Number value => some (.Number value)
  | .Bool value => some (.Bool value)
  | .Char value => some (.Char value)
  | .StringLiteral value => some (.StringLiteral value)
  | .StructuralString start length => some (.StructuralString start length)

inductive ExpressionTree (Span : Type) where
  | node (kind : HirExpressionKind List) (facts : RowFacts Span)
      (children : List (ExpressionTree Span))

/-- The tree of a row, within a depth. -/
def DenotesIn (store : HirExpressionStore Span) : Nat → HirValueId → ExpressionTree Span → Prop
  | 0, _, _ => False
  | depth + 1, id, .node kind facts children => ∃ row read,
      store.rows[id.index]? = some row ∧ resolveKind store row.kind = some read ∧
      kind = Edged.blank read ∧ facts = row.facts ∧
      List.Forall₂ (DenotesIn store depth) (Edged.edges read) children

def Denotes (store : HirExpressionStore Span) (id : HirValueId) (tree : ExpressionTree Span) :
    Prop :=
  ∃ depth, DenotesIn store depth id tree

/-- Every row denotes a tree: the graph is acyclic, and its edges and ranges are there. -/
def Closed (store : HirExpressionStore Span) : Prop :=
  ∀ id : HirValueId, id.index < store.rows.length → ∃ tree, Denotes store id tree

/-- Every row and every range is still there, unchanged. -/
structure Extends (store store' : HirExpressionStore Span) : Prop where
  rows : store.rows <+: store'.rows
  values : store.values <+: store'.values
  structFields : store.structFields <+: store'.structFields
  variantFields : store.variantFields <+: store'.variantFields
  mapEntries : store.mapEntries <+: store'.mapEntries
  projections : store.projections <+: store'.projections
  frozen : store'.frozen = store.frozen

variable {store store' store'' : HirExpressionStore Span}

theorem Extends.refl (store : HirExpressionStore Span) : Extends store store :=
  ⟨List.prefix_rfl, List.prefix_rfl, List.prefix_rfl, List.prefix_rfl, List.prefix_rfl,
    List.prefix_rfl, rfl⟩

theorem Extends.trans (h : Extends store store') (h' : Extends store' store'') :
    Extends store store'' :=
  ⟨h.rows.trans h'.rows, h.values.trans h'.values, h.structFields.trans h'.structFields,
    h.variantFields.trans h'.variantFields, h.mapEntries.trans h'.mapEntries,
    h.projections.trans h'.projections, h'.frozen.trans h.frozen⟩

theorem getElem?_of_grown {rows rows' : List α} (h : rows <+: rows') {index : Nat} {row : α}
    (hrow : rows[index]? = some row) : rows'[index]? = some row := by
  obtain ⟨more, hmore⟩ := h
  rw [← hmore, List.getElem?_append_left (List.getElem?_eq_some_iff.mp hrow).1]
  exact hrow

theorem sliceForRange_mono {items items' xs : List α} {range : SideRange α} (h : items <+: items')
    (hread : sliceForRange items range = some xs) : sliceForRange items' range = some xs := by
  obtain ⟨more, hmore⟩ := h
  rw [sliceForRange] at hread ⊢
  split at hread
  · next hfits =>
      cases hread
      have hlength := congrArg List.length hmore
      rw [List.length_append] at hlength
      rw [if_pos ⟨hfits.1, by omega⟩, ← hmore, List.drop_append_of_le_length (by omega),
        List.take_append_of_le_length (by rw [List.length_drop]; omega)]
  · cases hread

theorem resolveKind_mono (h : Extends store store') {kind : HirExpressionKind SideRange}
    {read : HirExpressionKind List} (hread : resolveKind store kind = some read) :
    resolveKind store' kind = some read := by
  have hmap : ∀ {α : Type} {items items' : List α} {range : SideRange α}
      {f : List α → HirExpressionKind List}, items <+: items' →
      (sliceForRange items range).map f = some read →
      (sliceForRange items' range).map f = some read := by
    intro α items items' range f hprefix hsome
    obtain ⟨xs, hxs, hf⟩ := Option.map_eq_some_iff.mp hsome
    exact Option.map_eq_some_iff.mpr ⟨xs, sliceForRange_mono hprefix hxs, hf⟩
  cases kind with
  | Load place => exact hmap h.projections hread
  | Copy place => exact hmap h.projections hread
  | StructConstruct structId fields => exact hmap h.structFields hread
  | Collection elements => exact hmap h.values hread
  | VariantConstruct carrier variantIndex fields => exact hmap h.variantFields hread
  | RouteConstruct choiceId variantIndex fields futureInput => exact hmap h.variantFields hread
  | MapLiteral entries => exact hmap h.mapEntries hread
  | _ => exact hread

theorem DenotesIn.mono {depth depth' : Nat} {id : HirValueId} {tree : ExpressionTree Span}
    (hstore : Extends store store') (hdepth : depth ≤ depth') (h : DenotesIn store depth id tree) :
    DenotesIn store' depth' id tree := by
  induction depth generalizing depth' id tree with
  | zero => exact False.elim h
  | succ depth ih =>
      obtain ⟨kind, facts, children⟩ := tree
      obtain ⟨depth', rfl⟩ : ∃ d, depth' = d + 1 := ⟨depth' - 1, by omega⟩
      obtain ⟨row, read, hrow, hread, hkind, hfacts, hchildren⟩ := h
      refine ⟨row, read, getElem?_of_grown hstore.rows hrow, resolveKind_mono hstore hread, hkind,
        hfacts, hchildren.imp fun _ _ hchild => ih (by omega) hchild⟩

theorem Denotes.mono {id : HirValueId} {tree : ExpressionTree Span} (hstore : Extends store store')
    (h : Denotes store id tree) : Denotes store' id tree := by
  obtain ⟨depth, h⟩ := h
  exact ⟨depth, h.mono hstore (le_refl depth)⟩

theorem DenotesIn.unique {depth depth' : Nat} {id : HirValueId} {tree tree' : ExpressionTree Span}
    (h : DenotesIn store depth id tree) (h' : DenotesIn store depth' id tree') : tree = tree' := by
  induction depth generalizing depth' id tree tree' with
  | zero => exact False.elim h
  | succ depth ih =>
      cases depth' with
      | zero => exact False.elim h'
      | succ depth' =>
          obtain ⟨kind, facts, children⟩ := tree
          obtain ⟨kind', facts', children'⟩ := tree'
          obtain ⟨row, read, hrow, hread, hkind, hfacts, hchildren⟩ := h
          obtain ⟨row', read', hrow', hread', hkind', hfacts', hchildren'⟩ := h'
          cases hrow.symm.trans hrow'
          cases hread.symm.trans hread'
          have hsame : children = children' := by
            generalize Edged.edges read = ids at hchildren hchildren'
            clear hkind hkind'
            induction hchildren generalizing children' with
            | nil =>
                cases hchildren'
                rfl
            | cons hchild _ ihrest =>
                cases hchildren' with
                | cons hchild' hrest' =>
                    rw [ih hchild hchild', ihrest _ hrest']
          rw [hkind, hkind', hfacts, hfacts', hsame]

theorem Denotes.unique {id : HirValueId} {tree tree' : ExpressionTree Span}
    (h : Denotes store id tree) (h' : Denotes store id tree') : tree = tree' := by
  obtain ⟨depth, h⟩ := h
  obtain ⟨depth', h'⟩ := h'
  exact h.unique h'

theorem Denotes.lt {id : HirValueId} {tree : ExpressionTree Span} (h : Denotes store id tree) :
    id.index < store.rows.length := by
  obtain ⟨depth, h⟩ := h
  cases depth with
  | zero => exact False.elim h
  | succ depth =>
      obtain ⟨kind, facts, children⟩ := tree
      obtain ⟨row, _, hrow, _⟩ := h
      exact (List.getElem?_eq_some_iff.mp hrow).1

theorem Denotes.row {id : HirValueId} (row : HirExpression Span SideRange)
    {read : HirExpressionKind List} {children : List (ExpressionTree Span)}
    (hrow : store.rows[id.index]? = some row) (hread : resolveKind store row.kind = some read)
    (hchildren : List.Forall₂ (Denotes store) (Edged.edges read) children) :
    Denotes store id (.node (Edged.blank read) row.facts children) := by
  have hdepth : ∃ depth, List.Forall₂ (DenotesIn store depth) (Edged.edges read) children := by
    generalize Edged.edges read = ids at hchildren
    induction hchildren with
    | nil => exact ⟨0, .nil⟩
    | cons hchild _ ih =>
        obtain ⟨depth, hrest⟩ := ih
        obtain ⟨depth', hchild⟩ := hchild
        refine ⟨max depth' depth, .cons ?_ ?_⟩
        · exact hchild.mono (Extends.refl store) (le_max_left _ _)
        · exact hrest.imp fun _ _ h => h.mono (Extends.refl store) (le_max_right _ _)
  obtain ⟨depth, hchildren⟩ := hdepth
  exact ⟨depth + 1, row, read, hrow, hread, rfl, rfl, hchildren⟩

end Denotation

end Moth.Hir.Rows
