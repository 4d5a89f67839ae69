import Moth.Hir.ExpressionRewrite
import Moth.Lib.Result

/-!
# Rewriting the edges of a row

What bottom-up rewriting promises of a row, and that it holds of the edges of a
row when it holds of each of them: the state only grew, one id is answered for
each edge, and everything is as it was when no row below is replaced. The five
layouts of edges rest on one lemma about the loop over a side range.
-/

namespace Moth.Hir.Rows

open Moth.Hir Moth.Lib Stateful

variable {Span : Type}

/-! ## What rewriting promises -/

/-- The rows below a row, itself among them. -/
inductive Reaches (store : HirExpressionStore Span) : HirValueId → HirValueId → Prop
  | here (id : HirValueId) : Reaches store id id
  | edge {id child below : HirValueId} {row : HirExpression Span SideRange}
      {read : HirExpressionKind List} (hrow : store.rows[id.index]? = some row)
      (hread : resolveKind store row.kind = some read) (hchild : child ∈ Edged.edges read)
      (h : Reaches store child below) : Reaches store id below

/-- No row below is replaced by another. -/
def Kept (rewrite : HirExpression Span SideRange → Option HirValueId)
    (store : HirExpressionStore Span) (id : HirValueId) : Prop :=
  ∀ below, Reaches store id below → ∀ row, store.rows[below.index]? = some row →
    rewrite row = none ∨ rewrite row = some below

/-- The bottom-up substitution of a row, within a depth: the trees of its edges are
substituted, a row that denotes the node over them is presented, and the tree is
that of the answer, or the node itself where there is none. -/
def Substituted (rewrite : HirExpression Span SideRange → Option HirValueId)
    (store store' : HirExpressionStore Span) : Nat → HirValueId → ExpressionTree Span → Prop
  | 0, _, _ => False
  | depth + 1, id, tree => ∃ row read presented read' children,
      store.rows[id.index]? = some row ∧ resolveKind store row.kind = some read ∧
      presented.facts = row.facts ∧ resolveKind store' presented.kind = some read' ∧
      Edged.blank read' = Edged.blank read ∧
      List.Forall₂ (Substituted rewrite store store' depth) (Edged.edges read) children ∧
      List.Forall₂ (Denotes store') (Edged.edges read') children ∧
      (∀ answer, rewrite presented = some answer → Denotes store' answer tree) ∧
      (rewrite presented = none → tree = .node (Edged.blank read) row.facts children)

/-- The answers are rows of the store at hand, for a row whose edges are. -/
def Answers (rewrite : HirExpression Span SideRange → Option HirValueId)
    (store : HirExpressionStore Span) : Prop :=
  ∀ store' row read answer, Extends store store' → Closed store' →
    resolveKind store' row.kind = some read →
    (∀ child ∈ Edged.edges read, child.index < store'.rows.length) →
    rewrite row = some answer → answer.index < store'.rows.length

/-- A copy of a row with other edges is never answered with the id of the row itself. -/
def NeverItself (rewrite : HirExpression Span SideRange → Option HirValueId)
    (store : HirExpressionStore Span) : Prop :=
  ∀ (id : HirValueId) row read presented read' store', store.rows[id.index]? = some row →
    resolveKind store row.kind = some read → Extends store store' →
    presented.facts = row.facts → resolveKind store' presented.kind = some read' →
    Edged.blank read' = Edged.blank read → read' ≠ read → rewrite presented ≠ some id

def tableLength (store : HirExpressionStore Span) : HirCapacityResource → Nat
  | .ExpressionRows => store.rows.length
  | .ValueEdges => store.values.length
  | .StructFields => store.structFields.length
  | .VariantFields => store.variantFields.length
  | .MapEntries => store.mapEntries.length
  | .PlaceProjections => store.projections.length

/-- The store is frozen, or the table is at least half full. -/
def Reported (store : HirExpressionStore Span) : HirConstructionFailure Span → Prop
  | .frozenStore => store.frozen = true
  | .capacity resource _ => 2147483648 ≤ tableLength store resource

/-- A state on the way: the store only grew and is acyclic still, and each row added is a copy of
an old row, with its facts and its mapping. -/
structure Underway (initial state : RewriteState Span) : Prop where
  grown : Extends initial.store state.store
  closed : Closed state.store
  spans : ∀ id : HirValueId, id.index < initial.store.rows.length →
    state.sideTable.hirToAst id = initial.sideTable.hirToAst id
  rebuilt : ∀ index row, initial.store.rows.length ≤ index →
    state.store.rows[index]? = some row → ∃ id : HirValueId, ∃ original read read',
      initial.store.rows[id.index]? = some original ∧ row.facts = original.facts ∧
      resolveKind initial.store original.kind = some read ∧
      resolveKind state.store row.kind = some read' ∧ Edged.blank read' = Edged.blank read ∧
      ∀ span, (initial.sideTable.hirToAst id).or original.facts.span = some span →
        state.sideTable.hirToAst ⟨index⟩ = some span ∧
          (⟨index⟩ : HirValueId) ∈ state.sideTable.astToHir span

/-- A later state on the way. -/
def After (initial state state' : RewriteState Span) : Prop :=
  Underway initial state' ∧ Extends state.store state'.store

/-- What one id is rewritten to. -/
structure Outcome (rewrite : HirExpression Span SideRange → Option HirValueId)
    (initial : RewriteState Span) (depth : Nat) (store : HirExpressionStore Span)
    (id id' : HirValueId) : Prop where
  tree : ∃ tree, Denotes store id' tree ∧ Substituted rewrite initial.store store depth id tree
  same : NeverItself rewrite initial.store → id' = id → Kept rewrite initial.store id

/-- What a list of edges is rewritten to, and whether one of them changed. -/
structure EdgesRewritten (rewrite : HirExpression Span SideRange → Option HirValueId)
    (initial : RewriteState Span) (depth : Nat) (ids ids' : List HirValueId) (changed : Bool)
    (state state' : RewriteState Span) : Prop where
  after : After initial state state'
  outcomes : List.Forall₂ (Outcome rewrite initial depth state'.store) ids ids'
  kept : (∀ id ∈ ids, Kept rewrite initial.store id) → changed = false ∧ state' = state

/-- What a thing with edges is rewritten to. -/
structure Rewritten {α : Type} [Edged α]
    (rewrite : HirExpression Span SideRange → Option HirValueId) (initial : RewriteState Span)
    (depth : Nat) (x x' : α) (changed : Bool) (state state' : RewriteState Span) : Prop where
  edges : EdgesRewritten rewrite initial depth (Edged.edges x) (Edged.edges x') changed state state'
  blank : Edged.blank x' = Edged.blank x
  same : changed = false → x' = x
  other : changed = true → x' ≠ x

section Promises

variable {rewrite : HirExpression Span SideRange → Option HirValueId}
  {initial state state' state'' : RewriteState Span}
  {store store' store'' : HirExpressionStore Span}
  {depth : Nat} {id id' : HirValueId}

theorem After.trans (h : After initial state state') (h' : After initial state' state'') :
    After initial state state'' :=
  ⟨h'.1, h.2.trans h'.2⟩

theorem Substituted.mono {tree : ExpressionTree Span} (hstore : Extends store' store'')
    (h : Substituted rewrite store store' depth id tree) :
    Substituted rewrite store store'' depth id tree := by
  induction depth generalizing id tree with
  | zero => exact False.elim h
  | succ depth ih =>
      obtain ⟨row, read, presented, read', children, hrow, hread, hfacts, hread', hblank, hchildren,
        hdenote, hanswer, hnone⟩ := h
      exact ⟨row, read, presented, read', children, hrow, hread, hfacts,
        resolveKind_mono hstore hread', hblank, hchildren.imp fun _ _ h => ih h,
        hdenote.imp fun _ _ h => h.mono hstore, fun answer h => (hanswer answer h).mono hstore,
        hnone⟩

theorem Outcome.mono (hstore : Extends store store')
    (h : Outcome rewrite initial depth store id id') :
    Outcome rewrite initial depth store' id id' := by
  obtain ⟨tree, hdenote, hsubstituted⟩ := h.tree
  exact ⟨⟨tree, hdenote.mono hstore, hsubstituted.mono hstore⟩, h.same⟩

theorem EdgesRewritten.append {ids ids' more more' : List HirValueId} {changed changed' : Bool}
    (h : EdgesRewritten rewrite initial depth ids ids' changed state state')
    (h' : EdgesRewritten rewrite initial depth more more' changed' state' state'') :
    EdgesRewritten rewrite initial depth (ids ++ more) (ids' ++ more') (changed || changed') state
      state'' := by
  refine ⟨h.after.trans h'.after, ?_, fun hkept => ?_⟩
  · exact List.rel_append (h.outcomes.imp fun _ _ hout => hout.mono h'.after.2) h'.outcomes
  · obtain ⟨hfalse, hstate⟩ := h.kept fun id hid => hkept id (List.mem_append_left more hid)
    obtain ⟨hfalse', hstate'⟩ := h'.kept fun id hid => hkept id (List.mem_append_right ids hid)
    rw [hfalse, hfalse', hstate', hstate]
    exact ⟨rfl, rfl⟩

theorem EdgesRewritten.nil (h : Underway initial state) :
    EdgesRewritten rewrite initial depth [] [] false state state :=
  ⟨⟨h, Extends.refl state.store⟩, .nil, fun _ => ⟨rfl, rfl⟩⟩

theorem outcomes_denote {ids ids' : List HirValueId}
    (h : List.Forall₂ (Outcome rewrite initial depth store) ids ids') :
    ∃ children, List.Forall₂ (Substituted rewrite initial.store store depth) ids children ∧
      List.Forall₂ (Denotes store) ids' children := by
  induction h with
  | nil => exact ⟨[], .nil, .nil⟩
  | cons hout _ ih =>
      obtain ⟨tree, hdenote, hsubstituted⟩ := hout.tree
      obtain ⟨children, hsubs, hdens⟩ := ih
      exact ⟨tree :: children, .cons hsubstituted hsubs, .cons hdenote hdens⟩

end Promises

/-! ## Appending -/

/-- Each table is the field it names. -/
structure SideTable.Lawful {α : Type} (table : SideTable Span α) : Prop where
  items : ∀ store items, table.items (table.withItems store items) = items
  rows : ∀ store items, (table.withItems store items).rows = store.rows
  extends_append : ∀ store more,
    Extends store (table.withItems store (table.items store ++ more))
  length : ∀ store, tableLength store table.resource = (table.items store).length
  grows : ∀ store store', Extends store store' → table.items store <+: table.items store'

theorem valueTable_lawful : (valueTable : SideTable Span HirValueId).Lawful where
  items _ _ := rfl
  rows _ _ := rfl
  extends_append store more := { Extends.refl store with values := List.prefix_append _ more }
  length _ := rfl
  grows _ _ h := h.values

theorem structFieldTable_lawful :
    (structFieldTable : SideTable Span (FieldId × HirValueId)).Lawful where
  items _ _ := rfl
  rows _ _ := rfl
  extends_append store more := { Extends.refl store with structFields := List.prefix_append _ more }
  length _ := rfl
  grows _ _ h := h.structFields

theorem variantFieldTable_lawful : (variantFieldTable : SideTable Span HirVariantField).Lawful where
  items _ _ := rfl
  rows _ _ := rfl
  extends_append store more :=
    { Extends.refl store with variantFields := List.prefix_append _ more }
  length _ := rfl
  grows _ _ h := h.variantFields

theorem mapEntryTable_lawful : (mapEntryTable : SideTable Span HirMapEntry).Lawful where
  items _ _ := rfl
  rows _ _ := rfl
  extends_append store more := { Extends.refl store with mapEntries := List.prefix_append _ more }
  length _ := rfl
  grows _ _ h := h.mapEntries

theorem projectionTable_lawful : (projectionTable : SideTable Span HirProjection).Lawful where
  items _ _ := rfl
  rows _ _ := rfl
  extends_append store more := { Extends.refl store with projections := List.prefix_append _ more }
  length _ := rfl
  grows _ _ h := h.projections

section Append

variable {rewrite : HirExpression Span SideRange → Option HirValueId}
  {initial state state' : RewriteState Span} {depth : Nat} {α : Type}

theorem Underway.side (h : Underway initial state) {store : HirExpressionStore Span}
    (hgrown : Extends state.store store) (hrows : store.rows = state.store.rows) :
    Underway initial { state with store } := by
  refine ⟨h.grown.trans hgrown, fun id hid => ?_, h.spans, fun index row hindex hrow => ?_⟩
  · rw [hrows] at hid
    obtain ⟨tree, htree⟩ := h.closed id hid
    exact ⟨tree, htree.mono hgrown⟩
  · have hrow' : state.store.rows[index]? = some row := by
      rw [← hrows]
      exact hrow
    obtain ⟨id, original, read, read', horiginal, hfacts, hread, hread', hblank, hspan⟩ :=
      h.rebuilt index row hindex hrow'
    exact ⟨id, original, read, read', horiginal, hfacts, hread, resolveKind_mono hgrown hread',
      hblank, hspan⟩

/-- A new range reads what was appended. -/
theorem appendItems_ensures {table : SideTable Span α} (hlawful : table.Lawful) {items : List α}
    (h : Underway initial state) (hfits : items.length ≤ (table.items state.store).length)
    (span : Option Span) :
    Ensures (appendItems table items span) state
      (fun range state' => After initial state state' ∧
        sliceForRange (table.items state'.store) range = some items)
      fun failure state' => After initial state state' ∧ Reported state'.store failure := by
  refine Ensures.change (fun range state' hok => ?_) fun failure herror => ?_
  · obtain ⟨range', hrange, hstate⟩ := bind_eq_ok.mp hok
    cases hstate
    have hgrown := hlawful.extends_append state.store items
    refine ⟨⟨h.side hgrown (hlawful.rows _ _), hgrown⟩, ?_⟩
    rw [checkedSideRange] at hrange
    split at hrange
    · cases hrange
    · split at hrange
      · next hfew =>
          cases hrange
          rw [hlawful.items, sliceForRange, List.length_append, if_pos ⟨hfew, le_refl _⟩,
            List.drop_left, List.take_length]
      · cases hrange
  · refine ⟨⟨h, Extends.refl state.store⟩, ?_⟩
    cases hrange : checkedSideRange (α := α) state.store (table.items state.store).length
        items.length table.resource span with
    | ok range =>
        rw [hrange] at herror
        cases herror
    | error failure' =>
        rw [hrange] at herror
        cases herror
        rw [checkedSideRange] at hrange
        split at hrange
        · next hfrozen =>
            cases hrange
            exact hfrozen
        · split at hrange
          · cases hrange
          · next hfull =>
              cases hrange
              show 2147483648 ≤ tableLength state.store table.resource
              rw [hlawful.length]
              omega

end Append

/-! ## The loop over a side range -/

section Ranges

variable {rewrite : HirExpression Span SideRange → Option HirValueId}
  {initial state state' state'' : RewriteState Span} {depth : Nat} {α : Type} [Edged α]

/-- Nothing below this failed but the tables. -/
def Failed (initial state : RewriteState Span) (failure : HirConstructionFailure Span)
    (state' : RewriteState Span) : Prop :=
  After initial state state' ∧ Reported state'.store failure

theorem Failed.before {failure : HirConstructionFailure Span} (h : After initial state state')
    (hfailed : Failed initial state' failure state'') : Failed initial state failure state'' :=
  ⟨h.trans hfailed.1, hfailed.2⟩

theorem Rewritten.after {x x' : α} {changed : Bool}
    (h : Rewritten rewrite initial depth x x' changed state state') : After initial state state' :=
  h.edges.after

theorem Rewritten.later {x x' : α} (h : Rewritten rewrite initial depth x x' true state state')
    (hafter : After initial state' state'') :
    Rewritten rewrite initial depth x x' true state state'' := by
  refine ⟨⟨h.after.trans hafter, h.edges.outcomes.imp fun _ _ hout => hout.mono hafter.2,
    fun hkept => ?_⟩, h.blank, h.same, h.other⟩
  cases (h.edges.kept hkept).1

theorem Rewritten.lift {β : Type} [Edged β] {f : α → β} (hinj : ∀ x y, f x = f y → x = y)
    (hedges : ∀ x, Edged.edges (f x) = Edged.edges x)
    (hblank : ∀ x, Edged.blank (f x) = f (Edged.blank x)) {x x' : α} {changed : Bool}
    (h : Rewritten rewrite initial depth x x' changed state state') :
    Rewritten rewrite initial depth (f x) (f x') changed state state' := by
  refine ⟨?_, ?_, fun hsame => ?_, fun hother heq => h.other hother (hinj x' x heq)⟩
  · rw [hedges, hedges]
    exact h.edges
  · rw [hblank, hblank, h.blank]
  · rw [h.same hsame]

theorem Rewritten.nil (h : Underway initial state) :
    Rewritten rewrite initial depth ([] : List α) [] false state state :=
  ⟨EdgesRewritten.nil h, rfl, fun _ => rfl, fun hother => nomatch hother⟩

theorem Rewritten.snoc {xs xs' : List α} {x x' : α} {changed changed' : Bool}
    (h : Rewritten rewrite initial depth xs xs' changed state state')
    (h' : Rewritten rewrite initial depth x x' changed' state' state'') :
    Rewritten rewrite initial depth (xs ++ [x]) (xs' ++ [x']) (changed || changed') state
      state'' := by
  have hedges : ∀ (xs : List α) x, Edged.edges (xs ++ [x]) = Edged.edges xs ++ Edged.edges x := by
    intro xs x
    show (xs ++ [x]).flatMap Edged.edges = xs.flatMap Edged.edges ++ Edged.edges x
    rw [List.flatMap_append, List.flatMap_singleton]
  refine ⟨?_, ?_, fun hsame => ?_, fun hother heq => ?_⟩
  · rw [hedges, hedges]
    exact h.edges.append h'.edges
  · show (xs' ++ [x']).map Edged.blank = (xs ++ [x]).map Edged.blank
    have hblank : xs'.map Edged.blank = xs.map Edged.blank := h.blank
    rw [List.map_append, List.map_append, hblank, List.map_singleton, List.map_singleton, h'.blank]
  · obtain ⟨hsame, hsame'⟩ := Bool.or_eq_false_iff.mp hsame
    rw [h.same hsame, h'.same hsame']
  · obtain ⟨hxs, hx⟩ := List.append_inj' heq rfl
    rcases (Bool.or_eq_true _ _).mp hother with hother | hother
    · exact h.other hother hxs
    · cases hx
      exact h'.other hother rfl

/-- What rewriting an item promises. -/
def ItemRewrites (rewrite : HirExpression Span SideRange → Option HirValueId)
    (initial : RewriteState Span) (depth : Nat) (rewriteItem : α → Rewriting Span (Option α))
    (x : α) : Prop :=
  ∀ state, Underway initial state → Ensures (rewriteItem x) state
    (fun out state' => Rewritten rewrite initial depth x (out.getD x) out.isSome state state')
    (Failed initial state)

omit [Edged α] in
theorem length_of_sliceForRange {items xs : List α} {range : SideRange α}
    (h : sliceForRange items range = some xs) :
    xs.length = range.length ∧ xs.length ≤ items.length := by
  rw [sliceForRange] at h
  split at h
  · next hfits =>
      cases h
      rw [List.length_take, List.length_drop]
      omega
  · cases h

/-- The loop after some items: those before are rewritten, and in the copy where there is one. -/
def LoopAfter (rewrite : HirExpression Span SideRange → Option HirValueId)
    (initial : RewriteState Span) (depth : Nat) (xs : List α) (state : RewriteState Span)
    (done : List Nat) (changed : Option (List α)) (state' : RewriteState Span) : Prop :=
  ∃ before before' rest, xs = before ++ rest ∧ before.length = done.length ∧
    changed.getD xs = before' ++ rest ∧
    Rewritten rewrite initial depth before before' changed.isSome state state'

theorem Rewritten.length {xs xs' : List α} {changed : Bool}
    (h : Rewritten rewrite initial depth xs xs' changed state state') :
    xs'.length = xs.length := by
  have hblank : xs'.map Edged.blank = xs.map Edged.blank := h.blank
  have hlengths := congrArg List.length hblank
  rw [List.length_map, List.length_map] at hlengths
  exact hlengths

theorem LoopAfter.item {xs : List α} {done more : List Nat} {index : Nat}
    {changed : Option (List α)} (h : LoopAfter rewrite initial depth xs state done changed state')
    (hrange : List.range xs.length = done ++ index :: more) :
    ∃ before before' x rest, xs = before ++ x :: rest ∧ before.length = done.length ∧
      index = before.length ∧ changed.getD xs = before' ++ x :: rest ∧
      Rewritten rewrite initial depth before before' changed.isSome state state' := by
  obtain ⟨before, before', rest, hxs, hbefore, hchanged, hrewritten⟩ := h
  have hindex : (List.range xs.length)[done.length]? = some index := by
    rw [hrange, List.getElem?_append_right (le_refl _), Nat.sub_self]
    rfl
  obtain ⟨hlt, hindex⟩ := List.getElem?_eq_some_iff.mp hindex
  rw [List.getElem_range] at hindex
  rw [List.length_range] at hlt
  cases rest with
  | nil =>
      rw [hxs, List.append_nil] at hlt
      omega
  | cons x rest =>
      exact ⟨before, before', x, rest, hxs, hbefore, by omega, hchanged, hrewritten⟩

/-- By the items before the one at hand. -/
theorem rewriteItems_ensures {table : SideTable Span α} (hlawful : table.Lawful)
    {rewriteItem : α → Rewriting Span (Option α)} {range : SideRange α} {xs : List α}
    (hread : sliceForRange (table.items initial.store) range = some xs)
    (hitems : ∀ x ∈ xs, ItemRewrites rewrite initial depth rewriteItem x)
    (h : Underway initial state) :
    Ensures (rewriteItems table rewriteItem range) state
      (fun changed state' =>
        Rewritten rewrite initial depth xs (changed.getD xs) changed.isSome state state')
      (Failed initial state) := by
  obtain ⟨hlength, _⟩ := length_of_sliceForRange hread
  have hreads : ∀ state, Underway initial state →
      sliceForRange (table.items state.store) range = some xs :=
    fun state h => sliceForRange_mono (hlawful.grows _ _ h.grown) hread
  have hloop : Ensures (rewriteItems table rewriteItem range) state
      (LoopAfter rewrite initial depth xs state (List.range xs.length)) (Failed initial state) := by
    rw [rewriteItems, ← hlength]
    refine Ensures.foldlM (LoopAfter rewrite initial depth xs state) ?_ ?_
    · intro done index more changed mid hrange hafter
      obtain ⟨before, before', x, rest, hxs, hbefore, hindex, hchanged, hrewritten⟩ :=
        hafter.item hrange
      have hmid := hrewritten.after
      have hx : xs[index]? = some x := by
        rw [hxs, hindex, List.getElem?_append_right (le_refl _), Nat.sub_self]
        rfl
      have hmem : x ∈ xs := by
        rw [hxs]
        exact List.mem_append_right before List.mem_cons_self
      have hdone : (before ++ [x]).length = (done ++ [index]).length := by
        rw [List.length_append, List.length_append, hbefore]
        rfl
      have hsplit : xs = before ++ [x] ++ rest := by
        rw [hxs, List.append_assoc]
        rfl
      refine Ensures.readBind (hreads mid hmid.1) (Ensures.readBind hx ?_)
      have hitem := (hitems x hmem mid hmid.1).mono (fun _ _ h => h)
        fun _ _ hfailed => Failed.before hmid hfailed
      refine Ensures.bind hitem fun out last hout => ?_
      have hnext := hrewritten.snoc hout
      cases out with
      | none =>
          rw [Option.isSome_none, Bool.or_false] at hnext
          refine Ensures.pure ⟨before ++ [x], before' ++ [x], rest, hsplit, hdone, ?_, hnext⟩
          rw [hchanged, List.append_assoc]
          rfl
      | some x' =>
          have hset : (changed.getD xs).set index x' = before' ++ [x'] ++ rest := by
            rw [hchanged, List.set_append_right _ _ (by rw [hrewritten.length]; omega),
              hrewritten.length, hindex, Nat.sub_self, List.append_assoc]
            rfl
          have hfinal : LoopAfter rewrite initial depth xs state (done ++ [index])
              (some ((changed.getD xs).set index x')) last := by
            refine ⟨before ++ [x], before' ++ [x'], rest, hsplit, hdone, hset, ?_⟩
            rw [Option.isSome_some, Bool.or_true] at hnext
            exact hnext
          cases changed with
          | some copy => exact Ensures.pure hfinal
          | none => exact Ensures.readBind (hreads last hout.after.1) (Ensures.pure hfinal)
    · exact ⟨[], [], xs, rfl, rfl, rfl, Rewritten.nil h⟩
  refine hloop.mono (fun changed state' hafter => ?_) fun _ _ => id
  obtain ⟨before, before', rest, hxs, hbefore, hchanged, hrewritten⟩ := hafter
  rw [List.length_range] at hbefore
  have hrest : rest = [] := by
    have hlengths := congrArg List.length hxs
    rw [List.length_append] at hlengths
    exact List.eq_nil_of_length_eq_zero (by omega)
  rw [hrest, List.append_nil] at hxs hchanged
  rw [hchanged, hxs]
  exact hrewritten

theorem rewriteRange_ensures {table : SideTable Span α} (hlawful : table.Lawful)
    {rewriteItem : α → Rewriting Span (Option α)} {range : SideRange α} {xs : List α}
    (hread : sliceForRange (table.items initial.store) range = some xs)
    (hitems : ∀ x ∈ xs, ItemRewrites rewrite initial depth rewriteItem x)
    (h : Underway initial state) (span : Option Span) :
    Ensures (rewriteRange table rewriteItem range span) state
      (fun out state' => ∃ ys, sliceForRange (table.items state'.store) out.1 = some ys ∧
        Rewritten rewrite initial depth xs ys out.2 state state' ∧ (out.2 = false → out.1 = range))
      (Failed initial state) := by
  obtain ⟨_, hfits⟩ := length_of_sliceForRange hread
  refine Ensures.bind (rewriteItems_ensures hlawful hread hitems h) fun changed mid hrewritten => ?_
  cases changed with
  | none =>
      refine Ensures.pure ⟨xs, ?_, hrewritten, fun _ => rfl⟩
      exact sliceForRange_mono (hlawful.grows _ _ hrewritten.after.1.grown) hread
  | some ys =>
      have hlength := (hlawful.grows _ _ hrewritten.after.1.grown).length_le
      have hys : ys.length = xs.length := hrewritten.length
      have happend := appendItems_ensures hlawful hrewritten.after.1
        (show ys.length ≤ (table.items mid.store).length by omega) span
      refine Ensures.bind (happend.mono (fun _ _ h => h) fun _ _ hfailed =>
        Failed.before hrewritten.after hfailed) fun range' last hrange => ?_
      exact Ensures.pure ⟨ys, hrange.2, hrewritten.later hrange.1, fun hsame => nomatch hsame⟩

end Ranges

/-! ## The edges of a row -/

section Kinds

variable {rewrite : HirExpression Span SideRange → Option HirValueId}
  {initial state state' : RewriteState Span} {depth : Nat}
  {rewriteExpression : HirValueId → Rewriting Span HirValueId}

/-- What rewriting an id promises. -/
def Rewrites (rewrite : HirExpression Span SideRange → Option HirValueId)
    (initial : RewriteState Span) (depth : Nat)
    (rewriteExpression : HirValueId → Rewriting Span HirValueId) (id : HirValueId) : Prop :=
  ∀ state, Underway initial state → Ensures (rewriteExpression id) state
    (fun id' state' =>
      Rewritten rewrite initial depth id id' (decide (id' ≠ id)) state state')
    (Failed initial state)

theorem rewriteEdge_ensures {id : HirValueId}
    (hid : Rewrites rewrite initial depth rewriteExpression id) (h : Underway initial state) :
    Ensures (rewriteEdge rewriteExpression id) state
      (fun out state' => Rewritten rewrite initial depth id out.1 out.2 state state')
      (Failed initial state) :=
  Ensures.bind (hid state h) fun _ _ hrewritten => Ensures.pure hrewritten

theorem Rewritten.item {α : Type} [Edged α] {f : HirValueId → α}
    (hinj : ∀ x y, f x = f y → x = y) (hedges : ∀ x, Edged.edges (f x) = [x])
    (hblank : ∀ x, Edged.blank (f x) = f ⟨0⟩) {id id' : HirValueId}
    (h : Rewritten rewrite initial depth id id' (decide (id' ≠ id)) state state') :
    Rewritten rewrite initial depth (f id)
      ((if id' ≠ id then some (f id') else none).getD (f id))
      (if id' ≠ id then some (f id') else none).isSome state state' := by
  by_cases hsame : id' = id
  · rw [if_neg (not_not.mpr hsame)]
    have hlift := h.lift hinj hedges hblank
    rw [decide_eq_false (not_not.mpr hsame), hsame] at hlift
    exact hlift
  · rw [if_pos hsame]
    have hlift := h.lift hinj hedges hblank
    rw [decide_eq_true hsame] at hlift
    exact hlift

theorem rewriteValue_rewrites {id : HirValueId}
    (hid : Rewrites rewrite initial depth rewriteExpression id) :
    ItemRewrites rewrite initial depth (rewriteValue rewriteExpression) id := by
  intro state h
  refine Ensures.bind (hid state h) fun id' state' hrewritten => Ensures.pure ?_
  exact hrewritten.item (f := fun id => id) (fun _ _ heq => heq) (fun _ => rfl) fun _ => rfl

theorem rewriteStructField_rewrites {field : FieldId × HirValueId}
    (hid : Rewrites rewrite initial depth rewriteExpression field.2) :
    ItemRewrites rewrite initial depth (rewriteStructField rewriteExpression) field := by
  intro state h
  refine Ensures.bind (hid state h) fun id' state' hrewritten => Ensures.pure ?_
  exact hrewritten.item (f := fun value => (field.1, value))
    (fun _ _ heq => (Prod.mk.injEq _ _ _ _ ▸ heq).2) (fun _ => rfl) fun _ => rfl

theorem rewriteVariantField_rewrites {field : HirVariantField}
    (hid : Rewrites rewrite initial depth rewriteExpression field.value) :
    ItemRewrites rewrite initial depth (rewriteVariantField rewriteExpression) field := by
  intro state h
  refine Ensures.bind (hid state h) fun id' state' hrewritten => Ensures.pure ?_
  exact hrewritten.item (f := fun value => { field with value })
    (fun _ _ heq => congrArg HirVariantField.value heq) (fun _ => rfl) fun _ => rfl

theorem rewriteProjection_rewrites {projection : HirProjection}
    (hids : ∀ id ∈ Edged.edges projection, Rewrites rewrite initial depth rewriteExpression id) :
    ItemRewrites rewrite initial depth (rewriteProjection rewriteExpression) projection := by
  intro state h
  cases projection with
  | Field field =>
      exact Ensures.pure ⟨EdgesRewritten.nil h, rfl, fun _ => rfl, fun hother => nomatch hother⟩
  | Index value =>
      refine Ensures.bind (hids value List.mem_cons_self state h) fun id' state' hrewritten =>
        Ensures.pure ?_
      exact hrewritten.item (f := HirProjection.Index) (fun _ _ heq => by cases heq; rfl)
        (fun _ => rfl) fun _ => rfl

theorem Rewritten.pair {key key' value value' : HirValueId} {changed changed' : Bool}
    {mid : RewriteState Span}
    (h : Rewritten rewrite initial depth key key' changed state mid)
    (h' : Rewritten rewrite initial depth value value' changed' mid state') :
    Rewritten rewrite initial depth (⟨key, value⟩ : HirMapEntry) ⟨key', value'⟩
      (changed || changed') state state' := by
  refine ⟨h.edges.append h'.edges, rfl, fun hsame => ?_, fun hother heq => ?_⟩
  · obtain ⟨hsame, hsame'⟩ := Bool.or_eq_false_iff.mp hsame
    rw [h.same hsame, h'.same hsame']
  · cases heq
    rcases (Bool.or_eq_true _ _).mp hother with hother | hother
    · exact h.other hother rfl
    · exact h'.other hother rfl

theorem rewriteMapEntry_rewrites {entry : HirMapEntry}
    (hids : ∀ id ∈ Edged.edges entry, Rewrites rewrite initial depth rewriteExpression id) :
    ItemRewrites rewrite initial depth (rewriteMapEntry rewriteExpression) entry := by
  intro state h
  refine Ensures.bind (hids entry.key List.mem_cons_self state h) fun key mid hkey => ?_
  have hvalue := (hids entry.value (List.mem_cons_of_mem _ List.mem_cons_self) mid
    hkey.after.1).mono (fun _ _ h => h) fun _ _ hfailed => Failed.before hkey.after hfailed
  refine Ensures.bind hvalue fun value last hvalue => Ensures.pure ?_
  have hpair := hkey.pair hvalue
  by_cases hsame : key ≠ entry.key ∨ value ≠ entry.value
  · rw [if_pos hsame]
    have hchanged : (decide (key ≠ entry.key) || decide (value ≠ entry.value)) = true := by
      rw [Bool.or_eq_true, decide_eq_true_iff, decide_eq_true_iff]
      exact hsame
    rw [hchanged] at hpair
    exact hpair
  · rw [if_neg hsame]
    obtain ⟨hkeySame, hvalueSame⟩ := not_or.mp hsame
    rw [decide_eq_false hkeySame, decide_eq_false hvalueSame, not_not.mp hkeySame,
      not_not.mp hvalueSame] at hpair
    exact hpair

/-- A row's kind, rewritten: what it reads as, and that an unchanged one is the old one. -/
def KindRewritten (rewrite : HirExpression Span SideRange → Option HirValueId)
    (initial : RewriteState Span) (depth : Nat) (kind : HirExpressionKind SideRange)
    (read : HirExpressionKind List) (state : RewriteState Span)
    (out : HirExpressionKind SideRange × Bool) (state' : RewriteState Span) : Prop :=
  ∃ read', resolveKind state'.store out.1 = some read' ∧
    Rewritten rewrite initial depth read read' out.2 state state' ∧ (out.2 = false → out.1 = kind)

/-- A kind around a side range. -/
theorem rewriteRange_kind {α : Type} [Edged α] {table : SideTable Span α} (hlawful : table.Lawful)
    {rewriteItem : α → Rewriting Span (Option α)} {range : SideRange α}
    {read : HirExpressionKind List}
    {f : SideRange α → HirExpressionKind SideRange} {g : List α → HirExpressionKind List}
    (hresolve : ∀ store range,
      resolveKind store (f range) = (sliceForRange (table.items store) range).map g)
    (hinj : ∀ x y, g x = g y → x = y) (hedges : ∀ x, Edged.edges (g x) = Edged.edges x)
    (hblank : ∀ x, Edged.blank (g x) = g (Edged.blank x))
    (hread : resolveKind initial.store (f range) = some read)
    (hitems : ∀ x, (∀ id ∈ Edged.edges x, Rewrites rewrite initial depth rewriteExpression id) →
      ItemRewrites rewrite initial depth rewriteItem x)
    (hids : ∀ id ∈ Edged.edges read, Rewrites rewrite initial depth rewriteExpression id)
    (h : Underway initial state) (span : Option Span) :
    Ensures (rewriteRange table rewriteItem range span) state
      (fun out state' => KindRewritten rewrite initial depth (f range) read state (f out.1, out.2)
        state') (Failed initial state) := by
  rw [hresolve] at hread
  obtain ⟨xs, hxs, rfl⟩ := Option.map_eq_some_iff.mp hread
  rw [hedges] at hids
  have hall : ∀ x ∈ xs, ItemRewrites rewrite initial depth rewriteItem x := fun x hx =>
    hitems x fun id hid => hids id (List.mem_flatMap.mpr ⟨x, hx, hid⟩)
  refine (rewriteRange_ensures hlawful hxs hall h span).mono (fun out state' hout => ?_)
    fun _ _ hfailed => hfailed
  obtain ⟨ys, hys, hrewritten, hsame⟩ := hout
  refine ⟨g ys, ?_, hrewritten.lift hinj hedges hblank, fun hfalse => congrArg f (hsame hfalse)⟩
  rw [hresolve, hys]
  rfl

theorem rewriteEdge_kind {id : HirValueId} {f : HirValueId → HirExpressionKind SideRange}
    {g : HirValueId → HirExpressionKind List}
    (hresolve : ∀ (store : HirExpressionStore Span) id, resolveKind store (f id) = some (g id))
    (hinj : ∀ x y, g x = g y → x = y) (hedges : ∀ x, Edged.edges (g x) = [x])
    (hblank : ∀ x, Edged.blank (g x) = g ⟨0⟩)
    (hid : Rewrites rewrite initial depth rewriteExpression id) (h : Underway initial state) :
    Ensures (rewriteEdge rewriteExpression id) state
      (fun out state' => KindRewritten rewrite initial depth (f id) (g id) state (f out.1, out.2)
        state') (Failed initial state) := by
  refine (rewriteEdge_ensures hid h).mono (fun out state' hrewritten => ?_)
    fun _ _ hfailed => hfailed
  exact ⟨g out.1, hresolve _ _, hrewritten.lift hinj hedges hblank, fun hfalse =>
    congrArg f (hrewritten.same hfalse)⟩

theorem rewritePair_kind {left right : HirValueId}
    {f : HirValueId → HirValueId → HirExpressionKind SideRange}
    {g : HirMapEntry → HirExpressionKind List}
    (hresolve : ∀ (store : HirExpressionStore Span) left right,
      resolveKind store (f left right) = some (g ⟨left, right⟩))
    (hinj : ∀ x y, g x = g y → x = y) (hedges : ∀ x, Edged.edges (g x) = [x.key, x.value])
    (hblank : ∀ x, Edged.blank (g x) = g ⟨⟨0⟩, ⟨0⟩⟩)
    (hleft : Rewrites rewrite initial depth rewriteExpression left)
    (hright : Rewrites rewrite initial depth rewriteExpression right)
    (h : Underway initial state) :
    Ensures (do
      let (left, leftChanged) ← rewriteEdge rewriteExpression left
      let (right, rightChanged) ← rewriteEdge rewriteExpression right
      pure (f left right, leftChanged || rightChanged)) state
      (KindRewritten rewrite initial depth (f left right) (g ⟨left, right⟩) state)
      (Failed initial state) := by
  refine Ensures.bind (rewriteEdge_ensures hleft h) fun out mid hout => ?_
  have hnext := (rewriteEdge_ensures hright hout.after.1).mono (fun _ _ h => h)
    fun _ _ hfailed => Failed.before hout.after hfailed
  refine Ensures.bind hnext fun out' last hout' => Ensures.pure ?_
  refine ⟨g ⟨out.1, out'.1⟩, hresolve _ _ _, (hout.pair hout').lift hinj hedges hblank,
    fun hfalse => ?_⟩
  obtain ⟨hfalse, hfalse'⟩ := Bool.or_eq_false_iff.mp hfalse
  rw [hout.same hfalse, hout'.same hfalse']

/-- One case for each layout of edges. -/
theorem rewriteKind_ensures {kind : HirExpressionKind SideRange} {read : HirExpressionKind List}
    (hread : resolveKind initial.store kind = some read)
    (hids : ∀ id ∈ Edged.edges read, Rewrites rewrite initial depth rewriteExpression id)
    (h : Underway initial state) (span : Option Span) :
    Ensures (rewriteKind rewriteExpression kind span) state
      (KindRewritten rewrite initial depth kind read state) (Failed initial state) := by
  have hvalue : ∀ id : HirValueId,
      (∀ edge ∈ Edged.edges id, Rewrites rewrite initial depth rewriteExpression edge) →
      ItemRewrites rewrite initial depth (rewriteValue rewriteExpression) id :=
    fun id hedges => rewriteValue_rewrites (hedges id List.mem_cons_self)
  have hstructField : ∀ field : FieldId × HirValueId,
      (∀ edge ∈ Edged.edges field, Rewrites rewrite initial depth rewriteExpression edge) →
      ItemRewrites rewrite initial depth (rewriteStructField rewriteExpression) field :=
    fun field hedges => rewriteStructField_rewrites (hedges field.2 List.mem_cons_self)
  have hvariantField : ∀ field : HirVariantField,
      (∀ edge ∈ Edged.edges field, Rewrites rewrite initial depth rewriteExpression edge) →
      ItemRewrites rewrite initial depth (rewriteVariantField rewriteExpression) field :=
    fun field hedges => rewriteVariantField_rewrites (hedges field.value List.mem_cons_self)
  cases kind with
  | Load place =>
      refine Ensures.bind (Ensures.bind (rewriteRange_kind projectionTable_lawful
        (f := fun projections => .Load ⟨place.root, projections⟩)
        (g := fun projections => .Load ⟨place.root, projections⟩) (fun _ _ => rfl)
        (fun _ _ heq => by cases heq; rfl) (fun _ => rfl) (fun _ => rfl) hread
        (fun _ => rewriteProjection_rewrites) hids h span)
        fun _ _ hout => Ensures.pure hout) fun _ _ hout => Ensures.pure hout
  | Copy place =>
      refine Ensures.bind (Ensures.bind (rewriteRange_kind projectionTable_lawful
        (f := fun projections => .Copy ⟨place.root, projections⟩)
        (g := fun projections => .Copy ⟨place.root, projections⟩) (fun _ _ => rfl)
        (fun _ _ heq => by cases heq; rfl) (fun _ => rfl) (fun _ => rfl) hread
        (fun _ => rewriteProjection_rewrites) hids h span)
        fun _ _ hout => Ensures.pure hout) fun _ _ hout => Ensures.pure hout
  | Collection elements =>
      refine Ensures.bind (rewriteRange_kind valueTable_lawful
        (f := .Collection) (g := .Collection) (fun _ _ => rfl)
        (fun _ _ heq => by cases heq; rfl) (fun _ => rfl) (fun _ => rfl) hread
        hvalue hids h span) fun _ _ hout => Ensures.pure hout
  | StructConstruct structId fields =>
      refine Ensures.bind (rewriteRange_kind structFieldTable_lawful
        (f := .StructConstruct structId) (g := .StructConstruct structId) (fun _ _ => rfl)
        (fun _ _ heq => by cases heq; rfl) (fun _ => rfl) (fun _ => rfl) hread
        hstructField hids h span) fun _ _ hout => Ensures.pure hout
  | VariantConstruct carrier variantIndex fields =>
      refine Ensures.bind (rewriteRange_kind variantFieldTable_lawful
        (f := .VariantConstruct carrier variantIndex)
        (g := .VariantConstruct carrier variantIndex) (fun _ _ => rfl)
        (fun _ _ heq => by cases heq; rfl) (fun _ => rfl) (fun _ => rfl) hread
        hvariantField hids h span) fun _ _ hout => Ensures.pure hout
  | RouteConstruct choiceId variantIndex fields futureInput =>
      refine Ensures.bind (rewriteRange_kind variantFieldTable_lawful
        (f := fun fields => .RouteConstruct choiceId variantIndex fields futureInput)
        (g := fun fields => .RouteConstruct choiceId variantIndex fields futureInput)
        (fun _ _ => rfl) (fun _ _ heq => by cases heq; rfl) (fun _ => rfl) (fun _ => rfl) hread
        hvariantField hids h span) fun _ _ hout => Ensures.pure hout
  | MapLiteral entries =>
      refine Ensures.bind (rewriteRange_kind mapEntryTable_lawful
        (f := .MapLiteral) (g := .MapLiteral) (fun _ _ => rfl)
        (fun _ _ heq => by cases heq; rfl) (fun _ => rfl) (fun _ => rfl) hread
        (fun _ => rewriteMapEntry_rewrites) hids h span) fun _ _ hout => Ensures.pure hout
  | UnaryOp op operand =>
      cases hread
      refine Ensures.bind (rewriteEdge_kind
        (f := .UnaryOp op)
        (g := .UnaryOp op) (fun _ _ => rfl)
        (fun _ _ heq => by cases heq; rfl) (fun _ => rfl) (fun _ => rfl)
        (hids operand List.mem_cons_self) h) fun _ _ hout => Ensures.pure hout
  | Cast source policy =>
      cases hread
      refine Ensures.bind (rewriteEdge_kind
        (f := fun source => .Cast source policy)
        (g := fun source => .Cast source policy) (fun _ _ => rfl)
        (fun _ _ heq => by cases heq; rfl) (fun _ => rfl) (fun _ => rfl)
        (hids source List.mem_cons_self) h) fun _ _ hout => Ensures.pure hout
  | VariantPayloadGet carrier source variantIndex fieldIndex =>
      cases hread
      refine Ensures.bind (rewriteEdge_kind
        (f := fun source => .VariantPayloadGet carrier source variantIndex fieldIndex)
        (g := fun source => .VariantPayloadGet carrier source variantIndex fieldIndex)
        (fun _ _ => rfl)
        (fun _ _ heq => by cases heq; rfl) (fun _ => rfl) (fun _ => rfl)
        (hids source List.mem_cons_self) h) fun _ _ hout => Ensures.pure hout
  | BinOp left op right =>
      cases hread
      exact rewritePair_kind (f := fun left right => .BinOp left op right)
        (g := fun pair => .BinOp pair.key op pair.value) (fun _ _ _ => rfl)
        (fun x y heq => by cases x; cases y; cases heq; rfl) (fun _ => rfl) (fun _ => rfl)
        (hids left List.mem_cons_self)
        (hids right (List.mem_cons_of_mem _ List.mem_cons_self)) h
  | Range start last =>
      cases hread
      exact rewritePair_kind (f := .Range)
        (g := fun pair => .Range pair.key pair.value) (fun _ _ _ => rfl)
        (fun x y heq => by cases x; cases y; cases heq; rfl) (fun _ => rfl) (fun _ => rfl)
        (hids start List.mem_cons_self)
        (hids last (List.mem_cons_of_mem _ List.mem_cons_self)) h
  | _ =>
      cases hread
      exact Ensures.pure ⟨_, rfl, ⟨EdgesRewritten.nil h, rfl, fun _ => rfl,
        fun hother => nomatch hother⟩, fun _ => rfl⟩

end Kinds

end Moth.Hir.Rows
