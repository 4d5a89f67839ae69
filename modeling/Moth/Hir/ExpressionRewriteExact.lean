import Moth.Hir.ExpressionSubstitution

/-!
# Bottom-up rewriting is substitution

By induction on the depth of a row, over the edges of the row. A row that was
answered is not appended; one that was not is appended if an edge changed, with
the facts of the row it is a copy of and with its mapping.
-/

namespace Moth.Hir.Rows

open Moth.Hir Moth.Lib Stateful

variable {Span : Type}

/-! ## Rows -/

section Rows

variable {rewrite : HirExpression Span SideRange → Option HirValueId}
  {initial state mid state' : RewriteState Span} {depth : Nat} {id : HirValueId}
  {row : HirExpression Span SideRange} {read : HirExpressionKind List}

theorem Kept.child (h : Kept rewrite initial.store id)
    (hrow : initial.store.rows[id.index]? = some row)
    (hread : resolveKind initial.store row.kind = some read) :
    ∀ child ∈ Edged.edges read, Kept rewrite initial.store child :=
  fun _ hchild below hbelow => h below (.edge hrow hread hchild hbelow)

theorem Kept.parent (hrow : initial.store.rows[id.index]? = some row)
    (hread : resolveKind initial.store row.kind = some read)
    (hself : rewrite row = none ∨ rewrite row = some id)
    (hchildren : ∀ child ∈ Edged.edges read, Kept rewrite initial.store child) :
    Kept rewrite initial.store id := by
  intro below hbelow found hfound
  cases hbelow with
  | here =>
      cases hrow.symm.trans hfound
      exact hself
  | edge hrow' hread' hchild hbelow =>
      cases hrow.symm.trans hrow'
      cases hread.symm.trans hread'
      exact hchildren _ hchild below hbelow found hfound

theorem kept_of_same {ids : List HirValueId} {store : HirExpressionStore Span}
    (hnever : NeverItself rewrite initial.store)
    (h : List.Forall₂ (Outcome rewrite initial depth store) ids ids) :
    ∀ child ∈ ids, Kept rewrite initial.store child :=
  fun child hchild => (List.forall₂_same.mp h child hchild).same hnever rfl

theorem substituted_row {kind : HirExpressionKind SideRange} {read' : HirExpressionKind List}
    {tree : ExpressionTree Span} {children : List (ExpressionTree Span)}
    (hrow : initial.store.rows[id.index]? = some row)
    (hread : resolveKind initial.store row.kind = some read)
    (hread' : resolveKind mid.store kind = some read')
    (hblank : Edged.blank read' = Edged.blank read)
    (hsubstituted : List.Forall₂ (Substituted rewrite initial.store mid.store depth)
      (Edged.edges read) children)
    (hdenote : List.Forall₂ (Denotes mid.store) (Edged.edges read') children)
    (hgrown : Extends mid.store state'.store)
    (hanswer : ∀ answer, rewrite { row with kind } = some answer → Denotes state'.store answer tree)
    (hnone : rewrite { row with kind } = none →
      tree = .node (Edged.blank read) row.facts children) :
    Substituted rewrite initial.store state'.store (depth + 1) id tree :=
  ⟨row, read, { row with kind }, read', children, hrow, hread, rfl, resolveKind_mono hgrown hread',
    hblank, hsubstituted.imp fun _ _ h => h.mono hgrown, hdenote.imp fun _ _ h => h.mono hgrown,
    hanswer, hnone⟩

theorem KindRewritten.kept {kind : HirExpressionKind SideRange} {changed : Bool}
    (hrow : initial.store.rows[id.index]? = some row)
    (hread : resolveKind initial.store row.kind = some read)
    (h : KindRewritten rewrite initial depth row.kind read state (kind, changed) mid)
    (hkept : Kept rewrite initial.store id) :
    changed = false ∧ mid = state ∧ (rewrite { row with kind } = none ∨
      rewrite { row with kind } = some id) := by
  obtain ⟨_, _, hrewritten, hsame⟩ := h
  obtain ⟨hfalse, hmid⟩ := hrewritten.edges.kept (hkept.child hrow hread)
  refine ⟨hfalse, hmid, ?_⟩
  have hkind : kind = row.kind := hsame hfalse
  have hpresented : { row with kind } = row := by
    rw [hkind]
  rw [hpresented]
  exact hkept id (.here id) row hrow

theorem KindRewritten.never {kind : HirExpressionKind SideRange} {changed : Bool}
    (hrow : initial.store.rows[id.index]? = some row)
    (hread : resolveKind initial.store row.kind = some read)
    (h : KindRewritten rewrite initial depth row.kind read state (kind, changed) mid)
    (hnever : NeverItself rewrite initial.store)
    (hself : rewrite { row with kind } = some id ∨
      rewrite { row with kind } = none ∧ changed = false) :
    Kept rewrite initial.store id := by
  obtain ⟨read', hread', hrewritten, hsame⟩ := h
  cases changed with
  | true =>
      rcases hself with hself | hself
      · exact absurd hself (hnever id row read { row with kind } read' mid.store hrow hread
          hrewritten.after.1.grown rfl hread' hrewritten.blank (hrewritten.other rfl))
      · cases hself.2
  | false =>
      have hkind : kind = row.kind := hsame rfl
      have hpresented : { row with kind } = row := by
        rw [hkind]
      rw [hpresented] at hself
      have houtcomes := hrewritten.edges.outcomes
      rw [hrewritten.same rfl] at houtcomes
      refine Kept.parent hrow hread ?_ (kept_of_same hnever houtcomes)
      rcases hself with hself | hself
      · exact Or.inr hself
      · exact Or.inl hself.1

theorem rewritten_id {id' : HirValueId} {tree : ExpressionTree Span}
    (hafter : After initial state state') (htree : Denotes state'.store id' tree)
    (hsubstituted : Substituted rewrite initial.store state'.store depth id tree)
    (hsame : NeverItself rewrite initial.store → id' = id → Kept rewrite initial.store id)
    (hkept : Kept rewrite initial.store id → id' = id ∧ state' = state) :
    Rewritten rewrite initial depth id id' (decide (id' ≠ id)) state state' := by
  refine ⟨⟨hafter, .cons ⟨⟨tree, htree, hsubstituted⟩, hsame⟩ .nil, fun hall => ?_⟩, rfl,
    fun hfalse => ?_, fun htrue => ?_⟩
  · obtain ⟨hid, hstate⟩ := hkept (hall id List.mem_cons_self)
    exact ⟨decide_eq_false (not_not.mpr hid), hstate⟩
  · exact not_not.mp (of_decide_eq_false hfalse)
  · exact of_decide_eq_true htrue

end Rows

/-! ## Appending a row -/

section Appending

variable [DecidableEq Span] {rewrite : HirExpression Span SideRange → Option HirValueId}
  {initial state mid state' : RewriteState Span} {depth : Nat} {id : HirValueId}
  {row : HirExpression Span SideRange} {read : HirExpressionKind List}

theorem mapAstToHir_other (sideTable : HirSideTable Span) (astSpan : Option Span)
    {id other : HirValueId} (hne : other ≠ id) :
    (sideTable.mapAstToHir astSpan id).hirToAst other = sideTable.hirToAst other := by
  cases astSpan with
  | none => rfl
  | some span => exact Function.update_of_ne hne _ _

theorem mem_mapAstToHir (sideTable : HirSideTable Span) (astSpan : Option Span)
    {id other : HirValueId} {span : Span} (h : other ∈ sideTable.astToHir span) :
    other ∈ (sideTable.mapAstToHir astSpan id).astToHir span := by
  cases astSpan with
  | none => exact h
  | some span' =>
      show other ∈ Function.update sideTable.astToHir span' _ span
      by_cases heq : span = span'
      · subst heq
        rw [Function.update_self]
        split
        · exact h
        · exact List.mem_append_left _ h
      · rw [Function.update_of_ne heq]
        exact h

theorem mapAstToHir_self (sideTable : HirSideTable Span) (span : Span) (id : HirValueId) :
    (sideTable.mapAstToHir (some span) id).hirToAst id = some span ∧
      id ∈ (sideTable.mapAstToHir (some span) id).astToHir span := by
  refine ⟨Function.update_self _ _ _, ?_⟩
  show id ∈ Function.update sideTable.astToHir span _ span
  rw [Function.update_self]
  split
  · next hmem => exact hmem
  · exact List.mem_append_right _ List.mem_cons_self

/-- The state with a changed copy of a row, mapped as the row is. -/
def RewriteState.withRow (state : RewriteState Span) (row : HirExpression Span SideRange)
    (astSpan : Option Span) : RewriteState Span where
  store := { state.store with rows := state.store.rows ++ [row] }
  sideTable := state.sideTable.mapAstToHir astSpan ⟨state.store.rows.length⟩

theorem withRow_extends (state : RewriteState Span) (row : HirExpression Span SideRange)
    (astSpan : Option Span) : Extends state.store (state.withRow row astSpan).store :=
  { Extends.refl state.store with rows := List.prefix_append _ [row] }

theorem Underway.withRow (h : Underway initial mid)
    (hrow : initial.store.rows[id.index]? = some row)
    (hread : resolveKind initial.store row.kind = some read) {kind : HirExpressionKind SideRange}
    {read' : HirExpressionKind List} (hread' : resolveKind mid.store kind = some read')
    (hblank : Edged.blank read' = Edged.blank read) {children : List (ExpressionTree Span)}
    (hchildren : List.Forall₂ (Denotes mid.store) (Edged.edges read') children) :
    Underway initial (mid.withRow { row with kind }
      ((mid.sideTable.hirToAst id).or row.facts.span)) ∧
      Denotes (mid.withRow { row with kind }
        ((mid.sideTable.hirToAst id).or row.facts.span)).store ⟨mid.store.rows.length⟩
        (.node (Edged.blank read') row.facts children) := by
  have hgrown := withRow_extends mid { row with kind }
    ((mid.sideTable.hirToAst id).or row.facts.span)
  have hnew : (mid.store.rows ++ [{ row with kind }])[mid.store.rows.length]?
      = some { row with kind } := List.getElem?_concat_length
  have hdenotes : Denotes (mid.withRow { row with kind }
      ((mid.sideTable.hirToAst id).or row.facts.span)).store ⟨mid.store.rows.length⟩
      (.node (Edged.blank read') row.facts children) :=
    Denotes.row { row with kind } hnew (resolveKind_mono hgrown hread')
      (hchildren.imp fun _ _ h => h.mono hgrown)
  have hgrownLength := h.grown.rows.length_le
  have hlt := (List.getElem?_eq_some_iff.mp hrow).1
  refine ⟨⟨h.grown.trans hgrown, fun other hother => ?_, fun other hother => ?_,
    fun index found hindex hfound => ?_⟩, hdenotes⟩
  · have hbound : other.index < (mid.store.rows ++ [{ row with kind }]).length := hother
    rw [List.length_append, List.length_singleton] at hbound
    by_cases hold : other.index < mid.store.rows.length
    · obtain ⟨tree, htree⟩ := h.closed other hold
      exact ⟨tree, htree.mono hgrown⟩
    · have heq : other = ⟨mid.store.rows.length⟩ := by
        obtain ⟨index⟩ := other
        have hle : index < mid.store.rows.length + 1 := hbound
        have hge : ¬index < mid.store.rows.length := hold
        rw [show index = mid.store.rows.length by omega]
      rw [heq]
      exact ⟨_, hdenotes⟩
  · rw [← h.spans other hother]
    refine mapAstToHir_other _ _ fun heq => ?_
    rw [heq] at hother
    exact absurd hother (by show ¬mid.store.rows.length < _; omega)
  · have hfound' : (mid.store.rows ++ [{ row with kind }])[index]? = some found := hfound
    by_cases hold : index < mid.store.rows.length
    · rw [List.getElem?_append_left hold] at hfound'
      obtain ⟨source, original, oldRead, newRead, horiginal, hfacts, hold', hnew', hsame, hspan⟩ :=
        h.rebuilt index found hindex hfound'
      refine ⟨source, original, oldRead, newRead, horiginal, hfacts, hold',
        resolveKind_mono hgrown hnew', hsame, fun span heq => ?_⟩
      obtain ⟨hmapped, hmem⟩ := hspan span heq
      refine ⟨?_, mem_mapAstToHir _ _ hmem⟩
      rw [← hmapped]
      refine mapAstToHir_other _ _ fun heq => ?_
      cases heq
      exact absurd hold (lt_irrefl _)
    · have hbound := (List.getElem?_eq_some_iff.mp hfound').1
      rw [List.length_append, List.length_singleton] at hbound
      have heq : index = mid.store.rows.length := by omega
      subst heq
      rw [hnew] at hfound'
      cases hfound'
      refine ⟨id, row, read, read', hrow, rfl, hread, resolveKind_mono hgrown hread', hblank,
        fun span hspan => ?_⟩
      rw [← h.spans id hlt] at hspan
      have hself := mapAstToHir_self mid.sideTable span ⟨mid.store.rows.length⟩
      rw [← hspan] at hself ⊢
      exact hself

omit [DecidableEq Span] in
theorem appendExpression_ensures (h : Underway initial mid) :
    Ensures (appendExpression row) mid
      (fun id' state' => id' = ⟨mid.store.rows.length⟩ ∧
        state' = { mid with store := { mid.store with rows := mid.store.rows ++ [row] } })
      (Failed initial mid) := by
  refine Ensures.change (fun id' state' hok => ?_) fun failure herror => ?_
  · split at hok
    · cases hok
    · split at hok
      · cases hok
        exact ⟨rfl, rfl⟩
      · cases hok
  · refine ⟨⟨h, Extends.refl mid.store⟩, ?_⟩
    split at herror
    · next hfrozen =>
        cases herror
        exact hfrozen
    · split at herror
      · cases herror
      · next hfull =>
          cases herror
          show 2147483648 ≤ mid.store.rows.length
          omega

/-- A changed row without an answer is appended and mapped. -/
theorem append_ensures {kind : HirExpressionKind SideRange}
    (hrow : initial.store.rows[id.index]? = some row)
    (hread : resolveKind initial.store row.kind = some read)
    (h : KindRewritten rewrite initial depth row.kind read state (kind, true) mid)
    (hnone : rewrite { row with kind } = none) :
    Ensures (do
      let astSpan := (← valueAstSpan id).or row.facts.span
      let replacement ← appendExpression { row with kind }
      mapValue astSpan replacement
      pure replacement) mid
      (fun id' state' =>
        Rewritten rewrite initial (depth + 1) id id' (decide (id' ≠ id)) state state')
      (Failed initial mid) := by
  obtain ⟨read', hread', hrewritten, hsame⟩ := h
  obtain ⟨_, hsubstituted, hdenote⟩ := outcomes_denote hrewritten.edges.outcomes
  obtain ⟨hunderway, htree⟩ := hrewritten.after.1.withRow hrow hread hread' hrewritten.blank hdenote
  have hgrown := withRow_extends mid { row with kind }
    ((mid.sideTable.hirToAst id).or row.facts.span)
  have hlt : id.index < mid.store.rows.length :=
    Nat.lt_of_lt_of_le (List.getElem?_eq_some_iff.mp hrow).1
      hrewritten.after.1.grown.rows.length_le
  have hother : (⟨mid.store.rows.length⟩ : HirValueId) ≠ id := by
    intro heq
    rw [← heq] at hlt
    exact lt_irrefl _ hlt
  have hkind : KindRewritten rewrite initial depth row.kind read state (kind, true) mid :=
    ⟨read', hread', hrewritten, hsame⟩
  refine Ensures.readBind rfl (Ensures.bind (appendExpression_ensures hrewritten.after.1)
    fun id' last hlast => ?_)
  obtain ⟨rfl, rfl⟩ := hlast
  have hmap : Ensures (mapValue ((mid.sideTable.hirToAst id).or row.facts.span)
      ⟨mid.store.rows.length⟩) { mid with store := { mid.store with
        rows := mid.store.rows ++ [{ row with kind }] } }
      (fun _ state' => state' = mid.withRow { row with kind }
        ((mid.sideTable.hirToAst id).or row.facts.span)) (Failed initial mid) :=
    Ensures.change (fun _ state' hok => by cases hok; rfl) fun _ herror => nomatch herror
  refine Ensures.bind hmap fun _ state' hstate => ?_
  rw [hstate]
  refine Ensures.pure (rewritten_id ⟨hunderway, hrewritten.after.2.trans hgrown⟩ htree ?_
    (fun _ heq => absurd heq hother) fun hkept => ?_)
  · refine substituted_row hrow hread hread' hrewritten.blank hsubstituted hdenote hgrown
      (fun answer hanswer => ?_) fun _ => ?_
    · rw [hnone] at hanswer
      cases hanswer
    · rw [hrewritten.blank]
  · cases (hkind.kept hrow hread hkept).1

end Appending

/-! ## Whole graphs -/

section Graphs

variable [DecidableEq Span] {rewrite : HirExpression Span SideRange → Option HirValueId}
  {initial state mid : RewriteState Span} {depth : Nat} {id : HirValueId}
  {row : HirExpression Span SideRange} {read : HirExpressionKind List}

omit [DecidableEq Span] in
/-- A row whose edges are rewritten is answered, appended or kept. -/
theorem settle_ensures (hanswers : Answers rewrite initial.store)
    {kind : HirExpressionKind SideRange} {changed : Bool}
    (hrow : initial.store.rows[id.index]? = some row)
    (hread : resolveKind initial.store row.kind = some read)
    (h : KindRewritten rewrite initial depth row.kind read state (kind, changed) mid) :
    (∀ answer, rewrite { row with kind } = some answer →
      Rewritten rewrite initial (depth + 1) id answer (decide (answer ≠ id)) state mid) ∧
    (rewrite { row with kind } = none → changed = false →
      Rewritten rewrite initial (depth + 1) id id (decide (id ≠ id)) state mid) := by
  have hkind := h
  obtain ⟨read', hread', hrewritten, hsame⟩ := h
  obtain ⟨children, hsubstituted, hdenote⟩ := outcomes_denote hrewritten.edges.outcomes
  have hafter := hrewritten.after
  refine ⟨fun answer hanswer => ?_, fun hnone hfalse => ?_⟩
  · have hchildren : ∀ child ∈ Edged.edges read', child.index < mid.store.rows.length := by
      intro child hchild
      obtain ⟨tree, _, htree⟩ := forall₂_exists_right hdenote hchild
      exact htree.lt
    obtain ⟨tree, htree⟩ := hafter.1.closed answer
      (hanswers mid.store { row with kind } read' answer hafter.1.grown hafter.1.closed hread'
        hchildren hanswer)
    refine rewritten_id hafter htree ?_ (fun hnever heq => ?_) fun hkept => ?_
    · refine substituted_row hrow hread hread' hrewritten.blank hsubstituted hdenote
        (Extends.refl mid.store) (fun answer' hanswer' => ?_) fun hnone => ?_
      · rw [hanswer] at hanswer'
        cases hanswer'
        exact htree
      · rw [hanswer] at hnone
        cases hnone
    · rw [heq] at hanswer
      exact hkind.never hrow hread hnever (Or.inl hanswer)
    · obtain ⟨_, hstate, hself⟩ := hkind.kept hrow hread hkept
      rw [hanswer] at hself
      rcases hself with hself | hself
      · cases hself
      · cases hself
        exact ⟨rfl, hstate⟩
  · subst hfalse
    have hsameRead : read' = read := hrewritten.same rfl
    have hkindSame : kind = row.kind := hsame rfl
    have hpresented : ({ row with kind } : HirExpression Span SideRange) = row := by
      rw [hkindSame]
    rw [hpresented] at hnone
    rw [hsameRead] at hdenote
    refine rewritten_id hafter (Denotes.row row
      (getElem?_of_grown hafter.1.grown.rows hrow) (resolveKind_mono hafter.1.grown hread) hdenote)
      ?_ (fun hnever _ => hkind.never hrow hread hnever (Or.inr ⟨hpresented ▸ hnone, rfl⟩))
      fun hkept => ?_
    · refine substituted_row hrow hread (resolveKind_mono hafter.1.grown hread) rfl hsubstituted
        hdenote (Extends.refl mid.store) (fun answer' hanswer' => ?_) fun _ => rfl
      rw [hnone] at hanswer'
      cases hanswer'
    · exact ⟨rfl, (hkind.kept hrow hread hkept).2.1⟩

omit [DecidableEq Span] in
theorem literal_edges {store : HirExpressionStore Span} {kind : HirExpressionKind SideRange}
    (hliteral : isLiteral kind = true) (hread : resolveKind store kind = some read) :
    Edged.edges read = [] := by
  cases kind with
  | FixedScalar value | Number value | Bool value | Char value | StringLiteral value
  | StructuralString start length =>
      cases hread
      rfl
  | _ => cases hliteral

/-- By induction on the depth of the row, with fuel enough for it. -/
theorem rewriteExpressionBottomUp_rewrites (hanswers : Answers rewrite initial.store)
    {tree : ExpressionTree Span} (htree : DenotesIn initial.store depth id tree) {fuel : Nat}
    (hfuel : depth ≤ fuel) :
    Rewrites rewrite initial depth (rewriteExpressionBottomUp rewrite fuel) id := by
  induction depth generalizing id tree fuel with
  | zero => exact False.elim htree
  | succ depth ih =>
      obtain ⟨fuel, rfl⟩ : ∃ f, fuel = f + 1 := ⟨fuel - 1, by omega⟩
      obtain ⟨_, _, _⟩ := tree
      obtain ⟨row, read, hrow, hread, _, _, hchildren⟩ := htree
      have hids : ∀ child ∈ Edged.edges read,
          Rewrites rewrite initial depth (rewriteExpressionBottomUp rewrite fuel) child := by
        intro child hchild
        obtain ⟨_, _, hchild⟩ := forall₂_exists_right hchildren hchild
        exact ih hchild (by omega)
      intro state h
      refine Ensures.readBind (getElem?_of_grown h.grown.rows hrow) ?_
      by_cases hliteral : isLiteral row.kind = true
      · rw [if_pos hliteral]
        have hedges := literal_edges hliteral hread
        have hkind : KindRewritten rewrite initial depth row.kind read state (row.kind, false)
            state := by
          refine ⟨read, resolveKind_mono h.grown hread, ⟨?_, rfl, fun _ => rfl,
            fun hother => nomatch hother⟩, fun _ => rfl⟩
          rw [hedges]
          exact EdgesRewritten.nil h
        obtain ⟨hanswered, hnone⟩ := settle_ensures hanswers hrow hread hkind
        refine Ensures.pure ?_
        cases hanswer : rewrite row with
        | some answer => exact hanswered answer hanswer
        | none => exact hnone hanswer rfl
      · rw [if_neg hliteral]
        refine Ensures.bind (rewriteKind_ensures hread hids h row.facts.span) fun out mid hout => ?_
        obtain ⟨kind, changed⟩ := out
        obtain ⟨hanswered, hnone⟩ := settle_ensures hanswers hrow hread hout
        have hafter : After initial state mid := hout.choose_spec.2.1.after
        simp only []
        cases hanswer : rewrite { row with kind } with
        | some answer => exact Ensures.pure (hanswered answer hanswer)
        | none =>
            cases changed with
            | false => exact Ensures.pure (hnone hanswer rfl)
            | true =>
                exact (append_ensures hrow hread hout hanswer).mono (fun _ _ h => h)
                  fun _ _ hfailed => Failed.before hafter hfailed

omit [DecidableEq Span] in
theorem Underway.start (hclosed : Closed initial.store) : Underway initial initial :=
  ⟨Extends.refl initial.store, hclosed, fun _ _ => rfl, fun _ _ hindex hrow =>
    absurd (List.getElem?_eq_some_iff.mp hrow).1 (Nat.not_lt.mpr hindex)⟩

end Graphs

/-- Rewriting an acyclic store only appends, and fails only where the store is frozen or
a table is half full. The answer denotes the bottom-up substitution of the root; it is the
root itself when no row below is replaced, and then only, unless a changed copy of a row is
answered with the id of that row. -/
theorem rewriting_is_persistent_substitution [DecidableEq Span]
    (rewrite : HirExpression Span SideRange → Option HirValueId) (initial : RewriteState Span)
    (root : HirValueId) (hclosed : Closed initial.store) (hanswers : Answers rewrite initial.store)
    (hroot : root.index < initial.store.rows.length) :
    ∃ fuel, ∀ fuel', fuel ≤ fuel' → ∃ outcome final,
      runFrom (rewriteExpressionBottomUp rewrite fuel' root) initial = some (outcome, final) ∧
      Underway initial final ∧
      (∀ id tree, Denotes initial.store id tree → Denotes final.store id tree) ∧
      (∀ failure, outcome = .error failure → Reported final.store failure) ∧
      ∀ answer, outcome = .ok answer →
        (∃ tree depth, Denotes final.store answer tree ∧
          Substituted rewrite initial.store final.store depth root tree) ∧
        (Kept rewrite initial.store root → answer = root ∧ final = initial) ∧
        (NeverItself rewrite initial.store → answer = root → Kept rewrite initial.store root) := by
  obtain ⟨tree, depth, htree⟩ := hclosed root hroot
  refine ⟨depth, fun fuel hfuel => ?_⟩
  obtain ⟨outcome, final, hrun, hok, herror⟩ :=
    rewriteExpressionBottomUp_rewrites hanswers htree hfuel initial (Underway.start hclosed)
  have hafter : Underway initial final := by
    cases outcome with
    | ok answer => exact (hok answer rfl).after.1
    | error failure => exact (herror failure rfl).1.1
  refine ⟨outcome, final, hrun, hafter, fun id tree htree => htree.mono hafter.grown,
    fun failure heq => (herror failure heq).2, fun answer heq => ?_⟩
  have hrewritten := hok answer heq
  have houtcome : Outcome rewrite initial depth final.store root answer := by
    cases hrewritten.edges.outcomes with
    | cons houtcome _ => exact houtcome
  obtain ⟨tree', hdenotes, hsubstituted⟩ := houtcome.tree
  refine ⟨⟨tree', depth, hdenotes, hsubstituted⟩, fun hkept => ?_, houtcome.same⟩
  have hall : ∀ id ∈ Edged.edges root, Kept rewrite initial.store id := by
    intro id hid
    rw [List.mem_singleton.mp hid]
    exact hkept
  obtain ⟨hsame, hstate⟩ := hrewritten.edges.kept hall
  exact ⟨hrewritten.same hsame, hstate⟩

/-! A conjunction of two literals, with a callback that replaces the first literal by the
second and gives the changed conjunction the id of the old one. -/

def conjunctionStore : HirExpressionStore Nat where
  rows := [⟨.Bool true, ⟨⟨0⟩, .Const, ⟨0⟩, none⟩⟩, ⟨.Bool false, ⟨⟨0⟩, .Const, ⟨0⟩, none⟩⟩,
    ⟨.BinOp ⟨0⟩ .And ⟨1⟩, ⟨⟨0⟩, .RValue, ⟨0⟩, some 7⟩⟩]
  values := []
  structFields := []
  variantFields := []
  mapEntries := []
  projections := []
  frozen := false

def conjunctionState : RewriteState Nat where
  store := conjunctionStore
  sideTable := ⟨fun _ => [], fun _ => none⟩

def replaceTrue (row : HirExpression Nat SideRange) : Option HirValueId :=
  match row.kind with
  | .Bool true => some ⟨1⟩
  | .BinOp left _ _ => if left = ⟨1⟩ then some ⟨2⟩ else none
  | _ => none

theorem conjunctionStore_closed : Closed conjunctionStore := by
  have h₀ : Denotes conjunctionStore ⟨0⟩ (.node (.Bool true) ⟨⟨0⟩, .Const, ⟨0⟩, none⟩ []) :=
    Denotes.row ⟨.Bool true, ⟨⟨0⟩, .Const, ⟨0⟩, none⟩⟩ rfl rfl .nil
  have h₁ : Denotes conjunctionStore ⟨1⟩ (.node (.Bool false) ⟨⟨0⟩, .Const, ⟨0⟩, none⟩ []) :=
    Denotes.row ⟨.Bool false, ⟨⟨0⟩, .Const, ⟨0⟩, none⟩⟩ rfl rfl .nil
  have h₂ : Denotes conjunctionStore ⟨2⟩ _ :=
    Denotes.row ⟨.BinOp ⟨0⟩ .And ⟨1⟩, ⟨⟨0⟩, .RValue, ⟨0⟩, some 7⟩⟩ rfl rfl
      (.cons h₀ (.cons h₁ .nil))
  intro id hid
  obtain ⟨index⟩ := id
  have hlt : index < 3 := hid
  have hcases : index = 0 ∨ index = 1 ∨ index = 2 := by omega
  rcases hcases with rfl | rfl | rfl
  · exact ⟨_, h₀⟩
  · exact ⟨_, h₁⟩
  · exact ⟨_, h₂⟩

theorem replaceTrue_answers : Answers replaceTrue conjunctionStore := by
  intro store row read answer hgrown _ _ _ hanswer
  have hlength : 3 ≤ store.rows.length := hgrown.rows.length_le
  rw [replaceTrue] at hanswer
  split at hanswer
  · cases hanswer
    show 1 < store.rows.length
    omega
  · split at hanswer
    · cases hanswer
      show 2 < store.rows.length
      omega
    · cases hanswer
  · cases hanswer

theorem rewriting_is_persistent_substitution_conjunction :
    ∃ fuel, ∀ fuel', fuel ≤ fuel' → ∃ outcome final,
      runFrom (rewriteExpressionBottomUp replaceTrue fuel' ⟨2⟩) conjunctionState =
        some (outcome, final) ∧
      Underway conjunctionState final ∧
      (∀ id tree, Denotes conjunctionState.store id tree → Denotes final.store id tree) ∧
      (∀ failure, outcome = .error failure → Reported final.store failure) ∧
      ∀ answer, outcome = .ok answer →
        (∃ tree depth, Denotes final.store answer tree ∧
          Substituted replaceTrue conjunctionState.store final.store depth ⟨2⟩ tree) ∧
        (Kept replaceTrue conjunctionState.store ⟨2⟩ → answer = ⟨2⟩ ∧ final = conjunctionState) ∧
        (NeverItself replaceTrue conjunctionState.store → answer = ⟨2⟩ →
          Kept replaceTrue conjunctionState.store ⟨2⟩) :=
  rewriting_is_persistent_substitution replaceTrue conjunctionState ⟨2⟩ conjunctionStore_closed
    replaceTrue_answers (by decide)

/-- The root is answered although a row below it was replaced; and a frozen store fails. -/
theorem rewriting_same_id_refuted :
    (runFrom (rewriteExpressionBottomUp replaceTrue 2 ⟨2⟩) conjunctionState).map Prod.fst =
      some (.ok ⟨2⟩) ∧
    ¬Kept replaceTrue conjunctionStore ⟨2⟩ ∧
    (runFrom (rewriteExpressionBottomUp (fun row => if isLiteral row.kind then some ⟨1⟩ else none)
      2 ⟨2⟩) { conjunctionState with store := { conjunctionStore with frozen := true } }).map
        Prod.fst = some (.error .frozenStore) := by
  refine ⟨rfl, fun hkept => ?_, rfl⟩
  have hroot : conjunctionStore.rows[2]? =
      some ⟨.BinOp ⟨0⟩ .And ⟨1⟩, ⟨⟨0⟩, .RValue, ⟨0⟩, some 7⟩⟩ := rfl
  have hreaches : Reaches conjunctionStore ⟨2⟩ ⟨0⟩ :=
    .edge hroot rfl List.mem_cons_self (.here ⟨0⟩)
  have hrow := hkept ⟨0⟩ hreaches ⟨.Bool true, ⟨⟨0⟩, .Const, ⟨0⟩, none⟩⟩ rfl
  rcases hrow with hrow | hrow
  · cases hrow
  · cases hrow

/-! ## Substitution of locals -/

section Locals

/-- A load or a copy of a whole local. -/
def wholeLocal {Side : Type → Type} (isEmpty : Side HirProjection → Bool) :
    HirExpressionKind Side → Option LocalId
  | .Load place | .Copy place => if isEmpty place.projections then some place.root else none
  | _ => none

mutual

/-- The tree with the whole-local loads and copies replaced. -/
def substituteTree (substitutions : LocalId → Option (ExpressionTree Span)) :
    ExpressionTree Span → ExpressionTree Span
  | .node kind facts children =>
      ((wholeLocal List.isEmpty kind).bind substitutions).getD
        (.node kind facts (substituteTrees substitutions children))

def substituteTrees (substitutions : LocalId → Option (ExpressionTree Span)) :
    List (ExpressionTree Span) → List (ExpressionTree Span)
  | [] => []
  | tree :: trees => substituteTree substitutions tree :: substituteTrees substitutions trees

end

variable {initial : RewriteState Span} {substitutions : LocalId → Option HirValueId}
  {trees : LocalId → Option (ExpressionTree Span)}

theorem localReplacement_eq (rewritten : HirExpression Span SideRange) :
    localReplacement substitutions rewritten =
      (wholeLocal (fun range => decide (range.length = 0)) rewritten.kind).bind substitutions := by
  obtain ⟨kind, facts⟩ := rewritten
  cases kind with
  | Load place | Copy place =>
      show (if place.projections.length = 0 then substitutions place.root else none) =
        (if decide (place.projections.length = 0) = true then some place.root else none).bind
          substitutions
      by_cases hempty : place.projections.length = 0
      · rw [if_pos hempty, if_pos (decide_eq_true hempty)]
        rfl
      · rw [if_neg hempty, if_neg (by rw [decide_eq_true_iff]; exact hempty)]
        rfl
  | _ => rfl

theorem wholeLocal_resolve {store : HirExpressionStore Span} {kind : HirExpressionKind SideRange}
    {read : HirExpressionKind List} (hread : resolveKind store kind = some read) :
    wholeLocal (fun range => decide (range.length = 0)) kind =
      wholeLocal List.isEmpty (Edged.blank read) := by
  have hempty : ∀ {place : HirPlace SideRange} {projections : List HirProjection},
      sliceForRange store.projections place.projections = some projections →
      decide (place.projections.length = 0) = (Edged.blank projections).isEmpty := by
    intro place projections hslice
    obtain ⟨hlength, _⟩ := length_of_sliceForRange hslice
    rw [← hlength]
    cases projections with
    | nil => rfl
    | cons projection rest => rfl
  cases kind with
  | Load place | Copy place =>
      obtain ⟨projections, hslice, heq⟩ := Option.map_eq_some_iff.mp hread
      subst heq
      show (if decide (place.projections.length = 0) = true then some place.root else none) =
        if (Edged.blank projections).isEmpty = true then some place.root else none
      rw [hempty hslice]
  | StructConstruct structId fields | Collection elements
  | VariantConstruct carrier variantIndex fields | MapLiteral entries
  | RouteConstruct choiceId variantIndex fields futureInput =>
      obtain ⟨items, _, heq⟩ := Option.map_eq_some_iff.mp hread
      subst heq
      rfl
  | _ =>
      cases hread
      rfl

theorem localReplacement_answers
    (hvalid : ∀ localId id, substitutions localId = some id →
      id.index < initial.store.rows.length) :
    Answers (localReplacement substitutions) initial.store := by
  intro store row _ answer hgrown _ _ _ hanswer
  rw [localReplacement_eq] at hanswer
  obtain ⟨localId, _, hsubstitution⟩ := Option.bind_eq_some_iff.mp hanswer
  exact Nat.lt_of_lt_of_le (hvalid localId answer hsubstitution) hgrown.rows.length_le

/-- What a relational substitution of locals gives is the substituted tree. -/
theorem substituted_tree {store : HirExpressionStore Span}
    (htrees : ∀ localId, (substitutions localId = none → trees localId = none) ∧
      ∀ id, substitutions localId = some id → ∃ tree, trees localId = some tree ∧
        Denotes store id tree)
    {depth depth' : Nat} {id : HirValueId} {tree tree' : ExpressionTree Span}
    (h : Substituted (localReplacement substitutions) initial.store store depth id tree')
    (htree : DenotesIn initial.store depth' id tree) : tree' = substituteTree trees tree := by
  induction depth generalizing depth' id tree tree' with
  | zero => exact False.elim h
  | succ depth ih =>
      cases depth' with
      | zero => exact False.elim htree
      | succ depth' =>
          obtain ⟨kind, facts, children⟩ := tree
          obtain ⟨row, read, presented, read', children', hrow, hread, hfacts, hread', hblank,
            hsubstituted, hdenote, hanswer, hnone⟩ := h
          obtain ⟨row', read'', hrow', hread'', hkind, hfacts', hchildren⟩ := htree
          cases hrow.symm.trans hrow'
          cases hread.symm.trans hread''
          have hsame : children' = substituteTrees trees children := by
            generalize Edged.edges read = ids at hsubstituted hchildren
            clear hanswer hnone hkind hdenote
            induction hsubstituted generalizing children with
            | nil =>
                cases hchildren
                rfl
            | cons hchild _ ihrest =>
                cases hchildren with
                | cons hchild' hrest' => rw [substituteTrees, ih hchild hchild', ihrest _ hrest']
          have hanswers : localReplacement substitutions presented =
              (wholeLocal List.isEmpty kind).bind substitutions := by
            rw [localReplacement_eq, wholeLocal_resolve hread', hblank, ← hkind]
          rw [substituteTree]
          cases hlocal : wholeLocal List.isEmpty kind with
          | none =>
              rw [hlocal] at hanswers
              rw [hnone hanswers, ← hsame, hkind, hfacts']
              rfl
          | some localId =>
              rw [hlocal] at hanswers
              obtain ⟨hnoTree, hreplaced⟩ := htrees localId
              rw [Option.bind_some]
              cases hsubstitution : substitutions localId with
              | none =>
                  rw [hnone (hanswers.trans hsubstitution), ← hsame, hkind, hfacts',
                    hnoTree hsubstitution]
                  rfl
              | some answer =>
                  obtain ⟨replacement, hreplacement, hdenotes⟩ := hreplaced answer hsubstitution
                  rw [hreplacement]
                  exact (hanswer answer (hanswers.trans hsubstitution)).unique hdenotes

/-- A copy of a whole-local load has no edges that could differ. -/
theorem localReplacement_neverItself :
    NeverItself (localReplacement substitutions) initial.store := by
  intro id row read presented read' store' _ hread _ _ hread' hblank hne hanswer
  rw [localReplacement_eq, wholeLocal_resolve hread', hblank] at hanswer
  obtain ⟨localId, hlocal, _⟩ := Option.bind_eq_some_iff.mp hanswer
  have hplace : ∀ {place place' : HirPlace List}, (if (Edged.blank place.projections).isEmpty = true
      then some place.root else none) = some localId →
      Edged.blank place' = Edged.blank place → place' = place := by
    intro place place' hlocal hblank
    obtain ⟨root, projections⟩ := place
    obtain ⟨root', projections'⟩ := place'
    injection hblank with hroot hprojections
    have hroot' : root' = root := hroot
    cases projections with
    | nil =>
        cases projections' with
        | nil => rw [hroot']
        | cons projection rest => cases hprojections
    | cons projection rest => cases hlocal
  apply hne
  cases read with
  | Load place =>
      cases read' with
      | Load place' =>
          injection hblank with hblank
          rw [hplace hlocal hblank]
      | _ => cases hblank
  | Copy place =>
      cases read' with
      | Copy place' =>
          injection hblank with hblank
          rw [hplace hlocal hblank]
      | _ => cases hblank
  | _ => cases hlocal

/-- Replacing the loads and copies of whole locals ends, and what it answers denotes the
tree of the root with the trees of the replacements; it is the root itself exactly if no
replacement is another row. -/
theorem substituteLocalExpressions_substitutes [DecidableEq Span] (initial : RewriteState Span)
    (substitutions : LocalId → Option HirValueId) (trees : LocalId → Option (ExpressionTree Span))
    (root : HirValueId) (tree : ExpressionTree Span) (hclosed : Closed initial.store)
    (hroot : Denotes initial.store root tree)
    (htrees : ∀ localId, (substitutions localId = none → trees localId = none) ∧
      ∀ id, substitutions localId = some id → ∃ tree, trees localId = some tree ∧
        Denotes initial.store id tree) :
    ∃ fuel, ∀ fuel', fuel ≤ fuel' → ∃ outcome final,
      runFrom (substituteLocalExpressions substitutions fuel' root) initial =
        some (outcome, final) ∧
      Underway initial final ∧
      (∀ failure, outcome = .error failure → Reported final.store failure) ∧
      ∀ answer, outcome = .ok answer →
        Denotes final.store answer (substituteTree trees tree) ∧
        (answer = root ↔ Kept (localReplacement substitutions) initial.store root) := by
  have hanswers : Answers (localReplacement substitutions) initial.store :=
    localReplacement_answers fun localId id hid => by
      obtain ⟨_, _, hdenotes⟩ := (htrees localId).2 id hid
      exact hdenotes.lt
  obtain ⟨depth, htree⟩ := hroot
  refine ⟨depth, fun fuel hfuel => ?_⟩
  obtain ⟨outcome, final, hrun, hok, herror⟩ :=
    rewriteExpressionBottomUp_rewrites hanswers htree hfuel initial (Underway.start hclosed)
  refine ⟨outcome, final, hrun, ?_, fun failure heq => (herror failure heq).2, fun answer heq => ?_⟩
  · cases outcome with
    | ok answer => exact (hok answer rfl).after.1
    | error failure => exact (herror failure rfl).1.1
  have hrewritten := hok answer heq
  have houtcome : Outcome (localReplacement substitutions) initial depth final.store root
      answer := by
    cases hrewritten.edges.outcomes with
    | cons houtcome _ => exact houtcome
  obtain ⟨tree', hdenotes, hsubstituted⟩ := houtcome.tree
  have htrees' : ∀ localId, (substitutions localId = none → trees localId = none) ∧
      ∀ id, substitutions localId = some id → ∃ tree, trees localId = some tree ∧
        Denotes final.store id tree := by
    intro localId
    refine ⟨(htrees localId).1, fun id hid => ?_⟩
    obtain ⟨replacement, hreplacement, hdenotes⟩ := (htrees localId).2 id hid
    exact ⟨replacement, hreplacement, hdenotes.mono hrewritten.after.2⟩
  rw [substituted_tree htrees' hsubstituted htree] at hdenotes
  refine ⟨hdenotes, fun hsame => houtcome.same localReplacement_neverItself hsame, fun hkept => ?_⟩
  have hall : ∀ id ∈ Edged.edges root, Kept (localReplacement substitutions) initial.store id := by
    intro id hid
    rw [List.mem_singleton.mp hid]
    exact hkept
  exact hrewritten.same (hrewritten.edges.kept hall).1

/-! `not local`, with the local replaced by a literal. -/

def negationStore : HirExpressionStore Nat where
  rows := [⟨.Load ⟨⟨4⟩, ⟨0, 0⟩⟩, ⟨⟨0⟩, .Place, ⟨0⟩, some 3⟩⟩,
    ⟨.UnaryOp .Not ⟨0⟩, ⟨⟨0⟩, .RValue, ⟨0⟩, some 2⟩⟩, ⟨.Bool true, ⟨⟨0⟩, .Const, ⟨0⟩, none⟩⟩]
  values := []
  structFields := []
  variantFields := []
  mapEntries := []
  projections := []
  frozen := false

def negationLoad : ExpressionTree Nat :=
  .node (.Load ⟨⟨4⟩, []⟩) ⟨⟨0⟩, .Place, ⟨0⟩, some 3⟩ []

def negationLiteral : ExpressionTree Nat :=
  .node (.Bool true) ⟨⟨0⟩, .Const, ⟨0⟩, none⟩ []

def negationTree : ExpressionTree Nat :=
  .node (.UnaryOp .Not ⟨0⟩) ⟨⟨0⟩, .RValue, ⟨0⟩, some 2⟩ [negationLoad]

theorem negationStore_denotes : Denotes negationStore ⟨0⟩ negationLoad ∧
    Denotes negationStore ⟨1⟩ negationTree ∧ Denotes negationStore ⟨2⟩ negationLiteral := by
  have h₀ : Denotes negationStore ⟨0⟩ negationLoad :=
    Denotes.row ⟨.Load ⟨⟨4⟩, ⟨0, 0⟩⟩, ⟨⟨0⟩, .Place, ⟨0⟩, some 3⟩⟩ rfl rfl .nil
  have h₁ : Denotes negationStore ⟨1⟩ negationTree :=
    Denotes.row ⟨.UnaryOp .Not ⟨0⟩, ⟨⟨0⟩, .RValue, ⟨0⟩, some 2⟩⟩ rfl rfl (.cons h₀ .nil)
  have h₂ : Denotes negationStore ⟨2⟩ negationLiteral :=
    Denotes.row ⟨.Bool true, ⟨⟨0⟩, .Const, ⟨0⟩, none⟩⟩ rfl rfl .nil
  exact ⟨h₀, h₁, h₂⟩

theorem negationStore_closed : Closed negationStore := by
  obtain ⟨h₀, h₁, h₂⟩ := negationStore_denotes
  intro id hid
  obtain ⟨index⟩ := id
  have hlt : index < 3 := hid
  have hcases : index = 0 ∨ index = 1 ∨ index = 2 := by omega
  rcases hcases with rfl | rfl | rfl
  · exact ⟨_, h₀⟩
  · exact ⟨_, h₁⟩
  · exact ⟨_, h₂⟩

def negationSubstitutions (localId : LocalId) : Option HirValueId :=
  if localId = ⟨4⟩ then some ⟨2⟩ else none

def negationTrees (localId : LocalId) : Option (ExpressionTree Nat) :=
  if localId = ⟨4⟩ then some negationLiteral else none

theorem substituteLocalExpressions_substitutes_negation :
    ∃ fuel, ∀ fuel', fuel ≤ fuel' → ∃ outcome final,
      runFrom (substituteLocalExpressions negationSubstitutions fuel' ⟨1⟩)
        ⟨negationStore, ⟨fun _ => [], fun _ => none⟩⟩ = some (outcome, final) ∧
      Underway ⟨negationStore, ⟨fun _ => [], fun _ => none⟩⟩ final ∧
      (∀ failure, outcome = .error failure → Reported final.store failure) ∧
      ∀ answer, outcome = .ok answer →
        Denotes final.store answer (substituteTree negationTrees negationTree) ∧
        (answer = ⟨1⟩ ↔ Kept (localReplacement negationSubstitutions) negationStore ⟨1⟩) :=
  substituteLocalExpressions_substitutes ⟨negationStore, ⟨fun _ => [], fun _ => none⟩⟩
    negationSubstitutions negationTrees ⟨1⟩ negationTree negationStore_closed
    negationStore_denotes.2.1 fun localId => by
      rw [negationSubstitutions, negationTrees]
      split
      · refine ⟨nofun, fun id hid => ?_⟩
        cases hid
        exact ⟨negationLiteral, rfl, negationStore_denotes.2.2⟩
      · exact ⟨fun _ => rfl, nofun⟩

end Locals

end Moth.Hir.Rows
