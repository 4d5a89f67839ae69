import Moth.Borrow.Conflicts
import Moth.Borrow.FutureUse

/-!
# What an accepted mutable access excludes

The check decides by a count; the claim one wants is about paths. Between the
two stands activity: a local that holds a root and is read on some path before
it is redefined is active, because the layout knows each of the ways a path
can reach the read. A read at or after the statement in its own block keeps
the holder from expiring, and a read through a successor is a future use.

An actor that holds the root itself takes the one place the count allows, so
its access is accepted only when it is alone. An actor that does not hold the
root, as in the definition of a mutable view of another local, leaves that
place to the local it views.
-/

namespace Moth.Borrow

open Moth.Hir Moth.Lib

/-- Alias bindings have something to view. -/
def BorrowState.AliasesHaveRoots {n : Nat} (state : BorrowState n) : Prop :=
  ∀ i, (state.localState i).mode.contains .ALIAS = true → (state.localState i).valueRoots ≠ ∅

section Activity

variable {hir : HirModule} {a : AnalysedFunction}
  {scan : LayoutScan (layoutLocalIds a.blocks).length}

theorem LaidOut.futureUseKind_ne_none (hlaid : LaidOut hir a scan) {block : HirBlock}
    (hblock : block ∈ a.blocks) {earlier later : List HirStatement} {statement : HirStatement}
    (hsplit : block.statements = earlier ++ statement :: later)
    {i : Fin (layoutLocalIds a.blocks).length}
    (hread : ReadsFrom hir (a.layout.localIds i) block.terminator (statement :: later)) :
    a.layout.futureUseKind block.id i
      (a.layout.statementOrderOrUnknown statement.id - 1) ≠ .None := by
  intro hnone
  cases hread with
  | inl hfirst =>
      obtain ⟨maxUse, hmaxUse, -, hfrom, -⟩ := hlaid.used_from hblock hsplit
      have hused := (hfrom i hfirst).1
      have hle := FunctionLayout.localHasFutureUseInBlock_eq_false
        (FunctionLayout.futureUseKind_eq_none hnone).1 hmaxUse
      omega
  | inr hthere =>
      obtain ⟨-, successor, hsuccessor, hpath⟩ := hthere
      exact hlaid.not_readsOnPath hblock hnone hsuccessor hpath

/-- Such a local is used at the statement's key or later, or a successor may still use it. -/
theorem LaidOut.lastUse_of_readsFrom (hlaid : LaidOut hir a scan) {block : HirBlock}
    (hblock : block ∈ a.blocks) {earlier later : List HirStatement} {statement : HirStatement}
    (hsplit : block.statements = earlier ++ statement :: later)
    {i : Fin (layoutLocalIds a.blocks).length}
    (hread : ReadsFrom hir (a.layout.localIds i) block.terminator (statement :: later)) :
    0 ≤ a.layout.localLastUseOrder i ∧
      (a.layout.localLastUseOrder i < a.layout.statementOrderOrUnknown statement.id →
        a.layout.futureUseKind block.id i
          (a.layout.statementOrderOrUnknown statement.id) ≠ .None) := by
  cases hread with
  | inl hfirst =>
      obtain ⟨maxUse, -, hnonneg, hfrom, -⟩ := hlaid.used_from hblock hsplit
      have hused := (hfrom i hfirst).2
      exact ⟨by omega, fun hexpired => absurd hused (by omega)⟩
  | inr hthere =>
      obtain ⟨-, successor, hsuccessor, hpath⟩ := hthere
      refine ⟨hlaid.lastUse_nonneg (hlaid.closed block hblock successor hsuccessor) hpath, ?_⟩
      exact fun _ hnone => hlaid.not_readsOnPath hblock hnone hsuccessor hpath

end Activity

namespace AccessCheckContext

section Counting

variable {n : Nat} {check : AccessCheckContext n} {root actor : Fin n} {strict direct : Bool}

theorem isCounted_iff {candidate : Fin n} :
    check.isCounted root actor strict direct candidate = true ↔
      check.isConflicting root actor strict direct candidate = true ∨
        candidate = actor ∧ root ∈ check.state.effectiveRoots actor := by
  simp only [isCounted, isConflicting, ← BorrowState.effectiveRootContains_iff]
  by_cases hactor : candidate = actor
  · subst hactor
    have hview : check.actorIsAliasForRoot root candidate = true → candidate ≠ root := by
      intro h
      simp only [actorIsAliasForRoot, Bool.and_eq_true, decide_eq_true_eq] at h
      exact h.1.1
    cases hholds : check.state.effectiveRootContains candidate root with
    | false => simp
    | true =>
        cases hv : check.actorIsAliasForRoot root candidate with
        | false => simp
        | true => simp [hview hv]
  · simp [hactor]

theorem one_lt_count {c c' : Fin n} (hne : c ≠ c')
    (hc : check.isCounted root actor strict direct c = true)
    (hc' : check.isCounted root actor strict direct c' = true) :
    1 < check.activeAliasCountForRoot root actor strict direct := by
  rw [activeAliasCountForRoot, List.countP_eq_length_filter]
  have hnodup := (List.nodup_finRange n).filter (check.isCounted root actor strict direct)
  have hmem : ∀ x, check.isCounted root actor strict direct x = true →
      x ∈ (List.finRange n).filter (check.isCounted root actor strict direct) :=
    fun x hx => List.mem_filter.2 ⟨List.mem_finRange x, hx⟩
  have hcard := Finset.one_lt_card.2 ⟨c, List.mem_toFinset.2 (hmem c hc), c',
    List.mem_toFinset.2 (hmem c' hc'), hne⟩
  rw [List.toFinset_card_of_nodup hnodup] at hcard
  exact hcard

theorem count_le_one_of_ok {policy : MutableAccessPolicy} {roots : List (Fin n)}
    {tracker tracker' : StatementAccessTracker n}
    (h : roots.foldlM (check.checkMutableRoot policy) tracker = .ok tracker') :
    ∀ root ∈ roots, check.activeAliasCountForRoot root (check.actorIndexHint.getD root)
      policy.strictMoveExclusivity (decide (policy.aliasExclusivity = .Direct)) ≤ 1 := by
  induction roots generalizing tracker with
  | nil => exact fun _ hmem => absurd hmem List.not_mem_nil
  | cons first rest ih =>
      rw [List.foldlM_cons, bind_eq_ok] at h
      obtain ⟨middle, hfirst, hrest⟩ := h
      intro root hmem
      cases List.mem_cons.1 hmem with
      | inr hin => exact ih hrest root hin
      | inl heq =>
          subst heq
          simp only [checkMutableRoot] at hfirst
          split at hfirst
          · cases hfirst
          · cases hfirst
          · split at hfirst
            · cases hfirst
            · split at hfirst
              · cases hfirst
              · next hcount => exact Nat.le_of_not_lt hcount

variable (check) in
theorem rejected_of_conflicting {policy : MutableAccessPolicy} {roots : RootSet n}
    (hroot : root ∈ roots) (hactor : check.actorIndexHint = some actor)
    (hholds : root ∈ check.state.effectiveRoots actor) {c : Fin n}
    (hconflict : check.conflictingActiveLocalForRoot root actor policy.strictMoveExclusivity
      (decide (policy.aliasExclusivity = .Direct)) = some c)
    (tracker : StatementAccessTracker n) :
    ∃ error, check.checkMutableAccess roots policy tracker = .error error := by
  cases hresult : check.checkMutableAccess roots policy tracker with
  | error error => exact ⟨error, rfl⟩
  | ok tracker' =>
      have hle := count_le_one_of_ok hresult root (RootSet.mem_iterOnes.2 hroot)
      rw [hactor, Option.getD_some] at hle
      have hfound := List.find?_some hconflict
      have hne : c ≠ actor := by
        rintro rfl
        simp [isConflicting] at hfound
      have hlt := one_lt_count hne (isCounted_iff.2 (Or.inl hfound))
        (isCounted_iff.2 (Or.inr ⟨rfl, hholds⟩))
      omega

end Counting

variable {n : Nat} (check : AccessCheckContext n)

/-- Another local than the actor, and not the cell that the actor is only a view of, that holds
the root and is read on some path from the given end of a block before it is redefined. -/
def LiveHolder (terminator : HirTerminator) (rest : List HirStatement) (root actor c : Fin n) :
    Prop :=
  c ≠ actor ∧ ¬ (check.actorIsAliasForRoot root actor = true ∧ c = root) ∧
    root ∈ check.state.effectiveRoots c ∧
    ReadsFrom check.hir (check.layout.localIds c) terminator rest

/-- The check of a statement's access by an acting local. -/
def atStatement (hir : HirModule) (a : AnalysedFunction)
    (state : BorrowState (layoutLocalIds a.blocks).length) (block : HirBlock)
    (statement : HirStatement) (actor : Fin (layoutLocalIds a.blocks).length) :
    AccessCheckContext (layoutLocalIds a.blocks).length where
  hir := hir
  layout := a.layout
  state := state
  block := block.id
  currentOrder := a.layout.statementOrderOrUnknown statement.id
  actorIndexHint := some actor

section Holders

variable {hir : HirModule} {a : AnalysedFunction}
  {scan : LayoutScan (layoutLocalIds a.blocks).length} {block : HirBlock}
  {earlier later : List HirStatement} {statement : HirStatement}
  {state : BorrowState (layoutLocalIds a.blocks).length}
  {actor root c : Fin (layoutLocalIds a.blocks).length}

/-- A live holder takes part in exclusivity conflicts. -/
theorem LiveHolder.isActive (hlaid : LaidOut hir a scan) (hblock : block ∈ a.blocks)
    (hsplit : block.statements = earlier ++ statement :: later) (hrows : state.AliasesHaveRoots)
    (hsource : hir.localOriginKind (a.layout.localIds actor) ≠ some .CompilerTemp)
    (hlive : LiveHolder (atStatement hir a state block statement actor) block.terminator
      (statement :: later) root actor c) :
    (atStatement hir a state block statement actor).isLocalActiveForAliasConflict root c false =
      true := by
  obtain ⟨-, -, -, hread⟩ := hlive
  have hused := hlaid.futureUseKind_ne_none hblock hsplit hread
  obtain ⟨hlast, hexpired⟩ := hlaid.lastUse_of_readsFrom hblock hsplit hread
  have hpreserve : (atStatement hir a state block statement actor).preservesCfgFutureUseActivity =
      true := decide_eq_true hsource
  simp only [isLocalActiveForAliasConflict, Bool.not_false, Bool.true_and, hpreserve]
  cases halias : (state.localState c).mode.contains .ALIAS with
  | false =>
      simp only [atStatement, halias, Bool.not_false, if_true]
      exact decide_eq_true hused
  | true =>
      have hvalues : (state.localState c).hasValueAliases = true :=
        decide_eq_true (hrows c halias)
      by_cases hgone : a.layout.localLastUseOrder c < a.layout.statementOrderOrUnknown statement.id
      · have hlater := hexpired hgone
        simp [atStatement, halias, hvalues, hlast, hasCfgFutureUseAfterLinearExpiry,
          FunctionLayout.localIsExpired, hgone, hlater]
      · simp [atStatement, halias, hvalues, hlast, FunctionLayout.localIsExpired, hgone, hused]

theorem LiveHolder.isConflicting (hlaid : LaidOut hir a scan) (hblock : block ∈ a.blocks)
    (hsplit : block.statements = earlier ++ statement :: later) (hrows : state.AliasesHaveRoots)
    (hsource : hir.localOriginKind (a.layout.localIds actor) ≠ some .CompilerTemp)
    (hlive : LiveHolder (atStatement hir a state block statement actor) block.terminator
      (statement :: later) root actor c) :
    (atStatement hir a state block statement actor).isConflicting root actor false false c =
      true := by
  have hactive := hlive.isActive hlaid hblock hsplit hrows hsource
  obtain ⟨hne, hview, hholds, -⟩ := hlive
  have hholds' := BorrowState.effectiveRootContains_iff.2 hholds
  have hview' : ((atStatement hir a state block statement actor).actorIsAliasForRoot root actor &&
      decide (c = root)) = false := by
    rw [Bool.eq_false_iff]
    intro hboth
    rw [Bool.and_eq_true, decide_eq_true_eq] at hboth
    exact hview hboth
  simp [AccessCheckContext.isConflicting, hview', hne, hholds', aliasObservesCellWrite, hactive]

end Holders

/-- An accepted access leaves at most one live holder beside its actor, and none when the actor
holds the root itself; and no access whose actor holds a root is accepted beside a conflict. -/
theorem checkMutableAccess_exclusive {hir : HirModule} (hunique : UniqueNodeIds hir)
    {function : HirFunction} {a : AnalysedFunction} (h : analysedFunction hir function = some a)
    {block : HirBlock} (hblock : block ∈ a.blocks) {earlier later : List HirStatement}
    {statement : HirStatement} (hsplit : block.statements = earlier ++ statement :: later)
    {state : BorrowState (layoutLocalIds a.blocks).length} (hrows : state.AliasesHaveRoots)
    {actor : Fin (layoutLocalIds a.blocks).length}
    (hsource : hir.localOriginKind (a.layout.localIds actor) ≠ some .CompilerTemp)
    {policy : MutableAccessPolicy}
    (hordinary : policy.strictMoveExclusivity = false ∧ policy.aliasExclusivity = .All)
    (roots : RootSet (layoutLocalIds a.blocks).length)
    (tracker : StatementAccessTracker (layoutLocalIds a.blocks).length) :
    let check := atStatement hir a state block statement actor
    (∀ tracker', check.checkMutableAccess roots policy tracker = .ok tracker' →
      ∀ root ∈ roots,
        (∀ c c', check.LiveHolder block.terminator (statement :: later) root actor c →
          check.LiveHolder block.terminator (statement :: later) root actor c' → c = c') ∧
        (root ∈ state.effectiveRoots actor →
          ∀ c, ¬ check.LiveHolder block.terminator (statement :: later) root actor c)) ∧
    ∀ root ∈ roots, root ∈ state.effectiveRoots actor → ∀ c,
      check.conflictingActiveLocalForRoot root actor false false = some c →
      ∃ error, check.checkMutableAccess roots policy tracker = .error error := by
  intro check
  obtain ⟨scan, hlaid⟩ := laidOut_of_analysed hunique h
  refine ⟨?_, ?_⟩
  · intro tracker' hok root hroot
    have hle := count_le_one_of_ok hok root (RootSet.mem_iterOnes.2 hroot)
    have hcount : check.activeAliasCountForRoot root actor false false ≤ 1 := by
      rw [hordinary.1, hordinary.2] at hle
      exact hle
    have hcounted : ∀ c, check.LiveHolder block.terminator (statement :: later) root actor c →
        check.isCounted root actor false false c = true := fun c hlive =>
      isCounted_iff.2 (Or.inl (hlive.isConflicting hlaid hblock hsplit hrows hsource))
    refine ⟨fun c c' hc hc' => ?_, fun hholds c hc => ?_⟩
    · by_contra hne
      have hlt := one_lt_count hne (hcounted c hc) (hcounted c' hc')
      omega
    · have hlt := one_lt_count hc.1 (hcounted c hc) (isCounted_iff.2 (Or.inr ⟨rfl, hholds⟩))
      omega
  · intro root hroot hholds c hconflict
    have hfound : check.conflictingActiveLocalForRoot root actor policy.strictMoveExclusivity
        (decide (policy.aliasExclusivity = .Direct)) = some c := by
      rw [hordinary.1, hordinary.2]
      exact hconflict
    exact rejected_of_conflicting check hroot rfl hholds hfound tracker

/-! A loop whose head defines local 1 as a mutable view of local 0, reads local 0 and then
local 1. Index 0 is the viewed local and index 1 the view. -/

def viewExpressions : HirExpressionStore where
  expression id :=
    match id.index with
    | 0 => ⟨.Load ⟨⟨0⟩, []⟩, ⟨0⟩, .Place⟩
    | 1 => ⟨.Load ⟨⟨1⟩, []⟩, ⟨0⟩, .Place⟩
    | _ => ⟨.Bool true, ⟨0⟩, .Const⟩
  rank _ := 0
  rank_child := by rintro ⟨_ | _ | n⟩ child h <;> cases h

def viewHead : HirBlock where
  id := ⟨0⟩
  region := ⟨0⟩
  locals := [⟨⟨0⟩, ⟨0⟩, true, ⟨0⟩⟩, ⟨⟨1⟩, ⟨0⟩, true, ⟨0⟩⟩]
  statements := [⟨⟨0⟩, .Write (.DefineLocal ⟨1⟩) ⟨0⟩⟩, ⟨⟨1⟩, .Expr ⟨0⟩⟩, ⟨⟨2⟩, .Expr ⟨1⟩⟩]
  terminator := .If ⟨2⟩ ⟨0⟩ ⟨1⟩

def viewExit : HirBlock := ⟨⟨1⟩, ⟨0⟩, [], [], .Return []⟩

def viewModule : HirModule :=
  ⟨viewExpressions, [viewHead, viewExit], [], [⟨⟨0⟩, none⟩], fun _ => none⟩

def viewFunction : HirFunction := ⟨⟨0⟩, ⟨0⟩, [⟨0⟩], [], none⟩

def viewAnalysed : AnalysedFunction :=
  (analysedFunction viewModule viewFunction).get (by decide +kernel)

abbrev ViewIndex : Type := Fin (layoutLocalIds viewAnalysed.blocks).length

def viewedIndex : ViewIndex := ⟨0, by decide +kernel⟩

def viewIndex : ViewIndex := ⟨1, by decide +kernel⟩

/-- A state with the given rows for the viewed local and the view. -/
def viewState (viewed view : LocalState (layoutLocalIds viewAnalysed.blocks).length) :
    BorrowState (layoutLocalIds viewAnalysed.blocks).length :=
  ⟨fun i => if i = viewedIndex then viewed else view⟩

/-- The access of the view to the viewed root, at one of the statements. -/
def viewAccess (viewed view : LocalState (layoutLocalIds viewAnalysed.blocks).length)
    (statement : HirStatement) : AccessCheckContext (layoutLocalIds viewAnalysed.blocks).length :=
  atStatement viewModule viewAnalysed (viewState viewed view) viewHead statement viewIndex

def definitionPolicy : MutableAccessPolicy := ⟨true, false, false, .All⟩

theorem viewed_reads_head :
    ReadsFirst viewExpressions ⟨0⟩ viewHead.terminator viewHead.statements :=
  Or.inl (Or.inl ⟨⟨0⟩, List.mem_cons_self, .load rfl rfl⟩)

/-- The definition of the view. -/
def definitionAccess : AccessCheckContext (layoutLocalIds viewAnalysed.blocks).length :=
  viewAccess (.slot _) (.uninit _) ⟨⟨0⟩, .Write (.DefineLocal ⟨1⟩) ⟨0⟩⟩

/-- An access at the last statement, the viewed local's row an alias without value roots. -/
def backEdgeAccess : AccessCheckContext (layoutLocalIds viewAnalysed.blocks).length :=
  viewAccess ⟨.union .SLOT .ALIAS, ∅, ∅⟩ ⟨.SLOT, {viewedIndex}, ∅⟩ ⟨⟨2⟩, .Expr ⟨1⟩⟩

/-- The definition of the view is accepted while the viewed local is a live holder and the
witness search names it, since the view does not hold the root yet. And an actor that holds the
root is accepted beside a live holder whose row is an alias without value roots. -/
theorem checkMutableAccess_admits_live_holder :
    ((definitionAccess.checkMutableAccess {viewedIndex} definitionPolicy (.new _)).isOk = true ∧
      definitionAccess.conflictingActiveLocalForRoot viewedIndex viewIndex false false =
        some viewedIndex ∧
      definitionAccess.LiveHolder viewHead.terminator viewHead.statements viewedIndex viewIndex
        viewedIndex) ∧
    backEdgeAccess.state.DirectWithinValues ∧
      viewedIndex ∈ backEdgeAccess.state.effectiveRoots viewIndex ∧
      (backEdgeAccess.checkMutableAccess {viewedIndex} definitionPolicy (.new _)).isOk = true ∧
      backEdgeAccess.LiveHolder viewHead.terminator [⟨⟨2⟩, .Expr ⟨1⟩⟩] viewedIndex viewIndex
        viewedIndex := by
  have hindex : viewAnalysed.layout.localIds viewedIndex = ⟨0⟩ := by decide +kernel
  have hhead : ReadsOnPath viewModule ⟨0⟩ ⟨0⟩ := .here rfl viewed_reads_head
  have hlast : ReadsFrom viewModule (viewAnalysed.layout.localIds viewedIndex)
      viewHead.terminator [⟨⟨2⟩, .Expr ⟨1⟩⟩] := by
    rw [hindex]
    refine Or.inr ⟨?_, ⟨0⟩, by decide, hhead⟩
    rintro (⟨statement, hmem, hdefines⟩ | hdefines)
    · cases List.mem_singleton.1 hmem
      rcases hdefines with ⟨value, hkind⟩ | hdestination
      · cases hkind
      · cases hdestination
    · exact hdefines
  have hfirst : ReadsFrom viewModule (viewAnalysed.layout.localIds viewedIndex)
      viewHead.terminator viewHead.statements := by
    rw [hindex]
    exact Or.inl viewed_reads_head
  refine ⟨⟨by decide +kernel, by decide +kernel, by decide +kernel, by decide +kernel,
    by decide +kernel, hfirst⟩, by decide +kernel, by decide +kernel, by decide +kernel,
    by decide +kernel, by decide +kernel, by decide +kernel, hlast⟩

/-- The access of the viewed local by itself, at its first read. -/
def viewedAccess : AccessCheckContext (layoutLocalIds viewAnalysed.blocks).length :=
  atStatement viewModule viewAnalysed (viewState (.slot _) (.uninit _)) viewHead
    ⟨⟨1⟩, .Expr ⟨0⟩⟩ viewedIndex

theorem checkMutableAccess_exclusive_viewed :
    (viewedAccess.checkMutableAccess {viewedIndex} definitionPolicy (.new _)).isOk = true ∧
      ∀ c, ¬ viewedAccess.LiveHolder viewHead.terminator
        [⟨⟨1⟩, .Expr ⟨0⟩⟩, ⟨⟨2⟩, .Expr ⟨1⟩⟩] viewedIndex viewedIndex c := by
  have hunique : UniqueNodeIds viewModule := by
    simp only [UniqueNodeIds]
    decide
  have hblock : viewHead ∈ viewAnalysed.blocks := by decide +kernel
  have hsplit : viewHead.statements = [⟨⟨0⟩, .Write (.DefineLocal ⟨1⟩) ⟨0⟩⟩] ++
      ⟨⟨1⟩, .Expr ⟨0⟩⟩ :: [⟨⟨2⟩, .Expr ⟨1⟩⟩] := rfl
  have hrows : (viewState (.slot _) (.uninit _)).AliasesHaveRoots := by
    intro i
    revert i
    decide +kernel
  have hsource : viewModule.localOriginKind (viewAnalysed.layout.localIds viewedIndex) ≠
      some .CompilerTemp := by decide
  have hordinary : definitionPolicy.strictMoveExclusivity = false ∧
      definitionPolicy.aliasExclusivity = .All := ⟨rfl, rfl⟩
  have hok : (viewedAccess.checkMutableAccess {viewedIndex} definitionPolicy (.new _)).isOk =
      true := by decide +kernel
  refine ⟨hok, ?_⟩
  cases hresult : viewedAccess.checkMutableAccess {viewedIndex} definitionPolicy (.new _) with
  | error error =>
      rw [hresult] at hok
      cases hok
  | ok tracker =>
      have hexclusive := checkMutableAccess_exclusive hunique (Option.some_get _).symm hblock hsplit
        hrows hsource hordinary {viewedIndex} (.new _)
      exact (hexclusive.1 tracker hresult viewedIndex (Finset.mem_singleton_self _)).2
        (BorrowState.effectiveRootContains_iff.1 (by decide +kernel))

end AccessCheckContext

end Moth.Borrow
