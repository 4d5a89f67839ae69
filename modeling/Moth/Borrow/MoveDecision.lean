import Moth.Borrow.FutureUse

/-!
# Optional transfer

`classify_move_decision`: whether an access may hand over the responsibility
to destroy its roots. One pass over the roots collects which kinds of future
use occur; a path-dependent use ends it at once. `Move` is left exactly when
there is a root and none has any future use.
-/

namespace Moth.Borrow

open Moth.Hir

inductive MoveDecision where
  | Borrow
  | Move
deriving DecidableEq

section Decision

variable {n : Nat}

/-- The rest of the pass, with the kinds seen so far. -/
def classifyRoots (layout : FunctionLayout n) (block : BlockId) (currentOrder : Int) :
    List (Fin n) → Bool → Bool → MoveDecision
  | [], sawMust, sawNone => if sawMust then .Borrow else if sawNone then .Move else .Borrow
  | root :: rest, sawMust, sawNone =>
      match layout.futureUseKind block root currentOrder with
      | .Must => classifyRoots layout block currentOrder rest true sawNone
      | .None => classifyRoots layout block currentOrder rest sawMust true
      | .May => .Borrow

def classifyMoveDecision (layout : FunctionLayout n) (block : BlockId) (roots : RootSet n)
    (currentOrder : Int) : MoveDecision :=
  classifyRoots layout block currentOrder roots.iterOnes false false

theorem classifyRoots_eq_move {layout : FunctionLayout n} {block : BlockId} {currentOrder : Int}
    {roots : List (Fin n)} {sawMust sawNone : Bool} :
    classifyRoots layout block currentOrder roots sawMust sawNone = .Move ↔
      sawMust = false ∧ (sawNone = true ∨ roots ≠ []) ∧
        ∀ root ∈ roots, layout.futureUseKind block root currentOrder = .None := by
  induction roots generalizing sawMust sawNone with
  | nil => cases sawMust <;> cases sawNone <;> simp [classifyRoots]
  | cons root rest ih =>
      simp only [classifyRoots]
      cases hkind : layout.futureUseKind block root currentOrder with
      | None => simp [ih, hkind]
      | May => simp [hkind]
      | Must => simp [ih, hkind]

theorem classifyMoveDecision_eq_move {layout : FunctionLayout n} {block : BlockId}
    {roots : RootSet n} {currentOrder : Int} :
    classifyMoveDecision layout block roots currentOrder = .Move ↔
      roots.Nonempty ∧ ∀ root ∈ roots, layout.futureUseKind block root currentOrder = .None := by
  have hnonempty : roots.iterOnes ≠ [] ↔ roots.Nonempty := by
    constructor
    · intro hne
      obtain ⟨root, hroot⟩ := List.exists_mem_of_ne_nil _ hne
      exact ⟨root, RootSet.mem_iterOnes.1 hroot⟩
    · rintro ⟨root, hroot⟩
      exact List.ne_nil_of_mem (RootSet.mem_iterOnes.2 hroot)
  rw [classifyMoveDecision, classifyRoots_eq_move]
  simp [hnonempty]

end Decision

/-- After a statement whose roots may move, no path reads one of them before it is redefined. -/
theorem classifyMoveDecision_sound {hir : HirModule} (hunique : UniqueNodeIds hir)
    {function : HirFunction} {a : AnalysedFunction} (h : analysedFunction hir function = some a)
    {block : HirBlock} (hblock : block ∈ a.blocks) {earlier later : List HirStatement}
    {statement : HirStatement} (hsplit : block.statements = earlier ++ statement :: later)
    {roots : RootSet (layoutLocalIds a.blocks).length}
    (hmove : classifyMoveDecision a.layout block.id roots
      (a.layout.statementOrderOrUnknown statement.id) = .Move) :
    ∀ root ∈ roots, ¬ ReadsFrom hir (a.layout.localIds root) block.terminator later := by
  obtain ⟨scan, hlaid⟩ := laidOut_of_analysed hunique h
  intro root hroot
  exact hlaid.not_readsFrom hblock hsplit ((classifyMoveDecision_eq_move.1 hmove).2 root hroot)

/-! A loop that rebinds local 1 from local 0 at its head and loads it again at its end. -/

def rebindingExpressions : HirExpressionStore where
  expression id := ⟨.Load ⟨if id = ⟨0⟩ then ⟨0⟩ else ⟨1⟩, []⟩, ⟨0⟩, .Place⟩
  rank _ := 0
  rank_child := fun _ _ hchild => absurd hchild List.not_mem_nil

def rebindingHead : HirBlock where
  id := ⟨0⟩
  region := ⟨0⟩
  locals := [⟨⟨0⟩, ⟨0⟩, true, ⟨0⟩⟩, ⟨⟨1⟩, ⟨0⟩, true, ⟨0⟩⟩]
  statements := [⟨⟨0⟩, .Write (.DefineLocal ⟨1⟩) ⟨0⟩⟩, ⟨⟨1⟩, .Expr ⟨1⟩⟩]
  terminator := .If ⟨0⟩ ⟨0⟩ ⟨1⟩

def rebindingExit : HirBlock := ⟨⟨1⟩, ⟨0⟩, [], [], .Return []⟩

def rebindingModule : HirModule :=
  ⟨rebindingExpressions, [rebindingHead, rebindingExit], [], [⟨⟨0⟩, none⟩], fun _ => none⟩

def rebindingFunction : HirFunction := ⟨⟨0⟩, ⟨0⟩, [⟨0⟩], [], none⟩

def rebindingAnalysed : AnalysedFunction :=
  (analysedFunction rebindingModule rebindingFunction).get (by decide +kernel)

/-- The roots of local 1. -/
def reboundRoots : RootSet (layoutLocalIds rebindingAnalysed.blocks).length :=
  Finset.univ.filter fun i => rebindingAnalysed.layout.localIds i = ⟨1⟩

theorem classifyMoveDecision_sound_rebinding :
    classifyMoveDecision rebindingAnalysed.layout rebindingHead.id reboundRoots
        (rebindingAnalysed.layout.statementOrderOrUnknown ⟨1⟩) = .Move ∧
      ∀ root ∈ reboundRoots, ¬ ReadsFrom rebindingModule (rebindingAnalysed.layout.localIds root)
        rebindingHead.terminator [] := by
  have hunique : UniqueNodeIds rebindingModule := by
    simp only [UniqueNodeIds]
    decide
  have hblock : rebindingHead ∈ rebindingAnalysed.blocks := by decide +kernel
  have hsplit : rebindingHead.statements =
      [⟨⟨0⟩, .Write (.DefineLocal ⟨1⟩) ⟨0⟩⟩] ++ ⟨⟨1⟩, .Expr ⟨1⟩⟩ :: [] := rfl
  have hmove : classifyMoveDecision rebindingAnalysed.layout rebindingHead.id reboundRoots
      (rebindingAnalysed.layout.statementOrderOrUnknown ⟨1⟩) = .Move := by decide +kernel
  exact ⟨hmove, classifyMoveDecision_sound hunique (Option.some_get _).symm hblock hsplit hmove⟩

end Moth.Borrow
