import Mathlib.Data.Finset.Insert
import Moth.ConstEval.FoldWalk
import Moth.Datatypes.Number
import Moth.Symbols.StringInterning

/-!
# Match coverage

`ast/statements/match_exhaustiveness.rs`: the tracker that flags unreachable
arms while a match is parsed, and the check that the arms cover the subject.

A pattern keeps what coverage reads of it. Captures, binding paths and spans
are left out.
-/

namespace Moth.Ast

open Moth.ConstEval Moth.Datatypes Moth.Lexical Moth.Symbols

/-! ## Patterns -/

inductive PatternValue where
  | Constant (id : ConstValueId)
  | Runtime (id : ExprId)
deriving DecidableEq

inductive RelationalPatternOp where
  | LessThan
  | LessThanOrEqual
  | GreaterThan
  | GreaterThanOrEqual
deriving DecidableEq

inductive MatchPattern where
  | Literal (value : PatternValue)
  | OptionNone
  | OptionValue (value : PatternValue)
  | OptionPresentCapture (name : StringId)
  | Relational (op : RelationalPatternOp) (value : PatternValue)
  | ChoiceVariant (nominalPath : PathId) (tag : Nat)
deriving DecidableEq

/-- A numeric pattern whose value waits for the subject type. -/
structure RetainedPattern where
  relational : Option RelationalPatternOp
  value : ExprId
deriving DecidableEq

inductive PendingOptionPattern where
  | PresentCapture (name : StringId)
  | PresentValue (pattern : MatchPattern)
  | RetainedValue (pattern : RetainedPattern)
deriving DecidableEq

inductive DeferredArmPattern where
  | Ready (pattern : MatchPattern)
  | Retained (pattern : RetainedPattern)
  | PendingChoice (nominalPath : PathId) (tag : Nat)
  | PendingOption (pattern : PendingOptionPattern)
deriving DecidableEq

/-- One arm as coverage sees it. -/
structure ParsedArm where
  pattern : DeferredArmPattern
  guardIsPresent : Bool
  matchedChoiceVariant : Option StringId
deriving DecidableEq

inductive LiteralPatternKey where
  | FixedScalar (value : FixedScalarValue)
  | Number (value : NumberValue)
  | StringSlice (text : StringId)
  | Bool (value : Bool)
  | Char (value : Char)
deriving DecidableEq

/-- Constant content. What a literal is not keyed by is `other`. -/
inductive PatternContent where
  | FixedScalar (value : FixedScalarValue)
  | Number (value : NumberValue)
  | Text (text : StringId)
  | Bool (value : Bool)
  | Char (value : Char)
  | other
deriving DecidableEq

/-- The payloads of the constant store. -/
abbrev PatternContents : Type := ConstValueId → Option PatternContent

def extractLiteralKey (constValues : PatternContents) : PatternValue → Option LiteralPatternKey
  | .Runtime _ => none
  | .Constant id =>
      match constValues id with
      | some (.FixedScalar value) => some (.FixedScalar value)
      | some (.Number value) => some (.Number value)
      | some (.Text text) => some (.StringSlice text)
      | some (.Bool value) => some (.Bool value)
      | some (.Char value) => some (.Char value)
      | some .other | none => none

/-- The pattern that a retained one becomes when its value is there. -/
def finishRetainedPattern (value : ExprId → PatternValue) (pattern : RetainedPattern) :
    MatchPattern :=
  match pattern.relational with
  | some op => .Relational op (value pattern.value)
  | none => .Literal (value pattern.value)

/-! ## The tracker -/

structure OptionExhaustivenessFacts where
  seenUnguardedNone : Bool := false
  seenUnguardedPresentCapture : Bool := false

structure MatchExhaustivenessFacts where
  matchedChoiceVariants : Finset StringId := ∅
  hasGuardedArms : Bool := false
  optionPatterns : OptionExhaustivenessFacts := {}

namespace MatchExhaustivenessFacts

/-- Whether the variant was new, and the facts with it. -/
def recordChoiceVariant (facts : MatchExhaustivenessFacts) (name : StringId) :
    Bool × MatchExhaustivenessFacts :=
  (decide (name ∉ facts.matchedChoiceVariants),
    { facts with matchedChoiceVariants := insert name facts.matchedChoiceVariants })

def recordGuard (facts : MatchExhaustivenessFacts) (guardIsPresent : Bool) :
    MatchExhaustivenessFacts :=
  { facts with hasGuardedArms := facts.hasGuardedArms || guardIsPresent }

def recordUnguardedPresentCapture (facts : MatchExhaustivenessFacts) : MatchExhaustivenessFacts :=
  { facts with
    optionPatterns := { facts.optionPatterns with seenUnguardedPresentCapture := true } }

def recordUnguardedPattern (facts : MatchExhaustivenessFacts) :
    MatchPattern → MatchExhaustivenessFacts
  | .OptionPresentCapture _ => facts.recordUnguardedPresentCapture
  | .OptionNone =>
      { facts with optionPatterns := { facts.optionPatterns with seenUnguardedNone := true } }
  | _ => facts

def optionArmsCover (facts : MatchExhaustivenessFacts) : Bool :=
  facts.optionPatterns.seenUnguardedNone && facts.optionPatterns.seenUnguardedPresentCapture

end MatchExhaustivenessFacts

structure MatchArmCoverageTracker where
  facts : MatchExhaustivenessFacts := {}
  matchedUnguardedLiteralPatterns : Finset LiteralPatternKey := ∅
  seenUnguardedNone : Bool := false
  seenUnguardedPresentCapture : Bool := false

namespace MatchArmCoverageTracker

/-- Record the variant that the arm names. The flag is set if an arm named it before. -/
def noteChoiceVariant (self : MatchArmCoverageTracker) (variant : Option StringId) :
    Bool × MatchArmCoverageTracker :=
  match variant with
  | none => (false, self)
  | some name =>
      let (new, facts) := self.facts.recordChoiceVariant name
      (!new, { self with facts })

/-- Record the content of a literal. The flag is set if an unguarded arm had it before. -/
def noteLiteral (self : MatchArmCoverageTracker) (pattern : MatchPattern) (guardIsPresent : Bool)
    (constValues : PatternContents) : Bool × MatchArmCoverageTracker :=
  match pattern with
  | .Literal value =>
      match extractLiteralKey constValues value with
      | none => (false, self)
      | some key =>
          if key ∈ self.matchedUnguardedLiteralPatterns then (true, self)
          else if guardIsPresent then (false, self)
          else
            (false, { self with
              matchedUnguardedLiteralPatterns :=
                insert key self.matchedUnguardedLiteralPatterns })
  | _ => (false, self)

/-- Record an unguarded option arm. The flag is set if an unguarded `none` was there before. -/
def noteOption (self : MatchArmCoverageTracker) (pattern : MatchPattern)
    (guardIsPresent : Bool) : Bool × MatchArmCoverageTracker :=
  match pattern, guardIsPresent with
  | .OptionPresentCapture _, false =>
      (false, { self with
        seenUnguardedPresentCapture := true
        facts := self.facts.recordUnguardedPattern pattern })
  | .OptionNone, false =>
      (self.seenUnguardedNone, { self with
        seenUnguardedNone := true
        facts := self.facts.recordUnguardedPattern pattern })
  | _, _ => (false, self)

def recordGuard (self : MatchArmCoverageTracker) (guardIsPresent : Bool) :
    MatchArmCoverageTracker :=
  { self with facts := self.facts.recordGuard guardIsPresent }

/-- Whether an unguarded capture already takes every present value that the pattern could. -/
def afterCatchAll (self : MatchArmCoverageTracker) : MatchPattern → Bool
  | .OptionValue _ | .Relational _ _ | .OptionPresentCapture _ => self.seenUnguardedPresentCapture
  | _ => false

def recordMaterialisedPattern (self : MatchArmCoverageTracker) (pattern : MatchPattern)
    (guardIsPresent : Bool) (matchedChoiceVariant : Option StringId)
    (constValues : PatternContents) : Bool × MatchArmCoverageTracker :=
  if self.afterCatchAll pattern then (true, self.recordGuard guardIsPresent)
  else
    let (repeated, self) := self.noteChoiceVariant matchedChoiceVariant
    let (duplicate, self) := self.noteLiteral pattern guardIsPresent constValues
    let (again, self) := self.noteOption pattern guardIsPresent
    (repeated || duplicate || again, self.recordGuard guardIsPresent)

/-- `record_arm`, for a pattern that was materialised at the body root. -/
def recordArm (self : MatchArmCoverageTracker) (pattern : MatchPattern) (guardIsPresent : Bool)
    (matchedChoiceVariant : Option StringId) (constValues : PatternContents) :
    Bool × MatchArmCoverageTracker :=
  self.recordMaterialisedPattern pattern guardIsPresent matchedChoiceVariant constValues

def recordPendingOptionArm (self : MatchArmCoverageTracker) (pattern : PendingOptionPattern)
    (guardIsPresent : Bool) : Bool × MatchArmCoverageTracker :=
  let unreachable := self.seenUnguardedPresentCapture
  let self :=
    match pattern, unreachable || guardIsPresent with
    | .PresentCapture _, false =>
        { self with
          seenUnguardedPresentCapture := true
          facts := self.facts.recordUnguardedPresentCapture }
    | _, _ => self
  (unreachable, self.recordGuard guardIsPresent)

/-- Whether the arm is unreachable, and the tracker after it. -/
def recordDeferredArm (self : MatchArmCoverageTracker) (arm : ParsedArm)
    (constValues : PatternContents) : Bool × MatchArmCoverageTracker :=
  match arm.pattern with
  | .Ready pattern =>
      self.recordMaterialisedPattern pattern arm.guardIsPresent arm.matchedChoiceVariant constValues
  | .Retained _ => (false, self.recordGuard arm.guardIsPresent)
  | .PendingChoice _ _ =>
      let (repeated, self) := self.noteChoiceVariant arm.matchedChoiceVariant
      (repeated, self.recordGuard arm.guardIsPresent)
  | .PendingOption pending => self.recordPendingOptionArm pending arm.guardIsPresent

/-- Record the arms before `else` in authored order. -/
def recordArms (constValues : PatternContents) :
    List ParsedArm → MatchArmCoverageTracker → List Bool × MatchArmCoverageTracker
  | [], self => ([], self)
  | arm :: rest, self =>
      let (unreachable, self) := self.recordDeferredArm arm constValues
      let (flags, self) := recordArms constValues rest self
      (unreachable :: flags, self)

/-- The coverage of one arm in `resume_deferred_match`: only an arm whose value waited for the
subject is recorded. -/
def resumeArm (self : MatchArmCoverageTracker) (arm : ParsedArm) (value : ExprId → PatternValue)
    (constValues : PatternContents) : Bool × MatchArmCoverageTracker :=
  match arm.pattern with
  | .Retained pattern =>
      self.recordArm (finishRetainedPattern value pattern) arm.guardIsPresent none constValues
  | _ => (false, self)

/-- The arms before `else` once more, in a tracker of their own. -/
def resumeArms (constValues : PatternContents) (value : ExprId → PatternValue) :
    List ParsedArm → MatchArmCoverageTracker → List Bool × MatchArmCoverageTracker
  | [], self => ([], self)
  | arm :: rest, self =>
      let (unreachable, self) := self.resumeArm arm value constValues
      let (flags, self) := resumeArms constValues value rest self
      (unreachable :: flags, self)

end MatchArmCoverageTracker

/-! ## Exhaustiveness -/

inductive NonExhaustiveMatchReason where
  | MissingElseArm
  | GuardedArmsRequireElse
  | MissingVariants
  | MissingOptionalPatterns
deriving DecidableEq

structure NonExhaustiveMatch where
  reason : NonExhaustiveMatchReason
  missingVariants : List StringId
deriving DecidableEq

inductive MatchExhaustivenessSubject where
  | Known (typeId : TypeId)
  | PendingNumeric
  | PendingChoice (declaredTypeId : TypeId)
  | PendingOption
deriving DecidableEq

/-- What coverage reads of the type environment. A choice declares each variant name once. -/
structure MatchTypes where
  variantsFor : TypeId → Option (List StringId)
  optionInnerType : TypeId → Option TypeId
  nodup : ∀ typeId variants, variantsFor typeId = some variants → variants.Nodup

def enforceChoiceVariants (types : MatchTypes) (subjectTypeId : TypeId) (hasDefault : Bool)
    (facts : MatchExhaustivenessFacts) : Except NonExhaustiveMatch Unit :=
  if hasDefault then .ok ()
  else if facts.hasGuardedArms then .error ⟨.GuardedArmsRequireElse, []⟩
  else
    let missingVariants := ((types.variantsFor subjectTypeId).getD []).filter fun name =>
      decide (name ∉ facts.matchedChoiceVariants)
    if missingVariants.isEmpty then .ok ()
    else .error ⟨.MissingVariants, missingVariants⟩

def enforceMatchExhaustiveness (types : MatchTypes) (subject : MatchExhaustivenessSubject)
    (hasDefault : Bool) (facts : MatchExhaustivenessFacts) : Except NonExhaustiveMatch Unit :=
  match subject with
  | .PendingChoice declaredTypeId =>
      enforceChoiceVariants types declaredTypeId hasDefault facts
  | .PendingOption =>
      if hasDefault || facts.optionArmsCover then .ok ()
      else .error ⟨.MissingOptionalPatterns, []⟩
  | .Known subjectTypeId =>
      if (types.variantsFor subjectTypeId).isSome then
        enforceChoiceVariants types subjectTypeId hasDefault facts
      else if hasDefault then .ok ()
      else
        let isOption := (types.optionInnerType subjectTypeId).isSome
        if isOption && facts.optionArmsCover then .ok ()
        else .error ⟨if isOption then .MissingOptionalPatterns else .MissingElseArm, []⟩
  | .PendingNumeric => if hasDefault then .ok () else .error ⟨.MissingElseArm, []⟩

end Moth.Ast
