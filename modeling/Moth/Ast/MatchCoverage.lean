import Mathlib.Data.List.Nodup
import Moth.Ast.MatchExhaustiveness

/-!
# What match coverage promises

A subject value selects the first arm whose pattern takes it and whose guard,
if there is one, holds. `Records` says what the tracker knows of the arms it
has seen. The check that accepts a match reads it in one direction, an arm's
unreachable flag in the other.

The flag of a choice arm rests on every earlier arm of its variant, guarded
ones included. So it is right exactly where some earlier arm of the variant has
no guard.
-/

namespace Moth.Ast

open Moth.ConstEval Moth.Datatypes Moth.Symbols

/-! ## Selection -/

inductive SubjectValue (V : Type) where
  | Choice (tag : Nat)
  | OptionNone
  | OptionPresent (value : V)
  | Plain (value : V)

/-- What the values in patterns mean. A constant takes what its content takes. -/
structure PatternMeaning (V : Type) where
  content : LiteralPatternKey → V → Bool
  value : PatternValue → V → Bool
  relation : RelationalPatternOp → PatternValue → V → Bool
  retained : RetainedPattern → V → Bool

section Selection

variable {V : Type} (constValues : PatternContents) (meaning : PatternMeaning V)

def PatternMeaning.literal (pattern : PatternValue) (value : V) : Bool :=
  match extractLiteralKey constValues pattern with
  | some key => meaning.content key value
  | none => meaning.value pattern value

def MatchPattern.takes : MatchPattern → SubjectValue V → Bool
  | .Literal pattern, .Plain value => meaning.literal constValues pattern value
  | .OptionNone, .OptionNone => true
  | .OptionValue pattern, .OptionPresent value => meaning.literal constValues pattern value
  | .OptionPresentCapture _, .OptionPresent _ => true
  | .Relational op pattern, .Plain value => meaning.relation op pattern value
  | .Relational op pattern, .OptionPresent value => meaning.relation op pattern value
  | .ChoiceVariant _ tag, .Choice subject => decide (tag = subject)
  | _, _ => false

/-- The pattern that the body root makes of a retained one takes the same values. -/
def DeferredArmPattern.takes : DeferredArmPattern → SubjectValue V → Bool
  | .Ready pattern, value => pattern.takes constValues meaning value
  | .Retained pattern, .Plain value => meaning.retained pattern value
  | .PendingChoice _ tag, .Choice subject => decide (tag = subject)
  | .PendingOption (.PresentCapture _), .OptionPresent _ => true
  | .PendingOption (.PresentValue pattern), .OptionPresent value =>
      pattern.takes constValues meaning (.Plain value)
  | .PendingOption (.RetainedValue pattern), .OptionPresent value =>
      meaning.retained pattern value
  | _, _ => false

/-- Whether the arm runs for the value where its guard, if it has one, turns out as given. -/
def ParsedArm.runs (arm : ParsedArm) (value : SubjectValue V) (outcome : Bool) : Bool :=
  arm.pattern.takes constValues meaning value && (!arm.guardIsPresent || outcome)

/-- The first arm that runs. -/
def selectedArm (arms : List ParsedArm) (value : SubjectValue V) (outcomes : Nat → Bool) :
    Option Nat :=
  arms.zipIdx.findIdx? fun entry => entry.1.runs constValues meaning value (outcomes entry.2)

variable {constValues meaning} {arms : List ParsedArm} {value : SubjectValue V}
  {outcomes : Nat → Bool}

theorem selectedArm_eq_some {i : Nat} :
    selectedArm constValues meaning arms value outcomes = some i ↔
      (∃ arm, arms[i]? = some arm ∧ arm.runs constValues meaning value (outcomes i) = true) ∧
        ∀ j < i, ∀ arm, arms[j]? = some arm →
          arm.runs constValues meaning value (outcomes j) = false := by
  rw [selectedArm, List.findIdx?_eq_some_iff_getElem]
  simp only [List.length_zipIdx, List.getElem_zipIdx, Nat.zero_add, Bool.not_eq_true]
  refine ⟨fun ⟨h, hruns, hbefore⟩ => ⟨⟨_, List.getElem?_eq_getElem h, hruns⟩, ?_⟩,
    fun ⟨⟨arm, harm, hruns⟩, hbefore⟩ => ?_⟩
  · intro j hj arm harm
    obtain ⟨hlt, rfl⟩ := List.getElem?_eq_some_iff.1 harm
    exact hbefore j hj
  · obtain ⟨h, rfl⟩ := List.getElem?_eq_some_iff.1 harm
    exact ⟨h, hruns, fun j hj => hbefore j hj _ (List.getElem?_eq_getElem (Nat.lt_trans hj h))⟩

theorem selectedArm_isSome {arm : ParsedArm} (h : arm ∈ arms)
    (hruns : ∀ outcome, arm.runs constValues meaning value outcome = true) :
    (selectedArm constValues meaning arms value outcomes).isSome := by
  obtain ⟨i, hi, rfl⟩ := List.mem_iff_getElem.1 h
  rw [selectedArm, List.findIdx?_isSome, List.any_eq_true]
  refine ⟨(arms[i], i), List.mem_iff_getElem.2 ⟨i, ?_, ?_⟩, hruns _⟩
  · rwa [List.length_zipIdx]
  · rw [List.getElem_zipIdx, Nat.zero_add]

theorem ParsedArm.runs_unguarded {arm : ParsedArm} (h : arm.guardIsPresent = false)
    (htakes : arm.pattern.takes constValues meaning value = true) (outcome : Bool) :
    arm.runs constValues meaning value outcome = true := by
  rw [ParsedArm.runs, htakes, h]
  rfl

end Selection

/-! ## Subjects -/

inductive SubjectKind where
  | Choice (variants : List StringId)
  | Option
  | Other

def MatchExhaustivenessSubject.kind (types : MatchTypes) :
    MatchExhaustivenessSubject → SubjectKind
  | .PendingChoice declared => .Choice ((types.variantsFor declared).getD [])
  | .PendingOption => .Option
  | .PendingNumeric => .Other
  | .Known typeId =>
      match types.variantsFor typeId with
      | some variants => .Choice variants
      | none => if (types.optionInnerType typeId).isSome then .Option else .Other

/-- The values of a subject. -/
def SubjectKind.Has {V : Type} : SubjectKind → SubjectValue V → Prop
  | .Choice variants, .Choice tag => tag < variants.length
  | .Option, .OptionNone => True
  | .Option, .OptionPresent _ => True
  | .Other, .Plain _ => True
  | _, _ => False

/-- The patterns that the header parser builds for a subject: a choice arm names its variant. -/
def SubjectKind.Fits : SubjectKind → ParsedArm → Prop
  | .Choice variants, arm =>
      match arm.pattern with
      | .Ready (.ChoiceVariant _ tag) | .PendingChoice _ tag =>
          ∃ name, variants[tag]? = some name ∧ arm.matchedChoiceVariant = some name
      | _ => False
  | .Option, arm =>
      arm.matchedChoiceVariant = none ∧
        match arm.pattern with
        | .Ready .OptionNone | .Ready (.OptionValue _) | .Ready (.OptionPresentCapture _)
        | .Ready (.Relational _ _) | .PendingOption _ => True
        | _ => False
  | .Other, arm =>
      arm.matchedChoiceVariant = none ∧
        match arm.pattern with
        | .Ready (.Literal _) | .Ready (.Relational _ _) | .Retained _ => True
        | _ => False

theorem SubjectKind.Fits.choice {variants : List StringId} {arm : ParsedArm}
    (h : SubjectKind.Fits (.Choice variants) arm) :
    ∃ tag name path, variants[tag]? = some name ∧ arm.matchedChoiceVariant = some name ∧
      (arm.pattern = .Ready (.ChoiceVariant path tag) ∨ arm.pattern = .PendingChoice path tag) := by
  obtain ⟨pattern, guard, matched⟩ := arm
  match pattern, h with
  | .Ready (.ChoiceVariant path tag), ⟨name, htag, hname⟩ =>
      exact ⟨tag, name, path, htag, hname, .inl rfl⟩
  | .PendingChoice path tag, ⟨name, htag, hname⟩ =>
      exact ⟨tag, name, path, htag, hname, .inr rfl⟩

theorem SubjectKind.Fits.named_or {kind : SubjectKind} {arm : ParsedArm} (h : kind.Fits arm) :
    (∃ tag name path, arm.matchedChoiceVariant = some name ∧
      (arm.pattern = .Ready (.ChoiceVariant path tag) ∨ arm.pattern = .PendingChoice path tag)) ∨
      arm.matchedChoiceVariant = none := by
  cases kind with
  | Choice variants =>
      obtain ⟨tag, name, path, _, hname, hpattern⟩ := h.choice
      exact .inl ⟨tag, name, path, hname, hpattern⟩
  | Option => exact .inr h.1
  | Other => exact .inr h.1

/-! ## What the tracker knows -/

def DeferredArmPattern.capturesPresent : DeferredArmPattern → Bool
  | .Ready (.OptionPresentCapture _) | .PendingOption (.PresentCapture _) => true
  | _ => false

def DeferredArmPattern.isNone : DeferredArmPattern → Bool
  | .Ready .OptionNone => true
  | _ => false

/-- The content that a literal pattern is keyed by. -/
def DeferredArmPattern.key (constValues : PatternContents) :
    DeferredArmPattern → Option LiteralPatternKey
  | .Ready (.Literal value) => extractLiteralKey constValues value
  | _ => none

/-- What the tracker has recorded of the arms before. -/
structure Records (constValues : PatternContents) (tracker : MatchArmCoverageTracker)
    (earlier : List ParsedArm) : Prop where
  variants : ∀ name, name ∈ tracker.facts.matchedChoiceVariants ↔
    ∃ arm ∈ earlier, arm.matchedChoiceVariant = some name
  guards : tracker.facts.hasGuardedArms = true ↔ ∃ arm ∈ earlier, arm.guardIsPresent = true
  none : tracker.seenUnguardedNone = true →
    ∃ arm ∈ earlier, arm.guardIsPresent = false ∧ arm.pattern.isNone = true
  capture : tracker.seenUnguardedPresentCapture = true →
    ∃ arm ∈ earlier, arm.guardIsPresent = false ∧ arm.pattern.capturesPresent = true
  literals : ∀ key ∈ tracker.matchedUnguardedLiteralPatterns,
    ∃ arm ∈ earlier, arm.guardIsPresent = false ∧ arm.pattern.key constValues = some key
  options : tracker.facts.optionPatterns =
    ⟨tracker.seenUnguardedNone, tracker.seenUnguardedPresentCapture⟩

/-- What recording one arm adds to a tracker. -/
structure Adds (constValues : PatternContents) (before : MatchArmCoverageTracker)
    (arm : ParsedArm) (after : MatchArmCoverageTracker) : Prop where
  variants : ∀ name, name ∈ after.facts.matchedChoiceVariants ↔
    name ∈ before.facts.matchedChoiceVariants ∨ arm.matchedChoiceVariant = some name
  guards : after.facts.hasGuardedArms = (before.facts.hasGuardedArms || arm.guardIsPresent)
  none : after.seenUnguardedNone =
    (before.seenUnguardedNone || !arm.guardIsPresent && arm.pattern.isNone)
  capture : after.seenUnguardedPresentCapture =
    (before.seenUnguardedPresentCapture || !arm.guardIsPresent && arm.pattern.capturesPresent)
  literals : ∀ key ∈ after.matchedUnguardedLiteralPatterns,
    key ∈ before.matchedUnguardedLiteralPatterns ∨
      arm.guardIsPresent = false ∧ arm.pattern.key constValues = some key
  options : before.facts.optionPatterns =
      ⟨before.seenUnguardedNone, before.seenUnguardedPresentCapture⟩ →
    after.facts.optionPatterns = ⟨after.seenUnguardedNone, after.seenUnguardedPresentCapture⟩

variable {constValues : PatternContents} {tracker : MatchArmCoverageTracker}
  {earlier : List ParsedArm} {kind : SubjectKind} {arm : ParsedArm}

theorem Records.append {after : MatchArmCoverageTracker}
    (h : Records constValues tracker earlier) (hadds : Adds constValues tracker arm after) :
    Records constValues after (earlier ++ [arm]) := by
  have hmem : ∀ {P : ParsedArm → Prop}, (∃ a ∈ earlier, P a) → ∃ a ∈ earlier ++ [arm], P a := by
    intro P hex
    obtain ⟨a, ha, hp⟩ := hex
    exact ⟨a, List.mem_append_left _ ha, hp⟩
  have hlast : ∀ {P : ParsedArm → Prop}, P arm → ∃ a ∈ earlier ++ [arm], P a := fun hp =>
    ⟨arm, List.mem_append_right _ List.mem_cons_self, hp⟩
  have hsplit : ∀ {P : ParsedArm → Prop}, (∃ a ∈ earlier ++ [arm], P a) ↔
      (∃ a ∈ earlier, P a) ∨ P arm := by
    intro P
    simp only [List.mem_append, List.mem_singleton, or_and_right, exists_or, exists_eq_left]
  refine ⟨?_, ?_, ?_, ?_, ?_, hadds.options h.options⟩
  · intro name
    rw [hadds.variants, h.variants, hsplit]
  · rw [hadds.guards, Bool.or_eq_true, h.guards, hsplit]
  · intro hseen
    rw [hadds.none, Bool.or_eq_true, Bool.and_eq_true, Bool.not_eq_true'] at hseen
    rcases hseen with hseen | hseen
    · exact hmem (h.none hseen)
    · exact hlast hseen
  · intro hseen
    rw [hadds.capture, Bool.or_eq_true, Bool.and_eq_true, Bool.not_eq_true'] at hseen
    rcases hseen with hseen | hseen
    · exact hmem (h.capture hseen)
    · exact hlast hseen
  · intro key hkey
    rcases hadds.literals key hkey with hkey | hkey
    · exact hmem (h.literals key hkey)
    · exact hlast hkey

namespace MatchArmCoverageTracker

theorem recordGuard_adds {self after : MatchArmCoverageTracker}
    (hvariants : ∀ name, name ∈ after.facts.matchedChoiceVariants ↔
      name ∈ self.facts.matchedChoiceVariants ∨ arm.matchedChoiceVariant = some name)
    (hguards : after.facts.hasGuardedArms = self.facts.hasGuardedArms)
    (hnone : after.seenUnguardedNone =
      (self.seenUnguardedNone || !arm.guardIsPresent && arm.pattern.isNone))
    (hcapture : after.seenUnguardedPresentCapture =
      (self.seenUnguardedPresentCapture || !arm.guardIsPresent && arm.pattern.capturesPresent))
    (hliterals : ∀ key ∈ after.matchedUnguardedLiteralPatterns,
      key ∈ self.matchedUnguardedLiteralPatterns ∨
        arm.guardIsPresent = false ∧ arm.pattern.key constValues = some key)
    (hoptions : self.facts.optionPatterns =
        ⟨self.seenUnguardedNone, self.seenUnguardedPresentCapture⟩ →
      after.facts.optionPatterns =
        ⟨after.seenUnguardedNone, after.seenUnguardedPresentCapture⟩) :
    Adds constValues self arm (after.recordGuard arm.guardIsPresent) where
  variants := hvariants
  guards := by
    show (after.facts.hasGuardedArms || _) = _
    rw [hguards]
  none := hnone
  capture := hcapture
  literals := hliterals
  options := hoptions

theorem noteChoiceVariant_adds (self : MatchArmCoverageTracker) {name : StringId}
    (hname : arm.matchedChoiceVariant = some name)
    (hpattern : arm.pattern.isNone = false ∧ arm.pattern.capturesPresent = false) :
    Adds constValues self arm
      ((self.noteChoiceVariant arm.matchedChoiceVariant).2.recordGuard arm.guardIsPresent) := by
  rw [hname]
  refine recordGuard_adds ?_ rfl ?_ ?_ (fun key hkey => .inl hkey) (fun h => h)
  · intro other
    show other ∈ insert name self.facts.matchedChoiceVariants ↔ _
    rw [Finset.mem_insert, hname, Option.some.injEq, or_comm, eq_comm]
  · rw [hpattern.1, Bool.and_false, Bool.or_false]
    rfl
  · rw [hpattern.2, Bool.and_false, Bool.or_false]
    rfl

theorem unchanged_adds (self : MatchArmCoverageTracker)
    (hname : arm.matchedChoiceVariant = none)
    (hnone : arm.guardIsPresent = false → arm.pattern.isNone = false)
    (hcapture : arm.guardIsPresent = false → arm.pattern.capturesPresent = true →
      self.seenUnguardedPresentCapture = true) :
    Adds constValues self arm (self.recordGuard arm.guardIsPresent) := by
  refine recordGuard_adds ?_ rfl ?_ ?_ (fun key hkey => .inl hkey) (fun h => h)
  · intro name
    rw [hname]
    simp
  · cases hguard : arm.guardIsPresent with
    | true => simp
    | false => simp [hnone hguard]
  · cases hguard : arm.guardIsPresent with
    | true => simp
    | false =>
        cases hseen : arm.pattern.capturesPresent with
        | true => simp [hcapture hguard hseen]
        | false => simp

theorem noteLiteral_adds (self : MatchArmCoverageTracker) {value : PatternValue}
    (hpattern : arm.pattern = .Ready (.Literal value)) (hname : arm.matchedChoiceVariant = none) :
    Adds constValues self arm ((self.noteLiteral (.Literal value) arm.guardIsPresent
      constValues).2.recordGuard arm.guardIsPresent) := by
  have hunchanged : Adds constValues self arm (self.recordGuard arm.guardIsPresent) :=
    self.unchanged_adds hname (fun _ => by rw [hpattern]; rfl) (fun _ h => by
      rw [hpattern] at h
      cases h)
  rw [noteLiteral]
  cases hkey : extractLiteralKey constValues value with
  | none => exact hunchanged
  | some key =>
      simp only
      split
      · exact hunchanged
      · split
        · exact hunchanged
        · rename_i hguard
          refine recordGuard_adds hunchanged.variants rfl hunchanged.none hunchanged.capture ?_
            (fun h => h)
          intro other hother
          rcases Finset.mem_insert.1 hother with rfl | hold
          · refine .inr ⟨eq_false_of_ne_true hguard, ?_⟩
            rw [hpattern]
            exact hkey
          · exact .inl hold

theorem noteOption_adds (self : MatchArmCoverageTracker) {pattern : MatchPattern}
    (hpattern : arm.pattern = .Ready pattern) (hname : arm.matchedChoiceVariant = none) :
    Adds constValues self arm ((self.noteOption pattern arm.guardIsPresent).2.recordGuard
      arm.guardIsPresent) := by
  obtain ⟨armPattern, guard, matched⟩ := arm
  simp only at hpattern hname
  subst hpattern hname
  have hunchanged : (guard = true ∨ (DeferredArmPattern.Ready pattern).isNone = false ∧
      (DeferredArmPattern.Ready pattern).capturesPresent = false) →
      Adds constValues self ⟨.Ready pattern, guard, none⟩ (self.recordGuard guard) := by
    intro h
    refine self.unchanged_adds rfl (fun hguard => ?_) (fun hguard hcapture => ?_)
    · rcases h with h | h
      · cases h.symm.trans hguard
      · exact h.1
    · rcases h with h | h
      · cases h.symm.trans hguard
      · cases h.2.symm.trans hcapture
  have hvariants : ∀ name : StringId, name ∈ self.facts.matchedChoiceVariants ↔
      name ∈ self.facts.matchedChoiceVariants ∨ none = some name := by simp
  cases pattern with
  | OptionNone =>
      cases guard with
      | true => exact hunchanged (.inl rfl)
      | false =>
          refine recordGuard_adds hvariants rfl (Bool.or_true _).symm (Bool.or_false _).symm
            (fun key hkey => .inl hkey) (fun h => ?_)
          show { self.facts.optionPatterns with seenUnguardedNone := true } = _
          rw [h]
          rfl
  | OptionPresentCapture name =>
      cases guard with
      | true => exact hunchanged (.inl rfl)
      | false =>
          refine recordGuard_adds hvariants rfl (Bool.or_false _).symm (Bool.or_true _).symm
            (fun key hkey => .inl hkey) (fun h => ?_)
          show { self.facts.optionPatterns with seenUnguardedPresentCapture := true } = _
          rw [h]
          rfl
  | _ => exact hunchanged (.inr ⟨rfl, rfl⟩)

theorem recordMaterialisedPattern_adds (self : MatchArmCoverageTracker) {pattern : MatchPattern}
    (hpattern : arm.pattern = .Ready pattern) (hname : arm.matchedChoiceVariant = none) :
    Adds constValues self arm (self.recordMaterialisedPattern pattern arm.guardIsPresent
      arm.matchedChoiceVariant constValues).2 := by
  rw [recordMaterialisedPattern]
  split
  · rename_i hcatch
    refine self.unchanged_adds hname (fun _ => ?_) (fun _ _ => ?_)
    · rw [hpattern]
      cases pattern <;> first | rfl | cases hcatch
    · cases pattern <;> first | exact hcatch | cases hcatch
  · rw [hname]
    cases pattern with
    | Literal value => exact self.noteLiteral_adds hpattern hname
    | _ => exact self.noteOption_adds hpattern hname

theorem recordPendingOptionArm_adds (self : MatchArmCoverageTracker)
    {pattern : PendingOptionPattern} (hpattern : arm.pattern = .PendingOption pattern)
    (hname : arm.matchedChoiceVariant = none) :
    Adds constValues self arm (self.recordPendingOptionArm pattern arm.guardIsPresent).2 := by
  have hunchanged : (arm.guardIsPresent = false → arm.pattern.capturesPresent = true →
      self.seenUnguardedPresentCapture = true) →
      Adds constValues self arm (self.recordGuard arm.guardIsPresent) :=
    self.unchanged_adds hname (fun _ => by rw [hpattern]; rfl)
  cases pattern with
  | PresentCapture name =>
      simp only [recordPendingOptionArm]
      cases hcovered : self.seenUnguardedPresentCapture || arm.guardIsPresent with
      | true =>
          refine hunchanged fun hguard _ => ?_
          rwa [hguard, Bool.or_false] at hcovered
      | false =>
          obtain ⟨hseen, hguard⟩ := Bool.or_eq_false_iff.1 hcovered
          refine recordGuard_adds ?_ rfl ?_ ?_ (fun key hkey => .inl hkey) (fun h => ?_)
          · intro other
            show other ∈ self.facts.matchedChoiceVariants ↔ _
            rw [hname]
            simp
          · rw [hpattern, hguard]
            exact (Bool.or_false _).symm
          · rw [hpattern, hguard]
            exact (Bool.or_true _).symm
          · show { self.facts.optionPatterns with seenUnguardedPresentCapture := true } = _
            rw [h]
  | PresentValue pattern => exact hunchanged (fun _ h => by rw [hpattern] at h; cases h)
  | RetainedValue pattern => exact hunchanged (fun _ h => by rw [hpattern] at h; cases h)

theorem recordDeferredArm_adds (self : MatchArmCoverageTracker) (hfit : kind.Fits arm) :
    Adds constValues self arm (self.recordDeferredArm arm constValues).2 := by
  rcases hfit.named_or with ⟨tag, name, path, hname, hpattern⟩ | hname
  · rw [recordDeferredArm]
    rcases hpattern with hpattern | hpattern
    · rw [hpattern]
      have hadds : Adds constValues self arm _ :=
        self.noteChoiceVariant_adds hname (by rw [hpattern]; exact ⟨rfl, rfl⟩)
      rw [hname] at hadds ⊢
      exact hadds
    · rw [hpattern]
      exact self.noteChoiceVariant_adds hname (by rw [hpattern]; exact ⟨rfl, rfl⟩)
  · rw [recordDeferredArm]
    cases hpattern : arm.pattern with
    | Ready pattern => exact self.recordMaterialisedPattern_adds hpattern hname
    | Retained pattern =>
        exact self.unchanged_adds hname (fun _ => by rw [hpattern]; rfl)
          (fun _ h => by rw [hpattern] at h; cases h)
    | PendingChoice path tag =>
        rw [hname]
        exact self.unchanged_adds hname (fun _ => by rw [hpattern]; rfl)
          (fun _ h => by rw [hpattern] at h; cases h)
    | PendingOption pattern => exact self.recordPendingOptionArm_adds hpattern hname

theorem recordDeferredArm_named {self : MatchArmCoverageTracker}
    (h : Records constValues self earlier) (hfit : kind.Fits arm) {name : StringId}
    (hname : arm.matchedChoiceVariant = some name) :
    (self.recordDeferredArm arm constValues).1 = true ↔
      ∃ e ∈ earlier, e.matchedChoiceVariant = some name := by
  have hnote : (self.noteChoiceVariant (some name)).1 = true ↔
      ∃ e ∈ earlier, e.matchedChoiceVariant = some name := by
    rw [← h.variants name]
    show (!decide (name ∉ self.facts.matchedChoiceVariants)) = true ↔ _
    rw [Bool.not_eq_true', decide_eq_false_iff_not, not_not]
  rcases hfit.named_or with ⟨tag, other, path, _, hpattern⟩ | hnone
  · rw [← hnote, recordDeferredArm]
    rcases hpattern with hpattern | hpattern
    · rw [hpattern, hname]
      show ((self.noteChoiceVariant (some name)).1 || false || false) = true ↔ _
      simp only [Bool.or_false]
    · rw [hpattern, hname]
  · cases hname.symm.trans hnone

variable {V : Type} {meaning : PatternMeaning V} {value : SubjectValue V}

theorem takes_of_capture (hfit : kind.Fits arm) (hcapture : arm.pattern.capturesPresent = true)
    (hvalue : kind.Has value) (hpresent : value ≠ .OptionNone) :
    arm.pattern.takes constValues meaning value = true := by
  obtain ⟨pattern, guard, matched⟩ := arm
  have hkind : kind = .Option := by
    match kind, pattern, hcapture, hfit with
    | .Option, _, _, _ => rfl
    | .Choice _, .Ready (.OptionPresentCapture _), _, hfit => exact hfit.elim
    | .Choice _, .PendingOption (.PresentCapture _), _, hfit => exact hfit.elim
    | .Other, .Ready (.OptionPresentCapture _), _, hfit => exact hfit.2.elim
    | .Other, .PendingOption (.PresentCapture _), _, hfit => exact hfit.2.elim
  subst hkind
  cases value with
  | OptionNone => exact absurd rfl hpresent
  | OptionPresent inner =>
      match pattern, hcapture with
      | .Ready (.OptionPresentCapture _), _ => rfl
      | .PendingOption (.PresentCapture _), _ => rfl
  | Choice tag => exact hvalue.elim
  | Plain inner => exact hvalue.elim

theorem takes_of_isNone (hnone : arm.pattern.isNone = true) :
    arm.pattern.takes constValues meaning (.OptionNone : SubjectValue V) = true := by
  obtain ⟨pattern, guard, matched⟩ := arm
  match pattern, hnone with
  | .Ready .OptionNone, _ => rfl

theorem takes_of_key {literal : PatternValue} {key : LiteralPatternKey}
    (hkey : extractLiteralKey constValues literal = some key)
    (hsame : arm.pattern.key constValues = some key)
    (htakes : (DeferredArmPattern.Ready (.Literal literal)).takes constValues meaning value = true) :
    arm.pattern.takes constValues meaning value = true := by
  obtain ⟨pattern, guard, matched⟩ := arm
  match pattern, hsame with
  | .Ready (.Literal other), hsame =>
      cases value with
      | Plain inner =>
          have hother : extractLiteralKey constValues other = some key := hsame
          simp only [DeferredArmPattern.takes, MatchPattern.takes, PatternMeaning.literal,
            hkey] at htakes
          simp only [DeferredArmPattern.takes, MatchPattern.takes, PatternMeaning.literal, hother]
          exact htakes
      | Choice tag => cases htakes
      | OptionNone => cases htakes
      | OptionPresent inner => cases htakes

/-- An arm that names no variant is flagged only if an unguarded arm takes all that it takes. -/
theorem recordDeferredArm_unnamed {self : MatchArmCoverageTracker}
    (h : Records constValues self earlier) (hearlier : ∀ e ∈ earlier, kind.Fits e)
    (hname : arm.matchedChoiceVariant = none)
    (hflag : (self.recordDeferredArm arm constValues).1 = true) :
    ∃ e ∈ earlier, e.guardIsPresent = false ∧ ∀ value : SubjectValue V, kind.Has value →
      arm.pattern.takes constValues meaning value = true →
        e.pattern.takes constValues meaning value = true := by
  have hcaptured : self.seenUnguardedPresentCapture = true →
      arm.pattern.takes constValues meaning .OptionNone = false →
      ∃ e ∈ earlier, e.guardIsPresent = false ∧ ∀ value : SubjectValue V, kind.Has value →
        arm.pattern.takes constValues meaning value = true →
          e.pattern.takes constValues meaning value = true := by
    intro hseen hnone
    obtain ⟨e, he, hguard, hcapture⟩ := h.capture hseen
    refine ⟨e, he, hguard, fun value hvalue htakes => ?_⟩
    refine takes_of_capture (hearlier e he) hcapture hvalue fun heq => ?_
    rw [heq, hnone] at htakes
    cases htakes
  rw [recordDeferredArm] at hflag
  cases hpattern : arm.pattern with
  | Retained pattern =>
      rw [hpattern] at hflag
      cases hflag
  | PendingChoice path tag =>
      rw [hpattern, hname] at hflag
      cases hflag
  | PendingOption pattern =>
      rw [hpattern] at hflag hcaptured
      exact hcaptured hflag (by cases pattern <;> rfl)
  | Ready pattern =>
      rw [hpattern] at hflag hcaptured
      simp only [recordMaterialisedPattern] at hflag
      split at hflag
      · rename_i hcatch
        cases pattern with
        | OptionValue pattern => exact hcaptured hcatch rfl
        | Relational op pattern => exact hcaptured hcatch rfl
        | OptionPresentCapture name => exact hcaptured hcatch rfl
        | Literal pattern => cases hcatch
        | OptionNone => cases hcatch
        | ChoiceVariant path tag => cases hcatch
      · rw [hname] at hflag
        cases pattern with
        | Literal literal =>
            have hliteral : (self.noteLiteral (.Literal literal) arm.guardIsPresent
                constValues).1 = true := by
              simpa [noteChoiceVariant, noteOption] using hflag
            rw [noteLiteral] at hliteral
            cases hkey : extractLiteralKey constValues literal with
            | none =>
                rw [hkey] at hliteral
                cases hliteral
            | some key =>
                rw [hkey] at hliteral
                simp only at hliteral
                split at hliteral
                · rename_i hmem
                  obtain ⟨e, he, hguard, hkey'⟩ := h.literals key hmem
                  exact ⟨e, he, hguard, fun value _ htakes => takes_of_key hkey hkey' htakes⟩
                · split at hliteral <;> cases hliteral
        | OptionNone =>
            have hnone : (self.noteOption .OptionNone arm.guardIsPresent).1 = true := hflag
            cases hguard : arm.guardIsPresent with
            | true =>
                rw [hguard] at hnone
                cases hnone
            | false =>
                rw [hguard] at hnone
                obtain ⟨e, he, hguard, hisNone⟩ := h.none hnone
                refine ⟨e, he, hguard, fun value _ htakes => ?_⟩
                cases value with
                | OptionNone => exact takes_of_isNone hisNone
                | OptionPresent inner => cases htakes
                | Choice tag => cases htakes
                | Plain inner => cases htakes
        | OptionPresentCapture name =>
            have hcapture : (self.noteOption (.OptionPresentCapture name)
              arm.guardIsPresent).1 = true := hflag
            cases hguard : arm.guardIsPresent <;> rw [hguard] at hcapture <;> cases hcapture
        | OptionValue pattern => cases hflag
        | Relational op pattern => cases hflag
        | ChoiceVariant path tag => cases hflag

theorem records_empty : Records constValues {} [] where
  variants name := by simp
  guards := by simp
  none h := by cases h
  capture h := by cases h
  literals key h := absurd h (Finset.notMem_empty key)
  options := rfl

theorem recordArms_cons (self : MatchArmCoverageTracker) (arms : List ParsedArm) :
    recordArms constValues (arm :: arms) self =
      ((self.recordDeferredArm arm constValues).1 ::
          (recordArms constValues arms (self.recordDeferredArm arm constValues).2).1,
        (recordArms constValues arms (self.recordDeferredArm arm constValues).2).2) := rfl

/-- The tracker knows all the arms it recorded, and flagged each knowing those before it. -/
theorem recordArms_spec {arms : List ParsedArm} {self : MatchArmCoverageTracker}
    (h : Records constValues self earlier) (hfits : ∀ arm ∈ arms, kind.Fits arm) :
    Records constValues (recordArms constValues arms self).2 (earlier ++ arms) ∧
      ∀ i : Nat, (recordArms constValues arms self).1[i]? = arms[i]?.elim none fun arm =>
        some (((recordArms constValues (arms.take i) self).2.recordDeferredArm arm
          constValues).1) := by
  induction arms generalizing self earlier with
  | nil =>
      rw [List.append_nil]
      exact ⟨h, fun i => by simp [recordArms]⟩
  | cons arm rest ih =>
      have hstep := h.append (self.recordDeferredArm_adds (hfits arm List.mem_cons_self))
      obtain ⟨hrecords, hflags⟩ := ih hstep fun a ha => hfits a (List.mem_cons_of_mem _ ha)
      rw [List.append_assoc, List.singleton_append] at hrecords
      refine ⟨hrecords, fun i => ?_⟩
      rw [recordArms_cons]
      cases i with
      | zero => rfl
      | succ i =>
          rw [List.getElem?_cons_succ, List.getElem?_cons_succ, hflags i, List.take_succ_cons,
            recordArms_cons]

theorem recordArms_before {arms : List ParsedArm} (hfits : ∀ arm ∈ arms, kind.Fits arm) (i : Nat) :
    Records constValues (recordArms constValues (arms.take i) {}).2 (arms.take i) :=
  (recordArms_spec records_empty fun a ha => hfits a (List.mem_of_mem_take ha)).1

theorem recordArms_flag {arms : List ParsedArm} (hfits : ∀ arm ∈ arms, kind.Fits arm) {i : Nat}
    {flag : Bool} :
    (recordArms constValues arms {}).1[i]? = some flag ↔ ∃ arm, arms[i]? = some arm ∧
      ((recordArms constValues (arms.take i) {}).2.recordDeferredArm arm constValues).1 =
        flag := by
  rw [(recordArms_spec records_empty hfits).2 i]
  cases arms[i]? with
  | none => simp
  | some arm => simp

end MatchArmCoverageTracker

/-! ## Acceptance -/

open MatchArmCoverageTracker

theorem MatchExhaustivenessSubject.kind_nodup {types : MatchTypes}
    {subject : MatchExhaustivenessSubject} {variants : List StringId}
    (h : subject.kind types = .Choice variants) : variants.Nodup := by
  have hget : ∀ {typeId names}, (types.variantsFor typeId).getD [] = names → names.Nodup := by
    intro typeId names heq
    cases hvariants : types.variantsFor typeId with
    | none =>
        rw [← heq, hvariants]
        exact List.nodup_nil
    | some declared =>
        rw [← heq, hvariants]
        exact types.nodup typeId declared hvariants
  cases subject with
  | PendingChoice declared =>
      cases h
      exact hget rfl
  | PendingOption => cases h
  | PendingNumeric => cases h
  | Known typeId =>
      rw [MatchExhaustivenessSubject.kind] at h
      cases hvariants : types.variantsFor typeId with
      | some declared =>
          rw [hvariants] at h
          cases h
          exact types.nodup typeId _ hvariants
      | none =>
          rw [hvariants] at h
          simp only at h
          split at h <;> cases h

/-- What an accepted match without `else` has recorded. -/
def SubjectKind.Covered (facts : MatchExhaustivenessFacts) : SubjectKind → Prop
  | .Choice variants =>
      facts.hasGuardedArms = false ∧ ∀ name ∈ variants, name ∈ facts.matchedChoiceVariants
  | .Option => facts.optionArmsCover = true
  | .Other => False

theorem enforceChoiceVariants_ok {types : MatchTypes} {typeId : TypeId}
    {facts : MatchExhaustivenessFacts}
    (h : enforceChoiceVariants types typeId false facts = .ok ()) :
    SubjectKind.Covered facts (.Choice ((types.variantsFor typeId).getD [])) := by
  rw [enforceChoiceVariants] at h
  simp only [Bool.false_eq_true, if_false] at h
  split at h
  · cases h
  · rename_i hguarded
    refine ⟨eq_false_of_ne_true hguarded, fun name hmem => ?_⟩
    split at h
    · rename_i hempty
      have hnone := List.filter_eq_nil_iff.1 (List.isEmpty_iff.1 hempty) name hmem
      rwa [decide_eq_true_eq, not_not] at hnone
    · cases h

theorem enforceMatchExhaustiveness_ok {types : MatchTypes} {subject : MatchExhaustivenessSubject}
    {facts : MatchExhaustivenessFacts}
    (h : enforceMatchExhaustiveness types subject false facts = .ok ()) :
    (subject.kind types).Covered facts := by
  cases subject with
  | PendingChoice declared => exact enforceChoiceVariants_ok h
  | PendingOption =>
      rw [enforceMatchExhaustiveness, Bool.false_or] at h
      split at h
      · assumption
      · cases h
  | PendingNumeric => cases h
  | Known typeId =>
      rw [enforceMatchExhaustiveness] at h
      rw [MatchExhaustivenessSubject.kind]
      cases hvariants : types.variantsFor typeId with
      | some declared =>
          simp only [hvariants, Option.isSome_some, if_true] at h
          have hcovered := enforceChoiceVariants_ok h
          rwa [hvariants] at hcovered
      | none =>
          simp only [hvariants, Option.isSome_none, Bool.false_eq_true, if_false] at h
          cases hoption : (types.optionInnerType typeId).isSome with
          | true =>
              simp only [hoption, Bool.true_and] at h
              split at h
              · assumption
              · cases h
          | false =>
              simp only [hoption, Bool.false_and, Bool.false_eq_true, if_false] at h
              cases h

/-! ## Soundness -/

section Soundness

variable {V : Type} (types : MatchTypes) (subject : MatchExhaustivenessSubject)
  (constValues : PatternContents) (meaning : PatternMeaning V)

/-- Without `else`, an accepted match selects an arm for every value and every outcome of the
guards. -/
def AcceptsOnlyCovered (arms : List ParsedArm) (hasDefault : Bool) : Prop :=
  enforceMatchExhaustiveness types subject hasDefault
      (recordArms constValues arms {}).2.facts = .ok () →
    ∀ value : SubjectValue V, (subject.kind types).Has value → ∀ outcomes,
      (selectedArm constValues meaning arms value outcomes).isSome ∨ hasDefault = true

/-- No value and no outcome of the guards selects a flagged arm. -/
def FlagsOnlyUnreachable (arms : List ParsedArm) : Prop :=
  ∀ i : Nat, (recordArms constValues arms {}).1[i]? = some true →
    ∀ value : SubjectValue V, (subject.kind types).Has value → ∀ outcomes,
      selectedArm constValues meaning arms value outcomes ≠ some i

/-- An arm that names a variant again comes after an unguarded arm of that variant. -/
def RepeatsUnguarded (arms : List ParsedArm) : Prop :=
  ∀ (i : Nat) arm name, arms[i]? = some arm → arm.matchedChoiceVariant = some name →
    (∃ e ∈ arms.take i, e.matchedChoiceVariant = some name) →
      ∃ e ∈ arms.take i, e.matchedChoiceVariant = some name ∧ e.guardIsPresent = false

variable {types subject constValues meaning} {arms : List ParsedArm} {kind : SubjectKind}
  {value : SubjectValue V} {arm e : ParsedArm}

theorem takes_choice {variants : List StringId} (hnodup : variants.Nodup)
    (hfit : SubjectKind.Fits (.Choice variants) arm)
    {name : StringId} (hname : arm.matchedChoiceVariant = some name) :
    arm.pattern.takes constValues meaning value = true ↔
      ∃ tag, value = .Choice tag ∧ variants[tag]? = some name := by
  obtain ⟨tag, other, path, htag, hother, hpattern⟩ := hfit.choice
  cases hname.symm.trans hother
  have htakes : arm.pattern.takes constValues meaning value = true ↔ value = .Choice tag := by
    rcases hpattern with hpattern | hpattern <;> rw [hpattern] <;>
      cases value <;> simp [DeferredArmPattern.takes, MatchPattern.takes, eq_comm]
  rw [htakes]
  refine ⟨fun h => ⟨tag, h, htag⟩, fun ⟨tag', hvalue, htag'⟩ => ?_⟩
  obtain ⟨hlt, hget⟩ := List.getElem?_eq_some_iff.1 htag
  obtain ⟨hlt', hget'⟩ := List.getElem?_eq_some_iff.1 htag'
  rw [hvalue, (List.Nodup.getElem_inj_iff hnodup).1 (hget'.trans hget.symm)]

theorem selectedArm_ne {i : Nat} {outcomes : Nat → Bool} (he : e ∈ arms.take i)
    (hguard : e.guardIsPresent = false)
    (htakes : arms[i]?.elim False (fun arm => arm.pattern.takes constValues meaning value = true) →
      e.pattern.takes constValues meaning value = true) :
    selectedArm constValues meaning arms value outcomes ≠ some i := by
  intro hselected
  obtain ⟨⟨arm, harm, hruns⟩, hbefore⟩ := selectedArm_eq_some.1 hselected
  obtain ⟨j, hj⟩ := List.mem_iff_getElem?.1 he
  rw [List.getElem?_take] at hj
  split at hj
  · rename_i hlt
    have hfirst := hbefore j hlt e hj
    have harmTakes : arm.pattern.takes constValues meaning value = true :=
      (Bool.and_eq_true_iff.1 hruns).1
    rw [ParsedArm.runs_unguarded hguard (htakes (by rw [harm]; exact harmTakes))] at hfirst
    cases hfirst
  · cases hj

theorem acceptsOnlyCovered (hfits : ∀ arm ∈ arms, (subject.kind types).Fits arm)
    (hasDefault : Bool) :
    AcceptsOnlyCovered types subject constValues meaning arms hasDefault := by
  intro hok value hvalue outcomes
  cases hasDefault with
  | true => exact .inr rfl
  | false =>
      left
      have hrecords : Records constValues _ arms := (recordArms_spec records_empty hfits).1
      have hcovered := enforceMatchExhaustiveness_ok hok
      cases hkind : subject.kind types with
      | Other =>
          rw [hkind] at hcovered
          exact hcovered.elim
      | Choice variants =>
          rw [hkind] at hcovered hvalue hfits
          cases value with
          | Choice tag =>
              have hname := List.getElem?_eq_getElem (hvalue : tag < variants.length)
              obtain ⟨e, he, hmatched⟩ := (hrecords.variants _).1
                (hcovered.2 _ (List.getElem_mem hvalue))
              have hguard : e.guardIsPresent = false := by
                by_contra hguard
                have := hrecords.guards.2 ⟨e, he, eq_true_of_ne_false hguard⟩
                rw [hcovered.1] at this
                cases this
              have htakes : e.pattern.takes constValues meaning (.Choice tag) = true :=
                (takes_choice (MatchExhaustivenessSubject.kind_nodup hkind) (hfits e he)
                  hmatched).2 ⟨tag, rfl, hname⟩
              exact selectedArm_isSome he (ParsedArm.runs_unguarded hguard htakes)
          | OptionNone => exact hvalue.elim
          | OptionPresent inner => exact hvalue.elim
          | Plain inner => exact hvalue.elim
      | Option =>
          rw [hkind] at hcovered hvalue hfits
          have hcover : MatchExhaustivenessFacts.optionArmsCover _ = true := hcovered
          rw [MatchExhaustivenessFacts.optionArmsCover, hrecords.options,
            Bool.and_eq_true] at hcover
          cases value with
          | OptionNone =>
              obtain ⟨e, he, hguard, hnone⟩ := hrecords.none hcover.1
              exact selectedArm_isSome he (ParsedArm.runs_unguarded hguard (takes_of_isNone hnone))
          | OptionPresent inner =>
              obtain ⟨e, he, hguard, hcapture⟩ := hrecords.capture hcover.2
              exact selectedArm_isSome he (ParsedArm.runs_unguarded hguard
                (takes_of_capture (hfits e he) hcapture hvalue (fun h => by cases h)))
          | Choice tag => exact hvalue.elim
          | Plain inner => exact hvalue.elim

/-- The flags are right for the arms that name no variant, and for the others exactly where some
unguarded arm named the variant before. -/
theorem flagsOnlyUnreachable_iff (hfits : ∀ arm ∈ arms, (subject.kind types).Fits arm) :
    FlagsOnlyUnreachable types subject constValues meaning arms ↔ RepeatsUnguarded arms := by
  have hfit : ∀ {i : Nat} {arm}, arms[i]? = some arm → (subject.kind types).Fits arm :=
    fun h => hfits _ (List.mem_of_getElem? h)
  have hbefore : ∀ (i : Nat), ∀ e ∈ arms.take i, (subject.kind types).Fits e :=
    fun i e he => hfits e (List.mem_of_mem_take he)
  constructor
  · intro hsound i arm name harm hname hearlier
    by_contra hguarded
    have hflag : (recordArms constValues arms {}).1[i]? = some true := by
      rw [recordArms_flag hfits]
      exact ⟨arm, harm, (recordDeferredArm_named (recordArms_before hfits i) (hfit harm)
        hname).2 hearlier⟩
    -- the subject holds the variant, and only the guard of this arm holds
    cases hkind : subject.kind types with
    | Option => cases hname.symm.trans (hkind ▸ hfit harm : SubjectKind.Fits .Option arm).1
    | Other => cases hname.symm.trans (hkind ▸ hfit harm : SubjectKind.Fits .Other arm).1
    | Choice variants =>
        have hnodup := MatchExhaustivenessSubject.kind_nodup hkind
        have hchoice : ∀ {i : Nat} {arm}, arms[i]? = some arm →
            SubjectKind.Fits (.Choice variants) arm := fun h => hkind ▸ hfit h
        obtain ⟨tag, other, path, htag, hother, _⟩ := (hchoice harm).choice
        cases hname.symm.trans hother
        refine hsound i hflag (.Choice tag) ?_ (fun j => decide (j = i)) ?_
        · rw [hkind]
          exact (List.getElem?_eq_some_iff.1 htag).1
        · rw [selectedArm_eq_some]
          refine ⟨⟨arm, harm, ?_⟩, fun j hj e he => ?_⟩
          · rw [ParsedArm.runs, (takes_choice hnodup (hchoice harm) hname).2 ⟨tag, rfl, htag⟩]
            simp
          · rw [ParsedArm.runs, Bool.and_eq_false_iff]
            by_cases htakes : e.pattern.takes constValues meaning
                (.Choice tag : SubjectValue V) = true
            · right
              obtain ⟨tag', ename, _, _, hename, _⟩ := (hchoice he).choice
              obtain ⟨t, ht, hget⟩ := (takes_choice hnodup (hchoice he) hename).1 htakes
              cases ht
              cases htag.symm.trans hget
              have hmem : e ∈ arms.take i := List.mem_iff_getElem?.2 ⟨j, by
                rw [List.getElem?_take, if_pos hj, he]⟩
              have hguard : e.guardIsPresent = true := by
                by_contra hunguarded
                exact hguarded ⟨e, hmem, hename, eq_false_of_ne_true hunguarded⟩
              rw [hguard, decide_eq_false (Nat.ne_of_lt hj)]
              rfl
            · exact .inl (eq_false_of_ne_true htakes)
  · intro hrepeats i hflag value hvalue outcomes
    rw [recordArms_flag hfits] at hflag
    obtain ⟨arm, harm, hflag⟩ := hflag
    have hrecords : Records constValues _ (arms.take i) := recordArms_before hfits i
    cases hname : arm.matchedChoiceVariant with
    | none =>
        obtain ⟨e, he, hguard, htakes⟩ :=
          recordDeferredArm_unnamed hrecords (hbefore i) hname hflag
        refine selectedArm_ne he hguard fun h => htakes value hvalue ?_
        rwa [harm] at h
    | some name =>
        have hearlier := (recordDeferredArm_named hrecords (hfit harm) hname).1 hflag
        obtain ⟨e, he, hmatched, hguard⟩ := hrepeats i arm name harm hname hearlier
        cases hkind : subject.kind types with
        | Option => cases hname.symm.trans (hkind ▸ hfit harm : SubjectKind.Fits .Option arm).1
        | Other => cases hname.symm.trans (hkind ▸ hfit harm : SubjectKind.Fits .Other arm).1
        | Choice variants =>
            have hnodup := MatchExhaustivenessSubject.kind_nodup hkind
            refine selectedArm_ne he hguard fun h => ?_
            rw [harm] at h
            have hvalues := (takes_choice hnodup (hkind ▸ hfit harm) hname).1 h
            exact (takes_choice hnodup (hkind ▸ hbefore i e he) hmatched).2 hvalues

/-- An accepted match covers its subject. The unreachable flags are right exactly where every
repeated variant has an unguarded arm before its repetition. -/
theorem match_coverage_sound_iff (types : MatchTypes) (subject : MatchExhaustivenessSubject)
    (constValues : PatternContents) (meaning : PatternMeaning V) (arms : List ParsedArm)
    (hasDefault : Bool) (hfits : ∀ arm ∈ arms, (subject.kind types).Fits arm) :
    AcceptsOnlyCovered types subject constValues meaning arms hasDefault ∧
        FlagsOnlyUnreachable types subject constValues meaning arms ↔
      RepeatsUnguarded arms := by
  rw [flagsOnlyUnreachable_iff hfits]
  exact ⟨fun h => h.2, fun h => ⟨acceptsOnlyCovered hfits hasDefault, h⟩⟩

end Soundness

/-! ## A guarded arm before an unguarded one -/

/-- One choice of two variants. -/
def twoVariants : MatchTypes where
  variantsFor typeId := if typeId.index = 0 then some [⟨0⟩, ⟨1⟩] else none
  optionInnerType _ := none
  nodup := by
    intro typeId variants h
    split at h
    · cases h
      decide
    · cases h

def variantArm (tag : Nat) (guardIsPresent : Bool) : ParsedArm :=
  ⟨.Ready (.ChoiceVariant ⟨0⟩ tag), guardIsPresent, some ⟨tag⟩⟩

def unitMeaning : PatternMeaning Unit where
  content _ _ := false
  value _ _ := false
  relation _ _ _ := false
  retained _ _ := false

theorem variantArm_fits {tag : Nat} (h : tag < 2) (guardIsPresent : Bool) :
    ((MatchExhaustivenessSubject.Known ⟨0⟩).kind twoVariants).Fits
      (variantArm tag guardIsPresent) := by
  match tag, h with
  | 0, _ => exact ⟨⟨0⟩, rfl, rfl⟩
  | 1, _ => exact ⟨⟨1⟩, rfl, rfl⟩

theorem match_coverage_guarded_first :
    AcceptsOnlyCovered twoVariants (.Known ⟨0⟩) (fun _ => none) unitMeaning
          [variantArm 0 true, variantArm 0 false, variantArm 1 false] true ∧
        FlagsOnlyUnreachable twoVariants (.Known ⟨0⟩) (fun _ => none) unitMeaning
          [variantArm 0 true, variantArm 0 false, variantArm 1 false] ↔
      RepeatsUnguarded [variantArm 0 true, variantArm 0 false, variantArm 1 false] := by
  refine match_coverage_sound_iff twoVariants (.Known ⟨0⟩) (fun _ => none) unitMeaning _ true ?_
  intro arm hmem
  simp only [List.mem_cons, List.not_mem_nil, or_false] at hmem
  rcases hmem with rfl | rfl | rfl
  · exact variantArm_fits (by decide) _
  · exact variantArm_fits (by decide) _
  · exact variantArm_fits (by decide) _

/-- The second arm of a variant is flagged though the guard of the first can fail. -/
theorem guarded_variant_flagged :
    (∀ arm ∈ [variantArm 0 true, variantArm 0 false],
      ((MatchExhaustivenessSubject.Known ⟨0⟩).kind twoVariants).Fits arm) ∧
    ¬ FlagsOnlyUnreachable twoVariants (.Known ⟨0⟩) (fun _ => none) unitMeaning
      [variantArm 0 true, variantArm 0 false] := by
  refine ⟨fun arm hmem => ?_, fun hsound => ?_⟩
  · simp only [List.mem_cons, List.not_mem_nil, or_false] at hmem
    rcases hmem with rfl | rfl
    · exact variantArm_fits (by decide) _
    · exact variantArm_fits (by decide) _
  · exact hsound 1 rfl (.Choice 0) (by decide : 0 < 2) (fun i => decide (i = 1)) rfl

/-! ## Patterns finished at the body root -/

/-- The content of a retained literal, once its value is there. -/
def ParsedArm.retainedKey (constValues : PatternContents) (value : ExprId → PatternValue)
    (arm : ParsedArm) : Option LiteralPatternKey :=
  match arm.pattern with
  | .Retained pattern =>
      if pattern.relational.isSome then none
      else extractLiteralKey constValues (value pattern.value)
  | _ => none

section BodyRoot

variable {constValues : PatternContents} {value : ExprId → PatternValue}
  {tracker : MatchArmCoverageTracker}

/-- A finished pattern is flagged exactly if its content is known, and an unguarded one makes its
content known. The second pass sees no capture. -/
theorem resumeArm_spec (hcapture : tracker.seenUnguardedPresentCapture = false)
    (arm : ParsedArm) :
    ((tracker.resumeArm arm value constValues).1 = true ↔
      ∃ key, arm.retainedKey constValues value = some key ∧
        key ∈ tracker.matchedUnguardedLiteralPatterns) ∧
    (tracker.resumeArm arm value constValues).2.seenUnguardedPresentCapture = false ∧
    ∀ key, key ∈ (tracker.resumeArm arm value constValues).2.matchedUnguardedLiteralPatterns ↔
      key ∈ tracker.matchedUnguardedLiteralPatterns ∨
        arm.guardIsPresent = false ∧ arm.retainedKey constValues value = some key := by
  rw [resumeArm, ParsedArm.retainedKey]
  cases arm.pattern with
  | Ready _ | PendingChoice _ _ | PendingOption _ => simp [hcapture]
  | Retained pattern =>
      cases hop : pattern.relational with
      | some op =>
          simp [MatchArmCoverageTracker.recordArm, recordMaterialisedPattern, finishRetainedPattern,
            hop, afterCatchAll, hcapture, noteChoiceVariant, noteLiteral, noteOption, recordGuard]
      | none =>
          simp only [MatchArmCoverageTracker.recordArm, recordMaterialisedPattern,
            finishRetainedPattern, hop, afterCatchAll, noteChoiceVariant, noteOption, recordGuard,
            noteLiteral]
          cases hown : extractLiteralKey constValues (value pattern.value) with
          | none => simp [hcapture]
          | some own =>
              by_cases hmem : own ∈ tracker.matchedUnguardedLiteralPatterns
              · cases arm.guardIsPresent <;> simp [hcapture, hmem]
              · cases arm.guardIsPresent <;> simp [hcapture, hmem, or_comm, eq_comm]

/-- The second pass flags an arm exactly if its literal is a known content, or that of an earlier
unguarded one that waited as well. -/
theorem resumeArms_flag {arms : List ParsedArm}
    (hcapture : tracker.seenUnguardedPresentCapture = false) (i : Nat) :
    (resumeArms constValues value arms tracker).1[i]? = some true ↔
      ∃ arm key, arms[i]? = some arm ∧ arm.retainedKey constValues value = some key ∧
        (key ∈ tracker.matchedUnguardedLiteralPatterns ∨
          ∃ e ∈ arms.take i, e.guardIsPresent = false ∧
            e.retainedKey constValues value = some key) := by
  induction arms generalizing tracker i with
  | nil => simp [resumeArms]
  | cons arm rest ih =>
      obtain ⟨hflag, hnext, hliterals⟩ := @resumeArm_spec constValues value tracker hcapture arm
      cases i with
      | zero => simp [resumeArms, hflag]
      | succ i => simp [resumeArms, ih hnext, hliterals, or_assoc]

theorem recordArms_retained {arms : List ParsedArm} {i : Nat} {pattern : RetainedPattern}
    (harm : arms[i]? = some arm) (hpattern : arm.pattern = .Retained pattern) :
    (recordArms constValues arms tracker).1[i]? = some false := by
  induction arms generalizing tracker i with
  | nil => cases harm
  | cons first rest ih =>
      cases i with
      | zero =>
          cases harm
          rw [recordArms_cons, recordDeferredArm, hpattern]
          rfl
      | succ i =>
          rw [recordArms_cons]
          exact ih harm

variable {V : Type} {meaning : PatternMeaning V} {arms : List ParsedArm}

theorem takes_of_retainedKey {arm : ParsedArm} {key : LiteralPatternKey}
    (hfinished : ∀ pattern, arm.pattern = .Retained pattern → ∀ v,
      (finishRetainedPattern value pattern).takes constValues meaning (.Plain v) =
        meaning.retained pattern v)
    (hkey : arm.retainedKey constValues value = some key) (subject : SubjectValue V) :
    arm.pattern.takes constValues meaning subject = true ↔
      ∃ v, subject = .Plain v ∧ meaning.content key v = true := by
  rw [ParsedArm.retainedKey] at hkey
  cases hpattern : arm.pattern with
  | Ready _ | PendingChoice _ _ | PendingOption _ => simp [hpattern] at hkey
  | Retained pattern =>
      rw [hpattern] at hkey
      cases hop : pattern.relational with
      | some op => simp [hop] at hkey
      | none =>
          have hown : extractLiteralKey constValues (value pattern.value) = some key := by
            simpa [hop] using hkey
          cases subject with
          | Plain v =>
              have htakes : meaning.content key v = meaning.retained pattern v := by
                rw [← hfinished pattern hpattern, finishRetainedPattern, hop]
                simp only [MatchPattern.takes, PatternMeaning.literal, hown]
              simp [DeferredArmPattern.takes, htakes]
          | _ => simp [DeferredArmPattern.takes]

/-- Where the finished patterns take the values of the retained ones, the second pass flags only
arms that no value selects, and none that was flagged while parsing. -/
theorem resumed_flags_unreachable
    (hfinished : ∀ arm ∈ arms, ∀ pattern, arm.pattern = .Retained pattern → ∀ v,
      (finishRetainedPattern value pattern).takes constValues meaning (.Plain v) =
        meaning.retained pattern v) {i : Nat}
    (hflag : (resumeArms constValues value arms {}).1[i]? = some true) :
    (recordArms constValues arms {}).1[i]? = some false ∧
      ∀ (subject : SubjectValue V) outcomes,
        selectedArm constValues meaning arms subject outcomes ≠ some i := by
  obtain ⟨arm, key, harm, hkey, hknown | ⟨e, he, hguard, hsame⟩⟩ := (resumeArms_flag rfl i).1 hflag
  · exact absurd hknown (Finset.notMem_empty key)
  have hfinishedAt := hfinished arm (List.mem_of_getElem? harm)
  constructor
  · rw [ParsedArm.retainedKey] at hkey
    split at hkey
    · next pattern hpattern => exact recordArms_retained harm hpattern
    · cases hkey
  · intro subject outcomes
    refine selectedArm_ne he hguard fun htakes => ?_
    rw [harm] at htakes
    rw [takes_of_retainedKey (hfinished e (List.mem_of_mem_take he)) hsame]
    exact (takes_of_retainedKey hfinishedAt hkey subject).1 htakes

end BodyRoot

end Moth.Ast
