import Mathlib.Data.Finset.Card
import Moth.Lib.Result
import Moth.ModuleCompilation.FailureFacts

/-!
# Inferred builtin failure summaries

Inference leaves the least bits that its own rounds keep. Rounds start from no
bit, a function gains its bit only for a reason that the least solution has,
and each round with a change sets one more bit, so as many rounds as functions
are enough. What the code checks of facts and summaries, and stops on
otherwise, is assumed of the module.
-/

namespace Moth.ModuleCompilation

open Moth.Borrow Moth.Datatypes Moth.Hir Moth.Lib Moth.Source

/-- Work that fails itself, and not through a call. -/
def HirBuiltinFailureContributor.IsOrigin (self : HirBuiltinFailureContributor) : Prop :=
  ∀ target, self.source ≠ .Call target

/-- Facts, summaries and codes are where the code looks for them. -/
structure ConvergenceModule.Complete (hir : ConvergenceModule) (report : PublicCallSummaries) :
    Prop where
  facts : ∀ f ∈ hir.functions, (hir.functionFailureFacts.lookup f).isSome
  summaries : ∀ f ∈ hir.functions, (report f).isSome
  classified : ∀ f facts, hir.functionFailureFacts.lookup f = some facts →
    ∀ c ∈ facts.contributors, ∃ active, builtinFailureContributorIsActive hir report c = .ok active
  owned : ∀ f facts, hir.functionFailureFacts.lookup f = some facts →
    ∀ c ∈ facts.contributors, ∀ target, c.source = .Call target →
      ∀ callee, ownedCallee hir target = some callee →
        (hir.functionFailureFacts.lookup callee).isSome

/-- A private function has a contributor. -/
def ConvergenceModule.Contributes (hir : ConvergenceModule) (f : FunctionId)
    (c : HirBuiltinFailureContributor) : Prop :=
  f ∈ hir.functions ∧ ∃ facts, hir.functionFailureFacts.lookup f = some facts ∧
    facts.boundary = .InferPrivate ∧ c ∈ facts.contributors

/-- The summary that an installed table has for a call out of the module's functions has the
bit. -/
def ConvergenceModule.InstalledEscapes (hir : ConvergenceModule) (report : PublicCallSummaries)
    (target : CallTarget) : Prop :=
  (∀ g ∈ hir.functions, target ≠ .Local g) ∧
    ∃ summary, retainedCallSummary hir report target = .ok (some summary) ∧
      summary.escapesBuiltinFailure = true

/-- A chain of local calls through private functions reaches work that fails, or a call out of
the module's functions whose summary has the bit. -/
inductive Escapes (hir : ConvergenceModule) (report : PublicCallSummaries) : FunctionId → Prop
  | origin {f : FunctionId} {c : HirBuiltinFailureContributor} :
      hir.Contributes f c → c.IsOrigin → Escapes hir report f
  | summary {f : FunctionId} {c : HirBuiltinFailureContributor} {target : CallTarget} :
      hir.Contributes f c → c.source = .Call target → hir.InstalledEscapes report target →
        Escapes hir report f
  | call {f g : FunctionId} {c : HirBuiltinFailureContributor} :
      hir.Contributes f c → c.source = .Call (.Local g) → Escapes hir report g →
        Escapes hir report f

/-! ## Selection -/

section Selection

variable {κ ε : Type} {site : κ → FailureWitnessSite} {isActive : κ → Except ε Bool}

theorem selectFailureStep_eq (first : Option κ) (contributor : κ) :
    selectFailureStep site first contributor = some contributor ∨
      first.isSome ∧ selectFailureStep site first contributor = first := by
  cases first with
  | none => exact .inl rfl
  | some selected =>
      rw [selectFailureStep]
      split
      · split
        · exact .inl rfl
        · exact .inr ⟨rfl, rfl⟩
      · exact .inr ⟨rfl, rfl⟩

theorem selectFailureWitness_mem {contributors : List κ} :
    (selectFailureWitness site contributors = none ↔ contributors = []) ∧
      ∀ c, selectFailureWitness site contributors = some c → c ∈ contributors := by
  have hfold (first : Option κ) : (contributors.foldl (selectFailureStep site) first = none ↔
      first = none ∧ contributors = []) ∧
      ∀ c, contributors.foldl (selectFailureStep site) first = some c →
        first = some c ∨ c ∈ contributors := by
    induction contributors generalizing first with
    | nil => exact ⟨⟨fun h => ⟨h, rfl⟩, And.left⟩, fun c h => .inl h⟩
    | cons head rest ih =>
        rw [List.foldl_cons]
        obtain ⟨hnone, hmem⟩ := ih (selectFailureStep site first head)
        rcases @selectFailureStep_eq _ site first head with hstep | ⟨hsome, hstep⟩
        · rw [hstep] at hnone hmem ⊢
          refine ⟨iff_of_false (fun h => ?_) fun h => (by cases h.2), fun c h => .inr ?_⟩
          · cases (hnone.1 h).1
          · rcases hmem c h with heq | hin
            · cases heq
              exact List.mem_cons_self
            · exact List.mem_cons_of_mem _ hin
        · rw [hstep] at hnone hmem ⊢
          refine ⟨iff_of_false (fun h => ?_) fun h => (by cases h.2), fun c h => ?_⟩
          · rw [(hnone.1 h).1] at hsome
            cases hsome
          · exact (hmem c h).imp_right (List.mem_cons_of_mem _)
  obtain ⟨hnone, hmem⟩ := hfold none
  refine ⟨hnone.trans (and_iff_right rfl), fun c h => ?_⟩
  exact (hmem c h).resolve_left fun heq => (by cases heq)

theorem activeContributors_ok {contributors : List κ}
    (h : ∀ c ∈ contributors, ∃ active, isActive c = .ok active) :
    ∃ active, activeContributors isActive contributors = .ok active ∧
      ∀ c, c ∈ active ↔ c ∈ contributors ∧ isActive c = .ok true := by
  induction contributors with
  | nil => exact ⟨[], rfl, fun c => iff_of_false List.not_mem_nil fun hc => List.not_mem_nil hc.1⟩
  | cons head rest ih =>
      obtain ⟨first, hfirst⟩ := h head List.mem_cons_self
      obtain ⟨others, hothers, hmem⟩ := ih fun c hc => h c (List.mem_cons_of_mem _ hc)
      rw [activeContributors, hfirst, ok_bind, hothers, ok_bind]
      refine ⟨_, rfl, fun c => ?_⟩
      cases first with
      | true =>
          rw [if_pos rfl, List.mem_cons, List.mem_cons, hmem, or_and_right]
          refine or_congr_left ⟨fun heq => ⟨heq, heq ▸ hfirst⟩, And.left⟩
      | false =>
          rw [if_neg Bool.false_ne_true, hmem, List.mem_cons, or_and_right, or_iff_right]
          rintro ⟨rfl, hactive⟩
          cases hfirst.symm.trans hactive

end Selection

/-! ## Activity in the course of inference -/

variable {hir : ConvergenceModule} {report state : PublicCallSummaries} {f : FunctionId}
  {c : HirBuiltinFailureContributor}

/-- The bit of a function. -/
def escapes (state : PublicCallSummaries) (f : FunctionId) : Bool :=
  (state f).any PublicCallSummary.escapesBuiltinFailure

/-- Inference has changed bits of the module's functions only, and set none without a reason. -/
structure Inferring (hir : ConvergenceModule) (report state : PublicCallSummaries) : Prop where
  listed : ∀ f ∈ hir.functions, ∀ summary, report f = some summary →
    ∃ bit, state f = some { summary with escapesBuiltinFailure := bit }
  others : ∀ f, f ∉ hir.functions → state f = report f
  sound : ∀ f ∈ hir.functions, escapes state f = true → Escapes hir report f

theorem Inferring.isSome (h : Inferring hir report state) (hcomplete : hir.Complete report)
    (hf : f ∈ hir.functions) : ∃ summary, state f = some summary := by
  obtain ⟨summary, hsummary⟩ := Option.isSome_iff_exists.1 (hcomplete.summaries f hf)
  obtain ⟨bit, hstate⟩ := h.listed f hf summary hsummary
  exact ⟨_, hstate⟩

theorem isActive_call {target : CallTarget} (hsource : c.source = .Call target) :
    builtinFailureContributorIsActive hir report c =
      callEscapesBuiltinFailure hir report target := by
  rw [builtinFailureContributorIsActive]
  split
  · next h => cases hsource.symm.trans h
  · next h => cases hsource.symm.trans h
  · next h => cases hsource.symm.trans h
  · next h =>
      cases hsource.symm.trans h
      rfl

theorem isActive_origin (hir : ConvergenceModule) (report state : PublicCallSummaries)
    (horigin : c.IsOrigin) :
    builtinFailureContributorIsActive hir report c =
      builtinFailureContributorIsActive hir state c ∧
      ∀ active, builtinFailureContributorIsActive hir report c = .ok active → active = true := by
  rw [builtinFailureContributorIsActive, builtinFailureContributorIsActive]
  split
  · refine ⟨rfl, fun active h => ?_⟩
    split at h
    · cases h
    · cases h
      rfl
  · refine ⟨rfl, fun active h => ?_⟩
    split at h
    · cases h
    · cases h
      rfl
  · refine ⟨rfl, fun active h => ?_⟩
    split at h
    · cases h
    · cases h
      rfl
  · next target htarget => exact absurd htarget (horigin target)

theorem callEscapes_local (hf : ∃ summary, state f = some summary) :
    callEscapesBuiltinFailure hir state (.Local f) = .ok (escapes state f) := by
  obtain ⟨summary, hsummary⟩ := hf
  rw [callEscapesBuiltinFailure, retainedCallSummary, ok_bind, escapes, hsummary]
  rfl

theorem Inferring.callEscapes_other (h : Inferring hir report state) {target : CallTarget}
    (hother : ∀ g ∈ hir.functions, target ≠ .Local g) :
    callEscapesBuiltinFailure hir state target = callEscapesBuiltinFailure hir report target := by
  rw [callEscapesBuiltinFailure, callEscapesBuiltinFailure]
  cases target with
  | Local g =>
      rw [retainedCallSummary, retainedCallSummary,
        h.others g fun hg => hother g hg rfl]
  | CrossModule | ModulePrivate | Generated | External => rfl

theorem callEscapes_ok_iff {target : CallTarget} :
    callEscapesBuiltinFailure hir report target = .ok true ↔
      ∃ summary, retainedCallSummary hir report target = .ok (some summary) ∧
        summary.escapesBuiltinFailure = true := by
  rw [callEscapesBuiltinFailure, bind_eq_ok]
  constructor
  · rintro ⟨answer, hanswer, htrue⟩
    cases answer with
    | none => cases htrue
    | some summary => exact ⟨summary, hanswer, Except.ok.inj htrue⟩
  · rintro ⟨summary, hsummary, htrue⟩
    exact ⟨some summary, hsummary, congrArg Except.ok htrue⟩

/-- What is active while inference runs: origins, calls with an installed bit, and calls of
functions with a bit. -/
theorem Inferring.active_iff (h : Inferring hir report state) (hcomplete : hir.Complete report)
    {facts : HirFunctionFailureFacts} (hfacts : hir.functionFailureFacts.lookup f = some facts)
    (hc : c ∈ facts.contributors) :
    (∃ active, builtinFailureContributorIsActive hir state c = .ok active) ∧
      (builtinFailureContributorIsActive hir state c = .ok true ↔ c.IsOrigin ∨
        (∃ target, c.source = .Call target ∧ hir.InstalledEscapes report target) ∨
        ∃ g ∈ hir.functions, c.source = .Call (.Local g) ∧ escapes state g = true) := by
  obtain ⟨active, hactive⟩ := hcomplete.classified _ _ hfacts c hc
  by_cases horigin : c.IsOrigin
  · obtain ⟨hsame, htrue⟩ := isActive_origin hir report state horigin
    cases htrue active hactive
    rw [← hsame, hactive]
    exact ⟨⟨true, rfl⟩, iff_of_true rfl (.inl horigin)⟩
  · obtain ⟨target, hsource⟩ : ∃ target, c.source = .Call target := by
      by_contra hnone
      exact horigin fun target hsource => hnone ⟨target, hsource⟩
    rw [isActive_call hsource] at hactive ⊢
    by_cases hlocal : ∃ g ∈ hir.functions, target = .Local g
    · obtain ⟨g, hg, rfl⟩ := hlocal
      rw [callEscapes_local (h.isSome hcomplete hg)]
      refine ⟨⟨_, rfl⟩, fun htrue => .inr (.inr ⟨g, hg, hsource, Except.ok.inj htrue⟩), ?_⟩
      rintro (hfalse | ⟨target, hsource', hother, -⟩ | ⟨g', -, hsource', htrue⟩)
      · exact absurd hfalse horigin
      · cases hsource.symm.trans hsource'
        exact absurd rfl (hother g hg)
      · cases hsource.symm.trans hsource'
        rw [htrue]
    · have hother : ∀ g ∈ hir.functions, target ≠ .Local g := fun g hg heq => hlocal ⟨g, hg, heq⟩
      rw [h.callEscapes_other hother]
      refine ⟨⟨active, hactive⟩, fun htrue => ?_, ?_⟩
      · exact .inr (.inl ⟨target, hsource, hother, callEscapes_ok_iff.1 htrue⟩)
      · rintro (hfalse | ⟨target', hsource', -, hbit⟩ | ⟨g, hg, hsource', -⟩)
        · exact absurd hfalse horigin
        · cases hsource.symm.trans hsource'
          exact callEscapes_ok_iff.2 hbit
        · cases hsource.symm.trans hsource'
          exact absurd rfl (hother g hg)

theorem Inferring.complete (h : Inferring hir report state) (hcomplete : hir.Complete report) :
    hir.Complete state where
  facts := hcomplete.facts
  summaries _ hf := Option.isSome_iff_exists.2 (h.isSome hcomplete hf)
  classified _ _ hfacts _ hc := (h.active_iff hcomplete hfacts hc).1
  owned := hcomplete.owned

/-- Some contributor is active exactly when a witness is selected, and the witness is one. -/
theorem activeBuiltinFailureContributor_ok (hcomplete : hir.Complete report)
    {facts : HirFunctionFailureFacts} (hfacts : hir.functionFailureFacts.lookup f = some facts) :
    ∃ answer, activeBuiltinFailureContributor hir report f = .ok answer ∧
      (answer.isSome ↔ ∃ c ∈ facts.contributors,
        builtinFailureContributorIsActive hir report c = .ok true) ∧
      ∀ c, answer = some c → c ∈ facts.contributors ∧
        builtinFailureContributorIsActive hir report c = .ok true := by
  obtain ⟨active, hactive, hmem⟩ := activeContributors_ok (hcomplete.classified _ _ hfacts)
  obtain ⟨hnone, hselected⟩ :=
    @selectFailureWitness_mem _ HirBuiltinFailureContributor.witnessSite active
  refine ⟨selectFailureWitness HirBuiltinFailureContributor.witnessSite active, ?_, ?_,
    fun c hc => (hmem c).1 (hselected c hc)⟩
  · rw [activeBuiltinFailureContributor, functionFailureFacts, hfacts]
    show (activeContributors _ _ >>= _) = _
    rw [hactive]
    rfl
  · rw [← Option.ne_none_iff_isSome, ne_eq, hnone]
    constructor
    · intro hne
      obtain ⟨c, hc⟩ := List.exists_mem_of_ne_nil active hne
      exact ⟨c, (hmem c).1 hc⟩
    · rintro ⟨c, hc⟩ hnil
      rw [hnil] at hmem
      exact List.not_mem_nil ((hmem c).2 hc)

end Moth.ModuleCompilation
