import Moth.ModuleCompilation.FailureSummaries

/-!
# Inference is exact

Every step keeps `Inferring`, so a bit has a reason; a round without a change
leaves no reason without its bit; and the functions without a bit become fewer
with every other round.
-/

namespace Moth.ModuleCompilation

open Moth.Borrow Moth.Datatypes Moth.Hir Moth.Lib Moth.Source

variable {hir : ConvergenceModule} {report state : PublicCallSummaries} {f : FunctionId}

/-! ## The start -/

theorem resetSummaries_ok {functions : List FunctionId} {report : PublicCallSummaries}
    (h : ∀ f ∈ functions, (report f).isSome) :
    ∃ start, resetSummaries functions report = .ok start ∧
      (∀ f ∈ functions, start f =
        (report f).map fun summary => { summary with escapesBuiltinFailure := false }) ∧
      ∀ f, f ∉ functions → start f = report f := by
  induction functions generalizing report with
  | nil => exact ⟨report, rfl, fun f hf => absurd hf List.not_mem_nil, fun _ _ => rfl⟩
  | cons first rest ih =>
      obtain ⟨summary, hsummary⟩ := Option.isSome_iff_exists.1 (h first List.mem_cons_self)
      have hnext (f : FunctionId) (hf : f ∈ rest) :
          (setEscapes report first summary false f).isSome := by
        rw [setEscapes]
        by_cases heq : f = first
        · subst heq
          rw [Function.update_self]
          rfl
        · rw [Function.update_of_ne heq]
          exact h f (List.mem_cons_of_mem _ hf)
      obtain ⟨start, hstart, hlisted, hothers⟩ := ih hnext
      refine ⟨start, ?_, fun f hf => ?_, fun f hf => ?_⟩
      · rw [resetSummaries, hsummary]
        exact hstart
      · rw [List.mem_cons] at hf
        by_cases hin : f ∈ rest
        · rw [hlisted f hin, setEscapes]
          by_cases heq : f = first
          · subst heq
            rw [Function.update_self, hsummary]
            rfl
          · rw [Function.update_of_ne heq]
        · have heq := hf.resolve_right hin
          subst heq
          rw [hothers f hin, setEscapes, Function.update_self, hsummary]
          rfl
      · rw [List.mem_cons, not_or] at hf
        rw [hothers f hf.2, setEscapes, Function.update_of_ne hf.1]

theorem Inferring.start {start : PublicCallSummaries}
    (hlisted : ∀ f ∈ hir.functions, start f =
      (report f).map fun summary => { summary with escapesBuiltinFailure := false })
    (hothers : ∀ f, f ∉ hir.functions → start f = report f) :
    Inferring hir report start where
  listed f hf summary hsummary := by
    refine ⟨false, ?_⟩
    rw [hlisted f hf, hsummary]
    rfl
  others := hothers
  sound f hf hbit := by
    rw [escapes, hlisted f hf, Option.any_map] at hbit
    cases hsummary : report f with
    | none =>
        rw [hsummary] at hbit
        cases hbit
    | some summary =>
        rw [hsummary] at hbit
        cases hbit

/-! ## One function -/

theorem escapes_setEscapes (summary : PublicCallSummary) (bit : Bool) (g : FunctionId) :
    escapes (setEscapes state f summary bit) g = if g = f then bit else escapes state g := by
  rw [escapes, setEscapes]
  by_cases heq : g = f
  · subst heq
    rw [Function.update_self, if_pos rfl]
    rfl
  · rw [Function.update_of_ne heq, if_neg heq]
    rfl

/-- The functions of the module without a bit. -/
def unset (hir : ConvergenceModule) (state : PublicCallSummaries) : Finset FunctionId :=
  hir.functions.toFinset.filter fun f => escapes state f = false

/-- The reason for which a step sets a bit. -/
def Reason (hir : ConvergenceModule) (state : PublicCallSummaries) (f : FunctionId) : Prop :=
  ∃ c, hir.Contributes f c ∧ builtinFailureContributorIsActive hir state c = .ok true

theorem Inferring.reason_escapes (h : Inferring hir report state)
    (hcomplete : hir.Complete report) (hreason : Reason hir state f) : Escapes hir report f := by
  obtain ⟨c, ⟨hf, facts, hfacts, hprivate, hc⟩, hactive⟩ := hreason
  have hcontributes : hir.Contributes f c := ⟨hf, facts, hfacts, hprivate, hc⟩
  rcases (h.active_iff hcomplete hfacts hc).2.1 hactive with
    horigin | ⟨target, hsource, hinstalled⟩ | ⟨g, hg, hsource, hbit⟩
  · exact .origin hcontributes horigin
  · exact .summary hcontributes hsource hinstalled
  · exact .call hcontributes hsource (h.sound g hg hbit)

/-- What a step does: set the bit of a function that has a reason and no bit, or nothing. -/
theorem inferFunction_cases (h : Inferring hir report state) (hcomplete : hir.Complete report)
    (hf : f ∈ hir.functions) :
    (∃ summary, state f = some summary ∧ Reason hir state f ∧ escapes state f = false ∧
      inferFunction hir f state = .ok (setEscapes state f summary true, true)) ∨
    (Reason hir state f → escapes state f = true) ∧
      inferFunction hir f state = .ok (state, false) := by
  obtain ⟨facts, hfacts⟩ := Option.isSome_iff_exists.1 (hcomplete.facts f hf)
  obtain ⟨summary, hsummary⟩ := h.isSome hcomplete hf
  obtain ⟨answer, hanswer, hiff, -⟩ :=
    activeBuiltinFailureContributor_ok (h.complete hcomplete) hfacts
  have hbit : escapes state f = summary.escapesBuiltinFailure := by
    rw [escapes, hsummary]
    rfl
  have hinfer : ((hir.functionFailureFacts.lookup f).any fun facts =>
      decide (facts.boundary = .InferPrivate)) = decide (facts.boundary = .InferPrivate) := by
    rw [hfacts]
    rfl
  have hreason : Reason hir state f ↔ facts.boundary = .InferPrivate ∧ answer.isSome := by
    rw [hiff]
    constructor
    · rintro ⟨c, ⟨-, found, hfound, hprivate, hc⟩, hactive⟩
      cases hfacts.symm.trans hfound
      exact ⟨hprivate, c, hc, hactive⟩
    · rintro ⟨hprivate, c, hc, hactive⟩
      exact ⟨c, ⟨hf, facts, hfacts, hprivate, hc⟩, hactive⟩
  rw [inferFunction, hanswer, ok_bind]
  simp only [hinfer, hsummary]
  by_cases hset : (decide (facts.boundary = .InferPrivate) && answer.isSome &&
      !summary.escapesBuiltinFailure) = true
  · rw [if_pos hset]
    rw [Bool.and_eq_true, Bool.and_eq_true, decide_eq_true_eq, Bool.not_eq_true'] at hset
    exact .inl ⟨summary, rfl, hreason.2 hset.1, hbit.trans hset.2, rfl⟩
  · rw [if_neg hset]
    refine .inr ⟨fun hwhy => ?_, rfl⟩
    rw [Bool.and_eq_true, Bool.and_eq_true, decide_eq_true_eq, not_and, Bool.not_eq_true',
      Bool.not_eq_false] at hset
    exact hbit.trans (hset (hreason.1 hwhy))

theorem Inferring.set (h : Inferring hir report state) (hcomplete : hir.Complete report)
    (hf : f ∈ hir.functions) {summary : PublicCallSummary} (hsummary : state f = some summary)
    (hreason : Reason hir state f) :
    Inferring hir report (setEscapes state f summary true) where
  listed g hg original horiginal := by
    rw [setEscapes]
    by_cases heq : g = f
    · subst heq
      obtain ⟨bit, hbit⟩ := h.listed g hg original horiginal
      cases hsummary.symm.trans hbit
      rw [Function.update_self]
      exact ⟨true, rfl⟩
    · rw [Function.update_of_ne heq]
      exact h.listed g hg original horiginal
  others g hg := by
    have hne : g ≠ f := by
      rintro rfl
      exact hg hf
    rw [setEscapes, Function.update_of_ne hne]
    exact h.others g hg
  sound g hg hbit := by
    rw [escapes_setEscapes] at hbit
    by_cases heq : g = f
    · subst heq
      exact h.reason_escapes hcomplete hreason
    · rw [if_neg heq] at hbit
      exact h.sound g hg hbit

theorem unset_set (hf : f ∈ hir.functions) (hbit : escapes state f = false)
    (summary : PublicCallSummary) :
    (unset hir (setEscapes state f summary true)).card < (unset hir state).card := by
  refine Finset.card_lt_card ((Finset.ssubset_iff_of_subset fun g hg => ?_).2 ⟨f, ?_, ?_⟩)
  · rw [unset, Finset.mem_filter, escapes_setEscapes] at hg
    rw [unset, Finset.mem_filter]
    refine ⟨hg.1, ?_⟩
    by_cases heq : g = f
    · rw [heq]
      exact hbit
    · rw [← hg.2, if_neg heq]
  · exact Finset.mem_filter.2 ⟨List.mem_toFinset.2 hf, hbit⟩
  · rw [unset, Finset.mem_filter, escapes_setEscapes, if_pos rfl]
    rintro ⟨-, hfalse⟩
    cases hfalse

theorem inferFunction_step (hcomplete : hir.Complete report) (hf : f ∈ hir.functions)
    {next : PublicCallSummaries} {changed : Bool} (h : Inferring hir report state)
    (hstep : inferFunction hir f state = .ok (next, changed)) :
    Inferring hir report next ∧ (unset hir next).card ≤ (unset hir state).card ∧
      (changed = true → (unset hir next).card < (unset hir state).card) := by
  rcases inferFunction_cases h hcomplete hf with
    ⟨summary, hsummary, hreason, hbit, hrun⟩ | ⟨-, hrun⟩
  · cases hrun.symm.trans hstep
    have hless := unset_set hf hbit summary
    exact ⟨h.set hcomplete hf hsummary hreason, hless.le, fun _ => hless⟩
  · cases hrun.symm.trans hstep
    exact ⟨h, Nat.le_refl _, fun hfalse => by cases hfalse⟩

/-! ## All rounds -/

theorem inferFunction_unchanged (node : FunctionId) (state next : PublicCallSummaries)
    (h : inferFunction hir node state = .ok (next, false)) : next = state := by
  rw [inferFunction, bind_eq_ok] at h
  obtain ⟨answer, -, h⟩ := h
  cases hsummary : state node with
  | none =>
      simp only [hsummary] at h
      cases h
  | some summary =>
      simp only [hsummary] at h
      split at h
      · cases h
      · cases h
        rfl

/-- Inference ends, and its last round had nothing to change. -/
theorem inferBuiltinFailureSummaries_settles (hcomplete : hir.Complete report) :
    ∃ final, inferBuiltinFailureSummaries hir report = .ok final ∧ Inferring hir report final ∧
      ∀ f ∈ hir.functions, Reason hir final f → escapes final f = true := by
  obtain ⟨start, hstart, hlisted, hothers⟩ := resetSummaries_ok hcomplete.summaries
  have hinv : Inferring hir report start := .start hlisted hothers
  have hround : ∀ state next changed, Inferring hir report state →
      inPlace (inferFunction hir) hir.functions state = .ok (next, changed) →
        Inferring hir report next := by
    intro state next changed hstate hrun
    exact inPlace_induction (fun f hf a b c ha hb => (inferFunction_step hcomplete hf ha hb).1)
      hstate hrun
  rw [inferBuiltinFailureSummaries, hstart, ok_bind]
  cases hrun : rounds (inPlace (inferFunction hir) hir.functions) .fuelEnded
      (hir.functions.length + 1) start with
  | error bug =>
      have hcard : (unset hir start).card < hir.functions.length + 1 :=
        Nat.lt_succ_of_le ((Finset.card_filter_le _ _).trans (List.toFinset_card_le _))
      obtain ⟨_, last, ⟨hlast, -⟩, hfail⟩ := rounds_error
        (P := fun n state => Inferring hir report state ∧ (unset hir state).card ≤ n)
        (fun n state next hstate hpass => by
          have hless := (inPlace_measure (fun f hf a b c ha hb =>
            inferFunction_step hcomplete hf ha hb) hstate.1 hpass).2 rfl
          obtain ⟨m, rfl⟩ : ∃ m, n = m + 1 := ⟨n - 1, by omega⟩
          exact ⟨m, rfl, hround state next true hstate.1 hpass, by omega⟩)
        ⟨hinv, Nat.le_refl _⟩ hcard hrun
      obtain ⟨f, hf, state, hstate, herror⟩ := inPlace_error
        (fun f hf a b c ha hb => (inferFunction_step hcomplete hf ha hb).1) hlast hfail
      rcases inferFunction_cases hstate hcomplete hf with ⟨_, -, -, -, hok⟩ | ⟨-, hok⟩
      · cases hok.symm.trans herror
      · cases hok.symm.trans herror
  | ok final =>
      obtain ⟨last, hlast, hpass⟩ := rounds_settled hround hinv hrun
      obtain ⟨rfl, hfixed⟩ := inPlace_unchanged inferFunction_unchanged hpass
      refine ⟨final, rfl, hlast, fun f hf hreason => ?_⟩
      rcases inferFunction_cases hlast hcomplete hf with ⟨_, -, -, -, hok⟩ | ⟨hset, -⟩
      · have hpair := Except.ok.inj (hok.symm.trans (hfixed f hf))
        cases congrArg Prod.snd hpair
      · exact hset hreason

/-- A function's bit is set exactly when its failures escape it. -/
theorem inferBuiltinFailureSummaries_exact (hcomplete : hir.Complete report) :
    ∃ final, inferBuiltinFailureSummaries hir report = .ok final ∧ Inferring hir report final ∧
      ∀ f ∈ hir.functions, escapes final f = true ↔ Escapes hir report f := by
  obtain ⟨final, hrun, hfinal, hsettled⟩ := inferBuiltinFailureSummaries_settles hcomplete
  refine ⟨final, hrun, hfinal, fun f hf => ⟨hfinal.sound f hf, fun hescapes => ?_⟩⟩
  have hset : ∀ {f c}, hir.Contributes f c →
      builtinFailureContributorIsActive hir final c = .ok true → escapes final f = true :=
    fun hc hactive => hsettled _ hc.1 ⟨_, hc, hactive⟩
  have hactive : ∀ {f c}, hir.Contributes f c →
      (c.IsOrigin ∨ (∃ target, c.source = .Call target ∧ hir.InstalledEscapes report target) ∨
        ∃ g ∈ hir.functions, c.source = .Call (.Local g) ∧ escapes final g = true) →
      builtinFailureContributorIsActive hir final c = .ok true := by
    rintro f c ⟨_, facts, hfacts, _, hc⟩ hwhy
    exact (hfinal.active_iff hcomplete hfacts hc).2.2 hwhy
  clear hf
  induction hescapes with
  | origin hc horigin => exact hset hc (hactive hc (.inl horigin))
  | summary hc hsource hinstalled =>
      exact hset hc (hactive hc (.inr (.inl ⟨_, hsource, hinstalled⟩)))
  | call hc hsource hescapes ih =>
      refine hset hc (hactive hc (.inr (.inr ⟨_, ?_, hsource, ih⟩)))
      cases hescapes with
      | origin hg => exact hg.1
      | summary hg => exact hg.1
      | call hg => exact hg.1

end Moth.ModuleCompilation
