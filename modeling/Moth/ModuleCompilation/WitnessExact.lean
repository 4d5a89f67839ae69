import Moth.ModuleCompilation.WitnessSearch

/-!
# When a failure is explained

The search starts in a function it counts as entered and follows one of the
function's contributors. It explains the failure exactly when a chain from
that contributor never calls the function again: a recursive call back uses up
the candidates of the others, and the function's own later contributors are
not tried. A function through which no failure escapes is never called back on
a chain, so its failures are explained.
-/

namespace Moth.ModuleCompilation

open Moth.Borrow Moth.Datatypes Moth.Hir Moth.Lib Moth.Source

variable {hir : ConvergenceModule} {report : PublicCallSummaries} {f : FunctionId}
  {c : HirBuiltinFailureContributor}

/-- The witness shows a real chain from the contributor. -/
def Explains (hir : ConvergenceModule) (active : HirBuiltinFailureContributor → Prop)
    (c : HirBuiltinFailureContributor) (witness : BuiltinFailureWitness) : Prop :=
  ∃ hops originSpan origin,
    FailureChain hir active (fun _ => False) c hops originSpan origin ∧
      witness = retainBoundedWitnessHops ⟨[], originSpan, origin, 0⟩ hops

/-- Some chain from the contributor never enters one of the functions. -/
def ChainAvoids (hir : ConvergenceModule) (active : HirBuiltinFailureContributor → Prop)
    (blocked : FunctionId → Prop) (c : HirBuiltinFailureContributor) : Prop :=
  ∃ hops originSpan origin, FailureChain hir active blocked c hops originSpan origin

/-- A contributor that a failure comes out of: work that fails, a call whose installed summary
has the bit, or a local call of a function that a failure escapes. -/
def ConvergenceModule.Active (hir : ConvergenceModule) (report : PublicCallSummaries)
    (c : HirBuiltinFailureContributor) : Prop :=
  c.IsOrigin ∨ (∃ target, c.source = .Call target ∧ hir.InstalledEscapes report target) ∨
    ∃ g ∈ hir.functions, c.source = .Call (.Local g) ∧ Escapes hir report g

theorem unentered_lt_fuel (hir : ConvergenceModule) (entered : List FunctionId) :
    hir.unentered entered < hir.searchFuel := by
  have hle : hir.unentered entered ≤
      (hir.functionFailureFacts.map fun row => row.2.contributors.length + 2).sum := by
    refine List.sum_le_sum fun row _ => ?_
    split
    · exact Nat.zero_le _
    · exact Nat.le_refl _
  rw [ConvergenceModule.searchFuel]
  omega

theorem Searching.start {blocked : List FunctionId} (hc : Known hir c) (hblocked : blocked.Nodup) :
    Searching hir report c blocked ⟨some c, [], [], blocked⟩ where
  nodup := hblocked
  kept _ hg := hg
  known _ hcursor := absurd hcursor List.not_mem_nil
  nextKnown d hd := by
    cases hd
    exact hc
  nextLeads d hd := by
    cases hd
    exact fun _ _ _ hchain => hchain
  suspended := rfl
  covered _ := ⟨.inl rfl, fun g hg hfree => absurd hg hfree⟩

theorem not_explains_nil {active : HirBuiltinFailureContributor → Prop} {target : CallTarget}
    (hsource : c.source = .Call target) (originSpan : Option SourceSpan)
    (origin : BuiltinFailureOriginKind) :
    ¬Explains hir active c (retainBoundedWitnessHops ⟨[], originSpan, origin, 0⟩ []) := by
  rintro ⟨hops, span, kind, hchain, heq⟩
  have hnil : hops.take MAX_CALL_HOPS = [] :=
    (congrArg BuiltinFailureWitness.callSpans heq).symm
  cases hchain with
  | operation hsource' =>
      rcases hsource' with hsource' | hsource'
      · cases hsource.symm.trans hsource'
      · cases hsource.symm.trans hsource'
  | writeBack hsource' => cases hsource.symm.trans hsource'
  | leaf => cases hnil
  | call => cases hnil

/-- The search ends, enters no body twice, and explains the contributor exactly when a chain from
it avoids what was entered before. -/
theorem builtinFailureWitnessSearch_exact (hcomplete : hir.Complete report) (hc : Known hir c)
    {blocked : List FunctionId} (hblocked : blocked.Nodup) :
    ∃ witness entered,
      builtinFailureWitnessSearch hir report c blocked = some (.ok (witness, entered)) ∧
      entered.Nodup ∧
      (Explains hir (IsActive hir report) c witness ↔
        ChainAvoids hir (IsActive hir report) (· ∈ blocked) c) := by
  have hroom : WitnessSearch.room hir ⟨some c, [], [], blocked⟩ < hir.searchFuel :=
    unentered_lt_fuel hir blocked
  obtain ⟨found, entered, hrun, hnodup, hended⟩ :=
    searchTurns_ok hcomplete (Searching.start hc hblocked) hroom
  refine ⟨found.witness, entered, ?_, hnodup, ?_⟩
  · rw [builtinFailureWitnessSearch, hrun]
    rfl
  · rcases hended with hchain | ⟨rfl, hcovered⟩
    · have hfree : FailureChain hir (IsActive hir report) (fun _ => False) c found.hops.reverse
          found.originSpan found.origin := hchain.mono (fun _ _ h => h) fun _ hg => hg.elim
      exact iff_of_true ⟨_, _, _, hfree, rfl⟩ ⟨_, _, _, hchain⟩
    · have hfollowed : Followed hir entered c := by
        rcases hcovered.1 with heq | hfollowed
        · cases heq
        · exact hfollowed
      have hcall := hfollowed
      obtain ⟨target, g, hsource, -⟩ := hcall
      refine iff_of_false (not_explains_nil hsource none .Operation) ?_
      rintro ⟨_, _, _, hchain⟩
      exact hcovered.no_chain hchain hfollowed

/-! ## Inference and search together -/

theorem Inferring.isActive_iff {final : PublicCallSummaries} (hfinal : Inferring hir report final)
    (hcomplete : hir.Complete report)
    (hbits : ∀ f ∈ hir.functions, escapes final f = true ↔ Escapes hir report f)
    (hc : Known hir c) : IsActive hir final c ↔ hir.Active report c := by
  obtain ⟨_, facts, hfacts, hin⟩ := hc
  refine (hfinal.active_iff hcomplete hfacts hin).2.trans (or_congr_right (or_congr_right ?_))
  exact exists_congr fun g => and_congr_right fun hg => and_congr_right fun _ => hbits g hg

section Congruence

variable {active active' : HirBuiltinFailureContributor → Prop}
  (h : ∀ d, Known hir d → (active d ↔ active' d))
include h

theorem failureChain_congr {blocked : FunctionId → Prop} {hops : List (Option SourceSpan)}
    {originSpan : Option SourceSpan} {origin : BuiltinFailureOriginKind} :
    FailureChain hir active blocked c hops originSpan origin ↔
      FailureChain hir active' blocked c hops originSpan origin :=
  ⟨.mono (fun d hd => (h d hd).1) fun _ h => h, .mono (fun d hd => (h d hd).2) fun _ h => h⟩

theorem explains_congr {witness : BuiltinFailureWitness} :
    Explains hir active c witness ↔ Explains hir active' c witness :=
  exists_congr fun _ => exists_congr fun _ => exists_congr fun _ =>
    and_congr_left fun _ => failureChain_congr h

theorem chainAvoids_congr {blocked : FunctionId → Prop} :
    ChainAvoids hir active blocked c ↔ ChainAvoids hir active' blocked c :=
  exists_congr fun _ => exists_congr fun _ => exists_congr fun _ => failureChain_congr h

end Congruence

/-- After inference a function that a failure comes out of has a contributor selected, and the
search behind it explains it exactly when a chain from it does not call the function again. -/
theorem builtinFailureWitness_exact (hcomplete : hir.Complete report)
    {final : PublicCallSummaries} (hfinal : Inferring hir report final)
    (hbits : ∀ f ∈ hir.functions, escapes final f = true ↔ Escapes hir report f)
    {facts : HirFunctionFailureFacts} (hfacts : hir.functionFailureFacts.lookup f = some facts)
    (hactive : ∃ c ∈ facts.contributors, hir.Active report c) :
    ∃ c witness entered, activeBuiltinFailureContributor hir final f = .ok (some c) ∧
      (c ∈ facts.contributors ∧ hir.Active report c) ∧
      builtinFailureWitness hir final f c = some (.ok (witness, entered)) ∧ entered.Nodup ∧
      (Explains hir (hir.Active report) c witness ↔
        ChainAvoids hir (hir.Active report) (· = f) c) := by
  have hsame : ∀ d, Known hir d → (IsActive hir final d ↔ hir.Active report d) :=
    fun _ hd => hfinal.isActive_iff hcomplete hbits hd
  have hknown : ∀ d ∈ facts.contributors, Known hir d := fun d hd => ⟨f, facts, hfacts, hd⟩
  have hcomplete' := hfinal.complete hcomplete
  obtain ⟨answer, hanswer, hiff, hmem⟩ := activeBuiltinFailureContributor_ok hcomplete' hfacts
  obtain ⟨c, rfl⟩ := Option.isSome_iff_exists.1 (hiff.2
    (hactive.imp fun d hd => ⟨hd.1, (hsame d (hknown d hd.1)).2 hd.2⟩))
  obtain ⟨hc, hcactive⟩ := hmem c rfl
  obtain ⟨witness, entered, hsearch, hnodup, hexplains⟩ :=
    builtinFailureWitnessSearch_exact hcomplete' (hknown c hc) (List.nodup_singleton f)
  have hblocked : (fun g => g ∈ [f]) = fun g => g = f := by
    funext g
    rw [List.mem_singleton]
  rw [explains_congr hsame, chainAvoids_congr hsame, hblocked] at hexplains
  exact ⟨c, witness, entered, hanswer, ⟨hc, (hsame c (hknown c hc)).1 hcactive⟩, hsearch, hnodup,
    hexplains⟩

/-- After inference every function with an active contributor has one selected, and its search
explains it exactly when a chain from it does not call the function again. -/
theorem builtin_failure_explained_iff (hcomplete : hir.Complete report) :
    ∃ final, inferBuiltinFailureSummaries hir report = .ok final ∧
      (∀ f ∈ hir.functions, escapes final f = true ↔ Escapes hir report f) ∧
      ∀ f facts, hir.functionFailureFacts.lookup f = some facts →
        (∃ c ∈ facts.contributors, hir.Active report c) →
        ∃ c witness entered, activeBuiltinFailureContributor hir final f = .ok (some c) ∧
          builtinFailureWitness hir final f c = some (.ok (witness, entered)) ∧
          entered.Nodup ∧
          (Explains hir (hir.Active report) c witness ↔
            ChainAvoids hir (hir.Active report) (· = f) c) := by
  obtain ⟨final, hrun, hfinal, hbits⟩ := inferBuiltinFailureSummaries_exact hcomplete
  refine ⟨final, hrun, hbits, fun f facts hfacts hactive => ?_⟩
  obtain ⟨c, witness, entered, hanswer, -, hsearch⟩ :=
    builtinFailureWitness_exact hcomplete hfinal hbits hfacts hactive
  exact ⟨c, witness, entered, hanswer, hsearch⟩

/-! ## Functions through which nothing escapes -/

/-- The functions a module owns are called as its own. -/
def ConvergenceModule.CallsOwnLocally (hir : ConvergenceModule) : Prop :=
  ∀ f facts, hir.functionFailureFacts.lookup f = some facts → ∀ c ∈ facts.contributors,
    ∀ target, c.source = .Call target → ∀ g, ownedCallee hir target = some g →
      target = .Local g ∧ g ∈ hir.functions

theorem Escapes.private {g : FunctionId} (h : Escapes hir report g) :
    ∃ facts, hir.functionFailureFacts.lookup g = some facts ∧ facts.boundary = .InferPrivate := by
  cases h with
  | origin hc | summary hc | call hc =>
      obtain ⟨-, facts, hfacts, hprivate, -⟩ := hc
      exact ⟨facts, hfacts, hprivate⟩

theorem chain_of_reason (hlocal : hir.CallsOwnLocally)
    {facts : HirFunctionFailureFacts} {g : FunctionId}
    (hfacts : hir.functionFailureFacts.lookup g = some facts) (hc : c ∈ facts.contributors)
    (hwhy : c.IsOrigin ∨
      (∃ target, c.source = .Call target ∧ hir.InstalledEscapes report target) ∨
      ∃ callee own d, c.source = .Call (.Local callee) ∧ callee ≠ f ∧
        hir.functionFailureFacts.lookup callee = some own ∧ d ∈ own.contributors ∧
        hir.Active report d ∧ ChainAvoids hir (hir.Active report) (· = f) d) :
    ChainAvoids hir (hir.Active report) (· = f) c := by
  rcases hwhy with horigin | ⟨target, hsource, hinstalled, -⟩ |
    ⟨callee, own, d, hsource, hne, hown, hd, hactive, hops, span, kind, hchain⟩
  · cases hsource : c.source with
    | NumericOperation => exact ⟨_, _, _, .operation (.inl hsource)⟩
    | AuthoredCastConversion => exact ⟨_, _, _, .operation (.inr hsource)⟩
    | CompoundWriteBack => exact ⟨_, _, _, .writeBack hsource⟩
    | Call target => exact absurd hsource (horigin target)
  · cases howned : ownedCallee hir target with
    | none => exact ⟨_, _, _, .leaf hsource howned⟩
    | some callee =>
        obtain ⟨heq, hin⟩ := hlocal g facts hfacts c hc target hsource callee howned
        exact absurd heq (hinstalled callee hin)
  · exact ⟨_, _, _, .call hsource rfl hne hown hd hactive hchain⟩

theorem Escapes.chain (hlocal : hir.CallsOwnLocally) {facts : HirFunctionFailureFacts}
    (hfacts : hir.functionFailureFacts.lookup f = some facts)
    (hboundary : facts.boundary ≠ .InferPrivate) {g : FunctionId} (h : Escapes hir report g) :
    g ≠ f ∧ ∃ own d, hir.functionFailureFacts.lookup g = some own ∧ d ∈ own.contributors ∧
      hir.Active report d ∧ ChainAvoids hir (hir.Active report) (· = f) d := by
  have hne : ∀ {g}, Escapes hir report g → g ≠ f := by
    rintro g hg rfl
    obtain ⟨own, hown, hprivate⟩ := hg.private
    cases hfacts.symm.trans hown
    exact hboundary hprivate
  refine ⟨hne h, ?_⟩
  induction h with
  | @origin g c hc horigin =>
      obtain ⟨-, own, hown, -, hin⟩ := hc
      exact ⟨own, c, hown, hin, .inl horigin, chain_of_reason hlocal hown hin (.inl horigin)⟩
  | @summary g c target hc hsource hinstalled =>
      obtain ⟨-, own, hown, -, hin⟩ := hc
      exact ⟨own, c, hown, hin, .inr (.inl ⟨target, hsource, hinstalled⟩),
        chain_of_reason hlocal hown hin (.inr (.inl ⟨target, hsource, hinstalled⟩))⟩
  | @call g callee c hc hsource hescapes ih =>
      obtain ⟨-, own, hown, -, hin⟩ := hc
      obtain ⟨own', d, hown', hd, hactive, hchain⟩ := ih
      have hcallee : callee ∈ hir.functions :=
        (hlocal g own hown c hin _ hsource callee rfl).2
      exact ⟨own, c, hown, hin, .inr (.inr ⟨callee, hcallee, hsource, hescapes⟩),
        chain_of_reason hlocal hown hin (.inr (.inr
          ⟨callee, own', d, hsource, hne hescapes, hown', hd, hactive, hchain⟩))⟩

theorem chainAvoids_of_boundary (hlocal : hir.CallsOwnLocally) {facts : HirFunctionFailureFacts}
    (hfacts : hir.functionFailureFacts.lookup f = some facts)
    (hboundary : facts.boundary ≠ .InferPrivate) (hc : c ∈ facts.contributors)
    (hactive : hir.Active report c) : ChainAvoids hir (hir.Active report) (· = f) c := by
  refine chain_of_reason hlocal hfacts hc (hactive.imp_right (Or.imp_right ?_))
  rintro ⟨g, hg, hsource, hescapes⟩
  obtain ⟨hne, own, d, hown, hd, hdactive, hchain⟩ := hescapes.chain hlocal hfacts hboundary
  exact ⟨g, own, d, hsource, hne, hown, hd, hdactive, hchain⟩

/-! ## A recursive call before the producer -/

/-- A private function calls another, then multiplies; the other only calls it back. -/
def recursiveModule : ConvergenceModule where
  functions := [⟨0⟩, ⟨1⟩]
  functionFailureFacts :=
    [(⟨0⟩, ⟨.InferPrivate, [⟨.Call (.Local ⟨1⟩), none, []⟩,
        ⟨.NumericOperation, none, [.IntOverflow]⟩]⟩),
      (⟨1⟩, ⟨.InferPrivate, [⟨.Call (.Local ⟨0⟩), none, []⟩]⟩)]
  functionIdsByPrivateOrigin := fun _ => none
  functionIdsByGenerated := fun _ => none
  importedCallSummaries := fun _ => none
  modulePrivateCallSummaries := fun _ => none
  generatedCallSummaries := fun _ => none

def freshSummary : PublicCallSummary := ⟨[], .Fresh, false⟩

def recursiveReport : PublicCallSummaries := fun _ => some freshSummary

theorem recursiveModule_rows {f : FunctionId} {facts : HirFunctionFailureFacts}
    (h : recursiveModule.functionFailureFacts.lookup f = some facts) :
    f = ⟨0⟩ ∧ facts = ⟨.InferPrivate, [⟨.Call (.Local ⟨1⟩), none, []⟩,
        ⟨.NumericOperation, none, [.IntOverflow]⟩]⟩ ∨
      f = ⟨1⟩ ∧ facts = ⟨.InferPrivate, [⟨.Call (.Local ⟨0⟩), none, []⟩]⟩ := by
  obtain ⟨i⟩ := f
  rcases i with _ | _ | i
  · cases h
    exact .inl ⟨rfl, rfl⟩
  · cases h
    exact .inr ⟨rfl, rfl⟩
  · cases h

theorem recursiveModule_complete : recursiveModule.Complete recursiveReport where
  facts := by decide
  summaries _ _ := rfl
  classified f facts hfacts c hc := by
    rcases recursiveModule_rows hfacts with ⟨-, rfl⟩ | ⟨-, rfl⟩
    · rcases List.mem_cons.1 hc with rfl | hc
      · exact ⟨false, rfl⟩
      · cases List.mem_singleton.1 hc
        exact ⟨true, rfl⟩
    · cases List.mem_singleton.1 hc
      exact ⟨false, rfl⟩
  owned f facts hfacts c hc target hsource callee howned := by
    rcases recursiveModule_rows hfacts with ⟨-, rfl⟩ | ⟨-, rfl⟩
    · rcases List.mem_cons.1 hc with rfl | hc
      · cases hsource
        cases howned
        rfl
      · cases List.mem_singleton.1 hc
        cases hsource
    · cases List.mem_singleton.1 hc
      cases hsource
      cases howned
      rfl

def recursiveFinal : PublicCallSummaries :=
  setEscapes (setEscapes (setEscapes (setEscapes recursiveReport ⟨0⟩ freshSummary false)
    ⟨1⟩ freshSummary false) ⟨0⟩ freshSummary true) ⟨1⟩ freshSummary true

theorem recursive_inferred :
    inferBuiltinFailureSummaries recursiveModule recursiveReport = .ok recursiveFinal := rfl

theorem recursive_escapes : Escapes recursiveModule recursiveReport ⟨0⟩ :=
  .origin (c := ⟨.NumericOperation, none, [.IntOverflow]⟩) ⟨by decide, _, rfl, rfl, by decide⟩
    fun _ hsource => (by cases hsource)

theorem recursive_selected_back :
    activeBuiltinFailureContributor recursiveModule recursiveFinal ⟨1⟩ =
      .ok (some ⟨.Call (.Local ⟨0⟩), none, []⟩) := rfl

/-- The function that only calls back is explained by the other's multiplication. -/
theorem builtin_failure_explained_iff_recursive :
    ∃ final, inferBuiltinFailureSummaries recursiveModule recursiveReport = .ok final ∧
      escapes final ⟨0⟩ = true ∧
      ∃ c witness entered, activeBuiltinFailureContributor recursiveModule final ⟨1⟩ =
          .ok (some c) ∧
        builtinFailureWitness recursiveModule final ⟨1⟩ c = some (.ok (witness, entered)) ∧
        entered.Nodup ∧
        Explains recursiveModule (recursiveModule.Active recursiveReport) c witness := by
  obtain ⟨final, hrun, hbits, hsearch⟩ := builtin_failure_explained_iff recursiveModule_complete
  cases recursive_inferred.symm.trans hrun
  have hcalls : recursiveModule.Active recursiveReport ⟨.Call (.Local ⟨0⟩), none, []⟩ :=
    .inr (.inr ⟨⟨0⟩, by decide, rfl, recursive_escapes⟩)
  obtain ⟨c, witness, entered, hselected, hwitness, hnodup, hexplains⟩ :=
    hsearch ⟨1⟩ _ rfl ⟨_, List.mem_singleton_self _, hcalls⟩
  cases recursive_selected_back.symm.trans hselected
  have hmultiplies : recursiveModule.Active recursiveReport
      ⟨.NumericOperation, none, [.IntOverflow]⟩ := .inl fun _ hsource => (by cases hsource)
  refine ⟨_, hrun, (hbits ⟨0⟩ (by decide)).2 recursive_escapes, _, witness, entered, hselected,
    hwitness, hnodup, hexplains.2 ⟨_, _, _, .call rfl rfl (by decide) rfl ?_ hmultiplies
      (.operation (.inl rfl))⟩⟩
  decide

theorem recursive_selected :
    activeBuiltinFailureContributor recursiveModule recursiveFinal ⟨0⟩ =
      .ok (some ⟨.Call (.Local ⟨1⟩), none, []⟩) := rfl

theorem recursive_witness :
    builtinFailureWitness recursiveModule recursiveFinal ⟨0⟩ ⟨.Call (.Local ⟨1⟩), none, []⟩ =
      some (.ok (retainBoundedWitnessHops ⟨[], none, .Operation, 0⟩ [], [⟨1⟩, ⟨0⟩])) := rfl

/-- The multiplication of the function is never shown. -/
theorem witness_search_loses_own_producer :
    ¬∀ (hir : ConvergenceModule) (report : PublicCallSummaries), hir.Complete report →
      ∃ final, inferBuiltinFailureSummaries hir report = .ok final ∧
        (∀ f ∈ hir.functions, escapes final f = true ↔ Escapes hir report f) ∧
        ∀ f facts, hir.functionFailureFacts.lookup f = some facts →
          (∃ c ∈ facts.contributors, hir.Active report c) →
          ∃ c witness entered, activeBuiltinFailureContributor hir final f = .ok (some c) ∧
            builtinFailureWitness hir final f c = some (.ok (witness, entered)) ∧
            entered.Nodup ∧ Explains hir (hir.Active report) c witness := by
  intro hall
  obtain ⟨final, hrun, -, hsearch⟩ := hall recursiveModule recursiveReport recursiveModule_complete
  cases recursive_inferred.symm.trans hrun
  obtain ⟨c, witness, entered, hselected, hwitness, -, hexplains⟩ := hsearch ⟨0⟩ _ rfl
    ⟨⟨.NumericOperation, none, [.IntOverflow]⟩, by decide, .inl fun _ h => (by cases h)⟩
  cases recursive_selected.symm.trans hselected
  cases recursive_witness.symm.trans hwitness
  exact not_explains_nil rfl none .Operation hexplains

/-! ## What a diagnostic asks for

It asks about functions through which no failure escapes, and no chain calls
one of these back. -/

/-- After inference a function through which no failure escapes has an active contributor
explained, whatever calls itself behind it. -/
theorem boundary_failure_explained (hcomplete : hir.Complete report)
    (hlocal : hir.CallsOwnLocally) :
    ∃ final, inferBuiltinFailureSummaries hir report = .ok final ∧
      ∀ f facts, hir.functionFailureFacts.lookup f = some facts → facts.boundary ≠ .InferPrivate →
        (∃ c ∈ facts.contributors, hir.Active report c) →
        ∃ c witness entered, activeBuiltinFailureContributor hir final f = .ok (some c) ∧
          builtinFailureWitness hir final f c = some (.ok (witness, entered)) ∧
          Explains hir (hir.Active report) c witness := by
  obtain ⟨final, hrun, hfinal, hbits⟩ := inferBuiltinFailureSummaries_exact hcomplete
  refine ⟨final, hrun, fun f facts hfacts hboundary hactive => ?_⟩
  obtain ⟨c, witness, entered, hanswer, ⟨hc, hcactive⟩, hsearch, -, hexplains⟩ :=
    builtinFailureWitness_exact hcomplete hfinal hbits hfacts hactive
  exact ⟨c, witness, entered, hanswer, hsearch,
    hexplains.2 (chainAvoids_of_boundary hlocal hfacts hboundary hc hcactive)⟩

/-- An exported function calls a private one, which calls it back before it multiplies. -/
def exportedModule : ConvergenceModule :=
  { recursiveModule with
    functionFailureFacts :=
      [(⟨0⟩, ⟨.ExportedNoSlot, [⟨.Call (.Local ⟨1⟩), none, []⟩]⟩),
        (⟨1⟩, ⟨.InferPrivate, [⟨.Call (.Local ⟨0⟩), none, []⟩,
          ⟨.NumericOperation, none, [.IntOverflow]⟩]⟩)] }

theorem exportedModule_rows {f : FunctionId} {facts : HirFunctionFailureFacts}
    (h : exportedModule.functionFailureFacts.lookup f = some facts) :
    ∀ c ∈ facts.contributors, c = ⟨.NumericOperation, none, [.IntOverflow]⟩ ∨
      ∃ g ∈ exportedModule.functions, c = ⟨.Call (.Local g), none, []⟩ := by
  obtain ⟨i⟩ := f
  rcases i with _ | _ | i
  · cases h
    decide
  · cases h
    decide
  · cases h

theorem exportedModule_complete : exportedModule.Complete recursiveReport where
  facts := by decide
  summaries _ _ := rfl
  classified f facts hfacts c hc := by
    rcases exportedModule_rows hfacts c hc with rfl | ⟨g, hg, rfl⟩
    · exact ⟨true, rfl⟩
    · exact ⟨false, rfl⟩
  owned f facts hfacts c hc target hsource callee howned := by
    have hfacts' : ∀ g ∈ exportedModule.functions,
        (exportedModule.functionFailureFacts.lookup g).isSome := by decide
    rcases exportedModule_rows hfacts c hc with rfl | ⟨g, hg, rfl⟩
    · cases hsource
    · cases hsource
      cases howned
      exact hfacts' _ hg

theorem exportedModule_callsOwnLocally : exportedModule.CallsOwnLocally := by
  intro f facts hfacts c hc target hsource g howned
  rcases exportedModule_rows hfacts c hc with rfl | ⟨callee, hcallee, rfl⟩
  · cases hsource
  · cases hsource
    cases howned
    exact ⟨rfl, hcallee⟩

theorem exported_escapes : Escapes exportedModule recursiveReport ⟨1⟩ :=
  .origin (c := ⟨.NumericOperation, none, [.IntOverflow]⟩) ⟨by decide, _, rfl, rfl, by decide⟩
    fun _ hsource => (by cases hsource)

theorem boundary_failure_explained_exported : ∃ final c witness entered,
    inferBuiltinFailureSummaries exportedModule recursiveReport = .ok final ∧
    activeBuiltinFailureContributor exportedModule final ⟨0⟩ = .ok (some c) ∧
    builtinFailureWitness exportedModule final ⟨0⟩ c = some (.ok (witness, entered)) ∧
    Explains exportedModule (exportedModule.Active recursiveReport) c witness := by
  obtain ⟨final, hrun, hall⟩ :=
    boundary_failure_explained exportedModule_complete exportedModule_callsOwnLocally
  have hcalls : exportedModule.Active recursiveReport ⟨.Call (.Local ⟨1⟩), none, []⟩ :=
    .inr (.inr ⟨⟨1⟩, by decide, rfl, exported_escapes⟩)
  obtain ⟨c, witness, entered, hexplained⟩ :=
    hall ⟨0⟩ _ rfl (by decide) ⟨_, List.mem_singleton_self _, hcalls⟩
  exact ⟨final, c, witness, entered, hrun, hexplained⟩

end Moth.ModuleCompilation
