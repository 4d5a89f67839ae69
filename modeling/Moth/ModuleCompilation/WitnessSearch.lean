import Mathlib.Algebra.Order.BigOperators.Group.List
import Moth.ModuleCompilation.SummariesExact

/-!
# The witness search

The search keeps two promises at once. Whatever candidate it still holds leads
on from the contributor it started with, so what it finds ends a real chain.
And every active contributor of an entered body is held or was followed into an
entered body, so once it holds none, no chain leaves the entered bodies.
A body is entered once and a candidate taken once, which bounds the turns.
-/

namespace Moth.ModuleCompilation

open Moth.Borrow Moth.Datatypes Moth.Hir Moth.Lib Moth.Source

/-- The answer of the classification that the search asks for. -/
def IsActive (hir : ConvergenceModule) (report : PublicCallSummaries)
    (d : HirBuiltinFailureContributor) : Prop :=
  builtinFailureContributorIsActive hir report d = .ok true

/-- A chain of active call contributors, with its hops in order, that ends in work that fails or
in a call of a function the module does not own. It enters no blocked function. -/
inductive FailureChain (hir : ConvergenceModule) (active : HirBuiltinFailureContributor → Prop)
    (blocked : FunctionId → Prop) : HirBuiltinFailureContributor → List (Option SourceSpan) →
      Option SourceSpan → BuiltinFailureOriginKind → Prop
  | operation {c : HirBuiltinFailureContributor} :
      c.source = .NumericOperation ∨ c.source = .AuthoredCastConversion →
        FailureChain hir active blocked c [] c.span .Operation
  | writeBack {c : HirBuiltinFailureContributor} {target : TypeId}
      {arithmeticSpan : Option SourceSpan} : c.source = .CompoundWriteBack target arithmeticSpan →
        FailureChain hir active blocked c [] c.span (.CompoundWriteBack target)
  | leaf {c : HirBuiltinFailureContributor} {target : CallTarget} : c.source = .Call target →
      ownedCallee hir target = none → FailureChain hir active blocked c [c.span] none .Operation
  | call {c d : HirBuiltinFailureContributor} {target : CallTarget} {g : FunctionId}
      {facts : HirFunctionFailureFacts} {hops : List (Option SourceSpan)}
      {originSpan : Option SourceSpan} {origin : BuiltinFailureOriginKind} :
      c.source = .Call target → ownedCallee hir target = some g → ¬blocked g →
      hir.functionFailureFacts.lookup g = some facts → d ∈ facts.contributors → active d →
      FailureChain hir active blocked d hops originSpan origin →
        FailureChain hir active blocked c (c.span :: hops) originSpan origin

/-- A contributor of some body. -/
def Known (hir : ConvergenceModule) (d : HirBuiltinFailureContributor) : Prop :=
  ∃ f facts, hir.functionFailureFacts.lookup f = some facts ∧ d ∈ facts.contributors

theorem FailureChain.mono {hir : ConvergenceModule}
    {active active' : HirBuiltinFailureContributor → Prop} {blocked blocked' : FunctionId → Prop}
    (hactive : ∀ d, Known hir d → active d → active' d) (hle : ∀ g, blocked' g → blocked g)
    {c : HirBuiltinFailureContributor} {hops : List (Option SourceSpan)}
    {originSpan : Option SourceSpan} {origin : BuiltinFailureOriginKind}
    (h : FailureChain hir active blocked c hops originSpan origin) :
    FailureChain hir active' blocked' c hops originSpan origin := by
  induction h with
  | operation hsource => exact .operation hsource
  | writeBack hsource => exact .writeBack hsource
  | leaf hsource howned => exact .leaf hsource howned
  | call hsource howned hblocked hfacts hd hon _ ih =>
      exact .call hsource howned (fun h => hblocked (hle _ h)) hfacts hd
        (hactive _ ⟨_, _, hfacts, hd⟩ hon) ih

/-! ## The cursor -/

section Cursor

variable {κ ε : Type} {site : κ → FailureWitnessSite} {isActive : κ → Except ε Bool}

theorem findWriteBack_ok (arithmeticSpan : SourceSpan) {contributors : List κ}
    (h : ∀ c ∈ contributors, ∃ active, isActive c = .ok active) :
    ∃ answer, findWriteBack site isActive arithmeticSpan contributors = .ok answer ∧
      ∀ d, answer = some d →
        d ∈ contributors ∧ isActive d = .ok true ∧ site d = .WriteBack (some arithmeticSpan) := by
  induction contributors with
  | nil => exact ⟨none, rfl, fun d hd => by cases hd⟩
  | cons c rest ih =>
      obtain ⟨answer, hanswer, hmem⟩ := ih fun d hd => h d (List.mem_cons_of_mem _ hd)
      have hrest : ∀ d, answer = some d → d ∈ c :: rest ∧ isActive d = .ok true ∧
          site d = .WriteBack (some arithmeticSpan) := by
        intro d hd
        exact ⟨List.mem_cons_of_mem _ (hmem d hd).1, (hmem d hd).2⟩
      rw [findWriteBack]
      by_cases hsite : site c = .WriteBack (some arithmeticSpan)
      · rw [if_pos hsite]
        obtain ⟨active, hactive⟩ := h c List.mem_cons_self
        rw [hactive, ok_bind]
        cases active with
        | true =>
            refine ⟨some c, rfl, fun d hd => ?_⟩
            cases hd
            exact ⟨List.mem_cons_self, hactive, hsite⟩
        | false => exact ⟨answer, hanswer, hrest⟩
      · rw [if_neg hsite]
        exact ⟨answer, hanswer, hrest⟩

/-- What the cursor yields is active and shortens what is ahead. It passes over no active
contributor before a call, and over none at all before it is exhausted. -/
theorem nextCandidate_ok {contributors : List κ}
    (h : ∀ c ∈ contributors, ∃ active, isActive c = .ok active) :
    ∃ answer ahead, nextCandidate site isActive contributors = .ok (answer, ahead) ∧
      (∀ c ∈ ahead, c ∈ contributors) ∧
      (answer = none → ∀ c ∈ contributors, isActive c ≠ .ok true) ∧
      ∀ d, answer = some d → d ∈ contributors ∧ isActive d = .ok true ∧
        ahead.length < contributors.length ∧
        (site d = .Call → ∀ c ∈ contributors, isActive c = .ok true → c = d ∨ c ∈ ahead) := by
  induction contributors with
  | nil =>
      exact ⟨none, [], rfl, fun _ hc => hc, fun _ _ hc => absurd hc List.not_mem_nil,
        fun _ hd => by cases hd⟩
  | cons c rest ih =>
      obtain ⟨active, hactive⟩ := h c List.mem_cons_self
      have hrest : ∀ d ∈ rest, ∃ active, isActive d = .ok active :=
        fun d hd => h d (List.mem_cons_of_mem _ hd)
      rw [nextCandidate, hactive, ok_bind]
      cases active with
      | false =>
          rw [if_neg Bool.false_ne_true]
          obtain ⟨answer, ahead, hrun, hahead, hnone, hsome⟩ := ih hrest
          have hne : isActive c ≠ .ok true := by
            intro htrue
            cases hactive.symm.trans htrue
          refine ⟨answer, ahead, hrun, fun d hd => List.mem_cons_of_mem _ (hahead d hd),
            fun heq d hd => ?_, fun d hd => ?_⟩
          · rcases List.mem_cons.1 hd with rfl | hd
            · exact hne
            · exact hnone heq d hd
          · obtain ⟨hmem, htrue, hless, hcovered⟩ := hsome d hd
            refine ⟨List.mem_cons_of_mem _ hmem, htrue, Nat.lt_succ_of_lt hless,
              fun hsite e he hetrue => ?_⟩
            rcases List.mem_cons.1 he with rfl | he
            · exact absurd hetrue hne
            · exact hcovered hsite e he hetrue
      | true =>
          rw [if_pos rfl]
          have hself : ∀ d, some c = some d → d ∈ c :: rest ∧ isActive d = .ok true := by
            intro d hd
            cases hd
            exact ⟨List.mem_cons_self, hactive⟩
          have hterminal : site c ≠ .Call → ∃ answer ahead,
              (.ok (some c, []) : Except ε (Option κ × List κ)) = .ok (answer, ahead) ∧
              (∀ d ∈ ahead, d ∈ c :: rest) ∧
              (answer = none → ∀ d ∈ c :: rest, isActive d ≠ .ok true) ∧
              ∀ d, answer = some d → d ∈ c :: rest ∧ isActive d = .ok true ∧
                ahead.length < (c :: rest).length ∧
                (site d = .Call → ∀ e ∈ c :: rest, isActive e = .ok true → e = d ∨ e ∈ ahead) := by
            intro hne
            refine ⟨some c, [], rfl, fun d hd => absurd hd List.not_mem_nil,
              fun hd => (by cases hd), fun d hd => ?_⟩
            obtain ⟨hmem, htrue⟩ := hself d hd
            cases hd
            exact ⟨hmem, htrue, Nat.zero_lt_succ _, fun hsite => absurd hsite hne⟩
          cases hsite : site c with
          | Call =>
              refine ⟨some c, rest, rfl, fun d => List.mem_cons_of_mem _, fun hd => (by cases hd),
                fun d hd => ?_⟩
              obtain ⟨hmem, htrue⟩ := hself d hd
              cases hd
              exact ⟨hmem, htrue, Nat.lt_succ_self _, fun _ e he _ => List.mem_cons.1 he⟩
          | WriteBack span =>
              have hne : site c ≠ .Call := by
                rw [hsite]
                exact FailureWitnessSite.noConfusion
              exact hterminal hne
          | Arithmetic span =>
              have hne : site c ≠ .Call := by
                rw [hsite]
                exact FailureWitnessSite.noConfusion
              cases span with
              | none => exact hterminal hne
              | some arithmeticSpan =>
                  obtain ⟨writeBack, hwrite, hmem⟩ := findWriteBack_ok arithmeticSpan hrest
                  show ∃ answer ahead,
                    (findWriteBack site isActive arithmeticSpan rest >>= _) = _ ∧ _
                  rw [hwrite, ok_bind]
                  cases writeBack with
                  | none => exact hterminal hne
                  | some d =>
                      obtain ⟨hin, htrue, hback⟩ := hmem d rfl
                      refine ⟨some d, [], rfl, fun e he => absurd he List.not_mem_nil,
                        fun he => (by cases he), fun e he => ?_⟩
                      cases he
                      refine ⟨List.mem_cons_of_mem _ hin, htrue, Nat.zero_lt_succ _,
                        fun hcall => ?_⟩
                      cases hback.symm.trans hcall

end Cursor

/-! ## What the search maintains -/

section Invariant

variable (hir : ConvergenceModule) (report : PublicCallSummaries)
  (start : HirBuiltinFailureContributor) (blocked : List FunctionId)

/-- A chain from the contributor, behind the hops, is a chain from the start. -/
def Leads (hops : List (Option SourceSpan)) (d : HirBuiltinFailureContributor) : Prop :=
  ∀ ahead originSpan origin,
    FailureChain hir (IsActive hir report) (· ∈ blocked) d ahead originSpan origin →
      FailureChain hir (IsActive hir report) (· ∈ blocked) start (hops.reverse ++ ahead)
        originSpan origin

/-- The active contributors on the cursors lead on, each from behind its own hops. -/
def Suspended : List (List HirBuiltinFailureContributor) → List (Option SourceSpan) → Prop
  | [], hops => hops = []
  | cursor :: stack, hops =>
      (∀ d ∈ cursor, IsActive hir report d →
        Leads hir report start blocked hops d) ∧ hops ≠ [] ∧ Suspended stack hops.tail

/-- A call that entered a body, now or before. -/
def Followed (entered : List FunctionId) (d : HirBuiltinFailureContributor) : Prop :=
  ∃ target g, d.source = .Call target ∧ ownedCallee hir target = some g ∧ g ∈ entered

/-- Every active contributor of an entered body was followed or is still held. -/
def Covered (search : WitnessSearch) : Prop :=
  (search.next = some start ∨ Followed hir search.entered start) ∧
    ∀ g ∈ search.entered, g ∉ blocked → ∀ facts,
      hir.functionFailureFacts.lookup g = some facts → ∀ d ∈ facts.contributors,
        IsActive hir report d →
          Followed hir search.entered d ∨ (∃ cursor ∈ search.stack, d ∈ cursor) ∨
            search.next = some d

structure Searching (search : WitnessSearch) : Prop where
  nodup : search.entered.Nodup
  kept : ∀ g ∈ blocked, g ∈ search.entered
  known : ∀ cursor ∈ search.stack, ∀ d ∈ cursor, Known hir d
  nextKnown : ∀ d, search.next = some d → Known hir d
  nextLeads : ∀ d, search.next = some d → Leads hir report start blocked search.hops d
  suspended : Suspended hir report start blocked search.stack search.hops
  covered : (∀ d, search.next = some d → ∃ target, d.source = .Call target) →
    Covered hir report start blocked search

/-- What the search may still take: the bodies not entered, and what is on the cursors. -/
def ConvergenceModule.unentered (hir : ConvergenceModule) (entered : List FunctionId) : Nat :=
  (hir.functionFailureFacts.map fun row =>
    if row.1 ∈ entered then 0 else row.2.contributors.length + 2).sum

def WitnessSearch.room (search : WitnessSearch) : Nat :=
  hir.unentered search.entered + (search.stack.map fun cursor => cursor.length + 1).sum

end Invariant

variable {hir : ConvergenceModule} {report : PublicCallSummaries}
  {start : HirBuiltinFailureContributor} {blocked : List FunctionId} {search : WitnessSearch}

theorem witnessSite_call {d : HirBuiltinFailureContributor} {target : CallTarget}
    (h : d.source = .Call target) : d.witnessSite = .Call := by
  rw [HirBuiltinFailureContributor.witnessSite, h]

theorem sum_entered_le (g : FunctionId) (entered : List FunctionId)
    (rows : List (FunctionId × HirFunctionFailureFacts)) :
    (rows.map fun row =>
      if row.1 ∈ g :: entered then 0 else row.2.contributors.length + 2).sum ≤
      (rows.map fun row => if row.1 ∈ entered then 0 else row.2.contributors.length + 2).sum := by
  refine List.sum_le_sum fun row _ => ?_
  by_cases hin : row.1 ∈ entered
  · rw [if_pos hin, if_pos (List.mem_cons_of_mem _ hin)]
  · rw [if_neg hin]
    split
    · exact Nat.zero_le _
    · exact Nat.le_refl _

/-- Entering a body takes its contributors from the bodies that are left. -/
theorem unentered_enter {entered : List FunctionId} {g : FunctionId}
    {facts : HirFunctionFailureFacts} (hg : g ∉ entered)
    (hfacts : hir.functionFailureFacts.lookup g = some facts) :
    hir.unentered (g :: entered) + (facts.contributors.length + 2) ≤ hir.unentered entered := by
  rw [ConvergenceModule.unentered, ConvergenceModule.unentered]
  generalize hir.functionFailureFacts = rows at hfacts ⊢
  induction rows with
  | nil => cases hfacts
  | cons row rest ih =>
      rw [List.map_cons, List.map_cons, List.sum_cons, List.sum_cons]
      obtain ⟨key, value⟩ := row
      rw [List.lookup_cons] at hfacts
      by_cases heq : g = key
      · subst heq
        rw [beq_self_eq_true] at hfacts
        cases hfacts
        have hrest := sum_entered_le g entered rest
        rw [if_pos List.mem_cons_self, if_neg hg]
        show 0 + _ + (facts.contributors.length + 2) ≤ facts.contributors.length + 2 + _
        omega
      · rw [beq_false_of_ne heq] at hfacts
        have hrest := ih hfacts
        have hhead : (if key ∈ g :: entered then 0 else value.contributors.length + 2) ≤
            if key ∈ entered then 0 else value.contributors.length + 2 := by
          by_cases hin : key ∈ entered
          · rw [if_pos hin, if_pos (List.mem_cons_of_mem _ hin)]
          · rw [if_neg hin]
            split
            · exact Nat.zero_le _
            · exact Nat.le_refl _
        show (if key ∈ g :: entered then 0 else value.contributors.length + 2) + _ + _ ≤
          (if key ∈ entered then 0 else value.contributors.length + 2) + _
        omega

theorem room_eq (next : Option HirBuiltinFailureContributor)
    (stack : List (List HirBuiltinFailureContributor)) (hops : List (Option SourceSpan))
    (entered : List FunctionId) : (⟨next, stack, hops, entered⟩ : WitnessSearch).room hir =
      hir.unentered entered + (stack.map fun cursor => cursor.length + 1).sum := rfl

/-! ## A turn -/

/-- What ends a search: a real chain, or no candidate left and every body covered. -/
def Ended (hir : ConvergenceModule) (report : PublicCallSummaries)
    (start : HirBuiltinFailureContributor) (blocked entered : List FunctionId)
    (found : WitnessFound) : Prop :=
  FailureChain hir (IsActive hir report) (· ∈ blocked) start found.hops.reverse found.originSpan
      found.origin ∨
    found = ⟨none, .Operation, []⟩ ∧
      Covered hir report start blocked ⟨none, [], [], entered⟩

/-- Following a candidate ends the search, or leaves it without a candidate at hand. -/
theorem followCandidate_ok (hcomplete : hir.Complete report)
    (h : Searching hir report start blocked search) :
    (∃ found, followCandidate hir search = .ok (.inl found) ∧
      Ended hir report start blocked search.entered found) ∨
    ∃ followed, followCandidate hir search = .ok (.inr followed) ∧ followed.next = none ∧
      Searching hir report start blocked followed ∧ followed.room hir ≤ search.room hir := by
  obtain ⟨next, stack, hops, entered⟩ := search
  cases next with
  | none => exact .inr ⟨_, rfl, rfl, h, Nat.le_refl _⟩
  | some d =>
      have hleads : Leads hir report start blocked hops d := h.nextLeads d rfl
      have hterminal : ∀ {originSpan origin},
          FailureChain hir (IsActive hir report) (· ∈ blocked) d [] originSpan origin →
          FailureChain hir (IsActive hir report) (· ∈ blocked) start hops.reverse originSpan origin := by
        intro originSpan origin hchain
        have hwhole := hleads [] originSpan origin hchain
        rw [List.append_nil] at hwhole
        exact hwhole
      rw [followCandidate]
      cases hsource : d.source with
      | NumericOperation =>
          exact .inl ⟨_, by simp only [hsource]; rfl, .inl (hterminal (.operation (.inl hsource)))⟩
      | AuthoredCastConversion =>
          exact .inl ⟨_, by simp only [hsource]; rfl, .inl (hterminal (.operation (.inr hsource)))⟩
      | CompoundWriteBack target span =>
          exact .inl ⟨_, by simp only [hsource]; rfl, .inl (hterminal (.writeBack hsource))⟩
      | Call target =>
          have hcovered : Covered hir report start blocked ⟨some d, stack, hops, entered⟩ := by
            refine h.covered fun e he => ?_
            cases he
            exact ⟨target, hsource⟩
          simp only [hsource]
          cases howned : ownedCallee hir target with
          | none =>
              refine .inl ⟨_, rfl, .inl ?_⟩
              show FailureChain _ _ _ start (d.span :: hops).reverse none .Operation
              rw [List.reverse_cons]
              exact hleads _ _ _ (.leaf hsource howned)
          | some g =>
              -- a body's contributors lead on behind the hop into it
              by_cases hentered : g ∈ entered
              · have hfollowed : Followed hir entered d := ⟨target, g, hsource, howned, hentered⟩
                refine .inr ⟨⟨none, stack, hops, entered⟩, ?_, rfl, ⟨h.nodup, h.kept, h.known,
                  fun e he => (by cases he), fun e he => (by cases he), h.suspended,
                  fun _ => ⟨?_, ?_⟩⟩, Nat.le_refl _⟩
                · simp only [if_pos hentered]
                · rcases hcovered.1 with heq | hstart
                  · cases heq
                    exact .inr hfollowed
                  · exact .inr hstart
                · intro f hf hfree facts hfacts e he hactive
                  rcases hcovered.2 f hf hfree facts hfacts e he hactive with hold | hheld | heq
                  · exact .inl hold
                  · exact .inr (.inl hheld)
                  · cases heq
                    exact .inl hfollowed
              · obtain ⟨from_, own, hown, hd⟩ := h.nextKnown d rfl
                obtain ⟨facts, hfacts⟩ := Option.isSome_iff_exists.1
                  (hcomplete.owned from_ own hown d hd target hsource g howned)
                have hfree : g ∉ blocked := fun hin => hentered (h.kept g hin)
                have hgrow : ∀ e, Followed hir entered e → Followed hir (g :: entered) e := by
                  rintro e ⟨target', g', hsource', howned', hin⟩
                  exact ⟨target', g', hsource', howned', List.mem_cons_of_mem _ hin⟩
                have hfollowed : Followed hir (g :: entered) d :=
                  ⟨target, g, hsource, howned, List.mem_cons_self⟩
                refine .inr ⟨⟨none, facts.contributors :: stack, d.span :: hops, g :: entered⟩, ?_,
                  rfl, ⟨List.nodup_cons.2 ⟨hentered, h.nodup⟩,
                    fun f hf => List.mem_cons_of_mem _ (h.kept f hf), fun cursor hcursor e he => ?_,
                    fun e he => (by cases he), fun e he => (by cases he), ⟨fun e he hactive => ?_,
                      List.cons_ne_nil _ _, h.suspended⟩, fun _ => ⟨?_, ?_⟩⟩, ?_⟩
                · simp only [if_neg hentered, functionFailureFacts, hfacts, ok_bind]
                · rcases List.mem_cons.1 hcursor with rfl | hcursor
                  · exact ⟨g, facts, hfacts, he⟩
                  · exact h.known cursor hcursor e he
                · intro ahead originSpan origin hchain
                  rw [List.reverse_cons, List.append_assoc]
                  exact hleads _ _ _ (.call hsource howned hfree hfacts he hactive hchain)
                · rcases hcovered.1 with heq | hstart
                  · cases heq
                    exact .inr hfollowed
                  · exact .inr (hgrow start hstart)
                · intro f hf hfree' found hfound e he hactive
                  rcases List.mem_cons.1 hf with rfl | hf
                  · cases hfacts.symm.trans hfound
                    exact .inr (.inl ⟨_, List.mem_cons_self, he⟩)
                  · rcases hcovered.2 f hf hfree' found hfound e he hactive with hold | hheld | heq
                    · exact .inl (hgrow e hold)
                    · obtain ⟨cursor, hcursor, hin⟩ := hheld
                      exact .inr (.inl ⟨cursor, List.mem_cons_of_mem _ hcursor, hin⟩)
                    · cases heq
                      exact .inl hfollowed
                · have hroom := unentered_enter hentered hfacts
                  rw [room_eq, room_eq, List.map_cons, List.sum_cons]
                  omega

/-- Taking a candidate ends the search, or leaves fewer to take. -/
theorem takeCandidate_ok (hcomplete : hir.Complete report)
    (h : Searching hir report start blocked search) (hnext : search.next = none) :
    (∃ found, takeCandidate hir report search = .ok (.inl found) ∧
      Ended hir report start blocked search.entered found) ∨
    ∃ taken, takeCandidate hir report search = .ok (.inr taken) ∧
      Searching hir report start blocked taken ∧ taken.entered = search.entered ∧
      taken.room hir < search.room hir := by
  obtain ⟨next, stack, hops, entered⟩ := search
  cases hnext
  have hcovered := h.covered fun d hd => (by cases hd)
  rw [takeCandidate]
  cases stack with
  | nil =>
      have hhops : hops = [] := h.suspended
      subst hhops
      exact .inl ⟨_, rfl, .inr ⟨rfl, hcovered⟩⟩
  | cons cursor stack =>
      have hknown := h.known cursor List.mem_cons_self
      obtain ⟨hleads, hne, hsuspended⟩ := h.suspended
      have hclassified : ∀ d ∈ cursor,
          ∃ active, builtinFailureContributorIsActive hir report d = .ok active := by
        intro d hd
        obtain ⟨f, facts, hfacts, hin⟩ := hknown d hd
        exact hcomplete.classified f facts hfacts d hin
      obtain ⟨answer, ahead, hrun, hahead, hnone, hsome⟩ :=
        @nextCandidate_ok _ _ HirBuiltinFailureContributor.witnessSite _ _ hclassified
      right
      simp only [hrun, ok_bind]
      cases answer with
      | none =>
          refine ⟨_, rfl, ⟨h.nodup, h.kept,
            fun c hc => h.known c (List.mem_cons_of_mem _ hc), fun d hd => (by cases hd),
            fun d hd => (by cases hd), hsuspended, fun _ => ⟨?_, ?_⟩⟩, rfl, ?_⟩
          · exact hcovered.1
          · intro g hg hfree facts hfacts d hd hactive
            rcases hcovered.2 g hg hfree facts hfacts d hd hactive with hold | hheld | heq
            · exact .inl hold
            · obtain ⟨c, hc, hin⟩ := hheld
              rcases List.mem_cons.1 hc with rfl | hc
              · exact absurd hactive (hnone rfl d hin)
              · exact .inr (.inl ⟨c, hc, hin⟩)
            · cases heq
          · rw [room_eq, room_eq, List.map_cons, List.sum_cons]
            omega
      | some d =>
          obtain ⟨hd, hactive, hless, hahead'⟩ := hsome d rfl
          refine ⟨_, rfl, ⟨h.nodup, h.kept, fun c hc e he => ?_, fun e he => ?_,
            fun e he => ?_, ⟨fun e he => hleads e (hahead e he), hne, hsuspended⟩,
            fun hcall => ⟨hcovered.1.imp_left fun hfalse => (by cases hfalse), ?_⟩⟩, rfl, ?_⟩
          · rcases List.mem_cons.1 hc with rfl | hc
            · exact hknown e (hahead e he)
            · exact h.known c (List.mem_cons_of_mem _ hc) e he
          · cases he
            exact hknown d hd
          · cases he
            exact hleads d hd hactive
          · intro g hg hfree facts hfacts e he heactive
            obtain ⟨target, htarget⟩ := hcall d rfl
            rcases hcovered.2 g hg hfree facts hfacts e he heactive with hold | hheld | heq
            · exact .inl hold
            · obtain ⟨c, hc, hin⟩ := hheld
              rcases List.mem_cons.1 hc with rfl | hc
              · rcases hahead' (witnessSite_call htarget) e hin heactive with rfl | hin
                · exact .inr (.inr rfl)
                · exact .inr (.inl ⟨ahead, List.mem_cons_self, hin⟩)
              · exact .inr (.inl ⟨c, List.mem_cons_of_mem _ hc, hin⟩)
            · cases heq
          · rw [room_eq, room_eq, List.map_cons, List.sum_cons, List.map_cons, List.sum_cons]
            omega

/-! ## The whole search -/

theorem searchTurns_ok (hcomplete : hir.Complete report) {fuel : Nat}
    (h : Searching hir report start blocked search) (hfuel : search.room hir < fuel) :
    ∃ found entered, searchTurns hir report fuel search = some (.ok (found, entered)) ∧
      entered.Nodup ∧ Ended hir report start blocked entered found := by
  induction fuel generalizing search with
  | zero => exact absurd hfuel (Nat.not_lt_zero _)
  | succ fuel ih =>
      rw [searchTurns]
      rcases followCandidate_ok hcomplete h with
        ⟨found, hfollow, hended⟩ | ⟨followed, hfollow, hnext, hfollowed, hroom⟩
      · exact ⟨found, search.entered, by simp only [hfollow], h.nodup, hended⟩
      · rcases takeCandidate_ok hcomplete hfollowed hnext with
          ⟨found, htake, hended⟩ | ⟨taken, htake, htaken, -, hless⟩
        · exact ⟨found, followed.entered, by simp only [hfollow, htake], hfollowed.nodup, hended⟩
        · obtain ⟨found, entered, hrun, hnodup, hended⟩ := ih htaken (by omega)
          exact ⟨found, entered, by simp only [hfollow, htake, hrun], hnodup, hended⟩

/-- From covered bodies no chain reaches an end: every contributor on it was followed. -/
theorem Covered.no_chain {entered : List FunctionId}
    (h : Covered hir report start blocked ⟨none, [], [], entered⟩)
    {c : HirBuiltinFailureContributor} {hops : List (Option SourceSpan)}
    {originSpan : Option SourceSpan} {origin : BuiltinFailureOriginKind}
    (hchain : FailureChain hir (IsActive hir report) (· ∈ blocked) c hops originSpan origin) :
    ¬Followed hir entered c := by
  induction hchain with
  | operation hsource =>
      rintro ⟨target, _, hcall, -⟩
      rcases hsource with hsource | hsource
      · cases hsource.symm.trans hcall
      · cases hsource.symm.trans hcall
  | writeBack hsource =>
      rintro ⟨target, _, hcall, -⟩
      cases hsource.symm.trans hcall
  | leaf hsource howned =>
      rintro ⟨target, g, hcall, howned', -⟩
      cases hsource.symm.trans hcall
      cases howned.symm.trans howned'
  | @call c d _ g facts _ _ _ hsource howned hfree hfacts hd hactive _ ih =>
      rintro ⟨target, g', hcall, howned', hentered⟩
      cases hsource.symm.trans hcall
      cases howned.symm.trans howned'
      rcases h.2 g hentered hfree facts hfacts d hd hactive with hfollowed | ⟨_, hnil, -⟩ | heq
      · exact ih hfollowed
      · exact List.not_mem_nil hnil
      · cases heq

end Moth.ModuleCompilation
