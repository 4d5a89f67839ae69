import Moth.Borrow.Engine
import Moth.Borrow.FutureUse
import Moth.Lib.Table

/-!
# The engine reaches a fixed point

The engine is a worklist over borrow states, so the worklist's two facts are
its facts: it ends, and every reachable block's final input is settled. What
has to be said here is that the engine satisfies the worklist's laws.

The join is an upper bound that reports growth, by the order of states. The
shortcut on unchanged outputs is the delicate one. An exit state alone does
not decide what the edges carry: an invoke's success edge also installs the
captured results, and those are compared only when the new visit captured
any. A transfer that captures results on every visit of a block or on none
never falls into the gap; a transfer that captures some once and none later
does, and `analyzeFunction_skips_stale_results` is such a run.
-/

namespace Moth.Borrow

open Moth.Hir Moth.Lib

/-- The contract of `transfer_block`: one fact for each statement, one for the terminator, and
invoke results captured on every visit of a block or on none. -/
structure RegularTransfer {n : Nat} (transferBlock : BlockTransfer n) : Prop where
  statement_keys : ∀ block s o, transferBlock block s = .ok o →
    o.stats.statementFacts.map Prod.fst = block.statements.map fun statement => statement.id
  terminator_key : ∀ block s o, transferBlock block s = .ok o →
    ∃ fact, o.stats.terminatorFact = some (block.id, fact)
  results : ∀ block s s' o o', transferBlock block s = .ok o → transferBlock block s' = .ok o' →
    (o.stats.invokeResults = [] ↔ o'.stats.invokeResults = [])

/-- The facts recorded for a block are those of an output. -/
def RecordedFacts {n : Nat} (facts : BorrowFacts) (block : BlockId) (output : BlockOutput n) :
    Prop :=
  (∀ fact ∈ output.stats.statementFacts, facts.statementFacts fact.1 = some fact.2) ∧
    (∀ fact, output.stats.terminatorFact = some fact →
      facts.terminatorFacts fact.1 = some fact.2) ∧
    facts.finalValueFactsByBlock block = some output.stats.valueFacts

/-! ## The laws of the engine's worklist -/

section Laws

variable {hir : HirModule} {a : AnalysedFunction}
  {transferBlock : BlockTransfer (layoutLocalIds a.blocks).length}

theorem functionWorklist_visit {id : BlockId}
    {s : BorrowState (layoutLocalIds a.blocks).length}
    {o : BlockOutput (layoutLocalIds a.blocks).length}
    (h : (functionWorklist hir a transferBlock).visit id s = .ok o) :
    ∃ block, hir.blockById id = some block ∧ transferBlock block s = .ok o := by
  simp only [functionWorklist] at h
  obtain ⟨block, hblock, htransfer⟩ := bind_eq_ok.1 h
  cases hfound : hir.blockById id with
  | none =>
      rw [hfound] at hblock
      cases hblock
  | some found =>
      rw [hfound] at hblock
      cases hblock
      exact ⟨_, rfl, htransfer⟩

/-- What a visit records is found under its block, and other blocks keep theirs. -/
theorem recorded_facts (hids : DistinctIds a.blocks)
    (hfound : ∀ block ∈ a.blocks, hir.blockById block.id = some block)
    (htransfer : RegularTransfer transferBlock) :
    Worklist.Recorded (functionWorklist hir a transferBlock)
      (a.blocks.map fun block => block.id) RecordedFacts := by
  constructor
  · intro facts id hid s o hvisit
    obtain ⟨block, hblock, hrun⟩ := functionWorklist_visit hvisit
    obtain ⟨other, hother, rfl⟩ := List.mem_map.1 hid
    rw [hfound other hother] at hblock
    have hsame : other = block := Option.some.inj hblock
    subst hsame
    refine ⟨fun fact hfact => ?_, fun fact hfact => ?_, Function.update_self ..⟩
    · have hnodup := (List.nodup_flatMap.1 hids.2).1 other hother
      rw [← htransfer.statement_keys other s o hrun] at hnodup
      exact foldl_update_of_mem hnodup hfact
    · simp only [functionWorklist, BorrowFacts.record, hfact, Function.update_self]
  · intro facts id hid c hc hne s o s' o' hvisit hvisit' hkept
    obtain ⟨block, hblock, hrun⟩ := functionWorklist_visit hvisit
    obtain ⟨block', hblock', hrun'⟩ := functionWorklist_visit hvisit'
    obtain ⟨left, hleft, rfl⟩ := List.mem_map.1 hid
    obtain ⟨right, hright, rfl⟩ := List.mem_map.1 hc
    rw [hfound left hleft] at hblock
    rw [hfound right hright] at hblock'
    have hsame : left = block := Option.some.inj hblock
    have hsame' : right = block' := Option.some.inj hblock'
    subst hsame
    subst hsame'
    refine ⟨fun fact hfact => ?_, fun fact hfact => ?_, ?_⟩
    · have hkey : fact.1 ∉ o.stats.statementFacts.map Prod.fst := by
        rw [htransfer.statement_keys left s o hrun]
        intro hin
        have hown : fact.1 ∈ o'.stats.statementFacts.map Prod.fst := List.mem_map_of_mem hfact
        rw [htransfer.statement_keys right s' o' hrun'] at hown
        have hdisjoint := (List.nodup_flatMap.1 hids.2).2
        have : Std.Symm (Function.onFun List.Disjoint fun block : HirBlock =>
            block.statements.map fun s => s.id) := ⟨fun _ _ h => h.symm⟩
        have hblocks : left ≠ right := fun heq => hne (congrArg HirBlock.id heq.symm)
        exact hdisjoint.forall hleft hright hblocks hin hown
      exact (foldl_update_of_notMem hkey).trans (hkept.1 fact hfact)
    · obtain ⟨mine, hmine⟩ := htransfer.terminator_key left s o hrun
      obtain ⟨theirs, htheirs⟩ := htransfer.terminator_key right s' o' hrun'
      rw [htheirs] at hfact
      cases hfact
      simp only [functionWorklist, BorrowFacts.record, hmine]
      rw [Function.update_of_ne hne]
      exact hkept.2.1 _ htheirs
    · exact (Function.update_of_ne hne _ _).trans hkept.2.2

theorem unchanged_iff {n : Nat} {memory : Propagated n} {output : BlockOutput n} :
    memory.unchanged output = true ↔ memory.outState = output.outputState ∧
      (output.stats.invokeResults = [] ∨
        memory.invokeResults = some output.stats.invokeResults) := by
  simp only [Propagated.unchanged, Bool.not_eq_true', Bool.or_eq_false_iff, Bool.and_eq_false_iff,
    decide_eq_false_iff_not, ne_eq, not_not]

theorem edgeState_congr {n : Nat} {localIds : Fin n → LocalId}
    {visible : BlockId → Option (RootSet n)} {block : HirBlock} {o o' : BlockOutput n}
    (hout : o.outputState = o'.outputState)
    (hresults : o.stats.invokeResults = o'.stats.invokeResults) (successor : BlockId) :
    edgeState localIds hir visible block o successor =
      edgeState localIds hir visible block o' successor := by
  rw [edgeState, edgeState, hout, hresults]

variable (hir transferBlock) in
theorem recorded_valueFacts (published : HirValueId → Option ValueBorrowFact)
    (facts : BorrowFacts) (b : BlockId) (o : BlockOutput (layoutLocalIds a.blocks).length)
    (h : facts.valueFacts = published) :
    ((functionWorklist hir a transferBlock).record facts b o).valueFacts = published := by
  rw [← h]
  rfl

variable (hir transferBlock) in
theorem functionWorklist_lawful :
    Worklist.Lawful (functionWorklist hir a transferBlock) (BorrowState.ascent _)
      (a.blocks.map fun block => block.id) where
  successors_mem := fun _ _ _ hc => of_decide_eq_true (List.mem_filter.1 hc).2
  le_join_left := BorrowState.le_joinInPlace_left
  le_join_right := BorrowState.le_joinInPlace_right
  join_grows := BorrowState.joinInPlace_grows

/-- A regular transfer never captures results that the engine does not compare. -/
theorem functionWorklist_remembers (htransfer : RegularTransfer transferBlock) :
    Worklist.Remembers (functionWorklist hir a transferBlock) where
  unchanged_remember := by
    intro old o
    refine unchanged_iff.2 ⟨rfl, ?_⟩
    by_cases hempty : o.stats.invokeResults = []
    · exact Or.inl hempty
    · exact Or.inr (if_neg hempty)
  skip := by
    intro id s s' old o o' hvisit hvisit' hunchanged c
    obtain ⟨block, hblock, hrun⟩ := functionWorklist_visit hvisit
    obtain ⟨block', hblock', hrun'⟩ := functionWorklist_visit hvisit'
    rw [hblock] at hblock'
    cases hblock'
    have hboth := htransfer.results block s s' o o' hrun hrun'
    obtain ⟨hout, hresults⟩ := unchanged_iff.1 hunchanged
    have hsame : o'.stats.invokeResults = o.stats.invokeResults := by
      cases hresults with
      | inl hempty => rw [hempty, hboth.2 hempty]
      | inr hkept =>
          by_cases hempty : o.stats.invokeResults = []
          · rw [hempty, hboth.1 hempty]
          · exact (Option.some.inj ((if_neg hempty).symm.trans hkept)).symm
    simp only [functionWorklist, hblock]
    exact edgeState_congr hout.symm hsame c

end Laws

/-! ## The final states -/

section Final

variable {hir : HirModule} {function : HirFunction} {a : AnalysedFunction}
  {transferBlock : BlockTransfer (layoutLocalIds a.blocks).length}

theorem enterFunction_inputs {n : Nat} (report : BorrowFacts) (entry : BlockId)
    (initial : BorrowState n) (b : BlockId) :
    (enterFunction report entry initial).inputs b = if b = entry then some initial else none := by
  simp [enterFunction, Function.update_apply]

variable (hir transferBlock) in
theorem enterFunction_sound (hentry : function.entry ∈ a.blocks.map fun block => block.id)
    (report : BorrowFacts) (initial : BorrowState (layoutLocalIds a.blocks).length) :
    Worklist.Sound (functionWorklist hir a transferBlock) (BorrowState.ascent _)
      (a.blocks.map fun block => block.id) RecordedFacts
      (enterFunction report function.entry initial) := by
  have hat : ∀ b s, (enterFunction report function.entry initial).inputs b = some s →
      b = function.entry := by
    intro b s hs
    rw [enterFunction_inputs] at hs
    split at hs
    · next heq => exact heq
    · cases hs
  refine ⟨fun b => by simp [enterFunction], List.nodup_singleton _, fun b hb => ?_,
    fun b s hs => hat b s hs ▸ hentry, fun b m hm => ?_, fun b s hs => Or.inl ?_⟩
  · cases List.mem_singleton.1 hb
    exact ⟨initial, by rw [enterFunction_inputs, if_pos rfl]⟩
  · cases hm
  · exact List.mem_singleton.2 (hat b s hs)

/-- The engine ends, whatever the transfer. -/
theorem analyzeFunction_terminates (h : analysedFunction hir function = some a)
    (transferBlock : BlockTransfer (layoutLocalIds a.blocks).length) (report : BorrowFacts) :
    ∃ result, analyzeFunction hir function a transferBlock report = some result := by
  obtain ⟨hreach, -, -⟩ := analysedFunction_blocks h
  simp only [analyzeFunction]
  cases initialState a.layout function with
  | error error => exact ⟨_, rfl⟩
  | ok initial =>
      have hqueue : ∀ c ∈ (enterFunction report function.entry initial).queue,
          c ∈ a.blocks.map fun block => block.id := by
        intro c hc
        cases List.mem_singleton.1 hc
        exact FiniteGraph.collect_start hreach
      have hfuel : (enterFunction report function.entry initial).queue.length +
          (a.blocks.map fun block => block.id).length *
            ((BorrowState.ascent (layoutLocalIds a.blocks).length).bound + 1) <
          visitBound a.blocks.length (layoutLocalIds a.blocks).length +
            Worklist.total (BorrowState.ascent (layoutLocalIds a.blocks).length)
              (a.blocks.map fun block => block.id)
              (enterFunction report function.entry initial).inputs := by
        rw [BorrowState.ascent_bound, List.length_map]
        simp only [enterFunction, visitBound, List.length_singleton]
        omega
      obtain ⟨result, hresult⟩ := Worklist.run_terminates
        (functionWorklist_lawful hir transferBlock) hqueue hfuel
      simp only [hresult]
      exact ⟨_, rfl⟩

theorem inputs_of_settled (hlaid : ∀ block ∈ a.blocks, hir.blockById block.id = some block)
    (hreach : hir.collectReachableBlocks function.entry =
      some (a.blocks.map fun block => block.id))
    {final : EngineState (layoutLocalIds a.blocks).length}
    (hentry : ∃ s, final.inputs function.entry = some s)
    (hsound : Worklist.Sound (functionWorklist hir a transferBlock) (BorrowState.ascent _)
      (a.blocks.map fun block => block.id) RecordedFacts final)
    (hempty : final.queue = []) :
    ∀ id ∈ a.blocks.map fun block => block.id, ∃ s, final.inputs id = some s := by
  refine FiniteGraph.collect_induction (P := fun id => ∃ s, final.inputs id = some s) ?_
    (fun _ hmem => absurd hmem List.not_mem_nil) ?_ hreach
  · rintro b c ⟨s, hs⟩ ⟨next, hnext, hc⟩
    have hb := hsound.inputs_mem b s hs
    obtain ⟨next', hnext', hall⟩ := FiniteGraph.collect_successors hreach b hb
    obtain ⟨block, hblock, rfl⟩ := List.mem_map.1 hb
    rw [HirModule.flowGraph_successors (hlaid block hblock)] at hnext hnext'
    cases hnext
    cases hnext'
    have hsettled := (hsound.settled block.id s hs).resolve_left (by simp [hempty])
    obtain ⟨o, -, -, -, hcarried⟩ := hsettled
    have hsuccessor : c ∈ (functionWorklist hir a transferBlock).successors block.id := by
      simp only [functionWorklist, hlaid block hblock, Option.elim_some]
      exact List.mem_filter.2 ⟨hc, decide_eq_true (hall c hc)⟩
    obtain ⟨carried, t, -, ht, -⟩ := hcarried c hsuccessor
    exact ⟨t, ht⟩
  · intro c hc
    cases List.mem_singleton.1 hc
    exact hentry

/-- The engine ends, and its final states are a sound fixed point: the entry state lies below the
input of the entry block, every edge of every reachable block carries a state below the input of
its successor, and exit states and facts are those of the transfer of the final input. -/
theorem analyzeFunction_sound (hunique : UniqueNodeIds hir)
    (h : analysedFunction hir function = some a) (htransfer : RegularTransfer transferBlock)
    (report : BorrowFacts) :
    ∃ result, analyzeFunction hir function a transferBlock report = some result ∧
      ∀ final, result = .ok final →
        (∃ initial input, initialState a.layout function = .ok initial ∧
          final.inputs function.entry = some input ∧ initial.Le input) ∧
        (∀ block ∈ a.blocks, ∃ input output, final.inputs block.id = some input ∧
          transferBlock block input = .ok output ∧
          (∀ successor ∈ block.terminator.targets, ∃ carried next,
            edgeState a.layout.localIds hir a.layout.visibleLocalsByBlock block output
              successor = .ok carried ∧
            final.inputs successor = some next ∧ carried.Le next) ∧
          (∃ propagated, final.memory block.id = some propagated ∧
            propagated.outState = output.outputState) ∧
          RecordedFacts final.facts block.id output) ∧
        final.facts.valueFacts = (BorrowFacts.mergeValueFacts
          { final.facts with valueFacts := report.valueFacts }
          (a.blocks.map fun block => block.id)).valueFacts := by
  obtain ⟨result, hresult⟩ := analyzeFunction_terminates h transferBlock report
  refine ⟨result, hresult, ?_⟩
  rintro final rfl
  obtain ⟨hreach, hfound, -⟩ := analysedFunction_blocks h
  have hids := distinctIds_of_found hunique (FiniteGraph.collect_nodup hreach) hfound
  simp only [analyzeFunction] at hresult
  cases hinitial : initialState a.layout function with
  | error error =>
      rw [hinitial] at hresult
      cases hresult
  | ok initial =>
      rw [hinitial] at hresult
      simp only [Option.map_eq_some_iff] at hresult
      obtain ⟨ran, hrun, hmapped⟩ := hresult
      cases ran with
      | error error => cases hmapped
      | ok settled =>
          have hsound := enterFunction_sound hir transferBlock
            (FiniteGraph.collect_start hreach) report initial
          obtain ⟨hfinal, hempty, hbelow⟩ := hsound.run
            (functionWorklist_lawful hir transferBlock)
            (functionWorklist_remembers htransfer) (recorded_facts hids hfound htransfer) hrun
          obtain ⟨input, hinput, hle⟩ := hbelow function.entry initial
            (by rw [enterFunction_inputs, if_pos rfl])
          have hinputs := inputs_of_settled hfound hreach ⟨input, hinput⟩ hfinal hempty
          have hvalues : settled.facts.valueFacts = report.valueFacts := by
            have hrecord := recorded_valueFacts hir transferBlock report.valueFacts
            exact Worklist.run_facts (P := fun facts => facts.valueFacts = report.valueFacts)
              (fun facts b _ o _ => hrecord facts b o) rfl hrun
          cases hmapped
          refine ⟨⟨initial, input, rfl, hinput, BorrowState.ascent_le.1 hle⟩, ?_, ?_⟩
          swap
          · simp only [BorrowFacts.mergeValueFacts, hvalues]
          intro block hblock
          obtain ⟨s, hs⟩ := hinputs block.id (List.mem_map_of_mem hblock)
          have hsettled := (hfinal.settled block.id s hs).resolve_left (by simp [hempty])
          obtain ⟨o, hvisit, hrecorded, ⟨m, hm, hunchanged⟩, hcarried⟩ := hsettled
          obtain ⟨found, hfoundBlock, htransferred⟩ := functionWorklist_visit hvisit
          rw [hfound block hblock] at hfoundBlock
          have hsame : block = found := Option.some.inj hfoundBlock
          subst hsame
          refine ⟨s, o, hs, htransferred, ?_, ⟨m, hm, (unchanged_iff.1 hunchanged).1⟩, hrecorded⟩
          intro successor hsuccessor
          obtain ⟨next, hnext, hall⟩ :=
            FiniteGraph.collect_successors hreach block.id (List.mem_map_of_mem hblock)
          rw [HirModule.flowGraph_successors (hfound block hblock)] at hnext
          cases hnext
          have hreached : successor ∈ (functionWorklist hir a transferBlock).successors block.id := by
            simp only [functionWorklist, hfound block hblock, Option.elim_some]
            exact List.mem_filter.2 ⟨hsuccessor, decide_eq_true (hall successor hsuccessor)⟩
          obtain ⟨carried, t, hedge, ht, hcarry⟩ := hcarried successor hreached
          simp only [functionWorklist, hfound block hblock, Option.elim_some, ok_bind] at hedge
          exact ⟨carried, t, hedge, ht, BorrowState.ascent_le.1 hcarry⟩

end Final

/-! A block that invokes itself on success, and two transfers of it. -/

def retryExpressions : HirExpressionStore where
  expression _ := ⟨.Load ⟨⟨1⟩, []⟩, ⟨0⟩, .Place⟩
  rank _ := 0
  rank_child := fun _ _ hchild => absurd hchild List.not_mem_nil

def retryHead : HirBlock where
  id := ⟨0⟩
  region := ⟨0⟩
  locals := [⟨⟨0⟩, ⟨0⟩, true, ⟨0⟩⟩, ⟨⟨1⟩, ⟨0⟩, true, ⟨0⟩⟩, ⟨⟨2⟩, ⟨0⟩, true, ⟨0⟩⟩]
  statements := []
  terminator := .Invoke ⟨0⟩ (.FormatFloat ⟨0⟩) ⟨0⟩ [⟨0⟩] ⟨1⟩ ⟨2⟩

def retryExit : HirBlock := ⟨⟨1⟩, ⟨0⟩, [], [], .Return []⟩

def retryModule : HirModule :=
  ⟨retryExpressions, [retryHead, retryExit], [], [⟨⟨0⟩, none⟩], fun _ => none⟩

def retryFunction : HirFunction := ⟨⟨0⟩, ⟨0⟩, [⟨0⟩, ⟨1⟩], [], none⟩

def retryAnalysed : AnalysedFunction :=
  (analysedFunction retryModule retryFunction).get (by decide +kernel)

abbrev RetryState : Type := BorrowState (layoutLocalIds retryAnalysed.blocks).length

def emptyReport : BorrowFacts := ⟨fun _ => none, fun _ => none, fun _ => none, fun _ => none⟩

/-- The row of a result that keeps the second parameter. -/
def keptResult : LocalState (layoutLocalIds retryAnalysed.blocks).length :=
  .slotWithValueRoots (Finset.univ.filter fun i => retryAnalysed.layout.localIds i = ⟨1⟩) ∅

/-- It leaves nothing initialized, and captures a result only while no local has value roots. -/
def forgetfulTransfer : BlockTransfer (layoutLocalIds retryAnalysed.blocks).length :=
  fun block input =>
    .ok ⟨.newUninitialized _, [], some (block.id, ⟨[], []⟩), [],
      if ∀ i, (input.localState i).valueRoots = ∅ then [(⟨0⟩, keptResult)] else []⟩

/-- The input of the invoking block where the loop stops. -/
def forgottenInput : RetryState :=
  ⟨fun i => if retryAnalysed.layout.localIds i = ⟨0⟩ then keptResult
    else if retryAnalysed.layout.localIds i = ⟨1⟩ then .reset (.union .SLOT .UNINIT)
    else .uninit _⟩

/-- The second visit captures nothing and leaves the same exit state, so it is not propagated: the
edge of the final output carries a row that the final input does not cover. -/
theorem analyzeFunction_skips_stale_results :
    ∃ final output carried,
      analyzeFunction retryModule retryFunction retryAnalysed forgetfulTransfer emptyReport =
        some (.ok final) ∧
      final.inputs ⟨0⟩ = some forgottenInput ∧
      forgetfulTransfer retryHead forgottenInput = .ok output ∧
      edgeState retryAnalysed.layout.localIds retryModule
        retryAnalysed.layout.visibleLocalsByBlock retryHead output ⟨0⟩ = .ok carried ∧
      ¬ carried.Le forgottenInput := by
  have hcarried : (edgeState retryAnalysed.layout.localIds retryModule
      retryAnalysed.layout.visibleLocalsByBlock retryHead
      ⟨.newUninitialized _, [], some (⟨0⟩, ⟨[], []⟩), [], []⟩ ⟨0⟩).toOption.any
        (fun carried => !decide (carried.Le forgottenInput)) = true := by decide +kernel
  have hinput : ((analyzeFunction retryModule retryFunction retryAnalysed forgetfulTransfer
      emptyReport).bind Except.toOption).bind (fun final => final.inputs ⟨0⟩) =
        some forgottenInput := by decide +kernel
  obtain ⟨final, hfinal, hstate⟩ := Option.bind_eq_some_iff.1 hinput
  obtain ⟨result, hresult, hok⟩ := Option.bind_eq_some_iff.1 hfinal
  cases result with
  | error error => cases hok
  | ok ran =>
      cases hok
      have houtput : forgetfulTransfer retryHead forgottenInput =
          .ok ⟨.newUninitialized _, [], some (⟨0⟩, ⟨[], []⟩), [], []⟩ := by
        rw [forgetfulTransfer, if_neg (by decide +kernel)]
        rfl
      cases hedge : edgeState retryAnalysed.layout.localIds retryModule
          retryAnalysed.layout.visibleLocalsByBlock retryHead
          ⟨.newUninitialized _, [], some (⟨0⟩, ⟨[], []⟩), [], []⟩ ⟨0⟩ with
      | error error =>
          rw [hedge] at hcarried
          cases hcarried
      | ok carried =>
          rw [hedge] at hcarried
          have habove : (!decide (carried.Le forgottenInput)) = true := hcarried
          rw [Bool.not_eq_true', decide_eq_false_iff_not] at habove
          exact ⟨final, _, carried, hresult, hstate, houtput, hedge, habove⟩

/-- The same block with a statement of its own. -/
def keepHead : HirBlock := { retryHead with statements := [⟨⟨1⟩, .Expr ⟨0⟩⟩] }

def keepModule : HirModule := { retryModule with blocks := [keepHead, retryExit] }

def keepAnalysed : AnalysedFunction :=
  (analysedFunction keepModule retryFunction).get (by decide +kernel)

/-- It binds the second parameter anew, reads it at every statement, and captures a result that
keeps it whenever the block invokes. -/
def keepingTransfer : BlockTransfer (layoutLocalIds keepAnalysed.blocks).length :=
  fun block input =>
    .ok ⟨installRows keepAnalysed.layout.localIds input [(⟨1⟩, .slot _)],
      block.statements.map fun statement => (statement.id, ⟨[⟨1⟩], []⟩),
      some (block.id, ⟨[⟨1⟩], []⟩), [],
      if block.id = ⟨0⟩ then [(⟨0⟩, .slotWithValueRoots
        (Finset.univ.filter fun i => keepAnalysed.layout.localIds i = ⟨1⟩) ∅)] else []⟩

theorem keepingTransfer_regular : RegularTransfer keepingTransfer where
  statement_keys := by
    rintro block s o ⟨⟩
    simp [Function.comp_def]
  terminator_key := by
    rintro block s o ⟨⟩
    exact ⟨_, rfl⟩
  results := by
    rintro block s s' o o' ⟨⟩ ⟨⟩
    exact Iff.rfl

theorem analyzeFunction_sound_keeping :
    ∃ final input output carried, analyzeFunction keepModule retryFunction keepAnalysed
        keepingTransfer emptyReport = some (.ok final) ∧
      final.inputs ⟨0⟩ = some input ∧ keepingTransfer keepHead input = .ok output ∧
      output.stats.invokeResults ≠ [] ∧
      edgeState keepAnalysed.layout.localIds keepModule keepAnalysed.layout.visibleLocalsByBlock
        keepHead output ⟨0⟩ = .ok carried ∧ carried.Le input ∧
      final.facts.statementFacts ⟨1⟩ = some ⟨[⟨1⟩], []⟩ := by
  have hunique : UniqueNodeIds keepModule := by
    simp only [UniqueNodeIds]
    decide
  obtain ⟨result, hresult, hsound⟩ := analyzeFunction_sound hunique (Option.some_get _).symm
    keepingTransfer_regular emptyReport
  have hok : ((analyzeFunction keepModule retryFunction keepAnalysed keepingTransfer
      emptyReport).bind Except.toOption).isSome = true := by decide +kernel
  have hrun : analyzeFunction keepModule retryFunction keepAnalysed keepingTransfer emptyReport =
      some result := hresult
  rw [hrun] at hok
  cases result with
  | error error => cases hok
  | ok final =>
      have hhead : keepHead ∈ keepAnalysed.blocks := by decide +kernel
      obtain ⟨input, output, hinput, houtput, hedges, -, hfacts⟩ := (hsound final rfl).2.1 _ hhead
      obtain ⟨carried, next, hcarried, hnext, hle⟩ := hedges ⟨0⟩ List.mem_cons_self
      cases hinput.symm.trans hnext
      refine ⟨final, input, output, carried, hresult, hinput, houtput, ?_, hcarried, hle, ?_⟩
      · cases houtput
        exact List.cons_ne_nil _ _
      · cases houtput
        exact hfacts.1 _ List.mem_cons_self

end Moth.Borrow
