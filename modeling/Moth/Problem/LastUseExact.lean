import Mathlib.Data.List.Chain
import Moth.Problem.LastUse
import Moth.Problem.Validated

/-!
# When the future-use query is exact

A query is read against the walks of the graph: the events after the location
in its block, then whole blocks along edges, the query block among them when
an edge leads back to it.

The query solves its facts with the query block narrowed to what comes after
the location. That is right for the first visit of the block and wrong for
every later one: an observation ahead of the location that only a walk back to
the query block meets is not seen. And a location at a point that anchors no
event starts at the top of its block, so that an observation ahead of the
point is taken for a later one. `query_exact_iff` says that these two are the
only ways to go wrong.
-/

namespace Moth.Problem

open Moth.Lib

/-! ## Walks -/

namespace BorrowProblem

variable (problem : BorrowProblem)

def Edge (b c : BlockId) : Prop := (⟨b, c⟩ : CfgEdge) ∈ problem.controlFlow.edges

def eventsOf (b : BlockId) : List EventId :=
  (problem.controlFlow.blocks[b.index]?).elim [] CfgBlock.events

def anchoredAt (point : PointId) (id : EventId) : Bool :=
  (problem.events[id.index]?).any fun event => event.point = point

def ordinalOf (point : PointId) : Nat := (problem.points[point.index]?).elim 0 ProgramPoint.ordinal

def isBefore (point : PointId) (id : EventId) : Bool :=
  (problem.events[id.index]?).any fun event =>
    problem.ordinalOf event.point < problem.ordinalOf point

/-- A location of a block: a point of the block, and after one of its events if any. -/
def LocatedAt (location : LastUseLocation) (block : BlockId) : Prop :=
  (∃ row, problem.points[location.point.index]? = some row ∧ row.block = block) ∧
    ∀ event, location.afterEvent = some event → event ∈ problem.eventsOf block

/-- The events of the block from the first one after the location. -/
def laterEvents (block : BlockId) (location : LastUseLocation) : List EventId :=
  match location.afterEvent with
  | some event => (problem.eventsOf block).drop ((problem.eventsOf block).idxOf event + 1)
  | none =>
      if (problem.eventsOf block).any (problem.anchoredAt location.point) then
        (problem.eventsOf block).dropWhile fun id => !problem.anchoredAt location.point id
      else (problem.eventsOf block).dropWhile (problem.isBefore location.point)

end BorrowProblem

namespace LastUseAnalysis

/-- An analysis as it is built: from a problem, and then with more observations. -/
inductive Built (problem : BorrowProblem) : LastUseAnalysis → Prop where
  | fromProblem {analysis : LastUseAnalysis} :
      fromProblem problem = .ok analysis → Built problem analysis
  | withObservations {analysis extended : LastUseAnalysis}
      {observations : List LastUseObservation} : Built problem analysis →
      analysis.withObservations problem observations = .ok extended → Built problem extended

variable (problem : BorrowProblem) (self : LastUseAnalysis)

/-- An event carries an observation of the subject. -/
def Carries (subject : LastUseSubject) (event : EventId) : Prop :=
  ∃ observation ∈ self.observationsBySubject subject,
    self.eventIdForObservation observation = some event

/-- Some walk from the location meets an observation. -/
def MeetsLater (subject : LastUseSubject) (block : BlockId) (location : LastUseLocation) : Prop :=
  ∃ rest, (block :: rest).IsChain problem.Edge ∧
    ∃ event ∈ problem.laterEvents block location ++ rest.flatMap problem.eventsOf,
      self.Carries subject event

/-- Every walk from the location to a block without successors meets an observation. -/
def EveryExitMeets (subject : LastUseSubject) (block : BlockId) (location : LastUseLocation) :
    Prop :=
  ∀ rest, (block :: rest).IsChain problem.Edge →
    (∀ c, ¬ problem.Edge ((block :: rest).getLast (List.cons_ne_nil _ _)) c) →
    ∃ event ∈ problem.laterEvents block location ++ rest.flatMap problem.eventsOf,
      self.Carries subject event

/-- The answer says what the walks say. -/
def ExactAnswer (subject : LastUseSubject) (block : BlockId) (location : LastUseLocation)
    (status : FutureUseStatus) : Prop :=
  (status = .NoFutureUse ↔ ¬ self.MeetsLater problem subject block location) ∧
    (status = .MustBeUsed → self.EveryExitMeets problem subject block location)

/-! ## The condition -/

/-- An observation in the rest of the block. -/
def ObservedLater (subject : LastUseSubject) (block : BlockId) (location : LastUseLocation) :
    Prop :=
  ∃ event ∈ problem.laterEvents block location, self.Carries subject event

/-- The point anchors no event, and an observation stands ahead of it. -/
def ObservedAhead (subject : LastUseSubject) (block : BlockId) (location : LastUseLocation) :
    Prop :=
  location.afterEvent = none ∧
    (problem.eventsOf block).any (problem.anchoredAt location.point) = false ∧
    ∃ event ∈ (problem.eventsOf block).takeWhile (problem.isBefore location.point),
      self.Carries subject event

/-- An observation in another block that a walk reaches. -/
def ObservedElsewhere (subject : LastUseSubject) (block : BlockId) : Prop :=
  ∃ other, other ≠ block ∧ Relation.TransGen problem.Edge block other ∧
    ∃ event ∈ problem.eventsOf other, self.Carries subject event

/-- An observation in the block, which a walk reaches again. -/
def ObservedAround (subject : LastUseSubject) (block : BlockId) : Prop :=
  Relation.TransGen problem.Edge block block ∧
    ∃ event ∈ problem.eventsOf block, self.Carries subject event

def ExactWhen (subject : LastUseSubject) (block : BlockId) (location : LastUseLocation) : Prop :=
  self.ObservedLater problem subject block location ∨
    (¬ self.ObservedAhead problem subject block location ∧
      (self.ObservedElsewhere problem subject block ∨
        ¬ self.ObservedAround problem subject block)) ∨
    (self.ObservedAhead problem subject block location ∧
      (self.ObservedElsewhere problem subject block ∨
        self.ObservedAround problem subject block) ∧
      self.EveryExitMeets problem subject block location)

/-! ## The tables of a built analysis -/

/-- The analysis of a problem with given observations. -/
def withTable (observations : LastUseSubject → List LastUseObservation) : LastUseAnalysis :=
  { empty problem with observationsBySubject := observations }

variable {problem}

variable (problem) in
def HasTables (analysis : LastUseAnalysis) : Prop :=
  ∃ observations, analysis = withTable problem observations

theorem addUse_hasTables {analysis next : LastUseAnalysis} {use : Use}
    (htables : HasTables problem analysis) (h : addUse problem analysis use = .ok next) :
    HasTables problem next := by
  obtain ⟨observations, rfl⟩ := htables
  rw [addUse] at h
  obtain ⟨event, -, h⟩ := bind_eq_ok.1 h
  obtain ⟨location, -, h⟩ := bind_eq_ok.1 h
  obtain ⟨place, -, h⟩ := bind_eq_ok.1 h
  cases h
  exact ⟨_, rfl⟩

theorem addLoanUse_hasTables {loan : LoanId} {analysis next : LastUseAnalysis} {use : UseId}
    (htables : HasTables problem analysis)
    (h : addLoanUse problem loan analysis use = .ok next) : HasTables problem next := by
  obtain ⟨observations, rfl⟩ := htables
  rw [addLoanUse] at h
  obtain ⟨event, -, h⟩ := bind_eq_ok.1 h
  obtain ⟨location, -, h⟩ := bind_eq_ok.1 h
  cases h
  exact ⟨_, rfl⟩

/-- A built analysis is of a problem that validates, and has that problem's tables. -/
theorem Built.tables {analysis : LastUseAnalysis} (h : Built problem analysis) :
    problem.Validated ∧ HasTables problem analysis := by
  induction h with
  | @fromProblem analysis h =>
      rw [LastUseAnalysis.fromProblem] at h
      cases hvalid : problem.validate with
      | error failure =>
          rw [hvalid] at h
          cases h
      | ok checked =>
          rw [hvalid] at h
          refine ⟨BorrowProblem.validated_of_ok hvalid, ?_⟩
          obtain ⟨withUses, huses, h⟩ := bind_eq_ok.1 h
          obtain ⟨withLoans, hloans, h⟩ := bind_eq_ok.1 h
          have hempty : HasTables problem (empty problem) := ⟨_, rfl⟩
          have hwithUses : HasTables problem withUses :=
            foldlM_induction (fun _ _ _ _ htables hstep => addUse_hasTables htables hstep) hempty
              huses
          obtain ⟨observations, rfl⟩ := foldlM_induction (P := HasTables problem)
            (fun _ _ _ _ htables hloan => foldlM_induction
              (fun _ _ _ _ htables hstep => addLoanUse_hasTables htables hstep) htables hloan)
            hwithUses hloans
          cases h
          exact ⟨_, rfl⟩
  | @withObservations analysis extended observations hbuilt h ih =>
      refine ⟨ih.1, ?_⟩
      rw [LastUseAnalysis.withObservations] at h
      obtain ⟨all, hall, h⟩ := bind_eq_ok.1 h
      obtain ⟨more, rfl⟩ := foldlM_induction (P := HasTables problem) (fun _ _ _ _ htables hstep => by
        obtain ⟨known, rfl⟩ := htables
        obtain ⟨_, -, hstep⟩ := bind_eq_ok.1 hstep
        cases hstep
        exact ⟨_, rfl⟩) ih.2 hall
      cases h
      exact ⟨_, rfl⟩

theorem mem_sortedTargets {block c : BlockId} :
    c ∈ sortedTargets problem block ↔ problem.Edge block c := by
  simp only [sortedTargets, BorrowProblem.outgoingTargets, List.mem_dedup, List.mem_insertionSort,
    List.mem_map, List.mem_filter, decide_eq_true_eq, BorrowProblem.Edge]
  constructor
  · rintro ⟨⟨source, target⟩, ⟨hmem, rfl⟩, rfl⟩
    exact hmem
  · intro hmem
    exact ⟨_, ⟨hmem, rfl⟩, rfl⟩

section Tables

variable {observations : LastUseSubject → List LastUseObservation} (hvalid : problem.Validated)
include hvalid

theorem eventsByBlock_lookup (block : BlockId) :
    (withTable problem observations).eventsByBlock.lookup block =
      (problem.controlFlow.blocks[block.index]?).map CfgBlock.events := by
  have h := lookup_denseFrom CfgBlock.id CfgBlock.events hvalid.blocks block
  rwa [if_pos (Nat.zero_le _), Nat.sub_zero] at h

theorem eventLocation_lookup (event : EventId) :
    (withTable problem observations).eventLocationById.lookup event =
      (problem.events[event.index]?).map fun row => .afterEventAt row.id row.point := by
  have h := lookup_denseFrom Event.id
    (fun row : Event => LastUseLocation.afterEventAt row.id row.point) hvalid.events event
  rwa [if_pos (Nat.zero_le _), Nat.sub_zero] at h

theorem pointBlock_lookup (point : PointId) :
    (withTable problem observations).pointBlock.lookup point =
      (problem.points[point.index]?).map ProgramPoint.block := by
  have h := lookup_denseFrom ProgramPoint.id ProgramPoint.block hvalid.points point
  rwa [if_pos (Nat.zero_le _), Nat.sub_zero] at h

theorem successors_lookup (block : BlockId) :
    (withTable problem observations).successors.lookup block =
      (problem.controlFlow.blocks[block.index]?).map fun row => sortedTargets problem row.id := by
  have h := lookup_denseFrom CfgBlock.id
    (fun row : CfgBlock => sortedTargets problem row.id) hvalid.blocks block
  rwa [if_pos (Nat.zero_le _), Nat.sub_zero] at h

theorem block_row {block : BlockId} {row : CfgBlock}
    (h : problem.controlFlow.blocks[block.index]? = some row) : row.id = block := by
  have hraw := hvalid.blocks _ _ h
  rw [Nat.zero_add] at hraw
  exact congrArg ProblemId.mk hraw

theorem mem_successorsOf {block c : BlockId} :
    c ∈ (withTable problem observations).successorsOf block ↔ problem.Edge block c := by
  rw [successorsOf, successors_lookup hvalid]
  cases hrow : problem.controlFlow.blocks[block.index]? with
  | none =>
      refine ⟨fun hmem => absurd hmem List.not_mem_nil, fun hedge => ?_⟩
      have hlt := (hvalid.edges _ hedge).1
      rw [List.getElem?_eq_none_iff] at hrow
      exact absurd hlt (by simpa [ProblemId.index] using hrow)
  | some row =>
      have hid := block_row hvalid hrow
      subst hid
      exact mem_sortedTargets

theorem firstObservation_isSome {subject : LastUseSubject} {block : BlockId} {start : Nat} :
    ((withTable problem observations).firstObservationInBlock subject block start).isSome = true ↔
      ∃ event ∈ (problem.eventsOf block).drop start,
        (withTable problem observations).Carries subject event := by
  rw [firstObservationInBlock, eventsByBlock_lookup hvalid, BorrowProblem.eventsOf]
  cases problem.controlFlow.blocks[block.index]? with
  | none => simp
  | some row =>
      simp only [Option.map_some, Option.bind_some, Option.elim_some, List.findSome?_isSome_iff,
        Option.isSome_map, List.find?_isSome, decide_eq_true_eq, Carries]

end Tables

/-! ## The scan of the query block -/

variable (problem) in
/-- Where the query starts in its block. -/
def startOf (block : BlockId) (location : LastUseLocation) : Nat :=
  match location.afterEvent with
  | some event => (problem.eventsOf block).idxOf event + 1
  | none => ((problem.eventsOf block).findIdx? (problem.anchoredAt location.point)).getD 0

theorem mem_drop_iff_idxOf? {events : List EventId} (hnodup : events.Nodup) {event : EventId}
    {start : Nat} :
    event ∈ events.drop start ↔ ∃ i, events.idxOf? event = some i ∧ start ≤ i := by
  constructor
  · intro hmem
    obtain ⟨i, hi, hget⟩ := List.mem_drop_iff_getElem.1 hmem
    have hlt : start + i < events.length := by omega
    refine ⟨start + i, List.idxOf?_eq_some_iff.2 ⟨hlt, hget, fun j hj heq => ?_⟩, by omega⟩
    have hsame : events[j] = events[start + i] := heq.trans hget.symm
    have hindex : j = start + i := (List.Nodup.getElem_inj_iff hnodup).1 hsame
    omega
  · rintro ⟨i, hindex, hle⟩
    obtain ⟨hi, hget, -⟩ := List.idxOf?_eq_some_iff.1 hindex
    refine List.mem_drop_iff_getElem.2 ⟨i - start, by omega, ?_⟩
    rw [← hget]
    congr 1
    omega

/-- The events from the code's start: those after the location, and those ahead of a point that
anchors none. -/
theorem scanned_iff {subject : LastUseSubject} {analysis : LastUseAnalysis} {block : BlockId}
    {location : LastUseLocation} :
    (∃ event ∈ (problem.eventsOf block).drop (startOf problem block location),
      analysis.Carries subject event) ↔
      analysis.ObservedLater problem subject block location ∨
        analysis.ObservedAhead problem subject block location := by
  cases hafter : location.afterEvent with
  | some event =>
      simp [ObservedLater, ObservedAhead, startOf, BorrowProblem.laterEvents, hafter]
  | none =>
      simp only [ObservedLater, ObservedAhead, startOf, BorrowProblem.laterEvents, hafter,
        true_and]
      cases hanchored : (problem.eventsOf block).any (problem.anchoredAt location.point) with
      | true =>
          have hfound : (problem.eventsOf block).findIdx? (problem.anchoredAt location.point) =
              some ((problem.eventsOf block).findIdx (problem.anchoredAt location.point)) := by
            rw [List.findIdx?_eq_some_iff_findIdx_eq]
            refine ⟨List.findIdx_lt_length.2 ?_, rfl⟩
            simpa [List.any_eq_true] using hanchored
          simp [hfound, List.dropWhile_eq_drop_findIdx_not]
      | false =>
          have hmissing : (problem.eventsOf block).findIdx? (problem.anchoredAt location.point) =
              none := by
            rw [List.findIdx?_eq_none_iff]
            simpa [List.any_eq_false] using hanchored
          rw [hmissing, Option.getD_none, List.drop_zero]
          have hsplit := List.takeWhile_append_dropWhile
            (p := problem.isBefore location.point) (l := problem.eventsOf block)
          constructor
          · rintro ⟨event, hmem, hcarries⟩
            rw [← hsplit, List.mem_append] at hmem
            cases hmem with
            | inl hahead => exact Or.inr ⟨rfl, event, hahead, hcarries⟩
            | inr hlater => exact Or.inl ⟨event, by simpa using hlater, hcarries⟩
          · rintro (⟨event, hmem, hcarries⟩ | ⟨-, event, hmem, hcarries⟩)
            · exact ⟨event, (List.dropWhile_sublist _).mem (by simpa using hmem), hcarries⟩
            · exact ⟨event, (List.takeWhile_sublist _).mem hmem, hcarries⟩

/-! ## The solved facts -/

section Facts

variable {analysis : LastUseAnalysis} {localUse : BlockId → Bool}

variable (analysis localUse) in
/-- Some walk from the block meets a local use. -/
inductive MayReach : BlockId → Prop where
  | here {b : BlockId} : localUse b = true → MayReach b
  | step {b c : BlockId} : c ∈ analysis.successorsOf b → MayReach c → MayReach b

variable (analysis localUse) in
/-- Every walk from the block meets a local use, after finitely many blocks. -/
inductive MustReach : BlockId → Prop where
  | here {b : BlockId} : localUse b = true → MustReach b
  | step {b : BlockId} : analysis.successorsOf b ≠ [] →
      (∀ c ∈ analysis.successorsOf b, MustReach c) → MustReach b

theorem factAscent_le {a b : Bool × Bool} :
    factAscent.le a b ↔ (a.1 = true → b.1 = true) ∧ (a.2 = true → b.2 = true) := by
  revert a b
  simp only [factAscent, Ascent.comap, Ascent.growing]
  decide

theorem nextFacts_may {b : BlockId} {facts : BlockId → Bool × Bool} :
    (analysis.nextFacts localUse b facts).1 = true ↔
      localUse b = true ∨ ∃ c ∈ analysis.successorsOf b, (facts c).1 = true := by
  simp [nextFacts, List.any_eq_true]

theorem nextFacts_must {b : BlockId} {facts : BlockId → Bool × Bool} :
    (analysis.nextFacts localUse b facts).2 = true ↔
      localUse b = true ∨ (analysis.successorsOf b ≠ [] ∧
        ∀ c ∈ analysis.successorsOf b, (facts c).2 = true) := by
  simp only [nextFacts]
  cases localUse b <;> by_cases hempty : analysis.successorsOf b = [] <;> simp [hempty]

theorem nextFacts_respects : factAscent.Respects (analysis.nextFacts localUse) := by
  intro b x y hle
  refine factAscent_le.2 ⟨fun hmay => ?_, fun hmust => ?_⟩
  · cases nextFacts_may.1 hmay with
    | inl hlocal => exact nextFacts_may.2 (Or.inl hlocal)
    | inr hlater =>
        obtain ⟨c, hc, hfact⟩ := hlater
        exact nextFacts_may.2 (Or.inr ⟨c, hc, (factAscent_le.1 (hle c)).1 hfact⟩)
  · cases nextFacts_must.1 hmust with
    | inl hlocal => exact nextFacts_must.2 (Or.inl hlocal)
    | inr hlater =>
        exact nextFacts_must.2 (Or.inr ⟨hlater.1, fun c hc =>
          (factAscent_le.1 (hle c)).2 (hlater.2 c hc)⟩)

variable (analysis localUse) in
/-- Facts hold only where walks bear them out. -/
def FactsSound (facts : BlockId → Bool × Bool) : Prop :=
  (∀ b, (facts b).1 = true → MayReach analysis localUse b) ∧
    ∀ b, (facts b).2 = true → MustReach analysis localUse b

theorem factsSound_update {facts : BlockId → Bool × Bool}
    (hsound : FactsSound analysis localUse facts) (b : BlockId) :
    FactsSound analysis localUse
      (Function.update facts b (analysis.nextFacts localUse b facts)) := by
  refine ⟨fun c hmay => ?_, fun c hmust => ?_⟩
  · by_cases heq : c = b
    · subst heq
      rw [Function.update_self] at hmay
      rcases nextFacts_may.1 hmay with hlocal | ⟨d, hd, hfact⟩
      · exact .here hlocal
      · exact .step hd (hsound.1 d hfact)
    · rw [Function.update_of_ne heq] at hmay
      exact hsound.1 c hmay
  · by_cases heq : c = b
    · subst heq
      rw [Function.update_self] at hmust
      rcases nextFacts_must.1 hmust with hlocal | ⟨hsome, hall⟩
      · exact .here hlocal
      · exact .step hsome fun d hd => hsound.2 d (hall d hd)
    · rw [Function.update_of_ne heq] at hmust
      exact hsound.2 c hmust

/-- The facts settle, hold only where walks bear them out, and satisfy their equations. -/
theorem solveFacts_settles (analysis : LastUseAnalysis) (localUse : BlockId → Bool) :
    ∃ facts, analysis.solveFacts localUse = some facts ∧ FactsSound analysis localUse facts ∧
      ∀ b ∈ analysis.blockOrder, facts b = analysis.nextFacts localUse b facts := by
  have hrising : factAscent.Rising (analysis.nextFacts localUse) analysis.blockOrder
      fun _ => (false, false) := by
    intro b _
    exact factAscent_le.2
      ⟨fun h => absurd h Bool.false_ne_true, fun h => absurd h Bool.false_ne_true⟩
  obtain ⟨facts, hfacts⟩ := Ascent.sweepUntilStable_terminates nextFacts_respects hrising
  have hstart : FactsSound analysis localUse fun _ => (false, false) :=
    ⟨fun b h => absurd h Bool.false_ne_true, fun b h => absurd h Bool.false_ne_true⟩
  have hsound : FactsSound analysis localUse facts :=
    sweepUntilStable_induction (P := FactsSound analysis localUse)
      (fun x b _ hx => factsSound_update hx b) hstart hfacts
  exact ⟨facts, hfacts, hsound, sweepUntilStable_fixed hfacts⟩

end Facts

/-! ## Facts and walks -/

section Walks

variable {observations : LastUseSubject → List LastUseObservation} (hvalid : problem.Validated)
  {subject : LastUseSubject} {block : BlockId} {start : Nat}
include hvalid

theorem mem_blockOrder {b : BlockId} :
    b ∈ (withTable problem observations).blockOrder ↔
      b.raw < problem.controlFlow.blocks.length := by
  have hrows : (withTable problem observations).eventsByBlock.map Prod.fst =
      problem.controlFlow.blocks.map CfgBlock.id := by
    simp [withTable, empty, Function.comp_def]
  rw [blockOrder, List.mem_reverse, hrows, List.mem_map]
  constructor
  · rintro ⟨row, hrow, rfl⟩
    obtain ⟨i, hi, hget⟩ := List.mem_iff_getElem.1 hrow
    have hraw : row.id.raw = 0 + i := hvalid.blocks i row (hget ▸ List.getElem?_eq_getElem hi)
    omega
  · intro hlt
    exact ⟨_, List.getElem_mem hlt, block_row hvalid (List.getElem?_eq_getElem hlt)⟩

theorem successors_of_mem_blockOrder {b : BlockId}
    (hb : b ∈ (withTable problem observations).blockOrder) :
    (withTable problem observations).successors.lookup b = some (sortedTargets problem b) := by
  have hget := List.getElem?_eq_getElem ((mem_blockOrder hvalid).1 hb)
  have hrow := (congrArg (Option.map fun row : CfgBlock => sortedTargets problem row.id) hget)
  rw [successors_lookup hvalid]
  exact hrow.trans (congrArg (fun id => some (sortedTargets problem id)) (block_row hvalid hget))

theorem edge_mem_blockOrder {b c : BlockId} (hedge : problem.Edge b c) :
    c ∈ (withTable problem observations).blockOrder :=
  (mem_blockOrder hvalid).2 (hvalid.edges _ hedge).2

theorem localHasUse_of_ne {b : BlockId} (hne : b ≠ block) :
    (withTable problem observations).localHasUse subject block start b = true ↔
      ∃ event ∈ problem.eventsOf b, (withTable problem observations).Carries subject event := by
  rw [localHasUse, if_neg hne, firstObservation_isSome hvalid, List.drop_zero]

theorem localHasUse_self :
    (withTable problem observations).localHasUse subject block start block = true ↔
      ∃ event ∈ (problem.eventsOf block).drop start,
        (withTable problem observations).Carries subject event := by
  rw [localHasUse, if_pos rfl, firstObservation_isSome hvalid]

theorem observed_of_localHasUse {b : BlockId}
    (h : (withTable problem observations).localHasUse subject block start b = true) :
    ∃ event ∈ problem.eventsOf b, (withTable problem observations).Carries subject event := by
  by_cases heq : b = block
  · subst heq
    obtain ⟨event, hmem, hcarries⟩ := (localHasUse_self hvalid).1 h
    exact ⟨event, List.mem_of_mem_drop hmem, hcarries⟩
  · exact (localHasUse_of_ne hvalid heq).1 h

theorem mayReach_iff {localUse : BlockId → Bool} {b : BlockId} :
    MayReach (withTable problem observations) localUse b ↔
      ∃ other, Relation.ReflTransGen problem.Edge b other ∧ localUse other = true := by
  constructor
  · intro h
    induction h with
    | here hlocal => exact ⟨_, .refl, hlocal⟩
    | step hc _ ih =>
        obtain ⟨other, hwalk, hlocal⟩ := ih
        exact ⟨other, .head ((mem_successorsOf hvalid).1 hc) hwalk, hlocal⟩
  · rintro ⟨other, hwalk, hlocal⟩
    induction hwalk using Relation.ReflTransGen.head_induction_on with
    | refl => exact .here hlocal
    | head hedge _ ih => exact .step ((mem_successorsOf hvalid).2 hedge) ih

theorem mayReach_iff_elsewhere
    (hlocal : (withTable problem observations).localHasUse subject block start block = false) :
    MayReach (withTable problem observations)
        ((withTable problem observations).localHasUse subject block start) block ↔
      (withTable problem observations).ObservedElsewhere problem subject block := by
  rw [mayReach_iff hvalid]
  constructor
  · rintro ⟨other, hwalk, huse⟩
    have hne : other ≠ block := by
      rintro rfl
      rw [hlocal] at huse
      cases huse
    cases Relation.reflTransGen_iff_eq_or_transGen.1 hwalk with
    | inl heq => exact absurd heq hne
    | inr htrans => exact ⟨other, hne, htrans, (localHasUse_of_ne hvalid hne).1 huse⟩
  · rintro ⟨other, hne, hwalk, hobserved⟩
    exact ⟨other, hwalk.to_reflTransGen, (localHasUse_of_ne hvalid hne).2 hobserved⟩

theorem mayFact_of_mayReach {localUse : BlockId → Bool} {facts : BlockId → Bool × Bool}
    (hfixed : ∀ b ∈ (withTable problem observations).blockOrder,
      facts b = (withTable problem observations).nextFacts localUse b facts)
    {b : BlockId} (hreach : MayReach (withTable problem observations) localUse b)
    (hb : b ∈ (withTable problem observations).blockOrder) : (facts b).1 = true := by
  induction hreach with
  | here hlocal =>
      rw [hfixed _ hb]
      exact nextFacts_may.2 (Or.inl hlocal)
  | step hc _ ih =>
      rw [hfixed _ hb]
      have hnext := ih (edge_mem_blockOrder hvalid ((mem_successorsOf hvalid).1 hc))
      exact nextFacts_may.2 (Or.inr ⟨_, hc, hnext⟩)

/-- A MUST walk meets a local use before it can leave the function. -/
theorem exit_of_mustReach {localUse : BlockId → Bool} {b : BlockId}
    (hreach : MustReach (withTable problem observations) localUse b) {rest : List BlockId}
    (hwalk : (b :: rest).IsChain problem.Edge)
    (hexit : ∀ c, ¬ problem.Edge ((b :: rest).getLast (List.cons_ne_nil _ _)) c) :
    localUse b = true ∨ ∃ other ∈ rest, localUse other = true := by
  induction hreach generalizing rest with
  | here hlocal => exact Or.inl hlocal
  | @step b hsome _ ih =>
      cases rest with
      | nil =>
          obtain ⟨c, hc⟩ := List.exists_mem_of_ne_nil _ hsome
          exact absurd ((mem_successorsOf hvalid).1 hc) (hexit c)
      | cons c rest =>
          obtain ⟨hedge, hchain⟩ := List.isChain_cons_cons.1 hwalk
          rw [List.getLast_cons (List.cons_ne_nil _ _)] at hexit
          right
          cases ih c ((mem_successorsOf hvalid).2 hedge) hchain hexit with
          | inl hlocal => exact ⟨c, List.mem_cons_self, hlocal⟩
          | inr hlater =>
              obtain ⟨other, hother, hlocal⟩ := hlater
              exact ⟨other, List.mem_cons_of_mem _ hother, hlocal⟩

/-- The MAY search finds a later use whenever the settled MAY fact promises one. -/
theorem findSummaryUse_isSome {facts : BlockId → Bool × Bool}
    (hblock : block ∈ (withTable problem observations).blockOrder)
    (hlocal : (withTable problem observations).localHasUse subject block start block = false)
    (hsound : FactsSound (withTable problem observations)
      ((withTable problem observations).localHasUse subject block start) facts)
    (hfixed : ∀ b ∈ (withTable problem observations).blockOrder,
      facts b = (withTable problem observations).nextFacts
        ((withTable problem observations).localHasUse subject block start) b facts)
    (hmay : (facts block).1 = true) :
    ((withTable problem observations).findSummaryUse subject
      (fun b => (facts b).1) block).isSome = true := by
  rw [findSummaryUse, successors_of_mem_blockOrder hvalid hblock, Option.bind_some,
    Option.isSome_iff_ne_none]
  intro hnone
  obtain ⟨-, hstarts, hsearched⟩ := FiniteGraph.explore_eq_none
    (fun b hb => absurd hb List.not_mem_nil) hnone
  -- a seen block with a MAY walk would have been followed to the use
  have hunseen : ∀ c, MayReach (withTable problem observations)
      ((withTable problem observations).localHasUse subject block start) c →
      c ∈ (withTable problem observations).blockOrder →
      c ∉ ((withTable problem observations).graph.explore
        ((withTable problem observations).useStep subject fun b => (facts b).1) []
        (sortedTargets problem block)).1 := by
    intro c hreach
    induction hreach with
    | @here c huse =>
        intro hc hseen
        have hfact := mayFact_of_mayReach hvalid hfixed (.here huse) hc
        have hne : c ≠ block := by
          rintro rfl
          rw [hlocal] at huse
          cases huse
        rw [localHasUse, if_neg hne] at huse
        obtain ⟨useId, hfirst⟩ := Option.isSome_iff_exists.1 huse
        exact (hsearched c hseen).1 useId (by simp [useStep, hfact, hfirst])
    | @step c d hd hreach ih =>
        intro hc hseen
        have hedge := (mem_successorsOf hvalid).1 hd
        have hfact := mayFact_of_mayReach hvalid hfixed (.step hd hreach) hc
        cases hfirst : (withTable problem observations).firstObservationInBlock subject c 0 with
        | some useId => exact (hsearched c hseen).1 useId (by simp [useStep, hfact, hfirst])
        | none =>
            have hexpand := (hsearched c hseen).2 (by simp [useStep, hfact, hfirst]) d
              ⟨_, successors_of_mem_blockOrder hvalid hc, mem_sortedTargets.2 hedge⟩
            exact ih (edge_mem_blockOrder hvalid hedge)
              (hexpand.resolve_right List.not_mem_nil)
  rw [hfixed block hblock] at hmay
  rcases nextFacts_may.1 hmay with huse | ⟨c, hc, hfact⟩
  · rw [hlocal] at huse
    cases huse
  · have hedge := (mem_successorsOf hvalid).1 hc
    exact hunseen c (hsound.1 c hfact) (edge_mem_blockOrder hvalid hedge)
      (hstarts c (mem_sortedTargets.2 hedge))

end Walks

/-! ## The query -/

section Query

variable {observations : LastUseSubject → List LastUseObservation} (hvalid : problem.Validated)
  {subject : LastUseSubject} {block : BlockId} {location : LastUseLocation}
  (hat : problem.LocatedAt location block)
include hvalid hat

omit hat in
theorem eventsOf_nodup : (problem.eventsOf block).Nodup := by
  rw [BorrowProblem.eventsOf]
  cases hrow : problem.controlFlow.blocks[block.index]? with
  | none => exact List.nodup_nil
  | some row => exact hvalid.eventsNodup row (List.mem_of_getElem? hrow)

variable (observations) in
theorem block_mem_blockOrder : block ∈ (withTable problem observations).blockOrder := by
  obtain ⟨⟨row, hrow, rfl⟩, -⟩ := hat
  exact (mem_blockOrder hvalid).2 (hvalid.pointBlocks row (List.mem_of_getElem? hrow))

theorem blockForPoint_eq :
    (withTable problem observations).blockForPoint location.point = .ok block := by
  obtain ⟨⟨row, hrow, rfl⟩, -⟩ := hat
  rw [blockForPoint, pointBlock_lookup hvalid, hrow]
  rfl

theorem events_eq : (withTable problem observations).eventsByBlock.lookup block =
    some (problem.eventsOf block) := by
  have hlt := (mem_blockOrder hvalid).1 (block_mem_blockOrder observations hvalid hat)
  have hget : problem.controlFlow.blocks[block.index]? = some _ := List.getElem?_eq_getElem hlt
  rw [eventsByBlock_lookup hvalid, BorrowProblem.eventsOf, hget]
  rfl

theorem startEventIndex_eq : (withTable problem observations).startEventIndex block location =
    .ok (startOf problem block location) := by
  rw [startEventIndex, events_eq hvalid hat]
  cases hafter : location.afterEvent with
  | some event =>
      have hmem := hat.2 event hafter
      obtain ⟨i, hi⟩ := Option.isSome_iff_exists.1 (List.isSome_idxOf?.2 hmem)
      have hindex : i = (problem.eventsOf block).idxOf event := by
        rw [List.idxOf_eq_getD_idxOf?, hi, Option.getD_some]
      simp only [required, ok_bind, hi, startOf, hafter, hindex]
      rfl
  | none =>
      simp only [required, ok_bind, startOf, hafter, eventLocation_lookup hvalid,
        Option.any_map]
      rfl

/-- The query's first look finds an observation exactly when the events from its start carry one. -/
theorem scan_eq_none_iff :
    (((withTable problem observations).observationsBySubject subject).filter fun observation =>
      (withTable problem observations).observationAfterInBlock observation block
        (startOf problem block location)).head? = none ↔
      ¬ ∃ event ∈ (problem.eventsOf block).drop (startOf problem block location),
        (withTable problem observations).Carries subject event := by
  rw [List.head?_eq_none_iff, List.filter_eq_nil_iff]
  constructor
  · rintro hnone ⟨event, hmem, observation, hobservation, hevent⟩
    obtain ⟨i, hindex, hle⟩ := (mem_drop_iff_idxOf? (eventsOf_nodup hvalid)).1 hmem
    apply hnone observation hobservation
    simp [observationAfterInBlock, hevent, events_eq hvalid hat, hindex, hle]
  · intro hnone observation hobservation hafter
    rw [observationAfterInBlock] at hafter
    cases hevent : (withTable problem observations).eventIdForObservation observation with
    | none =>
        rw [hevent] at hafter
        cases hafter
    | some event =>
        simp only [hevent, events_eq hvalid hat, Option.bind_some, Option.any_eq_true,
          decide_eq_true_eq] at hafter
        have hmem := (mem_drop_iff_idxOf? (eventsOf_nodup hvalid)).2 hafter
        exact hnone ⟨event, hmem, observation, hobservation, hevent⟩

variable (observations subject) in
/-- The answers of the query: `MustBeUsed` when its scan finds an observation, and otherwise
`NoFutureUse` exactly when no other block's observation is reached. -/
theorem query_status :
    ∃ result, (withTable problem observations).query subject location = some (.ok result) ∧
      ((∃ event ∈ (problem.eventsOf block).drop (startOf problem block location),
          (withTable problem observations).Carries subject event) →
        result.status = .MustBeUsed) ∧
      ((¬ ∃ event ∈ (problem.eventsOf block).drop (startOf problem block location),
          (withTable problem observations).Carries subject event) →
        (result.status = .NoFutureUse ↔
          ¬ (withTable problem observations).ObservedElsewhere problem subject block) ∧
        (result.status = .MustBeUsed →
          (withTable problem observations).EveryExitMeets problem subject block location)) := by
  simp only [query, blockForPoint_eq hvalid hat, startEventIndex_eq hvalid hat]
  cases hscan : (((withTable problem observations).observationsBySubject subject).filter
      fun observation => (withTable problem observations).observationAfterInBlock observation block
        (startOf problem block location)).head? with
  | some observation =>
      refine ⟨_, rfl, fun _ => rfl, fun hmissed => ?_⟩
      rw [(scan_eq_none_iff hvalid hat).2 hmissed] at hscan
      cases hscan
  | none =>
      have hmissed := (scan_eq_none_iff hvalid hat).1 hscan
      have hlocal : (withTable problem observations).localHasUse subject block
          (startOf problem block location) block = false :=
        Bool.eq_false_iff.2 fun huse => hmissed ((localHasUse_self hvalid).1 huse)
      have hblock := block_mem_blockOrder observations hvalid hat
      obtain ⟨facts, hfacts, hsound, hfixed⟩ := solveFacts_settles
        (withTable problem observations)
        ((withTable problem observations).localHasUse subject block
          (startOf problem block location))
      have hmay : (facts block).1 = true ↔
          (withTable problem observations).ObservedElsewhere problem subject block := by
        rw [← mayReach_iff_elsewhere hvalid hlocal]
        exact ⟨hsound.1 block, fun hreach => mayFact_of_mayReach hvalid hfixed hreach hblock⟩
      have hmust : (facts block).2 = true →
          (withTable problem observations).EveryExitMeets problem subject block location := by
        intro hfact rest hwalk hexit
        rcases exit_of_mustReach hvalid (hsound.2 block hfact) hwalk hexit with huse | hlater
        · rw [hlocal] at huse
          cases huse
        · obtain ⟨other, hother, huse⟩ := hlater
          obtain ⟨event, hevent, hcarries⟩ := observed_of_localHasUse hvalid huse
          exact ⟨event, List.mem_append_right _ (List.mem_flatMap.2 ⟨other, hother, hevent⟩),
            hcarries⟩
      simp only [blockSummaries, hfacts, Option.map_some]
      cases hmayFact : (facts block).1 with
      | false =>
          rw [hmayFact] at hmay
          refine ⟨_, rfl, fun hhit => absurd hhit hmissed, fun _ => ⟨?_, fun h => ?_⟩⟩
          · simp only [BlockSummary.status, true_iff, ← hmay]
            exact Bool.false_ne_true
          · simp [BlockSummary.status] at h
      | true =>
          have hsome := findSummaryUse_isSome hvalid hblock hlocal hsound hfixed hmayFact
          obtain ⟨useId, huse⟩ := Option.isSome_iff_exists.1 hsome
          have hfirst : (withTable problem observations).firstObservationInBlock subject block
              (startOf problem block location) = none := by
            rw [← Option.not_isSome_iff_eq_none]
            exact fun hfirst => hmissed ((firstObservation_isSome hvalid).1 hfirst)
          rw [hmayFact] at hmay
          cases hmustFact : (facts block).2 with
          | false =>
              simp only [summaryWitness, BlockSummary.status, hfirst, Option.none_or, huse]
              exact ⟨_, rfl, fun hhit => absurd hhit hmissed, fun _ => ⟨by simp [← hmay], by simp⟩⟩
          | true =>
              simp only [summaryWitness, BlockSummary.status, hfirst, Option.none_or, huse]
              exact ⟨_, rfl, fun hhit => absurd hhit hmissed,
                fun _ => ⟨by simp [← hmay], fun _ => hmust hmustFact⟩⟩

end Query

theorem transGen_of_walk {block other : BlockId} {rest : List BlockId}
    (hwalk : (block :: rest).IsChain problem.Edge) (hother : other ∈ rest) :
    Relation.TransGen problem.Edge block other := by
  induction rest generalizing block with
  | nil => exact absurd hother List.not_mem_nil
  | cons c rest ih =>
      obtain ⟨hedge, hchain⟩ := List.isChain_cons_cons.1 hwalk
      cases List.mem_cons.1 hother with
      | inl heq => exact heq ▸ .single hedge
      | inr hin => exact .head hedge (ih hchain hin)

theorem walk_of_transGen {block other : BlockId}
    (hreach : Relation.TransGen problem.Edge block other) :
    ∃ rest, (block :: rest).IsChain problem.Edge ∧ other ∈ rest := by
  induction hreach using Relation.TransGen.head_induction_on with
  | single hedge =>
      exact ⟨[other], List.isChain_cons_cons.2 ⟨hedge, List.isChain_singleton _⟩,
        List.mem_singleton_self _⟩
  | head hedge _ ih =>
      obtain ⟨rest, hchain, hother⟩ := ih
      exact ⟨_ :: rest, List.isChain_cons_cons.2 ⟨hedge, hchain⟩, List.mem_cons_of_mem _ hother⟩

/-- A walk meets an observation in the rest of the block, in another block, or in the block
itself on a walk around. -/
theorem meetsLater_iff {analysis : LastUseAnalysis} {subject : LastUseSubject} {block : BlockId}
    {location : LastUseLocation} :
    analysis.MeetsLater problem subject block location ↔
      analysis.ObservedLater problem subject block location ∨
        analysis.ObservedElsewhere problem subject block ∨
          analysis.ObservedAround problem subject block := by
  constructor
  · rintro ⟨rest, hwalk, event, hmem, hcarries⟩
    cases List.mem_append.1 hmem with
    | inl hlater => exact Or.inl ⟨event, hlater, hcarries⟩
    | inr hin =>
        right
        obtain ⟨other, hother, hevent⟩ := List.mem_flatMap.1 hin
        have hreach := transGen_of_walk hwalk hother
        by_cases heq : other = block
        · subst heq
          exact Or.inr ⟨hreach, event, hevent, hcarries⟩
        · exact Or.inl ⟨other, heq, hreach, event, hevent, hcarries⟩
  · have hwalk : ∀ other, Relation.TransGen problem.Edge block other →
        (∃ event ∈ problem.eventsOf other, analysis.Carries subject event) →
        analysis.MeetsLater problem subject block location := by
      rintro other hreach ⟨event, hevent, hcarries⟩
      obtain ⟨rest, hchain, hother⟩ := walk_of_transGen hreach
      exact ⟨rest, hchain, event,
        List.mem_append_right _ (List.mem_flatMap.2 ⟨other, hother, hevent⟩), hcarries⟩
    rintro (⟨event, hlater, hcarries⟩ | ⟨other, -, hreach, hobserved⟩ | ⟨hreach, hobserved⟩)
    · exact ⟨[], List.isChain_singleton _, event, List.mem_append_left _ hlater, hcarries⟩
    · exact hwalk other hreach hobserved
    · exact hwalk block hreach hobserved

/-- The query answers, and its answer is exact exactly under the condition. -/
theorem query_exact_iff {analysis : LastUseAnalysis} (hbuilt : Built problem analysis)
    (subject : LastUseSubject) {location : LastUseLocation} {block : BlockId}
    (hat : problem.LocatedAt location block) :
    ∃ result, analysis.query subject location = some (.ok result) ∧
      (analysis.ExactAnswer problem subject block location result.status ↔
        analysis.ExactWhen problem subject block location) := by
  obtain ⟨hvalid, observations, rfl⟩ := hbuilt.tables
  obtain ⟨result, hquery, hhit, hmissed⟩ := query_status observations hvalid subject hat
  refine ⟨result, hquery, ?_⟩
  rw [scanned_iff] at hhit hmissed
  rw [ExactAnswer, ExactWhen, meetsLater_iff]
  by_cases hlater : (withTable problem observations).ObservedLater problem subject block location
  · have hevery : (withTable problem observations).EveryExitMeets problem subject block
        location := by
      obtain ⟨event, hevent, hcarries⟩ := hlater
      exact fun rest _ _ => ⟨event, List.mem_append_left _ hevent, hcarries⟩
    have hstatus := hhit (Or.inl hlater)
    simp [hlater, hevery, hstatus]
  · by_cases hahead : (withTable problem observations).ObservedAhead problem subject block location
    · have hstatus := hhit (Or.inr hahead)
      simp only [hlater, hahead, hstatus, false_or, not_true_eq_false, false_and, true_and]
      tauto
    · obtain ⟨hnone, hmust⟩ := hmissed (fun h => h.elim hlater hahead)
      simp only [hlater, hahead, false_or, not_false_eq_true, true_and, false_and, or_false, hnone]
      tauto

/-! A loop whose head reads a place, and then branches back or leaves. -/

def loopProblem : BorrowProblem where
  bindings := [⟨⟨0⟩⟩]
  controlFlow :=
    { blocks := [⟨⟨0⟩, ⟨0⟩, ⟨0⟩, [⟨0⟩]⟩, ⟨⟨1⟩, ⟨1⟩, ⟨2⟩, [⟨1⟩, ⟨2⟩]⟩, ⟨⟨2⟩, ⟨3⟩, ⟨3⟩, [⟨3⟩]⟩]
      edges := [⟨⟨0⟩, ⟨1⟩⟩, ⟨⟨1⟩, ⟨1⟩⟩, ⟨⟨1⟩, ⟨2⟩⟩]
      entry := ⟨0⟩
      exits := [⟨2⟩] }
  points := [⟨⟨0⟩, ⟨0⟩, 0⟩, ⟨⟨1⟩, ⟨1⟩, 0⟩, ⟨⟨2⟩, ⟨1⟩, 1⟩, ⟨⟨3⟩, ⟨2⟩, 0⟩]
  places := [⟨⟨0⟩, ⟨0⟩, []⟩]
  origins := []
  loans := []
  uses := [⟨⟨0⟩, ⟨1⟩, ⟨0⟩, .Read, false⟩]
  calls := []
  events := [⟨⟨0⟩, ⟨0⟩, .Terminator (.Jump ⟨1⟩ [])⟩, ⟨⟨1⟩, ⟨1⟩, .Access ⟨0⟩⟩,
    ⟨⟨2⟩, ⟨2⟩, .Terminator (.Branch [⟨1⟩, ⟨2⟩])⟩, ⟨⟨3⟩, ⟨3⟩, .Terminator .Return⟩]

def loopAnalysis : LastUseAnalysis :=
  ((fromProblem loopProblem).toOption).get (by decide +kernel)

theorem loopAnalysis_built : Built loopProblem loopAnalysis := by
  have hsome : (fromProblem loopProblem).toOption = some loopAnalysis := (Option.some_get _).symm
  cases hresult : fromProblem loopProblem with
  | error failure =>
      rw [hresult] at hsome
      cases hsome
  | ok analysis =>
      rw [hresult] at hsome
      cases hsome
      exact .fromProblem hresult

/-- After its read the loop's head has a future use, on the walk around, that the query misses. -/
theorem query_misses_loop_use :
    Built loopProblem loopAnalysis ∧
      loopProblem.LocatedAt (.afterEventAt ⟨1⟩ ⟨1⟩) ⟨1⟩ ∧
      (∃ result, loopAnalysis.query (.Place ⟨0⟩) (.afterEventAt ⟨1⟩ ⟨1⟩) = some (.ok result) ∧
        result.status = .NoFutureUse) ∧
      loopAnalysis.MeetsLater loopProblem (.Place ⟨0⟩) ⟨1⟩ (.afterEventAt ⟨1⟩ ⟨1⟩) := by
  refine ⟨loopAnalysis_built, ⟨⟨_, rfl, rfl⟩, fun event hevent => ?_⟩, ?_, [⟨1⟩], ?_, ⟨1⟩, ?_, ?_⟩
  · cases hevent
    decide
  · have hstatus : (loopAnalysis.query (.Place ⟨0⟩) (.afterEventAt ⟨1⟩ ⟨1⟩)).map
        (fun result => result.toOption.map LastUseResult.status) =
          some (some .NoFutureUse) := by decide +kernel
    obtain ⟨answer, hanswer, hok⟩ := Option.map_eq_some_iff.1 hstatus
    cases answer with
    | error failure => cases hok
    | ok result => exact ⟨result, hanswer, Option.some.inj hok⟩
  · exact List.isChain_cons_cons.2 ⟨by simp [BorrowProblem.Edge, loopProblem],
      List.isChain_singleton _⟩
  · decide
  · rw [Carries]
    decide +kernel

/-- At the entry, with the loop ahead, the answer is exact. -/
theorem query_exact_iff_entry :
    ∃ result, loopAnalysis.query (.Place ⟨0⟩) (.atPoint ⟨0⟩) = some (.ok result) ∧
      loopAnalysis.ExactAnswer loopProblem (.Place ⟨0⟩) ⟨0⟩ (.atPoint ⟨0⟩) result.status := by
  have hat : loopProblem.LocatedAt (.atPoint ⟨0⟩) ⟨0⟩ :=
    ⟨⟨_, rfl, rfl⟩, fun event hevent => by cases hevent⟩
  have helsewhere : loopAnalysis.ObservedElsewhere loopProblem (.Place ⟨0⟩) ⟨0⟩ := by
    refine ⟨⟨1⟩, by decide, .single (by simp [BorrowProblem.Edge, loopProblem]), ⟨1⟩, by decide, ?_⟩
    rw [Carries]
    decide +kernel
  have hahead : ¬ loopAnalysis.ObservedAhead loopProblem (.Place ⟨0⟩) ⟨0⟩ (.atPoint ⟨0⟩) :=
    fun h => absurd h.2.1 (by decide)
  obtain ⟨result, hquery, hexact⟩ := query_exact_iff loopAnalysis_built (.Place ⟨0⟩) hat
  exact ⟨result, hquery, hexact.2 (Or.inr (Or.inl ⟨hahead, Or.inl helsewhere⟩))⟩

end LastUseAnalysis

end Moth.Problem
