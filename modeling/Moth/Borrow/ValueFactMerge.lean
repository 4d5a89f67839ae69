import Moth.Borrow.EngineFixpoint
import Moth.Borrow.ValueFactRuns

/-!
# The published value facts

A visit of a block overwrites the value facts of the block's earlier visits,
the facts of the last visits are merged when the function has settled, and the
functions of a module are merged into one report. So the uses that count for
an expression are those of the last visit of every reachable block of every
function, and the published fact says of them together what a row says of the
uses of one block: a transfer is published only where no use declined it.

Every layer is an upper bound of evidence, so that the fact is decided by the
uses alone and not by the order in which they were merged.
-/

namespace Moth.Borrow

open Moth.Hir Moth.Lib

/-- What a published fact says of the completed uses of its expression. -/
structure FactOf (uses : List (List ValueObservation)) (fact : ValueBorrowFact) : Prop where
  reads : fact.classification.includesRead = true ↔
    ∃ seen ∈ uses.flatten, seen.classification.includesRead = true
  mutates : fact.classification.includesMutable = true ↔
    ∃ seen ∈ uses.flatten, seen.classification.includesMutable = true
  roots_sorted : fact.roots.Pairwise fun a b => a.index < b.index
  mem_roots : ∀ target, target ∈ fact.roots ↔ ∃ seen ∈ uses.flatten, target ∈ seen.roots
  status : StatusOf (uses.map endedWith) fact.optionalTransfer

/-- No fact where nothing used the expression, else the fact of its uses. -/
def PublishedFor (uses : List (List ValueObservation)) : Option ValueBorrowFact → Prop
  | none => uses = []
  | some fact => uses ≠ [] ∧ FactOf uses fact

namespace FactOf

variable {uses other : List (List ValueObservation)} {a b : ValueBorrowFact}

theorem sorted_merge (a b : List LocalId) :
    (((a ++ b).insertionSort fun x y => x.index ≤ y.index).dedup).Pairwise
      fun x y => x.index < y.index := by
  have htotal : Std.Total fun x y : LocalId => x.index ≤ y.index :=
    ⟨fun x y => Nat.le_total x.index y.index⟩
  have htrans : IsTrans LocalId fun x y => x.index ≤ y.index :=
    ⟨fun _ _ _ h h' => Nat.le_trans h h'⟩
  have hsorted := List.pairwise_insertionSort (fun x y : LocalId => x.index ≤ y.index) (a ++ b)
  have hle := hsorted.sublist (List.dedup_sublist _)
  have hne := List.nodup_dedup ((a ++ b).insertionSort fun x y => x.index ≤ y.index)
  refine (hle.and hne).imp fun {x y} h => Nat.lt_of_le_of_ne h.1 fun heq => h.2 ?_
  cases x
  cases y
  exact congrArg _ heq

theorem merge (ha : FactOf uses a) (hb : FactOf other b) :
    FactOf (uses ++ other) (a.merge b) := by
  have hsplit : ∀ P : ValueObservation → Prop, (∃ seen ∈ (uses ++ other).flatten, P seen) ↔
      (∃ seen ∈ uses.flatten, P seen) ∨ ∃ seen ∈ other.flatten, P seen := by
    intro P
    simp only [List.flatten_append, List.mem_append, or_and_right, exists_or]
  constructor
  · rw [hsplit, ← ha.reads, ← hb.reads, ValueBorrowFact.merge,
      ValueAccessClassification.merge_includesRead, Bool.or_eq_true]
  · rw [hsplit, ← ha.mutates, ← hb.mutates, ValueBorrowFact.merge,
      ValueAccessClassification.merge_includesMutable, Bool.or_eq_true]
  · exact sorted_merge a.roots b.roots
  · intro target
    rw [hsplit, ← ha.mem_roots, ← hb.mem_roots]
    simp [ValueBorrowFact.merge, List.mem_insertionSort]
  · rw [List.map_append]
    exact ha.status.merge hb.status

theorem unique (ha : FactOf uses a) (hb : FactOf other b) (hsame : ∀ use, use ∈ uses ↔ use ∈ other) :
    a = b := by
  have hflat : ∀ P : ValueObservation → Prop,
      (∃ seen ∈ uses.flatten, P seen) ↔ ∃ seen ∈ other.flatten, P seen := by
    intro P
    simp only [List.mem_flatten, hsame]
  have hclassification : a.classification = b.classification := by
    refine ValueAccessClassification.ext_includes ?_ ?_
    · rw [Bool.eq_iff_iff, ha.reads, hb.reads, hflat]
    · rw [Bool.eq_iff_iff, ha.mutates, hb.mutates, hflat]
  have hmem : ∀ target, target ∈ a.roots ↔ target ∈ b.roots := by
    intro target
    rw [ha.mem_roots, hb.mem_roots, hflat]
  have hroots : a.roots = b.roots := by
    have hirrefl : ∀ roots : List LocalId, roots.Pairwise (fun x y => x.index < y.index) →
        roots.Nodup := fun roots h => h.imp fun {x y} hlt heq => by
          rw [heq] at hlt
          exact Nat.lt_irrefl _ hlt
    have hperm := (List.perm_ext_iff_of_nodup (hirrefl _ ha.roots_sorted)
      (hirrefl _ hb.roots_sorted)).2 hmem
    exact hperm.eq_of_pairwise (fun x y _ _ hxy hyx => absurd hxy (Nat.lt_asymm hyx))
      ha.roots_sorted hb.roots_sorted
  have hstatus : a.optionalTransfer = b.optionalTransfer := by
    refine ha.status.unique hb.status fun s => ?_
    simp only [List.mem_map, hsame]
  cases a
  cases b
  cases hclassification
  cases hroots
  cases hstatus
  rfl

end FactOf

namespace PublishedFor

variable {uses other : List (List ValueObservation)} {a b : Option ValueBorrowFact}

theorem merge (ha : PublishedFor uses a) (hb : PublishedFor other b) :
    PublishedFor (uses ++ other) (Option.merge ValueBorrowFact.merge a b) := by
  cases a with
  | none =>
      have huses : uses = [] := ha
      rw [huses, List.nil_append]
      cases b <;> exact hb
  | some fact =>
      cases b with
      | none =>
          have hother : other = [] := hb
          rw [hother, List.append_nil]
          exact ha
      | some fact' =>
          exact ⟨fun hnil => ha.1 (List.append_eq_nil_iff.1 hnil).1, ha.2.merge hb.2⟩

theorem unique (ha : PublishedFor uses a) (hb : PublishedFor other b)
    (hsame : ∀ use, use ∈ uses ↔ use ∈ other) : a = b := by
  have hempty : uses = [] ↔ other = [] := by
    simp only [List.eq_nil_iff_forall_not_mem, hsame]
  cases a with
  | none =>
      cases b with
      | none => rfl
      | some fact => exact absurd (hempty.1 ha) hb.1
  | some fact =>
      cases b with
      | none => exact absurd (hempty.2 hb) ha.1
      | some fact' => rw [ha.2.unique hb.2 hsame]

end PublishedFor

/-! ## One block -/

section Block

variable {n : Nat} {layout : FunctionLayout n}

/-- A layout whose indices follow the local ids. -/
def AscendingIds (layout : FunctionLayout n) : Prop :=
  ∀ i j, i < j → (layout.localIds i).index < (layout.localIds j).index

theorem rootsToLocalIds_sorted (hids : AscendingIds layout) (roots : RootSet n) :
    (rootsToLocalIds layout roots).Pairwise fun a b => a.index < b.index := by
  rw [rootsToLocalIds, List.pairwise_map]
  refine List.Pairwise.imp (fun {i j} h => hids i j h) ?_
  exact (List.pairwise_lt_finRange n).sublist List.filter_sublist

theorem RowOf.serialized (hids : AscendingIds layout) {done : List (List ValueObservation)}
    {row : BufferedValueFact n} (h : RowOf layout done [] row) (htouched : done ≠ []) :
    FactOf done {
      classification := row.classification
      roots := rootsToLocalIds layout row.roots
      optionalTransfer := row.completedUseTransfer.getD .NotAttempted } := by
  have hreads := h.reads
  have hmutates := h.mutates
  have hroots := h.roots
  rw [List.append_nil] at hreads hmutates hroots
  refine ⟨hreads, hmutates, rootsToLocalIds_sorted hids _, hroots, ?_⟩
  cases hcompleted : row.completedUseTransfer with
  | none => exact absurd (h.unfinished hcompleted) htouched
  | some status => exact (h.finished status hcompleted).2

theorem bufferedFacts_lookup (hids : AscendingIds layout) (uses : List (List (ValueEvent n)))
    (value : HirValueId) :
    PublishedFor (observedUses layout value uses) ((bufferedFacts layout uses).lookup value) := by
  have hbuffer := BufferOf.uses layout uses
  rw [bufferedFacts, ValueFactBuffer.intoSerialized,
    lookup_map_value (fun row : BufferedValueFact n => ValueBorrowFact.mk row.classification
      (rootsToLocalIds layout row.roots) (row.completedUseTransfer.getD .NotAttempted))]
  cases hlookup : (uses.foldl ValueFactBuffer.runUse (.new n)).facts.lookup value with
  | none => exact (hbuffer.untouched value hlookup).1
  | some row =>
      obtain ⟨hrow, htouched⟩ := hbuffer.row value row hlookup
      have hdone := htouched.resolve_right (not_not.2 rfl)
      exact ⟨hdone, hrow.serialized hids hdone⟩

theorem bufferedFacts_keys (layout : FunctionLayout n) (uses : List (List (ValueEvent n))) :
    ((bufferedFacts layout uses).map Prod.fst).Nodup := by
  have hkeys := (BufferOf.uses layout uses).keys
  rw [bufferedFacts, ValueFactBuffer.intoSerialized, List.map_map]
  exact hkeys

end Block

/-! ## Functions -/

/-- A visit of a block whose value facts come out of the buffer. -/
structure BlockVisit {n : Nat} (layout : FunctionLayout n) where
  block : BlockId
  output : BlockOutput n
  uses : List (List (ValueEvent n))
  valueFacts : output.stats.valueFacts = bufferedFacts layout uses

/-- The analysis of one function: its layout, and the visits of its blocks in order. -/
structure FunctionVisits where
  hir : HirModule
  function : HirFunction
  analysis : AnalysedFunction
  analysed : analysedFunction hir function = some analysis
  visits : List (BlockVisit analysis.layout)

namespace FunctionVisits

variable (self : FunctionVisits)

def reachable : List BlockId := self.analysis.blocks.map fun block => block.id

/-- The uses that the last visit of a block completed. -/
def finalUses (block : BlockId) :
    List (List (ValueEvent (layoutLocalIds self.analysis.blocks).length)) :=
  match self.visits.reverse.find? fun visit => visit.block = block with
  | some visit => visit.uses
  | none => []

/-- The completed uses of an expression that count: those of the reachable blocks' last visits. -/
def completedUses (value : HirValueId) : List (List ValueObservation) :=
  self.reachable.flatMap fun block =>
    observedUses self.analysis.layout value (self.finalUses block)

/-- The facts of the visits in order, each overwriting those of the block's earlier visits. -/
def recordVisits (facts : BorrowFacts) : BorrowFacts :=
  self.visits.foldl (fun facts visit => facts.record visit.block visit.output) facts

/-- The report after the function: its visits recorded, and the last value facts merged. -/
def publish (report : BorrowFacts) : BorrowFacts :=
  (self.recordVisits { report with finalValueFactsByBlock := fun _ => none }).mergeValueFacts
    self.reachable

end FunctionVisits

/-- The report that a module's analysis starts from. -/
def BorrowFacts.empty : BorrowFacts :=
  ⟨fun _ => none, fun _ => none, fun _ => none, fun _ => none⟩

/-- The value facts of a module. -/
def publishAll (functions : List FunctionVisits) : BorrowFacts :=
  functions.foldl (fun report function => function.publish report) .empty

def completedUsesOf (functions : List FunctionVisits) (value : HirValueId) :
    List (List ValueObservation) :=
  functions.flatMap fun function => function.completedUses value

theorem layoutLocalIds_ascending (blocks : List HirBlock) :
    (layoutLocalIds blocks).Pairwise fun a b => a.index < b.index := by
  have htotal : Std.Total fun x y : LocalId => x.index ≤ y.index :=
    ⟨fun x y => Nat.le_total x.index y.index⟩
  have htrans : IsTrans LocalId fun x y => x.index ≤ y.index :=
    ⟨fun _ _ _ h h' => Nat.le_trans h h'⟩
  have hsorted := List.pairwise_insertionSort (fun x y : LocalId => x.index ≤ y.index)
    (((blocks.flatMap fun block => block.locals).map fun declared => declared.id).dedup)
  have hnodup : (layoutLocalIds blocks).Nodup :=
    ((List.perm_insertionSort _ _).nodup_iff).2 (List.nodup_dedup _)
  refine (hsorted.and hnodup).imp fun {x y} h => Nat.lt_of_le_of_ne h.1 fun heq => h.2 ?_
  cases x
  cases y
  exact congrArg _ heq

/-- The indices of a built layout follow the local ids. -/
theorem analysedFunction_ascending {hir : HirModule} {function : HirFunction}
    {a : AnalysedFunction} (h : analysedFunction hir function = some a) :
    AscendingIds a.layout := by
  obtain ⟨reachable, -, h⟩ := Option.bind_eq_some_iff.1 h
  obtain ⟨blocks, -, h⟩ := Option.bind_eq_some_iff.1 h
  obtain ⟨layout, hlayout, h⟩ := Option.bind_eq_some_iff.1 h
  cases h
  have hget : layout.localIds = (layoutLocalIds blocks).get := by
    rw [buildFunctionLayout] at hlayout
    split at hlayout
    · cases hlayout
    · obtain ⟨sourceRoots, -, hlayout⟩ := Option.bind_eq_some_iff.1 hlayout
      obtain ⟨visible, -, hlayout⟩ := Option.bind_eq_some_iff.1 hlayout
      obtain ⟨mayUse, -, hlayout⟩ := Option.bind_eq_some_iff.1 hlayout
      obtain ⟨mustUse, -, hlayout⟩ := Option.bind_eq_some_iff.1 hlayout
      obtain ⟨mayAssign, -, hlayout⟩ := Option.bind_eq_some_iff.1 hlayout
      cases hlayout
      rfl
  intro i j hlt
  simp only [hget]
  exact List.pairwise_iff_get.1 (layoutLocalIds_ascending blocks) i j hlt

theorem BorrowFacts.mergeValueFacts_valueFacts (facts : BorrowFacts) (blocks : List BlockId) :
    (facts.mergeValueFacts blocks).valueFacts = blocks.foldl (fun merged block =>
      ((facts.finalValueFactsByBlock block).getD []).foldl
        (fun (merged : HirValueId → Option ValueBorrowFact) fact =>
          Function.update merged fact.1 (some ((merged fact.1).elim fact.2
            fun existing => existing.merge fact.2))) merged) facts.valueFacts := by
  unfold mergeValueFacts
  dsimp only
  congr 1
  funext merged block
  congr 1
  funext merged fact
  cases merged fact.1 <;> rfl

namespace FunctionVisits

variable (self : FunctionVisits)

theorem recordVisits_final (facts : BorrowFacts) (block : BlockId) :
    (self.recordVisits facts).finalValueFactsByBlock block =
      match self.visits.reverse.find? fun visit => visit.block = block with
      | some visit => some (bufferedFacts self.analysis.layout visit.uses)
      | none => facts.finalValueFactsByBlock block := by
  have hgen : ∀ visits : List (BlockVisit self.analysis.layout),
      (visits.foldl (fun facts visit => facts.record visit.block visit.output)
          facts).finalValueFactsByBlock block =
        match visits.reverse.find? fun visit => visit.block = block with
        | some visit => some (bufferedFacts self.analysis.layout visit.uses)
        | none => facts.finalValueFactsByBlock block := by
    intro visits
    induction visits using List.reverseRecOn with
    | nil => rfl
    | append_singleton rest visit ih =>
        rw [List.foldl_append, List.foldl_cons, List.foldl_nil, List.reverse_append,
          List.reverse_singleton, List.singleton_append]
        by_cases heq : visit.block = block
        · subst heq
          simp [BorrowFacts.record, visit.valueFacts]
        · rw [List.find?_cons, decide_eq_false heq, ← ih]
          exact Function.update_of_ne (Ne.symm heq) _ _
  exact hgen self.visits

theorem recordVisits_valueFacts (facts : BorrowFacts) :
    (self.recordVisits facts).valueFacts = facts.valueFacts := by
  have hgen : ∀ (visits : List (BlockVisit self.analysis.layout)) (facts : BorrowFacts),
      (visits.foldl (fun facts visit => facts.record visit.block visit.output)
        facts).valueFacts = facts.valueFacts := by
    intro visits
    induction visits with
    | nil => exact fun _ => rfl
    | cons visit rest ih =>
        intro facts
        rw [List.foldl_cons, ih]
        rfl
  exact hgen self.visits facts

/-- Merging the kept facts of one block adds the uses of its last visit. -/
theorem publish_spec {report : BorrowFacts} {value : HirValueId}
    {before : List (List ValueObservation)}
    (h : PublishedFor before (report.valueFacts value)) :
    PublishedFor (before ++ self.completedUses value) ((self.publish report).valueFacts value) := by
  have hids := analysedFunction_ascending self.analysed
  have hgen : ∀ (blocks : List BlockId) (merged : HirValueId → Option ValueBorrowFact)
      (done : List (List ValueObservation)), PublishedFor done (merged value) →
      PublishedFor (done ++ blocks.flatMap fun block =>
          observedUses self.analysis.layout value (self.finalUses block))
        (blocks.foldl (fun merged block =>
          (((self.recordVisits { report with finalValueFactsByBlock := fun _ => none
              }).finalValueFactsByBlock block).getD []).foldl
            (fun (facts : HirValueId → Option ValueBorrowFact) fact =>
            Function.update facts fact.1 (some ((facts fact.1).elim fact.2
              fun existing => existing.merge fact.2))) merged) merged value) := by
    intro blocks
    induction blocks with
    | nil =>
        intro merged done hdone
        rw [List.flatMap_nil, List.append_nil]
        exact hdone
    | cons block rest ih =>
        intro merged done hdone
        rw [List.flatMap_cons, ← List.append_assoc, List.foldl_cons]
        refine ih _ _ ?_
        rw [self.recordVisits_final, finalUses]
        cases self.visits.reverse.find? fun visit => visit.block = block with
        | none =>
            show PublishedFor (done ++ []) (merged value)
            rw [List.append_nil]
            exact hdone
        | some visit =>
            simp only [Option.getD_some]
            have hrows := bufferedFacts_lookup hids visit.uses value
            have hkeys := bufferedFacts_keys self.analysis.layout visit.uses
            rw [foldl_merge_lookup ValueBorrowFact.merge _ hkeys]
            · exact hdone.merge hrows
            · intro table row
              cases table row.1 <;> simp [Option.merge]
  rw [publish, BorrowFacts.mergeValueFacts_valueFacts]
  refine hgen self.reachable _ before ?_
  rw [self.recordVisits_valueFacts]
  exact h

end FunctionVisits

theorem publishAll_spec (functions : List FunctionVisits) (value : HirValueId) :
    PublishedFor (completedUsesOf functions value) ((publishAll functions).valueFacts value) := by
  have hgen : ∀ (later : List FunctionVisits) (report : BorrowFacts)
      (done : List (List ValueObservation)), PublishedFor done (report.valueFacts value) →
      PublishedFor (done ++ completedUsesOf later value)
        ((later.foldl (fun report function => function.publish report) report).valueFacts
          value) := by
    intro later
    induction later with
    | nil =>
        intro report done hdone
        rw [completedUsesOf, List.flatMap_nil, List.append_nil]
        exact hdone
    | cons function rest ih =>
        intro report done hdone
        rw [completedUsesOf, List.flatMap_cons, ← List.append_assoc, List.foldl_cons]
        exact ih _ _ (function.publish_spec hdone)
  exact hgen functions .empty [] rfl

/-! ## Runs of the engine -/

/-- A transfer that makes its value facts through the buffer. -/
def BuffersFacts {n : Nat} (layout : FunctionLayout n) (transferBlock : BlockTransfer n) : Prop :=
  ∀ block s o, transferBlock block s = .ok o →
    ∃ uses, o.stats.valueFacts = bufferedFacts layout uses

/-- What a finished analysis publishes is what some visits of the function's blocks publish. -/
theorem analyzeFunction_publishes {hir : HirModule} {function : HirFunction} {a : AnalysedFunction}
    (hanalysed : analysedFunction hir function = some a)
    {transferBlock : BlockTransfer (layoutLocalIds a.blocks).length}
    (hbuffers : BuffersFacts a.layout transferBlock) {report : BorrowFacts}
    {final : EngineState (layoutLocalIds a.blocks).length}
    (h : analyzeFunction hir function a transferBlock report = some (.ok final)) :
    ∃ visits, final.facts =
      (FunctionVisits.mk hir function a hanalysed visits).publish report := by
  rw [analyzeFunction] at h
  cases hinitial : initialState a.layout function with
  | error error =>
      rw [hinitial] at h
      cases h
  | ok initial =>
      rw [hinitial] at h
      simp only [Option.map_eq_some_iff] at h
      obtain ⟨ran, hrun, hmapped⟩ := h
      cases ran with
      | error error => cases hmapped
      | ok settled =>
          cases hmapped
          have hvisits : ∃ visits : List (BlockVisit a.layout), settled.facts =
              visits.foldl (fun facts visit => facts.record visit.block visit.output)
                { report with finalValueFactsByBlock := fun _ => none } := by
            refine Worklist.run_facts (P := fun facts => ∃ visits : List (BlockVisit a.layout),
              facts = visits.foldl (fun facts visit => facts.record visit.block visit.output)
                { report with finalValueFactsByBlock := fun _ => none }) ?_ ⟨[], rfl⟩ hrun
            intro facts b s o hvisit hbefore
            obtain ⟨visits, rfl⟩ := hbefore
            obtain ⟨block, -, htransfer⟩ := functionWorklist_visit hvisit
            obtain ⟨uses, huses⟩ := hbuffers block s o htransfer
            exact ⟨visits ++ [⟨b, o, uses, huses⟩], by rw [List.foldl_append]; rfl⟩
          obtain ⟨visits, hfacts⟩ := hvisits
          refine ⟨visits, ?_⟩
          simp only [hfacts]
          rfl

/-! ## The published permission -/

/-- A transfer is published exactly where every completed use ended with one, the fact names each
root once in order, and the same completed uses in another order publish the same fact. -/
theorem value_facts_unanimous (functions : List FunctionVisits) (value : HirValueId) :
    (match (publishAll functions).valueFacts value with
      | none => completedUsesOf functions value = []
      | some fact =>
          completedUsesOf functions value ≠ [] ∧
          (fact.optionalTransfer = .Transfer ↔
            ∀ use ∈ completedUsesOf functions value, endedWith use = .Transfer) ∧
          (fact.optionalTransfer = .NotAttempted ↔
            ∀ use ∈ completedUsesOf functions value, endedWith use = .NotAttempted) ∧
          (fact.optionalTransfer = .Borrow ↔
            (¬ ∀ use ∈ completedUsesOf functions value, endedWith use = .Transfer) ∧
            ¬ ∀ use ∈ completedUsesOf functions value, endedWith use = .NotAttempted) ∧
          (fact.roots.Pairwise fun a b => a.index < b.index) ∧
          (∀ target, target ∈ fact.roots ↔
            ∃ use ∈ completedUsesOf functions value, ∃ seen ∈ use, target ∈ seen.roots)) ∧
    ∀ other, (completedUsesOf other value).Perm (completedUsesOf functions value) →
      (publishAll other).valueFacts value = (publishAll functions).valueFacts value := by
  have hspec := publishAll_spec functions value
  constructor
  · cases hfact : (publishAll functions).valueFacts value with
    | none =>
        rw [hfact] at hspec
        exact hspec
    | some fact =>
        rw [hfact] at hspec
        obtain ⟨hused, hfactOf⟩ := hspec
        have htransfer := hfactOf.status.transfer
        have hnone := hfactOf.status.notAttempted
        rw [List.forall_mem_map] at htransfer hnone
        refine ⟨hused, htransfer, hnone, ?_, hfactOf.roots_sorted, fun target => ?_⟩
        · rw [← htransfer, ← hnone]
          cases fact.optionalTransfer <;> simp
        · rw [hfactOf.mem_roots]
          simp only [List.mem_flatten]
          constructor
          · intro hroot
            obtain ⟨seen, ⟨use, huse, hseen⟩, htarget⟩ := hroot
            exact ⟨use, huse, seen, hseen, htarget⟩
          · intro hroot
            obtain ⟨use, huse, seen, hseen, htarget⟩ := hroot
            exact ⟨seen, ⟨use, huse, hseen⟩, htarget⟩
  · intro other hperm
    exact (publishAll_spec other value).unique hspec fun _ => hperm.mem_iff

end Moth.Borrow
