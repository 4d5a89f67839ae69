import Moth.Hir.SelectionExact

/-!
# Uses, and the order of the roots

Every use of a selected block is reported, each block once. What the order of
the roots decides is the order of the report and which of the functions with a
project context is found first; the selection, the sets of call targets and
how often each use is reported depend on the set of the roots alone.
-/

namespace Moth.Hir

open Moth.Lib Moth.Source

variable {hir : HirModule} {side : HirSideFacts} {facts : HirModuleLinkFacts}
  {roots : List FunctionId} {seen : List LinkNode} {state : UnionState}

/-- The uses of a list of blocks under their functions. -/
def usesOf (hir : HirModule) (side : HirSideFacts) (selected : List (FunctionId × HirBlock)) :
    ReachedUses :=
  (selected.map fun entry => blockUses hir side entry.1 entry.2).foldl ReachedUses.merge .empty

/-- The function found first is described as its own provenance and declaration say. -/
def HirSideFacts.projectContextFunction (side : HirSideFacts) (functionId : FunctionId) :
    Option ReachableProjectContextFunction :=
  let provenance := (side.functionProvenance functionId).getD ∅
  if containsClass provenance .ProjectContext then
    some ⟨functionId, provenance, side.functionSpan functionId⟩
  else none

/-- A block that a reached function reaches. -/
def HirModule.Selects (hir : HirModule) (roots : List FunctionId) (f : FunctionId)
    (block : HirBlock) : Prop :=
  ∃ function ∈ hir.functions, function.id = f ∧ hir.ReachedFrom roots f ∧
    hir.Reaches function.entry block.id ∧ hir.blockById block.id = some block

/-- What the roots reach is selected, and all its facts are reported once. -/
structure ReachabilityExact (hir : HirModule) (side : HirSideFacts) (roots : List FunctionId)
    (reachability : HirReachability) : Prop where
  selection : SelectionExact hir roots reachability.backendSelection
  uses : ∃ selected : List (FunctionId × HirBlock),
    (selected.map fun entry => entry.2.id).Nodup ∧
    (∀ f block, (f, block) ∈ selected ↔ hir.Selects roots f block) ∧
    reachability.uses = usesOf hir side selected
  provenance : ∀ member, member ∈ reachability.reachableFunctionProvenance ↔
    ∃ f, hir.ReachedFrom roots f ∧ ∃ provenance, side.functionProvenance f = some provenance ∧
      member ∈ provenance
  projectContext : reachability.firstProjectContextFunction =
    (reachability.backendSelection.blocksByFunction.map
      HirSelectedFunctionBlocks.functionId).findSome? side.projectContextFunction
  rootsFirst : roots.eraseDups <+: reachability.backendSelection.blocksByFunction.map
    HirSelectedFunctionBlocks.functionId
  callersBefore : ∀ before f after, reachability.backendSelection.blocksByFunction.map
    HirSelectedFunctionBlocks.functionId = before ++ f :: after →
      f ∈ roots ∨ ∃ g ∈ before, hir.Calls g f

/-! ## The uses of what is seen -/

/-- The blocks of some rows, under their owners. -/
def selectedOf (hir : HirModule) (rows : List HirBlockLinkFacts) : List (FunctionId × HirBlock) :=
  rows.filterMap fun row => (hir.blockById row.blockId).map fun block => (row.functionId, block)

theorem mem_selectedOf {rows : List HirBlockLinkFacts} {f : FunctionId} {block : HirBlock} :
    (f, block) ∈ selectedOf hir rows ↔
      ∃ row ∈ rows, row.functionId = f ∧ hir.blockById row.blockId = some block := by
  rw [selectedOf, List.mem_filterMap]
  refine exists_congr fun row => and_congr_right fun _ => ?_
  rw [Option.map_eq_some_iff]
  constructor
  · rintro ⟨found, hfound, heq⟩
    cases heq
    exact ⟨rfl, hfound⟩
  · rintro ⟨rfl, hfound⟩
    exact ⟨block, hfound, rfl⟩

theorem selectedOf_exact {rows : List HirBlockLinkFacts}
    (hrows : ∀ row ∈ rows, ∃ block, RowExact hir side row.functionId row block) :
    (selectedOf hir rows).map (fun entry => entry.2.id) = rows.map HirBlockLinkFacts.blockId ∧
      (selectedOf hir rows).map (fun entry => blockUses hir side entry.1 entry.2) =
        rows.map HirBlockLinkFacts.directUses := by
  induction rows with
  | nil => exact ⟨rfl, rfl⟩
  | cons row rest ih =>
      obtain ⟨block, hexact⟩ := hrows row List.mem_cons_self
      obtain ⟨hids, huses⟩ := ih fun other hother => hrows other (List.mem_cons_of_mem _ hother)
      have hcons : selectedOf hir (row :: rest) =
          (row.functionId, block) :: selectedOf hir rest := by
        rw [selectedOf, List.filterMap_cons, hexact.found]
        rfl
      rw [hcons, List.map_cons, List.map_cons, List.map_cons, List.map_cons, hids, huses,
        hexact.uses, HirModule.blockById_id hexact.found]
      exact ⟨rfl, rfl⟩

theorem Uniting.uses_exact (hvalid : hir.Validated side) (hfacts : ModuleFacts hir side facts)
    (hdisjoint : hir.DisjointFlow) (h : Uniting hir facts roots seen [] state)
    (hempty : state.blockWorklist = []) :
    ∃ selected : List (FunctionId × HirBlock), (selected.map fun entry => entry.2.id).Nodup ∧
      (∀ f block, (f, block) ∈ selected ↔ hir.Selects roots f block) ∧
      state.uses = usesOf hir side selected := by
  have hrows : ∀ row ∈ facts.rowsOf seen, ∃ block, RowExact hir side row.functionId row block := by
    intro row hrow
    obtain ⟨function, -, -, -, block, hexact⟩ := h.rowsOf_exact hfacts hdisjoint hrow
    exact ⟨block, hexact.owner.symm ▸ hexact⟩
  obtain ⟨hids, huses⟩ := selectedOf_exact hrows
  refine ⟨selectedOf hir (facts.rowsOf seen), ?_, fun f block => ?_, ?_⟩
  · rw [hids]
    exact rowsOf_nodup hfacts h.exploring.nodup
  · rw [mem_selectedOf]
    constructor
    · rintro ⟨row, hrow, rfl, hblock⟩
      obtain ⟨function, hfunction, hseen, hreach, _, hexact⟩ :=
        h.rowsOf_exact hfacts hdisjoint hrow
      have hid := HirModule.blockById_id hblock
      refine ⟨function, hfunction, hexact.owner.symm, ?_, hid.symm ▸ hreach, hid.symm ▸ hblock⟩
      rw [hexact.owner]
      exact (h.mem_functions hvalid hfacts hdisjoint hempty _).1
        ((h.visitedFunctions _).2 hseen)
    · rintro ⟨function, hfunction, rfl, hreached, hreach, hblock⟩
      obtain ⟨row, found, hrow, hid, hexact⟩ := row_of_seen hfacts hfunction hreach hdisjoint
      have hseen := (h.visitedFunctions _).1
        ((h.mem_functions hvalid hfacts hdisjoint hempty _).2 hreached)
      have hin := h.sees_blocks hfacts hdisjoint hempty hfunction hseen hreach
      exact ⟨row, mem_rowsOf.2 ⟨_, hin, hrow⟩, hexact.owner, hid ▸ hblock⟩
  · rw [h.uses, usesOf, huses]

theorem projectContextFunction_eq (hfacts : ModuleFacts hir side facts) {f : FunctionId}
    (hf : f ∈ hir.functions.map HirFunction.id) :
    facts.projectContextFunction f = side.projectContextFunction f := by
  obtain ⟨function, hfunction, rfl⟩ := List.mem_map.1 hf
  have hrow : facts.factsFor function.id = some (function.linkFacts side) :=
    hfacts.factsFor_iff.2 ⟨(hfacts.functions _).2 ⟨function, hfunction, rfl⟩, rfl⟩
  rw [HirModuleLinkFacts.projectContextFunction, hrow]
  rfl

theorem findSome?_congr {α β : Type} {f g : α → Option β} {items : List α}
    (h : ∀ item ∈ items, f item = g item) : items.findSome? f = items.findSome? g := by
  induction items with
  | nil => rfl
  | cons item rest ih =>
      rw [List.findSome?_cons, List.findSome?_cons, h item List.mem_cons_self,
        ih fun other hother => h other (List.mem_cons_of_mem _ hother)]

theorem Uniting.reachabilityExact (hvalid : hir.Validated side)
    (hfacts : ModuleFacts hir side facts) (hdisjoint : hir.DisjointFlow)
    (h : Uniting hir facts roots seen [] state) (hempty : state.blockWorklist = []) :
    ReachabilityExact hir side roots state.finish := by
  have hids : state.finish.backendSelection.blocksByFunction.map
      HirSelectedFunctionBlocks.functionId = state.visitedFunctionOrder := by
    show List.map _ (List.map _ state.visitedFunctionOrder) = _
    rw [List.map_map]
    exact List.map_id _
  have hseen (f : FunctionId) : .inl f ∈ seen ↔ hir.ReachedFrom roots f :=
    (h.visitedFunctions f).symm.trans (h.mem_functions hvalid hfacts hdisjoint hempty f)
  refine ⟨h.selectionExact hvalid hfacts hdisjoint hempty,
    h.uses_exact hvalid hfacts hdisjoint hempty, fun member => ?_, ?_, ?_, ?_⟩
  · refine (h.provenance member).trans (exists_congr fun f => ?_)
    rw [← hseen f]
    refine and_congr_right fun hf => ?_
    obtain ⟨function, hfunction, rfl⟩ := List.mem_map.1 (h.knownFunctions f (.inl hf))
    obtain ⟨provenance, hprovenance⟩ :=
      Option.isSome_iff_exists.1 (hvalid.provenance function hfunction)
    have hrow : facts.factsFor function.id = some (function.linkFacts side) :=
      hfacts.factsFor_iff.2 ⟨(hfacts.functions _).2 ⟨function, hfunction, rfl⟩, rfl⟩
    have hsame : (function.linkFacts side).syntheticInterfaceProvenance = provenance := by
      show (side.functionProvenance function.id).getD ∅ = _
      rw [hprovenance]
      rfl
    rw [hrow, hprovenance]
    constructor
    · rintro ⟨row, heq, hin⟩
      cases heq
      exact ⟨provenance, rfl, hsame ▸ hin⟩
    · rintro ⟨found, heq, hin⟩
      cases heq
      exact ⟨_, rfl, hsame.symm ▸ hin⟩
  · rw [hids]
    refine h.projectContext.trans (findSome?_congr fun f hf => ?_)
    have hf' := (h.visitedFunctionOrder_mem f).1 hf
    exact projectContextFunction_eq hfacts (h.knownFunctions f (.inl hf'))
  · rw [hids]
    exact h.discovered.starts_prefix
  · rw [hids]
    exact h.discovered.foundBefore

end Moth.Hir
