import Moth.Hir.LinkFactsExact
import Moth.Hir.Reachability

/-!
# The facts of a validated module

Collecting the link facts of a module whose functions have disjoint control
flow succeeds. Functions and blocks are listed under increasing ids, so a
binary search finds the row of each.
-/

namespace Moth.Hir

open Moth.Lib Moth.Source

/-- No block is reached from two functions. -/
def HirModule.DisjointFlow (hir : HirModule) : Prop :=
  ∀ function ∈ hir.functions, ∀ other ∈ hir.functions, ∀ b,
    hir.Reaches function.entry b → hir.Reaches other.entry b → function = other

/-- The facts a function is listed with. -/
def HirFunction.linkFacts (side : HirSideFacts) (function : HirFunction) : HirFunctionLinkFacts :=
  ⟨function.id, function.entry, (side.functionProvenance function.id).getD ∅,
    side.functionSpan function.id⟩

/-- What the collected facts say of a module. -/
structure ModuleFacts (hir : HirModule) (side : HirSideFacts) (facts : HirModuleLinkFacts) :
    Prop where
  functionsAscending : facts.functions.Pairwise fun row other =>
    row.functionId.index < other.functionId.index
  functions : ∀ row, row ∈ facts.functions ↔
    ∃ function ∈ hir.functions, row = function.linkFacts side
  blocksAscending : facts.blocks.Pairwise fun row other => row.blockId.index < other.blockId.index
  rows : ∀ row ∈ facts.blocks, ∃ function ∈ hir.functions,
    hir.Reaches function.entry row.blockId ∧ ∃ block, RowExact hir side function.id row block
  covered : ∀ function ∈ hir.functions, ∀ b, hir.Reaches function.entry b →
    ∃ row ∈ facts.blocks, row.blockId = b
  complete : ∀ function ∈ hir.functions, ∀ b, hir.Reaches function.entry b → ∀ block,
    hir.blockById b = some block → ∀ callee ∈ block.localCalls,
      ∃ row ∈ facts.blocks, row.functionId = function.id ∧ callee ∈ row.directUserCalls

variable {hir : HirModule} {side : HirSideFacts}

theorem collectFunctions_rows (h : hir.Validated side) {functions : List HirFunction}
    (hfunctions : ∀ function ∈ functions, function ∈ hir.functions) (facts : HirModuleLinkFacts) :
    ∃ rows, List.Forall₂ (FunctionRows hir side) functions rows ∧
      collectFunctions hir side functions facts = some (.ok ⟨
        facts.functions ++ functions.map (HirFunction.linkFacts side),
        facts.blocks ++ rows.flatten⟩) := by
  induction functions generalizing facts with
  | nil =>
      refine ⟨[], .nil, ?_⟩
      rw [collectFunctions, List.map_nil, List.flatten_nil, List.append_nil, List.append_nil]
  | cons function rest ih =>
      have hmem := hfunctions function List.mem_cons_self
      obtain ⟨provenance, hprovenance⟩ := Option.isSome_iff_exists.1 (h.provenance function hmem)
      obtain ⟨first, hrun, hfirst⟩ := collectFunction_rows h hmem
      obtain ⟨rows, hall, heq⟩ := ih (fun other hother => hfunctions other
          (List.mem_cons_of_mem _ hother))
        ⟨facts.functions ++ [function.linkFacts side], facts.blocks ++ first⟩
      refine ⟨first :: rows, .cons hfirst hall, ?_⟩
      rw [collectFunctions, hprovenance]
      simp only [hrun, Option.bind_eq_bind, Option.bind_some]
      have hrow : (⟨function.id, function.entry, provenance, side.functionSpan function.id⟩ :
          HirFunctionLinkFacts) = function.linkFacts side := by
        rw [HirFunction.linkFacts, hprovenance]
        rfl
      rw [hrow, heq, List.map_cons, List.flatten_cons, List.append_assoc, List.append_assoc]
      rfl

theorem mem_flatten_iff {functions : List HirFunction} {rows : List (List HirBlockLinkFacts)}
    (hall : List.Forall₂ (FunctionRows hir side) functions rows) {row : HirBlockLinkFacts} :
    row ∈ rows.flatten ↔ ∃ function ∈ functions, ∃ own ∈ rows,
      FunctionRows hir side function own ∧ row ∈ own := by
  rw [List.mem_flatten]
  constructor
  · rintro ⟨own, hown, hrow⟩
    obtain ⟨function, hfunction, hexact⟩ := forall₂_exists_left hall hown
    exact ⟨function, hfunction, own, hown, hexact, hrow⟩
  · rintro ⟨_, _, own, hown, _, hrow⟩
    exact ⟨own, hown, hrow⟩

theorem FunctionRows.mem {function : HirFunction} {rows : List HirBlockLinkFacts}
    (h : FunctionRows hir side function rows) {row : HirBlockLinkFacts} (hrow : row ∈ rows) :
    hir.Reaches function.entry row.blockId := (h.reached row.blockId).1 (List.mem_map_of_mem hrow)

theorem flatten_nodup (hdisjoint : hir.DisjointFlow) {functions : List HirFunction}
    (hnodup : functions.Nodup) (hfunctions : ∀ function ∈ functions, function ∈ hir.functions)
    {rows : List (List HirBlockLinkFacts)}
    (hall : List.Forall₂ (FunctionRows hir side) functions rows) :
    (rows.flatten.map HirBlockLinkFacts.blockId).Nodup := by
  induction hall with
  | nil => exact List.nodup_nil
  | @cons function own functions rows hfirst hrest ih =>
      obtain ⟨hnew, hnodup⟩ := List.nodup_cons.1 hnodup
      rw [List.flatten_cons, List.map_append]
      refine List.nodup_append.2 ⟨hfirst.nodup, ih hnodup fun other hother =>
        hfunctions other (List.mem_cons_of_mem _ hother), ?_⟩
      rintro b hb c hc rfl
      obtain ⟨row, hrow, rfl⟩ := List.mem_map.1 hc
      obtain ⟨other, hother, own', -, hexact, hin⟩ := (mem_flatten_iff hrest).1 hrow
      have hsame := hdisjoint function (hfunctions function List.mem_cons_self) other
        (hfunctions other (List.mem_cons_of_mem _ hother)) _ ((hfirst.reached _).1 hb)
        (hexact.mem hin)
      exact hnew (hsame ▸ hother)

theorem firstDuplicate_eq_none {α : Type} [DecidableEq α] {ids seen : List α} (h : ids.Nodup)
    (hseen : ∀ id ∈ ids, id ∉ seen) : firstDuplicate ids seen = none := by
  induction ids generalizing seen with
  | nil => rfl
  | cons id rest ih =>
      obtain ⟨hnew, hrest⟩ := List.nodup_cons.1 h
      rw [firstDuplicate, if_neg (hseen id List.mem_cons_self)]
      refine ih hrest fun other hother hin => ?_
      rcases List.mem_cons.1 hin with rfl | hin
      · exact hnew hother
      · exact hseen other (List.mem_cons_of_mem _ hother) hin

theorem reachabilityIndex_ok (h : hir.Validated side) : reachabilityIndex hir = .ok () := by
  rw [reachabilityIndex, firstDuplicate_eq_none h.functions fun _ _ => List.not_mem_nil]
  dsimp only
  rw [firstDuplicate_eq_none h.blocks fun _ _ => List.not_mem_nil]

theorem FunctionId.index_injective : Function.Injective FunctionId.index := by
  rintro ⟨i⟩ ⟨j⟩ rfl
  rfl

theorem BlockId.index_injective : Function.Injective BlockId.index := by
  rintro ⟨i⟩ ⟨j⟩ rfl
  rfl

theorem collectModuleFunctionLinkFacts_exact (h : hir.Validated side)
    (hdisjoint : hir.DisjointFlow) :
    ∃ facts, collectModuleFunctionLinkFacts hir side = some (.ok facts) ∧
      ModuleFacts hir side facts := by
  have hperm := List.mergeSort_perm hir.functions fun left right =>
    decide (left.id.index ≤ right.id.index)
  obtain ⟨rows, hall, heq⟩ := collectFunctions_rows h
    (fun function hfunction => hperm.mem_iff.1 hfunction) ⟨[], []⟩
  have hblocks := List.mergeSort_perm rows.flatten fun left right =>
    decide (left.blockId.index ≤ right.blockId.index)
  refine ⟨_, by
    rw [collectModuleFunctionLinkFacts, reachabilityIndex_ok h]
    simp only [heq, Option.bind_eq_bind, Option.bind_some, List.nil_append]
    rfl, ?_⟩
  refine ⟨?_, fun row => ?_, ?_, fun row hrow => ?_, fun function hfunction b hreach => ?_,
    fun function hfunction b hreach block hblock callee hcallee => ?_⟩
  · refine List.pairwise_map.2
      (mergeSort_key_ascending (fun function : HirFunction => function.id.index) ?_)
    have hids := h.functions.map FunctionId.index_injective
    rw [List.map_map] at hids
    exact hids
  · rw [List.mem_map]
    constructor
    · rintro ⟨function, hfunction, rfl⟩
      exact ⟨function, hperm.mem_iff.1 hfunction, rfl⟩
    · rintro ⟨function, hfunction, rfl⟩
      exact ⟨function, hperm.mem_iff.2 hfunction, rfl⟩
  · refine mergeSort_key_ascending (fun row : HirBlockLinkFacts => row.blockId.index) ?_
    have hids := (flatten_nodup hdisjoint (hperm.nodup_iff.2 h.functions.of_map)
      (fun function hfunction => hperm.mem_iff.1 hfunction) hall).map BlockId.index_injective
    rw [List.map_map] at hids
    exact hids
  · obtain ⟨function, hfunction, own, -, hexact, hin⟩ :=
      (mem_flatten_iff hall).1 (hblocks.mem_iff.1 hrow)
    exact ⟨function, hperm.mem_iff.1 hfunction, hexact.mem hin, hexact.exact_ row hin⟩
  · obtain ⟨own, hown, hexact⟩ := forall₂_exists_right hall (hperm.mem_iff.2 hfunction)
    obtain ⟨row, hrow, hid⟩ := List.mem_map.1 ((hexact.reached b).2 hreach)
    exact ⟨row, hblocks.mem_iff.2 (List.mem_flatten.2 ⟨own, hown, hrow⟩), hid⟩
  · obtain ⟨own, hown, hexact⟩ := forall₂_exists_right hall (hperm.mem_iff.2 hfunction)
    obtain ⟨row, hrow, rfl⟩ := List.mem_map.1 ((hexact.reached b).2 hreach)
    obtain ⟨recording, hrecording, hcalls⟩ := hexact.complete row hrow block hblock callee hcallee
    obtain ⟨_, howner⟩ := hexact.exact_ recording hrecording
    exact ⟨recording, hblocks.mem_iff.2 (List.mem_flatten.2 ⟨own, hown, hrecording⟩),
      howner.owner, hcalls⟩

end Moth.Hir
