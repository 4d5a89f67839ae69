import Moth.Problem.Validation

/-!
# What a validated problem guarantees

Validation runs in order and stops at the first failure, so a problem that
validates passed every check. Read back here are the facts that lookups and
walks rely on: rows carry their positions as ids, edges and points stay inside
the block table, and no block lists an event twice.
-/

namespace Moth.Problem

open Moth.Lib

theorem ensure_eq_ok {condition : Prop} [Decidable condition] {failure : ValidationFailure} :
    ensure condition failure = .ok () ↔ condition := by
  rw [ensure]
  split
  · next h => exact ⟨fun _ => h, fun _ => rfl⟩
  · next h => exact ⟨fun heq => (by cases heq), fun hc => absurd hc h⟩

theorem of_forM_ok {α : Type} {f : α → Checked Unit} {rows : List α}
    (h : rows.forM f = .ok ()) : ∀ row ∈ rows, f row = .ok () := by
  induction rows with
  | nil => exact fun _ hmem => absurd hmem List.not_mem_nil
  | cons first rest ih =>
      have hsteps : (f first >>= fun _ => rest.forM f) = .ok () := h
      obtain ⟨_, hfirst, hrest⟩ := bind_eq_ok.1 hsteps
      intro row hrow
      cases List.mem_cons.1 hrow with
      | inl heq => exact heq ▸ hfirst
      | inr hin => exact ih hrest row hin

/-! ## Dense tables -/

section Dense

variable {α : Type}

/-- Each row carries its position as its id, counting from a start. -/
def DenseFrom (id : α → Nat) (start : Nat) (rows : List α) : Prop :=
  ∀ (i : Nat) (row : α), rows[i]? = some row → id row = start + i

theorem denseFrom_cons {id : α → Nat} {start : Nat} {first : α} {rest : List α}
    (hfirst : id first = start) (hrest : DenseFrom id (start + 1) rest) :
    DenseFrom id start (first :: rest) := by
  intro i row hrow
  cases i with
  | zero =>
      cases hrow
      exact hfirst
  | succ i =>
      rw [List.getElem?_cons_succ] at hrow
      have := hrest i row hrow
      omega

theorem denseFrom_of_ok {kind : String} {id : α → Nat} {start : Nat} {rows : List α}
    (h : validateDenseFrom kind start (rows.map id) = .ok ()) : DenseFrom id start rows := by
  induction rows generalizing start with
  | nil => exact fun i row hrow => by cases hrow
  | cons first rest ih =>
      rw [List.map_cons, validateDenseFrom] at h
      obtain ⟨_, -, hlater⟩ := bind_eq_ok.1 h
      obtain ⟨_, hid, hrest⟩ := bind_eq_ok.1 hlater
      exact denseFrom_cons (ensure_eq_ok.1 hid) (ih hrest)

/-- Looking a key up in the rows of a dense table is indexing the table. -/
theorem lookup_denseFrom {β : Type} {space : IdSpace} (key : α → ProblemId space) (f : α → β)
    {start : Nat} {rows : List α} (hdense : DenseFrom (fun row => (key row).raw) start rows)
    (id : ProblemId space) :
    (rows.map fun row => (key row, f row)).lookup id =
      if start ≤ id.raw then (rows[id.raw - start]?).map f else none := by
  induction rows generalizing start with
  | nil =>
      rw [List.map_nil, List.lookup_nil]
      split <;> rfl
  | cons first rest ih =>
      have hfirst : (key first).raw = start := hdense 0 first rfl
      have hrest : DenseFrom (fun row => (key row).raw) (start + 1) rest := by
        intro i row hrow
        have := hdense (i + 1) row hrow
        omega
      rw [List.map_cons, List.lookup_cons, ih hrest]
      by_cases heq : id = key first
      · subst heq
        simp [hfirst]
      · have hne : id.raw ≠ start := by
          intro hraw
          apply heq
          cases id with
          | mk raw =>
              cases hkey : key first with
              | mk raw' =>
                  rw [hkey] at hfirst
                  subst hfirst
                  exact congrArg ProblemId.mk hraw
        have hbeq : (id == key first) = false := beq_eq_false_iff_ne.2 heq
        rw [hbeq]
        by_cases hlt : start ≤ id.raw
        · have hlater : start + 1 ≤ id.raw := by omega
          have hindex : id.raw - start = (id.raw - (start + 1)) + 1 := by omega
          simp only [if_pos hlt, if_pos hlater, hindex, List.getElem?_cons_succ]
        · have hlater : ¬ start + 1 ≤ id.raw := by omega
          simp only [if_neg hlt, if_neg hlater]

end Dense

namespace BorrowProblem

/-- The part of validation that walks over the graph rely on. -/
structure Validated (problem : BorrowProblem) : Prop where
  blocks : DenseFrom (fun block : CfgBlock => block.id.raw) 0 problem.controlFlow.blocks
  points : DenseFrom (fun point : ProgramPoint => point.id.raw) 0 problem.points
  events : DenseFrom (fun event : Event => event.id.raw) 0 problem.events
  edges : ∀ edge ∈ problem.controlFlow.edges,
    edge.source.raw < problem.controlFlow.blocks.length ∧
      edge.target.raw < problem.controlFlow.blocks.length
  pointBlocks : ∀ point ∈ problem.points, point.block.raw < problem.controlFlow.blocks.length
  eventsNodup : ∀ block ∈ problem.controlFlow.blocks, block.events.Nodup

variable {problem : BorrowProblem}

/-- The events a block was checked to list are new, and each is listed once. -/
theorem nodup_of_validateBlockEvents {block : CfgBlock} {ids : List EventId}
    {state final : List EventId × Option Nat}
    (h : ids.foldlM (problem.validateBlockEvent block) state = .ok final) :
    ids.Nodup ∧ (∀ id ∈ ids, id ∉ state.1) := by
  induction ids generalizing state with
  | nil => exact ⟨List.nodup_nil, fun _ hmem => absurd hmem List.not_mem_nil⟩
  | cons id rest ih =>
      rw [List.foldlM_cons] at h
      obtain ⟨next, hstep, hrest⟩ := bind_eq_ok.1 h
      obtain ⟨hnodup, hnew⟩ := ih hrest
      have hentry : id ∉ state.1 ∧ ∃ ordinal, next = (id :: state.1, some ordinal) := by
        rw [validateBlockEvent] at hstep
        cases hevent : problem.events[id.index]? with
        | none =>
            rw [hevent] at hstep
            cases hstep
        | some event =>
            rw [hevent] at hstep
            obtain ⟨_, hunseen, hstep⟩ := bind_eq_ok.1 hstep
            obtain ⟨point, -, hstep⟩ := bind_eq_ok.1 hstep
            obtain ⟨_, -, hstep⟩ := bind_eq_ok.1 hstep
            obtain ⟨_, -, hstep⟩ := bind_eq_ok.1 hstep
            cases hstep
            exact ⟨ensure_eq_ok.1 hunseen, _, rfl⟩
      obtain ⟨hunseen, ordinal, rfl⟩ := hentry
      refine ⟨List.nodup_cons.2 ⟨fun hin => hnew id hin List.mem_cons_self, hnodup⟩, ?_⟩
      intro other hother
      cases List.mem_cons.1 hother with
      | inl heq => exact heq ▸ hunseen
      | inr hin => exact fun hseen => hnew other hin (List.mem_cons_of_mem _ hseen)

theorem nodup_of_validateBlocks {blocks : List CfgBlock} {seen final : List EventId}
    (h : blocks.foldlM problem.validateBlock seen = .ok final) :
    ∀ block ∈ blocks, block.events.Nodup := by
  induction blocks generalizing seen with
  | nil => exact fun _ hmem => absurd hmem List.not_mem_nil
  | cons first rest ih =>
      rw [List.foldlM_cons] at h
      obtain ⟨next, hstep, hrest⟩ := bind_eq_ok.1 h
      intro block hblock
      cases List.mem_cons.1 hblock with
      | inl heq =>
          subst heq
          rw [validateBlock] at hstep
          obtain ⟨_, -, hstep⟩ := bind_eq_ok.1 hstep
          obtain ⟨_, -, hstep⟩ := bind_eq_ok.1 hstep
          obtain ⟨_, -, hstep⟩ := bind_eq_ok.1 hstep
          obtain ⟨_, -, hstep⟩ := bind_eq_ok.1 hstep
          obtain ⟨state, hevents, -⟩ := bind_eq_ok.1 hstep
          exact (nodup_of_validateBlockEvents hevents).1
      | inr hin => exact ih hrest block hin

theorem edges_of_validateEdges (h : problem.validateEdges = .ok ()) :
    ∀ edge ∈ problem.controlFlow.edges,
      edge.source.raw < problem.controlFlow.blocks.length ∧
        edge.target.raw < problem.controlFlow.blocks.length := by
  rw [validateEdges] at h
  obtain ⟨_, -, h⟩ := bind_eq_ok.1 h
  obtain ⟨_, -, h⟩ := bind_eq_ok.1 h
  obtain ⟨_, hedges, -⟩ := bind_eq_ok.1 h
  intro edge hedge
  obtain ⟨_, hsource, htarget⟩ := bind_eq_ok.1 (of_forM_ok hedges edge hedge)
  exact ⟨ensure_eq_ok.1 hsource, ensure_eq_ok.1 htarget⟩

theorem pointBlocks_of_validatePoints (h : problem.validatePoints = .ok ()) :
    ∀ point ∈ problem.points, point.block.raw < problem.controlFlow.blocks.length := by
  intro point hpoint
  rw [validatePoints] at h
  obtain ⟨_, hblock, -⟩ := bind_eq_ok.1 (of_forM_ok h point hpoint)
  exact ensure_eq_ok.1 hblock

theorem validated_of_ok (h : problem.validate = .ok ()) : problem.Validated := by
  rw [validate] at h
  obtain ⟨_, htables, h⟩ := bind_eq_ok.1 h
  obtain ⟨_, hedges, h⟩ := bind_eq_ok.1 h
  obtain ⟨_, -, h⟩ := bind_eq_ok.1 h
  obtain ⟨_, hpoints, h⟩ := bind_eq_ok.1 h
  obtain ⟨_, hblocks, -⟩ := bind_eq_ok.1 h
  rw [validateTables] at htables
  obtain ⟨_, -, htables⟩ := bind_eq_ok.1 htables
  obtain ⟨_, -, htables⟩ := bind_eq_ok.1 htables
  obtain ⟨_, -, htables⟩ := bind_eq_ok.1 htables
  obtain ⟨_, hblockIds, htables⟩ := bind_eq_ok.1 htables
  obtain ⟨_, hpointIds, htables⟩ := bind_eq_ok.1 htables
  obtain ⟨_, -, htables⟩ := bind_eq_ok.1 htables
  obtain ⟨_, -, htables⟩ := bind_eq_ok.1 htables
  obtain ⟨_, -, htables⟩ := bind_eq_ok.1 htables
  obtain ⟨_, -, htables⟩ := bind_eq_ok.1 htables
  obtain ⟨_, -, heventIds⟩ := bind_eq_ok.1 htables
  rw [validateBlocks] at hblocks
  obtain ⟨seen, hseen, -⟩ := bind_eq_ok.1 hblocks
  exact {
    blocks := denseFrom_of_ok hblockIds
    points := denseFrom_of_ok hpointIds
    events := denseFrom_of_ok heventIds
    edges := edges_of_validateEdges hedges
    pointBlocks := pointBlocks_of_validatePoints hpoints
    eventsNodup := nodup_of_validateBlocks hseen }

end BorrowProblem

end Moth.Problem
