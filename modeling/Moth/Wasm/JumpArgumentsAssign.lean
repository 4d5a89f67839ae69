import Moth.Lib.Table
import Moth.Wasm.JumpArguments

/-!
# The copies of a jump assign its arguments at once

A source that an earlier copy overwrites is saved before any copy runs, so what
each copy reads is what its source held at the jump. Snapshots are new locals,
which no destination is.
-/

namespace Moth.Wasm

open Moth.Datatypes Moth.Hir Moth.Lib

/-! ## What the transfers are -/

/-- The locals of an argument are those of its transfer, on one carrier. -/
structure Resolves (context : WasmFunctionLoweringContext) (target : HirBlock)
    (argument : HirJumpArgument) (t : JumpTransfer) : Prop where
  declared : ∃ l ∈ target.locals, l.id = argument.destination
  source : context.localMap argument.source = some t.source
  destination : context.localMap argument.destination = some t.destination
  sourceAbi : context.localTypeById t.source = some t.abi
  destinationAbi : context.localTypeById t.destination = some t.abi

theorem resolveJumpArgument_ok {context : WasmFunctionLoweringContext} {target : HirBlock}
    {destinations : List LocalId} {argument : HirJumpArgument} {t : JumpTransfer} :
    resolveJumpArgument context target destinations argument = .ok t ↔
      argument.destination ∉ destinations ∧ Resolves context target argument t := by
  constructor
  · intro h
    unfold resolveJumpArgument at h
    split at h
    · cases h
    · rename_i hdeclared
      split at h
      · cases h
      · rename_i hnew
        split at h
        · cases h
        · rename_i source hsource
          split at h
          · cases h
          · rename_i destination hdestination
            split at h
            · cases h
            · rename_i sourceAbi hsourceAbi
              split at h
              · cases h
              · rename_i destinationAbi hdestinationAbi
                split at h
                · cases h
                · rename_i habi
                  cases h
                  have heq : sourceAbi = destinationAbi := not_not.1 habi
                  refine ⟨hnew, ?_, hsource, hdestination, hsourceAbi, ?_⟩
                  · simpa using hdeclared
                  · rw [heq]
                    exact hdestinationAbi
  · intro h
    obtain ⟨hnew, hresolves⟩ := h
    have hdeclared : (target.locals.any fun l => decide (l.id = argument.destination)) = true := by
      simpa using hresolves.declared
    simp [resolveJumpArgument, hdeclared, hnew, hresolves.source, hresolves.destination,
      hresolves.sourceAbi, hresolves.destinationAbi]

/-- The lowering has transfers for exactly the argument lists with different
destinations whose locals it can move. -/
theorem collectJumpTransfers_ok {context : WasmFunctionLoweringContext} {target : HirBlock}
    {destinations : List LocalId} {args : List HirJumpArgument} {transfers : List JumpTransfer} :
    collectJumpTransfers context target destinations args = .ok transfers ↔
      (∀ a ∈ args, a.destination ∉ destinations) ∧ (args.map (·.destination)).Nodup ∧
        List.Forall₂ (Resolves context target) args transfers := by
  induction args generalizing destinations transfers with
  | nil =>
      rw [collectJumpTransfers]
      constructor
      · intro h
        cases h
        exact ⟨fun a ha => absurd ha List.not_mem_nil, List.nodup_nil, .nil⟩
      · intro h
        cases h.2.2
        rfl
  | cons argument rest ih =>
      rw [collectJumpTransfers, bind_eq_ok]
      constructor
      · intro h
        obtain ⟨transfer, hfirst, hrest⟩ := h
        obtain ⟨later, hlater, heq⟩ := bind_eq_ok.1 hrest
        cases heq
        obtain ⟨hnew, hresolves⟩ := resolveJumpArgument_ok.1 hfirst
        obtain ⟨hall, hnodup, hforall⟩ := ih.1 hlater
        refine ⟨?_, ?_, .cons hresolves hforall⟩
        · intro a ha
          rcases List.mem_cons.1 ha with heq | hmem
          · rw [heq]
            exact hnew
          · exact fun hin => hall a hmem (List.mem_append_left _ hin)
        · rw [List.map_cons, List.nodup_cons]
          refine ⟨?_, hnodup⟩
          intro hmem
          obtain ⟨a, ha, heq⟩ := List.mem_map.1 hmem
          exact hall a ha (List.mem_append_right _ (List.mem_singleton.2 heq))
      · intro h
        obtain ⟨hall, hnodup, hforall⟩ := h
        rw [List.map_cons, List.nodup_cons] at hnodup
        cases hforall with
        | @cons _ transfer _ later hresolves hforall =>
            refine ⟨transfer, ?_, ?_⟩
            · exact resolveJumpArgument_ok.2 ⟨hall argument List.mem_cons_self, hresolves⟩
            · rw [ih.2 ⟨?_, hnodup.2, hforall⟩]
              · rfl
              · intro a ha hin
                rcases List.mem_append.1 hin with hold | hsame
                · exact hall a (List.mem_cons_of_mem _ ha) hold
                · exact hnodup.1 (List.mem_map.2 ⟨a, ha, List.mem_singleton.1 hsame⟩)

/-! ## What the copies do -/

/-- The locals a statement moves between. -/
def WasmLirStmt.move : WasmLirStmt → Nat × Nat
  | .Copy dst src => (dst.index, src.index)

/-- The locals of a statement are allocated. -/
def WasmLirStmt.Within (bound : Nat) : WasmLirStmt → Prop
  | .Copy dst src => dst.index < bound ∧ src.index < bound

theorem WasmLirStmt.Within.mono {bound more : Nat} {s : WasmLirStmt} (h : s.Within bound)
    (hle : bound ≤ more) : s.Within more := by
  cases s with
  | Copy dst src => exact ⟨Nat.lt_of_lt_of_le h.1 hle, Nat.lt_of_lt_of_le h.2 hle⟩

theorem localIndex_of_lt {context : WasmFunctionLoweringContext} {w : WasmLirLocalId}
    (h : w.index < context.localTypes.length) :
    localIndex w (buildLocalLayout context) = .ok w.index :=
  localIndex_buildLocalLayout (List.getElem?_eq_getElem h)

/-- Emitted copies run as moves and leave the operand stack as it was. -/
theorem emitStmts_runs {context : WasmFunctionLoweringContext} {statements : List WasmLirStmt}
    (h : ∀ s ∈ statements, s.Within context.localTypes.length) :
    ∃ code, emitStmts (buildLocalLayout context) statements = .ok code ∧
      ∀ {V : Type} (locals : Nat → V) (stack : List V), execLocals code locals stack =
        some (runMoves (statements.map WasmLirStmt.move) locals, stack) := by
  induction statements with
  | nil => exact ⟨[], rfl, fun _ _ => rfl⟩
  | cons s rest ih =>
      obtain ⟨later, hlater, hrun⟩ := ih fun other hmem => h other (List.mem_cons_of_mem _ hmem)
      obtain ⟨codes, hcodes, hflat⟩ := bind_eq_ok.1 hlater
      cases s with
      | Copy dst src =>
          have hwithin := h _ List.mem_cons_self
          have hsrc : localIndex src (buildLocalLayout context) = .ok src.index :=
            localIndex_of_lt hwithin.2
          have hdst : localIndex dst (buildLocalLayout context) = .ok dst.index :=
            localIndex_of_lt hwithin.1
          have hfirst : emitStmt (buildLocalLayout context) (.Copy dst src) =
              .ok [.LocalGet src.index, .LocalSet dst.index] := by
            rw [emitStmt, hsrc, ok_bind, hdst, ok_bind]
          refine ⟨.LocalGet src.index :: .LocalSet dst.index :: later, ?_, ?_⟩
          · rw [emitStmts, mapM_cons_ok.2 ⟨_, codes, hfirst, hcodes, rfl⟩, ok_bind]
            cases hflat
            rfl
          · intro V locals stack
            rw [execLocals, execLocals, hrun]
            rfl

/-! ## The saved sources -/

/-- The invariant of the loop that saves sources: the snapshots are new locals,
each of its own, and their sources are locals from before. -/
structure Captures (start : WasmSourceLocals) (state : CapturedSources) : Prop where
  extended : start.Extends state.context.toWasmFunctionLoweringContext
  localMap : state.context.localMap = start.localMap
  source : ∀ c ∈ state.captured, c.1.index < start.localTypes.length
  fresh : ∀ c ∈ state.captured, start.localTypes.length ≤ c.2.index
  snapshot : ∀ c ∈ state.captured, c.2.index < state.context.localTypes.length
  nodup : (state.captured.map fun c => c.2.index).Nodup
  statements : state.statements = state.captured.map fun c => .Copy c.2 c.1

theorem Captures.start (context : WasmSourceLocals) : Captures context ⟨context, [], []⟩ where
  extended := WasmFunctionLoweringContext.Extends.refl _
  localMap := rfl
  source := fun _ hc => absurd hc List.not_mem_nil
  fresh := fun _ hc => absurd hc List.not_mem_nil
  snapshot := fun _ hc => absurd hc List.not_mem_nil
  nodup := List.nodup_nil
  statements := rfl

theorem Captures.save {start : WasmSourceLocals} {state : CapturedSources}
    (h : Captures start state) {t : JumpTransfer}
    (ht : t.source.index < start.localTypes.length) : Captures start (state.save t) where
  extended := h.extended.trans (WasmFunctionLoweringContext.extends_allocTemp _ t.abi)
  localMap := h.localMap
  source := by
    intro c hc
    rcases List.mem_append.1 hc with hold | hnew
    · exact h.source c hold
    · rw [List.mem_singleton.1 hnew]
      exact ht
  fresh := by
    intro c hc
    rcases List.mem_append.1 hc with hold | hnew
    · exact h.fresh c hold
    · rw [List.mem_singleton.1 hnew]
      exact h.extended.length_le
  snapshot := by
    intro c hc
    show c.2.index < (state.context.localTypes ++ [t.abi]).length
    rw [List.length_append, List.length_singleton]
    rcases List.mem_append.1 hc with hold | hnew
    · have := h.snapshot c hold
      omega
    · rw [List.mem_singleton.1 hnew]
      exact Nat.lt_succ_self _
  nodup := by
    show ((state.captured ++ [_]).map _).Nodup
    rw [List.map_append, List.nodup_append]
    refine ⟨h.nodup, List.nodup_singleton _, ?_⟩
    intro a ha b hb
    obtain ⟨c, hc, rfl⟩ := List.mem_map.1 ha
    have hlt := h.snapshot c hc
    have hb' : b = state.context.localTypes.length := List.mem_singleton.1 hb
    omega
  statements := by
    show state.statements ++ [_] = (state.captured ++ [_]).map _
    rw [h.statements, List.map_append]
    rfl

theorem Captures.captureSources {start : WasmSourceLocals} {prior transfers : List JumpTransfer}
    {state : CapturedSources} (h : Captures start state)
    (hlt : ∀ t ∈ transfers, t.source.index < start.localTypes.length) :
    Captures start (captureSources prior transfers state) := by
  induction transfers generalizing prior state with
  | nil => exact h
  | cons t rest ih =>
      have hrest : ∀ t ∈ rest, t.source.index < start.localTypes.length :=
        fun t ht => hlt t (List.mem_cons_of_mem _ ht)
      rw [Wasm.captureSources]
      split
      · exact ih (h.save (hlt t List.mem_cons_self)) hrest
      · exact ih h hrest

theorem captureSources_mono {prior transfers : List JumpTransfer} {state : CapturedSources}
    {source : WasmLirLocalId} (h : source ∈ state.captured.map Prod.fst) :
    source ∈ (captureSources prior transfers state).captured.map Prod.fst := by
  induction transfers generalizing prior state with
  | nil => exact h
  | cons t rest ih =>
      rw [captureSources]
      split
      · refine ih ?_
        show source ∈ (state.captured ++ [_]).map Prod.fst
        rw [List.map_append]
        exact List.mem_append_left _ h
      · exact ih h

/-- One transfer writes what another reads. -/
def Clobbers (p t : JumpTransfer) : Prop := p.source ≠ p.destination ∧ p.destination = t.source

/-- Every source that an earlier transfer overwrites was saved. -/
theorem captureSources_covers {prior transfers : List JumpTransfer} {state : CapturedSources} :
    let saved := (captureSources prior transfers state).captured.map Prod.fst
    (∀ t ∈ transfers, ∀ p ∈ prior, Clobbers p t → t.source ∈ saved) ∧
      transfers.Pairwise fun p t => Clobbers p t → t.source ∈ saved := by
  induction transfers generalizing prior state with
  | nil => exact ⟨fun t ht => absurd ht List.not_mem_nil, .nil⟩
  | cons t rest ih =>
      intro saved
      have hstep : ∃ state', captureSources prior (t :: rest) state =
          captureSources (prior ++ [t]) rest state' ∧
          (overwrites prior t.source = true → t.source ∈ state'.captured.map Prod.fst) := by
        rw [captureSources]
        split
        · refine ⟨_, rfl, fun _ => ?_⟩
          show t.source ∈ (state.captured ++ [_]).map Prod.fst
          rw [List.map_append]
          exact List.mem_append_right _ List.mem_cons_self
        · rename_i hcond
          refine ⟨_, rfl, fun hover => ?_⟩
          have hany : (state.captured.any fun c => decide (c.1 = t.source)) = true := by
            by_contra hno
            exact hcond ⟨hover, hno⟩
          obtain ⟨c, hc, heq⟩ := List.any_eq_true.1 hany
          exact List.mem_map.2 ⟨c, hc, of_decide_eq_true heq⟩
      obtain ⟨state', heq, hcovered⟩ := hstep
      have hsaved : saved = (captureSources (prior ++ [t]) rest state').captured.map Prod.fst := by
        rw [← heq]
      obtain ⟨hprior, hpairwise⟩ := @ih (prior ++ [t]) state'
      rw [← hsaved] at hprior hpairwise
      refine ⟨?_, List.pairwise_cons.2 ⟨?_, hpairwise⟩⟩
      · intro u hu p hp hclobbers
        rcases List.mem_cons.1 hu with rfl | hrest
        · rw [hsaved]
          refine captureSources_mono (hcovered (List.any_eq_true.2 ⟨p, hp, ?_⟩))
          exact decide_eq_true hclobbers
        · exact hprior u hrest p (List.mem_append_left _ hp) hclobbers
      · intro u hu
        exact hprior u hu t (List.mem_append_right _ (List.mem_singleton.2 rfl))

/-! ## The transfer as an assignment -/

section Assignment

variable {V : Type} {start : WasmSourceLocals} {transfers : List JumpTransfer}

/-- The moves that save the sources. -/
def saveMoves (state : CapturedSources) : List (Nat × Nat) :=
  state.captured.map fun c => (c.2.index, c.1.index)

/-- The moves to the destinations. -/
def destinationMoves (captured : List (WasmLirLocalId × WasmLirLocalId))
    (transfers : List JumpTransfer) : List (Nat × Nat) :=
  (transfers.filter fun t => t.source ≠ t.destination).map fun t =>
    (t.destination.index, (transferSource captured t.source).index)

theorem map_move_copyTransfers (captured : List (WasmLirLocalId × WasmLirLocalId))
    (transfers : List JumpTransfer) :
    (copyTransfers captured transfers).map WasmLirStmt.move =
      destinationMoves captured transfers := by
  rw [copyTransfers, destinationMoves, List.map_map]
  rfl

theorem Captures.map_move {state : CapturedSources} (h : Captures start state) :
    state.statements.map WasmLirStmt.move = saveMoves state := by
  rw [h.statements, List.map_map, saveMoves]
  rfl

theorem Captures.saveMoves_destinations {state : CapturedSources} :
    (saveMoves state).map Prod.fst = state.captured.map fun c => c.2.index := by
  rw [saveMoves, List.map_map]
  rfl

theorem Captures.run_old {state : CapturedSources} (h : Captures start state) {x : Nat}
    (hx : x < start.localTypes.length) (locals : Nat → V) :
    runMoves (saveMoves state) locals x = locals x := by
  refine runMoves_of_notMem ?_ locals
  rw [saveMoves_destinations]
  intro hmem
  obtain ⟨c, hc, heq⟩ := List.mem_map.1 hmem
  have := h.fresh c hc
  omega

theorem Captures.run_snapshot {state : CapturedSources} (h : Captures start state)
    {c : WasmLirLocalId × WasmLirLocalId} (hc : c ∈ state.captured) (locals : Nat → V) :
    runMoves (saveMoves state) locals c.2.index = locals c.1.index := by
  have hnodup : ((saveMoves state).map Prod.fst).Nodup := by
    rw [saveMoves_destinations]
    exact h.nodup
  have hreads : ReadsFirst (saveMoves state) := by
    refine readsFirst_of_disjoint fun m hm later hlater => ?_
    obtain ⟨d, hd, rfl⟩ := List.mem_map.1 hm
    obtain ⟨e, he, rfl⟩ := List.mem_map.1 hlater
    have hfresh := h.fresh d hd
    have hsource := h.source e he
    show d.2.index ≠ e.1.index
    omega
  exact runMoves_of_mem hnodup hreads (List.mem_map.2 ⟨c, hc, rfl⟩) locals

theorem mem_of_lookup {captured : List (WasmLirLocalId × WasmLirLocalId)}
    {source snapshot : WasmLirLocalId} (h : captured.lookup source = some snapshot) :
    (source, snapshot) ∈ captured := by
  obtain ⟨before, after, heq, -⟩ := List.lookup_eq_some_iff.1 h
  rw [heq]
  exact List.mem_append_right _ List.mem_cons_self

theorem Captures.run_transferSource {state : CapturedSources} (h : Captures start state)
    {source : WasmLirLocalId} (hsource : source.index < start.localTypes.length)
    (locals : Nat → V) :
    runMoves (saveMoves state) locals (transferSource state.captured source).index =
      locals source.index := by
  rw [transferSource]
  cases hlookup : state.captured.lookup source with
  | none => exact h.run_old hsource locals
  | some snapshot => exact h.run_snapshot (mem_of_lookup hlookup) locals

theorem Captures.transferSource_lt {state : CapturedSources} (h : Captures start state)
    {source : WasmLirLocalId} (hsource : source.index < start.localTypes.length) :
    (transferSource state.captured source).index < state.context.localTypes.length := by
  rw [transferSource]
  cases hlookup : state.captured.lookup source with
  | none => exact Nat.lt_of_lt_of_le hsource h.extended.length_le
  | some snapshot => exact h.snapshot _ (mem_of_lookup hlookup)

theorem Captures.readsFirst {state : CapturedSources} (h : Captures start state)
    (hdestination : ∀ t ∈ transfers, t.destination.index < start.localTypes.length)
    (hcovers : transfers.Pairwise fun p t =>
      Clobbers p t → t.source ∈ state.captured.map Prod.fst) :
    ReadsFirst (destinationMoves state.captured transfers) := by
  refine List.Pairwise.map _ (R := fun p t : JumpTransfer =>
    p.destination.index ≠ (transferSource state.captured t.source).index)
    (fun _ _ hne => hne) ?_
  have hfilter := hcovers.filter fun t => decide (t.source ≠ t.destination)
  refine hfilter.imp_of_mem ?_
  intro p t hp _ hpair heq
  obtain ⟨hmem, hmoves⟩ := List.mem_filter.1 hp
  have hlt := hdestination p hmem
  rw [transferSource] at heq
  cases hlookup : state.captured.lookup t.source with
  | some snapshot =>
      have hfresh := h.fresh _ (mem_of_lookup hlookup)
      rw [hlookup, Option.getD_some] at heq
      show False
      have hfresh' : start.localTypes.length ≤ snapshot.index := hfresh
      omega
  | none =>
      rw [hlookup, Option.getD_none] at heq
      have hclobbers : Clobbers p t :=
        ⟨of_decide_eq_true hmoves, congrArg WasmLirLocalId.mk heq⟩
      exact Lib.lookup_eq_none_iff_notMem.1 hlookup (hpair hclobbers)

/-- The save and the copies leave every destination with what its source held. -/
theorem Captures.run_assigned {state : CapturedSources} (h : Captures start state)
    (hsource : ∀ t ∈ transfers, t.source.index < start.localTypes.length)
    (hdestination : ∀ t ∈ transfers, t.destination.index < start.localTypes.length)
    (hnodup : (transfers.map (·.destination)).Nodup)
    (hcovers : transfers.Pairwise fun p t =>
      Clobbers p t → t.source ∈ state.captured.map Prod.fst)
    {t : JumpTransfer} (ht : t ∈ transfers) (locals : Nat → V) :
    runMoves (saveMoves state ++ destinationMoves state.captured transfers) locals
      t.destination.index = locals t.source.index := by
  rw [runMoves_append]
  by_cases hself : t.source = t.destination
  · -- A self-copy is left out, and no other transfer has its destination.
    rw [runMoves_of_notMem, ← hself, h.run_old (hsource t ht)]
    intro hmem
    obtain ⟨m, hm, heq⟩ := List.mem_map.1 hmem
    obtain ⟨u, hu, rfl⟩ := List.mem_map.1 hm
    obtain ⟨hmemu, hmoves⟩ := List.mem_filter.1 hu
    have hsame : u = t := List.inj_on_of_nodup_map hnodup hmemu ht (congrArg WasmLirLocalId.mk heq)
    exact of_decide_eq_true hmoves (hsame ▸ hself)
  · have hmoves : ((destinationMoves state.captured transfers).map Prod.fst).Nodup := by
      rw [destinationMoves, List.map_map]
      have hsub : ((transfers.filter fun t => t.source ≠ t.destination).map
          (·.destination)).Nodup := hnodup.sublist (List.filter_sublist.map _)
      have hindex : Function.Injective WasmLirLocalId.index := by
        intro a b hab
        exact congrArg WasmLirLocalId.mk hab
      have := hsub.map hindex
      rwa [List.map_map] at this
    have hmem : (t.destination.index, (transferSource state.captured t.source).index) ∈
        destinationMoves state.captured transfers :=
      List.mem_map.2 ⟨t, List.mem_filter.2 ⟨ht, decide_eq_true hself⟩, rfl⟩
    rw [runMoves_of_mem hmoves (h.readsFirst hdestination hcovers) hmem]
    exact h.run_transferSource (hsource t ht) locals

theorem Captures.run_kept {state : CapturedSources} (h : Captures start state) {x : Nat}
    (hx : x < start.localTypes.length) (hne : ∀ t ∈ transfers, t.destination.index ≠ x)
    (locals : Nat → V) :
    runMoves (saveMoves state ++ destinationMoves state.captured transfers) locals x =
      locals x := by
  rw [runMoves_append, runMoves_of_notMem, h.run_old hx]
  intro hmem
  obtain ⟨m, hm, heq⟩ := List.mem_map.1 hmem
  obtain ⟨u, hu, rfl⟩ := List.mem_map.1 hm
  exact hne u (List.mem_filter.1 hu).1 heq

theorem Captures.within {state : CapturedSources} (h : Captures start state)
    (hsource : ∀ t ∈ transfers, t.source.index < start.localTypes.length)
    (hdestination : ∀ t ∈ transfers, t.destination.index < start.localTypes.length) :
    ∀ s ∈ state.statements ++ copyTransfers state.captured transfers,
      s.Within state.context.localTypes.length := by
  have hle : start.localTypes.length ≤ state.context.localTypes.length := h.extended.length_le
  intro s hs
  rcases List.mem_append.1 hs with hsave | hcopy
  · rw [h.statements] at hsave
    obtain ⟨c, hc, rfl⟩ := List.mem_map.1 hsave
    exact ⟨h.snapshot c hc, Nat.lt_of_lt_of_le (h.source c hc) hle⟩
  · obtain ⟨t, ht, rfl⟩ := List.mem_map.1 hcopy
    have hmem := (List.mem_filter.1 ht).1
    exact ⟨Nat.lt_of_lt_of_le (hdestination t hmem) hle, h.transferSource_lt (hsource t hmem)⟩

end Assignment

/-- What a program local holds, where the function has it. -/
def WasmSourceLocals.Holds {V : Type} (context : WasmSourceLocals) (locals : Nat → V)
    (l : LocalId) (v : V) : Prop :=
  ∃ w, context.localMap l = some w ∧ locals w.index = v

theorem WasmSourceLocals.holds_iff {V : Type} {context : WasmSourceLocals} {locals : Nat → V}
    {l : LocalId} {w : WasmLirLocalId} (h : context.localMap l = some w) (v : V) :
    context.Holds locals l v ↔ locals w.index = v := by
  constructor
  · intro hv
    obtain ⟨w', hw', heq⟩ := hv
    rw [h] at hw'
    cases hw'
    exact heq
  · intro hv
    exact ⟨w, h, hv⟩

section Transfer

variable {blocks : List HirBlock} {blockMap : BlockId → Option WasmLirBlockId}
  {context : WasmSourceLocals} {target : BlockId} {args : List HirJumpArgument}

/-- What the lowering asks of a jump besides different destinations: a known
target, and arguments whose locals it can move. -/
structure Transferable (blocks : List HirBlock) (blockMap : BlockId → Option WasmLirBlockId)
    (context : WasmSourceLocals) (target : BlockId) (args : List HirJumpArgument) : Prop where
  lirTarget : (blockMap target).isSome
  resolves : ∃ block, blocks.find? (fun block => block.id = target) = some block ∧
    ∀ a ∈ args, ∃ t, Resolves context.toWasmFunctionLoweringContext block a t

theorem forall₂_of_forall_exists {α β : Type} {R : α → β → Prop} {rows : List α}
    (h : ∀ a ∈ rows, ∃ b, R a b) : ∃ answers, List.Forall₂ R rows answers := by
  induction rows with
  | nil => exact ⟨[], .nil⟩
  | cons a rest ih =>
      obtain ⟨b, hb⟩ := h a List.mem_cons_self
      obtain ⟨later, hlater⟩ := ih fun other hmem => h other (List.mem_cons_of_mem _ hmem)
      exact ⟨b :: later, .cons hb hlater⟩

theorem lowerJumpArgumentTransfer_of_transferable
    (h : Transferable blocks blockMap context target args)
    (hdistinct : (args.map (·.destination)).Nodup) :
    ∃ block lirTarget transfers,
      List.Forall₂ (Resolves context.toWasmFunctionLoweringContext block) args transfers ∧
        let state := captureSources [] transfers ⟨context, [], []⟩
        lowerJumpArgumentTransfer blocks blockMap context target args =
          .ok (lirTarget, state.statements ++ copyTransfers state.captured transfers,
            state.context) := by
  obtain ⟨block, hblock, hall⟩ := h.resolves
  obtain ⟨lirTarget, hlir⟩ := Option.isSome_iff_exists.1 h.lirTarget
  obtain ⟨transfers, hforall⟩ := forall₂_of_forall_exists hall
  refine ⟨block, lirTarget, transfers, hforall, ?_⟩
  have hcollect := collectJumpTransfers_ok.2
    ⟨fun a _ hin => absurd hin (List.not_mem_nil (a := a.destination)), hdistinct, hforall⟩
  rw [lowerJumpArgumentTransfer, hblock]
  simp only [hlir, hcollect, ok_bind]
  split
  · rename_i hempty
    rw [List.isEmpty_iff.1 hempty] at hforall
    cases hforall
    rfl
  · rfl

theorem transfers_nodup {block : HirBlock} {transfers : List JumpTransfer}
    (hforall : List.Forall₂ (Resolves context.toWasmFunctionLoweringContext block) args transfers)
    (hdistinct : (args.map (·.destination)).Nodup) :
    (transfers.map (·.destination)).Nodup := by
  induction hforall with
  | nil => exact List.nodup_nil
  | @cons a t rest later hresolves hrest ih =>
      rw [List.map_cons, List.nodup_cons] at hdistinct ⊢
      refine ⟨?_, ih hdistinct.2⟩
      intro hmem
      obtain ⟨u, hu, heq⟩ := List.mem_map.1 hmem
      obtain ⟨b, hb, hresolves'⟩ := forall₂_exists_left hrest hu
      have hsame : b.destination = a.destination := by
        refine context.localMap_inj _ _ u.destination hresolves'.destination ?_
        rw [heq]
        exact hresolves.destination
      exact hdistinct.1 (List.mem_map.2 ⟨b, hb, hsame⟩)

/-- The code of a jump's transfer assigns its arguments at once, whatever the
locals hold and however many locals the finished function has. -/
theorem lowerJumpArgumentTransfer_assigns (h : Transferable blocks blockMap context target args)
    (hdistinct : (args.map (·.destination)).Nodup) :
    ∃ lirTarget statements context',
      lowerJumpArgumentTransfer blocks blockMap context target args =
        .ok (lirTarget, statements, context') ∧
      ∀ final : WasmFunctionLoweringContext,
        context'.toWasmFunctionLoweringContext.Extends final →
        ∃ code, emitStmts (buildLocalLayout final) statements = .ok code ∧
          ∀ {V : Type} (locals : Nat → V) (stack : List V), ∃ after,
            execLocals code locals stack = some (after, stack) ∧
            SimultaneousAssignment (args.map fun a => (a.destination, a.source))
              (context.Holds locals) (context.Holds after) := by
  obtain ⟨block, lirTarget, transfers, hforall, hlower⟩ :=
    lowerJumpArgumentTransfer_of_transferable h hdistinct
  have hsource : ∀ t ∈ transfers, t.source.index < context.localTypes.length := by
    intro t ht
    obtain ⟨a, -, hresolves⟩ := forall₂_exists_left hforall ht
    exact context.allocated _ _ hresolves.source
  have hdestination : ∀ t ∈ transfers, t.destination.index < context.localTypes.length := by
    intro t ht
    obtain ⟨a, -, hresolves⟩ := forall₂_exists_left hforall ht
    exact context.allocated _ _ hresolves.destination
  have hcaptures : Captures context (captureSources [] transfers ⟨context, [], []⟩) :=
    (Captures.start context).captureSources hsource
  have hcovers := (@captureSources_covers [] transfers ⟨context, [], []⟩).2
  refine ⟨lirTarget, _, _, hlower, ?_⟩
  intro final hfinal
  have hle := hfinal.length_le
  obtain ⟨code, hcode, hrun⟩ := emitStmts_runs fun s hs =>
    (hcaptures.within hsource hdestination s hs).mono hle
  refine ⟨code, hcode, ?_⟩
  intro V locals stack
  refine ⟨_, hrun locals stack, ?_⟩
  rw [List.map_append, hcaptures.map_move, map_move_copyTransfers]
  constructor
  · intro p hp v
    obtain ⟨a, ha, rfl⟩ := List.mem_map.1 hp
    obtain ⟨t, ht, hresolves⟩ := forall₂_exists_right hforall ha
    rw [WasmSourceLocals.holds_iff hresolves.destination,
      WasmSourceLocals.holds_iff hresolves.source,
      hcaptures.run_assigned hsource hdestination (transfers_nodup hforall hdistinct) hcovers ht]
  · intro l hl v
    cases hmap : context.localMap l with
    | none => simp [WasmSourceLocals.Holds, hmap]
    | some w =>
        rw [WasmSourceLocals.holds_iff hmap, WasmSourceLocals.holds_iff hmap,
          hcaptures.run_kept (context.allocated l w hmap)]
        intro t ht heq
        obtain ⟨a, ha, hresolves⟩ := forall₂_exists_left hforall ht
        have hsame : t.destination = w := congrArg WasmLirLocalId.mk heq
        have hla : a.destination = l :=
          context.localMap_inj _ _ w (hsame ▸ hresolves.destination) hmap
        rw [List.map_map] at hl
        exact hl (List.mem_map.2 ⟨a, ha, hla⟩)

end Transfer

end Moth.Wasm
