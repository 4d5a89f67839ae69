import Moth.Js.JumpArguments
import Moth.Wasm.JumpArgumentsAssign

/-!
# Jump arguments are assigned at once

Both backends pass jump arguments with statements that run one after the other.
On both, each destination ends with what its source held before the jump, and
every other program local holds what it held.
-/

namespace Moth.Backends

open Moth.Hir Moth.Lib Moth.Wasm Moth.Js

/-- Whatever the locals hold. In Wasm the code is run in the finished function,
which may have more locals; in JavaScript it runs where every source can be
read, and throws elsewhere. -/
theorem jump_arguments_simultaneous (args : List HirJumpArgument)
    (hdistinct : (args.map (·.destination)).Nodup) :
    (∀ blocks blockMap (context : WasmSourceLocals) target,
      Transferable blocks blockMap context target args →
      ∃ lirTarget statements context',
        lowerJumpArgumentTransfer blocks blockMap context target args =
          .ok (lirTarget, statements, context') ∧
        ∀ final : WasmFunctionLoweringContext,
          context'.toWasmFunctionLoweringContext.Extends final →
          ∃ code, emitStmts (buildLocalLayout final) statements = .ok code ∧
            ∀ {V : Type} (locals : Nat → V) (stack : List V), ∃ after,
              execLocals code locals stack = some (after, stack) ∧
              SimultaneousAssignment (args.map fun a => (a.destination, a.source))
                (context.Holds locals) (context.Holds after)) ∧
    (∀ names : JsNames, Named names args →
      ∃ statements names', emitJumpArgumentTransfer names args = .ok (statements, names') ∧
        ∀ {Val Key : Type} (property : Val → Key → Option Val) (s : BindingState Val Key),
          ((∃ fuel s', execTransfer property fuel s statements = some s') ↔
            ∀ a ∈ args, ∃ value, s.Holds property names a.source value) ∧
          ∀ fuel s', execTransfer property fuel s statements = some s' →
            s.heap.Extends s'.heap ∧
            SimultaneousAssignment (args.map fun a => (a.destination, a.source))
              (s.Holds property names) (s'.Holds property names)) :=
  ⟨fun _ _ _ _ h => lowerJumpArgumentTransfer_assigns h hdistinct,
    fun _ h => emitJumpArgumentTransfer_assigns h hdistinct⟩

/-- Three locals of a function, each a number. -/
def rotationLocals : WasmSourceLocals :=
  ((WasmSourceLocals.new.allocLocal ⟨0⟩ .I32).allocLocal ⟨1⟩ .I32).allocLocal ⟨2⟩ .I32

def rotationNames : JsNames :=
  JsNames.buildLocalSymbols [(⟨0⟩, "x"), (⟨1⟩, "y"), (⟨2⟩, "z")] (.new [])

def rotationBlock : HirBlock where
  id := ⟨7⟩
  region := ⟨0⟩
  locals := [⟨⟨0⟩, ⟨0⟩, true, ⟨0⟩⟩, ⟨⟨1⟩, ⟨0⟩, true, ⟨0⟩⟩, ⟨⟨2⟩, ⟨0⟩, true, ⟨0⟩⟩]
  statements := []
  terminator := .Uninitialized

/-- Each of the three gives its value to the next. -/
def rotation : List HirJumpArgument := [⟨⟨0⟩, ⟨1⟩⟩, ⟨⟨1⟩, ⟨2⟩⟩, ⟨⟨2⟩, ⟨0⟩⟩]

theorem rotation_transferable :
    Transferable [rotationBlock] (fun _ => some ⟨3⟩) rotationLocals ⟨7⟩ rotation where
  lirTarget := rfl
  resolves := by
    refine ⟨rotationBlock, rfl, ?_⟩
    intro a ha
    simp only [rotation, List.mem_cons, List.not_mem_nil, or_false] at ha
    rcases ha with rfl | rfl | rfl
    · exact ⟨⟨⟨0⟩, ⟨1⟩, .I32⟩, by decide, rfl, rfl, rfl, rfl⟩
    · exact ⟨⟨⟨1⟩, ⟨2⟩, .I32⟩, by decide, rfl, rfl, rfl, rfl⟩
    · exact ⟨⟨⟨2⟩, ⟨0⟩, .I32⟩, by decide, rfl, rfl, rfl, rfl⟩

theorem rotation_named : Named rotationNames rotation := by
  intro a ha
  simp only [rotation, List.mem_cons, List.not_mem_nil, or_false] at ha
  rcases ha with rfl | rfl | rfl <;> exact ⟨rfl, rfl⟩

/-- The rotation, run: two locals get the values of their neighbours and the
third the value the first had. -/
theorem jump_arguments_simultaneous_rotation :
    (∃ lirTarget statements context' code after,
      lowerJumpArgumentTransfer [rotationBlock] (fun _ => some ⟨3⟩) rotationLocals ⟨7⟩ rotation =
        .ok (lirTarget, statements, context') ∧
      emitStmts (buildLocalLayout context'.toWasmFunctionLoweringContext) statements = .ok code ∧
      execLocals code (fun index => 10 * index) [] = some (after, []) ∧
      after 1 = 0 ∧ after 2 = 10 ∧ after 0 = 20) ∧
    ∃ statements names',
      emitJumpArgumentTransfer rotationNames rotation = .ok (statements, names') := by
  have hboth := jump_arguments_simultaneous rotation (by decide)
  constructor
  · obtain ⟨lirTarget, statements, context', hlower, hall⟩ :=
      hboth.1 [rotationBlock] (fun _ => some ⟨3⟩) rotationLocals ⟨7⟩ rotation_transferable
    obtain ⟨code, hcode, hrun⟩ := hall _ (WasmFunctionLoweringContext.Extends.refl _)
    obtain ⟨after, hafter, hassign⟩ := hrun (fun index => 10 * index) []
    have hvalue : ∀ a ∈ rotation, ∀ w w' : WasmLirLocalId,
        rotationLocals.localMap a.destination = some w →
        rotationLocals.localMap a.source = some w' → after w.index = 10 * w'.index := by
      intro a ha w w' hw hw'
      have hpair := hassign.assigned _ (List.mem_map.2 ⟨a, ha, rfl⟩) (10 * w'.index)
      exact (WasmSourceLocals.holds_iff hw _).1
        (hpair.2 ((WasmSourceLocals.holds_iff hw' _).2 rfl))
    refine ⟨lirTarget, statements, context', code, after, hlower, hcode, hafter, ?_, ?_, ?_⟩
    · exact hvalue ⟨⟨0⟩, ⟨1⟩⟩ (by decide) ⟨1⟩ ⟨0⟩ rfl rfl
    · exact hvalue ⟨⟨1⟩, ⟨2⟩⟩ (by decide) ⟨2⟩ ⟨1⟩ rfl rfl
    · exact hvalue ⟨⟨2⟩, ⟨0⟩⟩ (by decide) ⟨0⟩ ⟨2⟩ rfl rfl
  · obtain ⟨statements, names', hemit, -⟩ := hboth.2 rotationNames rotation_named
    exact ⟨statements, names', hemit⟩

end Moth.Backends
