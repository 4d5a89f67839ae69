import Mathlib.Logic.Function.Basic
import Moth.Lib.Result
import Moth.Wasm.Lir

/-!
# Jump arguments in Wasm

`lower_jump_argument_transfer` of `hir_to_lir/terminator.rs`, the allocation of
a function's source locals in `hir_to_lir/function.rs`, and the `Copy` arm of
`emit/instructions.rs`.

A jump gives the locals of its target block their values. The lowering writes
them with copies, one after the other, and first saves the sources that an
earlier copy would overwrite.
-/

namespace Moth.Wasm

open Moth.Datatypes Moth.Hir Moth.Lib

structure WasmLirBlockId where
  index : Nat
deriving DecidableEq

/-- The statement this lowering produces. -/
inductive WasmLirStmt where
  | Copy (dst src : WasmLirLocalId)
deriving DecidableEq

/-! ## Source locals -/

/-- A function under construction all of whose source locals were allocated. -/
structure WasmSourceLocals extends WasmFunctionLoweringContext where
  allocated : ∀ (l : LocalId) (w : WasmLirLocalId),
    localMap l = some w → w.index < localTypes.length

namespace WasmSourceLocals

def new : WasmSourceLocals where
  localTypes := []
  localMap := fun _ => none
  localMap_inj := fun _ _ _ h => nomatch h
  allocated := fun _ _ h => nomatch h

/-- The map with one more local, which has the next id. -/
def insertNext (context : WasmSourceLocals) (l other : LocalId) : Option WasmLirLocalId :=
  if other = l then some ⟨context.localTypes.length⟩ else context.localMap other

theorem insertNext_cases {context : WasmSourceLocals} {l other : LocalId} {w : WasmLirLocalId}
    (h : context.insertNext l other = some w) :
    other = l ∧ w.index = context.localTypes.length ∨
      context.localMap other = some w ∧ w.index < context.localTypes.length := by
  rw [insertNext] at h
  split at h
  · rename_i heq
    cases h
    exact Or.inl ⟨heq, rfl⟩
  · exact Or.inr ⟨h, context.allocated other w h⟩

theorem insertNext_inj (context : WasmSourceLocals) (l a b : LocalId) (w : WasmLirLocalId)
    (ha : context.insertNext l a = some w) (hb : context.insertNext l b = some w) : a = b := by
  rcases insertNext_cases ha with ⟨hal, hindex⟩ | ⟨hamap, halt⟩
  · rcases insertNext_cases hb with ⟨hbl, -⟩ | ⟨-, hblt⟩
    · rw [hal, hbl]
    · omega
  · rcases insertNext_cases hb with ⟨-, hindex⟩ | ⟨hbmap, -⟩
    · omega
    · exact context.localMap_inj a b w hamap hbmap

theorem insertNext_allocated (context : WasmSourceLocals) (l : LocalId) (ty : WasmAbiType)
    (other : LocalId) (w : WasmLirLocalId) (h : context.insertNext l other = some w) :
    w.index < (context.localTypes ++ [ty]).length := by
  rw [List.length_append, List.length_singleton]
  rcases insertNext_cases h with ⟨-, hindex⟩ | ⟨-, hlt⟩ <;> omega

/-- `alloc_local` and the entry of `local_map`. -/
def allocLocal (context : WasmSourceLocals) (l : LocalId) (ty : WasmAbiType) :
    WasmSourceLocals where
  localTypes := context.localTypes ++ [ty]
  localMap := context.insertNext l
  localMap_inj := context.insertNext_inj l
  allocated := context.insertNext_allocated l ty

theorem allocTemp_allocated (context : WasmSourceLocals) (ty : WasmAbiType) (l : LocalId)
    (w : WasmLirLocalId) (h : context.localMap l = some w) :
    w.index < (context.localTypes ++ [ty]).length := by
  have := context.allocated l w h
  rw [List.length_append, List.length_singleton]
  omega

def allocTemp (context : WasmSourceLocals) (ty : WasmAbiType) :
    WasmLirLocalId × WasmSourceLocals :=
  (⟨context.localTypes.length⟩,
    { (context.toWasmFunctionLoweringContext.allocTemp ty).2 with
      allocated := context.allocTemp_allocated ty })

end WasmSourceLocals

/-! ## Transfers -/

def WasmAbiType.debug : WasmAbiType → String
  | .I32 => "I32"
  | .I64 => "I64"
  | .F32 => "F32"
  | .F64 => "F64"
  | .Handle => "Handle"
  | .Void => "Void"

def debugLocal (l : LocalId) : String := "LocalId(" ++ toString l.index ++ ")"

def debugBlock (block : BlockId) : String := "BlockId(" ++ toString block.index ++ ")"

/-- One argument with the locals it moves between. -/
structure JumpTransfer where
  source : WasmLirLocalId
  destination : WasmLirLocalId
  abi : WasmAbiType
deriving DecidableEq

/-- One round of the loop over the arguments; `destinations` are those of the
rounds before. -/
def resolveJumpArgument (context : WasmFunctionLoweringContext) (target : HirBlock)
    (destinations : List LocalId) (argument : HirJumpArgument) :
    Except InfrastructureFailure JumpTransfer :=
  if ¬ target.locals.any fun l => l.id = argument.destination then
    .error (.lirTransformation ("Wasm jump argument destination " ++
      debugLocal argument.destination ++ " is not declared by target block " ++
      toString target.id.index))
  else if argument.destination ∈ destinations then
    .error (.lirTransformation ("Wasm jump to block " ++ toString target.id.index ++
      " defines destination " ++ debugLocal argument.destination ++ " more than once"))
  else
    match context.localMap argument.source with
    | none => .error (.lirTransformation
        ("Wasm lowering could not resolve jump source local " ++ debugLocal argument.source))
    | some source =>
      match context.localMap argument.destination with
      | none => .error (.lirTransformation ("Wasm lowering could not resolve jump target local " ++
          debugLocal argument.destination))
      | some destination =>
        match context.localTypeById source with
        | none => .error (.lirTransformation
            ("Wasm lowering could not resolve carrier ABI for jump source local " ++
              debugLocal argument.source))
        | some sourceAbi =>
          match context.localTypeById destination with
          | none => .error (.lirTransformation
              ("Wasm lowering could not resolve carrier ABI for jump target local " ++
                debugLocal argument.destination))
          | some destinationAbi =>
            if sourceAbi ≠ destinationAbi then
              .error (.lirTransformation ("Wasm lowering cannot transfer jump argument from " ++
                debugLocal argument.source ++ " (" ++ sourceAbi.debug ++ ") into target local " ++
                debugLocal argument.destination ++ " (" ++ destinationAbi.debug ++
                ") because their carrier ABI types differ"))
            else .ok ⟨source, destination, sourceAbi⟩

def collectJumpTransfers (context : WasmFunctionLoweringContext) (target : HirBlock) :
    List LocalId → List HirJumpArgument → Except InfrastructureFailure (List JumpTransfer)
  | _, [] => .ok []
  | destinations, argument :: rest => do
      let transfer ← resolveJumpArgument context target destinations argument
      let later ← collectJumpTransfers context target (destinations ++ [argument.destination]) rest
      .ok (transfer :: later)

/-- A source that one of the transfers before it writes. -/
def overwrites (prior : List JumpTransfer) (source : WasmLirLocalId) : Bool :=
  prior.any fun p => p.source ≠ p.destination ∧ p.destination = source

/-- The sources saved to temporaries, each with its temporary. -/
structure CapturedSources where
  context : WasmSourceLocals
  captured : List (WasmLirLocalId × WasmLirLocalId)
  statements : List WasmLirStmt

/-- Save a source once. -/
def CapturedSources.save (state : CapturedSources) (t : JumpTransfer) : CapturedSources :=
  let (snapshot, context) := state.context.allocTemp t.abi
  { context
    captured := state.captured ++ [(t.source, snapshot)]
    statements := state.statements ++ [.Copy snapshot t.source] }

def captureSources : List JumpTransfer → List JumpTransfer → CapturedSources → CapturedSources
  | _, [], state => state
  | prior, t :: rest, state =>
      if overwrites prior t.source ∧ ¬ state.captured.any (fun c => c.1 = t.source) then
        captureSources (prior ++ [t]) rest (state.save t)
      else captureSources (prior ++ [t]) rest state

/-- Where a transfer reads its value. -/
def transferSource (captured : List (WasmLirLocalId × WasmLirLocalId))
    (source : WasmLirLocalId) : WasmLirLocalId :=
  (captured.lookup source).getD source

def copyTransfers (captured : List (WasmLirLocalId × WasmLirLocalId))
    (transfers : List JumpTransfer) : List WasmLirStmt :=
  (transfers.filter fun t => t.source ≠ t.destination).map fun t =>
    .Copy t.destination (transferSource captured t.source)

/-- The target, the statements of the transfer, and the function after it. -/
def lowerJumpArgumentTransfer (blocks : List HirBlock) (blockMap : BlockId → Option WasmLirBlockId)
    (context : WasmSourceLocals) (target : BlockId) (args : List HirJumpArgument) :
    Except InfrastructureFailure (WasmLirBlockId × List WasmLirStmt × WasmSourceLocals) :=
  match blocks.find? fun block => block.id = target with
  | none => .error (.lirTransformation
      ("Wasm lowering could not resolve block id " ++ debugBlock target))
  | some targetBlock =>
    match blockMap target with
    | none => .error (.lirTransformation
        ("Wasm lowering could not resolve block id " ++ debugBlock target))
    | some lirTarget =>
      if args.isEmpty then .ok (lirTarget, [], context)
      else do
        let transfers ←
          collectJumpTransfers context.toWasmFunctionLoweringContext targetBlock [] args
        let state := captureSources [] transfers ⟨context, [], []⟩
        .ok (lirTarget, state.statements ++ copyTransfers state.captured transfers, state.context)

/-! ## Emission -/

inductive LocalInstruction where
  | LocalGet (index : Nat)
  | LocalSet (index : Nat)
deriving DecidableEq

def emitStmt (context : LirBodyEmitContext) :
    WasmLirStmt → Except InfrastructureFailure (List LocalInstruction)
  | .Copy dst src => do
      let srcIndex ← localIndex src context
      let dstIndex ← localIndex dst context
      .ok [.LocalGet srcIndex, .LocalSet dstIndex]

def emitStmts (context : LirBodyEmitContext) (statements : List WasmLirStmt) :
    Except InfrastructureFailure (List LocalInstruction) := do
  let code ← statements.mapM (emitStmt context)
  .ok code.flatten

/-- Locals and operand stack, of values of any kind. -/
def execLocals {V : Type} : List LocalInstruction → (Nat → V) → List V →
    Option ((Nat → V) × List V)
  | [], locals, stack => some (locals, stack)
  | .LocalGet index :: rest, locals, stack => execLocals rest locals (locals index :: stack)
  | .LocalSet index :: rest, locals, value :: stack =>
      execLocals rest (Function.update locals index value) stack
  | .LocalSet _ :: _, _, [] => none

end Moth.Wasm
