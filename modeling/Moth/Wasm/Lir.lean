import Moth.Hir.Syntax
import Moth.Lib.Result
import Moth.Lib.Wasm

/-!
# Wasm LIR locals and function contexts

`lir/types.rs`, and the locals of `hir_to_lir/context.rs` and
`emit/functions.rs`: the ABI types, the function under construction with its
local allocator, and the local layout the emitter reads.

Local ids are handed out in order, so a function's locals are kept as the list
of their types and an id is a position in it. The layout sorts by id and
numbers by position, which on such a list is the identity; it is still read
through a lookup, and the emitter fails on a local that has no entry.

`compiler_bug!` unwinds with the text that stands here as a `compilerBug`.
-/

namespace Moth.Wasm

open Moth.Lexical Moth.Datatypes Moth.Hir Moth.Lib Moth.Lib.Wasm

structure WasmLirLocalId where
  index : Nat
deriving DecidableEq

/-- ABI-level storage class. -/
inductive WasmAbiType where
  | I32 | I64 | F32 | F64 | Handle | Void
deriving DecidableEq

/-- The ABI type of an integer carrier. -/
def abiOf : Carrier → WasmAbiType
  | .I32 => .I32
  | .I64 => .I64

/-- Why lowering or emission gave up. -/
inductive InfrastructureFailure where
  | wasmGeneration (message : String)
  | lirTransformation (message : String)
  | missingLocalIndex (localId : WasmLirLocalId)
  | missingLocalType (localId : WasmLirLocalId) (operation : String)
  | unexpectedAbi (operation : String) (expected actual : WasmAbiType) (localId : WasmLirLocalId)
  | carrierNotInteger (label : String) (carrier : WasmAbiType)
  | unresolvedLocal (label : String) (source : LocalId)
  | compilerBug (message : String)
deriving DecidableEq

/-- The fixed scalar arm of `lower_type_to_abi`. -/
def lowerScalarToAbi : FixedScalar → WasmAbiType
  | .I8 | .I16 | .I32 | .U8 | .U16 | .U32 | .Byte => .I32
  | .I64 | .U64 => .I64
  | .F16 | .F32 => .F32
  | .F64 => .F64

/-- The locals of the function being lowered: every source local was given one
of its own. -/
structure WasmFunctionLoweringContext where
  localTypes : List WasmAbiType
  localMap : LocalId → Option WasmLirLocalId
  localMap_inj : ∀ (a b : LocalId) (l : WasmLirLocalId),
    localMap a = some l → localMap b = some l → a = b

namespace WasmFunctionLoweringContext

def localTypeById (context : WasmFunctionLoweringContext) (localId : WasmLirLocalId) :
    Option WasmAbiType :=
  context.localTypes[localId.index]?

def allocTemp (context : WasmFunctionLoweringContext) (ty : WasmAbiType) :
    WasmLirLocalId × WasmFunctionLoweringContext :=
  (⟨context.localTypes.length⟩, { context with localTypes := context.localTypes ++ [ty] })

/-- The function at a later time: it has the same locals and perhaps more. -/
def Extends (context later : WasmFunctionLoweringContext) : Prop :=
  context.localTypes <+: later.localTypes

theorem Extends.refl (context : WasmFunctionLoweringContext) : context.Extends context :=
  List.prefix_refl _

theorem Extends.trans {context later last : WasmFunctionLoweringContext}
    (h : context.Extends later) (h' : later.Extends last) : context.Extends last :=
  List.IsPrefix.trans h h'

theorem extends_allocTemp (context : WasmFunctionLoweringContext) (ty : WasmAbiType) :
    context.Extends (context.allocTemp ty).2 := List.prefix_append _ _

theorem Extends.localTypeById {context later : WasmFunctionLoweringContext}
    (h : context.Extends later) {localId : WasmLirLocalId} {ty : WasmAbiType}
    (hty : context.localTypeById localId = some ty) : later.localTypeById localId = some ty := by
  obtain ⟨rest, hrest⟩ := h
  have hlt := (List.getElem?_eq_some_iff.1 hty).1
  rw [WasmFunctionLoweringContext.localTypeById, ← hrest, List.getElem?_append_left hlt]
  exact hty

end WasmFunctionLoweringContext

/-- What the emitter knows of a function's locals. -/
structure LirBodyEmitContext where
  localIndexById : WasmLirLocalId → Option Nat
  localTypeById : WasmLirLocalId → Option WasmAbiType

/-- The layout of a finished function. -/
def buildLocalLayout (context : WasmFunctionLoweringContext) : LirBodyEmitContext where
  localIndexById := fun localId =>
    if localId.index < context.localTypes.length then some localId.index else none
  localTypeById := context.localTypeById

def localIndex (localId : WasmLirLocalId) (context : LirBodyEmitContext) :
    Except InfrastructureFailure Nat :=
  match context.localIndexById localId with
  | some index => .ok index
  | none => .error (.missingLocalIndex localId)

def ensureLocalAbi (localId : WasmLirLocalId) (expected : WasmAbiType)
    (context : LirBodyEmitContext) (operation : String) : Except InfrastructureFailure Unit :=
  match context.localTypeById localId with
  | none => .error (.missingLocalType localId operation)
  | some actual =>
      if actual = expected then .ok ()
      else .error (.unexpectedAbi operation expected actual localId)

theorem localIndex_buildLocalLayout {context : WasmFunctionLoweringContext}
    {localId : WasmLirLocalId} {ty : WasmAbiType}
    (h : context.localTypeById localId = some ty) :
    localIndex localId (buildLocalLayout context) = .ok localId.index := by
  have hlt := (List.getElem?_eq_some_iff.1 h).1
  simp [localIndex, buildLocalLayout, hlt]

theorem ensureLocalAbi_buildLocalLayout {context : WasmFunctionLoweringContext}
    {localId : WasmLirLocalId} {ty : WasmAbiType}
    (h : context.localTypeById localId = some ty) (operation : String) :
    ensureLocalAbi localId ty (buildLocalLayout context) operation = .ok () := by
  simp [ensureLocalAbi, buildLocalLayout, h]

/-- An integer in a carrier, modulo its width. -/
def encode (c : Carrier) (value : Int) : Value := ⟨c, BitVec.ofInt c.bits value⟩

end Moth.Wasm
