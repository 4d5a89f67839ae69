import Moth.Datatypes.TypeStore

/-!
# Inferring generic arguments

`datatypes/generic_bindings.rs` and
`try_collect_type_parameter_bindings_typeid` of `environment.rs`: a template
type is walked beside a concrete one, and each generic parameter it meets is
bound to the concrete type in its place.

The walk stages its bindings in a copy, which becomes the caller's bindings
only when the whole template matched.
-/

namespace Moth.Datatypes

open Moth.Lib

/-- One parameter inferred as two types. -/
structure BindingConflict where
  parameterId : GenericParameterId
  existingTypeId : TypeId
  replacementTypeId : TypeId
deriving DecidableEq

structure GenericTypeBindings where
  replacements : GenericParameterId → Option TypeId

namespace GenericTypeBindings

def new : GenericTypeBindings := ⟨fun _ => none⟩

def insertConsistent (self : GenericTypeBindings) (parameterId : GenericParameterId)
    (concreteTypeId : TypeId) : Except BindingConflict GenericTypeBindings :=
  match self.replacements parameterId with
  | some existingTypeId =>
      if existingTypeId = concreteTypeId then .ok self
      else .error ⟨parameterId, existingTypeId, concreteTypeId⟩
  | none => .ok ⟨Function.update self.replacements parameterId (some concreteTypeId)⟩

def get (self : GenericTypeBindings) (parameterId : GenericParameterId) : Option TypeId :=
  self.replacements parameterId

end GenericTypeBindings

/-- A loop over matched positions, left at the first that does not match. -/
def whileMatched {σ ε α : Type} (step : α → σ → Except ε (Bool × σ)) :
    List α → σ → Except ε (Bool × σ)
  | [], staged => .ok (true, staged)
  | row :: rest, staged =>
      match step row staged with
      | .ok (true, staged) => whileMatched step rest staged
      | .ok (false, staged) => .ok (false, staged)
      | .error conflict => .error conflict

namespace TypeStore

variable (self : TypeStore)

def optionInnerType (id : TypeId) : Option TypeId :=
  match self.get id with
  | some (.Constructed constructed) =>
      match constructed.constructor with
      | .Builtin .Option => constructed.arguments.head?
      | _ => none
  | _ => none

variable {self}

theorem child_lt {id child : TypeId} {d : TypeDefinition} (h : self.get id = some d)
    (hchild : child ∈ d.children) : child.index < id.index :=
  (self.valid id.index d h).children_lt child hchild

theorem optionInnerType_lt {id inner : TypeId} (h : self.optionInnerType id = some inner) :
    inner.index < id.index := by
  rw [optionInnerType] at h
  split at h
  · rename_i constructed hget
    split at h
    · exact child_lt hget (List.mem_of_mem_head? h)
    · cases h
  · cases h

/-- Whether a type mentions a declared generic parameter in any nested position. -/
def containsGenericParameter (self : TypeStore) (id : TypeId) : Bool :=
  match _h : self.get id with
  | some (.GenericParameter _) => true
  | some (.Constructed constructed) =>
      constructed.arguments.attach.any fun argument => self.containsGenericParameter argument.1
  | some (.GenericInstance inst) =>
      inst.arguments.attach.any fun argument => self.containsGenericParameter argument.1
  | some (.Function function) =>
      (function.parameters.attach.any fun parameter => self.containsGenericParameter parameter.1) ||
        (function.returns.attach.any fun returned => self.containsGenericParameter returned.1) ||
        (function.errorReturn.toList.attach.any fun error =>
          self.containsGenericParameter error.1)
  | _ => false
termination_by id.index
decreasing_by
  all_goals
    refine child_lt ‹_› ?_
    simp only [TypeDefinition.children, TypeDefinition.shape, Option.map_some, Option.getD_some,
      List.mem_append]
  · exact argument.2
  · exact argument.2
  · exact .inl (.inl parameter.2)
  · exact .inl (.inr returned.2)
  · exact .inr error.2

/-- The payload that one present concrete type fills, where the template is optional. -/
def presentPayloadTemplate (self : TypeStore) (templateTypeId concreteTypeId : TypeId) :
    Option TypeId :=
  match self.optionInnerType templateTypeId with
  | some payload =>
      if self.containsGenericParameter payload = true ∧ concreteTypeId ≠ builtinNone ∧
        self.optionInnerType concreteTypeId = none then some payload else none
  | none => none

theorem presentPayloadTemplate_eq_some {template concrete payload : TypeId} :
    self.presentPayloadTemplate template concrete = some payload ↔
      self.optionInnerType template = some payload ∧
        self.containsGenericParameter payload = true ∧ concrete ≠ builtinNone ∧
          self.optionInnerType concrete = none := by
  rw [presentPayloadTemplate]
  cases self.optionInnerType template with
  | none => simp
  | some inner =>
      simp only [Option.some.injEq]
      split
      · rename_i h
        constructor
        · intro heq
          cases heq
          exact ⟨rfl, h⟩
        · intro heq
          rw [heq.1]
      · rename_i h
        refine iff_of_false (by simp) fun hpayload => h ?_
        rw [hpayload.1]
        exact hpayload.2

/-! ## The walk -/

/-- The positions of a function type: the parameters, then the returns, then the error. -/
def functionPositions (templateFunction concreteFunction : FunctionTypeKey) :
    List (TypeId × TypeId) :=
  templateFunction.parameters.zip concreteFunction.parameters ++
    templateFunction.returns.zip concreteFunction.returns ++
      templateFunction.errorReturn.toList.zip concreteFunction.errorReturn.toList

theorem functionPositions_left {template concrete : FunctionTypeKey} {position : TypeId × TypeId}
    (h : position ∈ functionPositions template concrete) :
    position.1 ∈ template.parameters ++ template.returns ++ template.errorReturn.toList := by
  rw [functionPositions, List.mem_append, List.mem_append] at h
  rw [List.mem_append, List.mem_append]
  rcases h with (h | h) | h
  · exact .inl (.inl (List.of_mem_zip h).1)
  · exact .inl (.inr (List.of_mem_zip h).1)
  · exact .inr (List.of_mem_zip h).1

mutual

def collectTypeParameterBindingsInner (self : TypeStore) (templateTypeId concreteTypeId : TypeId)
    (staged : GenericTypeBindings) : Except BindingConflict (Bool × GenericTypeBindings) :=
  match _h : self.presentPayloadTemplate templateTypeId concreteTypeId with
  | some payload => self.collectTypeParameterBindingsLayer payload concreteTypeId staged
  | none => self.collectTypeParameterBindingsLayer templateTypeId concreteTypeId staged
termination_by (templateTypeId.index, 1)
decreasing_by
  · exact .left _ _ (optionInnerType_lt (presentPayloadTemplate_eq_some.1 ‹_›).1)
  · exact .right _ Nat.zero_lt_one

/-- One template layer, whose optional wrap has been consumed already. -/
def collectTypeParameterBindingsLayer (self : TypeStore) (templateTypeId concreteTypeId : TypeId)
    (staged : GenericTypeBindings) : Except BindingConflict (Bool × GenericTypeBindings) :=
  match self.parameter templateTypeId with
  | some param =>
      if concreteTypeId = builtinNone then .ok (false, staged)
      else (staged.insertConsistent param concreteTypeId).map fun staged => (true, staged)
  | none =>
      if templateTypeId = concreteTypeId then .ok (true, staged)
      else
        match _h : self.get templateTypeId, self.get concreteTypeId with
        | some (.Constructed templateDef), some (.Constructed concreteDef) =>
            if templateDef.constructor = concreteDef.constructor ∧
                templateDef.arguments.length = concreteDef.arguments.length then
              whileMatched (fun position staged =>
                  self.collectTypeParameterBindingsInner position.1.1 position.1.2 staged)
                (templateDef.arguments.zip concreteDef.arguments).attach staged
            else .ok (false, staged)
        | some (.GenericInstance templateInst), some (.GenericInstance concreteInst) =>
            if templateInst.base = concreteInst.base ∧
                templateInst.arguments.length = concreteInst.arguments.length then
              whileMatched (fun position staged =>
                  self.collectTypeParameterBindingsInner position.1.1 position.1.2 staged)
                (templateInst.arguments.zip concreteInst.arguments).attach staged
            else .ok (false, staged)
        | some (.Function templateFunction), some (.Function concreteFunction) =>
            if templateFunction.parameters.length = concreteFunction.parameters.length ∧
                templateFunction.returns.length = concreteFunction.returns.length ∧
                templateFunction.errorReturn.isSome = concreteFunction.errorReturn.isSome then
              whileMatched (fun position staged =>
                  self.collectTypeParameterBindingsInner position.1.1 position.1.2 staged)
                (functionPositions templateFunction concreteFunction).attach staged
            else .ok (false, staged)
        | _, _ => .ok (false, staged)
termination_by (templateTypeId.index, 0)
decreasing_by
  all_goals
    refine .left _ _ (child_lt ‹_› ?_)
    simp only [TypeDefinition.children, TypeDefinition.shape, Option.map_some, Option.getD_some]
  · exact (List.of_mem_zip position.2).1
  · exact (List.of_mem_zip position.2).1
  · exact functionPositions_left position.2

end

/-- The walk on a staged copy of the bindings, committed only when it matched. -/
def tryCollectTypeParameterBindingsTypeid (self : TypeStore)
    (templateTypeId concreteTypeId : TypeId) (bindings : GenericTypeBindings) :
    Except BindingConflict Bool × GenericTypeBindings :=
  match self.collectTypeParameterBindingsInner templateTypeId concreteTypeId bindings with
  | .ok (true, staged) => (.ok true, staged)
  | .ok (false, _) => (.ok false, bindings)
  | .error conflict => (.error conflict, bindings)

end TypeStore

end Moth.Datatypes
