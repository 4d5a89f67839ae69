import Moth.Datatypes.NumericScalar
import Moth.Lib.Term
import Moth.Symbols.StringInterning

/-!
# The type store

`TypeEnvironment` of `datatypes/environment.rs`, with its rows: type
definitions under consecutive ids, and the maps that find the id of a
definition by its key. Every structural type is interned, so a definition has
one id, and its parts are there before it.

The six key maps are one table here, keyed by their kinds, and the rows that a
generated fork inherits are the first rows of the one list: an inherited id
reads the base and any other id the rows after it. Of a nominal type only its
id stands in its row, since structure goes no further than a nominal type.
What numeric code reads of a store is `TypeEnvironment`.
-/

namespace Moth.Datatypes

open Moth.Lexical Moth.Lib Moth.Symbols

structure NominalTypeId where
  index : Nat
deriving DecidableEq

structure GenericParameterId where
  index : Nat
deriving DecidableEq

structure ExternalTypeId where
  index : Nat
deriving DecidableEq

inductive BuiltinTypeConstructor where
  | Collection (fixedCapacity : Option Nat)
  | OrderedMap
  | Option
deriving DecidableEq

inductive TypeConstructor where
  | Builtin (constructor : BuiltinTypeConstructor)
deriving DecidableEq

/-- How many arguments the constructor is interned with. -/
def TypeConstructor.arity : TypeConstructor → Nat
  | .Builtin (.Collection _) => 1
  | .Builtin .OrderedMap => 2
  | .Builtin .Option => 1

@[ext] structure ConstructedTypeKey where
  constructor : TypeConstructor
  arguments : List TypeId
deriving DecidableEq

@[ext] structure GenericInstanceKey where
  base : NominalTypeId
  arguments : List TypeId
deriving DecidableEq

@[ext] structure FunctionTypeKey where
  parameters : List TypeId
  returns : List TypeId
  errorReturn : Option TypeId
deriving DecidableEq

structure GenericParameterDefinition where
  id : GenericParameterId
  name : StringId
deriving DecidableEq

/-- A row of the store. A structural definition is its key. -/
inductive TypeDefinition where
  | Builtin (key : BuiltinTypeKey)
  | Struct (id : NominalTypeId)
  | Choice (id : NominalTypeId)
  | Constructed (definition : ConstructedTypeKey)
  | Function (definition : FunctionTypeKey)
  | External (typeId : ExternalTypeId)
  | GenericParameter (definition : GenericParameterDefinition)
  | AnonymousConstRecordMarker
  | GenericInstance (definition : GenericInstanceKey)
deriving DecidableEq

/-- What the store finds an id by. -/
inductive TypeKey where
  | builtin (key : BuiltinTypeKey)
  | constructed (key : ConstructedTypeKey)
  | function (key : FunctionTypeKey)
  | external (id : ExternalTypeId)
  | genericInstance (key : GenericInstanceKey)
  | genericParameter (id : GenericParameterId)
deriving DecidableEq

/-- The constructor of a structural type, with the number of its parts. -/
inductive TypeHead where
  | constructed (constructor : TypeConstructor) (arguments : Nat)
  | function (parameters returns : Nat) (errorReturn : Bool)
  | genericInstance (base : NominalTypeId) (arguments : Nat)
deriving DecidableEq

namespace TypeDefinition

/-- The key that a definition is interned under. Nominal types and the marker have none. -/
def key : TypeDefinition → Option TypeKey
  | .Builtin key => some (.builtin key)
  | .Constructed definition => some (.constructed definition)
  | .Function definition => some (.function definition)
  | .External typeId => some (.external typeId)
  | .GenericInstance definition => some (.genericInstance definition)
  | .GenericParameter definition => some (.genericParameter definition.id)
  | .Struct _ | .Choice _ | .AnonymousConstRecordMarker => none

/-- A structural definition as a constructor over its parts. -/
def shape : TypeDefinition → Option (TypeHead × List TypeId)
  | .Constructed definition =>
      some (.constructed definition.constructor definition.arguments.length, definition.arguments)
  | .Function definition =>
      some (.function definition.parameters.length definition.returns.length
          definition.errorReturn.isSome,
        definition.parameters ++ definition.returns ++ definition.errorReturn.toList)
  | .GenericInstance definition =>
      some (.genericInstance definition.base definition.arguments.length, definition.arguments)
  | .Builtin _ | .Struct _ | .Choice _ | .External _ | .GenericParameter _
  | .AnonymousConstRecordMarker => none

def children (definition : TypeDefinition) : List TypeId :=
  (definition.shape.map Prod.snd).getD []

/-- What may be interned as the row at `index`. -/
structure Valid (index : Nat) (definition : TypeDefinition) : Prop where
  children_lt : ∀ child ∈ definition.children, child.index < index
  arity : ∀ key, definition = .Constructed key → key.arguments.length = key.constructor.arity

/-- The constructor and the parts of a structural definition are all there is to it. -/
theorem shape_inj {d d' : TypeDefinition} {s : TypeHead × List TypeId} (h : d.shape = some s)
    (h' : d'.shape = some s) : d = d' := by
  cases d with
  | Constructed key =>
      cases h
      cases d' <;> simp only [shape, Option.some.injEq, Prod.mk.injEq, reduceCtorEq, false_and,
        TypeHead.constructed.injEq] at h'
      obtain ⟨⟨hconstructor, -⟩, harguments⟩ := h'
      cases key
      simp_all [ConstructedTypeKey.ext_iff]
  | GenericInstance key =>
      cases h
      cases d' <;> simp only [shape, Option.some.injEq, Prod.mk.injEq, reduceCtorEq, false_and,
        TypeHead.genericInstance.injEq] at h'
      obtain ⟨⟨hbase, -⟩, harguments⟩ := h'
      cases key
      simp_all [GenericInstanceKey.ext_iff]
  | Function key =>
      cases h
      cases d' <;> simp only [shape, Option.some.injEq, Prod.mk.injEq, reduceCtorEq, false_and,
        TypeHead.function.injEq, List.append_assoc] at h'
      obtain ⟨⟨hparameters, hreturns, -⟩, hparts⟩ := h'
      obtain ⟨hparameters, hparts⟩ := List.append_inj hparts hparameters
      obtain ⟨hreturns, herror⟩ := List.append_inj hparts hreturns
      have herror := congrArg List.head? herror
      rw [Option.head?_toList, Option.head?_toList] at herror
      cases key
      simp_all [FunctionTypeKey.ext_iff]
  | Builtin _ | Struct _ | Choice _ | External _ | GenericParameter _
  | AnonymousConstRecordMarker => cases h

end TypeDefinition

/-! ## Interned rows -/

/-- Rows under consecutive ids, with the table of their keys. -/
structure TypeRows where
  rows : List TypeDefinition
  ids : TypeKey → Option TypeId
  valid : ∀ (i : Nat) (d : TypeDefinition), rows[i]? = some d → d.Valid i
  keyed : ∀ (key : TypeKey) (id : TypeId), ids key = some id ↔
    rows[id.index]?.bind TypeDefinition.key = some key

namespace TypeRows

theorem empty_valid (i : Nat) (d : TypeDefinition) (h : ([] : List TypeDefinition)[i]? = some d) :
    d.Valid i := by
  cases h

theorem empty_keyed (key : TypeKey) (id : TypeId) :
    (none : Option TypeId) = some id ↔
      ([] : List TypeDefinition)[id.index]?.bind TypeDefinition.key = some key := by
  simp

def empty : TypeRows := ⟨[], fun _ => none, empty_valid, empty_keyed⟩

variable (self : TypeRows)

theorem push_valid {d : TypeDefinition} (h : d.Valid self.rows.length) (i : Nat)
    (row : TypeDefinition) (hrow : (self.rows ++ [d])[i]? = some row) : row.Valid i := by
  rcases Nat.lt_trichotomy i self.rows.length with hlt | rfl | hgt
  · rw [List.getElem?_append_left hlt] at hrow
    exact self.valid i row hrow
  · rw [List.getElem?_concat_length] at hrow
    cases hrow
    exact h
  · rw [List.getElem?_eq_none (by simp; omega)] at hrow
    cases hrow

/-- The id of the next row. -/
def nextId : TypeId := ⟨self.rows.length⟩

/-- The table once `d` is the next row. -/
def pushedIds (d : TypeDefinition) (key : TypeKey) : Option TypeId :=
  if d.key = some key then some self.nextId else self.ids key

theorem lt_of_ids {key : TypeKey} {id : TypeId} (h : self.ids key = some id) :
    id.index < self.rows.length := by
  obtain ⟨row, hrow, -⟩ := Option.bind_eq_some_iff.1 ((self.keyed key id).1 h)
  exact (List.getElem?_eq_some_iff.1 hrow).1

theorem push_keyed {d : TypeDefinition} (fresh : ∀ key, d.key = some key → self.ids key = none)
    (key : TypeKey) (id : TypeId) : self.pushedIds d key = some id ↔
      (self.rows ++ [d])[id.index]?.bind TypeDefinition.key = some key := by
  have hnew : ∀ id : TypeId, self.rows.length ≤ id.index → self.ids key ≠ some id :=
    fun id hle h => absurd (self.lt_of_ids h) (Nat.not_lt.2 hle)
  rw [pushedIds]
  rcases Nat.lt_trichotomy id.index self.rows.length with hlt | heq | hgt
  · -- an old row keeps its key, and the pushed key was in no old row
    rw [List.getElem?_append_left hlt, ← self.keyed]
    split
    · rename_i hkey
      rw [fresh key hkey]
      refine iff_of_false (fun h => ?_) (by simp)
      rw [← Option.some.inj h] at hlt
      exact Nat.lt_irrefl _ hlt
    · rfl
  · have hid : id = self.nextId := by
      cases id
      exact congrArg _ heq
    rw [heq, List.getElem?_concat_length, Option.bind_some, hid]
    split
    · rename_i hkey
      exact iff_of_true rfl hkey
    · rename_i hkey
      exact iff_of_false (hnew _ (Nat.le_refl _)) hkey
  · rw [List.getElem?_eq_none (by simp; omega)]
    refine iff_of_false (fun h => ?_) (by simp)
    split at h
    · rw [← Option.some.inj h] at hgt
      exact Nat.lt_irrefl _ hgt
    · exact hnew id (Nat.le_of_lt hgt) h

def insertDefinition (definition : TypeDefinition) (valid : definition.Valid self.rows.length)
    (fresh : ∀ key, definition.key = some key → self.ids key = none) : TypeId × TypeRows :=
  (self.nextId,
    ⟨self.rows ++ [definition], self.pushedIds definition, self.push_valid valid,
      self.push_keyed fresh⟩)

theorem fresh_of_bind {d : TypeDefinition} (h : d.key.bind self.ids = none) (key : TypeKey)
    (hkey : d.key = some key) : self.ids key = none := by
  rw [hkey] at h
  exact h

/-- The id of the definition's key, or a new row where there is none. -/
def intern (definition : TypeDefinition) (valid : definition.Valid self.rows.length) :
    TypeId × TypeRows :=
  match h : definition.key.bind self.ids with
  | some existing => (existing, self)
  | none => self.insertDefinition definition valid (self.fresh_of_bind h)

theorem intern_rows (d : TypeDefinition) (valid : d.Valid self.rows.length) :
    self.rows <+: (self.intern d valid).2.rows := by
  rw [intern]
  split
  · exact List.prefix_rfl
  · exact List.prefix_append _ _

end TypeRows

theorem TypeDefinition.valid_of_shape {d : TypeDefinition} (h : d.shape = none) (n : Nat) :
    d.Valid n where
  children_lt child hchild := by
    rw [children, h] at hchild
    cases hchild
  arity key hkey := by
    subst hkey
    cases h

/-! ## The store -/

/-- The builtin keys in the order of their seeding. -/
def seedKeys : List BuiltinTypeKey :=
  [.Bool, .String, .Char, .Range, .None] ++
    [FixedScalar.I8, .I16, .I32, .I64, .U8, .U16, .U32, .U64, .F16, .F32, .F64, .Byte].map
      BuiltinTypeKey.FixedScalar

/-- `TypeEnvironment`: interned rows after the seeded ones. -/
structure TypeStore extends TypeRows where
  seeded : seedKeys.map TypeDefinition.Builtin <+: rows

namespace TypeStore

def seededRows : TypeRows :=
  seedKeys.foldl (fun rows key =>
    (rows.intern (.Builtin key) (TypeDefinition.valid_of_shape rfl _)).2) .empty

theorem new_seeded : seedKeys.map TypeDefinition.Builtin <+:
    (seededRows.intern .AnonymousConstRecordMarker (TypeDefinition.valid_of_shape rfl _)).2.rows :=
  seededRows.intern_rows _ _

def new : TypeStore where
  toTypeRows :=
    (seededRows.intern .AnonymousConstRecordMarker (TypeDefinition.valid_of_shape rfl _)).2
  seeded := new_seeded

variable (self : TypeStore)

def get (id : TypeId) : Option TypeDefinition := self.rows[id.index]?

/-- The id of the seeded `None` type. -/
def builtinNone : TypeId := ⟨4⟩

/-- An id of this store. -/
def Has (id : TypeId) : Prop := id.index < self.rows.length

/-! ### Interning -/

theorem intern_seeded (d : TypeDefinition) (valid : d.Valid self.rows.length) :
    seedKeys.map TypeDefinition.Builtin <+: (self.toTypeRows.intern d valid).2.rows :=
  self.seeded.trans (self.toTypeRows.intern_rows d valid)

def internDefinition (definition : TypeDefinition) (valid : definition.Valid self.rows.length) :
    TypeId × TypeStore :=
  ((self.toTypeRows.intern definition valid).1,
    ⟨(self.toTypeRows.intern definition valid).2, self.intern_seeded definition valid⟩)

theorem constructed_valid {key : ConstructedTypeKey} (arguments : ∀ a ∈ key.arguments, self.Has a)
    (arity : key.arguments.length = key.constructor.arity) :
    (TypeDefinition.Constructed key).Valid self.rows.length where
  children_lt := arguments
  arity key' hkey := by
    cases hkey
    exact arity

def internConstructed (constructor : TypeConstructor) (arguments : List TypeId)
    (known : ∀ a ∈ arguments, self.Has a) (arity : arguments.length = constructor.arity) :
    TypeId × TypeStore :=
  self.internDefinition (.Constructed ⟨constructor, arguments⟩)
    (self.constructed_valid known arity)

def internCollection (elementType : TypeId) (fixedCapacity : Option Nat)
    (known : self.Has elementType) : TypeId × TypeStore :=
  self.internConstructed (.Builtin (.Collection fixedCapacity)) [elementType]
    (List.forall_mem_singleton.2 known) rfl

def internGenericParameter (id : GenericParameterId) (name : StringId) : TypeId × TypeStore :=
  self.internDefinition (.GenericParameter ⟨id, name⟩) (TypeDefinition.valid_of_shape rfl _)

/-! ### Types as terms -/

theorem id_unique {a b : TypeId} {d d' : TypeDefinition} {key : TypeKey} (ha : self.get a = some d)
    (hb : self.get b = some d') (hd : d.key = some key) (hd' : d'.key = some key) : a = b := by
  have hfound : ∀ {id : TypeId} {row : TypeDefinition}, self.get id = some row →
      row.key = some key → self.ids key = some id := by
    intro id row hrow hkey
    refine (self.keyed key id).2 ?_
    rw [get] at hrow
    rw [hrow]
    exact hkey
  exact Option.some.inj ((hfound ha hd).symm.trans (hfound hb hd'))

theorem get_builtinNone : self.get builtinNone = some (.Builtin .None) := by
  obtain ⟨rest, hrest⟩ := self.seeded
  rw [get, ← hrest]
  rfl

/-- The parameter that an id stands for. -/
def parameter (id : TypeId) : Option GenericParameterId :=
  match self.get id with
  | some (.GenericParameter definition) => some definition.id
  | _ => none

def shape (id : TypeId) : Option (TypeHead × List TypeId) := (self.get id).bind TypeDefinition.shape

variable {self}

theorem part_lt {id : TypeId} {s : TypeHead × List TypeId} (h : self.shape id = some s)
    {part : TypeId} (hpart : part ∈ s.2) : part.index < id.index := by
  obtain ⟨d, hget, hshape⟩ := Option.bind_eq_some_iff.1 h
  refine (self.valid id.index d hget).children_lt part ?_
  rw [TypeDefinition.children, hshape]
  exact hpart

variable (self)

/-- The structure of a type. -/
def term (self : TypeStore) (id : TypeId) : Term TypeHead TypeId GenericParameterId :=
  match self.parameter id with
  | some p => .param p
  | none =>
      match _h : self.shape id with
      | some s => .node s.1 (s.2.attach.map fun part => self.term part.1)
      | none => .atom id
termination_by id.index
decreasing_by exact part_lt ‹_› part.2

variable {self} {a b id : TypeId}

theorem get_of_parameter {p : GenericParameterId} (h : self.parameter id = some p) :
    ∃ d, self.get id = some (.GenericParameter d) ∧ d.id = p := by
  rw [parameter] at h
  split at h
  · rename_i d hget
    exact ⟨d, hget, Option.some.inj h⟩
  · cases h

theorem term_param {p : GenericParameterId} (h : self.parameter id = some p) :
    self.term id = .param p := by
  rw [term, h]

theorem parameter_of_shape {s : TypeHead × List TypeId} (h : self.shape id = some s) :
    self.parameter id = none := by
  rw [parameter]
  split
  · rename_i d hget
    rw [shape, hget] at h
    cases h
  · rfl

theorem term_node {s : TypeHead × List TypeId} (h : self.shape id = some s) :
    self.term id = .node s.1 (s.2.map self.term) := by
  rw [term, parameter_of_shape h]
  simp only []
  split
  · rename_i s' h'
    cases h.symm.trans h'
    rw [← List.attach_map_subtype_val s.2, List.map_map, List.attach_map_subtype_val]
    rfl
  · rename_i h'
    cases h.symm.trans h'

theorem term_atom (hparameter : self.parameter id = none) (h : self.shape id = none) :
    self.term id = .atom id := by
  rw [term, hparameter]
  simp only []
  split
  · rename_i h'
    cases h.symm.trans h'
  · rfl

theorem term_cases (self : TypeStore) (id : TypeId) :
    (∃ p, self.parameter id = some p ∧ self.term id = .param p) ∨
      (∃ s, self.shape id = some s ∧ self.term id = .node s.1 (s.2.map self.term)) ∨
      self.parameter id = none ∧ self.shape id = none ∧ self.term id = .atom id := by
  cases hparameter : self.parameter id with
  | some p => exact .inl ⟨p, rfl, term_param hparameter⟩
  | none =>
      cases hshape : self.shape id with
      | some s => exact .inr (.inl ⟨s, rfl, term_node hshape⟩)
      | none => exact .inr (.inr ⟨rfl, rfl, term_atom hparameter hshape⟩)

theorem parameter_inj {p : GenericParameterId} (ha : self.parameter a = some p)
    (hb : self.parameter b = some p) : a = b := by
  obtain ⟨d, hd, rfl⟩ := get_of_parameter ha
  obtain ⟨d', hd', heq⟩ := get_of_parameter hb
  exact self.id_unique hd hd' rfl (congrArg (fun p => some (TypeKey.genericParameter p)) heq)

theorem shape_inj {s : TypeHead × List TypeId} (ha : self.shape a = some s)
    (hb : self.shape b = some s) : a = b := by
  obtain ⟨d, hd, hshape⟩ := Option.bind_eq_some_iff.1 ha
  obtain ⟨d', hd', hshape'⟩ := Option.bind_eq_some_iff.1 hb
  obtain rfl := TypeDefinition.shape_inj hshape hshape'
  cases d <;> first | exact self.id_unique hd hd' rfl rfl | cases hshape

/-- Structural types are one id each: ids of the same structure are the same. -/
theorem term_injective (self : TypeStore) : Function.Injective self.term := by
  suffices h : ∀ n, ∀ a b : TypeId, a.index < n → self.term a = self.term b → a = b from
    fun a b => h (a.index + 1) a b (Nat.lt_succ_self _)
  intro n
  induction n with
  | zero => exact fun a b hlt => absurd hlt (Nat.not_lt_zero _)
  | succ n ih =>
      intro a b hlt heq
      rcases self.term_cases a with ⟨p, ha, hta⟩ | ⟨s, ha, hta⟩ | ⟨-, -, hta⟩ <;>
      rcases self.term_cases b with ⟨q, hb, htb⟩ | ⟨s', hb, htb⟩ | ⟨-, -, htb⟩ <;>
      rw [hta, htb] at heq <;>
      simp only [Term.param.injEq, Term.node.injEq, Term.atom.injEq, reduceCtorEq] at heq
      · subst heq
        exact parameter_inj ha hb
      · -- the parts agree as terms, so they are the same ids
        have hparts : s.2 = s'.2 := Term.eq_of_map_eq
          (fun part hpart other h => ih part other (by have := part_lt ha hpart; omega) h) heq.2
        exact shape_inj ha (by rw [hb, Prod.ext heq.1 hparts])
      · exact heq

end TypeStore

end Moth.Datatypes
