import Mathlib.Logic.Function.Basic
import Moth.Lib.Result

/-!
# String interning

`symbols/string_interning.rs`: a table stores strings by id and finds ids by
string. A module fork keeps the strings it inherited in a shared immutable
base and stores only what it adds; ids run on after the base.

Sharing and capacity are not modelled: a base is its contents. What panics in
the original has no result here: the id space running out and a remap asked
for an id that it does not cover. Debug assertions are not executed, as in a
release build; those of a delta merge are `SharesPrefix`.
-/

namespace Moth.Symbols

open Moth.Lib

/-- An id is a `u32`. -/
structure StringId where
  value : Nat
deriving DecidableEq

/-- The number of ids. -/
def idSpace : Nat := 4294967296

/-- An index cast to an id. -/
def StringId.fromIndex (index : Nat) : StringId := ⟨index % idSpace⟩

/-! ## Tables -/

/-- Strings under consecutive ids, by string. -/
def reverseLookup (start : Nat) (strings : List String) : String → Option StringId :=
  ((strings.zipIdx start).map fun row => (row.1, StringId.fromIndex row.2)).foldl
    (fun (lookup : String → Option StringId) row => Function.update lookup row.1 (some row.2))
    fun _ => none

/-- The inherited prefix of a fork. -/
structure StringTableBase where
  strings : List String
  stringToId : String → Option StringId

structure StringTable where
  base : Option StringTableBase
  strings : List String
  stringToId : String → Option StringId
  nextId : Nat

namespace StringTableBase

def len (self : StringTableBase) : Nat := self.strings.length

def tryResolve (self : StringTableBase) (id : StringId) : Option String := self.strings[id.value]?

end StringTableBase

namespace StringTable

def new : StringTable := ⟨none, [], fun _ => none, 0⟩

variable (self : StringTable)

def baseLen : Nat := self.base.elim 0 StringTableBase.len

def len : Nat := self.baseLen + self.strings.length

/-- All strings in id order, the inherited ones first. -/
def allStrings : List String := (self.base.elim [] StringTableBase.strings) ++ self.strings

/-- All strings with their ids. -/
def iter : List (StringId × String) :=
  (self.base.elim [] fun base => base.strings.zipIdx.map fun row =>
    (StringId.fromIndex row.2, row.1)) ++
  self.strings.zipIdx.map fun row => (StringId.fromIndex (self.baseLen + row.2), row.1)

def tryResolve (id : StringId) : Option String :=
  if id.value < self.baseLen then self.base.bind fun base => base.tryResolve id
  else self.strings[id.value - self.baseLen]?

/-! ## Interning -/

def existing (s : String) : Option StringId :=
  match self.base.bind fun base => base.stringToId s with
  | some existingId => some existingId
  | none => self.stringToId s

/-- Issue the next id; nothing when the id space is exhausted. -/
def allocateId : Option (StringId × StringTable) :=
  if self.nextId + 1 < idSpace then some (⟨self.nextId⟩, { self with nextId := self.nextId + 1 })
  else none

def internNew (s : String) : Option (StringId × StringTable) :=
  self.allocateId.map fun allocated =>
    (allocated.1, { allocated.2 with
      stringToId := Function.update allocated.2.stringToId s (some allocated.1)
      strings := allocated.2.strings ++ [s] })

def intern (s : String) : Option (StringId × StringTable) :=
  match self.existing s with
  | some existingId => some (existingId, self)
  | none => self.internNew s

/-- The same for an owned string, which is stored as it is. -/
def internNewOwned (s : String) : Option (StringId × StringTable) := self.internNew s

def getOrIntern (s : String) : Option (StringId × StringTable) :=
  match self.base.bind fun base => base.stringToId s with
  | some existingId => some (existingId, self)
  | none =>
      match self.stringToId s with
      | some existingId => some (existingId, self)
      | none => self.internNewOwned s

/-! ## Forks and clones -/

/-- The base that inherits every string of a table. -/
def toBase : StringTableBase where
  strings := self.allStrings
  stringToId := reverseLookup 0 self.allStrings

def fromSharedBase (base : StringTableBase) : StringTable where
  base := some base
  strings := []
  stringToId _ := none
  nextId := base.len % idSpace

/-- A local table, with the length of the prefix it inherits. -/
structure Fork where
  stringTable : StringTable
  baseLen : Nat

def forkForModule : Fork where
  stringTable := fromSharedBase self.toBase
  baseLen := self.toBase.len

/-- Flatten into a table of its own. -/
def clone : StringTable where
  base := none
  strings := self.iter.map Prod.snd
  stringToId := reverseLookup 0 (self.iter.map Prod.snd)
  nextId := self.len % idSpace

/-- Keep the inherited prefix; a root table becomes one. -/
def clonePreservingInheritedPrefix : StringTable :=
  match self.base with
  | none => fromSharedBase self.toBase
  | some base =>
      { base := some base
        strings := self.strings
        stringToId := reverseLookup self.baseLen self.strings
        nextId := self.nextId }

end StringTable

/-! ## Merges -/

/-- Ids of one table as ids of another, below the prefix length unchanged. -/
structure StringIdRemap where
  identityPrefixLen : Nat
  mappedSuffix : List StringId
  isIdentity : Bool
deriving DecidableEq

def StringIdRemap.get (self : StringIdRemap) (old : StringId) : Option StringId :=
  if old.value < self.identityPrefixLen then some old
  else self.mappedSuffix[old.value - self.identityPrefixLen]?

namespace StringTable

/-- The running state of a merge: the destination, the ids so far and whether all were kept. -/
structure Merging where
  table : StringTable
  mapped : List StringId
  isIdentity : Bool

/-- Intern one string of the source, of which the old id is known. -/
def mergeEntry (merging : Merging) (old : Nat) (s : String) : Option Merging :=
  (merging.table.intern s).map fun interned =>
    { table := interned.2
      mapped := merging.mapped ++ [interned.1]
      isIdentity := merging.isIdentity && interned.1.value == old }

variable (self : StringTable)

def mergeFrom (other : StringTable) : Option (StringIdRemap × StringTable) :=
  (other.iter.foldlM (fun merging entry => mergeEntry merging entry.1.value entry.2)
    ⟨self, [], true⟩).map fun merging =>
      (⟨0, merging.mapped, merging.isIdentity⟩, merging.table)

/-- What a delta merge asserts in a debug build: both tables have the inherited prefix. -/
def SharesPrefix (other : StringTable) (baseLen : Nat) : Prop :=
  baseLen ≤ self.len ∧ baseLen ≤ other.len ∧
    ∀ index < baseLen, self.tryResolve (.fromIndex index) = other.tryResolve (.fromIndex index)

instance (other : StringTable) (baseLen : Nat) : Decidable (self.SharesPrefix other baseLen) :=
  inferInstanceAs (Decidable (_ ∧ _ ∧ ∀ _, _))

def mergeDeltaFrom (other : StringTable) (baseLen : Nat) : Option (StringIdRemap × StringTable) :=
  ((other.iter.drop baseLen).foldlM (fun merging entry =>
    mergeEntry merging (baseLen + merging.mapped.length) entry.2) ⟨self, [], true⟩).map
      fun merging => (⟨baseLen, merging.mapped, merging.isIdentity⟩, merging.table)

end StringTable

/-! ## Any number of tables -/

inductive Operation where
  | New
  | Intern (table : Nat) (s : String)
  | GetOrIntern (table : Nat) (s : String)
  | ForkForModule (table : Nat)
  | ClonePreservingInheritedPrefix (table : Nat)
  | Clone (table : Nat)
  | MergeFrom (destination source : Nat)
  | MergeDeltaFrom (destination source baseLen : Nat)
deriving DecidableEq

inductive Outcome where
  | Created
  | Interned (id : StringId)
  | Forked (baseLen : Nat)
  | Merged (remap : StringIdRemap)
deriving DecidableEq

/-- Run one operation on the tables; nothing when it panics or names no table. -/
def step (tables : List StringTable) : Operation → Option (List StringTable × Outcome)
  | .New => some (tables ++ [.new], .Created)
  | .Intern table s => do
      let (id, next) ← (← tables[table]?).intern s
      return (tables.set table next, .Interned id)
  | .GetOrIntern table s => do
      let (id, next) ← (← tables[table]?).getOrIntern s
      return (tables.set table next, .Interned id)
  | .ForkForModule table => do
      let fork := (← tables[table]?).forkForModule
      return (tables ++ [fork.stringTable], .Forked fork.baseLen)
  | .ClonePreservingInheritedPrefix table => do
      return (tables ++ [(← tables[table]?).clonePreservingInheritedPrefix], .Created)
  | .Clone table => do
      return (tables ++ [(← tables[table]?).clone], .Created)
  | .MergeFrom destination source => do
      let (remap, next) ← (← tables[destination]?).mergeFrom (← tables[source]?)
      return (tables.set destination next, .Merged remap)
  | .MergeDeltaFrom destination source baseLen => do
      let (remap, next) ← (← tables[destination]?).mergeDeltaFrom (← tables[source]?) baseLen
      return (tables.set destination next, .Merged remap)

/-- Run a sequence of operations. -/
def run (tables : List StringTable) : List Operation → Option (List StringTable)
  | [] => some tables
  | operation :: rest => (step tables operation).bind fun next => run next.1 rest

end Moth.Symbols
