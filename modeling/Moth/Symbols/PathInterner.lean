import Moth.Symbols.StringInterning

/-!
# Path interning

`symbols/path_interner`: complete logical paths as rows of a parent-linked
table, interned one component at a time. A table keeps an immutable base of
segments and an append-only suffix; a builder finds the children of a path in
its own map and in the maps of the layers it shares, and a fork does the same
over a base it inherited. Merges carry the rows of a fork, of a snapshot or of
a foreign table over to a destination.

Sharing, capacity and counters are not modelled, nor are rendering and the
interning of spelled paths, which only call what is here. A result is absent
where the original panics; running out of ids is an answer.
-/

namespace Moth.Symbols

/-- A path is named by its node's index; the original stores the index plus one. -/
structure PathId where
  index : Nat
deriving DecidableEq

namespace PathId

/-- The empty path. -/
def ROOT : PathId := ⟨0⟩

/-- The id of an index, of which the successor must fit a `u32`. -/
def tryFromIndex (index : Nat) : Option PathId :=
  if index + 1 < idSpace then some ⟨index⟩ else none

end PathId

/-- One node; the root's component is not read. -/
structure PathNode where
  parent : Option PathId
  component : StringId
deriving DecidableEq

/-- A map from a parent and a component to the child, later entries first. -/
abbrev PathLookup := List ((PathId × StringId) × PathId)

/-! ## Tables -/

structure PathTableSegment where
  nodes : List PathNode
  depths : List Nat

/-- Immutable rows in segments, with the index after each segment. -/
structure PathTableBase where
  segments : List PathTableSegment
  segmentEnds : List Nat
  len : Nat

namespace PathTableBase

def fromParts (nodes : List PathNode) (depths : List Nat) : PathTableBase :=
  ⟨[⟨nodes, depths⟩], [nodes.length], nodes.length⟩

variable (self : PathTableBase)

def withSegment (segment : PathTableSegment) : PathTableBase where
  segments := self.segments ++ [segment]
  segmentEnds := self.segmentEnds ++ [self.len + segment.nodes.length]
  len := self.len + segment.nodes.length

/-- Look an index up in the rows of the segment that has it. -/
def rowIn {α : Type} (rows : PathTableSegment → List α) (index : Nat) : Option α :=
  if self.len ≤ index then none
  else if self.segments.length = 1 then self.segments.head?.bind fun only => (rows only)[index]?
  else
    match self.segments.getLast? with
    | none => none
    | some last =>
        let lastStart := self.len - (rows last).length
        if lastStart ≤ index then (rows last)[index - lastStart]?
        else
          let segmentIndex := (self.segmentEnds.takeWhile (· ≤ index)).length
          let start := if segmentIndex = 0 then 0
            else (self.segmentEnds[segmentIndex - 1]?).getD 0
          (self.segments[segmentIndex]?).bind fun segment => (rows segment)[index - start]?

def node (index : Nat) : Option PathNode := self.rowIn PathTableSegment.nodes index

def depth (index : Nat) : Option Nat := self.rowIn PathTableSegment.depths index

def snapshotWithSuffix (nodes : List PathNode) (depths : List Nat) : PathTableBase :=
  self.withSegment ⟨nodes, depths⟩

/-- All rows, copied out of the segments. -/
def copyInto : List PathNode × List Nat :=
  (self.segments.flatMap PathTableSegment.nodes, self.segments.flatMap PathTableSegment.depths)

end PathTableBase

/-- What a query reads of a path: absent where the original panics. -/
@[ext]
structure PathLinks where
  parent : PathId → Option (Option PathId)
  component : PathId → Option (Option StringId)
  depth : PathId → Option Nat

namespace PathLinks

variable (self : PathLinks)

/-- Go up some steps, of which each must find a parent. -/
def ascend : Nat → PathId → Option PathId
  | 0, current => some current
  | steps + 1, current => do ascend steps (← (← self.parent current))

def startsWith (path pre : PathId) : Option Bool := do
  let pathDepth ← self.depth path
  let preDepth ← self.depth pre
  if pathDepth < preDepth then return false
  else return (← self.ascend (pathDepth - preDepth) path) == pre

/-- Compare components on the way up from two paths. -/
def matchUp : Nat → PathId → PathId → Option Bool
  | 0, _, _ => some true
  | steps + 1, pathCursor, suffixCursor => do
      if (← self.component pathCursor) != (← self.component suffixCursor) then return false
      else matchUp steps (← (← self.parent pathCursor)) (← (← self.parent suffixCursor))

def endsWith (path suffix : PathId) : Option Bool := do
  let pathDepth ← self.depth path
  let suffixDepth ← self.depth suffix
  if pathDepth < suffixDepth then return false
  else self.matchUp suffixDepth path suffix

/-- The components met on the way up. -/
def componentsUp : Nat → PathId → Option (List StringId)
  | 0, _ => some []
  | remaining + 1, current => do
      let component ← (← self.component current)
      return component :: (← componentsUp remaining (← (← self.parent current)))

def resolveComponents (path : PathId) : Option (List StringId) := do
  return (← self.componentsUp (← self.depth path) path).reverse

end PathLinks

/-- A base and the rows added since. -/
structure PathTable where
  base : PathTableBase
  nodes : List PathNode
  depths : List Nat

namespace PathTable

def fromParts (nodes : List PathNode) (depths : List Nat) : PathTable :=
  ⟨.fromParts nodes depths, [], []⟩

def fromSharedParts (base : PathTableBase) (nodes : List PathNode) (depths : List Nat) :
    PathTable := ⟨base, nodes, depths⟩

def new : PathTable := fromParts [⟨none, ⟨0⟩⟩] [0]

variable (self : PathTable)

def len : Nat := self.base.len + self.nodes.length

def node (index : Nat) : Option PathNode :=
  if index < self.base.len then self.base.node index else self.nodes[index - self.base.len]?

def depthAt (index : Nat) : Option Nat :=
  if index < self.base.len then self.base.depth index else self.depths[index - self.base.len]?

def tryParent (path : PathId) : Option PathId := (self.node path.index).bind PathNode.parent

def tryComponent (path : PathId) : Option StringId :=
  if path = PathId.ROOT then none else (self.node path.index).map PathNode.component

def tryDepth (path : PathId) : Option Nat := self.depthAt path.index

def links : PathLinks where
  parent path := (self.node path.index).map PathNode.parent
  component path := if path = PathId.ROOT then some none
    else (self.node path.index).map fun node => some node.component
  depth path := self.depthAt path.index

def sealSharedBase : PathTable :=
  if self.nodes.isEmpty then self else ⟨self.base.withSegment ⟨self.nodes, self.depths⟩, [], []⟩

def snapshotBase : PathTableBase :=
  if self.nodes.isEmpty then self.base else self.base.withSegment ⟨self.nodes, self.depths⟩

end PathTable

/-! ## Interning -/

/-- The answer of interning a child: the id with what is left, or no room for another id. -/
inductive Interned (σ : Type) where
  | child (path : PathId) (next : σ)
  | full

/-- Append a child; the depth of a path that is not there panics. -/
def PathTable.tryAppendChild (self : PathTable) (parent : PathId) (component : StringId) :
    Option (Interned PathTable) :=
  match PathId.tryFromIndex self.len with
  | none => some .full
  | some child => (self.links.depth parent).map fun parentDepth =>
      if parentDepth + 1 < idSpace then
        .child child { self with
          nodes := self.nodes ++ [⟨some parent, component⟩]
          depths := self.depths ++ [parentDepth + 1] }
      else .full

/-- The child that the newest layer with the key has. -/
def childInLayers (layers : List PathLookup) (key : PathId × StringId) : Option PathId :=
  layers.reverse.findSome? fun layer => layer.lookup key

structure PathInternerBuilder where
  table : PathTable
  lookupLayers : List PathLookup
  lookup : PathLookup

structure PathInternerBase where
  table : PathTableBase
  lookupLayers : List PathLookup

structure PathInternerFork where
  base : PathInternerBase
  baseLen : Nat
  nodes : List PathNode
  depths : List Nat
  lookup : PathLookup

namespace PathInternerBuilder

def new : PathInternerBuilder := ⟨.new, [], []⟩

variable (self : PathInternerBuilder)

def len : Nat := self.table.len

def tryInternChild (parent : PathId) (component : StringId) :
    Option (Interned PathInternerBuilder) :=
  match self.lookup.lookup (parent, component) with
  | some existing => some (.child existing self)
  | none =>
      match childInLayers self.lookupLayers (parent, component) with
      | some existing => some (.child existing self)
      | none => (self.table.tryAppendChild parent component).map fun
          | .full => .full
          | .child child table =>
              .child child
                { self with table, lookup := ((parent, component), child) :: self.lookup }

def sealSharedPrefix : PathInternerBuilder where
  table := self.table.sealSharedBase
  lookupLayers := if self.lookup.isEmpty then self.lookupLayers
    else self.lookupLayers ++ [self.lookup]
  lookup := []

/-- A sibling over the same rows, and this builder with its rows sealed. -/
def forkWithSharedPrefix : PathInternerBuilder × PathInternerBuilder :=
  let sealed := self.sealSharedPrefix
  (⟨sealed.table, sealed.lookupLayers, []⟩, sealed)

def sharedTable : PathTable × PathInternerBuilder :=
  let sealed := self.sealSharedPrefix
  (sealed.table, sealed)

def freeze : PathTable := self.table

end PathInternerBuilder

namespace PathInternerBase

/-- A fork source, over a base of its own. -/
def forkForModule (self : PathInternerBase) : PathInternerFork := ⟨self, self.table.len, [], [], []⟩

def child (self : PathInternerBase) (key : PathId × StringId) : Option PathId :=
  childInLayers self.lookupLayers key

end PathInternerBase

def PathInternerBuilder.forkSource (self : PathInternerBuilder) : PathInternerBase where
  table := self.table.snapshotBase
  lookupLayers := if self.lookup.isEmpty then self.lookupLayers
    else self.lookupLayers ++ [self.lookup]

namespace PathInternerFork

def empty : PathInternerFork := PathInternerBase.forkForModule ⟨PathTable.new.base, []⟩

variable (self : PathInternerFork)

def len : Nat := self.baseLen + self.nodes.length

def links : PathLinks where
  parent path := if path.index < self.baseLen
    then some ((self.base.table.node path.index).bind PathNode.parent)
    else (self.nodes[path.index - self.baseLen]?).map PathNode.parent
  component path := if path = PathId.ROOT then some none
    else if path.index < self.baseLen
    then some ((self.base.table.node path.index).map PathNode.component)
    else (self.nodes[path.index - self.baseLen]?).map fun node => some node.component
  depth path := if path.index < self.baseLen then self.base.table.depth path.index
    else self.depths[path.index - self.baseLen]?

def tryParent (path : PathId) : Option PathId :=
  if path.index < self.baseLen then (self.base.table.node path.index).bind PathNode.parent
  else (self.nodes[path.index - self.baseLen]?).bind PathNode.parent

def tryComponent (path : PathId) : Option StringId :=
  if path = PathId.ROOT then none
  else if path.index < self.baseLen then (self.base.table.node path.index).map PathNode.component
  else (self.nodes[path.index - self.baseLen]?).map PathNode.component

def tryDepth (path : PathId) : Option Nat :=
  if path.index < self.baseLen then self.base.table.depth path.index
  else self.depths[path.index - self.baseLen]?

def resolveComponents : PathId → Option (List StringId) := self.links.resolveComponents

def tryInternChild (parent : PathId) (component : StringId) :
    Option (Interned PathInternerFork) :=
  match self.lookup.lookup (parent, component) with
  | some existing => some (.child existing self)
  | none =>
      match self.base.child (parent, component) with
      | some existing => some (.child existing self)
      | none => (self.links.depth parent).map fun parentDepth =>
          if parentDepth + 1 < idSpace then
            match PathId.tryFromIndex (self.baseLen + self.nodes.length) with
            | none => .full
            | some child =>
                .child child { self with
                  nodes := self.nodes ++ [⟨some parent, component⟩]
                  depths := self.depths ++ [parentDepth + 1]
                  lookup := ((parent, component), child) :: self.lookup }
          else .full

/-- Intern components below a path; rows made before the ids run out stay. -/
def tryInternBelow (self : PathInternerFork) (path : PathId) :
    List StringId → Option (Option PathId × PathInternerFork)
  | [] => some (some path, self)
  | component :: rest =>
      match self.tryInternChild path component with
      | none => none
      | some .full => some (none, self)
      | some (.child child next) => next.tryInternBelow child rest

def tryInternComponents (components : List StringId) : Option (Option PathId × PathInternerFork) :=
  self.tryInternBelow PathId.ROOT components

def tryJoin (pre suffix : PathId) : Option (Option PathId × PathInternerFork) := do
  self.tryInternBelow pre (← self.resolveComponents suffix)

def forkSource : PathInternerBase where
  table := if self.nodes.isEmpty then self.base.table
    else self.base.table.snapshotWithSuffix self.nodes self.depths
  lookupLayers := if self.lookup.isEmpty then self.base.lookupLayers
    else self.base.lookupLayers ++ [self.lookup]

def sharedTable : PathTable := .fromSharedParts self.base.table self.nodes self.depths

def snapshotTable : PathTable :=
  let (nodes, depths) := self.base.table.copyInto
  .fromParts (nodes ++ self.nodes) (depths ++ self.depths)

def forkPathBuilder : PathInternerBuilder :=
  ⟨self.sharedTable, self.base.lookupLayers, self.lookup⟩

end PathInternerFork

/-! ## Merges -/

/-- Ids of one table as ids of another, below the prefix length unchanged. -/
structure PathIdRemap where
  identityPrefixLen : Nat
  mappedSuffix : List PathId
  isIdentity : Bool
deriving DecidableEq

namespace PathIdRemap

def fromFull (mapped : List PathId) : PathIdRemap :=
  ⟨0, mapped, mapped.zipIdx.all fun row => row.1.index == row.2⟩

def get (self : PathIdRemap) (old : PathId) : Option PathId :=
  if old.index < self.identityPrefixLen then some old
  else self.mappedSuffix[old.index - self.identityPrefixLen]?

end PathIdRemap

inductive PathInternError where
  | BaseMismatch (baseLen destinationLen deltaLen : Nat)
  | TableFull
deriving DecidableEq

/-- What a merge uses of its destination. -/
structure Destination (σ : Type) where
  len : σ → Nat
  tryParent : σ → PathId → Option PathId
  tryComponent : σ → PathId → Option StringId
  tryDepth : σ → PathId → Option Nat
  tryInternChild : σ → PathId → StringId → Option (Interned σ)

section Merges

variable {σ : Type} (into : Destination σ)

/-- The base rows agree and every local row has a parent before it. -/
def deltaFits (self : σ) (delta : PathInternerFork) : Bool :=
  decide (delta.baseLen ≤ into.len self) && decide (delta.baseLen ≤ delta.len) &&
  ((List.range delta.baseLen).all fun index =>
    match PathId.tryFromIndex index with
    | none => false
    | some expected =>
        into.tryParent self expected == delta.tryParent expected &&
        into.tryComponent self expected == delta.tryComponent expected &&
        into.tryDepth self expected == delta.tryDepth expected) &&
  delta.nodes.zipIdx.all fun row =>
    match row.1.parent with
    | none => false
    | some parent => parent.index < delta.baseLen || parent.index - delta.baseLen < row.2

/-- The running state of a merge. -/
structure Merging (σ : Type) where
  destination : σ
  mapped : List PathId
  isIdentity : Bool

/-- Where a merge with a kept prefix puts the parent of a row. -/
def remappedParent (prefixLen : Nat) (mapped : List PathId) (parent : PathId) : Option PathId :=
  if parent.index < prefixLen then some parent else mapped[parent.index - prefixLen]?

/-- Carry the local rows over; a row before the ids run out stays. -/
def mergeRows (baseLen : Nat) (stringRemap : StringIdRemap) (mismatch : PathInternError)
    (merging : Merging σ) :
    List PathNode → Option (Except PathInternError (List PathId × Bool) × σ)
  | [] => some (.ok (merging.mapped, merging.isIdentity), merging.destination)
  | node :: rest =>
      match node.parent.bind (remappedParent baseLen merging.mapped) with
      | none => some (.error mismatch, merging.destination)
      | some parent =>
          match stringRemap.get node.component with
          | none => none
          | some component =>
              match into.tryInternChild merging.destination parent component with
              | none => none
              | some .full => some (.error .TableFull, merging.destination)
              | some (.child child next) =>
                  mergeRows baseLen stringRemap mismatch
                    { destination := next
                      mapped := merging.mapped ++ [child]
                      isIdentity := merging.isIdentity &&
                        child.index == baseLen + merging.mapped.length } rest

def mergeDelta (self : σ) (delta : PathInternerFork) (stringRemap : StringIdRemap) :
    Option (Except PathInternError PathIdRemap × σ) :=
  let mismatch := .BaseMismatch delta.baseLen (into.len self) delta.len
  if deltaFits into self delta then
    (mergeRows into delta.baseLen stringRemap mismatch ⟨self, [], true⟩ delta.nodes).map
      fun (result, next) => (result.map fun (mapped, isIdentity) =>
        ⟨delta.baseLen, mapped, isIdentity⟩, next)
  else some (.error mismatch, self)

end Merges

namespace PathInternerBuilder

def destination : Destination PathInternerBuilder where
  len := len
  tryParent self := self.table.tryParent
  tryComponent self := self.table.tryComponent
  tryDepth self := self.table.tryDepth
  tryInternChild := tryInternChild

variable (self : PathInternerBuilder)

def mergeDeltaFrom (delta : PathInternerFork) (stringRemap : StringIdRemap) :
    Option (Except PathInternError PathIdRemap × PathInternerBuilder) :=
  mergeDelta destination self delta stringRemap

/-- The number of rows before the first that differs. -/
def identityPrefixLen (snapshot : PathTable) : Nat :=
  let sharedLen := min snapshot.len self.len
  ((List.range sharedLen).find? fun index =>
    self.table.tryParent ⟨index⟩ != snapshot.tryParent ⟨index⟩ ||
    self.table.tryComponent ⟨index⟩ != snapshot.tryComponent ⟨index⟩).getD sharedLen

/-- Carry the rows of a snapshot from an index on over. -/
def mergeSnapshotRows (snapshot : PathTable) (prefixLen : Nat) (self : PathInternerBuilder)
    (mapped : List PathId) :
    List Nat → Option (Except PathInternError (List PathId) × PathInternerBuilder)
  | [] => some (.ok mapped, self)
  | index :: rest => do
      let path ← PathId.tryFromIndex index
      let parent ← snapshot.tryParent path
      let component ← snapshot.tryComponent path
      if index ≤ parent.index then none
      else
        match ← self.tryInternChild (← remappedParent prefixLen mapped parent) component with
        | .full => return (.error .TableFull, self)
        | .child child next => mergeSnapshotRows snapshot prefixLen next (mapped ++ [child]) rest

def mergeSnapshot (snapshot : PathTable) :
    Option (Except PathInternError PathIdRemap × PathInternerBuilder) :=
  let prefixLen := self.identityPrefixLen snapshot
  (mergeSnapshotRows snapshot prefixLen self []
      (List.range' prefixLen (snapshot.len - prefixLen))).map fun (result, next) =>
    (result.map fun mapped =>
      ⟨prefixLen, mapped, mapped.zipIdx.all fun row => row.1.index == prefixLen + row.2⟩, next)

end PathInternerBuilder

namespace PathInternerFork

def destination : Destination PathInternerFork where
  len := len
  tryParent := tryParent
  tryComponent := tryComponent
  tryDepth := tryDepth
  tryInternChild := tryInternChild

variable (self : PathInternerFork)

def mergeDeltaFrom (delta : PathInternerFork) (stringRemap : StringIdRemap) :
    Option (Except PathInternError PathIdRemap × PathInternerFork) :=
  mergeDelta destination self delta stringRemap

/-- Both destinations of a foreign table: the rows and the strings. -/
structure Foreign where
  paths : PathInternerFork
  strings : StringTable

/-- Carry the rows of a foreign table over; rows and strings before a failure stay. -/
def remapRowsFromStrings (sourceTable : PathTable) (sourceStrings : StringId → Option String)
    (into : Foreign) (mapped : List PathId) :
    List Nat → Option (Option (List PathId) × Foreign)
  | [] => some (some mapped, into)
  | index :: rest =>
      match PathId.tryFromIndex index with
      | none => some (none, into)
      | some old =>
          if old = PathId.ROOT then
            remapRowsFromStrings sourceTable sourceStrings into (mapped ++ [PathId.ROOT]) rest
          else
            match (sourceTable.tryParent old).bind fun parent => mapped[parent.index]? with
            | none => some (none, into)
            | some parent =>
                match (sourceTable.tryComponent old).bind sourceStrings with
                | none => some (none, into)
                | some s =>
                    match into.strings.intern s with
                    | none => none
                    | some (component, strings) =>
                        match into.paths.tryInternChild parent component with
                        | none => none
                        | some .full => some (none, ⟨into.paths, strings⟩)
                        | some (.child child paths) =>
                            remapRowsFromStrings sourceTable sourceStrings ⟨paths, strings⟩
                              (mapped ++ [child]) rest

def remapTableFromStrings (sourceTable : PathTable) (sourceStrings : StringId → Option String)
    (destinationStrings : StringTable) : Option (Option PathIdRemap × Foreign) :=
  (remapRowsFromStrings sourceTable sourceStrings ⟨self, destinationStrings⟩ []
      (List.range sourceTable.len)).map fun (result, next) =>
    (result.map PathIdRemap.fromFull, next)

end PathInternerFork

end Moth.Symbols
