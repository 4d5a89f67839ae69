import Moth.Symbols.PathInternerMerges

/-!
# Any number of path tables

Builders, forks and frozen tables side by side, and the operations that make
and change them in any order. Every one of them is a hash-consed trie at all
times, no path ever changes its components, and a merge that answers carries
every path of its source over. A delta merge takes the string remap as it is
given: it relies on a remap that leaves the strings of the rows below the base
length alone, and one that does not is not noticed.
-/

namespace Moth.Symbols

open Moth.Lib

/-! ## What a table answers -/

/-- A table as its readers see it. -/
structure PathView where
  len : Nat
  links : PathLinks

def PathTable.view (self : PathTable) : PathView := ⟨self.len, self.links⟩

def PathInternerBuilder.view (self : PathInternerBuilder) : PathView := self.table.view

def PathInternerFork.view (self : PathInternerFork) : PathView := ⟨self.len, self.links⟩

namespace PathView

/-- Paths are equal when their components are, and the queries decide about components. -/
structure HashConsed (view : PathView) : Prop where
  resolves : ∀ path, path.index < view.len →
    ∃ components, view.links.resolveComponents path = some components
  distinct : ∀ path path', path.index < view.len → path'.index < view.len →
    (path = path' ↔
      view.links.resolveComponents path = view.links.resolveComponents path')
  parent : ∀ path, 0 < path.index → path.index < view.len → ∃ parent component components,
    view.links.parent path = some (some parent) ∧ parent.index < path.index ∧
      view.links.component path = some (some component) ∧
      view.links.resolveComponents parent = some components ∧
      view.links.resolveComponents path = some (components ++ [component])
  depth : ∀ path components, path.index < view.len →
    view.links.resolveComponents path = some components →
      view.links.depth path = some components.length
  queries : ∀ path other components components', path.index < view.len →
    other.index < view.len → view.links.resolveComponents path = some components →
    view.links.resolveComponents other = some components' →
      view.links.startsWith path other = some (decide (components' <+: components)) ∧
      view.links.endsWith path other = some (decide (components' <:+ components))

/-- There is no id for another path. -/
def Full (view : PathView) : Prop := idSpace ≤ view.len + 1

/-- Paths keep their components. -/
def Kept (view next : PathView) : Prop :=
  view.len ≤ next.len ∧ ∀ path, path.index < view.len →
    next.links.resolveComponents path = view.links.resolveComponents path

theorem Kept.refl (view : PathView) : view.Kept view := ⟨Nat.le_refl _, fun _ _ => rfl⟩

theorem Kept.trans {view next last : PathView} (h : view.Kept next) (h' : next.Kept last) :
    view.Kept last :=
  ⟨Nat.le_trans h.1 h'.1, fun path hpath =>
    (h'.2 path (Nat.lt_of_lt_of_le hpath h.1)).trans (h.2 path hpath)⟩

structure Represents (view : PathView) (t : Trie StringId) : Prop where
  len : view.len = t.len
  links : view.links.Represents t

variable {view next : PathView} {t t' : Trie StringId}

theorem Represents.resolve_iff (h : view.Represents t) {path : PathId}
    (hpath : path.index < view.len) {components : List StringId} :
    view.links.resolveComponents path = some components ↔ t.Spells path.index components := by
  constructor
  · intro hresolve
    obtain ⟨cs, hcs⟩ := Trie.exists_spells (h.len ▸ hpath)
    rw [h.links.resolveComponents hcs] at hresolve
    cases hresolve
    exact hcs
  · exact h.links.resolveComponents

theorem Represents.hashConsed (h : view.Represents t) : view.HashConsed where
  resolves path hpath := by
    obtain ⟨cs, hcs⟩ := Trie.exists_spells (h.len ▸ hpath)
    exact ⟨cs, h.links.resolveComponents hcs⟩
  distinct path path' hpath hpath' := by
    constructor
    · intro heq
      rw [heq]
    · intro heq
      obtain ⟨cs, hcs⟩ := Trie.exists_spells (h.len ▸ hpath)
      rw [h.links.resolveComponents hcs] at heq
      exact congrArg PathId.mk (hcs.injective ((h.resolve_iff hpath').1 heq.symm))
  parent path hpos hpath := by
    obtain ⟨cs, hcs⟩ := Trie.exists_spells (h.len ▸ hpath)
    obtain hnil | ⟨cs, c, rfl⟩ := List.eq_nil_or_concat' cs
    · subst hnil
      have hzero := hcs.injective .root
      omega
    · obtain ⟨parent, hparent, hcomponent, hspells⟩ := h.links.last hcs
      obtain ⟨p, hrow, -⟩ := hcs.concat_inv
      have hsame := h.links.parent path
      rw [hparent, hrow] at hsame
      cases hsame
      exact ⟨_, c, cs, hparent, t.earlier _ _ _ hrow, hcomponent,
        h.links.resolveComponents hspells, h.links.resolveComponents hcs⟩
  depth path components hpath hresolve :=
    h.links.depth path components ((h.resolve_iff hpath).1 hresolve)
  queries path other components components' hpath hother hresolve hresolve' :=
    ⟨h.links.startsWith ((h.resolve_iff hpath).1 hresolve) ((h.resolve_iff hother).1 hresolve'),
      h.links.endsWith ((h.resolve_iff hpath).1 hresolve) ((h.resolve_iff hother).1 hresolve')⟩

theorem Represents.full (h : view.Represents t) (hfull : idSpace ≤ t.len + 1) : view.Full := by
  rw [Full, h.len]
  exact hfull

theorem Represents.kept (h : view.Represents t) (h' : next.Represents t')
    (hext : t.Extends t'.toInterner) : view.Kept next := by
  refine ⟨by rw [h.len, h'.len]; exact hext.len_le, fun path hpath => ?_⟩
  obtain ⟨cs, hcs⟩ := Trie.exists_spells (h.len ▸ hpath)
  rw [h.links.resolveComponents hcs, h'.links.resolveComponents (hcs.extends hext)]

end PathView

theorem PathTable.Represents.view {table : PathTable} {t : Trie StringId}
    (h : table.Represents t) : table.view.Represents t := ⟨h.len_eq, h.links_represents⟩

theorem PathInternerFork.Represents.view {fork : PathInternerFork} {t : Trie StringId}
    (h : fork.Represents t) : fork.view.Represents t := by
  refine ⟨h.len_eq, ?_⟩
  show fork.links.Represents t
  rw [h.links_eq]
  exact h.builder.table.links_represents

theorem PathTable.Represents.view_eq {table other : PathTable} {t : Trie StringId}
    (h : table.Represents t) (h' : other.Represents t) : table.view = other.view := by
  rw [PathTable.view, PathTable.view, h.len_eq, h'.len_eq, h.links_eq h']

theorem PathInternerFork.Represents.view_eq {fork : PathInternerFork} {other : PathTable}
    {t : Trie StringId} (h : fork.Represents t) (h' : other.Represents t) :
    fork.view = other.view := by
  have hshared : fork.sharedTable.Represents t := h.builder.table
  rw [PathInternerFork.view, h.len_eq, h.links_eq, PathTable.view, h'.len_eq,
    hshared.links_eq h']

/-! ## What a merge answers -/

namespace PathView

/-- Every path of a source goes to one of related components. -/
def CarriedBy (source target : PathView) (related : StringId → StringId → Prop)
    (remap : PathIdRemap) : Prop :=
  ∀ path, path.index < source.len → ∃ path' components components',
    remap.get path = some path' ∧ source.links.resolveComponents path = some components ∧
      target.links.resolveComponents path' = some components' ∧
      List.Forall₂ related components components'

def InjectiveOn (source : PathView) (remap : PathIdRemap) : Prop :=
  ∀ path path', path.index < source.len → path'.index < source.len →
    remap.get path = remap.get path' → path = path'

def IdentityExact (source : PathView) (remap : PathIdRemap) : Prop :=
  remap.isIdentity = true ↔ ∀ path, path.index < source.len → remap.get path = some path

/-- A component of a path of the table. -/
def HasComponent (view : PathView) (component : StringId) : Prop :=
  ∃ path, path.index < view.len ∧ view.links.component path = some (some component)

variable {source target : PathView} {t t' : Trie StringId}
  {related : StringId → StringId → Prop} {remap : PathIdRemap}

theorem Represents.hasComponent (h : source.Represents t) {component : StringId} :
    t.HasComponent component → source.HasComponent component := by
  intro hcomponent
  obtain ⟨i, p, hrow⟩ := hcomponent
  refine ⟨⟨i⟩, ?_, ?_⟩
  · rw [h.len]
    exact (List.getElem?_eq_some_iff.1 hrow).1
  · rw [h.links.component, hrow]
    rfl

theorem carriedBy_of_carries (h : source.Represents t) (h' : target.Represents t')
    (hcarries : Carries t t' related remap) : source.CarriedBy target related remap := by
  intro path hpath
  obtain ⟨cs, hcs⟩ := Trie.exists_spells (h.len ▸ hpath)
  obtain ⟨i, cs', hget, hrelated, hspells⟩ := hcarries.spells hcs
  obtain ⟨path', hpath', hindex⟩ := Option.map_eq_some_iff.1 hget
  subst hindex
  exact ⟨path', cs, cs', hpath', h.links.resolveComponents hcs,
    h'.links.resolveComponents hspells, hrelated⟩

theorem injectiveOn_of_carries (h : source.Represents t) (hcarries : Carries t t' related remap)
    (hrelated : ∀ c d e, source.HasComponent c → source.HasComponent d → related c e →
      related d e → c = d) : source.InjectiveOn remap := by
  intro path path' hpath hpath' heq
  refine congrArg PathId.mk (hcarries.injective ?_ (h.len ▸ hpath) (h.len ▸ hpath') ?_)
  · exact fun c d e hc hd => hrelated c d e (h.hasComponent hc) (h.hasComponent hd)
  · exact congrArg (Option.map PathId.index) heq

end PathView

/-! ## Operations -/

/-- All builders, forks and frozen tables there are; one that is consumed is not used again. -/
structure PathWorld where
  builders : List PathInternerBuilder
  forks : List PathInternerFork
  tables : List PathTable

inductive PathOperation where
  | NewBuilder
  | EmptyFork
  | InternChild (builder : Nat) (parent : PathId) (component : StringId)
  | ForkInternChild (fork : Nat) (parent : PathId) (component : StringId)
  | InternComponents (fork : Nat) (components : List StringId)
  | Join (fork : Nat) (pre suffix : PathId)
  | Fork (builder : Nat)
  | ForkFork (fork : Nat)
  | ForkWithSharedPrefix (builder : Nat)
  | ForkPathBuilder (fork : Nat)
  | SharedTable (builder : Nat)
  | ForkSharedTable (fork : Nat)
  | SnapshotTable (fork : Nat)
  | Freeze (builder : Nat)
  | MergeDelta (builder delta : Nat) (stringRemap : StringIdRemap)
  | ForkMergeDelta (fork delta : Nat) (stringRemap : StringIdRemap)
  | MergeSnapshot (builder table : Nat)
  | RemapTable (fork table : Nat) (sourceStrings : StringId → Option String)
      (destinationStrings : StringTable)

inductive PathOutcome where
  | Created
  | Interned (path : Option PathId)
  | Merged (result : Except PathInternError PathIdRemap)
  | Remapped (remap : Option PathIdRemap) (strings : StringTable)

namespace PathWorld

variable (self : PathWorld)

def empty : PathWorld := ⟨[], [], []⟩

def setBuilder (i : Nat) (builder : PathInternerBuilder) : PathWorld :=
  { self with builders := self.builders.set i builder }

def setFork (i : Nat) (fork : PathInternerFork) : PathWorld :=
  { self with forks := self.forks.set i fork }

def addBuilder (builder : PathInternerBuilder) : PathWorld :=
  { self with builders := self.builders ++ [builder] }

def addFork (fork : PathInternerFork) : PathWorld := { self with forks := self.forks ++ [fork] }

def addTable (table : PathTable) : PathWorld := { self with tables := self.tables ++ [table] }

/-- Run one operation; nothing when it panics or names nothing. -/
def step : PathOperation → Option (PathWorld × PathOutcome)
  | .NewBuilder => some (self.addBuilder .new, .Created)
  | .EmptyFork => some (self.addFork .empty, .Created)
  | .InternChild i parent component => do
      match ← (← self.builders[i]?).tryInternChild parent component with
      | .full => return (self, .Interned none)
      | .child path next => return (self.setBuilder i next, .Interned (some path))
  | .ForkInternChild i parent component => do
      match ← (← self.forks[i]?).tryInternChild parent component with
      | .full => return (self, .Interned none)
      | .child path next => return (self.setFork i next, .Interned (some path))
  | .InternComponents i components => do
      let (path, next) ← (← self.forks[i]?).tryInternComponents components
      return (self.setFork i next, .Interned path)
  | .Join i pre suffix => do
      let (path, next) ← (← self.forks[i]?).tryJoin pre suffix
      return (self.setFork i next, .Interned path)
  | .Fork i => do
      return (self.addFork (← self.builders[i]?).forkSource.forkForModule, .Created)
  | .ForkFork i => do
      return (self.addFork (← self.forks[i]?).forkSource.forkForModule, .Created)
  | .ForkWithSharedPrefix i => do
      let (sibling, sealed) := (← self.builders[i]?).forkWithSharedPrefix
      return ((self.setBuilder i sealed).addBuilder sibling, .Created)
  | .ForkPathBuilder i => do
      return (self.addBuilder (← self.forks[i]?).forkPathBuilder, .Created)
  | .SharedTable i => do
      let (table, sealed) := (← self.builders[i]?).sharedTable
      return ((self.setBuilder i sealed).addTable table, .Created)
  | .ForkSharedTable i => do return (self.addTable (← self.forks[i]?).sharedTable, .Created)
  | .SnapshotTable i => do return (self.addTable (← self.forks[i]?).snapshotTable, .Created)
  | .Freeze i => do return (self.addTable (← self.builders[i]?).freeze, .Created)
  | .MergeDelta i j stringRemap => do
      let (result, next) ← (← self.builders[i]?).mergeDeltaFrom (← self.forks[j]?) stringRemap
      return (self.setBuilder i next, .Merged result)
  | .ForkMergeDelta i j stringRemap => do
      let (result, next) ← (← self.forks[i]?).mergeDeltaFrom (← self.forks[j]?) stringRemap
      return (self.setFork i next, .Merged result)
  | .MergeSnapshot i j => do
      let (result, next) ← (← self.builders[i]?).mergeSnapshot (← self.tables[j]?)
      return (self.setBuilder i next, .Merged result)
  | .RemapTable i j sourceStrings destinationStrings => do
      let (result, next) ← (← self.forks[i]?).remapTableFromStrings (← self.tables[j]?)
        sourceStrings destinationStrings
      return (self.setFork i next.paths, .Remapped result next.strings)

/-- Run a sequence of operations. -/
def run : PathWorld → List PathOperation → Option PathWorld
  | self, [] => some self
  | self, operation :: rest => (self.step operation).bind fun next => run next.1 rest

/-! ## What holds of a run -/

/-- Every table is a hash-consed trie. -/
structure HashConsed (world : PathWorld) : Prop where
  builders : ∀ builder ∈ world.builders, builder.view.HashConsed
  forks : ∀ fork ∈ world.forks, fork.view.HashConsed
  tables : ∀ table ∈ world.tables, table.view.HashConsed

/-- Everything is still there and keeps the components of its paths. -/
structure Kept (world next : PathWorld) : Prop where
  builders : EachBecomes (fun b b' => b.view.Kept b'.view) world.builders next.builders
  forks : EachBecomes (fun f f' => f.view.Kept f'.view) world.forks next.forks
  tables : EachBecomes (fun t t' => t.view.Kept t'.view) world.tables next.tables

end PathWorld

/-- The promise of a delta merge into a view that became another. -/
def DeltaCorrect (source : PathInternerFork) (target : PathView) (stringRemap : StringIdRemap)
    (remap : PathIdRemap) : Prop :=
  source.view.IdentityExact remap ∧
  ((∀ path component, path.index < source.baseLen →
      source.links.component path = some (some component) →
      stringRemap.get component = some component) →
    source.view.CarriedBy target (fun c c' => stringRemap.get c = some c') remap ∧
    ((∀ c d e, source.view.HasComponent c → source.view.HasComponent d →
        stringRemap.get c = some e → stringRemap.get d = some e → c = d) →
      source.view.InjectiveOn remap))

/-- What the answer of an operation promises. A new fork, builder or table reads like what
it was made of, and so does a builder that was sealed for it. -/
def PathOutcomeCorrect (world next : PathWorld) : PathOperation → PathOutcome → Prop
  | .NewBuilder, .Created => next.builders[world.builders.length]? = some .new
  | .EmptyFork, .Created => next.forks[world.forks.length]? = some .empty
  | .InternChild i parent component, .Interned (some path) =>
      ∃ builder, next.builders[i]? = some builder ∧ path.index < builder.view.len ∧
        builder.view.links.parent path = some (some parent) ∧
        builder.view.links.component path = some (some component)
  | .InternChild i _ _, .Interned none =>
      next = world ∧ ∃ builder, world.builders[i]? = some builder ∧ builder.view.Full
  | .ForkInternChild i parent component, .Interned (some path) =>
      ∃ fork, next.forks[i]? = some fork ∧ path.index < fork.view.len ∧
        fork.view.links.parent path = some (some parent) ∧
        fork.view.links.component path = some (some component)
  | .ForkInternChild i _ _, .Interned none =>
      next = world ∧ ∃ fork, world.forks[i]? = some fork ∧ fork.view.Full
  | .InternComponents i components, .Interned (some path) =>
      ∃ fork, next.forks[i]? = some fork ∧ fork.resolveComponents path = some components
  | .Join i pre suffix, .Interned (some path) =>
      ∃ fork fork' suffixComponents, world.forks[i]? = some fork ∧ next.forks[i]? = some fork' ∧
        fork.resolveComponents suffix = some suffixComponents ∧
        ∀ components, pre.index < fork.len → fork.resolveComponents pre = some components →
          fork'.resolveComponents path = some (components ++ suffixComponents)
  | .InternComponents i _, .Interned none | .Join i _ _, .Interned none =>
      ∃ fork, next.forks[i]? = some fork ∧ fork.view.Full
  | .Fork i, .Created =>
      ∃ builder fork, world.builders[i]? = some builder ∧
        next.forks[world.forks.length]? = some fork ∧ fork.view = builder.view
  | .ForkFork i, .Created =>
      ∃ source fork, world.forks[i]? = some source ∧
        next.forks[world.forks.length]? = some fork ∧ fork.view = source.view
  | .ForkWithSharedPrefix i, .Created =>
      ∃ builder sealed sibling, world.builders[i]? = some builder ∧
        next.builders[i]? = some sealed ∧ next.builders[world.builders.length]? = some sibling ∧
        sealed.view = builder.view ∧ sibling.view = builder.view
  | .ForkPathBuilder i, .Created =>
      ∃ fork builder, world.forks[i]? = some fork ∧
        next.builders[world.builders.length]? = some builder ∧ builder.view = fork.view
  | .SharedTable i, .Created =>
      ∃ builder sealed table, world.builders[i]? = some builder ∧
        next.builders[i]? = some sealed ∧ next.tables[world.tables.length]? = some table ∧
        sealed.view = builder.view ∧ table.view = builder.view
  | .ForkSharedTable i, .Created | .SnapshotTable i, .Created =>
      ∃ fork table, world.forks[i]? = some fork ∧
        next.tables[world.tables.length]? = some table ∧ table.view = fork.view
  | .Freeze i, .Created =>
      ∃ builder table, world.builders[i]? = some builder ∧
        next.tables[world.tables.length]? = some table ∧ table.view = builder.view
  | .MergeDelta i j stringRemap, .Merged (.ok remap) =>
      ∃ source target, world.forks[j]? = some source ∧ next.builders[i]? = some target ∧
        DeltaCorrect source target.view stringRemap remap
  | .ForkMergeDelta i j stringRemap, .Merged (.ok remap) =>
      ∃ source target, world.forks[j]? = some source ∧ next.forks[i]? = some target ∧
        DeltaCorrect source target.view stringRemap remap
  | .MergeSnapshot i j, .Merged (.ok remap) =>
      ∃ source target, world.tables[j]? = some source ∧ next.builders[i]? = some target ∧
        source.view.IdentityExact remap ∧
        source.view.CarriedBy target.view (· = ·) remap ∧ source.view.InjectiveOn remap
  | .RemapTable i j sourceStrings destinationStrings, .Remapped (some remap) strings =>
      ∃ source target, world.tables[j]? = some source ∧ next.forks[i]? = some target ∧
        source.view.IdentityExact remap ∧
        ((∃ operations tables, Symbols.run [] operations = some tables ∧
            destinationStrings ∈ tables) →
          source.view.CarriedBy target.view (SameString sourceStrings strings) remap ∧
          ((∀ c d s, source.view.HasComponent c → source.view.HasComponent d →
              sourceStrings c = some s → sourceStrings d = some s → c = d) →
            source.view.InjectiveOn remap))
  | .RemapTable i j sourceStrings _, .Remapped none _ =>
      ∃ source target, world.tables[j]? = some source ∧ next.forks[i]? = some target ∧
        ((∃ component, source.view.HasComponent component ∧ sourceStrings component = none) ∨
          target.view.Full)
  | .MergeDelta _ _ _, .Merged (.error (.BaseMismatch _ _ _))
  | .ForkMergeDelta _ _ _, .Merged (.error (.BaseMismatch _ _ _)) => next = world
  | .MergeDelta i _ _, .Merged (.error .TableFull)
  | .MergeSnapshot i _, .Merged (.error .TableFull) =>
      ∃ builder, next.builders[i]? = some builder ∧ builder.view.Full
  | .ForkMergeDelta i _ _, .Merged (.error .TableFull) =>
      ∃ fork, next.forks[i]? = some fork ∧ fork.view.Full
  | _, _ => False

/-! ## Steps -/

namespace PathInternerFork

theorem tryInternBelow_spec {fork next : PathInternerFork} {t : Trie StringId}
    {components : List StringId} (h : fork.Represents t) {path : PathId}
    {answer : Option PathId} (hintern : fork.tryInternBelow path components = some (answer, next)) :
    ∃ t', next.Represents t' ∧ t.Extends t'.toInterner ∧
      (answer = none → idSpace ≤ t'.len + 1) ∧ ∀ joined above, answer = some joined →
      t.Spells path.index above → t'.Spells joined.index (above ++ components) := by
  induction components generalizing fork t path with
  | nil =>
      cases hintern
      refine ⟨t, h, Interner.Extends.refl _, nofun, fun joined above hjoined habove => ?_⟩
      cases hjoined
      rw [List.append_nil]
      exact habove
  | cons component rest ih =>
      rw [tryInternBelow] at hintern
      split at hintern
      · cases hintern
      · next hfull =>
          cases hintern
          exact ⟨t, h, Interner.Extends.refl _, fun _ => tryInternChild_full h hfull,
            fun joined above hjoined => by cases hjoined⟩
      · next child grown hchild =>
          obtain ⟨t', hgrown, hext, hrow⟩ := tryInternChild_spec h hchild
          obtain ⟨t'', hnext, hext', hfull, hjoin⟩ := ih hgrown hintern
          refine ⟨t'', hnext, hext.trans hext', hfull, fun joined above hjoined habove => ?_⟩
          have hspells := hjoin joined (above ++ [component]) hjoined
            (.child hrow (habove.extends hext))
          rw [List.append_assoc] at hspells
          exact hspells

end PathInternerFork

namespace PathWorld

/-- What every operation keeps. -/
structure Sound (world : PathWorld) : Prop where
  builders : ∀ builder ∈ world.builders, ∃ t, builder.Represents t
  forks : ∀ fork ∈ world.forks, ∃ t, fork.Represents t
  tables : ∀ table ∈ world.tables, ∃ t, table.Represents t

variable {world next : PathWorld}

theorem Kept.refl (world : PathWorld) : world.Kept world where
  builders := by
    refine EachBecomes.refl ?_ _
    exact fun builder => PathView.Kept.refl builder.view
  forks := by
    refine EachBecomes.refl ?_ _
    exact fun fork => PathView.Kept.refl fork.view
  tables := by
    refine EachBecomes.refl ?_ _
    exact fun table => PathView.Kept.refl table.view

theorem Kept.trans {last : PathWorld} (h : world.Kept next) (h' : next.Kept last) :
    world.Kept last where
  builders := by
    refine h.builders.trans ?_ h'.builders
    exact fun _ _ _ => PathView.Kept.trans
  forks := by
    refine h.forks.trans ?_ h'.forks
    exact fun _ _ _ => PathView.Kept.trans
  tables := by
    refine h.tables.trans ?_ h'.tables
    exact fun _ _ _ => PathView.Kept.trans

namespace Sound

variable (h : world.Sound)
include h

theorem hashConsed : world.HashConsed where
  builders builder hmem := by
    obtain ⟨t, ht⟩ := h.builders builder hmem
    exact ht.table.view.hashConsed
  forks fork hmem := by
    obtain ⟨t, ht⟩ := h.forks fork hmem
    exact ht.view.hashConsed
  tables table hmem := by
    obtain ⟨t, ht⟩ := h.tables table hmem
    exact ht.view.hashConsed

theorem setBuilder {i : Nat} {builder grown : PathInternerBuilder} {t t' : Trie StringId}
    (hi : world.builders[i]? = some builder) (ht : builder.Represents t)
    (ht' : grown.Represents t') (hext : t.Extends t'.toInterner) :
    (world.setBuilder i grown).Sound ∧ world.Kept (world.setBuilder i grown) := by
  refine ⟨⟨forall_mem_set h.builders ⟨t', ht'⟩, h.forks, h.tables⟩, ?_⟩
  refine { Kept.refl world with builders := EachBecomes.set ?_ hi ?_ }
  · exact fun builder => PathView.Kept.refl builder.view
  · exact ht.table.view.kept ht'.table.view hext

theorem setFork {i : Nat} {fork grown : PathInternerFork} {t t' : Trie StringId}
    (hi : world.forks[i]? = some fork) (ht : fork.Represents t)
    (ht' : grown.Represents t') (hext : t.Extends t'.toInterner) :
    (world.setFork i grown).Sound ∧ world.Kept (world.setFork i grown) := by
  refine ⟨⟨h.builders, forall_mem_set h.forks ⟨t', ht'⟩, h.tables⟩, ?_⟩
  refine { Kept.refl world with forks := EachBecomes.set ?_ hi ?_ }
  · exact fun fork => PathView.Kept.refl fork.view
  · exact ht.view.kept ht'.view hext

theorem addBuilder {builder : PathInternerBuilder} {t : Trie StringId}
    (ht : builder.Represents t) :
    (world.addBuilder builder).Sound ∧ world.Kept (world.addBuilder builder) := by
  refine ⟨⟨forall_mem_append h.builders ⟨t, ht⟩, h.forks, h.tables⟩, ?_⟩
  refine { Kept.refl world with builders := EachBecomes.append ?_ _ _ }
  exact fun builder => PathView.Kept.refl builder.view

theorem addFork {fork : PathInternerFork} {t : Trie StringId} (ht : fork.Represents t) :
    (world.addFork fork).Sound ∧ world.Kept (world.addFork fork) := by
  refine ⟨⟨h.builders, forall_mem_append h.forks ⟨t, ht⟩, h.tables⟩, ?_⟩
  refine { Kept.refl world with forks := EachBecomes.append ?_ _ _ }
  exact fun fork => PathView.Kept.refl fork.view

theorem addTable {table : PathTable} {t : Trie StringId} (ht : table.Represents t) :
    (world.addTable table).Sound ∧ world.Kept (world.addTable table) := by
  refine ⟨⟨h.builders, h.forks, forall_mem_append h.tables ⟨t, ht⟩⟩, ?_⟩
  refine { Kept.refl world with tables := EachBecomes.append ?_ _ _ }
  exact fun table => PathView.Kept.refl table.view

theorem builder {i : Nat} {builder : PathInternerBuilder} (hi : world.builders[i]? = some builder) :
    ∃ t, builder.Represents t := h.builders builder (List.mem_of_getElem? hi)

theorem fork {i : Nat} {fork : PathInternerFork} (hi : world.forks[i]? = some fork) :
    ∃ t, fork.Represents t := h.forks fork (List.mem_of_getElem? hi)

theorem table {i : Nat} {table : PathTable} (hi : world.tables[i]? = some table) :
    ∃ t, table.Represents t := h.tables table (List.mem_of_getElem? hi)

end Sound

theorem child_reads {view : PathView} {t : Trie StringId} (h : view.Represents t)
    {path parent : PathId} {component : StringId}
    (hrow : t.entries[path.index]? = some (some (parent.index, component))) :
    path.index < view.len ∧ view.links.parent path = some (some parent) ∧
      view.links.component path = some (some component) := by
  refine ⟨?_, ?_, ?_⟩
  · rw [h.len]
    exact (List.getElem?_eq_some_iff.1 hrow).1
  · rw [h.links.parent, hrow]
    rfl
  · rw [h.links.component, hrow]
    rfl

/-- A delta merge that answered keeps its promise. -/
theorem deltaCorrect {source : PathInternerFork} {target : PathView} {t t' : Trie StringId}
    {stringRemap : StringIdRemap} {remap : PathIdRemap} (h : source.Represents t)
    (h' : target.Represents t')
    (hidentity : remap.isIdentity = true ↔
      ∀ path, path.index < t.len → remap.get path = some path)
    (hcarries : (∀ i < source.baseLen, ∀ p c, t.entries[i]? = some (some (p, c)) →
        stringRemap.get c = some c) →
      Carries t t' (fun c c' => stringRemap.get c = some c') remap) :
    DeltaCorrect source target stringRemap remap := by
  refine ⟨?_, fun hfixed => ?_⟩
  · rw [PathView.IdentityExact, h.view.len]
    exact hidentity
  · have hall := hcarries fun i hi p c hrow => hfixed ⟨i⟩ c hi (by
      rw [show source.links.component ⟨i⟩ = _ from h.view.links.component ⟨i⟩, hrow]
      rfl)
    refine ⟨PathView.carriedBy_of_carries h.view h' hall, fun hinjective => ?_⟩
    exact PathView.injectiveOn_of_carries h.view hall hinjective

/-- A step keeps what is kept and answers as it should. -/
def StepCorrect (world next : PathWorld) (operation : PathOperation) (outcome : PathOutcome) :
    Prop :=
  (next.Sound ∧ world.Kept next) ∧ PathOutcomeCorrect world next operation outcome

section Steps

variable (h : world.Sound) {outcome : PathOutcome}
include h

theorem newBuilder_step (hstep : world.step .NewBuilder = some (next, outcome)) :
    StepCorrect world next .NewBuilder outcome := by
  cases hstep
  exact ⟨h.addBuilder PathInternerBuilder.new_represents, List.getElem?_concat_length⟩

theorem emptyFork_step (hstep : world.step .EmptyFork = some (next, outcome)) :
    StepCorrect world next .EmptyFork outcome := by
  cases hstep
  exact ⟨h.addFork PathInternerFork.empty_represents, List.getElem?_concat_length⟩

theorem internChild_step {i : Nat} {parent : PathId} {component : StringId}
    (hstep : world.step (.InternChild i parent component) = some (next, outcome)) :
    StepCorrect world next (.InternChild i parent component) outcome := by
  obtain ⟨builder, hi, hrest⟩ := Option.bind_eq_some_iff.1 hstep
  obtain ⟨answer, hintern, hanswer⟩ := Option.bind_eq_some_iff.1 hrest
  obtain ⟨t, ht⟩ := h.builder hi
  cases answer with
  | full =>
      cases hanswer
      exact ⟨⟨h, Kept.refl world⟩, rfl, builder, hi,
        ht.table.view.full (PathInternerBuilder.tryInternChild_full ht hintern)⟩
  | child path grown =>
      cases hanswer
      obtain ⟨t', ht', hext, hrow⟩ := PathInternerBuilder.tryInternChild_spec ht hintern
      exact ⟨h.setBuilder hi ht ht' hext, grown, getElem?_set_of_some hi grown,
        child_reads ht'.table.view hrow⟩

theorem forkInternChild_step {i : Nat} {parent : PathId} {component : StringId}
    (hstep : world.step (.ForkInternChild i parent component) = some (next, outcome)) :
    StepCorrect world next (.ForkInternChild i parent component) outcome := by
  obtain ⟨fork, hi, hrest⟩ := Option.bind_eq_some_iff.1 hstep
  obtain ⟨answer, hintern, hanswer⟩ := Option.bind_eq_some_iff.1 hrest
  obtain ⟨t, ht⟩ := h.fork hi
  cases answer with
  | full =>
      cases hanswer
      exact ⟨⟨h, Kept.refl world⟩, rfl, fork, hi,
        ht.view.full (PathInternerFork.tryInternChild_full ht hintern)⟩
  | child path grown =>
      cases hanswer
      obtain ⟨t', ht', hext, hrow⟩ := PathInternerFork.tryInternChild_spec ht hintern
      exact ⟨h.setFork hi ht ht' hext, grown, getElem?_set_of_some hi grown,
        child_reads ht'.view hrow⟩

theorem internComponents_step {i : Nat} {components : List StringId}
    (hstep : world.step (.InternComponents i components) = some (next, outcome)) :
    StepCorrect world next (.InternComponents i components) outcome := by
  obtain ⟨fork, hi, hrest⟩ := Option.bind_eq_some_iff.1 hstep
  obtain ⟨⟨answer, grown⟩, hintern, hanswer⟩ := Option.bind_eq_some_iff.1 hrest
  cases hanswer
  obtain ⟨t, ht⟩ := h.fork hi
  obtain ⟨t', ht', hext, hfull, hspells⟩ := PathInternerFork.tryInternBelow_spec ht hintern
  refine ⟨h.setFork hi ht ht' hext, ?_⟩
  cases answer with
  | none => exact ⟨grown, getElem?_set_of_some hi grown, ht'.view.full (hfull rfl)⟩
  | some path =>
      refine ⟨grown, getElem?_set_of_some hi grown, ?_⟩
      exact ht'.view.links.resolveComponents (hspells path [] rfl .root)

theorem join_step {i : Nat} {pre suffix : PathId}
    (hstep : world.step (.Join i pre suffix) = some (next, outcome)) :
    StepCorrect world next (.Join i pre suffix) outcome := by
  obtain ⟨fork, hi, hrest⟩ := Option.bind_eq_some_iff.1 hstep
  obtain ⟨⟨answer, grown⟩, hjoin, hanswer⟩ := Option.bind_eq_some_iff.1 hrest
  cases hanswer
  obtain ⟨suffixComponents, hsuffix, hintern⟩ := Option.bind_eq_some_iff.1 hjoin
  obtain ⟨t, ht⟩ := h.fork hi
  obtain ⟨t', ht', hext, hfull, hspells⟩ := PathInternerFork.tryInternBelow_spec ht hintern
  refine ⟨h.setFork hi ht ht' hext, ?_⟩
  cases answer with
  | none => exact ⟨grown, getElem?_set_of_some hi grown, ht'.view.full (hfull rfl)⟩
  | some joined =>
      refine ⟨fork, grown, suffixComponents, hi, getElem?_set_of_some hi grown, hsuffix,
        fun components hpre hresolve => ?_⟩
      exact ht'.view.links.resolveComponents
        (hspells joined components rfl ((ht.view.resolve_iff hpre).1 hresolve))

theorem fork_step {i : Nat} (hstep : world.step (.Fork i) = some (next, outcome)) :
    StepCorrect world next (.Fork i) outcome := by
  obtain ⟨builder, hi, hanswer⟩ := Option.bind_eq_some_iff.1 hstep
  cases hanswer
  obtain ⟨t, ht⟩ := h.builder hi
  exact ⟨h.addFork ht.fork, builder, _, hi, List.getElem?_concat_length,
    ht.fork.view_eq ht.table⟩

theorem forkFork_step {i : Nat} (hstep : world.step (.ForkFork i) = some (next, outcome)) :
    StepCorrect world next (.ForkFork i) outcome := by
  obtain ⟨fork, hi, hanswer⟩ := Option.bind_eq_some_iff.1 hstep
  cases hanswer
  obtain ⟨t, ht⟩ := h.fork hi
  exact ⟨h.addFork ht.fork, fork, _, hi, List.getElem?_concat_length,
    (ht.fork.view_eq ht.builder.table).trans (ht.view_eq ht.builder.table).symm⟩

theorem forkWithSharedPrefix_step {i : Nat}
    (hstep : world.step (.ForkWithSharedPrefix i) = some (next, outcome)) :
    StepCorrect world next (.ForkWithSharedPrefix i) outcome := by
  obtain ⟨builder, hi, hanswer⟩ := Option.bind_eq_some_iff.1 hstep
  cases hanswer
  obtain ⟨t, ht⟩ := h.builder hi
  obtain ⟨hsound, hkept⟩ := h.setBuilder hi ht ht.sealSharedPrefix (Interner.Extends.refl _)
  obtain ⟨hsound', hkept'⟩ := hsound.addBuilder ht.sealSharedPrefix
  have hview := ht.sealSharedPrefix.table.view_eq ht.table
  refine ⟨⟨hsound', hkept.trans hkept'⟩, builder, _, _, hi, ?_, ?_, hview, hview⟩
  · show (world.builders.set i _ ++ [_])[i]? = _
    have hlt := (List.getElem?_eq_some_iff.1 hi).1
    rw [List.getElem?_append_left (by rw [List.length_set]; exact hlt)]
    exact getElem?_set_of_some hi _
  · show (world.builders.set i _ ++ [_])[world.builders.length]? = _
    rw [List.getElem?_append_right (by rw [List.length_set]), List.length_set, Nat.sub_self]
    rfl

theorem forkPathBuilder_step {i : Nat}
    (hstep : world.step (.ForkPathBuilder i) = some (next, outcome)) :
    StepCorrect world next (.ForkPathBuilder i) outcome := by
  obtain ⟨fork, hi, hanswer⟩ := Option.bind_eq_some_iff.1 hstep
  cases hanswer
  obtain ⟨t, ht⟩ := h.fork hi
  exact ⟨h.addBuilder ht.builder, fork, _, hi, List.getElem?_concat_length,
    (ht.view_eq ht.builder.table).symm⟩

theorem sharedTable_step {i : Nat}
    (hstep : world.step (.SharedTable i) = some (next, outcome)) :
    StepCorrect world next (.SharedTable i) outcome := by
  obtain ⟨builder, hi, hanswer⟩ := Option.bind_eq_some_iff.1 hstep
  cases hanswer
  obtain ⟨t, ht⟩ := h.builder hi
  obtain ⟨hsound, hkept⟩ := h.setBuilder hi ht ht.sealSharedPrefix (Interner.Extends.refl _)
  obtain ⟨hsound', hkept'⟩ := hsound.addTable ht.sealSharedPrefix.table
  have hview := ht.sealSharedPrefix.table.view_eq ht.table
  exact ⟨⟨hsound', hkept.trans hkept'⟩, builder, _, _, hi, getElem?_set_of_some hi _,
    List.getElem?_concat_length, hview, hview⟩

theorem forkSharedTable_step {i : Nat}
    (hstep : world.step (.ForkSharedTable i) = some (next, outcome)) :
    StepCorrect world next (.ForkSharedTable i) outcome := by
  obtain ⟨fork, hi, hanswer⟩ := Option.bind_eq_some_iff.1 hstep
  cases hanswer
  obtain ⟨t, ht⟩ := h.fork hi
  exact ⟨h.addTable ht.builder.table, fork, _, hi, List.getElem?_concat_length,
    (ht.view_eq ht.builder.table).symm⟩

theorem snapshotTable_step {i : Nat}
    (hstep : world.step (.SnapshotTable i) = some (next, outcome)) :
    StepCorrect world next (.SnapshotTable i) outcome := by
  obtain ⟨fork, hi, hanswer⟩ := Option.bind_eq_some_iff.1 hstep
  cases hanswer
  obtain ⟨t, ht⟩ := h.fork hi
  exact ⟨h.addTable ht.snapshotTable, fork, _, hi, List.getElem?_concat_length,
    (ht.view_eq ht.snapshotTable).symm⟩

theorem freeze_step {i : Nat} (hstep : world.step (.Freeze i) = some (next, outcome)) :
    StepCorrect world next (.Freeze i) outcome := by
  obtain ⟨builder, hi, hanswer⟩ := Option.bind_eq_some_iff.1 hstep
  cases hanswer
  obtain ⟨t, ht⟩ := h.builder hi
  exact ⟨h.addTable ht.table, builder, _, hi, List.getElem?_concat_length, rfl⟩

theorem mergeDelta_step {i j : Nat} {stringRemap : StringIdRemap}
    (hstep : world.step (.MergeDelta i j stringRemap) = some (next, outcome)) :
    StepCorrect world next (.MergeDelta i j stringRemap) outcome := by
  obtain ⟨builder, hi, hrest⟩ := Option.bind_eq_some_iff.1 hstep
  obtain ⟨source, hj, hmerged⟩ := Option.bind_eq_some_iff.1 hrest
  obtain ⟨⟨result, grown⟩, hmerge, hanswer⟩ := Option.bind_eq_some_iff.1 hmerged
  cases hanswer
  obtain ⟨t, ht⟩ := h.builder hi
  obtain ⟨s, hs⟩ := h.fork hj
  obtain ⟨_, _, _, hrefused, hsame⟩ | ⟨t', ht', hext, ⟨hresult, hfull⟩ | ⟨remap, hok, -,
    hidentity, hcarries⟩⟩ := mergeDelta_spec PathInternerBuilder.destination_lawful ht hs hmerge
  · subst hrefused
    subst hsame
    refine ⟨h.setBuilder hi ht ht (Interner.Extends.refl _), ?_⟩
    show world.setBuilder i grown = world
    rw [PathWorld.setBuilder, set_of_some hi]
  · subst hresult
    exact ⟨h.setBuilder hi ht ht' hext, grown, getElem?_set_of_some hi grown,
      ht'.table.view.full hfull⟩
  · subst hok
    exact ⟨h.setBuilder hi ht ht' hext, source, grown, hj, getElem?_set_of_some hi grown,
      deltaCorrect hs ht'.table.view hidentity hcarries⟩

theorem forkMergeDelta_step {i j : Nat} {stringRemap : StringIdRemap}
    (hstep : world.step (.ForkMergeDelta i j stringRemap) = some (next, outcome)) :
    StepCorrect world next (.ForkMergeDelta i j stringRemap) outcome := by
  obtain ⟨fork, hi, hrest⟩ := Option.bind_eq_some_iff.1 hstep
  obtain ⟨source, hj, hmerged⟩ := Option.bind_eq_some_iff.1 hrest
  obtain ⟨⟨result, grown⟩, hmerge, hanswer⟩ := Option.bind_eq_some_iff.1 hmerged
  cases hanswer
  obtain ⟨t, ht⟩ := h.fork hi
  obtain ⟨s, hs⟩ := h.fork hj
  obtain ⟨_, _, _, hrefused, hsame⟩ | ⟨t', ht', hext, ⟨hresult, hfull⟩ | ⟨remap, hok, -,
    hidentity, hcarries⟩⟩ := mergeDelta_spec PathInternerFork.destination_lawful ht hs hmerge
  · subst hrefused
    subst hsame
    refine ⟨h.setFork hi ht ht (Interner.Extends.refl _), ?_⟩
    show world.setFork i grown = world
    rw [PathWorld.setFork, set_of_some hi]
  · subst hresult
    exact ⟨h.setFork hi ht ht' hext, grown, getElem?_set_of_some hi grown,
      ht'.view.full hfull⟩
  · subst hok
    exact ⟨h.setFork hi ht ht' hext, source, grown, hj, getElem?_set_of_some hi grown,
      deltaCorrect hs ht'.view hidentity hcarries⟩

theorem mergeSnapshot_step {i j : Nat}
    (hstep : world.step (.MergeSnapshot i j) = some (next, outcome)) :
    StepCorrect world next (.MergeSnapshot i j) outcome := by
  obtain ⟨builder, hi, hrest⟩ := Option.bind_eq_some_iff.1 hstep
  obtain ⟨source, hj, hmerged⟩ := Option.bind_eq_some_iff.1 hrest
  obtain ⟨⟨result, grown⟩, hmerge, hanswer⟩ := Option.bind_eq_some_iff.1 hmerged
  cases hanswer
  obtain ⟨t, ht⟩ := h.builder hi
  obtain ⟨s, hs⟩ := h.table hj
  obtain ⟨t', ht', hext, ⟨hresult, hfull⟩ | ⟨remap, hok, hidentity, hcarries⟩⟩ :=
    PathInternerBuilder.mergeSnapshot_spec ht hs hmerge
  · subst hresult
    exact ⟨h.setBuilder hi ht ht' hext, grown, getElem?_set_of_some hi grown,
      ht'.table.view.full hfull⟩
  · subst hok
    refine ⟨h.setBuilder hi ht ht' hext, source, grown, hj, getElem?_set_of_some hi grown,
      ?_, PathView.carriedBy_of_carries hs.view ht'.table.view hcarries,
      PathView.injectiveOn_of_carries hs.view hcarries
        fun c d e _ _ hc hd => hc.trans hd.symm⟩
    rw [PathView.IdentityExact, hs.view.len]
    exact hidentity

theorem remapTable_step {i j : Nat} {sourceStrings : StringId → Option String}
    {destinationStrings : StringTable}
    (hstep : world.step (.RemapTable i j sourceStrings destinationStrings) =
      some (next, outcome)) :
    StepCorrect world next (.RemapTable i j sourceStrings destinationStrings) outcome := by
  obtain ⟨fork, hi, hrest⟩ := Option.bind_eq_some_iff.1 hstep
  obtain ⟨source, hj, hmerged⟩ := Option.bind_eq_some_iff.1 hrest
  obtain ⟨⟨result, grown⟩, hmerge, hanswer⟩ := Option.bind_eq_some_iff.1 hmerged
  cases hanswer
  obtain ⟨t, ht⟩ := h.fork hi
  obtain ⟨s, hs⟩ := h.table hj
  obtain ⟨t', ht', hext, hrefused, hremapped⟩ :=
    PathInternerFork.remapTableFromStrings_spec ht hs hmerge
  refine ⟨h.setFork hi ht ht' hext, ?_⟩
  cases result with
  | none =>
      refine ⟨source, grown.paths, hj, getElem?_set_of_some hi grown.paths, ?_⟩
      obtain ⟨component, hcomponent, hunresolved⟩ | hfull := hrefused rfl
      · exact .inl ⟨component, hs.view.hasComponent hcomponent, hunresolved⟩
      · exact .inr (ht'.view.full hfull)
  | some remap =>
      obtain ⟨hidentity, hcarries⟩ := hremapped remap rfl
      refine ⟨source, grown.paths, hj, getElem?_set_of_some hi grown.paths, ?_, ?_⟩
      · rw [PathView.IdentityExact, hs.view.len]
        exact hidentity
      · intro hreachable
        obtain ⟨operations, tables, hrun, hmem⟩ := hreachable
        have hwf := run_wellFormed (fun _ hnil => absurd hnil List.not_mem_nil) hrun _ hmem
        have hall := hcarries hwf
        refine ⟨PathView.carriedBy_of_carries hs.view ht'.view hall, fun hinjective => ?_⟩
        refine PathView.injectiveOn_of_carries hs.view hall fun c d e hc hd hce hde => ?_
        obtain ⟨string, hstring, hresolved⟩ := hce
        obtain ⟨string', hstring', hresolved'⟩ := hde
        rw [hresolved] at hresolved'
        cases hresolved'
        exact hinjective c d string hc hd hstring hstring'

theorem Sound.step {operation : PathOperation}
    (hstep : world.step operation = some (next, outcome)) :
    StepCorrect world next operation outcome := by
  cases operation with
  | NewBuilder => exact newBuilder_step h hstep
  | EmptyFork => exact emptyFork_step h hstep
  | InternChild => exact internChild_step h hstep
  | ForkInternChild => exact forkInternChild_step h hstep
  | InternComponents => exact internComponents_step h hstep
  | Join => exact join_step h hstep
  | Fork => exact fork_step h hstep
  | ForkFork => exact forkFork_step h hstep
  | ForkWithSharedPrefix => exact forkWithSharedPrefix_step h hstep
  | ForkPathBuilder => exact forkPathBuilder_step h hstep
  | SharedTable => exact sharedTable_step h hstep
  | ForkSharedTable => exact forkSharedTable_step h hstep
  | SnapshotTable => exact snapshotTable_step h hstep
  | Freeze => exact freeze_step h hstep
  | MergeDelta => exact mergeDelta_step h hstep
  | ForkMergeDelta => exact forkMergeDelta_step h hstep
  | MergeSnapshot => exact mergeSnapshot_step h hstep
  | RemapTable => exact remapTable_step h hstep

end Steps

theorem Sound.run (h : world.Sound) {operations : List PathOperation}
    (hrun : world.run operations = some next) : next.Sound := by
  induction operations generalizing world with
  | nil =>
      cases hrun
      exact h
  | cons operation rest ih =>
      obtain ⟨⟨after, outcome⟩, hstep, hrest⟩ := Option.bind_eq_some_iff.1 hrun
      exact ih (h.step hstep).1.1 hrest

/-- Whatever was done before, every table is a hash-consed trie, and the next operation keeps
the components of every path and answers as it should. -/
theorem path_interner_hash_consed {operations : List PathOperation}
    (hrun : empty.run operations = some world) :
    world.HashConsed ∧ ∀ operation next outcome, world.step operation = some (next, outcome) →
      world.Kept next ∧ PathOutcomeCorrect world next operation outcome := by
  have hempty : empty.Sound := by
    constructor
    · exact fun _ hmem => absurd hmem List.not_mem_nil
    · exact fun _ hmem => absurd hmem List.not_mem_nil
    · exact fun _ hmem => absurd hmem List.not_mem_nil
  have h := hempty.run hrun
  refine ⟨h.hashConsed, fun operation next outcome hstep => ?_⟩
  obtain ⟨⟨-, hkept⟩, houtcome⟩ := h.step hstep
  exact ⟨hkept, houtcome⟩

/-- A fork and its builder each add a path, and the fork's moves when it is merged back. -/
theorem path_interner_hash_consed_fork : ∃ world next remap,
    empty.run [.NewBuilder, .InternChild 0 .ROOT ⟨0⟩, .Fork 0, .InternChild 0 .ROOT ⟨1⟩,
      .ForkInternChild 0 ⟨1⟩ ⟨2⟩] = some world ∧
    world.step (.MergeDelta 0 0 ⟨3, [], true⟩) = some (next, .Merged (.ok remap)) ∧
    remap = ⟨2, [⟨3⟩], false⟩ ∧ world.HashConsed ∧ world.Kept next := by
  have hrun : empty.run [.NewBuilder, .InternChild 0 .ROOT ⟨0⟩, .Fork 0,
    .InternChild 0 .ROOT ⟨1⟩, .ForkInternChild 0 ⟨1⟩ ⟨2⟩] = some _ := rfl
  obtain ⟨hconsed, hstep⟩ := path_interner_hash_consed hrun
  exact ⟨_, _, _, hrun, rfl, rfl, hconsed, (hstep (.MergeDelta 0 0 ⟨3, [], true⟩) _ _ rfl).1⟩

/-- The strings of a fork move in a merge, but a path in its base keeps the old component: the
fork's first string becomes the second one of the root, whose first string the path now has. -/
theorem mergeDelta_keeps_moved_string :
    ∃ tables tables' stringRemap world next remap source target,
      Symbols.run [] [.New, .ForkForModule 0, .Intern 0 "lib", .Intern 1 "app"] = some tables ∧
      Symbols.step tables (.MergeDeltaFrom 0 1 0) = some (tables', .Merged stringRemap) ∧
      empty.run [.NewBuilder, .InternChild 0 .ROOT ⟨0⟩, .Fork 0] = some world ∧
      world.step (.MergeDelta 0 0 stringRemap) = some (next, .Merged (.ok remap)) ∧
      world.forks[0]? = some source ∧ next.builders[0]? = some target ∧
      ¬source.view.CarriedBy target.view (fun c c' => stringRemap.get c = some c') remap := by
  refine ⟨_, _, _, _, _, _, _, _, rfl, rfl, rfl, rfl, rfl, rfl, fun hcarried => ?_⟩
  obtain ⟨path, components, components', hget, hsource, htarget, hrelated⟩ :=
    hcarried ⟨1⟩ (by decide)
  cases hget
  cases hsource
  cases htarget
  cases hrelated with
  | cons hhead _ => cases hhead

/-- The remap of a string merge is what a delta merge relies on, when the rows of the base have
strings that the merged tables share and all rows have strings of the source table. -/
theorem carriedBy_of_string_merge {source : PathInternerFork} {target : PathView}
    {remap : PathIdRemap} {stringRemap : StringIdRemap} {strings strings' : StringTable}
    (h : DeltaCorrect source target stringRemap remap) (hstrings : strings.Bijective)
    (hmerged : StringTable.RemapCorrect strings strings' stringRemap)
    (hinherited : ∀ path component, path.index < source.baseLen →
      source.links.component path = some (some component) →
        component.value < stringRemap.identityPrefixLen)
    (hsource : ∀ component, source.view.HasComponent component →
      component.value < strings.len) :
    source.view.CarriedBy target (fun c c' => stringRemap.get c = some c') remap ∧
      source.view.InjectiveOn remap := by
  obtain ⟨hcarried, hinjective⟩ := h.2 fun path component hpath hcomponent =>
    if_pos (hinherited path component hpath hcomponent)
  refine ⟨hcarried, hinjective fun c d e hc hd hce hde => ?_⟩
  have hc := hsource c hc
  have hd := hsource d hd
  obtain ⟨e', hget, hresolve⟩ := hmerged.1 c hc
  rw [hce] at hget
  cases hget
  obtain ⟨e', hget, hresolve'⟩ := hmerged.1 d hd
  rw [hde] at hget
  cases hget
  exact (hstrings.resolve_inj c d hc hd).2 (hresolve.symm.trans hresolve')

end PathWorld

end Moth.Symbols
