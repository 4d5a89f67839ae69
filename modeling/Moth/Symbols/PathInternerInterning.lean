import Moth.Symbols.PathInternerTables

/-!
# Builders and forks represent tries

The maps of a builder or a fork, taken together, find exactly the children
that its rows have. Interning a child then finds it or appends it, so it is
interning in the trie; sealing rows, sharing them and forking change where a
row is kept and not what is represented. A fork is a builder that inherits its
base, and interns like one.
-/

namespace Moth.Symbols

open Moth.Lib

theorem RowsOf.push {t : Trie StringId} {nodes : List PathNode} {depths : List Nat}
    (h : RowsOf t nodes depths) {parent : PathId} {component : StringId} {depth : Nat}
    (hp : parent.index < t.len) (hnew : some (parent.index, component) ∉ t.entries)
    (hbound : nodes.length + 1 < idSpace) (hdepth : depths[parent.index]? = some depth) :
    RowsOf (t.push parent.index component hp hnew) (nodes ++ [⟨some parent, component⟩])
      (depths ++ [depth + 1]) where
  entries := by
    rw [List.map_append, h.entries]
    rfl
  bound := by
    rw [List.length_append]
    exact hbound
  length := by
    rw [List.length_append, List.length_append, h.length]
    rfl
  depth i cs hspells := by
    cases Trie.spells_push hspells with
    | inl hold =>
        have hlt : i < depths.length := by
          rw [h.length, h.len_eq]
          exact hold.lt
        rw [List.getElem?_append_left hlt]
        exact h.depth i cs hold
    | inr hlast =>
        obtain ⟨rfl, ds, hds, rfl⟩ := hlast
        rw [h.depth _ ds hds] at hdepth
        cases hdepth
        rw [← h.len_eq, ← h.length, List.getElem?_concat_length, List.length_append]
        rfl

/-! ## Layers -/

theorem childInLayers_concat (layers : List PathLookup) (layer : PathLookup)
    (key : PathId × StringId) : childInLayers (layers ++ [layer]) key =
      (layer.lookup key).or (childInLayers layers key) := by
  rw [childInLayers, List.reverse_append, List.reverse_singleton, List.singleton_append,
    List.findSome?_cons]
  cases layer.lookup key <;> rfl

/-- The child that a map and the layers below it have. -/
def childIn (lookup : PathLookup) (layers : List PathLookup) (key : PathId × StringId) :
    Option PathId := (lookup.lookup key).or (childInLayers layers key)

theorem childIn_layered (lookup : PathLookup) (layers : List PathLookup)
    (key : PathId × StringId) :
    childIn [] (if lookup.isEmpty then layers else layers ++ [lookup]) key =
      childIn lookup layers key := by
  rw [childIn, List.lookup_nil, Option.none_or, childIn]
  split
  · next hempty =>
      rw [List.isEmpty_iff.1 hempty, List.lookup_nil, Option.none_or]
  · exact childInLayers_concat layers lookup key

/-- A map and layers find the children of a trie. -/
def Finds (t : Trie StringId) (lookup : PathLookup) (layers : List PathLookup) : Prop :=
  ∀ parent component, childIn lookup layers (parent, component) =
    (t.find (some (parent.index, component))).map PathId.mk

theorem finds_rootTrie : Finds rootTrie [] [] := fun _ _ => rfl

theorem Finds.push {t : Trie StringId} {lookup : PathLookup} {layers : List PathLookup}
    (h : Finds t lookup layers) {parent : PathId} {component : StringId}
    {hp : parent.index < t.len} {hnew : some (parent.index, component) ∉ t.entries} :
    Finds (t.push parent.index component hp hnew) (((parent, component), ⟨t.len⟩) :: lookup)
      layers := by
  intro parent' component'
  have hold := h parent' component'
  have hfind := Interner.find_push hnew (some (parent'.index, component'))
  show childIn _ _ _ = ((t.toInterner.push _ hnew).find _).map PathId.mk
  rw [hfind, childIn, List.lookup_cons]
  rw [childIn] at hold
  by_cases hkey : (parent', component') = (parent, component)
  · cases hkey
    rw [beq_self_eq_true, Interner.find_eq_none.2 hnew, if_pos rfl]
    rfl
  · have hrow : ¬some (parent.index, component) = some (parent'.index, component') := by
      intro heq
      have hpair := Option.some.inj heq
      rw [Prod.mk.injEq] at hpair
      exact hkey (Prod.ext (congrArg PathId.mk hpair.1.symm) hpair.2.symm)
    rw [beq_eq_false_iff_ne.2 hkey, if_neg hrow, Option.or_none]
    exact hold

/-! ## Tables -/

namespace PathTable

theorem new_represents : PathTable.new.Represents rootTrie where
  regular := PathTableBase.fromParts_regular rfl
  lengths := rfl
  rows := rootTrie_rows

variable {table : PathTable} {t : Trie StringId} (h : table.Represents t)
include h

theorem Represents.sealSharedBase : table.sealSharedBase.Represents t := by
  rw [PathTable.sealSharedBase]
  split
  · exact h
  · refine ⟨h.regular.withSegment h.lengths, rfl, ?_⟩
    have hnodes : (PathTable.mk (table.base.withSegment ⟨table.nodes, table.depths⟩) []
        []).allNodes = table.allNodes := by
      show (table.base.segments ++ [_]).flatMap PathTableSegment.nodes ++ [] = _
      rw [List.append_nil, List.flatMap_append, List.flatMap_singleton]
      rfl
    have hdepths : (PathTable.mk (table.base.withSegment ⟨table.nodes, table.depths⟩) []
        []).allDepths = table.allDepths := by
      show (table.base.segments ++ [_]).flatMap PathTableSegment.depths ++ [] = _
      rw [List.append_nil, List.flatMap_append, List.flatMap_singleton]
      rfl
    rw [hnodes, hdepths]
    exact h.rows

theorem Represents.snapshotBase : (PathTable.mk table.snapshotBase [] []).Represents t := by
  have hsealed := h.sealSharedBase
  rw [PathTable.sealSharedBase] at hsealed
  rw [PathTable.snapshotBase]
  split
  · next hempty =>
      rw [if_pos hempty] at hsealed
      obtain ⟨base, nodes, depths⟩ := table
      have hnodes : nodes = [] := List.isEmpty_iff.1 hempty
      subst hnodes
      have hdepths : depths = [] := List.length_eq_zero_iff.1 h.lengths
      subst hdepths
      exact h
  · next hempty =>
      rw [if_neg hempty] at hsealed
      exact hsealed

theorem Represents.appendChild {parent path : PathId} {component : StringId} {next : PathTable}
    (hnew : some (parent.index, component) ∉ t.entries)
    (happend : table.tryAppendChild parent component = some (.child path next)) :
    ∃ hp : parent.index < t.len, next.Represents (t.push parent.index component hp hnew) ∧
      path = ⟨t.len⟩ ∧ next.base = table.base := by
  rw [tryAppendChild, PathId.tryFromIndex] at happend
  split at happend
  · cases happend
  · next child hchild =>
      split at hchild
      · next hroom =>
          cases hchild
          obtain ⟨depth, hdepth, hanswer⟩ := Option.map_eq_some_iff.1 happend
          split at hanswer
          · cases hanswer
            have hat : table.allDepths[parent.index]? = some depth :=
              (h.depthAt parent.index).symm.trans hdepth
            have hp : parent.index < t.len := by
              rw [← h.rows.len_eq, ← h.rows.length]
              exact (List.getElem?_eq_some_iff.1 hat).1
            have hbound : table.allNodes.length + 1 < idSpace := by
              rw [h.rows.len_eq, ← h.len_eq]
              exact hroom
            refine ⟨hp, ⟨h.regular, ?_, ?_⟩, by rw [h.len_eq], rfl⟩
            · show (table.depths ++ [_]).length = (table.nodes ++ [_]).length
              rw [List.length_append, List.length_append, h.lengths]
              rfl
            · have hpushed := h.rows.push hp hnew hbound hat
              rw [allNodes, allDepths, List.append_assoc, List.append_assoc] at hpushed
              exact hpushed
          · cases hanswer
      · cases hchild

omit h in
/-- Tables of one trie answer every query alike. -/
theorem Represents.links_eq {other : PathTable} (h : table.Represents t)
    (h' : other.Represents t) : table.links = other.links := by
  have hparent : table.links.parent = other.links.parent := by
    funext path
    rw [h.links_represents.parent, h'.links_represents.parent]
  have hcomponent : table.links.component = other.links.component := by
    funext path
    rw [h.links_represents.component, h'.links_represents.component]
  have hdepth : table.links.depth = other.links.depth := by
    funext path
    show table.depthAt path.index = other.depthAt path.index
    rw [h.depthAt, h'.depthAt]
    by_cases hlt : path.index < t.len
    · obtain ⟨cs, hcs⟩ := Trie.exists_spells hlt
      rw [h.rows.depth _ cs hcs, h'.rows.depth _ cs hcs]
    · rw [List.getElem?_eq_none (by rw [h.rows.length, h.rows.len_eq]; omega),
        List.getElem?_eq_none (by rw [h'.rows.length, h'.rows.len_eq]; omega)]
  exact PathLinks.ext hparent hcomponent hdepth

theorem Represents.depth_lt {path : PathId} {depth : Nat}
    (hdepth : table.links.depth path = some depth) : depth + 1 < idSpace := by
  have hbound := h.rows.bound
  have hat : table.allDepths[path.index]? = some depth :=
    (h.depthAt path.index).symm.trans hdepth
  have hlt := (List.getElem?_eq_some_iff.1 hat).1
  rw [h.rows.length, h.rows.len_eq] at hlt
  obtain ⟨cs, hcs⟩ := Trie.exists_spells hlt
  rw [h.rows.depth _ cs hcs] at hat
  obtain rfl := Option.some.inj hat
  have hle := hcs.length_le
  rw [h.rows.len_eq] at hbound
  omega

theorem Represents.appendChild_full {parent : PathId} {component : StringId}
    (happend : table.tryAppendChild parent component = some .full) : idSpace ≤ t.len + 1 := by
  rw [tryAppendChild, PathId.tryFromIndex] at happend
  split at happend
  · next hid =>
      rw [← h.len_eq]
      split at hid
      · cases hid
      · omega
  · obtain ⟨depth, hdepth, hanswer⟩ := Option.map_eq_some_iff.1 happend
    rw [if_pos (h.depth_lt hdepth)] at hanswer
    cases hanswer

end PathTable

/-! ## Builders -/

namespace PathInternerBuilder

/-- A builder stands for a trie. -/
structure Represents (builder : PathInternerBuilder) (t : Trie StringId) : Prop where
  table : builder.table.Represents t
  finds : Finds t builder.lookup builder.lookupLayers

theorem new_represents : new.Represents rootTrie := ⟨PathTable.new_represents, finds_rootTrie⟩

variable {builder : PathInternerBuilder} {t : Trie StringId}

theorem tryInternChild_spec (h : builder.Represents t) {parent path : PathId}
    {component : StringId} {next : PathInternerBuilder}
    (hintern : builder.tryInternChild parent component = some (.child path next)) :
    ∃ t', next.Represents t' ∧ t.Extends t'.toInterner ∧
      t'.entries[path.index]? = some (some (parent.index, component)) := by
  have hfinds := h.finds parent component
  have hfound : ∀ existing : PathId,
      (t.find (some (parent.index, component))).map PathId.mk = some existing →
        t.entries[existing.index]? = some (some (parent.index, component)) := by
    intro existing heq
    obtain ⟨i, hi, hexisting⟩ := Option.map_eq_some_iff.1 heq
    subst hexisting
    exact Interner.find_eq_some.1 hi
  rw [childIn] at hfinds
  rw [tryInternChild] at hintern
  cases hlocal : builder.lookup.lookup (parent, component) with
  | some existing =>
      rw [hlocal] at hintern hfinds
      cases hintern
      exact ⟨t, h, Interner.Extends.refl _, hfound path hfinds.symm⟩
  | none =>
      rw [hlocal, Option.none_or] at hfinds
      rw [hlocal] at hintern
      cases hlayer : childInLayers builder.lookupLayers (parent, component) with
      | some existing =>
          rw [hlayer] at hintern hfinds
          cases hintern
          exact ⟨t, h, Interner.Extends.refl _, hfound path hfinds.symm⟩
      | none =>
          rw [hlayer] at hintern hfinds
          have hnew : some (parent.index, component) ∉ t.entries :=
            Interner.find_eq_none.1 (Option.map_eq_none_iff.1 hfinds.symm)
          obtain ⟨answer, happend, hanswer⟩ := Option.map_eq_some_iff.1 hintern
          cases answer with
          | full => cases hanswer
          | child child table =>
              cases hanswer
              obtain ⟨hp, htable, hpath, -⟩ := h.table.appendChild hnew happend
              subst hpath
              exact ⟨t.push parent.index component hp hnew, ⟨htable, h.finds.push⟩,
                Trie.push_extends, Trie.push_row⟩

theorem tryInternChild_full (h : builder.Represents t) {parent : PathId} {component : StringId}
    (hintern : builder.tryInternChild parent component = some .full) : idSpace ≤ t.len + 1 := by
  rw [tryInternChild] at hintern
  split at hintern
  · cases hintern
  · split at hintern
    · cases hintern
    · obtain ⟨answer, happend, hanswer⟩ := Option.map_eq_some_iff.1 hintern
      cases answer with
      | full => exact h.table.appendChild_full happend
      | child child table => cases hanswer

theorem Represents.sealSharedPrefix (h : builder.Represents t) :
    builder.sealSharedPrefix.Represents t where
  table := h.table.sealSharedBase
  finds parent component := (childIn_layered _ _ _).trans (h.finds parent component)

end PathInternerBuilder

/-! ## Forks -/

namespace PathInternerFork

/-- A fork stands for a trie, of which its base has the root. -/
structure Represents (fork : PathInternerFork) (t : Trie StringId) : Prop where
  baseLen : fork.baseLen = fork.base.table.len
  rooted : 0 < fork.baseLen
  builder : fork.forkPathBuilder.Represents t

variable {fork : PathInternerFork} {t : Trie StringId}

theorem Represents.node_isSome (h : fork.Represents t) {index : Nat} (hlt : index < fork.baseLen) :
    ∃ node, fork.base.table.node index = some node := by
  have hregular : fork.base.table.Regular := h.builder.table.regular
  rw [hregular.node]
  rw [h.baseLen, hregular.len] at hlt
  exact ⟨_, List.getElem?_eq_getElem hlt⟩

theorem Represents.links_eq (h : fork.Represents t) : fork.links = fork.sharedTable.links := by
  have hnode : ∀ index, fork.sharedTable.node index =
      if index < fork.baseLen then fork.base.table.node index
      else fork.nodes[index - fork.baseLen]? := by
    intro index
    rw [h.baseLen]
    rfl
  rw [links, PathTable.links]
  congr 1
  · funext path
    rw [hnode]
    split
    · next hlt =>
        obtain ⟨node, hat⟩ := h.node_isSome hlt
        rw [hat]
        rfl
    · rfl
  · funext path
    split
    · rfl
    · rw [hnode]
      split
      · next hlt =>
          obtain ⟨node, hat⟩ := h.node_isSome hlt
          rw [hat]
          rfl
      · rfl
  · funext path
    rw [h.baseLen]
    rfl

/-- A fork interns as the builder over its rows does. -/
theorem Represents.tryInternChild_builder (h : fork.Represents t) {parent path : PathId}
    {component : StringId} {next : PathInternerFork}
    (hintern : fork.tryInternChild parent component = some (.child path next)) :
    fork.forkPathBuilder.tryInternChild parent component =
        some (.child path next.forkPathBuilder) ∧
      next.baseLen = fork.baseLen ∧ next.base = fork.base := by
  have hlookup : fork.forkPathBuilder.lookup = fork.lookup := rfl
  have hlayers : fork.forkPathBuilder.lookupLayers = fork.base.lookupLayers := rfl
  rw [tryInternChild, PathInternerBase.child] at hintern
  rw [PathInternerBuilder.tryInternChild, hlookup, hlayers]
  cases hlocal : fork.lookup.lookup (parent, component) with
  | some existing =>
      rw [hlocal] at hintern
      cases hintern
      exact ⟨rfl, rfl, rfl⟩
  | none =>
      rw [hlocal] at hintern
      cases hlayer : childInLayers fork.base.lookupLayers (parent, component) with
      | some existing =>
          rw [hlayer] at hintern
          cases hintern
          exact ⟨rfl, rfl, rfl⟩
      | none =>
          rw [hlayer] at hintern
          obtain ⟨depth, hdepth, hanswer⟩ := Option.map_eq_some_iff.1 hintern
          rw [h.links_eq] at hdepth
          split at hanswer
          · next hroom =>
              split at hanswer
              · cases hanswer
              · next child hchild =>
                  cases hanswer
                  rw [h.baseLen] at hchild
                  have happend : fork.sharedTable.tryAppendChild parent component =
                      some (.child path ⟨fork.base.table,
                        fork.nodes ++ [⟨some parent, component⟩],
                        fork.depths ++ [depth + 1]⟩) := by
                    have hid : PathId.tryFromIndex fork.sharedTable.len = some path := hchild
                    rw [PathTable.tryAppendChild, hid, hdepth]
                    show some (if depth + 1 < idSpace then _ else _) = _
                    rw [if_pos hroom]
                    rfl
                  refine ⟨?_, rfl, rfl⟩
                  show (fork.sharedTable.tryAppendChild parent component).map _ = _
                  rw [happend]
                  rfl
          · cases hanswer

theorem tryInternChild_spec (h : fork.Represents t) {parent path : PathId}
    {component : StringId} {next : PathInternerFork}
    (hintern : fork.tryInternChild parent component = some (.child path next)) :
    ∃ t', next.Represents t' ∧ t.Extends t'.toInterner ∧
      t'.entries[path.index]? = some (some (parent.index, component)) := by
  obtain ⟨hbuilder, hlen, hbase⟩ := h.tryInternChild_builder hintern
  obtain ⟨t', ht', hext, hrow⟩ := PathInternerBuilder.tryInternChild_spec h.builder hbuilder
  exact ⟨t', ⟨by rw [hlen, hbase, h.baseLen], hlen.symm ▸ h.rooted, ht'⟩, hext, hrow⟩

theorem tryInternChild_full (h : fork.Represents t) {parent : PathId} {component : StringId}
    (hintern : fork.tryInternChild parent component = some .full) : idSpace ≤ t.len + 1 := by
  rw [tryInternChild] at hintern
  split at hintern
  · cases hintern
  · split at hintern
    · cases hintern
    · obtain ⟨depth, hdepth, hanswer⟩ := Option.map_eq_some_iff.1 hintern
      rw [h.links_eq] at hdepth
      rw [if_pos (h.builder.table.depth_lt hdepth), PathId.tryFromIndex] at hanswer
      have hlen : fork.baseLen + fork.nodes.length = t.len := by
        rw [h.baseLen]
        exact h.builder.table.len_eq
      rw [hlen] at hanswer
      split at hanswer
      · next hid =>
          split at hid
          · cases hid
          · omega
      · cases hanswer

theorem forkForModule_represents (base : PathInternerBase)
    (htable : (PathTable.mk base.table [] []).Represents t)
    (hfinds : Finds t [] base.lookupLayers) : base.forkForModule.Represents t := by
  have hlen : base.table.len = t.len := htable.len_eq
  have hroot : 0 < t.len := (List.getElem?_eq_some_iff.1 t.root).1
  refine ⟨rfl, ?_, htable, hfinds⟩
  show 0 < base.table.len
  rw [hlen]
  exact hroot

theorem empty_represents : empty.Represents rootTrie :=
  forkForModule_represents ⟨PathTable.new.base, []⟩ PathTable.new_represents
    finds_rootTrie

theorem Represents.snapshotTable (h : fork.Represents t) : fork.snapshotTable.Represents t := by
  have hrows := h.builder.table.rows
  refine ⟨PathTableBase.fromParts_regular hrows.length, rfl, ?_⟩
  have hnodes : fork.snapshotTable.allNodes = fork.sharedTable.allNodes := by
    show ([_] : List PathTableSegment).flatMap PathTableSegment.nodes ++ [] = _
    rw [List.append_nil, List.flatMap_singleton]
    rfl
  have hdepths : fork.snapshotTable.allDepths = fork.sharedTable.allDepths := by
    show ([_] : List PathTableSegment).flatMap PathTableSegment.depths ++ [] = _
    rw [List.append_nil, List.flatMap_singleton]
    rfl
  rw [hnodes, hdepths]
  exact hrows

end PathInternerFork

theorem PathInternerBuilder.Represents.fork {builder : PathInternerBuilder} {t : Trie StringId}
    (h : builder.Represents t) : builder.forkSource.forkForModule.Represents t :=
  PathInternerFork.forkForModule_represents _ h.table.snapshotBase fun parent component =>
    (childIn_layered _ _ _).trans (h.finds parent component)

theorem PathInternerFork.Represents.fork {fork : PathInternerFork} {t : Trie StringId}
    (h : fork.Represents t) : fork.forkSource.forkForModule.Represents t := h.builder.fork

end Moth.Symbols
