import Moth.Lib.Trie
import Moth.Symbols.PathInterner

/-!
# Path tables represent tries

Wherever a row is kept, in a segment of the base or in the suffix, a table
reads like one list of rows, and the rows are those of a hash-consed trie. The
queries then answer about the components of a path: its list, its prefixes and
its suffixes.
-/

namespace Moth.Symbols

open Moth.Lib

/-! ## Segments -/

/-- The index after each segment, counted from a start. -/
def segmentEndsFrom (start : Nat) : List PathTableSegment → List Nat
  | [] => []
  | segment :: rest =>
      (start + segment.nodes.length) :: segmentEndsFrom (start + segment.nodes.length) rest

namespace PathTableBase

variable {base : PathTableBase}

/-- The base is a non-empty list of segments and counts its rows. -/
structure Regular (base : PathTableBase) : Prop where
  nonempty : base.segments ≠ []
  lengths : ∀ segment ∈ base.segments, segment.depths.length = segment.nodes.length
  ends : base.segmentEnds = segmentEndsFrom 0 base.segments
  len : base.len = (base.segments.flatMap PathTableSegment.nodes).length

theorem segmentEndsFrom_concat (start : Nat) (segments : List PathTableSegment)
    (segment : PathTableSegment) : segmentEndsFrom start (segments ++ [segment]) =
      segmentEndsFrom start segments ++
        [start + (segments.flatMap PathTableSegment.nodes).length + segment.nodes.length] := by
  induction segments generalizing start with
  | nil => rfl
  | cons first rest ih =>
      rw [List.cons_append, segmentEndsFrom, ih, List.flatMap_cons, List.length_append,
        segmentEndsFrom, List.cons_append, Nat.add_assoc start]

theorem length_flatMap_rows {α : Type} {rows : PathTableSegment → List α}
    {segments : List PathTableSegment}
    (hlengths : ∀ segment ∈ segments, (rows segment).length = segment.nodes.length) :
    (segments.flatMap rows).length = (segments.flatMap PathTableSegment.nodes).length := by
  rw [List.length_flatMap, List.length_flatMap]
  exact congrArg List.sum (List.map_congr_left hlengths)

/-- The partition point finds the segment of an index. -/
theorem segment_lookup {α : Type} {rows : PathTableSegment → List α} {index : Nat} :
    ∀ {segments : List PathTableSegment} (start : Nat),
    (∀ segment ∈ segments, (rows segment).length = segment.nodes.length) → start ≤ index →
    index < start + (segments.flatMap rows).length →
    ((segments[((segmentEndsFrom start segments).takeWhile (· ≤ index)).length]?).bind
      fun segment => (rows segment)[index -
        (if ((segmentEndsFrom start segments).takeWhile (· ≤ index)).length = 0 then start
          else ((segmentEndsFrom start segments)[
            ((segmentEndsFrom start segments).takeWhile (· ≤ index)).length - 1]?).getD 0)]?) =
      (segments.flatMap rows)[index - start]?
  | [], start, _, hle, hlt => by
      simp only [List.flatMap_nil, List.length_nil] at hlt
      omega
  | segment :: rest, start, hlengths, hle, hlt => by
      have hsegment := hlengths segment List.mem_cons_self
      have hrest := fun s hs => hlengths s (List.mem_cons_of_mem segment hs)
      rw [List.flatMap_cons, List.length_append] at hlt
      rw [segmentEndsFrom, List.flatMap_cons]
      by_cases hin : start + segment.nodes.length ≤ index
      · rw [List.takeWhile_cons_of_pos (by simpa using hin), List.length_cons,
          List.getElem?_append_right (by omega), hsegment, Nat.sub_sub,
          ← segment_lookup _ hrest hin (by omega), List.getElem?_cons_succ, if_neg (by omega),
          Nat.add_sub_cancel]
        generalize hends : segmentEndsFrom (start + segment.nodes.length) rest = ends
        generalize hfound : (ends.takeWhile (· ≤ index)).length = found
        cases found with
        | zero => rfl
        | succ found => rfl
      · rw [List.takeWhile_cons_of_neg (by simpa using hin), List.length_nil, if_pos rfl,
          List.getElem?_append_left (by omega)]
        rfl

theorem rowIn_eq {α : Type} {rows : PathTableSegment → List α} (h : base.Regular)
    (hlengths : ∀ segment ∈ base.segments, (rows segment).length = segment.nodes.length)
    (index : Nat) : base.rowIn rows index = (base.segments.flatMap rows)[index]? := by
  have htotal : (base.segments.flatMap rows).length = base.len := by
    rw [length_flatMap_rows hlengths, h.len]
  rw [rowIn]
  by_cases hle : base.len ≤ index
  · rw [if_pos hle, List.getElem?_eq_none (by omega)]
  · rw [if_neg hle]
    by_cases hone : base.segments.length = 1
    · rw [if_pos hone]
      obtain ⟨only, honly⟩ := List.length_eq_one_iff.1 hone
      rw [honly, List.flatMap_singleton]
      rfl
    · rw [if_neg hone, List.getLast?_eq_some_getLast h.nonempty]
      have hsplit := List.dropLast_append_getLast h.nonempty
      have hlookup := segment_lookup 0 hlengths (Nat.zero_le index) (by omega)
      generalize base.segments.getLast h.nonempty = last at hsplit
      have hlast : (base.segments.flatMap rows) =
          base.segments.dropLast.flatMap rows ++ rows last := by
        rw [← hsplit, List.flatMap_append, List.flatMap_singleton, hsplit]
      have hcount : (base.segments.dropLast.flatMap rows).length =
          base.len - (rows last).length := by
        have := congrArg List.length hlast
        rw [List.length_append] at this
        omega
      show (if base.len - (rows last).length ≤ index then _ else _) = _
      by_cases hlate : base.len - (rows last).length ≤ index
      · rw [if_pos hlate, hlast, List.getElem?_append_right (by omega), hcount]
      · rw [if_neg hlate, h.ends]
        exact hlookup

theorem Regular.node (h : base.Regular) (index : Nat) :
    base.node index = (base.segments.flatMap PathTableSegment.nodes)[index]? :=
  rowIn_eq h (fun _ _ => rfl) index

theorem Regular.depth (h : base.Regular) (index : Nat) :
    base.depth index = (base.segments.flatMap PathTableSegment.depths)[index]? :=
  rowIn_eq h h.lengths index

theorem length_flatMap_depths (h : base.Regular) :
    (base.segments.flatMap PathTableSegment.depths).length =
      (base.segments.flatMap PathTableSegment.nodes).length :=
  length_flatMap_rows h.lengths

theorem fromParts_regular {nodes : List PathNode} {depths : List Nat}
    (hlength : depths.length = nodes.length) : (fromParts nodes depths).Regular where
  nonempty := List.cons_ne_nil _ _
  lengths segment hsegment := by
    cases List.mem_singleton.1 hsegment
    exact hlength
  ends := by
    show [nodes.length] = [0 + nodes.length]
    rw [Nat.zero_add]
  len := by
    show nodes.length = (nodes ++ []).length
    rw [List.append_nil]

theorem Regular.withSegment (h : base.Regular) {nodes : List PathNode} {depths : List Nat}
    (hlength : depths.length = nodes.length) : (base.withSegment ⟨nodes, depths⟩).Regular where
  nonempty := List.append_ne_nil_of_right_ne_nil _ (List.cons_ne_nil _ _)
  lengths segment hsegment := by
    cases List.mem_append.1 hsegment with
    | inl hin => exact h.lengths segment hin
    | inr heq =>
        cases List.mem_singleton.1 heq
        exact hlength
  ends := by
    show base.segmentEnds ++ [base.len + nodes.length] =
      segmentEndsFrom 0 (base.segments ++ [⟨nodes, depths⟩])
    rw [segmentEndsFrom_concat, h.ends, h.len, Nat.zero_add]
  len := by
    show base.len + nodes.length =
      ((base.segments ++ [(⟨nodes, depths⟩ : PathTableSegment)]).flatMap
        PathTableSegment.nodes).length
    rw [List.flatMap_append, List.length_append, h.len, List.flatMap_singleton]

end PathTableBase

/-! ## Queries -/

/-- Reads of paths answer for the rows of a trie. -/
structure PathLinks.Represents (links : PathLinks) (t : Trie StringId) : Prop where
  parent : ∀ path, links.parent path =
    (t.entries[path.index]?).map (Option.map fun row => ⟨row.1⟩)
  component : ∀ path, links.component path = (t.entries[path.index]?).map (Option.map Prod.snd)
  depth : ∀ path cs, t.Spells path.index cs → links.depth path = some cs.length

namespace PathLinks.Represents

variable {links : PathLinks} {t : Trie StringId} (h : links.Represents t)
include h

theorem last {path : PathId} {cs : List StringId} {c : StringId}
    (hspells : t.Spells path.index (cs ++ [c])) :
    ∃ parent : PathId, links.parent path = some (some parent) ∧
      links.component path = some (some c) ∧ t.Spells parent.index cs := by
  obtain ⟨p, hrow, hparent⟩ := hspells.concat_inv
  refine ⟨⟨p⟩, ?_, ?_, hparent⟩
  · rw [h.parent, hrow]
    rfl
  · rw [h.component, hrow]
    rfl

theorem ascend {path : PathId} {cs ds : List StringId}
    (hspells : t.Spells path.index (cs ++ ds)) :
    ∃ above, links.ascend ds.length path = some above ∧ t.Spells above.index cs := by
  induction ds using List.reverseRecOn generalizing path with
  | nil =>
      rw [List.append_nil] at hspells
      exact ⟨path, rfl, hspells⟩
  | append_singleton ds d ih =>
      rw [← List.append_assoc] at hspells
      obtain ⟨parent, hparent, -, habove⟩ := h.last hspells
      obtain ⟨above, hascend, hend⟩ := ih habove
      refine ⟨above, ?_, hend⟩
      rw [List.length_append, List.length_singleton, PathLinks.ascend, hparent]
      exact hascend

theorem componentsUp {path : PathId} {cs : List StringId} (hspells : t.Spells path.index cs) :
    links.componentsUp cs.length path = some cs.reverse := by
  induction cs using List.reverseRecOn generalizing path with
  | nil => rfl
  | append_singleton cs c ih =>
      obtain ⟨parent, hparent, hcomponent, habove⟩ := h.last hspells
      rw [List.length_append, List.length_singleton, PathLinks.componentsUp, hcomponent, hparent,
        List.reverse_append]
      show (do return c :: (← links.componentsUp cs.length parent)) = some (c :: cs.reverse)
      rw [ih habove]
      rfl

theorem resolveComponents {path : PathId} {cs : List StringId}
    (hspells : t.Spells path.index cs) : links.resolveComponents path = some cs := by
  rw [PathLinks.resolveComponents, h.depth path cs hspells]
  show (do return (← links.componentsUp cs.length path).reverse) = some cs
  rw [h.componentsUp hspells]
  show some cs.reverse.reverse = some cs
  rw [List.reverse_reverse]

theorem startsWith {path pre : PathId} {cs ds : List StringId}
    (hpath : t.Spells path.index cs) (hpre : t.Spells pre.index ds) :
    links.startsWith path pre = some (decide (ds <+: cs)) := by
  rw [PathLinks.startsWith, h.depth path cs hpath, h.depth pre ds hpre]
  show (if cs.length < ds.length then some false
    else do return (← links.ascend (cs.length - ds.length) path) == pre) = _
  by_cases hlt : cs.length < ds.length
  · rw [if_pos hlt, decide_eq_false fun hstarts => ?_]
    have := hstarts.length_le
    omega
  · rw [if_neg hlt]
    have hsplit : t.Spells path.index (cs.take ds.length ++ cs.drop ds.length) := by
      rw [List.take_append_drop]
      exact hpath
    obtain ⟨above, hascend, hend⟩ := h.ascend hsplit
    rw [List.length_drop] at hascend
    rw [hascend]
    show some (above == pre) = some (decide (ds <+: cs))
    congr 1
    rw [Bool.eq_iff_iff, beq_iff_eq, decide_eq_true_iff, List.prefix_iff_eq_take]
    constructor
    · intro heq
      subst heq
      exact hpre.unique hend
    · intro heq
      rw [← heq] at hend
      exact congrArg PathId.mk (hend.injective hpre)

theorem matchUp {steps : Nat} {path suffix : PathId} {cs ds : List StringId}
    (hpath : t.Spells path.index cs) (hsuffix : t.Spells suffix.index ds)
    (hcs : steps ≤ cs.length) (hds : steps ≤ ds.length) :
    links.matchUp steps path suffix =
      some (decide (cs.reverse.take steps = ds.reverse.take steps)) := by
  induction steps generalizing path suffix cs ds with
  | zero => rfl
  | succ steps ih =>
      obtain ⟨cs, c, rfl⟩ := (List.eq_nil_or_concat' cs).resolve_left
        (List.ne_nil_of_length_pos (by omega))
      obtain ⟨ds, d, rfl⟩ := (List.eq_nil_or_concat' ds).resolve_left
        (List.ne_nil_of_length_pos (by omega))
      obtain ⟨above, habove, hcomponent, hup⟩ := h.last hpath
      obtain ⟨above', habove', hcomponent', hup'⟩ := h.last hsuffix
      rw [List.length_append, List.length_singleton] at hcs hds
      rw [PathLinks.matchUp, hcomponent, hcomponent', habove, habove', List.reverse_append,
        List.reverse_append]
      show (if (some c != some d) = true then some false else links.matchUp steps above above') =
        some (decide (c :: cs.reverse.take steps = d :: ds.reverse.take steps))
      by_cases hcd : c = d
      · subst hcd
        rw [if_neg (by simp), ih hup hup' (by omega) (by omega)]
        simp
      · rw [if_pos (by simpa using hcd)]
        simp [hcd]

theorem endsWith {path suffix : PathId} {cs ds : List StringId}
    (hpath : t.Spells path.index cs) (hsuffix : t.Spells suffix.index ds) :
    links.endsWith path suffix = some (decide (ds <:+ cs)) := by
  rw [PathLinks.endsWith, h.depth path cs hpath, h.depth suffix ds hsuffix]
  show (if cs.length < ds.length then some false else links.matchUp ds.length path suffix) = _
  by_cases hlt : cs.length < ds.length
  · rw [if_pos hlt, decide_eq_false fun hends => ?_]
    have := hends.length_le
    omega
  · rw [if_neg hlt, h.matchUp hpath hsuffix (by omega) (Nat.le_refl _)]
    congr 1
    rw [Bool.eq_iff_iff, decide_eq_true_iff, decide_eq_true_iff, ← List.reverse_prefix,
      List.prefix_iff_eq_take, List.length_reverse,
      List.take_of_length_le (by rw [List.length_reverse] : ds.reverse.length ≤ ds.length)]
    exact eq_comm

end PathLinks.Represents

/-! ## Rows -/

def PathNode.entry (node : PathNode) : Option (Nat × StringId) :=
  node.parent.map fun parent => (parent.index, node.component)

/-- Rows and depths of a trie. -/
structure RowsOf (t : Trie StringId) (nodes : List PathNode) (depths : List Nat) : Prop where
  entries : nodes.map PathNode.entry = t.entries
  bound : nodes.length < idSpace
  length : depths.length = nodes.length
  depth : ∀ i cs, t.Spells i cs → depths[i]? = some cs.length

theorem RowsOf.len_eq {t : Trie StringId} {nodes : List PathNode} {depths : List Nat}
    (h : RowsOf t nodes depths) : nodes.length = t.len := by
  rw [Interner.len, ← h.entries, List.length_map]

/-- What a table with a row for the root and no other stands for. -/
def rootTrie : Trie StringId where
  entries := [none]
  nodup := List.nodup_singleton none
  root := rfl
  earlier i p c h := by
    cases i with
    | zero => cases h
    | succ i => cases h

theorem rootTrie_rows : RowsOf rootTrie [⟨none, ⟨0⟩⟩] [0] where
  entries := rfl
  bound := (by decide : 1 < idSpace)
  length := rfl
  depth i cs h := by
    have hi : i = 0 := Nat.lt_one_iff.1 h.lt
    subst hi
    rw [h.root_inv]
    rfl

namespace PathTable

def allNodes (table : PathTable) : List PathNode :=
  table.base.segments.flatMap PathTableSegment.nodes ++ table.nodes

def allDepths (table : PathTable) : List Nat :=
  table.base.segments.flatMap PathTableSegment.depths ++ table.depths

/-- A table stands for a trie. -/
structure Represents (table : PathTable) (t : Trie StringId) : Prop where
  regular : table.base.Regular
  lengths : table.depths.length = table.nodes.length
  rows : RowsOf t table.allNodes table.allDepths

namespace Represents

variable {table : PathTable} {t : Trie StringId} (h : table.Represents t)
include h

theorem node (index : Nat) : table.node index = table.allNodes[index]? := by
  rw [PathTable.node, allNodes, h.regular.node, h.regular.len]
  split
  · next hlt => rw [List.getElem?_append_left hlt]
  · next hge => rw [List.getElem?_append_right (by omega)]

theorem depthAt (index : Nat) : table.depthAt index = table.allDepths[index]? := by
  have hlen := PathTableBase.length_flatMap_depths h.regular
  rw [PathTable.depthAt, allDepths, h.regular.depth, h.regular.len, ← hlen]
  split
  · next hlt => rw [List.getElem?_append_left hlt]
  · next hge => rw [List.getElem?_append_right (by omega)]

theorem len_eq : table.len = t.len := by
  rw [← h.rows.len_eq, allNodes, List.length_append, ← h.regular.len]
  rfl

theorem entry (index : Nat) :
    (table.node index).map PathNode.entry = t.entries[index]? := by
  rw [h.node, ← List.getElem?_map, h.rows.entries]

theorem links_represents : table.links.Represents t where
  parent path := by
    show (table.node path.index).map PathNode.parent = _
    rw [← h.entry, Option.map_map]
    congr 1
    funext node
    cases hparent : node.parent with
    | none => simp [PathNode.entry, hparent]
    | some parent => simp [PathNode.entry, hparent]
  component path := by
    show (if path = PathId.ROOT then some none
      else (table.node path.index).map fun node => some node.component) = _
    by_cases hroot : path = PathId.ROOT
    · rw [if_pos hroot, hroot]
      show _ = (t.entries[0]?).map (Option.map Prod.snd)
      rw [t.root]
      rfl
    · rw [if_neg hroot, ← h.entry, Option.map_map]
      cases hnode : table.node path.index with
      | none => rfl
      | some node =>
          cases hparent : node.parent with
          | none =>
              have hrow : t.entries[path.index]? = some none := by
                rw [← h.entry, hnode, Option.map_some, PathNode.entry, hparent]
                rfl
              exact absurd (congrArg PathId.mk (Trie.eq_zero_of_root hrow)) hroot
          | some parent => simp [PathNode.entry, hparent]
  depth path cs hspells := by
    show table.depthAt path.index = some cs.length
    rw [h.depthAt]
    exact h.rows.depth path.index cs hspells

theorem tryParent (path : PathId) : table.tryParent path =
    (t.entries[path.index]?).join.map fun row => ⟨row.1⟩ := by
  have hjoin : table.tryParent path = (table.links.parent path).join := by
    show (table.node path.index).bind PathNode.parent =
      ((table.node path.index).map PathNode.parent).join
    cases table.node path.index <;> rfl
  rw [hjoin, h.links_represents.parent]
  cases t.entries[path.index]? <;> rfl

theorem tryComponent (path : PathId) :
    table.tryComponent path = (t.entries[path.index]?).join.map Prod.snd := by
  have hjoin : table.tryComponent path = (table.links.component path).join := by
    show (if path = PathId.ROOT then none else _) =
      (if path = PathId.ROOT then some none else _).join
    split
    · rfl
    · cases table.node path.index <;> rfl
  rw [hjoin, h.links_represents.component]
  cases t.entries[path.index]? <;> rfl

end Represents

end PathTable

end Moth.Symbols
