import Moth.Lib.Interner
import Moth.Symbols.StringInterningBijective

/-!
# Any sequence of forks and merges

A merge interns the strings of its source one after the other. What it has
done at any point is told by the strings done so far: the destination only
grew, the ids collected name exactly those strings, and the flag says whether
they are the ids the strings had. Over a run of any operations every table
stays a bijection, no id changes its string, and every remap is right.
-/

namespace Moth.Symbols

open Moth.Lib

namespace StringTable

variable {table source : StringTable}

/-! ## Merges -/

/-- A merge into a table after some strings, of which the first had the id `start`. -/
structure Merged (h : table.WellFormed) (start : Nat) (strings : List String)
    (merging : Merging) : Prop where
  wellFormed : merging.table.WellFormed
  grows : h.interner.Extends wellFormed.interner
  located : wellFormed.interner.Located strings (merging.mapped.map StringId.value)
  identity : merging.isIdentity = true ↔
    merging.mapped.map StringId.value = List.range' start strings.length

theorem Merged.start (h : table.WellFormed) (start : Nat) :
    Merged h start [] ⟨table, [], true⟩ where
  wellFormed := h
  grows := Interner.Extends.refl _
  located := .nil
  identity := ⟨fun _ => rfl, fun _ => rfl⟩

theorem Merged.length {h : table.WellFormed} {start : Nat} {strings : List String}
    {merging : Merging} (hm : Merged h start strings merging) :
    merging.mapped.length = strings.length := by
  rw [List.Forall₂.length_eq hm.located, List.length_map]

theorem Merged.entry {h : table.WellFormed} {start : Nat} {strings : List String}
    {merging next : Merging} (hm : Merged h start strings merging) {s : String}
    (hentry : mergeEntry merging (start + strings.length) s = some next) :
    Merged h start (strings ++ [s]) next := by
  obtain ⟨⟨id, after⟩, hintern, heq⟩ := Option.map_eq_some_iff.1 hentry
  subst heq
  obtain ⟨hafter, hinterner, hid⟩ := hm.wellFormed.intern_spec hintern
  have hgrow : hm.wellFormed.interner.Extends hafter.interner := by
    rw [hinterner]
    exact Interner.intern_extends _ s
  refine ⟨hafter, hm.grows.trans hgrow, ?_, ?_⟩
  · rw [List.map_append]
    refine Interner.Located.concat (hm.located.extends hgrow) ?_
    rw [hinterner, hid]
    exact Interner.resolve_intern _ s
  · rw [List.map_append, List.length_append, List.length_singleton, List.range'_concat,
      Nat.one_mul, Bool.and_eq_true, beq_iff_eq, hm.identity]
    constructor
    · rintro ⟨hmapped, hlast⟩
      rw [hmapped, List.map_singleton, hlast]
    · intro hboth
      obtain ⟨hmapped, hlast⟩ := List.append_inj' hboth rfl
      exact ⟨hmapped, List.head_eq_of_cons_eq hlast⟩

theorem merged_of_foldlM {h : table.WellFormed} {start : Nat} {merging : Merging}
    (hfold : (source.iter.drop start).foldlM (fun merging entry =>
      mergeEntry merging (start + merging.mapped.length) entry.2) ⟨table, [], true⟩ =
        some merging) :
    Merged h start (source.allStrings.drop start) merging := by
  have hgoal := option_foldlM_prefix
    (P := fun entries merging => Merged h start (entries.map Prod.snd) merging)
    (fun entries entry rest _ state next hm hentry => by
      rw [hm.length] at hentry
      rw [List.map_append]
      exact hm.entry hentry)
    (Merged.start h start) hfold
  rw [List.map_drop, iter_map_snd] at hgoal
  exact hgoal

/-- Every id of the source goes to an id with the same string. -/
def RemapCorrect (source table : StringTable) (remap : StringIdRemap) : Prop :=
  (∀ id, id.value < source.len →
    ∃ mapped, remap.get id = some mapped ∧ table.tryResolve mapped = source.tryResolve id) ∧
  (remap.isIdentity = true ↔ ∀ id, id.value < source.len → remap.get id = some id)

theorem Merged.remapCorrect {h : table.WellFormed} {start : Nat} {merging : Merging}
    (hm : Merged h start (source.allStrings.drop start) merging)
    (hshared : ∀ id, id.value < start →
      merging.table.tryResolve id = source.tryResolve id) :
    RemapCorrect source merging.table ⟨start, merging.mapped, merging.isIdentity⟩ := by
  have hlength : merging.mapped.length = source.len - start := by
    rw [hm.length, List.length_drop, length_allStrings]
  refine ⟨fun id hid => ?_, ?_⟩
  · by_cases hlt : id.value < start
    · exact ⟨id, if_pos hlt, hshared id hlt⟩
    · have hstring : (source.allStrings.drop start)[id.value - start]? =
          source.tryResolve id := by
        rw [List.getElem?_drop, Nat.add_sub_cancel' (by omega), tryResolve_eq]
      cases hresolved : source.tryResolve id with
      | none =>
          rw [tryResolve_eq, List.getElem?_eq_none_iff, length_allStrings] at hresolved
          omega
      | some s =>
          obtain ⟨i, hi, hat⟩ := hm.located.resolve (hstring.trans hresolved)
          rw [List.getElem?_map] at hi
          obtain ⟨mapped, hmapped, hvalue⟩ := Option.map_eq_some_iff.1 hi
          refine ⟨mapped, (if_neg hlt).trans hmapped, ?_⟩
          rw [hm.wellFormed.tryResolve, hvalue, hat]
  · have hvalues : merging.mapped.map StringId.value =
        List.range' start (source.allStrings.drop start).length ↔
          merging.mapped = (List.range' start (source.len - start)).map StringId.mk := by
      rw [List.length_drop, length_allStrings]
      constructor
      · intro heq
        rw [← heq, List.map_map]
        exact (List.map_id _).symm
      · intro heq
        rw [heq, List.map_map]
        exact List.map_id _
    show merging.isIdentity = true ↔ _
    rw [hm.identity, hvalues]
    constructor
    · intro heq id hid
      by_cases hlt : id.value < start
      · exact if_pos hlt
      · refine (if_neg hlt).trans ?_
        show merging.mapped[id.value - start]? = some id
        rw [heq, List.getElem?_map, List.getElem?_range' (by omega), Option.map_some,
          Nat.one_mul, Nat.add_sub_cancel' (by omega)]
    · intro hall
      refine List.ext_getElem? fun k => ?_
      by_cases hk : k < source.len - start
      · have hget := hall ⟨start + k⟩ (by show start + k < source.len; omega)
        rw [StringIdRemap.get, if_neg (by show ¬start + k < start; omega)] at hget
        rw [List.getElem?_map, List.getElem?_range' hk, Option.map_some, Nat.one_mul]
        rw [← hget]
        show merging.mapped[k]? = merging.mapped[start + k - start]?
        rw [Nat.add_sub_cancel_left]
      · rw [List.getElem?_eq_none (by omega), List.getElem?_eq_none (by simp; omega)]

/-- What an operation leaves of a table: its ids and their strings. -/
def Kept (table next : StringTable) : Prop :=
  table.len ≤ next.len ∧ ∀ id, id.value < table.len → next.tryResolve id = table.tryResolve id

theorem Kept.refl (table : StringTable) : table.Kept table := ⟨Nat.le_refl _, fun _ _ => rfl⟩

theorem kept_of_extends {next : StringTable} (h : table.WellFormed) (h' : next.WellFormed)
    (hgrows : h.interner.Extends h'.interner) : table.Kept next := by
  have hle := hgrows.len_le
  rw [h.len_interner, h'.len_interner] at hle
  refine ⟨hle, fun id hid => ?_⟩
  rw [h.tryResolve, h'.tryResolve]
  exact hgrows.resolve (h.len_interner.symm ▸ hid)

theorem WellFormed.iter_id (h : table.WellFormed) {entries rest : List (StringId × String)}
    {entry : StringId × String} (heq : table.iter = entries ++ entry :: rest) :
    entry.1.value = entries.length := by
  have hget : table.iter[entries.length]? = some entry := by
    rw [heq, List.getElem?_append_right (Nat.le_refl _), Nat.sub_self]
    rfl
  rw [iter_eq, List.getElem?_map, List.getElem?_zipIdx, Option.map_map] at hget
  obtain ⟨s, hs, hentry⟩ := Option.map_eq_some_iff.1 hget
  have hlt := (List.getElem?_eq_some_iff.1 hs).1
  rw [length_allStrings] at hlt
  have hbound := h.bound
  rw [← hentry]
  show (0 + entries.length) % idSpace = entries.length
  rw [Nat.zero_add, Nat.mod_eq_of_lt (by omega)]

theorem mergeFrom_spec (h : table.WellFormed) (hsource : source.WellFormed)
    {remap : StringIdRemap} {next : StringTable}
    (hmerge : table.mergeFrom source = some (remap, next)) :
    next.WellFormed ∧ table.Kept next ∧ RemapCorrect source next remap := by
  obtain ⟨merging, hfold, heq⟩ := Option.map_eq_some_iff.1 hmerge
  cases heq
  have hm := option_foldlM_prefix
    (P := fun entries merging => Merged h 0 (entries.map Prod.snd) merging)
    (fun entries entry rest hrows state next hm hentry => by
      have hid := hsource.iter_id hrows
      rw [hid, ← List.length_map (f := Prod.snd), ← Nat.zero_add (List.length _)] at hentry
      rw [List.map_append]
      exact hm.entry hentry)
    (Merged.start h 0) hfold
  rw [iter_map_snd] at hm
  exact ⟨hm.wellFormed, kept_of_extends h hm.wellFormed hm.grows,
    Merged.remapCorrect (h := h) hm fun id hid => absurd hid (Nat.not_lt_zero _)⟩

theorem mergeDeltaFrom_spec (h : table.WellFormed) {baseLen : Nat} {remap : StringIdRemap}
    {next : StringTable} (hmerge : table.mergeDeltaFrom source baseLen = some (remap, next)) :
    next.WellFormed ∧ table.Kept next ∧
      (table.SharesPrefix source baseLen → RemapCorrect source next remap) := by
  obtain ⟨merging, hfold, heq⟩ := Option.map_eq_some_iff.1 hmerge
  cases heq
  have hm := merged_of_foldlM (h := h) hfold
  have hkept := kept_of_extends h hm.wellFormed hm.grows
  refine ⟨hm.wellFormed, hkept, fun hshares => hm.remapCorrect fun id hid => ?_⟩
  obtain ⟨hle, -, hsame⟩ := hshares
  have hat := hsame id.value hid
  have hbound := h.bound
  rw [StringId.fromIndex, Nat.mod_eq_of_lt (by omega)] at hat
  exact (hkept.2 id (by omega)).trans hat

/-- Interning and resolving are inverse to each other. -/
structure Bijective (table : StringTable) : Prop where
  nextId_eq : table.nextId = table.len
  resolve_intern : ∀ s id next, table.intern s = some (id, next) ∨
    table.getOrIntern s = some (id, next) → next.tryResolve id = some s
  intern_resolve : ∀ s id, table.tryResolve id = some s →
    table.intern s = some (id, table) ∧ table.getOrIntern s = some (id, table)
  resolve_inj : ∀ id id', id.value < table.len → id'.value < table.len →
    (id = id' ↔ table.tryResolve id = table.tryResolve id')
  resolves : ∀ id, id.value < table.len ↔ (table.tryResolve id).isSome = true

theorem WellFormed.bijective (h : table.WellFormed) : table.Bijective where
  nextId_eq := h.nextId_eq
  resolve_intern s id next hintern := by
    rw [getOrIntern_eq, or_self] at hintern
    obtain ⟨h', hinterner, hid⟩ := h.intern_spec hintern
    rw [h'.tryResolve, hinterner, hid]
    exact Interner.resolve_intern _ s
  intern_resolve s id hresolve := by
    rw [h.tryResolve] at hresolve
    have hintern : table.intern s = some (id, table) := by
      rw [intern, h.existing, Interner.find_eq_some.2 hresolve]
      rfl
    exact ⟨hintern, (table.getOrIntern_eq s).trans hintern⟩
  resolve_inj id id' hid _ := by
    rw [h.tryResolve, h.tryResolve, Interner.resolve_inj (h.len_interner.symm ▸ hid)]
    constructor
    · intro heq
      rw [heq]
    · intro heq
      exact congrArg StringId.mk heq
  resolves id := by
    rw [tryResolve_eq, Option.isSome_iff_ne_none, ne_eq, List.getElem?_eq_none_iff,
      length_allStrings, Nat.not_le]

theorem WellFormed.intern_kept (h : table.WellFormed) {s : String} {id : StringId}
    {next : StringTable} (hintern : table.intern s = some (id, next)) :
    next.WellFormed ∧ table.Kept next := by
  obtain ⟨h', hinterner, -⟩ := h.intern_spec hintern
  refine ⟨h', kept_of_extends h h' ?_⟩
  rw [hinterner]
  exact Interner.intern_extends _ s

/-- The ids of one table are the ids of the other. -/
def SameIds (table next : StringTable) : Prop :=
  next.len = table.len ∧ ∀ id, next.tryResolve id = table.tryResolve id

theorem sameIds_of_allStrings {next : StringTable} (heq : next.allStrings = table.allStrings) :
    table.SameIds next := by
  refine ⟨?_, fun id => ?_⟩
  · rw [← length_allStrings, heq, length_allStrings]
  · rw [tryResolve_eq, tryResolve_eq, heq]

theorem SameIds.sharesPrefix {next : StringTable} (h : table.SameIds next) :
    table.SharesPrefix next table.len :=
  ⟨Nat.le_refl _, h.1.symm ▸ Nat.le_refl _, fun _ _ => (h.2 _).symm⟩

theorem SharesPrefix.kept {table' source' : StringTable} {baseLen : Nat}
    (hshares : table.SharesPrefix source baseLen) (htable : table.Kept table')
    (hsource : source.Kept source') : table'.SharesPrefix source' baseLen := by
  obtain ⟨hle, hle', hsame⟩ := hshares
  refine ⟨Nat.le_trans hle htable.1, Nat.le_trans hle' hsource.1, fun index hindex => ?_⟩
  have hat : (StringId.fromIndex index).value ≤ index := Nat.mod_le index idSpace
  rw [htable.2 _ (by omega), hsource.2 _ (by omega)]
  exact hsame index hindex

end StringTable

/-! ## Runs -/

open StringTable

/-- Every table is still there, with its ids and their strings. -/
def AllKept : List StringTable → List StringTable → Prop := EachBecomes Kept

/-- What the answer of an operation promises of the tables after it. -/
def OutcomeCorrect (tables next : List StringTable) : Operation → Outcome → Prop
  | .New, .Created => next[tables.length]? = some .new
  | .Intern i s, .Interned id | .GetOrIntern i s, .Interned id =>
      ∃ table', next[i]? = some table' ∧ table'.tryResolve id = some s
  | .ForkForModule i, .Forked baseLen =>
      ∃ table fork, tables[i]? = some table ∧ next[tables.length]? = some fork ∧
        table.SameIds fork ∧ baseLen = table.len ∧ table.SharesPrefix fork baseLen
  | .ClonePreservingInheritedPrefix i, .Created | .Clone i, .Created =>
      ∃ table copy, tables[i]? = some table ∧ next[tables.length]? = some copy ∧
        table.SameIds copy
  | .MergeFrom i j, .Merged remap =>
      ∃ source table', tables[j]? = some source ∧ next[i]? = some table' ∧
        RemapCorrect source table' remap
  | .MergeDeltaFrom i j baseLen, .Merged remap =>
      ∃ table source table', tables[i]? = some table ∧ tables[j]? = some source ∧
        next[i]? = some table' ∧
        (table.SharesPrefix source baseLen → RemapCorrect source table' remap)
  | _, _ => False

section Steps

variable {tables : List StringTable} (h : ∀ table ∈ tables, table.WellFormed)
include h

theorem intern_kept {i : Nat} {s : String} {table next : StringTable} {id : StringId}
    (htable : tables[i]? = some table) (hintern : table.intern s = some (id, next)) :
    (∀ table ∈ tables.set i next, table.WellFormed) ∧ AllKept tables (tables.set i next) ∧
      ∃ table', (tables.set i next)[i]? = some table' ∧ table'.tryResolve id = some s := by
  have hwf := h table (List.mem_of_getElem? htable)
  obtain ⟨h', hkept⟩ := hwf.intern_kept hintern
  exact ⟨forall_mem_set h h', EachBecomes.set Kept.refl htable hkept, next,
    getElem?_set_of_some htable _, hwf.bijective.resolve_intern s id next (.inl hintern)⟩

theorem step_spec {operation : Operation} {next : List StringTable} {outcome : Outcome}
    (hstep : step tables operation = some (next, outcome)) :
    (∀ table ∈ next, table.WellFormed) ∧ AllKept tables next ∧
      OutcomeCorrect tables next operation outcome := by
  cases operation with
  | New =>
      cases hstep
      exact ⟨forall_mem_append h new_wellFormed, EachBecomes.append Kept.refl _ _,
        List.getElem?_concat_length⟩
  | Intern i s =>
      obtain ⟨table, htable, hrest⟩ := Option.bind_eq_some_iff.1 hstep
      obtain ⟨⟨id, after⟩, hintern, heq⟩ := Option.bind_eq_some_iff.1 hrest
      cases heq
      exact intern_kept h htable hintern
  | GetOrIntern i s =>
      obtain ⟨table, htable, hrest⟩ := Option.bind_eq_some_iff.1 hstep
      obtain ⟨⟨id, after⟩, hintern, heq⟩ := Option.bind_eq_some_iff.1 hrest
      cases heq
      exact intern_kept h htable ((table.getOrIntern_eq s).symm.trans hintern)
  | ForkForModule i =>
      obtain ⟨table, htable, heq⟩ := Option.bind_eq_some_iff.1 hstep
      cases heq
      have hwf := h table (List.mem_of_getElem? htable)
      have hsame := sameIds_of_allStrings table.allStrings_fromSharedBase
      have hlen : table.toBase.len = table.len := table.length_allStrings
      refine ⟨forall_mem_append h hwf.fromSharedBase_toBase, EachBecomes.append Kept.refl _ _,
        table, _, htable, List.getElem?_concat_length, hsame, hlen, ?_⟩
      show table.SharesPrefix _ table.toBase.len
      rw [hlen]
      exact hsame.sharesPrefix
  | ClonePreservingInheritedPrefix i =>
      obtain ⟨table, htable, heq⟩ := Option.bind_eq_some_iff.1 hstep
      cases heq
      have hwf := h table (List.mem_of_getElem? htable)
      exact ⟨forall_mem_append h hwf.clonePreservingInheritedPrefix,
        EachBecomes.append Kept.refl _ _, table, _, htable, List.getElem?_concat_length,
        sameIds_of_allStrings table.allStrings_clonePreservingInheritedPrefix⟩
  | Clone i =>
      obtain ⟨table, htable, heq⟩ := Option.bind_eq_some_iff.1 hstep
      cases heq
      have hwf := h table (List.mem_of_getElem? htable)
      exact ⟨forall_mem_append h hwf.clone, EachBecomes.append Kept.refl _ _, table, _, htable,
        List.getElem?_concat_length, sameIds_of_allStrings table.allStrings_clone⟩
  | MergeFrom i j =>
      obtain ⟨table, htable, hrest⟩ := Option.bind_eq_some_iff.1 hstep
      obtain ⟨source, hsource, hmerged⟩ := Option.bind_eq_some_iff.1 hrest
      obtain ⟨⟨remap, after⟩, hmerge, heq⟩ := Option.bind_eq_some_iff.1 hmerged
      cases heq
      obtain ⟨hafter, hkept, hremap⟩ := mergeFrom_spec (h table (List.mem_of_getElem? htable))
        (h source (List.mem_of_getElem? hsource)) hmerge
      exact ⟨forall_mem_set h hafter, EachBecomes.set Kept.refl htable hkept, source, after,
        hsource, getElem?_set_of_some htable _, hremap⟩
  | MergeDeltaFrom i j baseLen =>
      obtain ⟨table, htable, hrest⟩ := Option.bind_eq_some_iff.1 hstep
      obtain ⟨source, hsource, hmerged⟩ := Option.bind_eq_some_iff.1 hrest
      obtain ⟨⟨remap, after⟩, hmerge, heq⟩ := Option.bind_eq_some_iff.1 hmerged
      cases heq
      obtain ⟨hafter, hkept, hremap⟩ :=
        mergeDeltaFrom_spec (h table (List.mem_of_getElem? htable)) hmerge
      exact ⟨forall_mem_set h hafter, EachBecomes.set Kept.refl htable hkept, table, source,
        after, htable, hsource, getElem?_set_of_some htable _, hremap⟩

theorem run_wellFormed {operations : List Operation} {final : List StringTable}
    (hrun : run tables operations = some final) : ∀ table ∈ final, table.WellFormed := by
  induction operations generalizing tables with
  | nil =>
      cases hrun
      exact h
  | cons operation rest ih =>
      obtain ⟨⟨next, outcome⟩, hstep, hrest⟩ := Option.bind_eq_some_iff.1 hrun
      exact ih (step_spec h hstep).1 hrest

end Steps

/-- Whatever was done before, every table is a bijection between its ids and its strings, the
next operation keeps every id and answers as it should, and prefixes stay shared. -/
theorem string_interning_bijective {operations : List Operation} {tables : List StringTable}
    (hrun : run [] operations = some tables) :
    (∀ table ∈ tables, table.Bijective) ∧
      ∀ operation next outcome, step tables operation = some (next, outcome) →
        AllKept tables next ∧ OutcomeCorrect tables next operation outcome ∧
        ∀ (i j : Nat) (table source : StringTable) (baseLen : Nat),
          tables[i]? = some table → tables[j]? = some source →
          table.SharesPrefix source baseLen →
          ∃ table' source', next[i]? = some table' ∧ next[j]? = some source' ∧
            table'.SharesPrefix source' baseLen := by
  have h : ∀ table ∈ tables, table.WellFormed :=
    run_wellFormed (fun _ hmem => absurd hmem List.not_mem_nil) hrun
  refine ⟨fun table hmem => (h table hmem).bijective, fun operation next outcome hstep => ?_⟩
  obtain ⟨-, hkept, houtcome⟩ := step_spec h hstep
  refine ⟨hkept, houtcome, fun i j table source baseLen htable hsource hshares => ?_⟩
  obtain ⟨table', htable', hkept'⟩ := hkept i table htable
  obtain ⟨source', hsource', hkept''⟩ := hkept j source hsource
  exact ⟨table', source', htable', hsource', hshares.kept hkept' hkept''⟩

/-- A root and its fork each add a string, and the fork's moves when it is merged back. -/
theorem string_interning_bijective_fork : ∃ tables next remap,
    run [] [.New, .Intern 0 "a", .ForkForModule 0, .Intern 0 "b", .Intern 1 "c"] = some tables ∧
    step tables (.MergeDeltaFrom 0 1 1) = some (next, .Merged remap) ∧
    remap = ⟨1, [⟨2⟩], false⟩ ∧ AllKept tables next := by
  have hrun : run [] [.New, .Intern 0 "a", .ForkForModule 0, .Intern 0 "b", .Intern 1 "c"] =
    some _ := rfl
  exact ⟨_, _, _, hrun, rfl, rfl,
    ((string_interning_bijective hrun).2 (.MergeDeltaFrom 0 1 1) _ _ rfl).1⟩

end Moth.Symbols
