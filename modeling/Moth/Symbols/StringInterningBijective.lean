import Moth.Lib.Interner
import Moth.Lib.Table
import Moth.Symbols.StringInterning

/-!
# Interning is a bijection

A table stands for the interner of all its strings, the inherited ones first.
It is well formed when the strings are distinct, the next id is their number
and each reverse map finds exactly its own part; then lookup, interning and
merging are those of the interner, whichever side of the prefix a string is
on. A fork, a clone and a flattening clone stand for the same interner as
their source, so its ids stay valid in them.
-/

namespace Moth.Symbols

open Moth.Lib

/-- The reverse map of distinct strings finds the position of each. -/
theorem reverseLookup_eq {start : Nat} {strings : List String} (hnodup : strings.Nodup)
    (hbound : start + strings.length < idSpace) (s : String) :
    reverseLookup start strings s = (strings.idxOf? s).map fun i => ⟨start + i⟩ := by
  have hkeys : ((strings.zipIdx start).map fun row =>
      (row.1, StringId.fromIndex row.2)).map Prod.fst = strings := by
    rw [List.map_map]
    exact List.zipIdx_map_fst start strings
  cases hindex : strings.idxOf? s with
  | none =>
      rw [reverseLookup, foldl_update_of_notMem]
      · rfl
      · rw [hkeys]
        exact List.idxOf?_eq_none_iff.1 hindex
  | some i =>
      obtain ⟨hlt, hget, -⟩ := List.idxOf?_eq_some_iff.1 hindex
      have hrow : (s, StringId.fromIndex (start + i)) ∈ (strings.zipIdx start).map fun row =>
          (row.1, StringId.fromIndex row.2) := by
        refine List.mem_map.2 ⟨(s, start + i), ?_, rfl⟩
        rw [List.mk_mem_zipIdx_iff_le_and_getElem?_sub]
        refine ⟨by omega, ?_⟩
        rw [Nat.add_sub_cancel_left, ← hget]
        exact List.getElem?_eq_getElem hlt
      rw [reverseLookup]
      refine (foldl_update_of_mem (by rw [hkeys]; exact hnodup) hrow).trans ?_
      rw [StringId.fromIndex, Nat.mod_eq_of_lt (by omega)]
      rfl

namespace StringTable

/-- What every operation keeps of a table. -/
structure WellFormed (table : StringTable) : Prop where
  nodup : table.allStrings.Nodup
  nextId_eq : table.nextId = table.len
  bound : table.len < idSpace
  base_lookup : ∀ base, table.base = some base → ∀ s,
    base.stringToId s = (base.strings.idxOf? s).map StringId.mk
  local_lookup : ∀ s, table.stringToId s =
    (table.strings.idxOf? s).map fun i => ⟨table.baseLen + i⟩

variable {table : StringTable}

theorem length_allStrings (table : StringTable) : table.allStrings.length = table.len := by
  rw [allStrings, List.length_append, len, baseLen]
  cases table.base <;> rfl

theorem tryResolve_eq (table : StringTable) (id : StringId) :
    table.tryResolve id = table.allStrings[id.value]? := by
  rw [tryResolve, allStrings, baseLen]
  cases table.base with
  | none => simp
  | some base =>
      rw [Option.elim_some, Option.elim_some, Option.bind_some, StringTableBase.len,
        StringTableBase.tryResolve]
      by_cases hlt : id.value < base.strings.length
      · rw [if_pos hlt, List.getElem?_append_left hlt]
      · rw [if_neg hlt, List.getElem?_append_right (by omega)]

namespace WellFormed

variable (h : table.WellFormed)
include h

/-- The interner a table stands for. -/
def interner : Interner String := ⟨table.allStrings, h.nodup⟩

theorem tryResolve (id : StringId) : table.tryResolve id = h.interner.resolve id.value :=
  table.tryResolve_eq id

theorem existing (s : String) : table.existing s = (h.interner.find s).map StringId.mk := by
  have hlocal := h.local_lookup s
  have hfind : h.interner.find s = table.allStrings.idxOf? s := rfl
  rw [hfind, allStrings, StringTable.existing, hlocal, baseLen]
  cases hbase : table.base with
  | none => simp only [Option.bind_none, Option.elim_none, List.nil_append, Nat.zero_add]
  | some base =>
      rw [Option.bind_some, h.base_lookup base hbase s, Option.elim_some, Option.elim_some,
        Interner.idxOf?_append]
      cases base.strings.idxOf? s with
      | some i => rfl
      | none =>
          cases table.strings.idxOf? s with
          | none => rfl
          | some i => rfl

/-- Interning is the interner's, and keeps the inherited prefix. -/
theorem intern_spec {s : String} {id : StringId} {next : StringTable}
    (hintern : table.intern s = some (id, next)) :
    ∃ h' : next.WellFormed, h'.interner = (h.interner.intern s).2 ∧
      id.value = (h.interner.intern s).1 := by
  rw [intern, h.existing] at hintern
  cases hfind : h.interner.find s with
  | some i =>
      rw [hfind] at hintern
      cases hintern
      rw [Interner.intern_of_find hfind]
      exact ⟨h, rfl, rfl⟩
  | none =>
      have habsent : s ∉ table.allStrings := Interner.find_eq_none.1 hfind
      have hstrings : s ∉ table.strings := fun hin =>
        habsent (List.mem_append_right _ hin)
      rw [hfind] at hintern
      simp only [Option.map_none, internNew, allocateId] at hintern
      split at hintern
      · next hroom =>
          cases hintern
          have hlen := h.nextId_eq
          have hall : ∀ lookup, StringTable.allStrings
              ⟨table.base, table.strings ++ [s], lookup, table.nextId + 1⟩ =
                table.allStrings ++ [s] := fun lookup => (List.append_assoc _ _ _).symm
          have hcount : ∀ lookup, StringTable.len
              ⟨table.base, table.strings ++ [s], lookup, table.nextId + 1⟩ = table.len + 1 :=
            fun lookup => by rw [← length_allStrings, hall, List.length_append,
              length_allStrings, List.length_singleton]
          rw [Interner.intern_of_notMem habsent]
          refine ⟨⟨?_, ?_, ?_, h.base_lookup, ?_⟩, ?_, ?_⟩
          · rw [hall]
            exact (h.interner.push s habsent).nodup
          · rw [hcount, ← hlen]
          · rw [hcount, ← hlen]
            exact hroom
          · intro s'
            show Function.update table.stringToId s (some ⟨table.nextId⟩) s' =
              ((table.strings ++ [s]).idxOf? s').map fun i => (⟨table.baseLen + i⟩ : StringId)
            rw [Interner.idxOf?_append]
            by_cases hs : s' = s
            · subst hs
              rw [Function.update_self, List.idxOf?_eq_none_iff.2 hstrings, hlen, len]
              simp
            · rw [Function.update_of_ne hs, h.local_lookup s']
              cases table.strings.idxOf? s' with
              | some i => rfl
              | none => simp [Ne.symm hs]
          · simp only [interner, hall]
            rfl
          · exact hlen.trans table.length_allStrings.symm
      · cases hintern

theorem len_interner : h.interner.len = table.len := table.length_allStrings

end WellFormed

theorem getOrIntern_eq (table : StringTable) (s : String) :
    table.getOrIntern s = table.intern s := by
  rw [getOrIntern, intern, existing]
  cases table.base.bind fun base => base.stringToId s with
  | some id => rfl
  | none => cases table.stringToId s <;> rfl

theorem new_wellFormed : new.WellFormed where
  nodup := List.nodup_nil
  nextId_eq := rfl
  bound := (by decide : 0 < idSpace)
  base_lookup base hbase := by cases hbase
  local_lookup s := rfl

/-! ## Forks and clones -/

theorem iter_eq (table : StringTable) : table.iter =
    table.allStrings.zipIdx.map fun row => (StringId.fromIndex row.2, row.1) := by
  rw [iter, allStrings, List.zipIdx_append, List.map_append]
  cases hbase : table.base with
  | none =>
      rw [baseLen, hbase]
      simp
  | some base =>
      rw [baseLen, hbase, Option.elim_some, Option.elim_some, Option.elim_some, Nat.zero_add]
      congr 1
      rw [List.zipIdx_eq_map_add (i := base.strings.length), List.map_map]
      refine List.map_congr_left fun row _ => ?_
      show (StringId.fromIndex (base.strings.length + row.2), row.1) =
        (StringId.fromIndex (base.strings.length + row.2), row.1)
      rfl

theorem iter_map_snd (table : StringTable) : table.iter.map Prod.snd = table.allStrings := by
  rw [iter_eq, List.map_map]
  exact List.zipIdx_map_fst 0 table.allStrings

namespace WellFormed

variable (h : table.WellFormed)
include h

theorem lookup_allStrings (s : String) : reverseLookup 0 table.allStrings s =
    (table.allStrings.idxOf? s).map StringId.mk := by
  rw [reverseLookup_eq h.nodup (by rw [length_allStrings, Nat.zero_add]; exact h.bound)]
  simp only [Nat.zero_add]

theorem fromSharedBase_toBase : (fromSharedBase table.toBase).WellFormed where
  nodup := by
    show (table.allStrings ++ []).Nodup
    rw [List.append_nil]
    exact h.nodup
  nextId_eq := by
    show table.allStrings.length % idSpace = table.allStrings.length + 0
    rw [length_allStrings, Nat.mod_eq_of_lt h.bound, Nat.add_zero]
  bound := by
    show table.allStrings.length + 0 < idSpace
    rw [length_allStrings, Nat.add_zero]
    exact h.bound
  base_lookup base hbase s := by
    cases hbase
    exact h.lookup_allStrings s
  local_lookup s := rfl

theorem clone : table.clone.WellFormed where
  nodup := by
    show (table.iter.map Prod.snd).Nodup
    rw [iter_map_snd]
    exact h.nodup
  nextId_eq := by
    show table.len % idSpace = 0 + (table.iter.map Prod.snd).length
    rw [iter_map_snd, length_allStrings, Nat.mod_eq_of_lt h.bound, Nat.zero_add]
  bound := by
    show 0 + (table.iter.map Prod.snd).length < idSpace
    rw [iter_map_snd, length_allStrings, Nat.zero_add]
    exact h.bound
  base_lookup base hbase := by cases hbase
  local_lookup s := by
    show reverseLookup 0 (table.iter.map Prod.snd) s =
      ((table.iter.map Prod.snd).idxOf? s).map fun i => ⟨0 + i⟩
    rw [iter_map_snd, h.lookup_allStrings s]
    simp only [Nat.zero_add]

theorem clonePreservingInheritedPrefix : table.clonePreservingInheritedPrefix.WellFormed := by
  rw [StringTable.clonePreservingInheritedPrefix]
  split
  · exact h.fromSharedBase_toBase
  · next base hbase =>
      have hall : StringTable.allStrings ⟨some base, table.strings,
          reverseLookup table.baseLen table.strings, table.nextId⟩ = table.allStrings := by
        rw [allStrings, allStrings, hbase]
      have hlen : StringTable.len ⟨some base, table.strings,
          reverseLookup table.baseLen table.strings, table.nextId⟩ = table.len := by
        rw [← length_allStrings, hall, length_allStrings]
      refine ⟨hall.symm ▸ h.nodup, hlen.symm ▸ h.nextId_eq, hlen.symm ▸ h.bound, ?_, ?_⟩
      · intro base' hbase'
        cases hbase'
        exact h.base_lookup base hbase
      · intro s
        have hbaseLen : table.baseLen = base.len := by rw [baseLen, hbase, Option.elim_some]
        show reverseLookup table.baseLen table.strings s =
          (table.strings.idxOf? s).map fun i => ⟨base.len + i⟩
        rw [reverseLookup_eq (List.Nodup.of_append_right h.nodup) h.bound, hbaseLen]

end WellFormed

theorem allStrings_fromSharedBase (table : StringTable) :
    (fromSharedBase table.toBase).allStrings = table.allStrings :=
  List.append_nil table.allStrings

theorem allStrings_clone (table : StringTable) : table.clone.allStrings = table.allStrings :=
  table.iter_map_snd

theorem allStrings_clonePreservingInheritedPrefix (table : StringTable) :
    table.clonePreservingInheritedPrefix.allStrings = table.allStrings := by
  rw [clonePreservingInheritedPrefix]
  split
  · exact table.allStrings_fromSharedBase
  · next base hbase => rw [allStrings, allStrings, hbase]

end StringTable

end Moth.Symbols
