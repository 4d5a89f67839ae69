import Mathlib.Logic.Function.Basic

/-!
# Bindings at run time

The helpers of `js/runtime/bindings.rs` and `places.rs` that a generated
function reads its locals with. A local is a JavaScript variable that holds a
reference to a record: a slot with a value, an alias of another reference, or a
place computed from a base reference and a key.

Records are allocated and never freed, and an alias can be made to point
elsewhere, so nothing rules out a chain that never ends. Reading therefore runs
on fuel, and a local holds a value when some amount of it is enough. What a
property of an object is belongs to the objects, which nothing here changes; it
is a parameter.
-/

namespace Moth.Js

variable {Val Key : Type}

/-- A reference record; a reference is its address. -/
inductive BindingRecord (Val Key : Type) where
  | slot (value : Val)
  | alias (target : Nat)
  | computed (base : Nat) (key : Key)

/-- The reference a record goes on to. -/
def BindingRecord.next : BindingRecord Val Key → Option Nat
  | .slot _ => none
  | .alias target => some target
  | .computed base _ => some base

structure BindingHeap (Val Key : Type) where
  records : List (BindingRecord Val Key)
  closed : ∀ record ∈ records, ∀ target, record.next = some target → target < records.length

namespace BindingHeap

theorem alloc_closed (heap : BindingHeap Val Key) (value : Val) (record : BindingRecord Val Key)
    (h : record ∈ heap.records ++ [BindingRecord.slot value]) (target : Nat)
    (hnext : record.next = some target) :
    target < (heap.records ++ [BindingRecord.slot value]).length := by
  rw [List.length_append, List.length_singleton]
  rcases List.mem_append.1 h with hold | hnew
  · exact Nat.lt_succ_of_lt (heap.closed record hold target hnext)
  · rw [List.mem_singleton.1 hnew] at hnext
    cases hnext

/-- `__moth_binding`: a slot of its own, at the next address. -/
def binding (heap : BindingHeap Val Key) (value : Val) : BindingHeap Val Key where
  records := heap.records ++ [.slot value]
  closed := heap.alloc_closed value

/-- `__moth_resolve`: along the aliases. -/
def resolve (heap : BindingHeap Val Key) : Nat → Nat → Option Nat
  | 0, _ => none
  | fuel + 1, ref =>
      match heap.records[ref]? with
      | some (.alias target) => heap.resolve fuel target
      | some (.slot _) => some ref
      | some (.computed _ _) => some ref
      | none => none

/-- `__moth_read`, with the `__moth_get` of a computed place. -/
def read (property : Val → Key → Option Val) (heap : BindingHeap Val Key) :
    Nat → Nat → Option Val
  | 0, _ => none
  | fuel + 1, ref =>
      match heap.resolve (fuel + 1) ref with
      | none => none
      | some resolved =>
          match heap.records[resolved]? with
          | some (.slot value) => some value
          | some (.computed base key) =>
              match heap.read property fuel base with
              | some object => property object key
              | none => none
          | some (.alias _) => none
          | none => none

theorem resolve_mono {heap : BindingHeap Val Key} {fuel more ref resolved : Nat}
    (h : heap.resolve fuel ref = some resolved) (hle : fuel ≤ more) :
    heap.resolve more ref = some resolved := by
  induction fuel generalizing more ref with
  | zero => cases h
  | succ fuel ih =>
      obtain ⟨more, rfl⟩ : ∃ m, more = m + 1 := ⟨more - 1, by omega⟩
      rw [resolve] at h ⊢
      split at h
      · exact ih h (by omega)
      · exact h
      · exact h
      · cases h

theorem read_mono {property : Val → Key → Option Val} {heap : BindingHeap Val Key}
    {fuel more ref : Nat} {value : Val} (h : heap.read property fuel ref = some value)
    (hle : fuel ≤ more) : heap.read property more ref = some value := by
  induction fuel generalizing more ref value with
  | zero => cases h
  | succ fuel ih =>
      obtain ⟨more, rfl⟩ : ∃ m, more = m + 1 := ⟨more - 1, by omega⟩
      rw [read] at h ⊢
      cases hresolve : heap.resolve (fuel + 1) ref with
      | none =>
          rw [hresolve] at h
          cases h
      | some resolved =>
          rw [resolve_mono hresolve hle]
          rw [hresolve] at h
          simp only [] at h ⊢
          split at h
          · exact h
          · rename_i base key hrecord
            cases hbase : heap.read property fuel base with
            | none =>
                rw [hbase] at h
                cases h
            | some object =>
                rw [hbase] at h
                rw [ih hbase (by omega)]
                exact h
          · cases h
          · cases h

/-- The records of one heap, in place, in another. -/
def Extends (heap later : BindingHeap Val Key) : Prop := heap.records <+: later.records

theorem Extends.refl (heap : BindingHeap Val Key) : heap.Extends heap := List.prefix_refl _

theorem Extends.trans {heap later last : BindingHeap Val Key} (h : heap.Extends later)
    (h' : later.Extends last) : heap.Extends last := List.IsPrefix.trans h h'

theorem extends_binding (heap : BindingHeap Val Key) (value : Val) :
    heap.Extends (heap.binding value) := List.prefix_append _ _

theorem Extends.getElem? {heap later : BindingHeap Val Key} (h : heap.Extends later) {ref : Nat}
    (hlt : ref < heap.records.length) : later.records[ref]? = heap.records[ref]? := by
  obtain ⟨rest, hrest⟩ := h
  rw [← hrest, List.getElem?_append_left hlt]

theorem next_lt {heap : BindingHeap Val Key} {ref target : Nat} {record : BindingRecord Val Key}
    (hrecord : heap.records[ref]? = some record) (hnext : record.next = some target) :
    target < heap.records.length :=
  heap.closed record (List.mem_of_getElem? hrecord) target hnext

theorem resolve_lt {heap : BindingHeap Val Key} {fuel ref resolved : Nat}
    (h : heap.resolve fuel ref = some resolved) : resolved < heap.records.length := by
  induction fuel generalizing ref with
  | zero => cases h
  | succ fuel ih =>
      rw [resolve] at h
      split at h
      · exact ih h
      · rename_i hrecord
        cases h
        exact (List.getElem?_eq_some_iff.1 hrecord).1
      · rename_i hrecord
        cases h
        exact (List.getElem?_eq_some_iff.1 hrecord).1
      · cases h

theorem Extends.resolve {heap later : BindingHeap Val Key} (h : heap.Extends later)
    {fuel ref : Nat} (hlt : ref < heap.records.length) :
    later.resolve fuel ref = heap.resolve fuel ref := by
  induction fuel generalizing ref with
  | zero => rfl
  | succ fuel ih =>
      rw [BindingHeap.resolve, BindingHeap.resolve, h.getElem? hlt]
      split
      · rename_i target hrecord
        exact ih (next_lt hrecord rfl)
      · rfl
      · rfl
      · rfl

theorem Extends.read {property : Val → Key → Option Val} {heap later : BindingHeap Val Key}
    (h : heap.Extends later) {fuel ref : Nat} (hlt : ref < heap.records.length) :
    later.read property fuel ref = heap.read property fuel ref := by
  induction fuel generalizing ref with
  | zero => rfl
  | succ fuel ih =>
      rw [BindingHeap.read, BindingHeap.read, h.resolve hlt]
      cases hresolve : heap.resolve (fuel + 1) ref with
      | none => rfl
      | some resolved =>
          simp only []
          rw [h.getElem? (resolve_lt hresolve)]
          split
          · rfl
          · rename_i base key hrecord
            rw [ih (next_lt hrecord rfl)]
          · rfl
          · rfl

theorem read_slot {property : Val → Key → Option Val} {heap : BindingHeap Val Key} {ref : Nat}
    {value : Val} (h : heap.records[ref]? = some (.slot value)) (fuel : Nat) :
    heap.read property (fuel + 1) ref = some value := by
  simp [read, resolve, h]

end BindingHeap

end Moth.Js
