import Mathlib.Data.List.Perm.Basic
import Moth.Borrow.RootWordsWrite
import Moth.Lib.Aligned

/-!
# Root sets over a whole run

A run makes sets of one width, clones and drops them, and updates them in any
order, so that any of them may come to share words and stop sharing them. Two
runs are compared: the stored one, over a heap of shared words, and the one on
finite sets. They take the same steps, report the same changes, and after any
run every query answers the same. A step of the stored run that no set can
take, because it names a set that is not there or reads the set it writes, is
one the other run does not take either; so the stored run never panics.
-/

namespace Moth.Borrow.CopyOnWrite

open Moth.Lib

/-- One operation of a program that holds sets by their position. -/
inductive Op where
  | empty
  | full
  | clone (set : Nat)
  | drop (set : Nat)
  | insert (set bitIndex : Nat)
  | unionWith (set other : Nat)
  | intersectWith (set other : Nat)
  | subtractWith (set other : Nat)
  | clear (set : Nat)
deriving DecidableEq

/-- The live sets and their words. -/
structure World where
  heap : WordHeap
  sets : List RootSet

namespace World

def start : World := ⟨⟨fun _ => 0, fun _ => [], 0⟩, []⟩

/-- Replace one set by what an operation on it gives. -/
def update (world : World) (set : Nat) (op : WordHeap → RootSet → Option (WordHeap × RootSet)) :
    Option World := do
  let self ← world.sets[set]?
  let result ← op world.heap self
  return ⟨result.1, world.sets.set set result.2⟩

/-- One operation, with the change it reports. -/
def step (n : Nat) (world : World) : Op → Option (World × List Bool)
  | .empty => some (⟨world.heap, world.sets ++ [.empty n]⟩, [])
  | .full =>
      let made := RootSet.full world.heap n
      some (⟨made.1, world.sets ++ [made.2]⟩, [])
  | .clone set => do
      let self ← world.sets[set]?
      let made := self.clone world.heap
      return (⟨made.1, world.sets ++ [made.2]⟩, [])
  | .drop set => do
      let self ← world.sets[set]?
      return (⟨self.drop world.heap, world.sets.eraseIdx set⟩, [])
  | .insert set bitIndex => do
      let world ← world.update set fun heap self => self.insert heap bitIndex
      return (world, [])
  | .unionWith set other =>
      if set = other then none
      else do
        let self ← world.sets[set]?
        let other ← world.sets[other]?
        let result ← self.unionWith world.heap other
        return (⟨result.1, world.sets.set set result.2.1⟩, [result.2.2])
  | .intersectWith set other =>
      if set = other then none
      else do
        let other ← world.sets[other]?
        let world ← world.update set fun heap self => self.intersectWith heap other
        return (world, [])
  | .subtractWith set other =>
      if set = other then none
      else do
        let other ← world.sets[other]?
        let world ← world.update set fun heap self => self.subtractWith heap other
        return (world, [])
  | .clear set => do
      let world ← world.update set fun heap self => some (self.clear heap)
      return (world, [])

/-- A whole run, with the changes in the order they were reported. -/
def run (n : Nat) (world : World) : List Op → Option (World × List Bool)
  | [] => some (world, [])
  | op :: rest => do
      let first ← world.step n op
      let later ← first.1.run n rest
      return (later.1, first.2 ++ later.2)

end World

def updateAt {n : Nat} (sets : List (Borrow.RootSet n)) (set : Nat)
    (op : Borrow.RootSet n → Borrow.RootSet n) : Option (List (Borrow.RootSet n)) := do
  let s ← sets[set]?
  return sets.set set (op s)

/-- The same operation on finite sets. -/
def setStep {n : Nat} (sets : List (Borrow.RootSet n)) :
    Op → Option (List (Borrow.RootSet n) × List Bool)
  | .empty => some (sets ++ [∅], [])
  | .full => some (sets ++ [Finset.univ], [])
  | .clone set => do
      let s ← sets[set]?
      return (sets ++ [s], [])
  | .drop set => do
      let _ ← sets[set]?
      return (sets.eraseIdx set, [])
  | .insert set bitIndex => do
      let sets ← updateAt sets set fun s => s.insertIndex bitIndex
      return (sets, [])
  | .unionWith set other =>
      if set = other then none
      else do
        let s ← sets[set]?
        let t ← sets[other]?
        return (sets.set set (s.unionWith t).1, [(s.unionWith t).2])
  | .intersectWith set other =>
      if set = other then none
      else do
        let t ← sets[other]?
        let sets ← updateAt sets set fun s => s ∩ t
        return (sets, [])
  | .subtractWith set other =>
      if set = other then none
      else do
        let t ← sets[other]?
        let sets ← updateAt sets set fun s => s \ t
        return (sets, [])
  | .clear set => do
      let sets ← updateAt sets set fun _ => ∅
      return (sets, [])

def setRun {n : Nat} (sets : List (Borrow.RootSet n)) :
    List Op → Option (List (Borrow.RootSet n) × List Bool)
  | [] => some (sets, [])
  | op :: rest => do
      let first ← setStep sets op
      let later ← setRun first.1 rest
      return (later.1, first.2 ++ later.2)

/-! ## The invariant of a run -/

/-- The addresses that the live sets own, one entry a set. -/
def ownersOf (sets : List RootSet) : List Nat := sets.flatMap RootSet.owners

/-- Exact counts, and every stored set stands for its finite set. -/
structure Holds {n : Nat} (world : World) (sets : List (Borrow.RootSet n)) : Prop where
  owned : world.heap.Owned (ownersOf world.sets)
  represents : List.Forall₂ (Represents world.heap) world.sets sets

variable {n : Nat} {world : World} {sets : List (Borrow.RootSet n)} {heap : WordHeap}
  {self other : RootSet} {s t : Borrow.RootSet n} {i j : Nat}

theorem mem_ownersOf {stored : List RootSet} {set : RootSet} (hmem : set ∈ stored) {a : Nat}
    (ha : a ∈ set.owners) : a ∈ ownersOf stored :=
  List.mem_flatMap.2 ⟨set, hmem, ha⟩

theorem ownersOf_perm {stored : List RootSet} (h : stored[i]? = some self) :
    (ownersOf stored).Perm (self.owners ++ ownersOf (stored.eraseIdx i)) := by
  obtain ⟨hlt, hget⟩ := List.getElem?_eq_some_iff.1 h
  have hperm := (List.getElem_cons_eraseIdx_perm hlt).symm.flatMap_right RootSet.owners
  rwa [hget, List.flatMap_cons] at hperm

theorem ownersOf_set_perm {stored : List RootSet} (h : stored[i]? = some self)
    (self' : RootSet) :
    (self'.owners ++ ownersOf (stored.eraseIdx i)).Perm (ownersOf (stored.set i self')) := by
  obtain ⟨hlt, -⟩ := List.getElem?_eq_some_iff.1 h
  have hperm := (List.set_perm_cons_eraseIdx hlt self').symm.flatMap_right RootSet.owners
  rwa [List.flatMap_cons] at hperm

theorem ownersOf_append (stored : List RootSet) (set : RootSet) :
    (set.owners ++ ownersOf stored).Perm (ownersOf (stored ++ [set])) := by
  rw [ownersOf, ownersOf, List.flatMap_append, List.flatMap_singleton]
  exact List.perm_append_comm

theorem Holds.owned_at (h : Holds world sets) (hself : world.sets[i]? = some self) :
    world.heap.Owned (self.owners ++ ownersOf (world.sets.eraseIdx i)) :=
  h.owned.perm (ownersOf_perm hself)

theorem Holds.at (h : Holds world sets) (i : Nat) :
    world.sets[i]? = none ∧ sets[i]? = none ∨
      ∃ self s, world.sets[i]? = some self ∧ sets[i]? = some s ∧
        Represents world.heap self s := by
  have hrel := forall₂_getElem? h.represents i
  revert hrel
  generalize world.sets[i]? = stored
  generalize sets[i]? = finite
  rintro (hset | _)
  · exact .inr ⟨_, _, rfl, rfl, hset⟩
  · exact .inl ⟨rfl, rfl⟩

theorem owners_mem_eraseIdx {stored : List RootSet} (hne : i ≠ j)
    (hother : stored[j]? = some other) {a : Nat} (ha : a ∈ other.owners) :
    a ∈ ownersOf (stored.eraseIdx i) :=
  mem_ownersOf (List.mem_eraseIdx_iff_getElem?.2 ⟨j, Ne.symm hne, hother⟩) ha

theorem Holds.set (h : Holds world sets) (hself : world.sets[i]? = some self)
    (hwritten : Updated world.heap (ownersOf (world.sets.eraseIdx i)) heap other t) :
    Holds ⟨heap, world.sets.set i other⟩ (sets.set i t) where
  owned := hwritten.owned.perm (ownersOf_set_perm hself other)
  represents := by
    refine forall₂_set h.represents (fun set hmem s hset => ?_) hwritten.represents
    exact hset.frame fun a ha => hwritten.frame a (mem_ownersOf hmem ha)

theorem Holds.append (h : Holds world sets)
    (hmade : Updated world.heap (ownersOf world.sets) heap other t) :
    Holds ⟨heap, world.sets ++ [other]⟩ (sets ++ [t]) where
  owned := hmade.owned.perm (ownersOf_append world.sets other)
  represents := by
    refine List.rel_append (forall₂_imp_mem h.represents fun set hmem s hset => ?_)
      (.cons hmade.represents .nil)
    exact hset.frame fun a ha => hmade.frame a (mem_ownersOf hmem ha)

theorem Holds.drop (h : Holds world sets) (hself : world.sets[i]? = some self) :
    Holds ⟨self.drop world.heap, world.sets.eraseIdx i⟩ (sets.eraseIdx i) := by
  obtain ⟨howned, hvalue⟩ := drop_spec (h.owned_at hself)
  refine ⟨howned, forall₂_eraseIdx h.represents fun set _ s hset => ?_⟩
  exact hset.frame fun a _ => congrFun hvalue a

theorem Holds.update (h : Holds world sets) (i : Nat)
    {op : WordHeap → RootSet → Option (WordHeap × RootSet)}
    {finite : Borrow.RootSet n → Borrow.RootSet n}
    (hop : ∀ self s, world.sets[i]? = some self → Represents world.heap self s →
      ∃ heap' self', op world.heap self = some (heap', self') ∧
        Updated world.heap (ownersOf (world.sets.eraseIdx i)) heap' self' (finite s)) :
    Option.Rel Holds (world.update i op) (updateAt sets i finite) := by
  rcases h.at i with ⟨hnone, hnone'⟩ | ⟨self, s, hself, hs, hrep⟩
  · simp only [World.update, updateAt, hnone, hnone']
    exact .none
  · obtain ⟨heap', self', hresult, hupdated⟩ := hop self s hself hrep
    simp only [World.update, updateAt, hself, hs, Option.bind_eq_bind, Option.bind_some, hresult]
    exact .some (h.set hself hupdated)

/-- What two steps have to agree on. -/
def SameOutcome {n : Nat} (stored : World × List Bool)
    (finite : List (Borrow.RootSet n) × List Bool) : Prop :=
  Holds stored.1 finite.1 ∧ stored.2 = finite.2

theorem sameOutcome_update {stored : Option World} {finite : Option (List (Borrow.RootSet n))}
    (h : Option.Rel Holds stored finite) :
    Option.Rel SameOutcome (stored.bind fun world => some (world, []))
      (finite.bind fun sets => some (sets, [])) := by
  cases h with
  | none => exact .none
  | some h => exact .some ⟨h, rfl⟩

/-- One operation does to the stored sets what it does to the finite ones. -/
theorem step_refines (h : Holds world sets) (op : Op) :
    Option.Rel SameOutcome (world.step n op) (setStep sets op) := by
  cases op with
  | empty =>
      exact .some ⟨h.append ⟨h.owned, represents_none, fun _ _ => rfl⟩, rfl⟩
  | full => exact .some ⟨h.append (full_spec h.owned n), rfl⟩
  | clone i =>
      rcases h.at i with ⟨hnone, hnone'⟩ | ⟨self, s, hself, hs, hrep⟩
      · simp only [World.step, setStep, hnone, hnone']
        exact .none
      · simp only [World.step, setStep, hself, hs, Option.bind_eq_bind, Option.bind_some]
        refine .some ⟨h.append (clone_spec h.owned hrep fun a ha => ?_), rfl⟩
        exact mem_ownersOf (List.mem_of_getElem? hself) ha
  | drop i =>
      rcases h.at i with ⟨hnone, hnone'⟩ | ⟨self, s, hself, hs, hrep⟩
      · simp only [World.step, setStep, hnone, hnone']
        exact .none
      · simp only [World.step, setStep, hself, hs, Option.bind_eq_bind, Option.bind_some]
        exact .some ⟨h.drop hself, rfl⟩
  | insert i bitIndex =>
      exact sameOutcome_update (h.update i fun self s hself hrep =>
        insert_spec (h.owned_at hself) hrep bitIndex)
  | unionWith i j =>
      rw [World.step, setStep]
      split
      · exact .none
      · next hne =>
          rcases h.at i with ⟨hnone, hnone'⟩ | ⟨self, s, hself, hs, hrep⟩
          · simp only [hnone, hnone']
            exact .none
          rcases h.at j with ⟨hnone, hnone'⟩ | ⟨other, t, hother, ht, hrep'⟩
          · simp only [hself, hs, hnone, hnone']
            exact .none
          obtain ⟨heap', self', hresult, hupdated⟩ := unionWith_spec (h.owned_at hself) hrep hrep'
            fun a ha => owners_mem_eraseIdx hne hother ha
          simp only [hself, hs, hother, ht, Option.bind_eq_bind, Option.bind_some, hresult]
          exact .some ⟨h.set hself hupdated, rfl⟩
  | intersectWith i j =>
      rw [World.step, setStep]
      split
      · exact .none
      · next hne =>
          rcases h.at j with ⟨hnone, hnone'⟩ | ⟨other, t, hother, ht, hrep'⟩
          · simp only [hnone, hnone']
            exact .none
          simp only [hother, ht, Option.bind_eq_bind, Option.bind_some]
          exact sameOutcome_update (h.update i fun self s hself hrep =>
            intersectWith_spec (h.owned_at hself) hrep hrep'
              fun a ha => owners_mem_eraseIdx hne hother ha)
  | subtractWith i j =>
      rw [World.step, setStep]
      split
      · exact .none
      · next hne =>
          rcases h.at j with ⟨hnone, hnone'⟩ | ⟨other, t, hother, ht, hrep'⟩
          · simp only [hnone, hnone']
            exact .none
          simp only [hother, ht, Option.bind_eq_bind, Option.bind_some]
          exact sameOutcome_update (h.update i fun self s hself hrep =>
            subtractWith_spec (h.owned_at hself) hrep hrep'
              fun a ha => owners_mem_eraseIdx hne hother ha)
  | clear i =>
      exact sameOutcome_update (h.update i fun self s hself hrep =>
        ⟨_, _, rfl, clear_spec (h.owned_at hself) hrep⟩)

theorem run_refines (h : Holds world sets) (ops : List Op) :
    Option.Rel SameOutcome (world.run n ops) (setRun sets ops) := by
  induction ops generalizing world sets with
  | nil => exact .some ⟨h, rfl⟩
  | cons op rest ih =>
      have hstep := step_refines h op
      rw [World.run, setRun]
      revert hstep
      generalize world.step n op = stored
      generalize setStep sets op = finite
      rintro (⟨hfirst, hflags⟩ | _)
      · next stored finite =>
          have hlater := ih hfirst
          revert hlater
          simp only [Option.bind_eq_bind, Option.bind_some]
          generalize stored.1.run n rest = later
          generalize setRun finite.1 rest = later'
          rintro (⟨hholds, hflags'⟩ | _)
          · exact .some ⟨hholds, by rw [hflags, hflags']⟩
          · exact .none
      · exact .none

/-- Every query of one stored set answers as its finite set does. -/
structure SameAnswers {n : Nat} (heap : WordHeap) (set : RootSet) (s : Borrow.RootSet n) :
    Prop where
  contains : ∀ bitIndex, set.contains heap bitIndex = s.contains bitIndex
  iterOnes : set.iterOnes heap = s.iterOnes.map Fin.val
  ascending : (set.iterOnes heap).Pairwise (· < ·)
  isEmpty : set.isEmpty = decide (s = ∅)
  coversAll : ∀ localCount,
    set.coversAll heap localCount = (decide (localCount = n) && s.coversAll)
  noWords : set.words = none ↔ s = ∅
  noStrayBit : ∀ k, n ≤ k → wordBit (set.wordSlice heap) k = false

theorem Represents.sameAnswers (h : Represents heap self s) : SameAnswers heap self s where
  contains := h.contains_eq
  iterOnes := h.iterOnes_eq
  ascending := by
    rw [h.iterOnes_eq]
    exact Borrow.RootSet.iterOnes_ascending s
  isEmpty := h.isEmpty_eq
  coversAll := h.coversAll_eq
  noWords := h.words_eq_none_iff
  noStrayBit := fun k hk => (h.bits k).trans (Borrow.RootSet.contains_of_le hk)

/-- Two runs that end alike: the same changes reported, and every query answered alike. -/
structure SameRun {n : Nat} (stored : World × List Bool)
    (finite : List (Borrow.RootSet n) × List Bool) : Prop where
  reported : stored.2 = finite.2
  each : List.Forall₂ (SameAnswers stored.1.heap) stored.1.sets finite.1
  pairs : ∀ (i j : Nat) (self other : RootSet) (s t : Borrow.RootSet n),
    stored.1.sets[i]? = some self → finite.1[i]? = some s →
    stored.1.sets[j]? = some other → finite.1[j]? = some t →
    self.intersects stored.1.heap other = decide (s ∩ t ≠ ∅) ∧
      self.eq stored.1.heap other = decide (s = t)

theorem SameOutcome.sameRun {stored : World × List Bool}
    {finite : List (Borrow.RootSet n) × List Bool} (h : SameOutcome stored finite) :
    SameRun stored finite where
  reported := h.2
  each := h.1.represents.imp fun _ _ hset => hset.sameAnswers
  pairs := by
    intro i j self other s t hself hs hother ht
    have hat : ∀ {i : Nat} {self : RootSet} {s : Borrow.RootSet n}, stored.1.sets[i]? = some self → finite.1[i]? = some s →
        Represents stored.1.heap self s := by
      intro i self s hself hs
      have hrel := forall₂_getElem? h.1.represents i
      rw [hself, hs] at hrel
      cases hrel with
      | some hset => exact hset
    exact ⟨(hat hself hs).intersects_eq (hat hother ht), (hat hself hs).eq_eq (hat hother ht)⟩

/-- Any run on sets of one width is the run on finite sets, and never panics. -/
theorem rootSet_run_refines (n : Nat) (ops : List Op) :
    Option.Rel SameRun (World.start.run n ops) (setRun ([] : List (Borrow.RootSet n)) ops) := by
  have hstart : Holds World.start ([] : List (Borrow.RootSet n)) := by
    refine ⟨⟨fun _ => rfl, fun _ hmem => ?_⟩, .nil⟩
    exact absurd hmem List.not_mem_nil
  have hrun := run_refines hstart ops
  revert hrun
  generalize World.start.run n ops = stored
  generalize setRun [] ops = finite
  rintro (houtcome | _)
  · exact .some houtcome.sameRun
  · exact .none

/-- A clone shares its words until one side is written, at a width past one word. -/
example :
    (World.start.run 65 [.empty, .insert 0 64, .clone 0, .insert 1 3, .unionWith 0 1,
      .unionWith 0 1]).map Prod.snd = some [true, false] := by decide

end Moth.Borrow.CopyOnWrite
