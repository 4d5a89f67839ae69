import Moth.Borrow.State
import Moth.Lib.BitWords
import Moth.Lib.SharedHeap
import Mathlib.Data.Prod.Lex

/-!
# Root sets on copy-on-write words

`RootSet` of `state.rs` as it is stored: no words for the empty set, else an
`Rc` of words that clones share until one of them writes. An `Rc` is an address
of a heap that counts owners, and an operation takes the heap and gives it back;
`none` is a panic, of an index out of bounds or of the `expect` in `words_mut`.

An operation asks three questions before it writes: whether it has words at
all, whether another set shares them, and, when one does, whether anything
would change. Each answer has a path of its own.
-/

namespace Moth.Borrow.CopyOnWrite

open Moth.Lib

/-- The word buffers of the live sets. -/
abbrev WordHeap := SharedHeap (List (BitVec 64))

/-- One set: the address of its words, or none, and its width. -/
structure RootSet where
  words : Option Nat
  bitLen : Nat
deriving DecidableEq

/-! ## The loops over words -/

/-- Union into the left words, with whether one changed. -/
def unionWords : List (BitVec 64) → List (BitVec 64) → List (BitVec 64) × Bool
  | left :: lefts, right :: rights =>
      let next := left ||| right
      let rest := unionWords lefts rights
      (next :: rest.1, (next != left) || rest.2)
  | lefts, _ => (lefts, false)

/-- Mask the left words, with the bits that survive in any of them. -/
def maskWords (mask : BitVec 64 → BitVec 64 → BitVec 64) :
    List (BitVec 64) → List (BitVec 64) → List (BitVec 64) × BitVec 64
  | left :: lefts, right :: rights =>
      let next := mask left right
      let rest := maskWords mask lefts rights
      (next :: rest.1, next ||| rest.2)
  | lefts, _ => (lefts, 0#64)

/-- Whether some pair of words has a bit in common under an operation. -/
def anyBits (op : BitVec 64 → BitVec 64 → BitVec 64) (lefts rights : List (BitVec 64)) : Bool :=
  (lefts.zip rights).any fun pair => op pair.1 pair.2 != 0#64

namespace RootSet

def empty (bitLen : Nat) : RootSet := ⟨none, bitLen⟩

def full (heap : WordHeap) (bitLen : Nat) : WordHeap × RootSet :=
  if wordLen bitLen ≠ 0 then (heap.alloc (fullWords bitLen), ⟨some heap.next, bitLen⟩)
  else (heap, ⟨none, bitLen⟩)

/-- A clone owns the same words. -/
def clone (heap : WordHeap) (self : RootSet) : WordHeap × RootSet :=
  match self.words with
  | none => (heap, self)
  | some words => (heap.share words, self)

/-- Give up the words; `self.words = None` and the end of a set's life do. -/
def drop (heap : WordHeap) (self : RootSet) : WordHeap :=
  match self.words with
  | none => heap
  | some words => heap.release words

/-! ## Reading -/

def wordSlice (heap : WordHeap) (self : RootSet) : List (BitVec 64) :=
  match self.words with
  | none => []
  | some words => heap.value words

def wordsAreShared (heap : WordHeap) (self : RootSet) : Bool :=
  match self.words with
  | none => false
  | some words => heap.strong words != 1

def contains (heap : WordHeap) (self : RootSet) (bitIndex : Nat) : Bool :=
  if bitIndex ≥ self.bitLen then false
  else
    match (self.wordSlice heap)[bitIndex / 64]? with
    | none => false
    | some word => (word &&& 1#64 <<< (bitIndex % 64)) != 0#64

def isEmpty (self : RootSet) : Bool := self.words.isNone

def coversAll (heap : WordHeap) (self : RootSet) (localCount : Nat) : Bool :=
  if self.bitLen ≠ localCount then false
  else
    let words := self.wordSlice heap
    if words.length ≠ wordLen localCount then false
    else
      match words.getLast? with
      | none => wordLen localCount == 0
      | some tail =>
          tail == tailBits localCount && words.dropLast.all fun word => word == BitVec.allOnes 64

def intersects (heap : WordHeap) (self other : RootSet) : Bool :=
  anyBits (fun left right => left &&& right) (self.wordSlice heap) (other.wordSlice heap)

/-- The derived equality: the words, not where they are. -/
def eq (heap : WordHeap) (self other : RootSet) : Bool :=
  (self.words.map heap.value == other.words.map heap.value) && self.bitLen == other.bitLen

/-! ## Writing -/

/-- Words with one owner, allocated for an empty set and copied when shared. -/
def wordsMut (heap : WordHeap) (self : RootSet) : Option (WordHeap × Nat) :=
  let inserted : WordHeap × Nat :=
    match self.words with
    | some words => (heap, words)
    | none => (heap.alloc (List.replicate (wordLen self.bitLen) 0#64), heap.next)
  let unshared : WordHeap × Nat :=
    if inserted.1.strong inserted.2 ≠ 1 then
      ((inserted.1.alloc (inserted.1.value inserted.2)).release inserted.2, inserted.1.next)
    else inserted
  if unshared.1.strong unshared.2 = 1 then some unshared else none

def insert (heap : WordHeap) (self : RootSet) (bitIndex : Nat) : Option (WordHeap × RootSet) :=
  if bitIndex ≥ self.bitLen then some (heap, self)
  else if self.wordsAreShared heap && self.contains heap bitIndex then some (heap, self)
  else
    match self.wordsMut heap with
    | none => none
    | some (heap, words) =>
        match (heap.value words)[bitIndex / 64]? with
        | none => none
        | some word =>
            let next := (heap.value words).set (bitIndex / 64) (word ||| 1#64 <<< (bitIndex % 64))
            some (heap.write words next, { self with words := some words })

/-- Union in place, with whether any bit was added. -/
def unionWith (heap : WordHeap) (self other : RootSet) : Option (WordHeap × RootSet × Bool) :=
  match other.words with
  | none => some (heap, self, false)
  | some otherWords =>
      match self.words with
      | none => some (heap.share otherWords, { self with words := some otherWords }, true)
      | some _ =>
          if self.wordsAreShared heap &&
              !anyBits (fun left right => right &&& ~~~left) (self.wordSlice heap)
                (heap.value otherWords) then
            some (heap, self, false)
          else
            match self.wordsMut heap with
            | none => none
            | some (heap, words) =>
                let union := unionWords (heap.value words) (heap.value otherWords)
                some (heap.write words union.1, { self with words := some words }, union.2)

/-- The masking loop, which drops the words when no bit survives. -/
def maskWith (heap : WordHeap) (self : RootSet) (mask : BitVec 64 → BitVec 64 → BitVec 64)
    (otherWords : Nat) : Option (WordHeap × RootSet) :=
  match self.wordsMut heap with
  | none => none
  | some (heap, words) =>
      let masked := maskWords mask (heap.value words) (heap.value otherWords)
      let heap := heap.write words masked.1
      if masked.2 = 0#64 then some (heap.release words, { self with words := none })
      else some (heap, { self with words := some words })

def intersectWith (heap : WordHeap) (self other : RootSet) : Option (WordHeap × RootSet) :=
  match self.words with
  | none => some (heap, self)
  | some _ =>
      match other.words with
      | none => some (self.drop heap, { self with words := none })
      | some otherWords =>
          if self.wordsAreShared heap &&
              !anyBits (fun left right => left &&& ~~~right) (self.wordSlice heap)
                (heap.value otherWords) then
            some (heap, self)
          else self.maskWith heap (fun left right => left &&& right) otherWords

def subtractWith (heap : WordHeap) (self other : RootSet) : Option (WordHeap × RootSet) :=
  match other.words with
  | none => some (heap, self)
  | some otherWords =>
      match self.words with
      | none => some (heap, self)
      | some _ =>
          if self.wordsAreShared heap &&
              !anyBits (fun left right => left &&& right) (self.wordSlice heap)
                (heap.value otherWords) then
            some (heap, self)
          else self.maskWith heap (fun left right => left &&& ~~~right) otherWords

def clear (heap : WordHeap) (self : RootSet) : WordHeap × RootSet :=
  (self.drop heap, { self with words := none })

end RootSet

/-! ## Iteration -/

/-- `RootSetIter`: the word at hand, with the bits already given cleared from it. -/
structure RootSetIter where
  words : List (BitVec 64)
  bitLen : Nat
  wordIndex : Nat
  currentWord : BitVec 64

namespace RootSetIter

/-- The index of the lowest bit of the word at hand. -/
def bitIndex (self : RootSetIter) : Nat := self.wordIndex * 64 + self.currentWord.ctz.toNat

def cleared (self : RootSetIter) : RootSetIter :=
  { self with currentWord := self.currentWord &&& (self.currentWord - 1#64) }

def advanced (self : RootSetIter) : RootSetIter :=
  { self with
    wordIndex := self.wordIndex + 1
    currentWord := self.words.getD (self.wordIndex + 1) self.currentWord }

/-- What is left to do. -/
def measure (self : RootSetIter) : Nat ×ₗ Nat :=
  toLex (self.words.length - self.wordIndex, self.currentWord.toNat)

theorem cleared_measure {self : RootSetIter} (hword : self.currentWord ≠ 0#64) :
    self.cleared.measure < self.measure :=
  Prod.Lex.right _ (clear_lowest_lt hword)

theorem advanced_measure {self : RootSetIter} (hmore : ¬ self.wordIndex ≥ self.words.length) :
    self.advanced.measure < self.measure := by
  refine Prod.Lex.left _ _ ?_
  show self.words.length - (self.wordIndex + 1) < self.words.length - self.wordIndex
  omega

/-- The next index in ascending order. -/
def next (self : RootSetIter) : Option (Nat × RootSetIter) :=
  if self.wordIndex ≥ self.words.length then none
  else if self.currentWord ≠ 0#64 then
    if self.bitIndex < self.bitLen then some (self.bitIndex, self.cleared) else self.cleared.next
  else self.advanced.next
termination_by self.measure
decreasing_by
  · exact cleared_measure (by assumption)
  · exact advanced_measure (by assumption)

theorem next_measure {self later : RootSetIter} {found : Nat} (h : self.next = some (found, later)) :
    later.measure < self.measure := by
  induction self using next.induct with
  | case1 self hdone =>
      rw [next, if_pos hdone] at h
      cases h
  | case2 self hmore hword hin =>
      rw [next, if_neg hmore, if_pos hword, if_pos hin] at h
      cases h
      exact cleared_measure hword
  | case3 self hmore hword hout ih =>
      rw [next, if_neg hmore, if_pos hword, if_neg hout] at h
      exact lt_trans (ih h) (cleared_measure hword)
  | case4 self hmore hword ih =>
      rw [next, if_neg hmore, if_neg hword] at h
      exact lt_trans (ih h) (advanced_measure hmore)

/-- Everything the iterator gives. -/
def items (self : RootSetIter) : List Nat :=
  match _h : self.next with
  | none => []
  | some (found, later) => found :: later.items
termination_by self.measure
decreasing_by exact next_measure (by assumption)

end RootSetIter

/-- The members of a set in ascending order. -/
def RootSet.iterOnes (heap : WordHeap) (self : RootSet) : List Nat :=
  let words := self.wordSlice heap
  RootSetIter.items {
    words
    bitLen := self.bitLen
    wordIndex := 0
    currentWord := words.headD 0#64 }

end Moth.Borrow.CopyOnWrite
