import Moth.Borrow.RootWordsRead

/-!
# What writing to a stored root set does

Every operation is stated on an owned heap: the set it writes owns its words,
the others are the addresses that every other set owns, the set it reads among
them. It never panics, it leaves the heap owned, the written set stands for the
result, and the words of the others are as they were, so what the others stand
for is as it was.
-/

namespace Moth.Borrow.CopyOnWrite

open Moth.Lib

variable {n : Nat} {heap heap' : WordHeap} {self self' other : RootSet} {others : List Nat}
  {s s' t : Borrow.RootSet n}

/-- The words after writing one set, whose result is known. -/
structure Updated {n : Nat} (heap : WordHeap) (others : List Nat) (heap' : WordHeap)
    (set : RootSet) (s : Borrow.RootSet n) : Prop where
  owned : heap'.Owned (set.owners ++ others)
  represents : Represents heap' set s
  frame : ∀ a ∈ others, heap'.value a = heap.value a

theorem Updated.unchanged (howned : heap.Owned (self.owners ++ others))
    (hself : Represents heap self s) : Updated heap others heap self s :=
  ⟨howned, hself, fun _ _ => rfl⟩

/-! ## Unsharing -/

/-- The words a write starts from: those of the set, or zeros. -/
def RootSet.startWords (heap : WordHeap) (self : RootSet) : List (BitVec 64) :=
  match self.words with
  | none => List.replicate (wordLen self.bitLen) 0#64
  | some words => heap.value words

theorem Represents.startWords_length (h : Represents heap self s) :
    (self.startWords heap).length = wordLen n := by
  rw [RootSet.startWords]
  cases hwords : self.words with
  | none => rw [List.length_replicate, h.bitLen]
  | some a => exact h.length a hwords

theorem Represents.startWords_bits (h : Represents heap self s) (k : Nat) :
    wordBit (self.startWords heap) k = s.contains k := by
  rw [← h.bits k, RootSet.startWords, RootSet.wordSlice]
  cases self.words with
  | none =>
      show wordBit (List.replicate (wordLen self.bitLen) 0#64) k = wordBit [] k
      rw [wordBit_replicate_zero, wordBit_nil]
  | some a => rfl

/-- `words_mut` never fails, and gives an address with the words of the set and no other owner. -/
theorem wordsMut_spec (howned : heap.Owned (self.owners ++ others)) :
    ∃ heap' a, self.wordsMut heap = some (heap', a) ∧ heap'.Owned (a :: others) ∧ a ∉ others ∧
      heap'.value a = self.startWords heap ∧ ∀ b ∈ others, heap'.value b = heap.value b := by
  cases hwords : self.words with
  | none =>
      have hown : self.owners = [] := by rw [RootSet.owners, hwords]; rfl
      rw [hown, List.nil_append] at howned
      refine ⟨heap.alloc (List.replicate (wordLen self.bitLen) 0#64), heap.next, ?_,
        howned.alloc, howned.next_not_mem, ?_, fun b hb => howned.alloc_value hb⟩
      · simp [RootSet.wordsMut, hwords]
      · rw [SharedHeap.alloc_value_self, RootSet.startWords, hwords]
  | some a =>
      have hown : self.owners = [a] := by rw [RootSet.owners, hwords]; rfl
      rw [hown, List.singleton_append] at howned
      have hstart : heap.value a = self.startWords heap := by rw [RootSet.startWords, hwords]
      by_cases hone : heap.strong a = 1
      · refine ⟨heap, a, ?_, howned, howned.not_mem_of_strong_eq_one hone, hstart,
          fun _ _ => rfl⟩
        simp [RootSet.wordsMut, hwords, hone]
      · -- the copy is allocated before the shared words are given up
        have hne : heap.next ≠ a := (Nat.ne_of_lt (howned.lt_next a List.mem_cons_self)).symm
        have hcopied : ((heap.alloc (heap.value a)).release a).Owned (heap.next :: others) :=
          ((howned.alloc (v := heap.value a)).perm (List.Perm.swap a heap.next others)).release
        refine ⟨(heap.alloc (heap.value a)).release a, heap.next, ?_, hcopied, ?_, ?_, ?_⟩
        · have hfresh : ((heap.alloc (heap.value a)).release a).strong heap.next = 1 := by
            rw [SharedHeap.release_strong_of_ne hne, SharedHeap.alloc_strong_self]
          simp [RootSet.wordsMut, hwords, hone, hfresh]
        · intro hmem
          exact howned.next_not_mem (List.mem_cons_of_mem a hmem)
        · rw [SharedHeap.release_value, SharedHeap.alloc_value_self, hstart]
        · intro b hb
          rw [SharedHeap.release_value]
          exact howned.alloc_value (List.mem_cons_of_mem a hb)

theorem Updated.write {a : Nat} {words : List (BitVec 64)} (howned : heap'.Owned (a :: others))
    (hfresh : a ∉ others) (hframe : ∀ b ∈ others, heap'.value b = heap.value b)
    (hlen : words.length = wordLen n) (hbits : ∀ k, wordBit words k = s'.contains k)
    (hne : s' ≠ ∅) : Updated heap others (heap'.write a words) ⟨some a, n⟩ s' where
  owned := howned.write
  represents := by
    refine represents_some ?_ ?_ hne
    · rw [SharedHeap.write_value_self]
      exact hlen
    · rw [SharedHeap.write_value_self]
      exact hbits
  frame := by
    intro b hb
    rw [SharedHeap.write_value_of_ne (ne_of_mem_of_not_mem hb hfresh), hframe b hb]

theorem Updated.discard {a : Nat} {words : List (BitVec 64)} (howned : heap'.Owned (a :: others))
    (hfresh : a ∉ others) (hframe : ∀ b ∈ others, heap'.value b = heap.value b) :
    Updated heap others ((heap'.write a words).release a) ⟨none, n⟩ (∅ : Borrow.RootSet n) where
  owned := howned.write.release
  represents := represents_none
  frame := by
    intro b hb
    rw [SharedHeap.release_value, SharedHeap.write_value_of_ne (ne_of_mem_of_not_mem hb hfresh),
      hframe b hb]

/-! ## Making and dropping -/

theorem full_spec (howned : heap.Owned others) (n : Nat) :
    Updated heap others (RootSet.full heap n).1 (RootSet.full heap n).2
      (Finset.univ : Borrow.RootSet n) := by
  rw [RootSet.full]
  split
  · next hwords =>
      refine ⟨howned.alloc, represents_some ?_ ?_ ?_, fun b hb => howned.alloc_value hb⟩
      · rw [SharedHeap.alloc_value_self, fullWords_length]
      · intro k
        rw [SharedHeap.alloc_value_self, wordBit_fullWords, Borrow.RootSet.contains_univ]
      · have hpos : 0 < n := by
          rw [wordLen] at hwords
          omega
        exact Finset.Nonempty.ne_empty ⟨⟨0, hpos⟩, Finset.mem_univ _⟩
  · next hwords =>
      have hzero : n = 0 := by
        rw [wordLen] at hwords
        omega
      subst hzero
      exact ⟨howned, represents_none, fun _ _ => rfl⟩

theorem clone_spec (howned : heap.Owned others) (hself : Represents heap self s)
    (hheld : ∀ b ∈ self.owners, b ∈ others) :
    Updated heap others (self.clone heap).1 (self.clone heap).2 s := by
  obtain ⟨words, bitLen⟩ := self
  cases words with
  | none => exact ⟨howned, hself, fun _ _ => rfl⟩
  | some a =>
      have ha : a ∈ others := hheld a (List.mem_singleton.2 rfl)
      exact ⟨howned.share ha, hself.frame fun _ _ => rfl, fun _ _ => rfl⟩

theorem drop_spec (howned : heap.Owned (self.owners ++ others)) :
    (self.drop heap).Owned others ∧ (self.drop heap).value = heap.value := by
  obtain ⟨words, bitLen⟩ := self
  cases words with
  | none => exact ⟨howned, rfl⟩
  | some a => exact ⟨howned.release, rfl⟩

/-! ## The operations -/

theorem insert_spec (howned : heap.Owned (self.owners ++ others)) (hself : Represents heap self s)
    (bitIndex : Nat) :
    ∃ heap' self', self.insert heap bitIndex = some (heap', self') ∧
      Updated heap others heap' self' (s.insertIndex bitIndex) := by
  rw [RootSet.insert, hself.bitLen]
  by_cases hout : bitIndex ≥ n
  · refine ⟨heap, self, if_pos hout, ?_⟩
    have hsame : s.insertIndex bitIndex = s := dif_neg (by omega)
    rw [hsame]
    exact .unchanged howned hself
  rw [if_neg hout]
  have hin : bitIndex < n := by omega
  by_cases hset : (self.wordsAreShared heap && self.contains heap bitIndex) = true
  · refine ⟨heap, self, if_pos hset, ?_⟩
    rw [Bool.and_eq_true, hself.contains_eq] at hset
    rw [Borrow.RootSet.insertIndex_of_contains hset.2]
    exact .unchanged howned hself
  rw [if_neg hset]
  obtain ⟨heap', a, hmut, howned', hfresh, hvalue, hframe⟩ := wordsMut_spec howned
  have hlen : (heap'.value a).length = wordLen n := by rw [hvalue, hself.startWords_length]
  have hindex : bitIndex / 64 < (heap'.value a).length := by
    rw [hlen]
    exact div_lt_wordLen hin
  simp only [hmut, List.getElem?_eq_getElem hindex]
  refine ⟨_, _, rfl, ?_⟩
  refine .write howned' hfresh hframe ?_ ?_ ?_
  · rw [List.length_set, hlen]
  · intro k
    rw [wordBit_set hindex, hvalue, hself.startWords_bits,
      Borrow.RootSet.contains_insertIndex hin]
  · refine Borrow.RootSet.exists_contains.1 ⟨bitIndex, ?_⟩
    rw [Borrow.RootSet.contains_insertIndex hin, decide_eq_true rfl, Bool.or_true]

/-- Two sets with words, one of them read. -/
structure BothHeld {n : Nat} (heap : WordHeap) (others : List Nat) (a b : Nat)
    (s t : Borrow.RootSet n) : Prop where
  owned : heap.Owned (a :: others)
  held : b ∈ others
  left : Represents heap ⟨some a, n⟩ s
  right : Represents heap ⟨some b, n⟩ t

variable {a b : Nat}

theorem BothHeld.length_eq (h : BothHeld heap others a b s t) :
    (heap.value a).length = (heap.value b).length :=
  (h.left.length a rfl).trans (h.right.length b rfl).symm

theorem BothHeld.left_bits (h : BothHeld heap others a b s t) (k : Nat) :
    wordBit (heap.value a) k = s.contains k := h.left.bits k

theorem BothHeld.right_bits (h : BothHeld heap others a b s t) (k : Nat) :
    wordBit (heap.value b) k = t.contains k := h.right.bits k

theorem BothHeld.wordsMut (h : BothHeld heap others a b s t) :
    ∃ heap' a', RootSet.wordsMut heap ⟨some a, n⟩ = some (heap', a') ∧
      heap'.Owned (a' :: others) ∧ a' ∉ others ∧ heap'.value a' = heap.value a ∧
      heap'.value b = heap.value b ∧ ∀ c ∈ others, heap'.value c = heap.value c := by
  obtain ⟨heap', a', hmut, howned, hfresh, hvalue, hframe⟩ :=
    wordsMut_spec (show heap.Owned ((⟨some a, n⟩ : RootSet).owners ++ others) from h.owned)
  exact ⟨heap', a', hmut, howned, hfresh, hvalue, hframe b h.held, hframe⟩

theorem BothHeld.anyBits_iff (h : BothHeld heap others a b s t)
    {op : BitVec 64 → BitVec 64 → BitVec 64} {g : Bool → Bool → Bool} (hop : op 0#64 0#64 = 0#64)
    (hbit : ∀ x y : BitVec 64, ∀ b < 64, (op x y).getLsbD b = g (x.getLsbD b) (y.getLsbD b)) :
    anyBits op (heap.value a) (heap.value b) = true ↔
      ∃ k, g (s.contains k) (t.contains k) = true := by
  rw [CopyOnWrite.anyBits_iff hop hbit h.length_eq]
  simp only [h.left_bits, h.right_bits]

/-! Two sets with words take the last path of each operation. -/

theorem RootSet.unionWith_words (heap : WordHeap) (a b n : Nat) :
    RootSet.unionWith heap ⟨some a, n⟩ ⟨some b, n⟩ =
      if (RootSet.wordsAreShared heap ⟨some a, n⟩ &&
          !anyBits (fun left right => right &&& ~~~left) (heap.value a) (heap.value b)) = true then
        some (heap, ⟨some a, n⟩, false)
      else
        match RootSet.wordsMut heap ⟨some a, n⟩ with
        | none => none
        | some (heap, words) =>
            let union := unionWords (heap.value words) (heap.value b)
            some (heap.write words union.1, ⟨some words, n⟩, union.2) := rfl

theorem RootSet.intersectWith_words (heap : WordHeap) (a b n : Nat) :
    RootSet.intersectWith heap ⟨some a, n⟩ ⟨some b, n⟩ =
      if (RootSet.wordsAreShared heap ⟨some a, n⟩ &&
          !anyBits (fun left right => left &&& ~~~right) (heap.value a) (heap.value b)) = true then
        some (heap, ⟨some a, n⟩)
      else RootSet.maskWith heap ⟨some a, n⟩ (fun left right => left &&& right) b := rfl

theorem RootSet.subtractWith_words (heap : WordHeap) (a b n : Nat) :
    RootSet.subtractWith heap ⟨some a, n⟩ ⟨some b, n⟩ =
      if (RootSet.wordsAreShared heap ⟨some a, n⟩ &&
          !anyBits (fun left right => left &&& right) (heap.value a) (heap.value b)) = true then
        some (heap, ⟨some a, n⟩)
      else RootSet.maskWith heap ⟨some a, n⟩ (fun left right => left &&& ~~~right) b := rfl

theorem of_skip {shared test : Bool} {changes : Prop} (h : test = true ↔ changes)
    (hskip : (shared && !test) = true) : ¬ changes := by
  rw [Bool.and_eq_true, Bool.not_eq_true'] at hskip
  rw [← h, hskip.2]
  exact Bool.false_ne_true

theorem unionWith_both (h : BothHeld heap others a b s t) :
    ∃ heap' self', RootSet.unionWith heap ⟨some a, n⟩ ⟨some b, n⟩ =
        some (heap', self', (s.unionWith t).2) ∧
      Updated heap others heap' self' (s.unionWith t).1 := by
  have hadds : anyBits (fun left right => right &&& ~~~left) (heap.value a) (heap.value b) = true ↔
      ¬ t ⊆ s := by
    rw [h.anyBits_iff (g := fun left right => right && !left) (by decide)
      fun x y => andNot_bit y x]
    rw [← Finset.sdiff_eq_empty_iff_subset, ← Ne, ← Borrow.RootSet.exists_contains]
    simp only [Borrow.RootSet.contains_sdiff]
  rw [RootSet.unionWith_words]
  by_cases hskip : (RootSet.wordsAreShared heap ⟨some a, n⟩ &&
      !anyBits (fun left right => right &&& ~~~left) (heap.value a) (heap.value b)) = true
  · have hsub : t ⊆ s := not_not.1 (of_skip hadds hskip)
    have hflag : (s.unionWith t).2 = false := by simp [Borrow.RootSet.unionWith, hsub]
    refine ⟨heap, ⟨some a, n⟩, by rw [if_pos hskip, hflag], ?_⟩
    rw [Borrow.RootSet.unionWith_fst, Finset.union_eq_left.2 hsub]
    exact .unchanged h.owned h.left
  · rw [if_neg hskip]
    obtain ⟨heap', a', hmut, howned, hfresh, hvalue, hkept, hframe⟩ := h.wordsMut
    have hfst := unionWords_fst h.length_eq
    have hbits : ∀ k, wordBit (unionWords (heap.value a) (heap.value b)).1 k =
        (s ∪ t).contains k := by
      intro k
      rw [hfst, wordBit_zipWith (by decide) or_bit h.length_eq, h.left_bits, h.right_bits,
        Borrow.RootSet.contains_union]
    have hlen : (unionWords (heap.value a) (heap.value b)).1.length = wordLen n := by
      rw [hfst, List.length_zipWith, ← h.length_eq, Nat.min_self, h.left.length a rfl]
    have hne : s ∪ t ≠ ∅ := by
      intro hempty
      have hs := (Finset.union_eq_empty.1 hempty).1
      exact absurd (h.left.words_eq_none_iff.2 hs) (by simp)
    have hflag : (unionWords (heap.value a) (heap.value b)).2 = (s.unionWith t).2 := by
      rw [Bool.eq_iff_iff, unionWords_snd, Borrow.RootSet.unionWith_snd,
        Borrow.RootSet.unionWith_fst]
      refine not_congr ⟨fun heq => ?_, fun heq => ?_⟩
      · refine Borrow.RootSet.contains_ext fun k => ?_
        rw [← hbits k, heq, h.left_bits]
      · refine words_ext (hlen.trans (h.left.length a rfl).symm) fun k => ?_
        rw [hbits k, heq, h.left_bits]
    simp only [hmut, hvalue, hkept]
    refine ⟨_, _, by rw [hflag], ?_⟩
    exact .write howned hfresh hframe hlen hbits hne

theorem unionWith_spec (howned : heap.Owned (self.owners ++ others))
    (hself : Represents heap self s) (hother : Represents heap other t)
    (hheld : ∀ b ∈ other.owners, b ∈ others) :
    ∃ heap' self', self.unionWith heap other = some (heap', self', (s.unionWith t).2) ∧
      Updated heap others heap' self' (s.unionWith t).1 := by
  obtain ⟨words, bitLen⟩ := self
  obtain ⟨otherWords, otherLen⟩ := other
  obtain rfl : bitLen = n := hself.bitLen
  obtain rfl : otherLen = bitLen := hother.bitLen
  cases otherWords with
  | none =>
      have hempty := hother.words_eq_none_iff.1 rfl
      refine ⟨heap, ⟨words, otherLen⟩, ?_, ?_⟩
      · simp [RootSet.unionWith, hempty, Borrow.RootSet.unionWith]
      · rw [hempty, Borrow.RootSet.unionWith_fst, Finset.union_empty]
        exact .unchanged howned hself
  | some b =>
      have hb : b ∈ others := hheld b (List.mem_singleton.2 rfl)
      cases words with
      | none =>
          have hempty := hself.words_eq_none_iff.1 rfl
          have hnot : ¬ t ⊆ ∅ := by
            intro hsub
            exact absurd (hother.words_eq_none_iff.2 (Finset.subset_empty.1 hsub)) (by simp)
          refine ⟨heap.share b, ⟨some b, otherLen⟩, ?_, ?_⟩
          · simp only [RootSet.unionWith, hempty, Borrow.RootSet.unionWith, hnot]
            rfl
          · rw [hempty, Borrow.RootSet.unionWith_fst, Finset.empty_union]
            exact ⟨howned.share hb, hother.frame fun _ _ => rfl, fun _ _ => rfl⟩
      | some a => exact unionWith_both ⟨howned, hb, hself, hother⟩

theorem maskWith_spec (h : BothHeld heap others a b s t)
    {mask : BitVec 64 → BitVec 64 → BitVec 64} {g : Bool → Bool → Bool}
    (hmask : mask 0#64 0#64 = 0#64)
    (hbit : ∀ x y : BitVec 64, ∀ b < 64, (mask x y).getLsbD b = g (x.getLsbD b) (y.getLsbD b))
    (hresult : ∀ k, s'.contains k = g (s.contains k) (t.contains k)) :
    ∃ heap' self', RootSet.maskWith heap ⟨some a, n⟩ mask b = some (heap', self') ∧
      Updated heap others heap' self' s' := by
  obtain ⟨heap', a', hmut, howned, hfresh, hvalue, hkept, hframe⟩ := h.wordsMut
  have hfst := maskWords_fst mask h.length_eq
  have hbits : ∀ k, wordBit (maskWords mask (heap.value a) (heap.value b)).1 k =
      s'.contains k := by
    intro k
    rw [hfst, wordBit_zipWith hmask hbit h.length_eq, h.left_bits, h.right_bits, hresult]
  have hlen : (maskWords mask (heap.value a) (heap.value b)).1.length = wordLen n := by
    rw [hfst, List.length_zipWith, ← h.length_eq, Nat.min_self, h.left.length a rfl]
  have hsurvive : (maskWords mask (heap.value a) (heap.value b)).2 = 0#64 ↔ s' = ∅ := by
    rw [maskWords_snd mask h.length_eq, ← not_iff_not, ← Ne, ← Borrow.RootSet.exists_contains]
    simp only [← hbits, ← exists_word_ne_zero_iff]
    push Not
    rfl
  simp only [RootSet.maskWith, hmut, hvalue, hkept]
  split
  · next hzero =>
      rw [hsurvive.1 hzero]
      exact ⟨_, _, rfl, .discard howned hfresh hframe⟩
  · next hzero =>
      exact ⟨_, _, rfl, .write howned hfresh hframe hlen hbits fun hempty =>
        hzero (hsurvive.2 hempty)⟩

theorem intersectWith_spec (howned : heap.Owned (self.owners ++ others))
    (hself : Represents heap self s) (hother : Represents heap other t)
    (hheld : ∀ b ∈ other.owners, b ∈ others) :
    ∃ heap' self', self.intersectWith heap other = some (heap', self') ∧
      Updated heap others heap' self' (s ∩ t) := by
  obtain ⟨words, bitLen⟩ := self
  obtain ⟨otherWords, otherLen⟩ := other
  obtain rfl : bitLen = n := hself.bitLen
  obtain rfl : otherLen = bitLen := hother.bitLen
  cases words with
  | none =>
      refine ⟨heap, ⟨none, otherLen⟩, rfl, ?_⟩
      rw [hself.words_eq_none_iff.1 rfl, Finset.empty_inter]
      exact ⟨howned, represents_none, fun _ _ => rfl⟩
  | some a =>
      cases otherWords with
      | none =>
          refine ⟨heap.release a, ⟨none, otherLen⟩, rfl, ?_⟩
          rw [hother.words_eq_none_iff.1 rfl, Finset.inter_empty]
          exact ⟨howned.release, represents_none, fun _ _ => rfl⟩
      | some b =>
          have h : BothHeld heap others a b s t :=
            ⟨howned, hheld b (List.mem_singleton.2 rfl), hself, hother⟩
          have hremoves : anyBits (fun left right => left &&& ~~~right) (heap.value a)
              (heap.value b) = true ↔ s ∩ t ≠ s := by
            rw [h.anyBits_iff (g := fun left right => left && !right) (by decide) andNot_bit, Ne,
              Finset.inter_eq_left, ← Finset.sdiff_eq_empty_iff_subset, ← Ne,
              ← Borrow.RootSet.exists_contains]
            simp only [Borrow.RootSet.contains_sdiff]
          rw [RootSet.intersectWith_words]
          by_cases hskip : (RootSet.wordsAreShared heap ⟨some a, otherLen⟩ &&
              !anyBits (fun left right => left &&& ~~~right) (heap.value a) (heap.value b)) = true
          · refine ⟨heap, ⟨some a, otherLen⟩, if_pos hskip, ?_⟩
            rw [not_not.1 (of_skip hremoves hskip)]
            exact .unchanged howned hself
          · rw [if_neg hskip]
            exact maskWith_spec h (by decide) and_bit fun k => Borrow.RootSet.contains_inter

theorem subtractWith_spec (howned : heap.Owned (self.owners ++ others))
    (hself : Represents heap self s) (hother : Represents heap other t)
    (hheld : ∀ b ∈ other.owners, b ∈ others) :
    ∃ heap' self', self.subtractWith heap other = some (heap', self') ∧
      Updated heap others heap' self' (s \ t) := by
  obtain ⟨words, bitLen⟩ := self
  obtain ⟨otherWords, otherLen⟩ := other
  obtain rfl : bitLen = n := hself.bitLen
  obtain rfl : otherLen = bitLen := hother.bitLen
  cases otherWords with
  | none =>
      refine ⟨heap, ⟨words, otherLen⟩, rfl, ?_⟩
      rw [hother.words_eq_none_iff.1 rfl, Finset.sdiff_empty]
      exact .unchanged howned hself
  | some b =>
      cases words with
      | none =>
          refine ⟨heap, ⟨none, otherLen⟩, rfl, ?_⟩
          rw [hself.words_eq_none_iff.1 rfl, Finset.empty_sdiff]
          exact ⟨howned, represents_none, fun _ _ => rfl⟩
      | some a =>
          have h : BothHeld heap others a b s t :=
            ⟨howned, hheld b (List.mem_singleton.2 rfl), hself, hother⟩
          have hremoves : anyBits (fun left right => left &&& right) (heap.value a)
              (heap.value b) = true ↔ s \ t ≠ s := by
            rw [h.anyBits_iff (by decide) and_bit, Ne, sdiff_eq_left,
              Finset.disjoint_iff_inter_eq_empty, ← Ne, ← Borrow.RootSet.exists_contains]
            simp only [Borrow.RootSet.contains_inter]
          rw [RootSet.subtractWith_words]
          by_cases hskip : (RootSet.wordsAreShared heap ⟨some a, otherLen⟩ &&
              !anyBits (fun left right => left &&& right) (heap.value a) (heap.value b)) = true
          · refine ⟨heap, ⟨some a, otherLen⟩, if_pos hskip, ?_⟩
            rw [not_not.1 (of_skip hremoves hskip)]
            exact .unchanged howned hself
          · rw [if_neg hskip]
            exact maskWith_spec (g := fun left right => left && !right) h (by decide) andNot_bit
              fun k => Borrow.RootSet.contains_sdiff

theorem clear_spec (howned : heap.Owned (self.owners ++ others)) (hself : Represents heap self s) :
    Updated heap others (self.clear heap).1 (self.clear heap).2 (∅ : Borrow.RootSet n) := by
  obtain ⟨words, bitLen⟩ := self
  obtain rfl : bitLen = n := hself.bitLen
  cases words with
  | none => exact ⟨howned, represents_none, fun _ _ => rfl⟩
  | some a => exact ⟨howned.release, represents_none, fun _ _ => rfl⟩

end Moth.Borrow.CopyOnWrite
