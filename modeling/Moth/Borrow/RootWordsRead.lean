import Moth.Borrow.RootWords

/-!
# What a stored root set stands for

`Represents` ties a stored set to a finite set of indices below its width: the
bits are the members, there are as many words as the width needs, and there are
words only when some bit is set. Every reader then answers what the finite set
answers: membership, emptiness, coverage, the pairwise tests, and the iterator,
which gives the members in ascending order.
-/

namespace Moth.Borrow

/-- Membership of any index; one past the width is no member. -/
def RootSet.contains {n : Nat} (self : RootSet n) (bitIndex : Nat) : Bool :=
  decide (∃ h : bitIndex < n, ⟨bitIndex, h⟩ ∈ self)

/-- Insertion of any index; one past the width changes nothing. -/
def RootSet.insertIndex {n : Nat} (self : RootSet n) (bitIndex : Nat) : RootSet n :=
  if h : bitIndex < n then insert ⟨bitIndex, h⟩ self else self

namespace RootSet

variable {n : Nat} {s t : RootSet n} {k i : Nat}

@[simp] theorem contains_eq_true : s.contains k = true ↔ ∃ h : k < n, ⟨k, h⟩ ∈ s := by
  simp [contains]

theorem contains_ext (h : ∀ k, s.contains k = t.contains k) : s = t := by
  ext j
  have hj := h j
  rw [Bool.eq_iff_iff, contains_eq_true, contains_eq_true] at hj
  simpa using hj

theorem contains_of_le (h : n ≤ k) : s.contains k = false := by
  rw [Bool.eq_false_iff, Ne, contains_eq_true]
  rintro ⟨hlt, -⟩
  omega

@[simp] theorem contains_empty : RootSet.contains (∅ : RootSet n) k = false := by
  simp [contains]

@[simp] theorem contains_univ : RootSet.contains (Finset.univ : RootSet n) k = decide (k < n) := by
  simp [contains]

theorem contains_union : (s ∪ t).contains k = (s.contains k || t.contains k) := by
  rw [Bool.eq_iff_iff, Bool.or_eq_true, contains_eq_true, contains_eq_true, contains_eq_true]
  simp only [Finset.mem_union, exists_or]

theorem contains_inter : (s ∩ t).contains k = (s.contains k && t.contains k) := by
  rw [Bool.eq_iff_iff, Bool.and_eq_true, contains_eq_true, contains_eq_true, contains_eq_true]
  simp only [Finset.mem_inter]
  exact ⟨fun ⟨h, hs, ht⟩ => ⟨⟨h, hs⟩, ⟨h, ht⟩⟩, fun ⟨⟨h, hs⟩, ⟨_, ht⟩⟩ => ⟨h, hs, ht⟩⟩

theorem contains_sdiff : (s \ t).contains k = (s.contains k && !t.contains k) := by
  rw [Bool.eq_iff_iff, Bool.and_eq_true, Bool.not_eq_true', Bool.eq_false_iff, Ne,
    contains_eq_true, contains_eq_true, contains_eq_true]
  simp only [Finset.mem_sdiff]
  exact ⟨fun ⟨h, hs, ht⟩ => ⟨⟨h, hs⟩, fun ⟨_, ht'⟩ => ht ht'⟩,
    fun ⟨⟨h, hs⟩, ht⟩ => ⟨h, hs, fun ht' => ht ⟨h, ht'⟩⟩⟩

theorem contains_insertIndex (hi : i < n) :
    (s.insertIndex i).contains k = (s.contains k || decide (k = i)) := by
  rw [insertIndex, dif_pos hi, Bool.eq_iff_iff, Bool.or_eq_true, decide_eq_true_eq,
    contains_eq_true, contains_eq_true]
  simp only [Finset.mem_insert, Fin.mk.injEq]
  constructor
  · rintro ⟨h, heq | hs⟩
    · exact .inr heq
    · exact .inl ⟨h, hs⟩
  · rintro (⟨h, hs⟩ | rfl)
    · exact ⟨h, .inr hs⟩
    · exact ⟨hi, .inl rfl⟩

theorem insertIndex_of_contains (h : s.contains i = true) : s.insertIndex i = s := by
  obtain ⟨hi, hmem⟩ := contains_eq_true.1 h
  rw [insertIndex, dif_pos hi, Finset.insert_eq_of_mem hmem]

theorem iterOnes_ascending (s : RootSet n) : (s.iterOnes.map Fin.val).Pairwise (· < ·) := by
  rw [List.pairwise_map]
  exact (List.pairwise_lt_finRange n).filter _

theorem exists_contains : (∃ k, s.contains k = true) ↔ s ≠ ∅ := by
  rw [← Finset.nonempty_iff_ne_empty]
  constructor
  · rintro ⟨k, hk⟩
    obtain ⟨h, hmem⟩ := contains_eq_true.1 hk
    exact ⟨_, hmem⟩
  · rintro ⟨i, hmem⟩
    exact ⟨i, contains_eq_true.2 ⟨i.isLt, hmem⟩⟩

end RootSet

namespace CopyOnWrite

open Moth.Lib

/-! ## The loops -/

theorem unionWords_fst {l r : List (BitVec 64)} (hlen : l.length = r.length) :
    (unionWords l r).1 = List.zipWith (fun left right => left ||| right) l r := by
  induction l generalizing r with
  | nil => rfl
  | cons left lefts ih =>
      cases r with
      | nil => cases hlen
      | cons right rights =>
          rw [unionWords, List.zipWith_cons_cons, ih (Nat.succ.inj hlen)]

theorem unionWords_snd (l r : List (BitVec 64)) :
    (unionWords l r).2 = true ↔ (unionWords l r).1 ≠ l := by
  induction l generalizing r with
  | nil => simp [unionWords]
  | cons left lefts ih =>
      cases r with
      | nil => simp [unionWords]
      | cons right rights =>
          simp only [unionWords, Bool.or_eq_true, bne_iff_ne, ih, ne_eq, List.cons.injEq]
          tauto

theorem maskWords_fst (mask : BitVec 64 → BitVec 64 → BitVec 64) {l r : List (BitVec 64)}
    (hlen : l.length = r.length) : (maskWords mask l r).1 = List.zipWith mask l r := by
  induction l generalizing r with
  | nil => rfl
  | cons left lefts ih =>
      cases r with
      | nil => cases hlen
      | cons right rights =>
          rw [maskWords, List.zipWith_cons_cons, ih (Nat.succ.inj hlen)]

theorem maskWords_snd (mask : BitVec 64 → BitVec 64 → BitVec 64) {l r : List (BitVec 64)}
    (hlen : l.length = r.length) :
    (maskWords mask l r).2 = 0#64 ↔ ∀ word ∈ (maskWords mask l r).1, word = 0#64 := by
  induction l generalizing r with
  | nil => simp [maskWords]
  | cons left lefts ih =>
      cases r with
      | nil => cases hlen
      | cons right rights =>
          simp only [maskWords, List.forall_mem_cons, ← ih (Nat.succ.inj hlen)]
          exact BitVec.or_eq_zero_iff

theorem anyBits_iff {op : BitVec 64 → BitVec 64 → BitVec 64} {g : Bool → Bool → Bool}
    (hop : op 0#64 0#64 = 0#64)
    (hbit : ∀ x y : BitVec 64, ∀ b < 64, (op x y).getLsbD b = g (x.getLsbD b) (y.getLsbD b))
    {l r : List (BitVec 64)} (hlen : l.length = r.length) :
    anyBits op l r = true ↔ ∃ k, g (wordBit l k) (wordBit r k) = true := by
  have hwords : anyBits op l r = true ↔ ∃ word ∈ List.zipWith op l r, word ≠ 0#64 := by
    rw [anyBits, ← List.map_uncurry_zip_eq_zipWith]
    simp [List.any_eq_true]
  rw [hwords, exists_word_ne_zero_iff]
  simp only [wordBit_zipWith hop hbit hlen]

theorem or_bit (x y : BitVec 64) :
    ∀ b < 64, (x ||| y).getLsbD b = (x.getLsbD b || y.getLsbD b) := fun _ _ =>
  BitVec.getLsbD_or

theorem and_bit (x y : BitVec 64) :
    ∀ b < 64, (x &&& y).getLsbD b = (x.getLsbD b && y.getLsbD b) := fun _ _ =>
  BitVec.getLsbD_and

theorem andNot_bit (x y : BitVec 64) :
    ∀ b < 64, (x &&& ~~~y).getLsbD b = (x.getLsbD b && !y.getLsbD b) := by
  intro b hb
  rw [BitVec.getLsbD_and, BitVec.getLsbD_not, decide_eq_true hb, Bool.true_and]

/-! ## Representation -/

/-- The addresses a set owns. -/
def RootSet.owners (self : RootSet) : List Nat := self.words.toList

/-- A stored set and the finite set it stands for. -/
structure Represents {n : Nat} (heap : WordHeap) (set : RootSet) (s : Borrow.RootSet n) :
    Prop where
  bitLen : set.bitLen = n
  bits : ∀ k, wordBit (set.wordSlice heap) k = s.contains k
  length : ∀ words, set.words = some words → (heap.value words).length = wordLen n
  nonzero : ∀ words, set.words = some words → ∃ word ∈ heap.value words, word ≠ 0#64

variable {n : Nat} {heap heap' : WordHeap} {self other : RootSet} {s t : Borrow.RootSet n}

/-- What a set stands for depends on the words it owns only. -/
theorem Represents.frame (h : Represents heap self s)
    (hsame : ∀ a ∈ self.owners, heap'.value a = heap.value a) : Represents heap' self s := by
  obtain ⟨words, bitLen⟩ := self
  cases words with
  | none =>
      exact {
        bitLen := h.bitLen
        bits := h.bits
        length := fun _ hnone => by cases hnone
        nonzero := fun _ hnone => by cases hnone }
  | some a =>
      have ha : heap'.value a = heap.value a := hsame a (List.mem_singleton.2 rfl)
      refine ⟨h.bitLen, fun k => ?_, ?_, ?_⟩
      · rw [← h.bits k]
        show wordBit (heap'.value a) k = wordBit (heap.value a) k
        rw [ha]
      · rintro b ⟨⟩
        rw [ha]
        exact h.length a rfl
      · rintro b ⟨⟩
        rw [ha]
        exact h.nonzero a rfl

theorem represents_none {heap : WordHeap} : Represents heap ⟨none, n⟩ (∅ : Borrow.RootSet n) where
  bitLen := rfl
  bits := fun k => by rw [RootSet.wordSlice, wordBit_nil, Borrow.RootSet.contains_empty]
  length := fun _ hnone => by cases hnone
  nonzero := fun _ hnone => by cases hnone

theorem represents_some {heap : WordHeap} {a : Nat} (hlen : (heap.value a).length = wordLen n)
    (hbits : ∀ k, wordBit (heap.value a) k = s.contains k) (hne : s ≠ ∅) :
    Represents heap ⟨some a, n⟩ s where
  bitLen := rfl
  bits := hbits
  length := by
    rintro b ⟨⟩
    exact hlen
  nonzero := by
    rintro b ⟨⟩
    obtain ⟨k, hk⟩ := Borrow.RootSet.exists_contains.2 hne
    exact exists_word_ne_zero_iff.2 ⟨k, (hbits k).trans hk⟩

theorem Represents.words_eq_none_iff (h : Represents heap self s) :
    self.words = none ↔ s = ∅ := by
  constructor
  · intro hnone
    refine Borrow.RootSet.contains_ext fun k => ?_
    rw [← h.bits k, RootSet.wordSlice, hnone, Borrow.RootSet.contains_empty]
    exact wordBit_nil k
  · intro hempty
    cases hwords : self.words with
    | none => rfl
    | some a =>
        obtain ⟨k, hk⟩ := exists_word_ne_zero_iff.1 (h.nonzero a hwords)
        have hbit := h.bits k
        rw [RootSet.wordSlice, hwords, hempty, Borrow.RootSet.contains_empty] at hbit
        exact absurd (hbit.symm.trans hk) Bool.false_ne_true

/-! ## Reading -/

theorem Represents.length_wordSlice (h : Represents heap self s) (hne : s ≠ ∅) :
    (self.wordSlice heap).length = wordLen n := by
  cases hwords : self.words with
  | none => exact absurd (h.words_eq_none_iff.1 hwords) hne
  | some a =>
      rw [RootSet.wordSlice, hwords]
      exact h.length a hwords

theorem Represents.value_ne_nil (h : Represents heap self s) {a : Nat}
    (hwords : self.words = some a) : heap.value a ≠ [] := by
  intro hnil
  obtain ⟨word, hmem, -⟩ := h.nonzero a hwords
  rw [hnil] at hmem
  exact List.not_mem_nil hmem

theorem Represents.wordSlice_inj (hs : Represents heap self s) (ht : Represents heap other t) :
    self.wordSlice heap = other.wordSlice heap ↔ s = t := by
  constructor
  · intro heq
    refine Borrow.RootSet.contains_ext fun k => ?_
    rw [← hs.bits k, ← ht.bits k, heq]
  · rintro rfl
    by_cases hempty : s = ∅
    · rw [RootSet.wordSlice, RootSet.wordSlice, hs.words_eq_none_iff.2 hempty,
        ht.words_eq_none_iff.2 hempty]
    · refine words_ext ?_ fun k => (hs.bits k).trans (ht.bits k).symm
      rw [hs.length_wordSlice hempty, ht.length_wordSlice hempty]

theorem Represents.isEmpty_eq (h : Represents heap self s) : self.isEmpty = decide (s = ∅) := by
  rw [RootSet.isEmpty, Bool.eq_iff_iff, Option.isNone_iff_eq_none, decide_eq_true_eq]
  exact h.words_eq_none_iff

theorem Represents.contains_eq (h : Represents heap self s) (k : Nat) :
    self.contains heap k = s.contains k := by
  rw [RootSet.contains, h.bitLen]
  split
  · next hout => exact (Borrow.RootSet.contains_of_le hout).symm
  · rw [← h.bits k, wordBit, List.getD_eq_getElem?_getD]
    cases (self.wordSlice heap)[k / 64]? with
    | none => exact BitVec.getLsbD_zero.symm
    | some word => exact bit_test word (Nat.mod_lt k (by decide))

theorem Represents.coversAll_eq (h : Represents heap self s) (localCount : Nat) :
    self.coversAll heap localCount = (decide (localCount = n) && s.coversAll) := by
  rw [RootSet.coversAll, h.bitLen]
  by_cases hcount : n = localCount
  · subst hcount
    have hfull : self.wordSlice heap = fullWords n ↔ s = Finset.univ := by
      constructor
      · intro heq
        refine Borrow.RootSet.contains_ext fun k => ?_
        rw [← h.bits k, heq, wordBit_fullWords, Borrow.RootSet.contains_univ]
      · intro heq
        refine words_ext ?_ fun k => ?_
        · rw [fullWords_length]
          by_cases hempty : s = ∅
          · have hzero : n = 0 := by
              by_contra hpos
              rw [heq, Finset.univ_eq_empty_iff] at hempty
              exact hempty.false ⟨0, Nat.pos_of_ne_zero hpos⟩
            rw [RootSet.wordSlice, h.words_eq_none_iff.2 hempty, hzero]
            rfl
          · exact h.length_wordSlice hempty
        · rw [h.bits k, heq, wordBit_fullWords, Borrow.RootSet.contains_univ]
    rw [if_neg (fun hne => hne rfl), decide_eq_true rfl, Bool.true_and, Borrow.RootSet.coversAll,
      Bool.eq_iff_iff, decide_eq_true_eq, ← hfull]
    simp only [ne_eq, ite_not]
    split
    · next hlen =>
        rw [eq_fullWords_iff hlen]
        cases hlast : (self.wordSlice heap).getLast? with
        | none =>
            have hnil := List.getLast?_eq_none_iff.1 hlast
            rw [← hlen, hnil]
            simp
        | some tail => simp
    · next hlen =>
        have hne : self.wordSlice heap ≠ fullWords n := by
          intro heq
          rw [heq, fullWords_length] at hlen
          exact hlen rfl
        simp [hne]
  · rw [if_pos hcount, decide_eq_false (Ne.symm hcount), Bool.false_and]

theorem Represents.intersects_eq (hs : Represents heap self s) (ht : Represents heap other t) :
    self.intersects heap other = decide (s ∩ t ≠ ∅) := by
  rw [RootSet.intersects, Bool.eq_iff_iff, decide_eq_true_eq]
  by_cases hempty : s = ∅ ∨ t = ∅
  · have hnone : s ∩ t = ∅ := by
      rcases hempty with rfl | rfl
      · exact Finset.empty_inter t
      · exact Finset.inter_empty s
    have hzip : (self.wordSlice heap).zip (other.wordSlice heap) = [] := by
      rcases hempty with hempty | hempty
      · rw [RootSet.wordSlice, hs.words_eq_none_iff.2 hempty, List.zip_nil_left]
      · rw [RootSet.wordSlice, RootSet.wordSlice, ht.words_eq_none_iff.2 hempty, List.zip_nil_right]
    rw [anyBits, hzip, hnone]
    simp
  · have hlen := (hs.length_wordSlice fun h => hempty (.inl h)).trans
      (ht.length_wordSlice fun h => hempty (.inr h)).symm
    rw [anyBits_iff (by decide) and_bit hlen, ← Borrow.RootSet.exists_contains]
    simp only [hs.bits, ht.bits, Borrow.RootSet.contains_inter]

theorem Represents.eq_eq (hs : Represents heap self s) (ht : Represents heap other t) :
    self.eq heap other = decide (s = t) := by
  have hlen : (self.bitLen == other.bitLen) = true := by
    rw [hs.bitLen, ht.bitLen, beq_self_eq_true]
  rw [RootSet.eq, hlen, Bool.and_true, Bool.eq_iff_iff, beq_iff_eq, decide_eq_true_eq,
    ← hs.wordSlice_inj ht]
  cases hself : self.words with
  | none =>
      cases hother : other.words with
      | none => simp [RootSet.wordSlice, hself, hother]
      | some b => simpa [RootSet.wordSlice, hself, hother] using ht.value_ne_nil hother
  | some a =>
      cases hother : other.words with
      | none => simpa [RootSet.wordSlice, hself, hother] using hs.value_ne_nil hself
      | some b => simp [RootSet.wordSlice, hself, hother]

/-! ## Iteration -/

namespace RootSetIter

/-- The indices an iterator has still to give, whatever the width. -/
def Pending (self : RootSetIter) (k : Nat) : Prop :=
  k / 64 = self.wordIndex ∧ self.currentWord.getLsbD (k % 64) = true ∨
    self.wordIndex < k / 64 ∧ wordBit self.words k = true

/-- Past the last word there is no word at hand. -/
def Sound (self : RootSetIter) : Prop :=
  self.words.length ≤ self.wordIndex → self.currentWord = 0#64

variable {iter later : RootSetIter} {k found : Nat}

theorem not_pending_of_done (hsound : iter.Sound) (hdone : iter.wordIndex ≥ iter.words.length) :
    ¬ iter.Pending k := by
  rintro (⟨-, hbit⟩ | ⟨hlt, hbit⟩)
  · rw [hsound hdone, BitVec.getLsbD_zero] at hbit
    exact Bool.false_ne_true hbit
  · rw [wordBit_of_length_le (by omega)] at hbit
    exact Bool.false_ne_true hbit

theorem bitIndex_div (hword : iter.currentWord ≠ 0#64) :
    iter.bitIndex / 64 = iter.wordIndex ∧ iter.bitIndex % 64 = iter.currentWord.ctz.toNat := by
  have hctz : iter.currentWord.ctz.toNat < 64 := BitVec.lt_def.1 (BitVec.ctz_lt_iff_ne_zero.2 hword)
  rw [bitIndex]
  omega

theorem pending_bitIndex (hword : iter.currentWord ≠ 0#64) : iter.Pending iter.bitIndex := by
  obtain ⟨hdiv, hmod⟩ := bitIndex_div hword
  refine .inl ⟨hdiv, ?_⟩
  rw [hmod]
  exact BitVec.getLsbD_true_ctz_of_ne_zero hword

theorem bitIndex_le (hword : iter.currentWord ≠ 0#64) (hk : iter.Pending k) :
    iter.bitIndex ≤ k := by
  obtain ⟨hdiv, hmod⟩ := bitIndex_div hword
  rcases hk with ⟨hsame, hbit⟩ | ⟨hlater, -⟩
  · have hge : ¬ k % 64 < iter.currentWord.ctz.toNat := by
      intro hlt
      rw [BitVec.getLsbD_false_of_lt_ctz hlt] at hbit
      exact Bool.false_ne_true hbit
    omega
  · omega

theorem cleared_pending (hword : iter.currentWord ≠ 0#64) :
    iter.cleared.Pending k ↔ iter.Pending k ∧ k ≠ iter.bitIndex := by
  obtain ⟨hdiv, hmod⟩ := bitIndex_div hword
  simp only [Pending, cleared, getLsbD_clear_lowest hword, Bool.and_eq_true, decide_eq_true_eq]
  constructor
  · rintro (⟨hsame, hbit, hne⟩ | ⟨hlater, hbit⟩)
    · exact ⟨.inl ⟨hsame, hbit⟩, by omega⟩
    · exact ⟨.inr ⟨hlater, hbit⟩, by omega⟩
  · rintro ⟨⟨hsame, hbit⟩ | hlater, hne⟩
    · exact .inl ⟨hsame, hbit, by omega⟩
    · exact .inr hlater

theorem advanced_pending (hword : iter.currentWord = 0#64) :
    iter.advanced.Pending k ↔ iter.Pending k := by
  simp only [Pending, advanced, hword, BitVec.getLsbD_zero, Bool.false_eq_true, and_false,
    false_or]
  constructor
  · rintro (⟨hsame, hbit⟩ | ⟨hlater, hbit⟩)
    · rw [wordBit, hsame]
      exact ⟨Nat.lt_succ_self _, hbit⟩
    · exact ⟨by omega, hbit⟩
  · rintro ⟨hlater, hbit⟩
    by_cases hsame : k / 64 = iter.wordIndex + 1
    · rw [wordBit, hsame] at hbit
      exact .inl ⟨hsame, hbit⟩
    · exact .inr ⟨by omega, hbit⟩

theorem cleared_sound (hmore : ¬ iter.wordIndex ≥ iter.words.length) : iter.cleared.Sound :=
  fun hdone => absurd hdone hmore

theorem advanced_sound (hword : iter.currentWord = 0#64) : iter.advanced.Sound := by
  intro hdone
  have hout : iter.words.length ≤ iter.wordIndex + 1 := hdone
  show iter.words.getD (iter.wordIndex + 1) iter.currentWord = 0#64
  rw [List.getD_eq_default _ _ hout]
  exact hword

/-- A finished iterator has given every index below the width. -/
theorem next_none (hsound : iter.Sound) (h : iter.next = none) (hk : k < iter.bitLen) :
    ¬ iter.Pending k := by
  induction iter using next.induct with
  | case1 iter hdone => exact not_pending_of_done hsound hdone
  | case2 iter hmore hword hin =>
      rw [next, if_neg hmore, if_pos hword, if_pos hin] at h
      cases h
  | case3 iter hmore hword hout ih =>
      rw [next, if_neg hmore, if_pos hword, if_neg hout] at h
      intro hpending
      refine ih (cleared_sound hmore) h hk ((cleared_pending hword).2 ⟨hpending, ?_⟩)
      omega
  | case4 iter hmore hword ih =>
      rw [next, if_neg hmore, if_neg hword] at h
      intro hpending
      exact ih (advanced_sound (not_not.1 hword)) h hk
        ((advanced_pending (not_not.1 hword)).2 hpending)

/-- What one step gives: the least pending index, and an iterator over the others. -/
structure Given (iter : RootSetIter) (found : Nat) (later : RootSetIter) : Prop where
  sound : later.Sound
  bitLen : later.bitLen = iter.bitLen
  lt : found < iter.bitLen
  pending : ∀ k < iter.bitLen, iter.Pending k ↔ k = found ∨ later.Pending k
  least : ∀ k, later.Pending k → found < k

theorem next_some (hsound : iter.Sound) (h : iter.next = some (found, later)) :
    Given iter found later := by
  induction iter using next.induct with
  | case1 iter hdone =>
      rw [next, if_pos hdone] at h
      cases h
  | case2 iter hmore hword hin =>
      rw [next, if_neg hmore, if_pos hword, if_pos hin] at h
      cases h
      refine ⟨cleared_sound hmore, rfl, hin, fun k _ => ?_, fun k hk => ?_⟩
      · rw [cleared_pending hword]
        by_cases heq : k = iter.bitIndex
        · rw [heq]
          exact ⟨fun _ => .inl rfl, fun _ => pending_bitIndex hword⟩
        · simp [heq]
      · obtain ⟨hpending, hne⟩ := (cleared_pending hword).1 hk
        exact lt_of_le_of_ne (bitIndex_le hword hpending) (Ne.symm hne)
  | case3 iter hmore hword hout ih =>
      rw [next, if_neg hmore, if_pos hword, if_neg hout] at h
      obtain ⟨hlater, hlen, hlt, hpending, hleast⟩ := ih (cleared_sound hmore) h
      refine ⟨hlater, hlen, hlt, fun k hk => ?_, hleast⟩
      rw [← hpending k hk, cleared_pending hword]
      have hne : k ≠ iter.bitIndex := by omega
      simp [hne]
  | case4 iter hmore hword ih =>
      rw [next, if_neg hmore, if_neg hword] at h
      obtain ⟨hlater, hlen, hlt, hpending, hleast⟩ := ih (advanced_sound (not_not.1 hword)) h
      refine ⟨hlater, hlen, hlt, fun k hk => ?_, hleast⟩
      rw [← hpending k hk]
      exact (advanced_pending (not_not.1 hword)).symm

theorem mem_items (hsound : iter.Sound) : k ∈ iter.items ↔ k < iter.bitLen ∧ iter.Pending k := by
  induction iter using items.induct with
  | case1 iter hnext =>
      rw [items]
      split
      · simp only [List.not_mem_nil, false_iff, not_and]
        exact next_none hsound hnext
      · next hsome => rw [hnext] at hsome; cases hsome
  | case2 iter found later hnext ih =>
      obtain ⟨hlater, hlen, hlt, hpending, -⟩ := next_some hsound hnext
      rw [items]
      split
      · next hnone => rw [hnext] at hnone; cases hnone
      · next hsome =>
          rw [hnext] at hsome
          cases hsome
          rw [List.mem_cons, ih hlater, hlen]
          constructor
          · rintro (rfl | ⟨hk, hp⟩)
            · exact ⟨hlt, (hpending k hlt).2 (.inl rfl)⟩
            · exact ⟨hk, (hpending k hk).2 (.inr hp)⟩
          · rintro ⟨hk, hp⟩
            exact ((hpending k hk).1 hp).imp_right fun hp => ⟨hk, hp⟩

theorem items_pairwise (hsound : iter.Sound) : iter.items.Pairwise (· < ·) := by
  induction iter using items.induct with
  | case1 iter hnext =>
      rw [items]
      split
      · exact List.Pairwise.nil
      · next hsome => rw [hnext] at hsome; cases hsome
  | case2 iter found later hnext ih =>
      obtain ⟨hlater, -, -, -, hleast⟩ := next_some hsound hnext
      rw [items]
      split
      · next hnone => rw [hnext] at hnone; cases hnone
      · next hsome =>
          rw [hnext] at hsome
          cases hsome
          refine List.Pairwise.cons (fun k hk => ?_) (ih hlater)
          exact hleast k ((mem_items hlater).1 hk).2

end RootSetIter

theorem Represents.iterOnes_eq (h : Represents heap self s) :
    self.iterOnes heap = s.iterOnes.map Fin.val := by
  let start : RootSetIter := {
    words := self.wordSlice heap
    bitLen := self.bitLen
    wordIndex := 0
    currentWord := (self.wordSlice heap).headD 0#64 }
  have hhead : start.currentWord = start.words.getD 0 0#64 := by
    cases hwords : self.wordSlice heap <;> simp [start, hwords]
  have hsound : start.Sound := by
    intro hdone
    rw [hhead, List.getD_eq_default _ _ hdone]
  have hpending : ∀ k, start.Pending k ↔ s.contains k = true := by
    intro k
    rw [← h.bits k, RootSetIter.Pending, hhead]
    show k / 64 = 0 ∧ _ ∨ 0 < k / 64 ∧ wordBit (self.wordSlice heap) k = true ↔ _
    by_cases hzero : k / 64 = 0
    · rw [wordBit, hzero]
      simp [start]
    · simp [hzero, Nat.pos_of_ne_zero hzero]
  have hmem : ∀ k, k ∈ start.items ↔ k ∈ s.iterOnes.map Fin.val := by
    intro k
    rw [RootSetIter.mem_items hsound, hpending]
    show k < self.bitLen ∧ _ ↔ _
    rw [h.bitLen, Borrow.RootSet.contains_eq_true, List.mem_map]
    constructor
    · rintro ⟨-, hk, hin⟩
      exact ⟨⟨k, hk⟩, Borrow.RootSet.mem_iterOnes.2 hin, rfl⟩
    · rintro ⟨i, hin, rfl⟩
      exact ⟨i.isLt, i.isLt, Borrow.RootSet.mem_iterOnes.1 hin⟩
  exact (RootSetIter.items_pairwise hsound).eq_of_mem_iff
    (Borrow.RootSet.iterOnes_ascending s) hmem

end CopyOnWrite

end Moth.Borrow
