import Mathlib.Data.BitVec
import Mathlib.Data.List.GetD
import Mathlib.Data.List.Sort

/-!
# Words as a set of indices

A list of 64-bit words holds the indices whose bit is set, word after word
from the low end; past the last word no bit is set. Two lists of one length
that hold the same indices are the same list, so comparing words compares
sets, and a word operation of two lists is that operation at every index.

The words of a width are those it takes to reach every index below it, and
`fullWords` sets exactly the bits below the width.
-/

namespace Moth.Lib

/-- Whether the bit of an index is set. -/
def wordBit (words : List (BitVec 64)) (k : Nat) : Bool :=
  (words.getD (k / 64) 0#64).getLsbD (k % 64)

@[simp] theorem wordBit_nil (k : Nat) : wordBit [] k = false := by
  simp [wordBit]

theorem wordBit_at {words : List (BitVec 64)} {j b : Nat} (hb : b < 64) :
    wordBit words (j * 64 + b) = (words.getD j 0#64).getLsbD b := by
  have hdiv : (j * 64 + b) / 64 = j := by omega
  have hmod : (j * 64 + b) % 64 = b := by omega
  rw [wordBit, hdiv, hmod]

theorem wordBit_of_length_le {words : List (BitVec 64)} {k : Nat} (h : words.length * 64 ≤ k) :
    wordBit words k = false := by
  have hout : words.length ≤ k / 64 := by omega
  rw [wordBit, List.getD_eq_default _ _ hout]
  exact BitVec.getLsbD_zero

theorem wordBit_replicate_zero (len k : Nat) :
    wordBit (List.replicate len 0#64) k = false := by
  have hzero : (List.replicate len 0#64).getD (k / 64) 0#64 = 0#64 := by
    rw [List.getD_eq_getElem?_getD, List.getElem?_replicate]
    split <;> rfl
  rw [wordBit, hzero, BitVec.getLsbD_zero]

theorem word_ne_zero_iff {word : BitVec 64} : word ≠ 0#64 ↔ ∃ b < 64, word.getLsbD b = true := by
  constructor
  · intro hne
    by_contra hnone
    refine hne (BitVec.eq_of_getLsbD_eq fun b hb => ?_)
    rw [BitVec.getLsbD_zero, Bool.eq_false_iff]
    intro hbit
    exact hnone ⟨b, hb, hbit⟩
  · rintro ⟨b, -, hbit⟩ rfl
    rw [BitVec.getLsbD_zero] at hbit
    exact Bool.false_ne_true hbit

theorem exists_word_ne_zero_iff {words : List (BitVec 64)} :
    (∃ word ∈ words, word ≠ 0#64) ↔ ∃ k, wordBit words k = true := by
  constructor
  · rintro ⟨word, hmem, hne⟩
    obtain ⟨j, hj, rfl⟩ := List.getElem_of_mem hmem
    obtain ⟨b, hb, hbit⟩ := word_ne_zero_iff.1 hne
    refine ⟨j * 64 + b, ?_⟩
    rw [wordBit_at hb, List.getD_eq_getElem _ _ hj]
    exact hbit
  · rintro ⟨k, hbit⟩
    have hlt : k / 64 < words.length := by
      by_contra hge
      rw [wordBit_of_length_le (by omega)] at hbit
      exact Bool.false_ne_true hbit
    refine ⟨words[k / 64], List.getElem_mem hlt, ?_⟩
    rw [wordBit, List.getD_eq_getElem _ _ hlt] at hbit
    exact word_ne_zero_iff.2 ⟨k % 64, Nat.mod_lt _ (by decide), hbit⟩

theorem words_ext {l r : List (BitVec 64)} (hlen : l.length = r.length)
    (h : ∀ k, wordBit l k = wordBit r k) : l = r := by
  refine List.ext_getElem hlen fun j hj hj' => BitVec.eq_of_getLsbD_eq fun b hb => ?_
  have hbit := h (j * 64 + b)
  rwa [wordBit_at hb, wordBit_at hb, List.getD_eq_getElem _ _ hj, List.getD_eq_getElem _ _ hj']
    at hbit

theorem bit_test (word : BitVec 64) {b : Nat} (hb : b < 64) :
    ((word &&& 1#64 <<< b) != 0#64) = word.getLsbD b := by
  have hbit : ∀ c < 64, (word &&& 1#64 <<< b).getLsbD c = (word.getLsbD c && decide (c = b)) := by
    intro c hc
    rw [BitVec.getLsbD_and, BitVec.getLsbD_shiftLeft, BitVec.getLsbD_one, decide_eq_true hc,
      Bool.true_and]
    congr 1
    rw [Bool.eq_iff_iff]
    simp only [Bool.and_eq_true, Bool.not_eq_true', decide_eq_false_iff_not, decide_eq_true_eq]
    omega
  rw [Bool.eq_iff_iff, bne_iff_ne, word_ne_zero_iff]
  constructor
  · rintro ⟨c, hc, hset⟩
    rw [hbit c hc, Bool.and_eq_true, decide_eq_true_eq] at hset
    rw [← hset.2]
    exact hset.1
  · intro hset
    refine ⟨b, hb, ?_⟩
    rw [hbit b hb, hset, decide_eq_true rfl, Bool.and_self]

/-! ## Word operations -/

theorem getD_zipWith {f : BitVec 64 → BitVec 64 → BitVec 64} (hf : f 0#64 0#64 = 0#64)
    {l r : List (BitVec 64)} (hlen : l.length = r.length) (j : Nat) :
    (List.zipWith f l r).getD j 0#64 = f (l.getD j 0#64) (r.getD j 0#64) := by
  by_cases hj : j < l.length
  · have hj' : j < r.length := by omega
    have hjz : j < (List.zipWith f l r).length := by rw [List.length_zipWith]; omega
    rw [List.getD_eq_getElem _ _ hjz, List.getD_eq_getElem _ _ hj, List.getD_eq_getElem _ _ hj',
      List.getElem_zipWith]
  · have hjz : (List.zipWith f l r).length ≤ j := by rw [List.length_zipWith]; omega
    rw [List.getD_eq_default _ _ hjz, List.getD_eq_default _ _ (by omega),
      List.getD_eq_default _ _ (by omega), hf]

theorem wordBit_zipWith {f : BitVec 64 → BitVec 64 → BitVec 64} {g : Bool → Bool → Bool}
    (hf : f 0#64 0#64 = 0#64)
    (hbit : ∀ x y : BitVec 64, ∀ b < 64, (f x y).getLsbD b = g (x.getLsbD b) (y.getLsbD b))
    {l r : List (BitVec 64)} (hlen : l.length = r.length) (k : Nat) :
    wordBit (List.zipWith f l r) k = g (wordBit l k) (wordBit r k) := by
  rw [wordBit, getD_zipWith hf hlen]
  exact hbit _ _ _ (Nat.mod_lt k (by decide))

/-- Setting the bit of an index. -/
theorem wordBit_set {words : List (BitVec 64)} {i : Nat} (hi : i / 64 < words.length) (k : Nat) :
    wordBit (words.set (i / 64) (words[i / 64] ||| 1#64 <<< (i % 64))) k =
      (wordBit words k || decide (k = i)) := by
  have hmod : k % 64 < 64 := Nat.mod_lt k (by decide)
  by_cases hword : k / 64 = i / 64
  · have hset : i / 64 < (words.set (i / 64) (words[i / 64] ||| 1#64 <<< (i % 64))).length := by
      rw [List.length_set]
      exact hi
    rw [wordBit, wordBit, hword, List.getD_eq_getElem _ _ hset, List.getElem_set_self,
      List.getD_eq_getElem _ _ hi, BitVec.getLsbD_or, BitVec.getLsbD_shiftLeft,
      BitVec.getLsbD_one, decide_eq_true hmod, Bool.true_and]
    congr 1
    rw [Bool.eq_iff_iff]
    simp only [Bool.and_eq_true, Bool.not_eq_true', decide_eq_false_iff_not, decide_eq_true_eq]
    omega
  · have hne : k ≠ i := by
      intro heq
      rw [heq] at hword
      exact hword rfl
    rw [wordBit, wordBit, decide_eq_false hne, Bool.or_false, List.getD_eq_getElem?_getD,
      List.getElem?_set_ne (Ne.symm hword), ← List.getD_eq_getElem?_getD]

/-! ## The lowest bit -/

theorem toNat_of_lowest {x : BitVec 64} {t : Nat} (hlow : ∀ b < t, x.getLsbD b = false)
    (hbit : x.getLsbD t = true) :
    x.toNat = 2 ^ (t + 1) * (x.toNat / 2 ^ (t + 1)) + 2 ^ t := by
  have hmod : x.toNat % 2 ^ (t + 1) = 2 ^ t := by
    refine Nat.eq_of_testBit_eq fun b => ?_
    rw [Nat.testBit_mod_two_pow, Nat.testBit_two_pow]
    rcases Nat.lt_trichotomy b t with hlt | heq | hgt
    · have hfalse : x.toNat.testBit b = false := hlow b hlt
      rw [hfalse, Bool.and_false, decide_eq_false (by omega)]
    · have htrue : x.toNat.testBit t = true := hbit
      rw [heq, htrue, Bool.and_true, decide_eq_true (by omega), decide_eq_true rfl]
    · rw [decide_eq_false (by omega), Bool.false_and, decide_eq_false (by omega)]
  have hdiv := Nat.div_add_mod x.toNat (2 ^ (t + 1))
  omega

theorem getLsbD_clear_lowest {x : BitVec 64} (hx : x ≠ 0#64) (b : Nat) :
    (x &&& (x - 1#64)).getLsbD b = (x.getLsbD b && decide (b ≠ x.ctz.toNat)) := by
  have hbit := BitVec.getLsbD_true_ctz_of_ne_zero hx
  have hvalue := toNat_of_lowest (fun b hb => BitVec.getLsbD_false_of_lt_ctz hb) hbit
  revert hvalue hbit
  generalize x.ctz.toNat = t
  intro hbit hvalue
  generalize x.toNat / 2 ^ (t + 1) = q at hvalue
  have hpos := Nat.two_pow_pos t
  have hlt : 2 ^ t < 2 ^ (t + 1) := Nat.pow_lt_pow_right (by decide) (Nat.lt_succ_self t)
  have hone : (1#64).toNat = 1 := by decide
  have hle : (1#64).toNat ≤ x.toNat := by omega
  have hsub : (x - 1#64).toNat = 2 ^ (t + 1) * q + (2 ^ t - 1) := by
    rw [BitVec.toNat_sub_of_le (BitVec.le_def.2 hle), hvalue, hone]
    omega
  have hleft : x.getLsbD b = if b < t + 1 then (2 ^ t).testBit b else q.testBit (b - (t + 1)) := by
    rw [BitVec.getLsbD, hvalue, Nat.testBit_two_pow_mul_add _ hlt]
  have hright : (x - 1#64).getLsbD b =
      if b < t + 1 then (2 ^ t - 1).testBit b else q.testBit (b - (t + 1)) := by
    rw [BitVec.getLsbD, hsub, Nat.testBit_two_pow_mul_add _ (by omega)]
  rw [BitVec.getLsbD_and, hright, hleft, Nat.testBit_two_pow, Nat.testBit_two_pow_sub_one]
  by_cases hb : b < t + 1
  · rw [if_pos hb, if_pos hb, ← Bool.decide_and, ← Bool.decide_and, decide_eq_decide]
    omega
  · rw [if_neg hb, if_neg hb, Bool.and_self, decide_eq_true (by omega), Bool.and_true]

theorem clear_lowest_lt {x : BitVec 64} (hx : x ≠ 0#64) : (x &&& (x - 1#64)).toNat < x.toNat := by
  have hpos : x.toNat ≠ 0 := fun hzero => hx (BitVec.eq_of_toNat_eq hzero)
  have hone : (1#64).toNat = 1 := by decide
  have hle : (1#64).toNat ≤ x.toNat := by omega
  calc (x &&& (x - 1#64)).toNat ≤ (x - 1#64).toNat := by
        rw [BitVec.toNat_and]
        exact Nat.and_le_right
    _ < x.toNat := by
        rw [BitVec.toNat_sub_of_le (BitVec.le_def.2 hle)]
        omega

/-! ## The words of a width -/

/-- The number of words that reach every index below a width. -/
def wordLen (n : Nat) : Nat := (n + 63) / 64

theorem div_lt_wordLen {n k : Nat} (h : k < n) : k / 64 < wordLen n := by
  simp only [wordLen]
  omega

/-- The bits of the last word below a width. -/
def tailBits (n : Nat) : BitVec 64 :=
  match n % 64 with
  | 0 => BitVec.allOnes 64
  | remainder => (1#64 <<< remainder) - 1#64

theorem lowBits_getLsbD {r : Nat} (hr : r < 64) (b : Nat) :
    ((1#64 <<< r) - 1#64).getLsbD b = decide (b < r) := by
  have hpow : 2 ^ r < 2 ^ 64 := Nat.pow_lt_pow_right (by decide) hr
  have hpos : 0 < 2 ^ r := Nat.two_pow_pos r
  have hshift : (1#64 <<< r).toNat = 2 ^ r := by
    rw [BitVec.toNat_shiftLeft, BitVec.toNat_ofNat, Nat.one_mod_two_pow (by decide),
      Nat.one_shiftLeft]
    exact Nat.mod_eq_of_lt hpow
  have hone : (1#64).toNat = 1 := by decide
  have hle : (1#64).toNat ≤ (1#64 <<< r).toNat := by omega
  have hsub : ((1#64 <<< r) - 1#64).toNat = 2 ^ r - 1 := by
    rw [BitVec.toNat_sub_of_le (BitVec.le_def.2 hle), hshift]
    rfl
  rw [BitVec.getLsbD, hsub]
  exact Nat.testBit_two_pow_sub_one r b

theorem tailBits_getLsbD {n b : Nat} (hn : 0 < n) (hb : b < 64) :
    (tailBits n).getLsbD b = decide ((wordLen n - 1) * 64 + b < n) := by
  rw [tailBits]
  split
  · next hzero =>
      rw [BitVec.getLsbD_allOnes, decide_eq_decide, wordLen]
      omega
  · next hzero =>
      have hne : n % 64 ≠ 0 := hzero
      rw [lowBits_getLsbD (Nat.mod_lt n (by decide)), decide_eq_decide, wordLen]
      omega

/-- Every index below the width. -/
def fullWords (n : Nat) : List (BitVec 64) :=
  (List.range (wordLen n)).map fun index =>
    if index + 1 = wordLen n then tailBits n else BitVec.allOnes 64

theorem fullWords_length (n : Nat) : (fullWords n).length = wordLen n := by
  rw [fullWords, List.length_map, List.length_range]

theorem fullWords_concat {n m : Nat} (h : wordLen n = m + 1) :
    fullWords n = List.replicate m (BitVec.allOnes 64) ++ [tailBits n] := by
  have hinner : ∀ index ∈ List.range m,
      (if index + 1 = m + 1 then tailBits n else BitVec.allOnes 64) = BitVec.allOnes 64 := by
    intro index hmem
    have hlt := List.mem_range.1 hmem
    rw [if_neg (by omega)]
  rw [fullWords, h, List.range_succ, List.map_append, List.map_congr_left hinner,
    List.map_const', List.length_range, List.map_singleton, if_pos rfl]

theorem eq_fullWords_iff {n : Nat} {words : List (BitVec 64)} (hlen : words.length = wordLen n) :
    words = fullWords n ↔
      (∀ tail, words.getLast? = some tail → tail = tailBits n) ∧
        ∀ word ∈ words.dropLast, word = BitVec.allOnes 64 := by
  rcases List.eq_nil_or_concat words with rfl | ⟨leading, last, rfl⟩
  · have hempty : fullWords n = [] :=
      List.length_eq_zero_iff.1 ((fullWords_length n).trans hlen.symm)
    rw [hempty]
    simp
  · rw [List.concat_eq_append] at hlen ⊢
    have hlast : wordLen n = leading.length + 1 := by
      rw [← hlen, List.length_append, List.length_singleton]
    rw [fullWords_concat hlast, List.getLast?_concat, List.dropLast_concat]
    constructor
    · intro heq
      obtain ⟨hleading, htail⟩ := List.append_inj' heq rfl
      refine ⟨fun tail hsome => ?_, (List.eq_replicate_iff.1 hleading).2⟩
      rw [← Option.some.inj hsome]
      exact List.singleton_inj.1 htail
    · rintro ⟨htail, hleading⟩
      rw [← htail last rfl, ← List.eq_replicate_of_mem hleading]

theorem wordBit_fullWords (n k : Nat) : wordBit (fullWords n) k = decide (k < n) := by
  by_cases hk : k / 64 < wordLen n
  · have hmod : k % 64 < 64 := Nat.mod_lt k (by decide)
    have hpos : 0 < n := by
      simp only [wordLen] at hk
      omega
    rw [wordBit, List.getD_eq_getElem _ _ (by rw [fullWords_length]; exact hk)]
    simp only [fullWords, List.getElem_map, List.getElem_range]
    split
    · next hlast =>
        rw [tailBits_getLsbD hpos hmod, Bool.eq_iff_iff, decide_eq_true_eq, decide_eq_true_eq]
        omega
    · next hinner =>
        have hin : k < n := by
          simp only [wordLen] at hk hinner
          omega
        rw [BitVec.getLsbD_allOnes, decide_eq_true hin, decide_eq_true hmod]
  · have hout : ¬ k < n := by
      simp only [wordLen] at hk
      omega
    rw [decide_eq_false hout, wordBit_of_length_le]
    rw [fullWords_length]
    omega

end Moth.Lib
