import Mathlib.Data.Nat.Notation
import Mathlib.Algebra.Order.Ring.Nat
import Mathlib.Tactic.Ring
import Mathlib.Tactic.Linarith

/-!
# Runs of decimal digits

Facts about the number a digit string denotes, `Nat.ofDigitChars 10`, beside
those of the core library: what zeros at either end do to it, and that the
power of ten dividing it is the number of zeros at its end.
-/

namespace Moth.Lib

/-- A nonempty run of decimal digits. -/
structure IsDigits (text : List Char) : Prop where
  ne_nil : text ≠ []
  isDigit : ∀ c ∈ text, c.isDigit = true

theorem isDigit_toNat {c : Char} (h : c.isDigit = true) : 48 ≤ c.toNat ∧ c.toNat ≤ 57 := by
  simp only [Char.isDigit, Bool.and_eq_true, decide_eq_true_eq, ge_iff_le] at h
  exact h

theorem utf8Size_of_isDigit {c : Char} (h : c.isDigit = true) : c.utf8Size = 1 := by
  have hle := (isDigit_toNat h).2
  rw [Char.utf8Size_eq_one_iff]
  exact show c.toNat ≤ 127 by omega

theorem ne_of_isDigit {c d : Char} (h : c.isDigit = true) (hd : d.isDigit = false) : c ≠ d := by
  rintro rfl
  rw [h] at hd
  cases hd

theorem isDigits_toDigits (n : ℕ) : IsDigits (Nat.toDigits 10 n) :=
  ⟨Nat.toDigits_ne_nil, fun _ hc => Nat.isDigit_of_mem_toDigits (by decide) (by decide) hc⟩

theorem isDigits_append {l m : List Char} (hl : IsDigits l) (hm : ∀ c ∈ m, c.isDigit = true) :
    IsDigits (l ++ m) := by
  refine ⟨by simp [hl.ne_nil], fun c hc => ?_⟩
  rcases List.mem_append.1 hc with h | h
  · exact hl.isDigit c h
  · exact hm c h

/-! ## Zeros at either end -/

theorem ofDigitChars_append_zeros (l : List Char) (t : ℕ) :
    Nat.ofDigitChars 10 (l ++ List.replicate t '0') 0 = Nat.ofDigitChars 10 l 0 * 10 ^ t := by
  rw [Nat.ofDigitChars_append, Nat.ofDigitChars_replicate_zero, mul_comm]

theorem ofDigitChars_zeros_append (l : List Char) (t : ℕ) :
    Nat.ofDigitChars 10 (List.replicate t '0' ++ l) 0 = Nat.ofDigitChars 10 l 0 := by
  rw [Nat.ofDigitChars_append, Nat.ofDigitChars_replicate_zero, mul_zero]

theorem ofDigitChars_concat (l : List Char) (c : Char) :
    Nat.ofDigitChars 10 (l ++ [c]) 0 = 10 * Nat.ofDigitChars 10 l 0 + (c.toNat - '0'.toNat) := by
  rw [Nat.ofDigitChars_append, Nat.ofDigitChars_cons, Nat.ofDigitChars_nil]

theorem not_ten_dvd_ofDigitChars {l : List Char} {c : Char} (hc : c.isDigit = true)
    (h0 : c ≠ '0') : ¬ 10 ∣ Nat.ofDigitChars 10 (l ++ [c]) 0 := by
  have hrange := isDigit_toNat hc
  have hne : c.toNat ≠ 48 := fun h => h0 (Char.toNat_inj.1 h)
  have hzero : '0'.toNat = 48 := rfl
  rw [ofDigitChars_concat, hzero]
  omega

theorem pow_ten_dvd_iff {m k t : ℕ} (hm : ¬ 10 ∣ m) : 10 ^ k ∣ m * 10 ^ t ↔ k ≤ t := by
  constructor
  · intro hdvd
    by_contra hlt
    obtain ⟨j, rfl⟩ := Nat.exists_eq_add_of_lt (not_le.1 hlt)
    have hsplit : 10 ^ (t + j + 1) = 10 ^ t * (10 * 10 ^ j) := by ring
    rw [hsplit, mul_comm m, Nat.mul_dvd_mul_iff_left (by positivity)] at hdvd
    exact hm (dvd_trans (Dvd.intro _ rfl) hdvd)
  · intro hle
    exact Dvd.dvd.mul_left (pow_dvd_pow 10 hle) m

theorem pow_ten_dvd_ofDigitChars_iff {l : List Char} {c : Char} {k t : ℕ}
    (hc : c.isDigit = true) (h0 : c ≠ '0') :
    10 ^ k ∣ Nat.ofDigitChars 10 (l ++ [c] ++ List.replicate t '0') 0 ↔ k ≤ t := by
  rw [ofDigitChars_append_zeros]
  exact pow_ten_dvd_iff (not_ten_dvd_ofDigitChars hc h0)

end Moth.Lib
