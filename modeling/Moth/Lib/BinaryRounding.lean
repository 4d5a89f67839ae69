import Moth.Lib.BinaryFloat

/-!
# Rounding to the nearest magnitude, ties to even

`RoundsTo x a` says that no magnitude is nearer to `x` than `a`, and that `a`
is even when another is as near. It determines `a`. A number between two
neighbours is rounded by its distance to the two alone, which is what a
rounding that looks at a quotient and a remainder decides by.
`nearestMagnitude` computes it for any number. Rounding to a finer format first
changes nothing but where the first rounding ends on a midpoint of the second.
-/

namespace Moth.Lib.BinaryFormat

variable (f : BinaryFormat)

/-- The magnitude that a nonnegative number is rounded to. -/
structure RoundsTo (x : ℚ) (a : Nat) : Prop where
  le_infinity : a ≤ f.infinity
  nearest : ∀ b ≤ f.infinity, |x - f.magnitudeValue a| ≤ |x - f.magnitudeValue b|
  even : ∀ b ≤ f.infinity, b ≠ a → |x - f.magnitudeValue a| = |x - f.magnitudeValue b| →
    a % 2 = 0

variable {f} {x : ℚ} {a : Nat}

/-- Two nearest magnitudes are an equal distance to both sides, and both even:
the one between them is nearer. -/
theorem RoundsTo.unique {a' : Nat} (h : f.RoundsTo x a) (h' : f.RoundsTo x a') : a = a' := by
  wlog hlt : a < a' generalizing a a' with hwlog
  · rcases lt_trichotomy a a' with hless | heq | hmore
    · exact absurd hless hlt
    · exact heq
    · exact (hwlog h' h hmore).symm
  have heq : |x - f.magnitudeValue a| = |x - f.magnitudeValue a'| :=
    le_antisymm (h.nearest a' h'.le_infinity) (h'.nearest a h.le_infinity)
  have heven := h.even a' h'.le_infinity hlt.ne' heq
  have heven' := h'.even a h.le_infinity hlt.ne heq.symm
  have hlow : f.magnitudeValue a < f.magnitudeValue (a + 1) :=
    f.magnitudeValue_strictMono (Nat.lt_succ_self a)
  have hhigh : f.magnitudeValue (a + 1) < f.magnitudeValue a' :=
    f.magnitudeValue_strictMono (by omega)
  have hnear := h.nearest (a + 1) (by have := h'.le_infinity; omega)
  rcases abs_eq_abs.1 heq with hsame | hopposite
  · linarith
  · have hleft : |x - f.magnitudeValue a| = x - f.magnitudeValue a :=
      abs_of_pos (by linarith)
    have hcloser : |x - f.magnitudeValue (a + 1)| < x - f.magnitudeValue a :=
      abs_lt.2 ⟨by linarith, by linarith⟩
    rw [hleft] at hnear
    linarith

variable (f) in
theorem abs_sub_le_of_le (x : ℚ) {b c : Nat} (hc : c ≤ b) :
    x - f.magnitudeValue b ≤ |x - f.magnitudeValue c| := by
  have hle := f.magnitudeValue_strictMono.monotone hc
  exact le_trans (by linarith) (le_abs_self _)

variable (f) in
theorem abs_sub_le_of_ge (x : ℚ) {b c : Nat} (hc : b ≤ c) :
    f.magnitudeValue b - x ≤ |x - f.magnitudeValue c| := by
  have hle := f.magnitudeValue_strictMono.monotone hc
  exact le_trans (by linarith) (neg_le_abs _)

section Bracket

variable {b : Nat} (hb : b + 1 ≤ f.infinity)

include hb

/-- Nearer to the lower neighbour, or as near and the lower one even. -/
theorem roundsTo_lower (hlow : f.magnitudeValue b ≤ x)
    (h : x - f.magnitudeValue b < f.magnitudeValue (b + 1) - x ∨
      x - f.magnitudeValue b = f.magnitudeValue (b + 1) - x ∧ b % 2 = 0) : f.RoundsTo x b := by
  have habs : |x - f.magnitudeValue b| = x - f.magnitudeValue b := abs_of_nonneg (by linarith)
  have hle : x - f.magnitudeValue b ≤ f.magnitudeValue (b + 1) - x := by
    rcases h with hlt | heq
    · exact hlt.le
    · exact heq.1.le
  refine ⟨by omega, ?_, ?_⟩
  · intro c _
    rw [habs]
    rcases Nat.lt_or_ge b c with hc | hc
    · exact le_trans hle (f.abs_sub_le_of_ge x hc)
    · exact f.abs_sub_le_of_le x hc
  · intro c _ hne heq
    rcases h with hlt | htie
    · exfalso
      rw [habs] at heq
      rcases Nat.lt_or_gt_of_ne hne with hc | hc
      · have hless := f.magnitudeValue_strictMono hc
        have habove := le_abs_self (x - f.magnitudeValue c)
        linarith
      · have hfar := f.abs_sub_le_of_ge x hc
        linarith
    · exact htie.2

/-- Nearer to the upper neighbour, or as near and the lower one odd. -/
theorem roundsTo_upper (hhigh : x ≤ f.magnitudeValue (b + 1))
    (h : f.magnitudeValue (b + 1) - x < x - f.magnitudeValue b ∨
      x - f.magnitudeValue b = f.magnitudeValue (b + 1) - x ∧ b % 2 = 1) :
    f.RoundsTo x (b + 1) := by
  have habs : |x - f.magnitudeValue (b + 1)| = f.magnitudeValue (b + 1) - x := by
    rw [abs_sub_comm]
    exact abs_of_nonneg (by linarith)
  have hle : f.magnitudeValue (b + 1) - x ≤ x - f.magnitudeValue b := by
    rcases h with hlt | heq
    · exact hlt.le
    · exact heq.1.ge
  refine ⟨hb, ?_, ?_⟩
  · intro c _
    rw [habs]
    rcases Nat.lt_or_ge b c with hc | hc
    · exact f.abs_sub_le_of_ge x hc
    · exact le_trans hle (f.abs_sub_le_of_le x hc)
  · intro c _ hne heq
    rcases h with hlt | htie
    · exfalso
      rw [habs] at heq
      rcases Nat.lt_or_gt_of_ne hne with hc | hc
      · have hfar := f.abs_sub_le_of_le x (Nat.le_of_lt_succ hc)
        linarith
      · have hmore := f.magnitudeValue_strictMono hc
        have hbelow := neg_le_abs (x - f.magnitudeValue c)
        linarith
    · omega

end Bracket

theorem roundsTo_infinity (hx : f.magnitudeValue f.infinity ≤ x) : f.RoundsTo x f.infinity := by
  have habs : |x - f.magnitudeValue f.infinity| = x - f.magnitudeValue f.infinity :=
    abs_of_nonneg (by linarith)
  refine ⟨Nat.le_refl _, ?_, ?_⟩
  · intro c hc
    rw [habs]
    exact f.abs_sub_le_of_le x hc
  · intro c hc hne heq
    exfalso
    have hless := f.magnitudeValue_strictMono (Nat.lt_of_le_of_ne hc hne)
    have habove := le_abs_self (x - f.magnitudeValue c)
    linarith

theorem roundsTo_self (ha : a ≤ f.infinity) : f.RoundsTo (f.magnitudeValue a) a := by
  refine ⟨ha, ?_, ?_⟩
  · intro b _
    rw [sub_self, abs_zero]
    exact abs_nonneg _
  · intro b _ hne heq
    rw [sub_self, abs_zero, eq_comm, abs_eq_zero, sub_eq_zero] at heq
    exact absurd (f.magnitudeValue_strictMono.injective heq).symm hne

/-- Whether a quotient with this remainder is rounded up. -/
def roundsUp (q r half : Nat) : Bool := decide (half < r) || decide (r = half) && q % 2 == 1

/-- A significand cut `s` bits above its end, as the code of a rounding does
it: the quotient and the remainder of the cut decide. -/
theorem roundsTo_shift {S s b : Nat} {unit : ℚ} (hs : 0 < s) (hunit : 0 < unit)
    (hb : b + 1 ≤ f.infinity) (hparity : b % 2 = S / 2 ^ s % 2)
    (hvalue : f.magnitudeValue b = (S / 2 ^ s : Nat) * 2 ^ s * unit)
    (hnext : f.magnitudeValue (b + 1) = ((S / 2 ^ s : Nat) + 1) * 2 ^ s * unit) :
    f.RoundsTo (S * unit)
      (if roundsUp (S / 2 ^ s) (S % 2 ^ s) (2 ^ (s - 1)) then b + 1 else b) := by
  have hsplit : (S : ℚ) = (S / 2 ^ s : Nat) * 2 ^ s + (S % 2 ^ s : Nat) := by
    exact_mod_cast (Nat.div_add_mod' S (2 ^ s)).symm
  have hhalf : ((2 : ℚ) ^ s) = 2 * ((2 ^ (s - 1) : Nat) : ℚ) := by
    have hnat : 2 ^ s = 2 * 2 ^ (s - 1) := by
      rw [← Nat.pow_succ', Nat.succ_eq_add_one, Nat.sub_add_cancel hs]
    exact_mod_cast hnat
  have hrem : (S % 2 ^ s : Nat) < 2 * 2 ^ (s - 1) := by
    rw [← Nat.pow_succ', Nat.succ_eq_add_one, Nat.sub_add_cancel hs]
    exact Nat.mod_lt _ (Nat.two_pow_pos s)
  have hdown : (S : ℚ) * unit - f.magnitudeValue b = (S % 2 ^ s : Nat) * unit := by
    rw [hvalue, hsplit]
    ring
  have hup : f.magnitudeValue (b + 1) - S * unit =
      (2 * ((2 ^ (s - 1) : Nat) : ℚ) - (S % 2 ^ s : Nat)) * unit := by
    rw [hnext, hsplit, hhalf]
    ring
  have hlow : f.magnitudeValue b ≤ S * unit := by
    have hnonneg : (0 : ℚ) ≤ (S % 2 ^ s : Nat) * unit := mul_nonneg (Nat.cast_nonneg _) hunit.le
    linarith
  have hhigh : (S : ℚ) * unit ≤ f.magnitudeValue (b + 1) := by
    have hcast : ((S % 2 ^ s : Nat) : ℚ) < 2 * ((2 ^ (s - 1) : Nat) : ℚ) := by exact_mod_cast hrem
    have hnonneg : 0 ≤ (2 * ((2 ^ (s - 1) : Nat) : ℚ) - (S % 2 ^ s : Nat)) * unit :=
      mul_nonneg (by linarith) hunit.le
    linarith
  generalize S % 2 ^ s = r at hdown hup
  generalize 2 ^ (s - 1) = half at hup
  generalize S / 2 ^ s = q at hparity
  rcases Nat.lt_trichotomy r half with hlt | heq | hgt
  · have hcast : (r : ℚ) < half := by exact_mod_cast hlt
    have hstays : roundsUp q r half = false := by
      rw [roundsUp, decide_eq_false (Nat.lt_asymm hlt), decide_eq_false hlt.ne]
      rfl
    rw [hstays, if_neg (by simp)]
    apply roundsTo_lower hb hlow
    left
    rw [hdown, hup]
    exact mul_lt_mul_of_pos_right (by linarith) hunit
  · have htie : (S : ℚ) * unit - f.magnitudeValue b = f.magnitudeValue (b + 1) - S * unit := by
      rw [hdown, hup, heq]
      ring
    have hdecides : roundsUp q r half = (q % 2 == 1) := by
      rw [roundsUp, decide_eq_false (by omega), decide_eq_true heq]
      rfl
    rw [hdecides]
    rcases Nat.mod_two_eq_zero_or_one q with hq | hq
    · rw [hq, if_neg (by decide)]
      exact roundsTo_lower hb hlow (.inr ⟨htie, hparity.trans hq⟩)
    · rw [hq, if_pos (by decide)]
      exact roundsTo_upper hb hhigh (.inr ⟨htie, hparity.trans hq⟩)
  · have hcast : (half : ℚ) < r := by exact_mod_cast hgt
    have hrises : roundsUp q r half = true := by
      rw [roundsUp, decide_eq_true hgt]
      rfl
    rw [hrises, if_pos rfl]
    apply roundsTo_upper hb hhigh
    left
    rw [hdown, hup]
    exact mul_lt_mul_of_pos_right (by linarith) hunit

/-! ## Rounding any number -/

variable (f) in
/-- The magnitude at or below a count of least subnormals: its leading bits. -/
def floorMagnitude (q : Nat) : Nat :=
  (q.log2 - f.fractionBits) * 2 ^ f.fractionBits + q / 2 ^ (q.log2 - f.fractionBits)

/-- A magnitude from its binade and its leading bits. -/
theorem units_lead {s t : Nat} (ht : t < 2 * 2 ^ f.fractionBits)
    (hlead : s = 0 ∨ 2 ^ f.fractionBits ≤ t) :
    f.units (s * 2 ^ f.fractionBits + t) = t * 2 ^ s ∧
      f.step (s * 2 ^ f.fractionBits + t) = 2 ^ s := by
  have hpos : 0 < 2 ^ f.fractionBits := Nat.two_pow_pos _
  rcases Nat.lt_or_ge t (2 ^ f.fractionBits) with hsub | hnormal
  · have hs : s = 0 := by
      rcases hlead with hs | hle
      · exact hs
      · omega
    rw [hs, Nat.zero_mul, Nat.zero_add, Nat.pow_zero, Nat.mul_one, step, Nat.div_eq_of_lt hsub]
    exact ⟨f.units_subnormal hsub, rfl⟩
  · have hF : t - 2 ^ f.fractionBits < 2 ^ f.fractionBits := by omega
    have hfield : s * 2 ^ f.fractionBits + t =
        (s + 1) * 2 ^ f.fractionBits + (t - 2 ^ f.fractionBits) := by
      rw [Nat.add_one_mul]
      omega
    have hdiv : ((s + 1) * 2 ^ f.fractionBits + (t - 2 ^ f.fractionBits)) /
        2 ^ f.fractionBits = s + 1 := by
      rw [Nat.add_comm, Nat.add_mul_div_right _ _ hpos, Nat.div_eq_of_lt hF, Nat.zero_add]
    have hlow : 2 ^ f.fractionBits + (t - 2 ^ f.fractionBits) = t := by omega
    rw [hfield, f.units_normal hF (Nat.succ_pos s), step, hdiv, hlow]
    exact ⟨rfl, rfl⟩

theorem floorMagnitude_units (q : Nat) :
    f.units (f.floorMagnitude q) =
        q / 2 ^ (q.log2 - f.fractionBits) * 2 ^ (q.log2 - f.fractionBits) ∧
      f.step (f.floorMagnitude q) = 2 ^ (q.log2 - f.fractionBits) := by
  have hhigh : q / 2 ^ (q.log2 - f.fractionBits) < 2 * 2 ^ f.fractionBits := by
    rw [← Nat.pow_succ', Nat.div_lt_iff_lt_mul (Nat.two_pow_pos _), ← Nat.pow_add]
    exact Nat.lt_of_lt_of_le Nat.lt_log2_self (Nat.pow_le_pow_right (by decide) (by omega))
  refine units_lead hhigh ?_
  rcases Nat.lt_or_ge f.fractionBits q.log2 with hlt | hle
  · right
    have hne : q ≠ 0 := by
      intro h
      rw [h] at hlt
      exact Nat.not_lt_zero _ hlt
    have hsum : f.fractionBits + (q.log2 - f.fractionBits) = q.log2 := by omega
    rw [Nat.le_div_iff_mul_le (Nat.two_pow_pos _), ← Nat.pow_add, hsum]
    exact Nat.log2_self_le hne
  · left
    omega

variable (f) in
theorem floorMagnitude_le (q : Nat) : f.units (f.floorMagnitude q) ≤ q := by
  rw [(f.floorMagnitude_units q).1]
  exact Nat.div_mul_le_self _ _

variable (f) in
theorem lt_floorMagnitude (q : Nat) : q < f.units (f.floorMagnitude q + 1) := by
  rw [units_succ, (f.floorMagnitude_units q).1, (f.floorMagnitude_units q).2]
  exact Nat.lt_div_mul_add (Nat.two_pow_pos _)

variable (f) in
/-- The magnitude nearest to a nonnegative number, the even one of two. -/
def nearestMagnitude (x : ℚ) : Nat :=
  let b := f.floorMagnitude ⌊x / f.leastUnit⌋₊
  if f.infinity ≤ b then f.infinity
  else if x - f.magnitudeValue b < f.magnitudeValue (b + 1) - x then b
  else if x - f.magnitudeValue b = f.magnitudeValue (b + 1) - x ∧ b % 2 = 0 then b
  else b + 1

theorem nearestMagnitude_rounds (hx : 0 ≤ x) : f.RoundsTo x (f.nearestMagnitude x) := by
  have hunit := f.leastUnit_pos
  have hfloor := Nat.floor_le (div_nonneg hx hunit.le)
  have hceil := Nat.lt_floor_add_one (x / f.leastUnit)
  have hlow : f.magnitudeValue (f.floorMagnitude ⌊x / f.leastUnit⌋₊) ≤ x := by
    have hcast : (f.units (f.floorMagnitude ⌊x / f.leastUnit⌋₊) : ℚ) ≤ x / f.leastUnit :=
      le_trans (by exact_mod_cast f.floorMagnitude_le _) hfloor
    exact (le_div_iff₀ hunit).1 hcast
  have hhigh : x < f.magnitudeValue (f.floorMagnitude ⌊x / f.leastUnit⌋₊ + 1) := by
    have hnat := f.lt_floorMagnitude ⌊x / f.leastUnit⌋₊
    have hcast : x / f.leastUnit < (f.units (f.floorMagnitude ⌊x / f.leastUnit⌋₊ + 1) : ℚ) :=
      lt_of_lt_of_le hceil (by exact_mod_cast hnat)
    exact (div_lt_iff₀ hunit).1 hcast
  simp only [nearestMagnitude]
  generalize f.floorMagnitude ⌊x / f.leastUnit⌋₊ = b at hlow hhigh
  by_cases hinfinity : f.infinity ≤ b
  · rw [if_pos hinfinity]
    exact roundsTo_infinity (le_trans (f.magnitudeValue_strictMono.monotone hinfinity) hlow)
  rw [if_neg hinfinity]
  have hb : b + 1 ≤ f.infinity := Nat.lt_of_not_le hinfinity
  by_cases hnear : x - f.magnitudeValue b < f.magnitudeValue (b + 1) - x
  · rw [if_pos hnear]
    exact roundsTo_lower hb hlow (.inl hnear)
  rw [if_neg hnear]
  by_cases htie : x - f.magnitudeValue b = f.magnitudeValue (b + 1) - x ∧ b % 2 = 0
  · rw [if_pos htie]
    exact roundsTo_lower hb hlow (.inr htie)
  rw [if_neg htie]
  refine roundsTo_upper hb hhigh.le ?_
  rcases lt_or_eq_of_le (not_lt.1 hnear) with hless | heq
  · exact Or.inl hless
  · have hodd : ¬b % 2 = 0 := fun h => htie ⟨heq.symm, h⟩
    exact Or.inr ⟨heq.symm, by omega⟩

theorem roundsTo_iff (hx : 0 ≤ x) : f.RoundsTo x a ↔ a = f.nearestMagnitude x := by
  constructor
  · intro h
    exact h.unique (nearestMagnitude_rounds hx)
  · intro h
    rw [h]
    exact nearestMagnitude_rounds hx

theorem exists_lead (a : Nat) : ∃ m, m < 2 * 2 ^ f.fractionBits ∧ f.units a = m * f.step a := by
  have hpos : 0 < 2 ^ f.fractionBits := Nat.two_pow_pos _
  rcases Nat.eq_zero_or_pos (a / 2 ^ f.fractionBits) with hzero | hnormal
  · refine ⟨a, ?_, ?_⟩
    · have := Nat.lt_of_div_eq_zero hpos hzero
      omega
    · rw [units, if_pos hzero, step, hzero]
      exact (Nat.mul_one a).symm
  · have hmod : a % 2 ^ f.fractionBits < 2 ^ f.fractionBits := Nat.mod_lt _ hpos
    refine ⟨2 ^ f.fractionBits + a % 2 ^ f.fractionBits, by omega, ?_⟩
    rw [units, if_neg hnormal.ne', step]

theorem units_floorMagnitude {m k : Nat} (hm : m < 2 * 2 ^ f.fractionBits) :
    f.units (f.floorMagnitude (m * 2 ^ k)) = m * 2 ^ k := by
  rw [(f.floorMagnitude_units _).1]
  refine Nat.div_mul_cancel ?_
  rcases Nat.eq_zero_or_pos m with rfl | hpos
  · rw [Nat.zero_mul]
    exact Nat.dvd_zero _
  refine Nat.dvd_trans (Nat.pow_dvd_pow 2 ?_) (Nat.dvd_mul_left _ _)
  have hne : m * 2 ^ k ≠ 0 := Nat.mul_ne_zero hpos.ne' (Nat.two_pow_pos k).ne'
  have hlt : m * 2 ^ k < 2 ^ (f.fractionBits + 1 + k) := by
    rw [Nat.pow_add, Nat.pow_succ']
    exact Nat.mul_lt_mul_of_pos_right hm (Nat.two_pow_pos k)
  have hlog := (Nat.log2_lt hne).2 hlt
  omega

/-! ## Rounding twice -/

/-- What lies strictly between the midpoints around a magnitude is rounded to it. -/
theorem roundsTo_between (ha : a ≤ f.infinity)
    (hbelow : ∀ b, b + 1 = a → f.magnitudeValue b + f.magnitudeValue a < 2 * x)
    (habove : a + 1 ≤ f.infinity → 2 * x < f.magnitudeValue a + f.magnitudeValue (a + 1)) :
    f.RoundsTo x a := by
  have hcloser : ∀ b ≤ f.infinity, b ≠ a →
      |x - f.magnitudeValue a| < |x - f.magnitudeValue b| := by
    intro b hb hne
    rcases Nat.lt_or_gt_of_ne hne with hlt | hgt
    · obtain ⟨c, rfl⟩ : ∃ c, a = c + 1 := ⟨a - 1, by omega⟩
      have hmid := hbelow c rfl
      have hle := f.magnitudeValue_strictMono.monotone (show b ≤ c by omega)
      have hless := f.magnitudeValue_strictMono hlt
      rw [abs_lt]
      have habs := le_abs_self (x - f.magnitudeValue b)
      exact ⟨by linarith, by linarith⟩
    · have hmid := habove (by omega)
      have hle := f.magnitudeValue_strictMono.monotone (show a + 1 ≤ b by omega)
      have hless := f.magnitudeValue_strictMono hgt
      rw [abs_lt]
      have habs := neg_le_abs (x - f.magnitudeValue b)
      exact ⟨by linarith, by linarith⟩
  refine ⟨ha, ?_, ?_⟩
  · intro b hb
    rcases eq_or_ne b a with rfl | hne
    · exact le_refl _
    · exact (hcloser b hb hne).le
  · intro b hb hne heq
    exact absurd heq (hcloser b hb hne).ne

theorem RoundsTo.lt_of_lt {b : Nat} (h : f.RoundsTo x a) (hb : b ≤ f.infinity)
    (hlt : f.magnitudeValue a < f.magnitudeValue b) : x < f.magnitudeValue b := by
  by_contra hge
  rw [not_lt] at hge
  have hnear := h.nearest b hb
  rw [abs_of_nonneg (by linarith), abs_of_nonneg (by linarith)] at hnear
  linarith

theorem RoundsTo.gt_of_gt {b : Nat} (h : f.RoundsTo x a) (hb : b ≤ f.infinity)
    (hlt : f.magnitudeValue b < f.magnitudeValue a) : f.magnitudeValue b < x := by
  by_contra hge
  rw [not_lt] at hge
  have hnear := h.nearest b hb
  rw [abs_of_nonpos (by linarith), abs_of_nonpos (by linarith)] at hnear
  linarith

theorem ne_midpoint {b : Nat} (hlow : f.magnitudeValue b ≤ x) (hhigh : x < f.magnitudeValue (b + 1))
    (hne : 2 * x ≠ f.magnitudeValue b + f.magnitudeValue (b + 1)) (c : Nat) :
    2 * x ≠ f.magnitudeValue c + f.magnitudeValue (c + 1) := by
  intro heq
  rcases Nat.lt_trichotomy c b with hlt | rfl | hgt
  · have hless := f.magnitudeValue_strictMono hlt
    have hle := f.magnitudeValue_strictMono.monotone (show c + 1 ≤ b by omega)
    linarith
  · exact hne heq
  · have hless := f.magnitudeValue_strictMono (Nat.lt_succ_self c)
    have hle := f.magnitudeValue_strictMono.monotone (show b + 1 ≤ c by omega)
    linarith

/-- The midpoints of a format are magnitudes of a finer one. -/
def MidpointsIn (g f : BinaryFormat) : Prop :=
  ∀ b, b + 1 ≤ g.infinity → ∃ c, c ≤ f.infinity ∧
    2 * f.magnitudeValue c = g.magnitudeValue b + g.magnitudeValue (b + 1)

/-- Rounding a rounded number again is rounding once, but for the midpoints. -/
theorem RoundsTo.again {g : BinaryFormat} (hmid : MidpointsIn g f) {h : Nat}
    (hx : f.RoundsTo x a) (hv : g.RoundsTo (f.magnitudeValue a) h)
    (hne : ∀ b, b + 1 ≤ g.infinity →
      2 * f.magnitudeValue a ≠ g.magnitudeValue b + g.magnitudeValue (b + 1)) :
    g.RoundsTo x h := by
  have hless : ∀ b, b + 1 ≤ g.infinity → g.magnitudeValue b < g.magnitudeValue (b + 1) :=
    fun b _ => g.magnitudeValue_strictMono (Nat.lt_succ_self b)
  refine roundsTo_between hv.le_infinity ?_ ?_
  · rintro b rfl
    have hb := hv.le_infinity
    obtain ⟨c, hc, hvalue⟩ := hmid b hb
    have hgap := hless b hb
    have hnear := hv.nearest b (by omega)
    have hle : f.magnitudeValue c ≤ f.magnitudeValue a := by
      by_contra hlt
      rw [not_le] at hlt
      rcases le_total (g.magnitudeValue b) (f.magnitudeValue a) with hlow | hlow
      · rw [abs_of_neg (by linarith), abs_of_nonneg (by linarith)] at hnear
        linarith
      · rw [abs_of_neg (by linarith), abs_of_nonpos (by linarith)] at hnear
        linarith
    have hlt : f.magnitudeValue c < f.magnitudeValue a := by
      refine lt_of_le_of_ne hle fun heq => hne b hb ?_
      rw [← heq, hvalue]
    have := hx.gt_of_gt hc hlt
    linarith
  · intro hb
    obtain ⟨c, hc, hvalue⟩ := hmid h hb
    have hgap := hless h hb
    have hnear := hv.nearest (h + 1) hb
    have hle : f.magnitudeValue a ≤ f.magnitudeValue c := by
      by_contra hlt
      rw [not_le] at hlt
      rcases le_total (f.magnitudeValue a) (g.magnitudeValue (h + 1)) with hhigh | hhigh
      · rw [abs_of_pos (by linarith), abs_of_nonpos (by linarith)] at hnear
        linarith
      · rw [abs_of_pos (by linarith), abs_of_nonneg (by linarith)] at hnear
        linarith
    have hlt : f.magnitudeValue a < f.magnitudeValue c := by
      refine lt_of_le_of_ne hle fun heq => hne h hb ?_
      rw [heq, hvalue]
    have := hx.lt_of_lt hc hlt
    linarith

section Finer

variable {g : BinaryFormat} {k : Nat} (hunit : g.leastUnit = 2 ^ k * f.leastUnit)

include hunit

theorem exists_magnitudeValue_eq (hbits : g.fractionBits ≤ f.fractionBits) (h : Nat) :
    ∃ c, f.magnitudeValue c = g.magnitudeValue h := by
  obtain ⟨m, hm, hunits⟩ := exists_lead (f := g) h
  have hpow := Nat.pow_le_pow_right (show 0 < 2 by decide) hbits
  obtain ⟨e, he⟩ : ∃ e, g.step h = 2 ^ e := ⟨_, rfl⟩
  refine ⟨f.floorMagnitude (m * 2 ^ (e + k)), ?_⟩
  rw [magnitudeValue, magnitudeValue, units_floorMagnitude (by omega), hunits, he, hunit]
  push_cast
  ring

theorem midpointsIn_of_finer (hbits : g.fractionBits < f.fractionBits) (hk : 0 < k)
    (hinfinity : g.magnitudeValue g.infinity ≤ f.magnitudeValue f.infinity) :
    MidpointsIn g f := by
  intro b hb
  obtain ⟨m, hm, hunits⟩ := exists_lead (f := g) b
  have hpow := Nat.pow_le_pow_right (show 0 < 2 by decide) hbits
  rw [Nat.pow_succ'] at hpow
  obtain ⟨e, he⟩ : ∃ e, g.step b = 2 ^ e := ⟨_, rfl⟩
  obtain ⟨j, rfl⟩ : ∃ j, k = j + 1 := ⟨k - 1, by omega⟩
  have hvalue : 2 * f.magnitudeValue (f.floorMagnitude ((2 * m + 1) * 2 ^ (e + j))) =
      g.magnitudeValue b + g.magnitudeValue (b + 1) := by
    rw [magnitudeValue, magnitudeValue, magnitudeValue, units_floorMagnitude (by omega),
      units_succ, hunits, he, hunit]
    push_cast
    ring
  refine ⟨_, ?_, hvalue⟩
  have hless := g.magnitudeValue_strictMono (Nat.lt_succ_self b)
  have hle := g.magnitudeValue_strictMono.monotone hb
  by_contra hlt
  have := f.magnitudeValue_strictMono (Nat.lt_of_not_le hlt)
  linarith

end Finer

/-- Converting between formats: exact where it can be, infinity stays. -/
def convertMagnitude (g f : BinaryFormat) (h : Nat) : Nat :=
  if g.infinity ≤ h then f.infinity else f.nearestMagnitude (g.magnitudeValue h)

theorem convertMagnitude_of_eq {g : BinaryFormat} {h : Nat} (hh : h < g.infinity)
    (ha : a ≤ f.infinity) (heq : f.magnitudeValue a = g.magnitudeValue h) :
    convertMagnitude g f h = a := by
  rw [convertMagnitude, if_neg (Nat.not_le.2 hh), ← heq]
  exact ((roundsTo_iff (f.magnitudeValue_nonneg a)).1 (roundsTo_self ha)).symm

theorem convertMagnitude_value {g : BinaryFormat} {k : Nat}
    (hunit : g.leastUnit = 2 ^ k * f.leastUnit) (hbits : g.fractionBits ≤ f.fractionBits)
    (hinfinity : g.magnitudeValue g.infinity ≤ f.magnitudeValue f.infinity) {h : Nat}
    (hh : h < g.infinity) : f.magnitudeValue (convertMagnitude g f h) = g.magnitudeValue h ∧
      convertMagnitude g f h < f.infinity := by
  obtain ⟨c, hc⟩ := exists_magnitudeValue_eq hunit hbits h
  have hlt : c < f.infinity := by
    refine f.magnitudeValue_strictMono.lt_iff_lt.1 (lt_of_lt_of_le ?_ hinfinity)
    rw [hc]
    exact g.magnitudeValue_strictMono hh
  rw [convertMagnitude_of_eq hh hlt.le hc]
  exact ⟨hc, hlt⟩

end Moth.Lib.BinaryFormat
