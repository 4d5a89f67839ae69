import Moth.Wasm.Binary16Narrow

/-!
# The conversions, called

Both helpers as functions of the bits they are given, and the way there and
back.
-/

/-!
## Widening is exact, and narrowing undoes it

Counted in least subnormals, widening multiplies by 2^125, the ratio of the
two formats' units. A subnormal fraction is shifted until its leading bit is
in place, and the exponent gives back each shift.
-/

namespace Moth.Wasm.Binary16

open Moth.Lib Moth.Lib.Wasm Moth.Lib.BitFields BinaryFormat

variable {ι σ : Type} (meaning : ι → (Nat → Value) → σ → HostResult σ) (fuel : Nat)
  {s : State σ} {w : BitVec 32}

namespace Widen

def signWord (w : BitVec 32) : BitVec 32 := (w &&& f16SignMask) <<< 16

def exponentWord (w : BitVec 32) : BitVec 32 := (w >>> 10) &&& 0x1f

def fractionWord (w : BitVec 32) : BitVec 32 := w &&& f16FractionMask

structure Fields (s : State σ) (w : BitVec 32) : Prop where
  sign : s.locals sign = ⟨.I32, signWord w⟩
  exponent : s.locals exponent = ⟨.I32, exponentWord w⟩
  significand : s.locals significand = ⟨.I32, fractionWord w⟩

end Widen

theorem exec_widenFields (hw : s.locals Widen.input = ⟨.I32, w⟩) :
    ∃ s', exec meaning fuel widenFields s = .next s' ∧ Widen.Fields s' w ∧ s'.store = s.store := by
  have hrun : exec meaning fuel widenFields s = .next
      (((s.setLocal Widen.sign ⟨.I32, Widen.signWord w⟩).setLocal Widen.exponent
        ⟨.I32, Widen.exponentWord w⟩).setLocal Widen.significand ⟨.I32, Widen.fractionWord w⟩) := by
    simp -implicitDefEqProofs (disch := decide) [widenFields, hw, Widen.signWord,
      Widen.exponentWord, Widen.fractionWord]
    rfl
  refine ⟨_, hrun, ⟨?_, ?_, ?_⟩, rfl⟩
  all_goals simp (disch := decide)

/-- The bits put together from the three fields. -/
def components (sign exponent significand : BitVec 32) : BitVec 32 :=
  sign ||| exponent <<< 23 ||| (significand &&& f16FractionMask) <<< 13

theorem exec_components {sign exponent significand : BitVec 32}
    (hsign : s.locals Widen.sign = ⟨.I32, sign⟩)
    (hexponent : s.locals Widen.f32Exponent = ⟨.I32, exponent⟩)
    (hsignificand : s.locals Widen.significand = ⟨.I32, significand⟩) :
    exec meaning fuel widenPacking s =
      .returned (s.push ⟨.I32, components sign exponent significand⟩) := by
  simp -implicitDefEqProofs [widenPacking, emitF32BitsFromComponents, hsign,
    hexponent, hsignificand, components]
  rfl

/-! ## The normalization loop -/

structure Normalizing (s : State σ) (significand exponent : BitVec 32) : Prop where
  significand : s.locals Widen.significand = ⟨.I32, significand⟩
  exponent : s.locals Widen.f32Exponent = ⟨.I32, exponent⟩

theorem exec_normalizationPass {significand exponent : BitVec 32}
    (h : Normalizing s significand exponent) :
    exec meaning fuel normalizationPass s.enter =
      if significand &&& f16ImplicitBit == 0 then
        .branch 0 ((s.enter.setLocal Widen.significand ⟨.I32, significand <<< 1⟩).setLocal
          Widen.f32Exponent ⟨.I32, exponent - 1⟩)
      else .branch 1 s.enter := by
  have htest : exec meaning fuel
      [.localGet Widen.significand, .const .I32 f16ImplicitBit, .binary .I32 .and, .eqz .I32]
      s.enter = .next (s.enter.push (.bool (significand &&& f16ImplicitBit == 0))) := by
    simp -implicitDefEqProofs [h.significand]
  have hsplit : (normalizationPass : List (Instr ι)) =
      [.localGet Widen.significand, .const .I32 f16ImplicitBit, .binary .I32 .and, .eqz .I32] ++
      ([.ite [.localGet Widen.significand, .const .I32 1, .binary .I32 .shl,
        .localSet Widen.significand, .localGet Widen.f32Exponent, .const .I32 1,
        .binary .I32 .sub, .localSet Widen.f32Exponent, .br 1] []] ++ [.br 1]) := rfl
  rw [hsplit, exec_append, htest, Outcome.andThen_next, exec_append, exec_singleton, execInstr_ite]
  cases significand &&& f16ImplicitBit == 0 with
  | true => simp -implicitDefEqProofs (disch := decide) [h.significand, h.exponent]
  | false => rfl

/-- A fraction with its leading bit in place, and what the exponent paid for it. -/
structure Normalized (s t : State σ) (fraction : Nat) (exponent significand : BitVec 32)
    (shifts : Nat) : Prop where
  agrees : s.enter.AgreesOff [Widen.significand, Widen.f32Exponent] t
  locals : Normalizing t significand (exponent - BitVec.ofNat 32 shifts)
  low : 1024 ≤ significand.toNat
  high : significand.toNat < 2048
  value : significand.toNat = fraction * 2 ^ shifts

theorem sub_one_sub_ofNat (x : BitVec 32) (n : Nat) :
    x - 1 - BitVec.ofNat 32 n = x - BitVec.ofNat 32 (n + 1) := by
  bv_omega

theorem normalized_iterate (outer : List Value) (passes : Nat) :
    ∀ {s : State σ} {significand exponent : BitVec 32} {k : Nat},
      Normalizing s significand exponent → significand.toNat < 2048 →
      1024 ≤ significand.toNat * 2 ^ k → k < passes →
      ∃ t significand' shifts,
        iterate (fun t => exec meaning fuel normalizationPass t) outer passes s = .branch 0 t ∧
          Normalized s t significand.toNat exponent significand' shifts := by
  induction passes with
  | zero =>
      intro s significand exponent k _ _ _ hk
      exact absurd hk (Nat.not_lt_zero _)
  | succ passes ih =>
      intro s significand exponent k h hhigh hroom hk
      have hpass := exec_normalizationPass meaning fuel h
      have hbit : (significand &&& f16ImplicitBit).toNat =
          if 1024 ≤ significand.toNat then 1024 else 0 := toNat_and_bit (k := 10) rfl hhigh
      simp only [iterate]
      rw [hpass]
      by_cases hlow : 1024 ≤ significand.toNat
      · have htest : (significand &&& f16ImplicitBit == 0) = false := by
          apply beq_eq_false_iff_ne.2
          intro hzero
          rw [hzero, if_pos hlow] at hbit
          exact absurd hbit (by decide)
        rw [htest, if_neg Bool.false_ne_true]
        refine ⟨_, significand, 0, rfl, .refl _, ⟨h.significand, ?_⟩, hlow, hhigh, ?_⟩
        · rw [BitVec.sub_zero]
          exact h.exponent
        · rw [Nat.pow_zero, Nat.mul_one]
      · have htest : (significand &&& f16ImplicitBit == 0) = true := by
          apply beq_iff_eq.2
          apply BitVec.eq_of_toNat_eq
          rw [hbit, if_neg hlow]
          rfl
        rw [htest, if_pos rfl]
        cases k with
        | zero =>
            rw [Nat.pow_zero, Nat.mul_one] at hroom
            exact absurd hroom hlow
        | succ k =>
            have hdouble : (significand <<< 1).toNat = significand.toNat * 2 := by
              rw [toNat_shiftLeft (by omega), Nat.pow_one]
            have hkeeps : (significand <<< 1).toNat * 2 ^ k = significand.toNat * 2 ^ (k + 1) := by
              rw [hdouble, Nat.mul_assoc, ← Nat.pow_succ']
            obtain ⟨t, significand', shifts, hrun, hnormal⟩ := @ih
              ((s.enter.setLocal Widen.significand ⟨.I32, significand <<< 1⟩).setLocal
                Widen.f32Exponent ⟨.I32, exponent - 1⟩) (significand <<< 1) (exponent - 1) k
              ⟨by rw [State.setLocal_of_ne _ _ (by decide), State.setLocal_self],
                State.setLocal_self _ _ _⟩
              (by omega) (by rw [hkeeps]; exact hroom) (Nat.lt_of_succ_lt_succ hk)
            refine ⟨t, significand', shifts + 1, hrun, ?_, ?_, hnormal.low, hnormal.high, ?_⟩
            · exact (((State.AgreesOff.refl s.enter).setLocal (by simp) _).setLocal
                (by simp) _).enter.trans hnormal.agrees
            · rw [← sub_one_sub_ofNat]
              exact hnormal.locals
            · rw [hnormal.value, hdouble, Nat.mul_assoc, ← Nat.pow_succ']

/-! ## The exits -/

theorem exec_widenZero (h : Widen.Fields s w) :
    exec meaning fuel widenZero s =
      if Widen.fractionWord w == 0 then
        .returned (s.enter.push ⟨.I32, Widen.signWord w⟩)
      else .next s := by
  simp -implicitDefEqProofs [widenZero, h.significand, h.sign]

theorem exec_widenSubnormal_zero (h : Widen.Fields s w) (hzero : Widen.fractionWord w = 0) :
    (exec meaning fuel widenSubnormal s).Returns ⟨.I32, Widen.signWord w⟩ s.store := by
  rw [widenSubnormal, List.append_assoc, exec_append, exec_widenZero meaning fuel h,
    if_pos (beq_iff_eq.2 hzero)]
  exact (Outcome.Returns.push s.enter _).andThen _

theorem exec_widenSubnormal (hfuel : 11 ≤ fuel) (h : Widen.Fields s w)
    (hfraction : (Widen.fractionWord w).toNat < 1024) (hnonzero : Widen.fractionWord w ≠ 0) :
    ∃ significand shifts, 1024 ≤ significand.toNat ∧ significand.toNat < 2048 ∧
      significand.toNat = (Widen.fractionWord w).toNat * 2 ^ shifts ∧
      (exec meaning fuel widenSubnormal s).Returns
        ⟨.I32, components (Widen.signWord w) (113 - BitVec.ofNat 32 shifts) significand⟩
        s.store := by
  have hpos : (Widen.fractionWord w).toNat ≠ 0 := fun hzero =>
    hnonzero (BitVec.eq_of_toNat_eq hzero)
  obtain ⟨t, significand, shifts, hrun, hnormal⟩ := @normalized_iterate _ _ meaning fuel []
    fuel (s.setLocal Widen.f32Exponent ⟨.I32, 113⟩).enter (Widen.fractionWord w) 113 10
    ⟨by simpa (disch := decide) using h.significand, by
      rw [State.enter_locals, State.setLocal_self]⟩
    (by omega) (by omega) (by omega)
  refine ⟨significand, shifts, hnormal.low, hnormal.high, hnormal.value, ?_⟩
  have hloop : exec meaning fuel widenNormalization s = .next (t.leave s.stack) := by
    rw [widenNormalization, exec_cons, execInstr_const, Outcome.andThen_next, exec_cons,
      execInstr_localSet, Outcome.andThen_next, exec_block_loop, hrun,
      Outcome.leaveBlock_branch_zero, State.setLocal_stack]
  have hsign : t.locals Widen.sign = ⟨.I32, Widen.signWord w⟩ := by
    rw [hnormal.agrees.locals _ (by decide)]
    simpa (disch := decide) using h.sign
  rw [widenSubnormal, exec_append, exec_append, exec_widenZero meaning fuel h,
    if_neg (fun hzero => hnonzero (beq_iff_eq.1 hzero)), Outcome.andThen_next, hloop,
    Outcome.andThen_next, exec_components meaning fuel (s := t.leave s.stack) hsign
      hnormal.locals.exponent hnormal.locals.significand]
  exact ⟨_, rfl, rfl, hnormal.agrees.store⟩

theorem exec_widenNormal (h : Widen.Fields s w) :
    (exec meaning fuel (widenExponent ++ widenPacking) s).Returns
      ⟨.I32, components (Widen.signWord w) (Widen.exponentWord w + 112) (Widen.fractionWord w)⟩
      s.store := by
  have hstart : exec meaning fuel widenExponent s =
      .next (s.setLocal Widen.f32Exponent ⟨.I32, Widen.exponentWord w + 112⟩) := by
    simp -implicitDefEqProofs [widenExponent, h.exponent]
  rw [exec_append, hstart, Outcome.andThen_next,
    exec_components meaning fuel (s := s.setLocal Widen.f32Exponent _)
      (by simpa (disch := decide) using h.sign) (State.setLocal_self _ _ _)
      (by simpa (disch := decide) using h.significand)]
  exact .push _ _

theorem exec_widenChoice (h : Widen.Fields s w) :
    exec meaning fuel widenChoice s =
      if Widen.exponentWord w == 0 then
        (exec meaning fuel widenSubnormal s.enter).leaveBlock s.stack
      else .next s := by
  rw [widenChoice, exec_cons, execInstr_localGet, Outcome.andThen_next, exec_cons, h.exponent,
    execInstr_eqz, Outcome.andThen_next, exec_singleton, execInstr_ite]
  rfl

theorem exec_widenGuard (h : Widen.Fields s w) (hfinite : (Widen.exponentWord w).toNat < 31) :
    exec meaning fuel widenGuard s = .next s := by
  have hnumber : (Widen.exponentWord w == 31#(Carrier.bits .I32)) = false := by
    apply beq_eq_false_iff_ne.2
    intro heq
    rw [heq] at hfinite
    exact absurd hfinite (by decide)
  have htest : exec meaning fuel [.localGet Widen.exponent, .const .I32 31, .relation .I32 .eq] s =
      .next (s.push (.bool false)) := by
    rw [← hnumber]
    simp -implicitDefEqProofs [h.exponent]
  have hsplit : (widenGuard : List (Instr ι)) =
      [.localGet Widen.exponent, .const .I32 31, .relation .I32 .eq] ++ [.ite [.unreachable] []] :=
    rfl
  rw [hsplit, exec_append, htest, Outcome.andThen_next, exec_singleton, execInstr_ite]
  rfl

end Moth.Wasm.Binary16

namespace Moth.Wasm.Binary16

open Moth.Lib Moth.Lib.Wasm Moth.Lib.BitFields BinaryFormat

variable {ι σ : Type} (meaning : ι → (Nat → Value) → σ → HostResult σ)
  {fuel : Nat} {s : State σ} {h : BitVec 16}

/-- The word that a binary16 pattern is passed in. -/
def halfWord (h : BitVec 16) : BitVec 32 := h.setWidth 32

theorem toNat_halfWord (h : BitVec 16) : (halfWord h).toNat = h.toNat := by
  have hlt := h.isLt
  rw [halfWord, BitVec.toNat_setWidth]
  exact Nat.mod_eq_of_lt (by omega)

/-! ## The fields of a binary16 -/

theorem toNat_signWord (h : BitVec 16) :
    (Widen.signWord (halfWord h)).toNat =
      (if binary16.negative h.toNat then 1 else 0) * 2 ^ 31 := by
  have hlt := h.isLt
  have hbit : (halfWord h &&& f16SignMask).toNat = if 2 ^ 15 ≤ h.toNat then 2 ^ 15 else 0 := by
    rw [toNat_and_bit (k := 15) rfl (by rw [toNat_halfWord]; exact hlt), toNat_halfWord]
  have hweight : (halfWord h &&& f16SignMask).toNat =
      (if binary16.negative h.toNat then 1 else 0) * 2 ^ 15 := by
    rw [hbit, negative]
    simp only [decide_eq_true_eq]
    show _ = (if 2 ^ 15 ≤ h.toNat then 1 else 0) * 2 ^ 15
    split <;> rfl
  have hle : (if binary16.negative h.toNat then 1 else 0) ≤ 1 := by split <;> omega
  have hpow : 2 ^ 15 * 2 ^ 16 = 2 ^ 31 := rfl
  rw [Widen.signWord, toNat_shiftLeft (by omega), hweight, Nat.mul_assoc, hpow]

theorem toNat_exponentWord (h : BitVec 16) :
    (Widen.exponentWord (halfWord h)).toNat = binary16.magnitude h.toNat / 2 ^ 10 := by
  have hmagnitude : binary16.magnitude h.toNat = h.toNat % 2 ^ 15 := rfl
  rw [Widen.exponentWord, toNat_and_low (k := 5) rfl, toNat_shiftRight, toNat_halfWord, hmagnitude]
  omega

theorem toNat_fractionWord (h : BitVec 16) :
    (Widen.fractionWord (halfWord h)).toNat = binary16.magnitude h.toNat % 2 ^ 10 := by
  have hmagnitude : binary16.magnitude h.toNat = h.toNat % 2 ^ 15 := rfl
  rw [Widen.fractionWord, toNat_and_low (k := 10) rfl, toNat_halfWord, hmagnitude]
  omega

/-- A magnitude of binary32 from its fields, under the sign of a binary16. -/
theorem toNat_components {exponent significand : BitVec 32} (hexponent : exponent.toNat < 256) :
    (components (Widen.signWord (halfWord h)) exponent significand).toNat =
      binary32.pattern (binary16.negative h.toNat)
        (exponent.toNat * 2 ^ 23 + significand.toNat % 2 ^ 10 * 2 ^ 13) := by
  have hfraction : (significand &&& f16FractionMask).toNat = significand.toNat % 2 ^ 10 :=
    toNat_and_low rfl
  have hlow : ((significand &&& f16FractionMask) <<< 13).toNat =
      significand.toNat % 2 ^ 10 * 2 ^ 13 := by
    rw [toNat_shiftLeft (by omega), hfraction]
  have hhigh : (exponent <<< 23).toNat = exponent.toNat * 2 ^ 23 := toNat_shiftLeft (by omega)
  have hword : (exponent <<< 23 ||| (significand &&& f16FractionMask) <<< 13).toNat =
      exponent.toNat * 2 ^ 23 + significand.toNat % 2 ^ 10 * 2 ^ 13 := by
    rw [toNat_or hhigh (by omega), hlow]
  have hweight : (if binary16.negative h.toNat then binary32.signWeight else 0) =
      (if binary16.negative h.toNat then 1 else 0) * 2 ^ 31 := by
    split <;> rfl
  rw [components, BitVec.or_assoc, toNat_or (toNat_signWord h) (by omega), hword, pattern, hweight]

theorem units_binary32 {e F : Nat} (hF : F < 2 ^ 23) (he : 0 < e) :
    binary32.units (e * 2 ^ 23 + F) = (2 ^ 23 + F) * 2 ^ (e - 1) :=
  binary32.units_normal hF he

/-- What widening answers: the sign, over a magnitude that counts 2^125 units for each one. -/
def IsWidened (h : BitVec 16) (bits : BitVec 32) : Prop :=
  ∃ a, a < binary32.infinity ∧ bits.toNat = binary32.pattern (binary16.negative h.toNat) a ∧
    binary32.units a = binary16.units (binary16.magnitude h.toNat) * 2 ^ 125

theorem IsWidened.unique {bits bits' : BitVec 32} (hw : IsWidened h bits)
    (hw' : IsWidened h bits') : bits' = bits := by
  obtain ⟨a, _, hbits, ha⟩ := hw
  obtain ⟨a', _, hbits', ha'⟩ := hw'
  apply BitVec.eq_of_toNat_eq
  rw [hbits, hbits', binary32.units_strictMono.injective (ha'.trans ha.symm)]

theorem isWidened_normal (hlow : 0 < binary16.magnitude h.toNat / 2 ^ 10)
    (hfinite : binary16.IsFinite h.toNat) :
    IsWidened h (components (Widen.signWord (halfWord h)) (Widen.exponentWord (halfWord h) + 112)
      (Widen.fractionWord (halfWord h))) := by
  have hhigh : binary16.magnitude h.toNat < 31744 := hfinite
  have hexponent : (Widen.exponentWord (halfWord h) + 112).toNat =
      binary16.magnitude h.toNat / 2 ^ 10 + 112 := by
    rw [BitVec.toNat_add, toNat_exponentWord]
    exact Nat.mod_eq_of_lt (show _ + 112 < 2 ^ 32 by omega)
  have hlimit : binary32.infinity = 255 * 2 ^ 23 := rfl
  refine ⟨_, ?_, toNat_components (by omega), ?_⟩
  · rw [hexponent, hlimit]
    omega
  · rw [hexponent, toNat_fractionWord, Nat.mod_mod]
    have hsplit := Nat.div_add_mod' (binary16.magnitude h.toNat) (2 ^ 10)
    have hfraction : binary16.magnitude h.toNat % 2 ^ 10 < 2 ^ 10 := Nat.mod_lt _ (by decide)
    have hunits := binary16.units_normal hfraction hlow
    rw [show 2 ^ binary16.fractionBits = 2 ^ 10 from rfl, hsplit] at hunits
    generalize binary16.magnitude h.toNat % 2 ^ 10 = F at *
    obtain ⟨e, he⟩ := Nat.exists_eq_add_of_lt hlow
    have hwide := units_binary32 (e := e + 113) (F := F * 2 ^ 13) (by omega) (by omega)
    have hfield : binary16.magnitude h.toNat / 2 ^ 10 + 112 = e + 113 := by omega
    have hexponents : e + 113 - 1 = e + 112 := by omega
    rw [hfield, hunits, he, hwide, hexponents, Nat.zero_add, Nat.add_sub_cancel, Nat.pow_add]
    ring

theorem isWidened_subnormal {significand : BitVec 32} {shifts : Nat}
    (hlow : 1024 ≤ significand.toNat) (hhigh : significand.toNat < 2048)
    (hfraction : binary16.magnitude h.toNat < 2 ^ 10)
    (hvalue : significand.toNat = binary16.magnitude h.toNat * 2 ^ shifts) :
    IsWidened h (components (Widen.signWord (halfWord h)) (113 - BitVec.ofNat 32 shifts)
      significand) := by
  have hpositive : 1 ≤ binary16.magnitude h.toNat := by
    apply Nat.pos_of_ne_zero
    intro hzero
    rw [hzero, Nat.zero_mul] at hvalue
    omega
  have hshifts : shifts < 11 := by
    rw [← Nat.pow_lt_pow_iff_right (a := 2) (by decide)]
    have hle := Nat.mul_le_mul_right (2 ^ shifts) hpositive
    omega
  have hexponent : (113 - BitVec.ofNat 32 shifts).toNat = 113 - shifts := by
    clear hvalue
    bv_omega
  have hrest : significand.toNat % 2 ^ 10 = significand.toNat - 1024 := by omega
  have hlimit : binary32.infinity = 255 * 2 ^ 23 := rfl
  refine ⟨_, ?_, toNat_components (by omega), ?_⟩
  · rw [hexponent, hlimit]
    omega
  · have hlead : 2 ^ 23 + (significand.toNat - 1024) * 2 ^ 13 = significand.toNat * 2 ^ 13 := by
      omega
    have hexponents : shifts + (13 + (113 - shifts - 1)) = 125 := by omega
    rw [hexponent, hrest, units_binary32 (by omega) (by omega), hlead, hvalue,
      binary16.units_subnormal hfraction, Nat.mul_assoc, Nat.mul_assoc,
      ← Nat.pow_add, ← Nat.pow_add, hexponents]

theorem isWidened_zero (hzero : binary16.magnitude h.toNat = 0) :
    IsWidened h (Widen.signWord (halfWord h)) := by
  refine ⟨0, by decide, ?_, ?_⟩
  · have hweight : (if binary16.negative h.toNat then binary32.signWeight else 0) =
        (if binary16.negative h.toNat then 1 else 0) * 2 ^ 31 := by
      split <;> rfl
    rw [toNat_signWord, pattern, hweight, Nat.add_zero]
  · rw [hzero]
    rfl

/-! ## The calls -/

theorem call_widen (store : σ) (hfuel : 11 ≤ fuel) (hfinite : binary16.IsFinite h.toNat) :
    ∃ bits, emitF16BitsToF32.call meaning fuel [⟨.I32, halfWord h⟩] store =
      .value ⟨.I32, bits⟩ store ∧ IsWidened h bits := by
  obtain ⟨s, hfields, hs, hstore⟩ := exec_widenFields meaning fuel (w := halfWord h)
    (s := ⟨emitF16BitsToF32.frame [⟨.I32, halfWord h⟩], [], store⟩) rfl
  have hstore' : s.store = store := hstore
  have hexponent : binary16.magnitude h.toNat / 2 ^ 10 < 31 := Nat.div_lt_of_lt_mul hfinite
  unfold Function.call
  have hbody : (emitF16BitsToF32 (ι := ι)).body =
      widenFields ++ widenGuard ++ widenChoice ++ (widenExponent ++ widenPacking) :=
    List.append_assoc _ _ _
  rw [hbody, exec_append, exec_append, exec_append, hfields,
    Outcome.andThen_next,
    exec_widenGuard meaning fuel hs (by rw [toNat_exponentWord]; exact hexponent),
    Outcome.andThen_next, exec_widenChoice meaning fuel hs, ← hstore']
  have hinside : Widen.Fields s.enter (halfWord h) := ⟨hs.sign, hs.exponent, hs.significand⟩
  have hsplit := Nat.div_add_mod' (binary16.magnitude h.toNat) (2 ^ 10)
  cases hzero : Widen.exponentWord (halfWord h) == 0 with
  | false =>
      have hlow : 0 < binary16.magnitude h.toNat / 2 ^ 10 := by
        rw [← toNat_exponentWord]
        apply Nat.pos_of_ne_zero
        intro hnone
        exact beq_eq_false_iff_ne.1 hzero (BitVec.eq_of_toNat_eq hnone)
      rw [if_neg Bool.false_ne_true, Outcome.andThen_next]
      have hresult := (exec_widenNormal meaning fuel hs).callResult
      exact ⟨_, hresult, isWidened_normal hlow hfinite⟩
  | true =>
      have hnone : binary16.magnitude h.toNat / 2 ^ 10 = 0 := by
        rw [← toNat_exponentWord, beq_iff_eq.1 hzero]
        rfl
      have hfraction := toNat_fractionWord h
      have hsmall : binary16.magnitude h.toNat % 2 ^ 10 = binary16.magnitude h.toNat := by omega
      rw [hsmall] at hfraction
      rw [if_pos rfl]
      by_cases hempty : Widen.fractionWord (halfWord h) = 0
      · have hmagnitude : binary16.magnitude h.toNat = 0 := by
          rw [← hfraction, hempty]
          rfl
        refine ⟨_, ?_, isWidened_zero hmagnitude⟩
        have hreturns := exec_widenSubnormal_zero meaning fuel hinside hempty
        exact ((hreturns.leaveBlock _).andThen _).callResult
      · obtain ⟨significand, shifts, hlow, hhigh, hvalue, hrun⟩ := exec_widenSubnormal meaning fuel
          hfuel hinside (by omega) hempty
        rw [hfraction] at hvalue
        refine ⟨_, ?_, isWidened_subnormal hlow hhigh (by omega) hvalue⟩
        exact ((hrun.leaveBlock _).andThen _).callResult

/-! ## There and back -/

theorem IsWidened.finite {bits : BitVec 32} (hw : IsWidened h bits) :
    binary32.IsFinite bits.toNat ∧ binary32.negative bits.toNat = binary16.negative h.toNat ∧
      binary32.value bits.toNat = binary16.value h.toNat := by
  obtain ⟨a, hlt, hbits, hunits⟩ := hw
  have hweight := Nat.lt_trans hlt binary32.infinity_lt_signWeight
  rw [hbits]
  refine ⟨?_, negative_pattern hweight, ?_⟩
  · rw [IsFinite, magnitude_pattern hweight]
    exact hlt
  · have hsigned : binary32.signedUnits (binary32.pattern (binary16.negative h.toNat) a) =
        binary16.signedUnits h.toNat * 2 ^ 125 := by
      unfold signedUnits
      rw [negative_pattern hweight, magnitude_pattern hweight, hunits]
      split <;> push_cast <;> ring
    rw [value, value, hsigned, leastUnit_binary16]
    push_cast
    ring

theorem narrowed_widened {bits : BitVec 32} (hfinite : binary16.IsFinite h.toNat)
    (hw : IsWidened h bits) : narrowed bits = some (halfWord h) := by
  obtain ⟨hbits, hsign, hvalue⟩ := hw.finite
  obtain ⟨a, hrounds, hnarrowed⟩ := narrowed_rounds hbits
  have hself : binary16.RoundsTo |binary32.value bits.toNat| (binary16.magnitude h.toNat) := by
    rw [hvalue, binary16.abs_value]
    exact roundsTo_self (Nat.le_of_lt hfinite)
  have ha := hrounds.unique hself
  have hpattern := pattern_negative_magnitude (f := binary16) h.isLt
  rw [hnarrowed, if_neg (by rw [ha]; exact Nat.ne_of_lt hfinite), ha, hsign, hpattern]
  apply congrArg some
  apply BitVec.eq_of_toNat_eq
  have hlt := h.isLt
  rw [toNat_halfWord, BitVec.toNat_ofNat]
  exact Nat.mod_eq_of_lt (by omega)

/-- Narrowing rounds every finite F32 to nearest, ties to even, and traps on
the others and where the rounded magnitude is not finite; widening is exact and
narrowing undoes it. -/
theorem f16_conversions_exact (store : σ) :
    (∀ (x : BitVec 32) (fuel : Nat),
      (¬binary32.IsFinite x.toNat →
        emitF32ToF16Bits.call meaning fuel [⟨.I32, x⟩] store = .trap) ∧
      (binary32.IsFinite x.toNat → ∃ a, binary16.RoundsTo |binary32.value x.toNat| a ∧
        emitF32ToF16Bits.call meaning fuel [⟨.I32, x⟩] store =
          if a = binary16.infinity then .trap
          else .value ⟨.I32, BitVec.ofNat 32
            (binary16.pattern (binary32.negative x.toNat) a)⟩ store)) ∧
    ∀ h : BitVec 16, binary16.IsFinite h.toNat → ∃ bits : BitVec 32,
      (∀ fuel, 11 ≤ fuel → emitF16BitsToF32.call meaning fuel [⟨.I32, halfWord h⟩] store =
        .value ⟨.I32, bits⟩ store) ∧
      binary32.IsFinite bits.toNat ∧ binary32.negative bits.toNat = binary16.negative h.toNat ∧
      binary32.value bits.toNat = binary16.value h.toNat ∧
      ∀ fuel, emitF32ToF16Bits.call meaning fuel [⟨.I32, bits⟩] store =
        .value ⟨.I32, halfWord h⟩ store := by
  refine ⟨?_, ?_⟩
  · intro x fuel
    refine ⟨?_, ?_⟩
    · intro hfinite
      rw [call_narrow, narrowed_of_not_finite hfinite]
      rfl
    · intro hfinite
      obtain ⟨a, hrounds, hnarrowed⟩ := narrowed_rounds hfinite
      refine ⟨a, hrounds, ?_⟩
      rw [call_narrow, hnarrowed]
      split <;> rfl
  · intro h hfinite
    obtain ⟨bits, _, hw⟩ := call_widen meaning store (Nat.le_refl 11) hfinite
    obtain ⟨hbits, hsign, hvalue⟩ := hw.finite
    refine ⟨bits, ?_, hbits, hsign, hvalue, ?_⟩
    · intro fuel hfuel
      obtain ⟨bits', hrun, hw'⟩ := call_widen meaning store hfuel hfinite
      rw [hrun, hw.unique hw']
    · intro fuel
      rw [call_narrow, narrowed_widened hfinite hw]
      rfl

end Moth.Wasm.Binary16
