import Moth.Lib.DigitText
import Moth.Lib.Result
import Moth.Lexical.Numeric

/-!
# The normalized numeric grammar

`NormalizedDecimal` is a normalized spelling with its parts kept apart: digits,
an optional fraction, an optional exponent. The parser answers the text of one
and nothing else, and it reads the text of any back unchanged, which is what
lets the exact-decimal facts be stated on the parts.
-/

namespace Moth.Lexical

open Moth.Lib

/-- The parts of an unsigned, separator-free numeric spelling. -/
structure NormalizedDecimal where
  integer : List Char
  fraction : Option (List Char)
  exponent : Option (NumericExponentSign × List Char)
  integer_ok : IsDigits integer
  fraction_ok : ∀ digits, fraction = some digits → IsDigits digits
  exponent_ok : ∀ sign digits, exponent = some (sign, digits) → IsDigits digits

namespace NormalizedDecimal

def text (d : NormalizedDecimal) : List Char :=
  d.integer ++ fractionText d.fraction ++ exponentText d.exponent

def fractionDigits (d : NormalizedDecimal) : List Char := d.fraction.getD []

theorem isDigit_fractionDigits (d : NormalizedDecimal) :
    ∀ c ∈ d.fractionDigits, c.isDigit = true := by
  intro c hc
  cases hf : d.fraction with
  | none => simp [fractionDigits, hf] at hc
  | some digits =>
      refine (d.fraction_ok digits hf).isDigit c ?_
      simpa [fractionDigits, hf] using hc

/-- The coefficient digits, the decimal point dropped. -/
def coefficientDigits (d : NormalizedDecimal) : List Char := d.integer ++ d.fractionDigits

/-- The coefficient as a number, leading and trailing zeros included. -/
def coefficient (d : NormalizedDecimal) : ℕ := Nat.ofDigitChars 10 d.coefficientDigits 0

def exponentMagnitude (d : NormalizedDecimal) : ℕ :=
  match d.exponent with
  | none => 0
  | some (_, digits) => Nat.ofDigitChars 10 digits 0

def exponentNegative (d : NormalizedDecimal) : Bool :=
  match d.exponent with
  | some (.Negative, _) => true
  | _ => false

def exponentValue (d : NormalizedDecimal) : ℤ :=
  if d.exponentNegative then -(d.exponentMagnitude : ℤ) else d.exponentMagnitude

/-- The number the spelling denotes. -/
def value (d : NormalizedDecimal) : ℚ :=
  d.coefficient * 10 ^ (d.exponentValue - d.fractionDigits.length)

theorem isDigits_coefficientDigits (d : NormalizedDecimal) : IsDigits d.coefficientDigits :=
  isDigits_append d.integer_ok d.isDigit_fractionDigits

end NormalizedDecimal

/-! ## Digits with separators -/

/-- Groups of digits with single separators between them. -/
inductive DigitGroups : List Char → Prop
  | digits {group : List Char} : IsDigits group → DigitGroups group
  | separated {group rest : List Char} : IsDigits group → DigitGroups rest →
      DigitGroups (group ++ '_' :: rest)

/-- What may follow a digit within its groups. -/
inductive AfterDigit : List Char → Prop
  | nil : AfterDigit []
  | digit {c : Char} {rest : List Char} : c.isDigit = true → AfterDigit rest →
      AfterDigit (c :: rest)
  | separator {c : Char} {rest : List Char} : c.isDigit = true → AfterDigit rest →
      AfterDigit ('_' :: c :: rest)

/-- The text without its separators. -/
def unseparated (text : List Char) : List Char := text.filter fun c => !isDigitSeparator c

theorem unseparated_append (a b : List Char) :
    unseparated (a ++ b) = unseparated a ++ unseparated b := List.filter_append ..

theorem unseparated_cons {c : Char} (hc : c ≠ '_') (rest : List Char) :
    unseparated (c :: rest) = c :: unseparated rest :=
  List.filter_cons_of_pos (by simpa [isDigitSeparator] using hc)

theorem unseparated_separator (rest : List Char) :
    unseparated ('_' :: rest) = unseparated rest :=
  List.filter_cons_of_neg (by simp [isDigitSeparator])

theorem unseparated_digits {text : List Char} (h : ∀ c ∈ text, c.isDigit = true) :
    unseparated text = text := by
  refine List.filter_eq_self.2 fun c hc => ?_
  have hne : c ≠ '_' := ne_of_isDigit (h c hc) rfl
  simpa [isDigitSeparator] using hne

theorem byteLength_unseparated (text : List Char) :
    byteLength (unseparated text) ≤ byteLength text := by
  induction text with
  | nil => exact Nat.le_refl _
  | cons c rest ih =>
      have hcons : ∀ tail, byteLength (c :: tail) = c.utf8Size + byteLength tail :=
        fun tail => List.sum_cons
      by_cases hs : c = '_'
      · rw [hs, unseparated_separator, ← hs, hcons]
        exact Nat.le_trans ih (Nat.le_add_left _ _)
      · rw [unseparated_cons hs, hcons, hcons]
        exact Nat.add_le_add_left ih _

theorem AfterDigit.digits_append {group rest : List Char} (hg : ∀ c ∈ group, c.isDigit = true)
    (hr : AfterDigit rest) : AfterDigit (group ++ rest) := by
  induction group with
  | nil => exact hr
  | cons c tail ih =>
      exact .digit (hg c List.mem_cons_self) (ih fun x hx => hg x (List.mem_cons_of_mem _ hx))

theorem DigitGroups.cons {c : Char} {rest : List Char} (hc : c.isDigit = true)
    (h : DigitGroups rest) : DigitGroups (c :: rest) := by
  have hdigits : ∀ {group : List Char}, IsDigits group → IsDigits (c :: group) := by
    intro group hg
    refine ⟨List.cons_ne_nil _ _, fun x hx => ?_⟩
    rcases List.mem_cons.1 hx with heq | hin
    · rw [heq]
      exact hc
    · exact hg.isDigit x hin
  cases h with
  | digits hg => exact .digits (hdigits hg)
  | separated hg hrest => exact .separated (hdigits hg) hrest

theorem isDigits_single {c : Char} (hc : c.isDigit = true) : IsDigits [c] :=
  ⟨List.cons_ne_nil _ _, fun x hx => by rw [List.mem_singleton.1 hx]; exact hc⟩

/-- Groups are a digit and what may follow it. -/
theorem digitGroups_iff {text : List Char} :
    DigitGroups text ↔ ∃ c rest, text = c :: rest ∧ c.isDigit = true ∧ AfterDigit rest := by
  constructor
  · intro h
    induction h with
    | @digits group hg =>
        obtain ⟨hne, hall⟩ := hg
        cases group with
        | nil => exact absurd rfl hne
        | cons c tail =>
            refine ⟨c, tail, rfl, hall c List.mem_cons_self, ?_⟩
            have htail := AfterDigit.digits_append
              (fun x hx => hall x (List.mem_cons_of_mem _ hx)) AfterDigit.nil
            rw [List.append_nil] at htail
            exact htail
    | @separated group rest hg _ ih =>
        obtain ⟨next, later, rfl, hnext, hlater⟩ := ih
        obtain ⟨hne, hall⟩ := hg
        cases group with
        | nil => exact absurd rfl hne
        | cons c tail =>
            refine ⟨c, tail ++ '_' :: next :: later, rfl, hall c List.mem_cons_self, ?_⟩
            exact AfterDigit.digits_append (fun x hx => hall x (List.mem_cons_of_mem _ hx))
              (.separator hnext hlater)
  · rintro ⟨c, rest, rfl, hc, hrest⟩
    induction hrest generalizing c with
    | nil => exact .digits (isDigits_single hc)
    | digit hnext _ ih => exact (ih _ hnext).cons hc
    | separator hnext _ ih => exact .separated (isDigits_single hc) (ih _ hnext)

theorem DigitGroups.isDigits {text : List Char} (h : DigitGroups text) :
    IsDigits (unseparated text) := by
  induction h with
  | digits hg =>
      rw [unseparated_digits hg.isDigit]
      exact hg
  | separated hg _ ih =>
      rw [unseparated_append, unseparated_separator, unseparated_digits hg.isDigit]
      exact isDigits_append hg ih.isDigit

/-! ## One digit run -/

/-- Nothing a digit run would take starts this text. -/
def StopsRun (rest : List Char) : Prop :=
  ∀ c tail, rest = c :: tail → c.isDigit = false ∧ c ≠ '_'

theorem stopsRun_nil : StopsRun [] := by
  intro c tail h
  cases h

theorem stopsRun_cons {c : Char} {tail : List Char} (hc : c.isDigit = false) (hs : c ≠ '_') :
    StopsRun (c :: tail) := by
  intro c' tail' h
  cases h
  exact ⟨hc, hs⟩

theorem scanDigitRun_stop {a b : Bool} {rest : List Char} (h : StopsRun rest) :
    scanDigitRun a b rest = .ok ⟨[], a, b, rest⟩ := by
  cases rest with
  | nil => rfl
  | cons c tail =>
      obtain ⟨hc, hs⟩ := h c tail rfl
      simp [scanDigitRun, isNumericDigit, isDigitSeparator, hc, hs]

theorem scanDigitRun_digit {c : Char} (hc : c.isDigit = true) {a b : Bool} {rest : List Char}
    {run : DigitRun} (h : scanDigitRun true false rest = .ok run) :
    scanDigitRun a b (c :: rest) = .ok { run with digits := c :: run.digits } := by
  rw [scanDigitRun, isNumericDigit, if_pos hc, h]

theorem scanDigitRun_separator (rest : List Char) :
    scanDigitRun true false ('_' :: rest) = scanDigitRun false true rest := by
  simp [scanDigitRun, isNumericDigit, isDigitSeparator]

theorem scanDigitRun_afterDigit {consumed rest : List Char} (h : AfterDigit consumed)
    (hr : StopsRun rest) :
    scanDigitRun true false (consumed ++ rest) = .ok ⟨unseparated consumed, true, false, rest⟩ := by
  induction h with
  | nil => exact scanDigitRun_stop hr
  | digit hc _ ih =>
      rw [List.cons_append, scanDigitRun_digit hc ih, unseparated_cons (ne_of_isDigit hc rfl)]
  | separator hc _ ih =>
      rw [List.cons_append, scanDigitRun_separator, List.cons_append, scanDigitRun_digit hc ih,
        unseparated_separator, unseparated_cons (ne_of_isDigit hc rfl)]

theorem scanDigitRun_groups {groups rest : List Char} (hg : DigitGroups groups)
    (hr : StopsRun rest) {a b : Bool} :
    scanDigitRun a b (groups ++ rest) = .ok ⟨unseparated groups, true, false, rest⟩ := by
  obtain ⟨c, later, rfl, hc, hlater⟩ := digitGroups_iff.1 hg
  rw [List.cons_append, scanDigitRun_digit hc (scanDigitRun_afterDigit hlater hr),
    unseparated_cons (ne_of_isDigit hc rfl)]

/-- A run that has seen a digit, or a separator after one, and does not end in a separator. -/
theorem scanDigitRun_consumed (text : List Char) :
    (∀ run, scanDigitRun true false text = .ok run → run.lastWasSeparator = false →
      ∃ consumed, text = consumed ++ run.rest ∧ AfterDigit consumed ∧
        run.digits = unseparated consumed ∧ StopsRun run.rest ∧ run.lastWasDigit = true) ∧
    (∀ run, scanDigitRun false true text = .ok run → run.lastWasSeparator = false →
      ∃ c consumed, text = c :: consumed ++ run.rest ∧ c.isDigit = true ∧ AfterDigit consumed ∧
        run.digits = c :: unseparated consumed ∧ StopsRun run.rest ∧
        run.lastWasDigit = true) := by
  induction text with
  | nil =>
      constructor
      · intro run h _
        cases h
        exact ⟨[], rfl, .nil, rfl, stopsRun_nil, rfl⟩
      · intro run h hend
        cases h
        cases hend
  | cons c rest ih =>
      have hdigit : ∀ a b run, c.isDigit = true → scanDigitRun a b (c :: rest) = .ok run →
          run.lastWasSeparator = false →
          ∃ consumed, rest = consumed ++ run.rest ∧ AfterDigit consumed ∧
            run.digits = c :: unseparated consumed ∧ StopsRun run.rest ∧
            run.lastWasDigit = true := by
        intro a b run hc h hend
        rw [scanDigitRun, isNumericDigit, if_pos hc] at h
        split at h
        · next later hlater =>
            cases h
            obtain ⟨consumed, hrest, hafter, hdigits, hstop, hlast⟩ := ih.1 later hlater hend
            exact ⟨consumed, hrest, hafter, by rw [hdigits], hstop, hlast⟩
        · cases h
      constructor
      · intro run h hend
        by_cases hc : c.isDigit = true
        · obtain ⟨consumed, hrest, hafter, hdigits, hstop, hlast⟩ := hdigit _ _ run hc h hend
          refine ⟨c :: consumed, by rw [hrest]; rfl, .digit hc hafter, ?_, hstop, hlast⟩
          rw [hdigits, unseparated_cons (ne_of_isDigit hc rfl)]
        · by_cases hs : c = '_'
          · subst hs
            rw [scanDigitRun_separator] at h
            obtain ⟨next, consumed, hrest, hnext, hafter, hdigits, hstop, hlast⟩ :=
              ih.2 run h hend
            refine ⟨'_' :: next :: consumed, by rw [hrest]; rfl, .separator hnext hafter, ?_,
              hstop, hlast⟩
            rw [hdigits, unseparated_separator, unseparated_cons (ne_of_isDigit hnext rfl)]
          · have hstop : StopsRun (c :: rest) := stopsRun_cons (Bool.eq_false_iff.2 hc) hs
            rw [scanDigitRun_stop hstop] at h
            cases h
            exact ⟨[], rfl, .nil, rfl, hstop, rfl⟩
      · intro run h hend
        by_cases hc : c.isDigit = true
        · obtain ⟨consumed, hrest, hafter, hdigits, hstop, hlast⟩ := hdigit _ _ run hc h hend
          exact ⟨c, consumed, by rw [hrest]; rfl, hc, hafter, hdigits, hstop, hlast⟩
        · by_cases hs : c = '_'
          · subst hs
            simp [scanDigitRun, isNumericDigit, isDigitSeparator] at h
          · have hstop : StopsRun (c :: rest) := stopsRun_cons (Bool.eq_false_iff.2 hc) hs
            rw [scanDigitRun_stop hstop] at h
            cases h
            cases hend

/-- A run that took digits and ended well took groups. -/
theorem scanDigitRun_inv {text : List Char} {run : DigitRun}
    (h : scanDigitRun false false text = .ok run) (hend : run.lastWasSeparator = false)
    (hne : run.digits ≠ []) :
    ∃ groups, DigitGroups groups ∧ text = groups ++ run.rest ∧
      run.digits = unseparated groups ∧ StopsRun run.rest := by
  cases text with
  | nil =>
      cases h
      exact absurd rfl hne
  | cons c rest =>
      by_cases hc : c.isDigit = true
      · rw [scanDigitRun, isNumericDigit, if_pos hc] at h
        split at h
        · next later hlater =>
            cases h
            obtain ⟨consumed, hrest, hafter, hdigits, hstop, -⟩ :=
              (scanDigitRun_consumed rest).1 later hlater hend
            refine ⟨c :: consumed, digitGroups_iff.2 ⟨c, consumed, rfl, hc, hafter⟩,
              by rw [hrest]; rfl, ?_, hstop⟩
            rw [unseparated_cons (ne_of_isDigit hc rfl), hdigits]
        · cases h
      · by_cases hs : c = '_'
        · subst hs
          simp [scanDigitRun, isNumericDigit, isDigitSeparator] at h
        · rw [scanDigitRun_stop (stopsRun_cons (Bool.eq_false_iff.2 hc) hs)] at h
          cases h
          exact absurd rfl hne

theorem checkRunEnd_ok {run : DigitRun} {done : Unit} (h : checkRunEnd run = .ok done) :
    run.lastWasSeparator = false := by
  rw [checkRunEnd] at h
  split at h
  · split at h <;> cases h
  · next hend => exact Bool.eq_false_iff.2 hend

/-! ## The parts -/

theorem scanFraction_inv {run : DigitRun} {fraction : Option (List Char)} {rest : List Char}
    (h : scanFraction run = .ok (fraction, rest)) :
    ∃ spelled : Option (List Char), (∀ groups, spelled = some groups → DigitGroups groups) ∧
      run.rest = fractionText spelled ++ rest ∧ fraction = spelled.map unseparated := by
  rw [scanFraction.eq_def] at h
  split at h
  · next tail hrest =>
      split at h
      · cases h
      · obtain ⟨inner, hrun, h⟩ := bind_eq_ok.1 h
        obtain ⟨done, hend, h⟩ := bind_eq_ok.1 h
        split at h
        · cases h
        · next hne =>
            cases h
            obtain ⟨groups, hgroups, htail, hdigits, -⟩ :=
              scanDigitRun_inv hrun (checkRunEnd_ok hend) hne
            refine ⟨some groups, fun _ heq => Option.some.inj heq ▸ hgroups, ?_, ?_⟩
            · rw [hrest, htail]
              rfl
            · rw [hdigits]
              rfl
  · cases h
    exact ⟨none, fun _ heq => (by cases heq), rfl, rfl⟩

theorem scanExponentSign_inv {text after : List Char} {sign : NumericExponentSign}
    (h : scanExponentSign text = (sign, after)) : text = exponentSignText sign ++ after := by
  rw [scanExponentSign.eq_def] at h
  split at h <;> cases h <;> rfl

theorem scanExponent_inv {text rest : List Char}
    {exponent : Option (NumericExponentSign × List Char)}
    (h : scanExponent text = .ok (exponent, rest)) :
    ∃ spelled : Option (NumericExponentSign × List Char),
      (∀ sign groups, spelled = some (sign, groups) → DigitGroups groups) ∧
      text = exponentText spelled ++ rest ∧
      exponent = spelled.map fun parts => (parts.1, unseparated parts.2) := by
  rw [scanExponent.eq_def] at h
  split at h
  · cases h
  · next tail =>
      rcases hsign : scanExponentSign tail with ⟨sign, after⟩
      rw [hsign] at h
      simp only at h
      obtain ⟨inner, hrun, h⟩ := bind_eq_ok.1 h
      obtain ⟨done, hend, h⟩ := bind_eq_ok.1 h
      split at h
      · cases h
      · next hne =>
          cases h
          obtain ⟨groups, hgroups, htail, hdigits, -⟩ :=
            scanDigitRun_inv hrun (checkRunEnd_ok hend) hne
          refine ⟨some (sign, groups), fun _ _ heq => ?_, ?_, ?_⟩
          · cases heq
            exact hgroups
          · rw [exponentText, List.cons_append, List.append_assoc, ← htail,
              ← scanExponentSign_inv hsign]
          · rw [hdigits]
            rfl
  · cases h
    exact ⟨none, fun _ _ heq => (by cases heq), rfl, rfl⟩

theorem stopsRun_exponentText (exponent : Option (NumericExponentSign × List Char)) :
    StopsRun (exponentText exponent) := by
  cases exponent with
  | none => exact stopsRun_nil
  | some parts => exact stopsRun_cons rfl (by decide)

theorem stopsRun_fractionText (fraction : Option (List Char))
    (exponent : Option (NumericExponentSign × List Char)) :
    StopsRun (fractionText fraction ++ exponentText exponent) := by
  cases fraction with
  | none => exact stopsRun_exponentText exponent
  | some digits => exact stopsRun_cons rfl (by decide)

theorem scanFraction_text {digits : List Char} (fraction : Option (List Char))
    (exponent : Option (NumericExponentSign × List Char))
    (hf : ∀ groups, fraction = some groups → DigitGroups groups) :
    scanFraction ⟨digits, true, false, fractionText fraction ++ exponentText exponent⟩ =
      .ok (fraction.map unseparated, exponentText exponent) := by
  cases fraction with
  | none =>
      cases exponent with
      | none => rfl
      | some parts => rfl
  | some groups =>
      have hd := hf groups rfl
      have hrun := scanDigitRun_groups (a := false) (b := false) hd
        (stopsRun_exponentText exponent)
      simp only [scanFraction, fractionText, List.cons_append, Bool.not_true, Bool.false_eq_true,
        if_false, hrun, ok_bind, checkRunEnd, if_neg hd.isDigits.ne_nil, Option.map_some]

theorem scanExponentSign_text (sign : NumericExponentSign) {groups : List Char}
    (hd : DigitGroups groups) :
    scanExponentSign (exponentSignText sign ++ groups) = (sign, groups) := by
  cases sign with
  | Positive => rfl
  | Negative => rfl
  | None =>
      obtain ⟨c, tail, rfl, hc, -⟩ := digitGroups_iff.1 hd
      have hplus : c ≠ '+' := ne_of_isDigit hc rfl
      have hminus : c ≠ '-' := ne_of_isDigit hc rfl
      simp [scanExponentSign, exponentSignText, hplus, hminus]

theorem scanExponent_text (exponent : Option (NumericExponentSign × List Char))
    (he : ∀ sign groups, exponent = some (sign, groups) → DigitGroups groups) :
    scanExponent (exponentText exponent) =
      .ok (exponent.map fun parts => (parts.1, unseparated parts.2), []) := by
  cases exponent with
  | none => rfl
  | some parts =>
      obtain ⟨sign, groups⟩ := parts
      have hd := he sign groups rfl
      have hrun := scanDigitRun_groups (a := false) (b := false) hd stopsRun_nil
      rw [List.append_nil] at hrun
      simp only [scanExponent, exponentText, scanExponentSign_text sign hd, hrun, ok_bind,
        checkRunEnd, Bool.false_eq_true, if_false, if_neg hd.isDigits.ne_nil, Option.map_some]

/-! ## The grammar -/

/-- The parts of an unsigned numeric spelling, separators kept. -/
structure NumericSpelling where
  integer : List Char
  fraction : Option (List Char)
  exponent : Option (NumericExponentSign × List Char)
  integer_ok : DigitGroups integer
  fraction_ok : ∀ groups, fraction = some groups → DigitGroups groups
  exponent_ok : ∀ sign groups, exponent = some (sign, groups) → DigitGroups groups

namespace NumericSpelling

def text (s : NumericSpelling) : List Char :=
  s.integer ++ fractionText s.fraction ++ exponentText s.exponent

theorem fraction_isDigits (s : NumericSpelling) (digits : List Char)
    (h : s.fraction.map unseparated = some digits) : IsDigits digits := by
  obtain ⟨groups, hgroups, rfl⟩ := Option.map_eq_some_iff.1 h
  exact (s.fraction_ok groups hgroups).isDigits

theorem exponent_isDigits (s : NumericSpelling) (sign : NumericExponentSign) (digits : List Char)
    (h : (s.exponent.map fun parts => (parts.1, unseparated parts.2)) = some (sign, digits)) :
    IsDigits digits := by
  obtain ⟨parts, hparts, heq⟩ := Option.map_eq_some_iff.1 h
  cases heq
  exact (s.exponent_ok _ parts.2 hparts).isDigits

/-- The spelling with its separators dropped. -/
def normalized (s : NumericSpelling) : NormalizedDecimal where
  integer := unseparated s.integer
  fraction := s.fraction.map unseparated
  exponent := s.exponent.map fun parts => (parts.1, unseparated parts.2)
  integer_ok := s.integer_ok.isDigits
  fraction_ok := s.fraction_isDigits
  exponent_ok := s.exponent_isDigits

theorem unseparated_exponentSignText (sign : NumericExponentSign) :
    unseparated (exponentSignText sign) = exponentSignText sign := by
  cases sign <;> rfl

theorem normalized_text (s : NumericSpelling) : s.normalized.text = unseparated s.text := by
  have hfraction : unseparated (fractionText s.fraction) =
      fractionText (s.fraction.map unseparated) := by
    cases s.fraction with
    | none => rfl
    | some groups => exact unseparated_cons (by decide) groups
  have hexponent : unseparated (exponentText s.exponent) =
      exponentText (s.exponent.map fun parts => (parts.1, unseparated parts.2)) := by
    cases s.exponent with
    | none => rfl
    | some parts =>
        rw [exponentText, unseparated_cons (by decide), unseparated_append,
          unseparated_exponentSignText]
        rfl
  rw [text, unseparated_append, unseparated_append, hfraction, hexponent]
  rfl

end NumericSpelling

namespace NormalizedDecimal

/-- What the parser reports of a normalized spelling. -/
def described (d : NormalizedDecimal) : ParsedNumericLiteral where
  normalizedText := d.text
  kind :=
    if d.exponent.isSome then .Exponent
    else if d.fraction.isSome then .DecimalPoint
    else .WholeNumber
  digitCount := d.text.countP Char.isDigit
  fractionalDigitCount := d.fractionDigits.length
  exponentDigitCount := ((d.exponent.map Prod.snd).getD []).length
  exponentSign := (d.exponent.map Prod.fst).getD .None

/-- A normalized spelling is a spelling without separators. -/
def spelling (d : NormalizedDecimal) : NumericSpelling where
  integer := d.integer
  fraction := d.fraction
  exponent := d.exponent
  integer_ok := .digits d.integer_ok
  fraction_ok := fun digits h => .digits (d.fraction_ok digits h)
  exponent_ok := fun sign digits h => .digits (d.exponent_ok sign digits h)

theorem normalized_spelling (d : NormalizedDecimal) : d.spelling.normalized = d := by
  obtain ⟨integer, fraction, exponent, hint, hfrac, hexp⟩ := d
  have hfraction : fraction.map unseparated = fraction := by
    cases fraction with
    | none => rfl
    | some digits => exact congrArg some (unseparated_digits (hfrac digits rfl).isDigit)
  have hexponent : (exponent.map fun parts => (parts.1, unseparated parts.2)) = exponent := by
    cases exponent with
    | none => rfl
    | some parts =>
        have hdigits := unseparated_digits (hexp parts.1 parts.2 rfl).isDigit
        exact congrArg some (Prod.ext rfl hdigits)
  simp only [spelling, NumericSpelling.normalized, unseparated_digits hint.isDigit, hfraction,
    hexponent]

theorem countP_digits {digits : List Char} (h : ∀ c ∈ digits, c.isDigit = true) :
    digits.countP Char.isDigit = digits.length := List.countP_eq_length.2 h

theorem countP_text (d : NormalizedDecimal) :
    d.text.countP Char.isDigit = d.integer.length + d.fractionDigits.length +
      ((d.exponent.map Prod.snd).getD []).length := by
  have hfraction : (fractionText d.fraction).countP Char.isDigit = d.fractionDigits.length := by
    have hdigits := countP_digits d.isDigit_fractionDigits
    rw [← hdigits]
    cases hf : d.fraction with
    | none => simp [fractionText, fractionDigits, hf]
    | some digits => simp [fractionText, fractionDigits, hf]
  have hexponent : (exponentText d.exponent).countP Char.isDigit =
      ((d.exponent.map Prod.snd).getD []).length := by
    cases hexp : d.exponent with
    | none => rfl
    | some parts =>
        have hdigits := countP_digits (d.exponent_ok parts.1 parts.2 hexp).isDigit
        have hsign : (exponentSignText parts.1).countP Char.isDigit = 0 := by
          cases parts.1 <;> rfl
        rw [exponentText, List.countP_cons, List.countP_append, hdigits, hsign]
        simp
  rw [text, List.countP_append, List.countP_append, countP_digits d.integer_ok.isDigit, hfraction,
    hexponent]

end NormalizedDecimal

/-- Below the length limit the parser reads a spelling and describes its normalized form. -/
theorem parseNumericLiteral_spelling (s : NumericSpelling)
    (hlen : byteLength s.text ≤ numericInputMax) :
    parseNumericLiteral s.text = .ok s.normalized.described := by
  have hrun := scanDigitRun_groups (a := false) (b := false) s.integer_ok
    (stopsRun_fractionText s.fraction s.exponent)
  have hexponent : ∀ exponent : Option (NumericExponentSign × List Char),
      (∀ sign digits, exponent = some (sign, digits) → IsDigits digits) →
      (0 < ((exponent.map Prod.snd).getD []).length ↔ exponent.isSome = true) := by
    intro exponent hdigits
    cases exponent with
    | none => simp
    | some parts => simpa using List.length_pos_of_ne_nil (hdigits _ _ rfl).ne_nil
  have hkind := hexponent _ s.exponent_isDigits
  have hcount := s.normalized.countP_text
  unfold parseNumericLiteral
  rw [checkNumericInputLength, if_pos hlen, ok_bind]
  unfold NumericSpelling.text
  rw [List.append_assoc, hrun, ok_bind]
  simp only [if_neg s.integer_ok.isDigits.ne_nil, checkRunEnd, Bool.false_eq_true, if_false,
    ok_bind, scanFraction_text s.fraction s.exponent s.fraction_ok,
    scanExponent_text s.exponent s.exponent_ok, ne_eq, not_true_eq_false, gt_iff_lt, hkind]
  simp only [NormalizedDecimal.described, hcount]
  rfl

/-- What the parser accepts is a spelling, and the answer describes its normalized form. -/
theorem parseNumericLiteral_inv {source : List Char} {parsed : ParsedNumericLiteral}
    (h : parseNumericLiteral source = .ok parsed) :
    ∃ s : NumericSpelling, s.text = source ∧ parsed = s.normalized.described := by
  have haccepted := h
  unfold parseNumericLiteral at h
  obtain ⟨checked, hlength, h⟩ := bind_eq_ok.1 h
  obtain ⟨integer, hint, h⟩ := bind_eq_ok.1 h
  split at h
  · cases h
  · next hne =>
      obtain ⟨done, hend, h⟩ := bind_eq_ok.1 h
      obtain ⟨⟨fraction, rest⟩, hfrac, h⟩ := bind_eq_ok.1 h
      obtain ⟨⟨exponent, rest'⟩, hexp, h⟩ := bind_eq_ok.1 h
      simp only at h
      split at h
      · cases h
      · next hrest =>
          obtain ⟨groups, hgroups, hsource, -, -⟩ :=
            scanDigitRun_inv hint (checkRunEnd_ok hend) hne
          obtain ⟨spelledFraction, hfractionOk, hafterInteger, -⟩ := scanFraction_inv hfrac
          obtain ⟨spelledExponent, hexponentOk, hafterFraction, -⟩ := scanExponent_inv hexp
          have htext : groups ++ fractionText spelledFraction ++ exponentText spelledExponent =
              source := by
            rw [hsource, hafterInteger, hafterFraction, not_not.1 hrest, List.append_nil,
              List.append_assoc]
          have hlen : byteLength source ≤ numericInputMax := by
            rw [checkNumericInputLength] at hlength
            split at hlength
            · assumption
            · cases hlength
          -- the spelling is read back, which gives the description
          let s : NumericSpelling :=
            ⟨groups, spelledFraction, spelledExponent, hgroups, hfractionOk, hexponentOk⟩
          have hs : s.text = source := htext
          have hparse := parseNumericLiteral_spelling s (by rw [hs]; exact hlen)
          rw [hs, haccepted] at hparse
          exact ⟨s, hs, Except.ok.inj hparse⟩

theorem parseNumericLiteral_text (d : NormalizedDecimal)
    (hlen : byteLength d.text ≤ numericInputMax) :
    parseNumericLiteral d.text = .ok d.described := by
  have hparse := parseNumericLiteral_spelling d.spelling hlen
  rw [d.normalized_spelling] at hparse
  exact hparse

theorem parseNumericLiteral_overflow {source : List Char}
    (hlen : numericInputMax < byteLength source) :
    parseNumericLiteral source = .error .ParseOverflow := by
  unfold parseNumericLiteral
  rw [checkNumericInputLength, if_neg (not_le.2 hlen), error_bind]

/-- The parser accepts the numeric grammar and nothing else. Its answer is the source without
separators, described by its parts, and the parser answers the same when it reads that text. -/
theorem parseNumericLiteral_exact {source : List Char} (hlen : byteLength source < numericInputMax) :
    ((∃ parsed, parseNumericLiteral source = .ok parsed) ↔
      ∃ s : NumericSpelling, s.text = source) ∧
    ∀ parsed, parseNumericLiteral source = .ok parsed →
      parsed.normalizedText = source.filter (fun c => !isDigitSeparator c) ∧
      (∃ d : NormalizedDecimal, d.text = parsed.normalizedText ∧ parsed = d.described) ∧
      parseNumericLiteral parsed.normalizedText = .ok parsed := by
  constructor
  · constructor
    · intro h
      obtain ⟨parsed, hparsed⟩ := h
      obtain ⟨s, hs, -⟩ := parseNumericLiteral_inv hparsed
      exact ⟨s, hs⟩
    · intro h
      obtain ⟨s, rfl⟩ := h
      exact ⟨_, parseNumericLiteral_spelling s (Nat.le_of_lt hlen)⟩
  · intro parsed hparsed
    obtain ⟨s, rfl, rfl⟩ := parseNumericLiteral_inv hparsed
    have hshort : byteLength s.normalized.text ≤ numericInputMax := by
      have hsub := byteLength_unseparated s.text
      rw [← s.normalized_text] at hsub
      omega
    exact ⟨s.normalized_text, ⟨s.normalized, rfl, rfl⟩, parseNumericLiteral_text _ hshort⟩

theorem parseNumericLiteral_exact_grouped :
    (∃ s : NumericSpelling, s.text = "1_0.5e-3".toList) ∧
      ∃ parsed, parseNumericLiteral "1_0.5e-3".toList = .ok parsed ∧
        parsed.normalizedText = "10.5e-3".toList ∧
        parseNumericLiteral parsed.normalizedText = .ok parsed := by
  have hlen : byteLength "1_0.5e-3".toList < numericInputMax := by decide
  obtain ⟨haccepts, hanswer⟩ := parseNumericLiteral_exact hlen
  have hparsed : ∃ parsed, parseNumericLiteral "1_0.5e-3".toList = .ok parsed := ⟨_, rfl⟩
  refine ⟨haccepts.1 hparsed, ?_⟩
  obtain ⟨parsed, hparsed⟩ := hparsed
  obtain ⟨htext, -, hagain⟩ := hanswer parsed hparsed
  exact ⟨parsed, hparsed, htext, hagain⟩

end Moth.Lexical
