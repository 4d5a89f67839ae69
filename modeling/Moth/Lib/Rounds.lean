import Mathlib.Data.List.Perm.Basic

/-!
# Rounds until nothing changes

A round recomputes a state and says whether it changed anything. Rounds repeat
until one changes nothing, at most a given number of times; running out is an
error of its own. A round may also fail.

`inPlace` is the round that visits a list of nodes in order, each visit seeing
what the earlier ones wrote. Where visits only move a state up, and a visit
that succeeds above a state succeeds below it with no more, the state that is
left does not depend on the order of the nodes: it is the least one above the
start that no visit changes.
-/

namespace Moth.Lib

section Loop

variable {σ ε : Type} (round : σ → Except ε (σ × Bool)) (exhausted : ε)

/-- Repeat a round until one changes nothing, at most `fuel` times. -/
def rounds : Nat → σ → Except ε σ
  | 0, _ => .error exhausted
  | fuel + 1, state =>
      match round state with
      | .error e => .error e
      | .ok (next, true) => rounds fuel next
      | .ok (next, false) => .ok next

variable {round exhausted}

theorem rounds_settled {P : σ → Prop}
    (hround : ∀ state next changed, P state → round state = .ok (next, changed) → P next)
    {fuel : Nat} {state final : σ} (hstate : P state)
    (h : rounds round exhausted fuel state = .ok final) :
    ∃ last, P last ∧ round last = .ok (final, false) := by
  induction fuel generalizing state with
  | zero => cases h
  | succ fuel ih =>
      rw [rounds] at h
      split at h
      · cases h
      · next next hnext => exact ih (hround state next true hstate hnext) h
      · next next hnext =>
          cases h
          exact ⟨state, hstate, hnext⟩

/-- Enough rounds: each one that changes something uses one of those the start may still take. -/
theorem rounds_error {P : Nat → σ → Prop}
    (hround : ∀ n state next, P n state → round state = .ok (next, true) →
      ∃ m, n = m + 1 ∧ P m next)
    {n fuel : Nat} {state : σ} {e : ε} (hstate : P n state) (hfuel : n < fuel)
    (h : rounds round exhausted fuel state = .error e) :
    ∃ m last, P m last ∧ round last = .error e := by
  induction fuel generalizing n state with
  | zero => exact absurd hfuel (Nat.not_lt_zero n)
  | succ fuel ih =>
      rw [rounds] at h
      split at h
      · next e' hfail =>
          cases h
          exact ⟨n, state, hstate, hfail⟩
      · next next hnext =>
          obtain ⟨m, hm, hkept⟩ := hround n state next hstate hnext
          have hless : m < fuel := by omega
          exact ih hkept hless h
      · cases h

/-- Rounds that agree up to their errors lead to the same state. -/
theorem rounds_toOption_congr {round' : σ → Except ε (σ × Bool)} {P : σ → Prop}
    (hround : ∀ state next changed, P state → round state = .ok (next, changed) → P next)
    (hsame : ∀ state, P state → (round state).toOption = (round' state).toOption)
    (fuel : Nat) {state : σ} (hstate : P state) :
    (rounds round exhausted fuel state).toOption =
      (rounds round' exhausted fuel state).toOption := by
  induction fuel generalizing state with
  | zero => rfl
  | succ fuel ih =>
      have heq := hsame state hstate
      rw [rounds, rounds]
      cases hleft : round state with
      | error e =>
          cases hright : round' state with
          | error e' => rfl
          | ok answer =>
              rw [hleft, hright] at heq
              cases heq
      | ok answer =>
          cases hright : round' state with
          | error e' =>
              rw [hleft, hright] at heq
              cases heq
          | ok answer' =>
              rw [hleft, hright] at heq
              cases heq
              obtain ⟨next, changed⟩ := answer
              cases changed with
              | true => exact ih (hround state next true hstate hleft)
              | false => rfl

end Loop

section InPlace

variable {ν σ ε : Type} (step : ν → σ → Except ε (σ × Bool))

/-- Visit the nodes in order, with whether any visit changed the state. -/
def inPlace : List ν → σ → Except ε (σ × Bool)
  | [], state => .ok (state, false)
  | node :: rest, state =>
      match step node state with
      | .error e => .error e
      | .ok (next, changed) =>
          match inPlace rest next with
          | .error e => .error e
          | .ok (final, later) => .ok (final, changed || later)

variable {step}

theorem inPlace_cons_ok {node : ν} {rest : List ν} {state final : σ} {changed : Bool} :
    inPlace step (node :: rest) state = .ok (final, changed) ↔
      ∃ next first later, step node state = .ok (next, first) ∧
        inPlace step rest next = .ok (final, later) ∧ changed = (first || later) := by
  rw [inPlace]
  constructor
  · intro h
    split at h
    · cases h
    · next next first hfirst =>
        split at h
        · cases h
        · next final' later hlater =>
            cases h
            exact ⟨next, first, later, hfirst, hlater, rfl⟩
  · intro h
    obtain ⟨next, first, later, hfirst, hlater, hchanged⟩ := h
    rw [hfirst]
    simp only
    rw [hlater, hchanged]

theorem inPlace_induction {P : σ → Prop} {nodes : List ν}
    (hstep : ∀ node ∈ nodes, ∀ state next changed, P state →
      step node state = .ok (next, changed) → P next)
    {state final : σ} {changed : Bool} (hstate : P state)
    (h : inPlace step nodes state = .ok (final, changed)) : P final := by
  induction nodes generalizing state changed with
  | nil =>
      cases h
      exact hstate
  | cons node rest ih =>
      obtain ⟨next, first, later, hfirst, hlater, -⟩ := inPlace_cons_ok.1 h
      have hnext := hstep node List.mem_cons_self state next first hstate hfirst
      exact ih (fun other hmem => hstep other (List.mem_cons_of_mem _ hmem)) hnext hlater

/-- A failure is one visit's, from a state with what the visits keep. -/
theorem inPlace_error {P : σ → Prop} {nodes : List ν}
    (hstep : ∀ node ∈ nodes, ∀ state next changed, P state →
      step node state = .ok (next, changed) → P next)
    {state : σ} {e : ε} (hstate : P state) (h : inPlace step nodes state = .error e) :
    ∃ node ∈ nodes, ∃ last, P last ∧ step node last = .error e := by
  induction nodes generalizing state with
  | nil => cases h
  | cons node rest ih =>
      rw [inPlace] at h
      split at h
      · next e' hfail =>
          cases h
          exact ⟨node, List.mem_cons_self, state, hstate, hfail⟩
      · next next first hfirst =>
          have hnext := hstep node List.mem_cons_self state next first hstate hfirst
          split at h
          · next e' hlater =>
              cases h
              obtain ⟨other, hmem, hfound⟩ :=
                ih (fun o ho => hstep o (List.mem_cons_of_mem _ ho)) hnext hlater
              exact ⟨other, List.mem_cons_of_mem _ hmem, hfound⟩
          · cases h

/-- A measure that visits never raise, and that a visit with a change lowers. -/
theorem inPlace_measure {P : σ → Prop} {measure : σ → Nat} {nodes : List ν}
    (hstep : ∀ node ∈ nodes, ∀ state next changed, P state →
      step node state = .ok (next, changed) →
        P next ∧ measure next ≤ measure state ∧ (changed = true → measure next < measure state))
    {state final : σ} {changed : Bool} (hstate : P state)
    (h : inPlace step nodes state = .ok (final, changed)) :
    measure final ≤ measure state ∧ (changed = true → measure final < measure state) := by
  induction nodes generalizing state changed with
  | nil =>
      cases h
      exact ⟨Nat.le_refl _, fun hfalse => by cases hfalse⟩
  | cons node rest ih =>
      obtain ⟨next, first, later, hfirst, hlater, hchanged⟩ := inPlace_cons_ok.1 h
      obtain ⟨hnext, hle, hlt⟩ := hstep node List.mem_cons_self state next first hstate hfirst
      obtain ⟨hle', hlt'⟩ :=
        ih (fun other hmem => hstep other (List.mem_cons_of_mem _ hmem)) hnext hlater
      refine ⟨Nat.le_trans hle' hle, fun htrue => ?_⟩
      rw [hchanged, Bool.or_eq_true] at htrue
      cases htrue with
      | inl hf => exact Nat.lt_of_le_of_lt hle' (hlt hf)
      | inr hl => exact Nat.lt_of_lt_of_le (hlt' hl) hle

/-- A pass without a change leaves the state, and so does every visit of it. -/
theorem inPlace_unchanged {nodes : List ν}
    (hstep : ∀ node state next, step node state = .ok (next, false) → next = state)
    {state final : σ} (h : inPlace step nodes state = .ok (final, false)) :
    final = state ∧ ∀ node ∈ nodes, step node state = .ok (state, false) := by
  induction nodes generalizing state with
  | nil =>
      cases h
      exact ⟨rfl, fun _ hmem => absurd hmem List.not_mem_nil⟩
  | cons node rest ih =>
      obtain ⟨next, first, later, hfirst, hlater, hchanged⟩ := inPlace_cons_ok.1 h
      obtain ⟨hf, hl⟩ := Bool.or_eq_false_iff.1 hchanged.symm
      subst hf hl
      have hsame := hstep node state next hfirst
      subst hsame
      obtain ⟨hfinal, hrest⟩ := ih hlater
      refine ⟨hfinal, fun other hmem => ?_⟩
      cases List.mem_cons.1 hmem with
      | inl heq =>
          rw [heq]
          exact hfirst
      | inr hin => exact hrest other hin

/-- Visits that only move a state up in an order, and that succeed below where they succeed. -/
structure Advancing (le : σ → σ → Prop) (step : ν → σ → Except ε (σ × Bool)) : Prop where
  refl : ∀ state, le state state
  trans : ∀ {a b c}, le a b → le b c → le a c
  antisymm : ∀ {a b}, le a b → le b a → a = b
  up : ∀ {node state next changed}, step node state = .ok (next, changed) → le state next
  unchanged : ∀ node state next, step node state = .ok (next, false) → next = state
  mono : ∀ {node state above above' changed}, le state above →
    step node above = .ok (above', changed) →
      ∃ next changed', step node state = .ok (next, changed') ∧ le next above'

variable {le : σ → σ → Prop} {exhausted : ε}

theorem Advancing.inPlace_below (h : Advancing le step) {nodes : List ν} {state fixed : σ}
    (hfixed : ∀ node ∈ nodes, step node fixed = .ok (fixed, false)) (hle : le state fixed) :
    ∃ final changed, inPlace step nodes state = .ok (final, changed) ∧ le final fixed := by
  induction nodes generalizing state with
  | nil => exact ⟨state, false, rfl, hle⟩
  | cons node rest ih =>
      obtain ⟨next, first, hfirst, hnext⟩ := h.mono hle (hfixed node List.mem_cons_self)
      obtain ⟨final, later, hlater, hfinal⟩ :=
        ih (fun other hmem => hfixed other (List.mem_cons_of_mem _ hmem)) hnext
      exact ⟨final, _, inPlace_cons_ok.2 ⟨next, first, later, hfirst, hlater, rfl⟩, hfinal⟩

theorem Advancing.rounds_below (h : Advancing le step) {nodes : List ν} {fixed : σ}
    (hfixed : ∀ node ∈ nodes, step node fixed = .ok (fixed, false)) {fuel : Nat} {state : σ}
    (hle : le state fixed)
    (hfuel : rounds (inPlace step nodes) exhausted fuel state ≠ .error exhausted) :
    ∃ final, rounds (inPlace step nodes) exhausted fuel state = .ok final ∧ le final fixed := by
  induction fuel generalizing state with
  | zero => exact absurd rfl hfuel
  | succ fuel ih =>
      obtain ⟨next, changed, hpass, hnext⟩ := h.inPlace_below hfixed hle
      rw [rounds, hpass] at hfuel ⊢
      cases changed with
      | true => exact ih hnext hfuel
      | false => exact ⟨next, rfl, hnext⟩

theorem Advancing.rounds_fixed (h : Advancing le step) {nodes : List ν} {fuel : Nat}
    {start final : σ} (hrun : rounds (inPlace step nodes) exhausted fuel start = .ok final) :
    le start final ∧ ∀ node ∈ nodes, step node final = .ok (final, false) := by
  obtain ⟨last, hlast, hround⟩ := rounds_settled (P := le start)
    (fun state next changed hs hr => inPlace_induction
      (fun node _ a b c ha hb => h.trans ha (h.up hb)) hs hr) (h.refl start) hrun
  obtain ⟨heq, hfixed⟩ := inPlace_unchanged h.unchanged hround
  rw [heq]
  exact ⟨hlast, hfixed⟩

/-- A run that finishes, finishes over another list of the same nodes with the same state. -/
theorem Advancing.rounds_same (h : Advancing le step) {nodes nodes' : List ν}
    (hnodes : ∀ node, node ∈ nodes ↔ node ∈ nodes') {fuel fuel' : Nat} {start final : σ}
    (hfuel' : rounds (inPlace step nodes') exhausted fuel' start ≠ .error exhausted)
    (hrun : rounds (inPlace step nodes) exhausted fuel start = .ok final) :
    rounds (inPlace step nodes') exhausted fuel' start = .ok final := by
  have hfuel : rounds (inPlace step nodes) exhausted fuel start ≠ .error exhausted := by
    rw [hrun]
    intro hfalse
    cases hfalse
  obtain ⟨hle, hfixed⟩ := h.rounds_fixed hrun
  obtain ⟨final', hrun', hbelow'⟩ := h.rounds_below
    (fun node hmem => hfixed node ((hnodes node).2 hmem)) hle hfuel'
  obtain ⟨hle', hfixed'⟩ := h.rounds_fixed hrun'
  obtain ⟨again, hagain, hbelow⟩ := h.rounds_below
    (fun node hmem => hfixed' node ((hnodes node).1 hmem)) hle' hfuel
  rw [hrun] at hagain
  cases hagain
  rw [hrun', h.antisymm hbelow hbelow']

theorem Advancing.rounds_order (h : Advancing le step) {nodes nodes' : List ν}
    (hnodes : ∀ node, node ∈ nodes ↔ node ∈ nodes') {fuel fuel' : Nat} {start : σ}
    (hfuel : rounds (inPlace step nodes) exhausted fuel start ≠ .error exhausted)
    (hfuel' : rounds (inPlace step nodes') exhausted fuel' start ≠ .error exhausted) :
    (rounds (inPlace step nodes) exhausted fuel start).toOption =
      (rounds (inPlace step nodes') exhausted fuel' start).toOption := by
  cases hrun : rounds (inPlace step nodes) exhausted fuel start with
  | ok final => rw [h.rounds_same hnodes hfuel' hrun]
  | error e =>
      cases hrun' : rounds (inPlace step nodes') exhausted fuel' start with
      | error e' => rfl
      | ok final' =>
          rw [h.rounds_same (fun node => (hnodes node).symm) hfuel hrun'] at hrun
          cases hrun

end InPlace

end Moth.Lib
