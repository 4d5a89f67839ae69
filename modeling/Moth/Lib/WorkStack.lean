import Mathlib.Control.Lawful

/-!
# Recursion on an explicit stack

A stack of work above a stack of results. A step reads the results, replaces
them, and pushes more steps; it may change a state and it may fail.

`Yields` says what a block of steps does wherever it lies on the stack: it
turns the results below it into what a computation returns, or stops the whole
run where the computation fails. Blocks compose as the computations do, so a
recursion that was unrolled onto the stack is put together again rule by rule,
with no mention of the rest of the stack or of fuel.
-/

namespace Moth.Lib

/-- Computations over a state that may fail. A failure keeps the state it failed in. -/
abbrev Staged (σ ε α : Type) : Type := ExceptT ε (StateM σ) α

namespace Staged

variable {σ ε α β : Type}

/-- What the computation does to a state. -/
def runFrom (x : Staged σ ε α) (s : σ) : Except ε α × σ := x s

@[simp] theorem runFrom_pure (a : α) (s : σ) :
    runFrom (pure a : Staged σ ε α) s = (.ok a, s) := rfl

@[simp] theorem runFrom_throw (e : ε) (s : σ) :
    runFrom (throw e : Staged σ ε α) s = (.error e, s) := rfl

theorem runFrom_bind (x : Staged σ ε α) (f : α → Staged σ ε β) (s : σ) :
    runFrom (x >>= f) s =
      match runFrom x s with
      | (.ok a, s') => runFrom (f a) s'
      | (.error e, s') => (.error e, s') := by
  show ExceptT.bindCont f (x s).1 (x s).2 = _
  rw [runFrom]
  rcases x s with ⟨_ | _, _⟩ <;> rfl

theorem bind_ok {x : Staged σ ε α} {f : α → Staged σ ε β} {s s' : σ} {a : α}
    (h : runFrom x s = (.ok a, s')) : runFrom (x >>= f) s = runFrom (f a) s' := by
  rw [runFrom_bind, h]

theorem bind_error {x : Staged σ ε α} {f : α → Staged σ ε β} {s s' : σ} {e : ε}
    (h : runFrom x s = (.error e, s')) : runFrom (x >>= f) s = (.error e, s') := by
  rw [runFrom_bind, h]

theorem bind_eq_ok {x : Staged σ ε α} {f : α → Staged σ ε β} {s s' : σ} {b : β} :
    runFrom (x >>= f) s = (.ok b, s') ↔
      ∃ a mid, runFrom x s = (.ok a, mid) ∧ runFrom (f a) mid = (.ok b, s') := by
  rw [runFrom_bind]
  rcases hx : runFrom x s with ⟨e | a, mid⟩
  · simp
  · constructor
    · intro h
      exact ⟨a, mid, rfl, h⟩
    · intro h
      obtain ⟨a', mid', heq, hf⟩ := h
      cases heq
      exact hf

theorem bind_eq_error {x : Staged σ ε α} {f : α → Staged σ ε β} {s s' : σ} {e : ε} :
    runFrom (x >>= f) s = (.error e, s') ↔ runFrom x s = (.error e, s') ∨
      ∃ a mid, runFrom x s = (.ok a, mid) ∧ runFrom (f a) mid = (.error e, s') := by
  rw [runFrom_bind]
  rcases hx : runFrom x s with ⟨failure | a, mid⟩
  · simp
  · constructor
    · intro h
      exact .inr ⟨a, mid, rfl, h⟩
    · intro h
      rcases h with h | ⟨a', mid', heq, hf⟩
      · cases h
      · cases heq
        exact hf

end Staged

open Staged

section Machine

variable {Step V σ ε : Type} (exec : Step → List V → Staged σ ε (List Step × List V))

/-- Take steps off the stack until none is left or one fails. -/
def runSteps : Nat → List Step → List V → σ → Option (Except ε (List V) × σ)
  | _, [], results, s => some (.ok results, s)
  | 0, _ :: _, _, _ => none
  | fuel + 1, step :: rest, results, s =>
      match runFrom (exec step results) s with
      | (.ok (pushed, results), s) => runSteps fuel (pushed ++ rest) results s
      | (.error e, s) => some (.error e, s)

/-- The run ends, with this outcome. -/
def Runs (steps : List Step) (results : List V) (s : σ) (out : Except ε (List V) × σ) : Prop :=
  ∃ fuel, runSteps exec fuel steps results s = some out

variable {exec}

theorem runSteps_mono {fuel more : Nat} (hle : fuel ≤ more) {steps : List Step}
    {results : List V} {s : σ} {out : Except ε (List V) × σ}
    (h : runSteps exec fuel steps results s = some out) :
    runSteps exec more steps results s = some out := by
  induction fuel generalizing more steps results s with
  | zero =>
      cases steps with
      | nil => cases more <;> exact h
      | cons step rest => cases h
  | succ fuel ih =>
      cases steps with
      | nil => cases more <;> exact h
      | cons step rest =>
          obtain ⟨more, rfl⟩ : ∃ m, more = m + 1 := ⟨more - 1, by omega⟩
          rw [runSteps] at h ⊢
          rcases hstep : runFrom (exec step results) s with ⟨e | ⟨pushed, results'⟩, s'⟩
          · rw [hstep] at h
            exact h
          · rw [hstep] at h
            exact ih (by omega) h

theorem Runs.nil (results : List V) (s : σ) : Runs exec [] results s (.ok results, s) := ⟨0, rfl⟩

theorem Runs.step {step : Step} {pushed rest : List Step} {results results' : List V} {s s' : σ}
    {out : Except ε (List V) × σ}
    (hstep : runFrom (exec step results) s = (.ok (pushed, results'), s'))
    (h : Runs exec (pushed ++ rest) results' s' out) :
    Runs exec (step :: rest) results s out := by
  obtain ⟨fuel, hrun⟩ := h
  refine ⟨fuel + 1, ?_⟩
  rw [runSteps, hstep]
  exact hrun

theorem Runs.fail {step : Step} {rest : List Step} {results : List V} {s s' : σ} {e : ε}
    (hstep : runFrom (exec step results) s = (.error e, s')) :
    Runs exec (step :: rest) results s (.error e, s') :=
  ⟨1, by rw [runSteps, hstep]⟩

/-- The block of steps turns the results below it into what `x` returns, and stops the run
where `x` fails. -/
structure Yields (exec : Step → List V → Staged σ ε (List Step × List V)) (results : List V)
    (steps : List Step) (x : Staged σ ε (List V)) : Prop where
  ok : ∀ {s s' results'}, runFrom x s = (.ok results', s') → ∀ {rest out},
    Runs exec rest results' s' out → Runs exec (steps ++ rest) results s out
  error : ∀ {s s' e}, runFrom x s = (.error e, s') → ∀ rest,
    Runs exec (steps ++ rest) results s (.error e, s')

namespace Yields

variable {results : List V} {steps more : List Step} {x : Staged σ ε (List V)}

theorem nil : Yields exec results [] (pure results) where
  ok h _ _ hrest := by
    cases h
    exact hrest
  error h := by cases h

theorem append {y : List V → Staged σ ε (List V)} (h : Yields exec results steps x)
    (hmore : ∀ s s' mid, runFrom x s = (.ok mid, s') → Yields exec mid more (y mid)) :
    Yields exec results (steps ++ more) (x >>= y) where
  ok hrun _ _ hrest := by
    obtain ⟨mid, s', hx, hy⟩ := Staged.bind_eq_ok.1 hrun
    rw [List.append_assoc]
    exact h.ok hx ((hmore _ _ mid hx).ok hy hrest)
  error hrun rest := by
    rw [List.append_assoc]
    rcases Staged.bind_eq_error.1 hrun with hx | ⟨mid, s', hx, hy⟩
    · exact h.error hx _
    · exact h.ok hx ((hmore _ _ mid hx).error hy rest)

theorem settle {step : Step} (h : exec step results = x >>= fun next => pure ([], next)) :
    Yields exec results [step] x where
  ok hrun _ _ hrest := by
    refine Runs.step ?_ (show Runs exec ([] ++ _) _ _ _ from hrest)
    rw [h, Staged.bind_ok hrun]
    rfl
  error hrun _ := by
    refine .fail ?_
    rw [h, Staged.bind_error hrun]

theorem runs (h : Yields exec results steps x) (s : σ) :
    Runs exec steps results s (runFrom x s) := by
  rcases hx : runFrom x s with ⟨e | next, s'⟩
  · have := h.error hx []
    rwa [List.append_nil] at this
  · have := h.ok hx (Runs.nil next s')
    rwa [List.append_nil] at this

theorem decided {step : Step} {α : Type} {y : Staged σ ε α} {next : α → List Step × List V}
    {k : α → Staged σ ε (List V)} (h : exec step results = y >>= fun a => pure (next a))
    (hnext : ∀ a, Yields exec (next a).2 (next a).1 (k a)) :
    Yields exec results [step] (y >>= k) where
  ok hrun _ _ hrest := by
    obtain ⟨a, s', hy, hk⟩ := Staged.bind_eq_ok.1 hrun
    refine Runs.step ?_ ((hnext a).ok hk hrest)
    rw [h, Staged.bind_ok hy]
    rfl
  error hrun rest := by
    rcases Staged.bind_eq_error.1 hrun with hy | ⟨a, s', hy, hk⟩
    · refine .fail ?_
      rw [h, Staged.bind_error hy]
    · refine Runs.step ?_ ((hnext a).error hk rest)
      rw [h, Staged.bind_ok hy]
      rfl

variable {N : Type} {enter : N → Step} {f : N → Staged σ ε V}

theorem entries {nodes : List N}
    (h : ∀ n ∈ nodes, ∀ results, Yields exec results [enter n] (f n >>= fun v =>
      pure (results ++ [v]))) (results : List V) :
    Yields exec results (nodes.map enter) (nodes.mapM f >>= fun vs => pure (results ++ vs)) := by
  induction nodes generalizing results with
  | nil =>
      have hnil : ([].mapM f >>= fun vs => pure (results ++ vs)) =
          (pure results : Staged σ ε (List V)) := by
        rw [List.mapM_nil, pure_bind, List.append_nil]
      rw [hnil]
      exact nil
  | cons n rest ih =>
      have hcons : ((n :: rest).mapM f >>= fun vs => pure (results ++ vs)) =
          (f n >>= fun v => pure (results ++ [v])) >>= fun mid =>
            rest.mapM f >>= fun vs => pure (mid ++ vs) := by
        simp only [List.mapM_cons, bind_assoc, pure_bind, List.append_assoc,
          List.singleton_append]
      rw [hcons]
      exact (h n List.mem_cons_self results).append fun s s' mid _ =>
        ih (fun m hm => h m (List.mem_cons_of_mem _ hm)) mid

end Yields

end Machine

end Moth.Lib

/-!
## Loops over a stack of frames

A loop that pops a frame, changes a state, and pushes further frames, until
the stack is empty or a frame fails. A step that is `none` is a panic, and the
loop has fuel for its turns.

`Handles` says what some frames do wherever they lie on the stack: after some
number of turns they are gone and the state is as wanted, or the loop has
failed with an admitted error. It says with that that the loop gets past them.
Frames are put together in the order in which they are popped, so a recursion
that was turned into frames is verified as the recursion it came from.
-/

namespace Moth.Lib

section FrameLoop

variable {ε σ φ : Type} (step : φ → σ → Option (Except ε (List φ × σ)))

def runFrames : Nat → List φ → σ → Option (Except ε σ)
  | _, [], state => some (.ok state)
  | 0, _ :: _, _ => none
  | fuel + 1, frame :: rest, state =>
      match step frame state with
      | none => none
      | some (.error failure) => some (.error failure)
      | some (.ok (pushed, state)) => runFrames fuel (pushed ++ rest) state

/-- The frames are worked off to a state of `after`, or fail with an error of `admitted`. -/
def Handles (admitted : ε → Prop) (frames : List φ) (state : σ) (after : σ → Prop) : Prop :=
  ∃ turns, (∃ failure, admitted failure ∧
      ∀ fuel rest, runFrames step (turns + fuel) (frames ++ rest) state = some (.error failure)) ∨
    ∃ state', after state' ∧
      ∀ fuel rest, runFrames step (turns + fuel) (frames ++ rest) state
        = runFrames step fuel rest state'

variable {step} {admitted : ε → Prop} {frames more : List φ} {frame : φ} {state state' : σ}
  {after after' : σ → Prop}

theorem Handles.nil (h : after state) : Handles step admitted [] state after := by
  refine ⟨0, Or.inr ⟨state, h, fun fuel rest => ?_⟩⟩
  rw [Nat.zero_add, List.nil_append]

theorem Handles.mono (h : Handles step admitted frames state after)
    (himp : ∀ state, after state → after' state) : Handles step admitted frames state after' := by
  obtain ⟨turns, hfailed | ⟨state', hafter, hrun⟩⟩ := h
  · exact ⟨turns, Or.inl hfailed⟩
  · exact ⟨turns, Or.inr ⟨state', himp state' hafter, hrun⟩⟩

theorem Handles.push {pushed : List φ} (hstep : step frame state = some (.ok (pushed, state')))
    (h : Handles step admitted pushed state' after) :
    Handles step admitted [frame] state after := by
  have hturn : ∀ fuel rest, runFrames step (fuel + 1) ([frame] ++ rest) state
      = runFrames step fuel (pushed ++ rest) state' := by
    intro fuel rest
    rw [List.singleton_append, runFrames, hstep]
  obtain ⟨turns, ⟨failure, hadmitted, hrun⟩ | ⟨final, hafter, hrun⟩⟩ := h
  · refine ⟨turns + 1, Or.inl ⟨failure, hadmitted, fun fuel rest => ?_⟩⟩
    rw [Nat.add_right_comm, hturn, hrun]
  · refine ⟨turns + 1, Or.inr ⟨final, hafter, fun fuel rest => ?_⟩⟩
    rw [Nat.add_right_comm, hturn, hrun]

theorem Handles.done (hstep : step frame state = some (.ok ([], state'))) (h : after state') :
    Handles step admitted [frame] state after :=
  Handles.push hstep (Handles.nil h)

theorem Handles.fail {failure : ε} (hstep : step frame state = some (.error failure))
    (h : admitted failure) : Handles step admitted [frame] state after := by
  refine ⟨1, Or.inl ⟨failure, h, fun fuel rest => ?_⟩⟩
  rw [Nat.add_comm, List.singleton_append, runFrames, hstep]

/-- Frames on top of others are worked off first. -/
theorem Handles.append (h : Handles step admitted frames state after)
    (hmore : ∀ state', after state' → Handles step admitted more state' after') :
    Handles step admitted (frames ++ more) state after' := by
  obtain ⟨turns, ⟨failure, hadmitted, hrun⟩ | ⟨mid, hafter, hrun⟩⟩ := h
  · refine ⟨turns, Or.inl ⟨failure, hadmitted, fun fuel rest => ?_⟩⟩
    rw [List.append_assoc, hrun]
  · obtain ⟨turns', ⟨failure, hadmitted, hrun'⟩ | ⟨final, hafter', hrun'⟩⟩ := hmore mid hafter
    · refine ⟨turns + turns', Or.inl ⟨failure, hadmitted, fun fuel rest => ?_⟩⟩
      rw [List.append_assoc, Nat.add_assoc, hrun, hrun']
    · refine ⟨turns + turns', Or.inr ⟨final, hafter', fun fuel rest => ?_⟩⟩
      rw [List.append_assoc, Nat.add_assoc, hrun, hrun']

theorem Handles.run (h : Handles step admitted frames state after) :
    ∃ turns outcome, (∀ fuel, turns ≤ fuel → runFrames step fuel frames state = some outcome) ∧
      (∀ failure, outcome = .error failure → admitted failure) ∧
      ∀ state', outcome = .ok state' → after state' := by
  obtain ⟨turns, ⟨failure, hadmitted, hrun⟩ | ⟨final, hafter, hrun⟩⟩ := h
  · refine ⟨turns, .error failure, fun fuel hfuel => ?_, fun other heq => ?_, fun other heq => ?_⟩
    · obtain ⟨extra, hextra⟩ := Nat.exists_eq_add_of_le hfuel
      have hall := hrun extra []
      rw [List.append_nil, ← hextra] at hall
      exact hall
    · cases heq
      exact hadmitted
    · cases heq
  · refine ⟨turns, .ok final, fun fuel hfuel => ?_, fun other heq => ?_, fun other heq => ?_⟩
    · obtain ⟨extra, hextra⟩ := Nat.exists_eq_add_of_le hfuel
      have hall := hrun extra []
      rw [List.append_nil, ← hextra] at hall
      rw [hall]
      cases extra with
      | _ => rfl
    · cases heq
    · cases heq
      exact hafter

end FrameLoop

end Moth.Lib
