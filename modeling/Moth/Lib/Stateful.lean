import Mathlib.Data.List.Basic

/-!
# Stateful computations that may fail

A computation reads and changes a state, may fail and keeps the state it failed
in, and may be stuck. `Ensures` says that it is not stuck, and what holds of the
answer or of the failure together with the state. It composes as the computation
does.
-/

namespace Moth.Lib

abbrev Stateful (σ ε α : Type) : Type := ExceptT ε (StateT σ Option) α

namespace Stateful

variable {σ ε α β : Type}

def runFrom (x : Stateful σ ε α) (s : σ) : Option (Except ε α × σ) := x s

/-- A computation without an answer. -/
def stuck : Stateful σ ε α := fun _ => none

/-- Reads the state, or is stuck. -/
def read (f : σ → Option α) : Stateful σ ε α := fun s => (f s).map fun a => (.ok a, s)

/-- Changes the state, or fails and leaves it. -/
def change (f : σ → Except ε (α × σ)) : Stateful σ ε α := fun s =>
  match f s with
  | .ok (a, s) => some (.ok a, s)
  | .error e => some (.error e, s)

/-- Not stuck from this state, and the answer or the failure is as wanted. -/
def Ensures (x : Stateful σ ε α) (s : σ) (post : α → σ → Prop) (failed : ε → σ → Prop) : Prop :=
  ∃ outcome s', runFrom x s = some (outcome, s') ∧ (∀ a, outcome = .ok a → post a s') ∧
    ∀ e, outcome = .error e → failed e s'

section Rules

variable {s : σ} {post : α → σ → Prop} {failed : ε → σ → Prop}

theorem Ensures.pure {a : α} (h : post a s) :
    Ensures (Pure.pure a : Stateful σ ε α) s post failed := by
  refine ⟨.ok a, s, rfl, fun b heq => ?_, fun _ heq => nomatch heq⟩
  cases heq
  exact h

theorem Ensures.read {f : σ → Option α} {a : α} (hf : f s = some a) (h : post a s) :
    Ensures (Stateful.read f : Stateful σ ε α) s post failed := by
  refine ⟨.ok a, s, ?_, fun b heq => ?_, fun _ heq => nomatch heq⟩
  · show (f s).map _ = _
    rw [hf]
    rfl
  · cases heq
    exact h

theorem Ensures.change {f : σ → Except ε (α × σ)} (hok : ∀ a s', f s = .ok (a, s') → post a s')
    (herror : ∀ e, f s = .error e → failed e s) :
    Ensures (Stateful.change f : Stateful σ ε α) s post failed := by
  cases hf : f s with
  | ok r =>
      refine ⟨.ok r.1, r.2, ?_, fun b heq => ?_, fun _ heq => nomatch heq⟩
      · rw [runFrom, Stateful.change, hf]
      · cases heq
        exact hok r.1 r.2 hf
  | error e =>
      refine ⟨.error e, s, ?_, (fun _ heq => nomatch heq), fun e' heq => ?_⟩
      · rw [runFrom, Stateful.change, hf]
      · cases heq
        exact herror e hf

theorem Ensures.mono {post' : α → σ → Prop} {failed' : ε → σ → Prop} {x : Stateful σ ε α}
    (h : Ensures x s post failed) (hpost : ∀ a s', post a s' → post' a s')
    (hfailed : ∀ e s', failed e s' → failed' e s') : Ensures x s post' failed' := by
  obtain ⟨outcome, s', hrun, hok, herror⟩ := h
  exact ⟨outcome, s', hrun, fun a heq => hpost a s' (hok a heq),
    fun e heq => hfailed e s' (herror e heq)⟩

theorem Ensures.bind {post' : β → σ → Prop} {x : Stateful σ ε α} {f : α → Stateful σ ε β}
    (h : Ensures x s post failed)
    (hf : ∀ a s', post a s' → Ensures (f a) s' post' failed) :
    Ensures (x >>= f) s post' failed := by
  obtain ⟨outcome, s', hrun, hok, herror⟩ := h
  cases outcome with
  | ok a =>
      obtain ⟨outcome', s'', hrun', hall⟩ := hf a s' (hok a rfl)
      refine ⟨outcome', s'', ?_, hall⟩
      show (Option.bind (runFrom x s) _) = _
      rw [hrun]
      exact hrun'
  | error e =>
      refine ⟨.error e, s', ?_, (fun _ heq => nomatch heq), fun e' heq => ?_⟩
      · show (Option.bind (runFrom x s) _) = _
        rw [hrun]
        rfl
      · cases heq
        exact herror e rfl

theorem Ensures.readBind {post' : β → σ → Prop} {f : σ → Option α} {a : α}
    {g : α → Stateful σ ε β} (hf : f s = some a) (h : Ensures (g a) s post' failed) :
    Ensures (Stateful.read f >>= g) s post' failed := by
  have hread : Ensures (Stateful.read f : Stateful σ ε α) s (fun b s' => b = a ∧ s' = s) failed :=
    Ensures.read hf ⟨rfl, rfl⟩
  refine Ensures.bind hread fun b s' hsame => ?_
  obtain ⟨rfl, rfl⟩ := hsame
  exact h

/-- A loop, by what holds once some of the items are done. -/
theorem Ensures.foldlM {f : β → α → Stateful σ ε β} {rows : List α}
    (after : List α → β → σ → Prop)
    (hstep : ∀ done row rest b s, rows = done ++ row :: rest → after done b s →
      Ensures (f b row) s (after (done ++ [row])) failed)
    {b : β} (hstart : after [] b s) : Ensures (rows.foldlM f b) s (after rows) failed := by
  have hall : ∀ rest done b s, rows = done ++ rest → after done b s →
      Ensures (rest.foldlM f b) s (after rows) failed := by
    intro rest
    induction rest with
    | nil =>
        intro done b s heq hafter
        rw [List.append_nil] at heq
        rw [heq]
        exact Ensures.pure hafter
    | cons row rest ih =>
        intro done b s heq hafter
        rw [List.foldlM_cons]
        refine Ensures.bind (hstep done row rest b s heq hafter) fun b' s' hafter' => ?_
        refine ih (done ++ [row]) b' s' ?_ hafter'
        rw [heq, List.append_assoc]
        rfl
  exact hall rows [] b s rfl hstart

end Rules

end Stateful

end Moth.Lib
