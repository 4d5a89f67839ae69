import Mathlib.Algebra.Order.Ring.Nat
import Moth.Lib.Sweep
import Moth.Lib.Result
import Moth.Lib.BreadthFirst

/-!
# A worklist of joined inputs

Forward propagation over a graph. Every node has an input, a visit turns the
input into an output, and each edge carries part of the output into the input
of its target, where it is joined. A node whose input grew is queued unless it
is queued already, and a visit whose output carries nothing new skips its
edges. What was last propagated is kept in a memory of its own, and every
visit leaves a record.

Two facts hold of the loop. It ends, since a node is only queued when some
input moved strictly up an order of finite height. And when it ends every
input is settled: the output of a visit of that input is what the record
shows, and all its edges lie below the inputs of their targets. A skipped
visit keeps that as long as the memory only calls an output unchanged when its
edges carry what the remembered ones did.
-/

namespace Moth.Lib

structure Worklist (ν L O M F E : Type) where
  visit : ν → L → Except E O
  successors : ν → List ν
  edge : ν → O → ν → Except E L
  join : L → L → L × Bool
  unchanged : M → O → Bool
  remember : Option M → O → M
  record : F → ν → O → F

namespace Worklist

structure State (ν L M F : Type) where
  inputs : ν → Option L
  memory : ν → Option M
  facts : F
  queue : List ν
  pending : Finset ν

variable {ν L O M F E : Type} [DecidableEq ν] (w : Worklist ν L O M F E)

/-- The input of a target after one edge, and whether it grew. -/
def joined (inputs : ν → Option L) (c : ν) (carried : L) : L × Bool :=
  match inputs c with
  | some existing => w.join existing carried
  | none => (carried, true)

/-- Join what one edge carries, and queue a target that grew and is not queued. -/
def deliver (state : State ν L M F) (c : ν) (carried : L) : State ν L M F :=
  let next := w.joined state.inputs c carried
  let inputs := Function.update state.inputs c (some next.1)
  if next.2 = true ∧ c ∉ state.pending then
    { state with inputs, queue := state.queue ++ [c], pending := insert c state.pending }
  else { state with inputs }

/-- Deliver along the edges to the given targets. -/
def deliverAll (b : ν) (o : O) : List ν → State ν L M F → Except E (State ν L M F)
  | [], state => .ok state
  | c :: rest, state => do
      let carried ← w.edge b o c
      deliverAll b o rest (w.deliver state c carried)

/-- Record an output and propagate it unless it carries nothing new. -/
def propagate (b : ν) (o : O) (state : State ν L M F) : Except E (State ν L M F) :=
  let recorded := { state with facts := w.record state.facts b o }
  if (state.memory b).any (fun m => w.unchanged m o) then .ok recorded
  else do
    let delivered ← w.deliverAll b o (w.successors b) recorded
    return { delivered with
      memory := Function.update delivered.memory b (some (w.remember (delivered.memory b) o)) }

/-- Visit a node that has been taken off the queue. -/
def visitNode (b : ν) (state : State ν L M F) : Except E (State ν L M F) :=
  match state.inputs b with
  | none => .ok state
  | some input => do
      let o ← w.visit b input
      w.propagate b o state

/-- Visit queued nodes until none is left; `none` when the fuel runs out first. -/
def run : Nat → State ν L M F → Option (Except E (State ν L M F))
  | 0, _ => none
  | fuel + 1, state =>
      match state.queue with
      | [] => some (.ok state)
      | b :: rest =>
          match w.visitNode b { state with queue := rest, pending := state.pending.erase b } with
          | .error e => some (.error e)
          | .ok next => run fuel next

/-! ## Lawful problems -/

/-- Edges stay within the nodes, and the join is an upper bound that reports growth. -/
structure Lawful (w : Worklist ν L O M F E) (A : Ascent L) (nodes : List ν) : Prop where
  successors_mem : ∀ b ∈ nodes, ∀ c ∈ w.successors b, c ∈ nodes
  le_join_left : ∀ x y, A.le x (w.join x y).1
  le_join_right : ∀ x y, A.le y (w.join x y).1
  join_grows : ∀ x y, (w.join x y).2 = true ↔ (w.join x y).1 ≠ x

/-- The memory knows what it remembered, and only calls an output unchanged when its edges carry
what the remembered output's edges carried. -/
structure Remembers (w : Worklist ν L O M F E) : Prop where
  unchanged_remember : ∀ old o, w.unchanged (w.remember old o) o = true
  skip : ∀ b s s' old o o', w.visit b s = .ok o → w.visit b s' = .ok o' →
    w.unchanged (w.remember old o) o' = true → ∀ c, w.edge b o' c = w.edge b o c

variable {w} {A : Ascent L} {nodes : List ν}

/-- Every input of the first table is below the input of the second. -/
def Below (A : Ascent L) (x y : ν → Option L) : Prop :=
  ∀ b s, x b = some s → ∃ t, y b = some t ∧ A.le s t

omit [DecidableEq ν] in
theorem Below.refl (x : ν → Option L) : Below A x x := fun _ s h => ⟨s, h, A.refl s⟩

omit [DecidableEq ν] in
theorem Below.trans {x y z : ν → Option L} (hxy : Below A x y) (hyz : Below A y z) :
    Below A x z := by
  intro b s hs
  obtain ⟨t, ht, hst⟩ := hxy b s hs
  obtain ⟨u, hu, htu⟩ := hyz b t ht
  exact ⟨u, hu, A.trans hst htu⟩

/-- All edges of an output lie below the inputs of their targets. -/
def Carried (w : Worklist ν L O M F E) (A : Ascent L) (b : ν) (o : O) (targets : List ν)
    (inputs : ν → Option L) : Prop :=
  ∀ c ∈ targets, ∃ carried t, w.edge b o c = .ok carried ∧ inputs c = some t ∧ A.le carried t

omit [DecidableEq ν] in
theorem Carried.mono {b : ν} {o : O} {targets : List ν} {x y : ν → Option L}
    (h : Carried w A b o targets x) (hle : Below A x y) : Carried w A b o targets y := by
  intro c hc
  obtain ⟨carried, t, hedge, ht, hbelow⟩ := h c hc
  obtain ⟨u, hu, htu⟩ := hle c t ht
  exact ⟨carried, u, hedge, hu, A.trans hbelow htu⟩

/-! ## Delivery -/

omit [DecidableEq ν] in
theorem joined_spec (hlaw : Lawful w A nodes) (inputs : ν → Option L) (c : ν) (carried : L) :
    A.le carried (w.joined inputs c carried).1 ∧
      (∀ s, inputs c = some s → A.le s (w.joined inputs c carried).1 ∧
        ((w.joined inputs c carried).2 = true ↔ (w.joined inputs c carried).1 ≠ s)) ∧
      (inputs c = none → (w.joined inputs c carried).2 = true) := by
  simp only [joined]
  cases hinput : inputs c with
  | none =>
      refine ⟨A.refl _, fun s h => ?_, fun _ => rfl⟩
      cases h
  | some existing =>
      refine ⟨hlaw.le_join_right existing carried, fun s h => ?_, fun h => by cases h⟩
      cases h
      exact ⟨hlaw.le_join_left existing carried, hlaw.join_grows existing carried⟩

/-- What a delivery does to a state: inputs grow, the target holds what was carried, an input
that changed is queued, and nothing else moves. -/
structure Delivered (A : Ascent L) (nodes : List ν) (x y : State ν L M F) : Prop where
  below : Below A x.inputs y.inputs
  queued : ∀ b s, x.inputs b = some s → y.inputs b = some s ∨ b ∈ y.queue
  added : ∀ b s, y.inputs b = some s → (∃ t, x.inputs b = some t) ∨ b ∈ nodes ∧ b ∈ y.queue
  queue_sub : ∀ b ∈ x.queue, b ∈ y.queue
  queue_inputs : ∀ b ∈ y.queue, b ∈ x.queue ∨ ∃ s, y.inputs b = some s
  pending : ∀ b, b ∈ y.pending ↔ b ∈ y.queue
  nodup : y.queue.Nodup
  memory : y.memory = x.memory
  facts : y.facts = x.facts

omit [DecidableEq ν] in
theorem Delivered.refl {x : State ν L M F} (hpending : ∀ b, b ∈ x.pending ↔ b ∈ x.queue)
    (hnodup : x.queue.Nodup) : Delivered A nodes x x :=
  ⟨Below.refl _, fun _ _ h => Or.inl h, fun _ s h => Or.inl ⟨s, h⟩, fun _ h => h,
    fun _ h => Or.inl h, hpending, hnodup, rfl, rfl⟩

omit [DecidableEq ν] in
theorem Delivered.trans {x y z : State ν L M F} (hxy : Delivered A nodes x y)
    (hyz : Delivered A nodes y z) : Delivered A nodes x z where
  below := hxy.below.trans hyz.below
  queued := by
    intro b s hs
    cases hxy.queued b s hs with
    | inl hsame => exact hyz.queued b s hsame
    | inr hin => exact Or.inr (hyz.queue_sub b hin)
  added := by
    intro b s hs
    cases hyz.added b s hs with
    | inr hnew => exact Or.inr hnew
    | inl hold =>
        obtain ⟨t, ht⟩ := hold
        cases hxy.added b t ht with
        | inl hold' => exact Or.inl hold'
        | inr hnew => exact Or.inr ⟨hnew.1, hyz.queue_sub b hnew.2⟩
  queue_sub := fun b h => hyz.queue_sub b (hxy.queue_sub b h)
  queue_inputs := by
    intro b hb
    cases hyz.queue_inputs b hb with
    | inr hs => exact Or.inr hs
    | inl hin =>
        cases hxy.queue_inputs b hin with
        | inl hold => exact Or.inl hold
        | inr hs =>
            obtain ⟨s, hs⟩ := hs
            obtain ⟨t, ht, -⟩ := hyz.below b s hs
            exact Or.inr ⟨t, ht⟩
  pending := hyz.pending
  nodup := hyz.nodup
  memory := hyz.memory.trans hxy.memory
  facts := hyz.facts.trans hxy.facts

theorem deliver_delivered (hlaw : Lawful w A nodes) {x : State ν L M F} {c : ν} (hc : c ∈ nodes)
    (hpending : ∀ b, b ∈ x.pending ↔ b ∈ x.queue) (hnodup : x.queue.Nodup) (carried : L) :
    Delivered A nodes x (w.deliver x c carried) ∧
      ∃ t, (w.deliver x c carried).inputs c = some t ∧ A.le carried t := by
  obtain ⟨hcarried, hold, hnew⟩ := joined_spec hlaw x.inputs c carried
  have hinputs : (w.deliver x c carried).inputs =
      Function.update x.inputs c (some (w.joined x.inputs c carried).1) := by
    simp only [deliver]
    split <;> rfl
  have hqueue : ∀ b, b ∈ (w.deliver x c carried).queue ↔
      b ∈ x.queue ∨ (w.joined x.inputs c carried).2 = true ∧ b = c := by
    intro b
    simp only [deliver]
    split
    · next hgrew => simp [hgrew.1]
    · next hkept =>
        have hin : (w.joined x.inputs c carried).2 = true → c ∈ x.queue := by
          intro hgrew
          by_contra hout
          exact hkept ⟨hgrew, fun h => hout ((hpending c).1 h)⟩
        constructor
        · exact Or.inl
        · rintro (h | ⟨hgrew, rfl⟩)
          · exact h
          · exact hin hgrew
  have hat : (w.deliver x c carried).inputs c = some (w.joined x.inputs c carried).1 := by
    rw [hinputs, Function.update_self]
  have hother : ∀ b, b ≠ c → (w.deliver x c carried).inputs b = x.inputs b := by
    intro b hne
    rw [hinputs, Function.update_of_ne hne]
  refine ⟨⟨?_, ?_, ?_, ?_, ?_, ?_, ?_, ?_, ?_⟩, _, hat, hcarried⟩
  · intro b s hs
    by_cases heq : b = c
    · subst heq
      exact ⟨_, hat, (hold s hs).1⟩
    · exact ⟨s, by rw [hother b heq]; exact hs, A.refl s⟩
  · intro b s hs
    by_cases heq : b = c
    · subst heq
      by_cases hsame : (w.joined x.inputs b carried).1 = s
      · exact Or.inl (by rw [hat, hsame])
      · exact Or.inr ((hqueue b).2 (Or.inr ⟨(hold s hs).2.2 hsame, rfl⟩))
    · exact Or.inl (by rw [hother b heq]; exact hs)
  · intro b s hs
    by_cases heq : b = c
    · subst heq
      cases hinput : x.inputs b with
      | some t => exact Or.inl ⟨t, rfl⟩
      | none => exact Or.inr ⟨hc, (hqueue b).2 (Or.inr ⟨hnew hinput, rfl⟩)⟩
    · exact Or.inl ⟨s, by rw [← hother b heq]; exact hs⟩
  · exact fun b hb => (hqueue b).2 (Or.inl hb)
  · intro b hb
    cases (hqueue b).1 hb with
    | inl h => exact Or.inl h
    | inr h =>
        obtain ⟨-, rfl⟩ := h
        exact Or.inr ⟨_, hat⟩
  · intro b
    rw [hqueue]
    simp only [deliver]
    split
    · next hgrew => simp [hgrew.1, hpending, or_comm]
    · next hkept =>
        have hin : (w.joined x.inputs c carried).2 = true → c ∈ x.pending := by
          intro hgrew
          by_contra hout
          exact hkept ⟨hgrew, hout⟩
        rw [hpending]
        constructor
        · exact Or.inl
        · rintro (h | ⟨hgrew, rfl⟩)
          · exact h
          · exact (hpending b).1 (hin hgrew)
  · simp only [deliver]
    split
    · next hgrew =>
        refine List.nodup_append.2 ⟨hnodup, List.nodup_singleton c, fun d hd e he => ?_⟩
        cases List.mem_singleton.1 he
        exact fun heq => hgrew.2 ((hpending c).2 (heq ▸ hd))
    · exact hnodup
  · simp only [deliver]
    split <;> rfl
  · simp only [deliver]
    split <;> rfl

/-- Delivery along all edges of an output. -/
theorem deliverAll_delivered (hlaw : Lawful w A nodes) {b : ν} {o : O} {targets : List ν}
    (htargets : ∀ c ∈ targets, c ∈ nodes) {x y : State ν L M F}
    (hpending : ∀ b, b ∈ x.pending ↔ b ∈ x.queue) (hnodup : x.queue.Nodup)
    (h : w.deliverAll b o targets x = .ok y) :
    Delivered A nodes x y ∧ Carried w A b o targets y.inputs := by
  induction targets generalizing x with
  | nil =>
      cases h
      exact ⟨Delivered.refl hpending hnodup, fun c hc => absurd hc List.not_mem_nil⟩
  | cons c rest ih =>
      rw [deliverAll, bind_eq_ok] at h
      obtain ⟨carried, hedge, hrest⟩ := h
      obtain ⟨hfirst, t, ht, hbelow⟩ :=
        deliver_delivered hlaw (htargets c List.mem_cons_self) hpending hnodup carried
      obtain ⟨hlater, hcarried⟩ :=
        ih (fun d hd => htargets d (List.mem_cons_of_mem _ hd)) hfirst.pending hfirst.nodup hrest
      refine ⟨hfirst.trans hlater, fun d hd => ?_⟩
      cases List.mem_cons.1 hd with
      | inr hin => exact hcarried d hin
      | inl heq =>
          subst heq
          obtain ⟨u, hu, htu⟩ := hlater.below d t ht
          exact ⟨carried, u, hedge, hu, A.trans hbelow htu⟩

/-! ## Soundness of the loop -/

section Sound

variable (w A) in
/-- The input of a node is settled: the output of its visit is what the record and the memory
hold, and its edges are carried. `R` relates the record of a node to its latest output. -/
def Settled (R : F → ν → O → Prop) (x : State ν L M F) (b : ν) (s : L) : Prop :=
  ∃ o, w.visit b s = .ok o ∧ R x.facts b o ∧
    (∃ m, x.memory b = some m ∧ w.unchanged m o = true) ∧
    Carried w A b o (w.successors b) x.inputs

variable (w A nodes) in
/-- What the loop keeps: the pending set is the queue, every input is queued or settled, and the
memory only holds outputs whose edges have been carried. -/
structure Sound (R : F → ν → O → Prop) (x : State ν L M F) : Prop where
  pending : ∀ b, b ∈ x.pending ↔ b ∈ x.queue
  queue_nodup : x.queue.Nodup
  queue_inputs : ∀ b ∈ x.queue, ∃ s, x.inputs b = some s
  inputs_mem : ∀ b s, x.inputs b = some s → b ∈ nodes
  remembered : ∀ b m, x.memory b = some m → ∃ s o old, w.visit b s = .ok o ∧
    m = w.remember old o ∧ Carried w A b o (w.successors b) x.inputs
  settled : ∀ b s, x.inputs b = some s → b ∈ x.queue ∨ Settled w A R x b s

/-- A record that a node's own visit writes and no other node's visit changes. -/
structure Recorded (w : Worklist ν L O M F E) (nodes : List ν) (R : F → ν → O → Prop) : Prop where
  own : ∀ f, ∀ b ∈ nodes, ∀ s o, w.visit b s = .ok o → R (w.record f b o) b o
  other : ∀ f, ∀ b ∈ nodes, ∀ c ∈ nodes, c ≠ b → ∀ s o s' o', w.visit b s = .ok o →
    w.visit c s' = .ok o' → R f c o' → R (w.record f b o) c o'

variable {R : F → ν → O → Prop} {x y : State ν L M F} {b : ν} {rest : List ν}

/-- The state with the head of its queue taken off. -/
def popped (x : State ν L M F) (b : ν) (rest : List ν) : State ν L M F :=
  { x with queue := rest, pending := x.pending.erase b }

theorem Sound.popped_pending (hx : Sound w A nodes R x) (hqueue : x.queue = b :: rest) :
    (∀ c, c ∈ (popped x b rest).pending ↔ c ∈ (popped x b rest).queue) ∧ rest.Nodup := by
  have hnodup := hx.queue_nodup
  rw [hqueue] at hnodup
  obtain ⟨hfresh, hrest⟩ := List.nodup_cons.1 hnodup
  refine ⟨fun c => ?_, hrest⟩
  simp only [popped, Finset.mem_erase, hx.pending, hqueue, List.mem_cons]
  constructor
  · rintro ⟨hne, heq | hin⟩
    · exact absurd heq hne
    · exact hin
  · exact fun hin => ⟨fun heq => hfresh (heq ▸ hin), Or.inr hin⟩

/-- A visit whose edges are carried already settles its node. -/
theorem Sound.settle (hx : Sound w A nodes R x) (hqueue : x.queue = b :: rest)
    (hrecord : Recorded w nodes R) {s : L} {o : O} (hs : x.inputs b = some s)
    (hvisit : w.visit b s = .ok o) {m : M} (hm : x.memory b = some m)
    (hunchanged : w.unchanged m o = true)
    (hcarried : Carried w A b o (w.successors b) x.inputs) :
    Sound w A nodes R { popped x b rest with facts := w.record x.facts b o } := by
  obtain ⟨hpending, hnodup⟩ := hx.popped_pending hqueue
  refine ⟨hpending, hnodup, fun c hc => ?_, hx.inputs_mem, hx.remembered, fun c t ht => ?_⟩
  · exact hx.queue_inputs c (by rw [hqueue]; exact List.mem_cons_of_mem _ hc)
  · by_cases heq : c = b
    · subst heq
      have hst : t = s := Option.some.inj (Eq.trans (Eq.symm ht) hs)
      subst hst
      exact Or.inr ⟨o, hvisit, hrecord.own _ c (hx.inputs_mem c t hs) t o hvisit,
        ⟨m, hm, hunchanged⟩, hcarried⟩
    · cases hx.settled c t ht with
      | inl hin =>
          rw [hqueue] at hin
          exact Or.inl ((List.mem_cons.1 hin).resolve_left heq)
      | inr hsettled =>
          obtain ⟨o', hvisit', hR, hkept, hcarried'⟩ := hsettled
          exact Or.inr ⟨o', hvisit', hrecord.other _ b (hx.inputs_mem b s hs) c
            (hx.inputs_mem c t ht) heq s o t o' hvisit hvisit' hR, hkept, hcarried'⟩

/-- A visit that carries all its edges keeps the invariant. -/
theorem Sound.deliver (hmemory : Remembers w) (hx : Sound w A nodes R x)
    (hqueue : x.queue = b :: rest) (hrecord : Recorded w nodes R) {s : L} {o : O}
    (hs : x.inputs b = some s) (hvisit : w.visit b s = .ok o)
    (hdelivered : Delivered A nodes
      { popped x b rest with facts := w.record x.facts b o } y)
    (hcarried : Carried w A b o (w.successors b) y.inputs) (old : Option M) :
    Sound w A nodes R
      { y with memory := Function.update y.memory b (some (w.remember old o)) } := by
  have hb := hx.inputs_mem b s hs
  refine ⟨hdelivered.pending, hdelivered.nodup, fun c hc => ?_, fun c t ht => ?_,
    fun c m hm => ?_, fun c t ht => ?_⟩
  · cases hdelivered.queue_inputs c hc with
    | inr hin => exact hin
    | inl hold =>
        obtain ⟨t, ht⟩ :=
          hx.queue_inputs c (by rw [hqueue]; exact List.mem_cons_of_mem _ hold)
        obtain ⟨u, hu, -⟩ := hdelivered.below c t ht
        exact ⟨u, hu⟩
  · cases hdelivered.added c t ht with
    | inl hold => exact hx.inputs_mem c hold.choose hold.choose_spec
    | inr hnew => exact hnew.1
  · by_cases heq : c = b
    · subst heq
      have hown : Function.update y.memory c (some (w.remember old o)) c = some m := hm
      rw [Function.update_self] at hown
      exact ⟨s, o, old, hvisit, (Option.some.inj hown).symm, hcarried⟩
    · have hkept : Function.update y.memory b (some (w.remember old o)) c = some m := hm
      rw [Function.update_of_ne heq, hdelivered.memory] at hkept
      obtain ⟨s', o', old', hvisit', hm', hcarried'⟩ := hx.remembered c m hkept
      exact ⟨s', o', old', hvisit', hm', hcarried'.mono hdelivered.below⟩
  · cases hdelivered.added c t ht with
    | inr hnew => exact Or.inl hnew.2
    | inl hold =>
        obtain ⟨t', ht'⟩ := hold
        cases hdelivered.queued c t' ht' with
        | inr hin => exact Or.inl hin
        | inl hsame =>
            have htt : t = t' := Option.some.inj (Eq.trans (Eq.symm ht) hsame)
            subst htt
            by_cases heq : c = b
            · subst heq
              have hst : t = s := Option.some.inj (Eq.trans (Eq.symm ht') hs)
              subst hst
              refine Or.inr ⟨o, hvisit, ?_,
                ⟨_, Function.update_self .., hmemory.unchanged_remember old o⟩, hcarried⟩
              rw [show y.facts = w.record x.facts c o from hdelivered.facts]
              exact hrecord.own _ c hb t o hvisit
            · cases hx.settled c t ht' with
              | inl hin =>
                  rw [hqueue] at hin
                  exact Or.inl (hdelivered.queue_sub c ((List.mem_cons.1 hin).resolve_left heq))
              | inr hsettled =>
                  obtain ⟨o', hvisit', hR, ⟨m, hm, hunchanged⟩, hcarried'⟩ := hsettled
                  have hkept : Function.update y.memory b (some (w.remember old o)) c = some m := by
                    rw [Function.update_of_ne heq, hdelivered.memory]
                    exact hm
                  refine Or.inr ⟨o', hvisit', ?_, ⟨m, hkept, hunchanged⟩,
                    hcarried'.mono hdelivered.below⟩
                  rw [show y.facts = w.record x.facts b o from hdelivered.facts]
                  exact hrecord.other _ b hb c (hx.inputs_mem c t ht') heq s o t o' hvisit hvisit' hR

/-- One visit keeps the invariant, and inputs only grow. -/
theorem Sound.visitNode (hlaw : Lawful w A nodes) (hmemory : Remembers w)
    (hrecord : Recorded w nodes R) (hx : Sound w A nodes R x) (hqueue : x.queue = b :: rest)
    (h : w.visitNode b (popped x b rest) = .ok y) :
    Sound w A nodes R y ∧ Below A x.inputs y.inputs := by
  obtain ⟨s, hs⟩ := hx.queue_inputs b (by rw [hqueue]; exact List.mem_cons_self)
  have hb := hx.inputs_mem b s hs
  have hs' : (popped x b rest).inputs b = some s := hs
  simp only [Worklist.visitNode, hs'] at h
  obtain ⟨o, hvisit, h⟩ := bind_eq_ok.1 h
  simp only [propagate] at h
  split at h
  · next hskip =>
      cases h
      have hkept : (x.memory b).any (fun m => w.unchanged m o) = true := hskip
      cases hm : x.memory b with
      | none =>
          rw [hm] at hkept
          cases hkept
      | some m =>
          rw [hm] at hkept
          obtain ⟨s', o', old, hvisit', rfl, hcarried'⟩ := hx.remembered b m hm
          have hcarried : Carried w A b o (w.successors b) x.inputs := by
            intro c hc
            rw [hmemory.skip b s' s old o' o hvisit' hvisit hkept c]
            exact hcarried' c hc
          exact ⟨hx.settle hqueue hrecord hs hvisit hm hkept hcarried, Below.refl _⟩
  · obtain ⟨delivered, hall, h⟩ := bind_eq_ok.1 h
    cases h
    obtain ⟨hpending, hnodup⟩ := hx.popped_pending hqueue
    obtain ⟨hdelivered, hcarried⟩ :=
      deliverAll_delivered hlaw (hlaw.successors_mem b hb) (x := { popped x b rest with
        facts := w.record x.facts b o }) hpending hnodup hall
    exact ⟨hx.deliver hmemory hqueue hrecord hs hvisit hdelivered hcarried _, hdelivered.below⟩

/-- A run that ends leaves every input settled, above where it started. -/
theorem Sound.run (hlaw : Lawful w A nodes) (hmemory : Remembers w) (hrecord : Recorded w nodes R)
    (hx : Sound w A nodes R x) {fuel : Nat} (h : w.run fuel x = some (.ok y)) :
    Sound w A nodes R y ∧ y.queue = [] ∧ Below A x.inputs y.inputs := by
  induction fuel generalizing x with
  | zero => cases h
  | succ fuel ih =>
      rw [Worklist.run] at h
      cases hqueue : x.queue with
      | nil =>
          simp only [hqueue] at h
          cases h
          exact ⟨hx, hqueue, Below.refl _⟩
      | cons b rest =>
          simp only [hqueue] at h
          cases hvisit : w.visitNode b (popped x b rest) with
          | error e =>
              rw [popped] at hvisit
              rw [hvisit] at h
              cases h
          | ok next =>
              obtain ⟨hnext, hbelow⟩ := hx.visitNode hlaw hmemory hrecord hqueue hvisit
              rw [popped] at hvisit
              rw [hvisit] at h
              obtain ⟨hy, hempty, hlater⟩ := ih hnext h
              exact ⟨hy, hempty, hbelow.trans hlater⟩

end Sound

/-! ## Facts -/

section Facts

variable {w : Worklist ν L O M F E} {P : F → Prop} {x y : State ν L M F}

theorem deliverAll_facts {b : ν} {o : O} {targets : List ν}
    (h : w.deliverAll b o targets x = .ok y) : y.facts = x.facts := by
  induction targets generalizing x with
  | nil =>
      cases h
      rfl
  | cons c rest ih =>
      rw [deliverAll] at h
      obtain ⟨carried, -, hrest⟩ := bind_eq_ok.1 h
      rw [ih hrest]
      simp only [deliver]
      split <;> rfl

theorem visitNode_facts
    (hrecord : ∀ facts b s o, w.visit b s = .ok o → P facts → P (w.record facts b o)) {b : ν}
    (hx : P x.facts) (h : w.visitNode b x = .ok y) : P y.facts := by
  rw [Worklist.visitNode] at h
  cases hinput : x.inputs b with
  | none =>
      simp only [hinput] at h
      cases h
      exact hx
  | some input =>
      simp only [hinput] at h
      obtain ⟨o, hvisit, hpropagate⟩ := bind_eq_ok.1 h
      rw [propagate] at hpropagate
      split at hpropagate
      · cases hpropagate
        exact hrecord _ _ _ _ hvisit hx
      · obtain ⟨delivered, hdelivered, hdone⟩ := bind_eq_ok.1 hpropagate
        cases hdone
        show P delivered.facts
        rw [deliverAll_facts hdelivered]
        exact hrecord _ _ _ _ hvisit hx

theorem run_facts
    (hrecord : ∀ facts b s o, w.visit b s = .ok o → P facts → P (w.record facts b o))
    (hx : P x.facts) {fuel : Nat} (h : w.run fuel x = some (.ok y)) : P y.facts := by
  induction fuel generalizing x with
  | zero => cases h
  | succ fuel ih =>
      rw [Worklist.run] at h
      cases hqueue : x.queue with
      | nil =>
          simp only [hqueue] at h
          cases h
          exact hx
      | cons b rest =>
          simp only [hqueue] at h
          cases hvisit : w.visitNode b { x with queue := rest, pending := x.pending.erase b } with
          | error e =>
              rw [hvisit] at h
              cases h
          | ok next =>
              rw [hvisit] at h
              have hpopped : P (popped x b rest).facts := hx
              exact ih (visitNode_facts hrecord hpopped hvisit) h

end Facts

/-! ## Termination -/

section Termination

variable {x y : State ν L M F}

/-- What one input adds to the total: nothing when it is missing, one more than its height when
it is there. -/
def weight (A : Ascent L) : Option L → Nat
  | none => 0
  | some s => A.height s + 1

/-- The total over the nodes. A queued node pays for its place by an increase of this. -/
def total (A : Ascent L) (nodes : List ν) (inputs : ν → Option L) : Nat :=
  ∑ b ∈ nodes.toFinset, weight A (inputs b)

theorem total_le (A : Ascent L) (nodes : List ν) (inputs : ν → Option L) :
    total A nodes inputs ≤ nodes.length * (A.bound + 1) := by
  have hweight : ∀ b ∈ nodes.toFinset, weight A (inputs b) ≤ A.bound + 1 := by
    intro b _
    cases inputs b with
    | none => exact Nat.zero_le _
    | some s => exact Nat.succ_le_succ (A.height_le s)
  calc total A nodes inputs ≤ nodes.toFinset.card * (A.bound + 1) :=
        Finset.sum_le_card_nsmul _ _ _ hweight
    _ ≤ nodes.length * (A.bound + 1) := Nat.mul_le_mul_right _ nodes.toFinset_card_le

/-- A delivery queues no more than the total grows. -/
theorem deliver_queue_le (hlaw : Lawful w A nodes) {c : ν} (hc : c ∈ nodes) (carried : L) :
    (w.deliver x c carried).queue.length + total A nodes x.inputs ≤
      x.queue.length + total A nodes (w.deliver x c carried).inputs := by
  obtain ⟨-, hold, hnew⟩ := joined_spec hlaw x.inputs c carried
  have hinputs : (w.deliver x c carried).inputs =
      Function.update x.inputs c (some (w.joined x.inputs c carried).1) := by
    simp only [deliver]
    split <;> rfl
  have hrest : ∀ b ∈ nodes.toFinset.erase c,
      weight A ((w.deliver x c carried).inputs b) = weight A (x.inputs b) := by
    intro b hb
    rw [hinputs, Function.update_of_ne (Finset.ne_of_mem_erase hb)]
  have hsplit := fun inputs : ν → Option L =>
    (Finset.add_sum_erase nodes.toFinset (fun b => weight A (inputs b)) (List.mem_toFinset.2 hc)).symm
  have hat : weight A ((w.deliver x c carried).inputs c) =
      A.height (w.joined x.inputs c carried).1 + 1 := by
    rw [hinputs, Function.update_self]
    rfl
  have hgrow : weight A (x.inputs c) ≤ A.height (w.joined x.inputs c carried).1 + 1 ∧
      ((w.joined x.inputs c carried).2 = true →
        weight A (x.inputs c) < A.height (w.joined x.inputs c carried).1 + 1) := by
    cases hinput : x.inputs c with
    | none => exact ⟨Nat.zero_le _, fun _ => Nat.succ_pos _⟩
    | some s =>
        obtain ⟨hle, hchanged⟩ := hold s hinput
        refine ⟨Nat.succ_le_succ (A.height_mono hle), fun h => Nat.succ_lt_succ ?_⟩
        exact A.height_lt hle (hchanged.1 h).symm
  have hqueue : (w.deliver x c carried).queue.length ≤
      x.queue.length + if (w.joined x.inputs c carried).2 = true then 1 else 0 := by
    simp only [deliver]
    split
    · next h => simp [h.1]
    · exact Nat.le_add_right _ _
  simp only [total]
  rw [hsplit x.inputs, hsplit (w.deliver x c carried).inputs, Finset.sum_congr rfl hrest, hat]
  split at hqueue
  · next h =>
      have := hgrow.2 h
      omega
  · have := hgrow.1
    omega

theorem deliver_queue_mem {c : ν} (hc : c ∈ nodes) (hqueue : ∀ b ∈ x.queue, b ∈ nodes)
    (carried : L) : ∀ b ∈ (w.deliver x c carried).queue, b ∈ nodes := by
  intro b hb
  simp only [deliver] at hb
  split at hb
  · cases List.mem_append.1 hb with
    | inl hold => exact hqueue b hold
    | inr hnew => exact List.mem_singleton.1 hnew ▸ hc
  · exact hqueue b hb

theorem deliverAll_queue_le (hlaw : Lawful w A nodes) {b : ν} {o : O} {targets : List ν}
    (htargets : ∀ c ∈ targets, c ∈ nodes) (hqueue : ∀ c ∈ x.queue, c ∈ nodes)
    (h : w.deliverAll b o targets x = .ok y) :
    (∀ c ∈ y.queue, c ∈ nodes) ∧
      y.queue.length + total A nodes x.inputs ≤ x.queue.length + total A nodes y.inputs := by
  induction targets generalizing x with
  | nil =>
      cases h
      exact ⟨hqueue, Nat.le_refl _⟩
  | cons c rest ih =>
      rw [deliverAll, bind_eq_ok] at h
      obtain ⟨carried, -, hrest⟩ := h
      have hc := htargets c List.mem_cons_self
      have hfirst := deliver_queue_le (x := x) hlaw hc carried
      obtain ⟨hmem, hlater⟩ := ih (fun d hd => htargets d (List.mem_cons_of_mem _ hd))
        (deliver_queue_mem hc hqueue carried) hrest
      exact ⟨hmem, by omega⟩

theorem visitNode_queue_le (hlaw : Lawful w A nodes) {b : ν} (hb : b ∈ nodes)
    (hqueue : ∀ c ∈ x.queue, c ∈ nodes) (h : w.visitNode b x = .ok y) :
    (∀ c ∈ y.queue, c ∈ nodes) ∧
      y.queue.length + total A nodes x.inputs ≤ x.queue.length + total A nodes y.inputs := by
  cases hinput : x.inputs b with
  | none =>
      simp only [visitNode, hinput] at h
      cases h
      exact ⟨hqueue, Nat.le_refl _⟩
  | some s =>
      simp only [visitNode, hinput] at h
      obtain ⟨o, -, h⟩ := bind_eq_ok.1 h
      simp only [propagate] at h
      split at h
      · cases h
        exact ⟨hqueue, Nat.le_refl _⟩
      · obtain ⟨delivered, hall, h⟩ := bind_eq_ok.1 h
        cases h
        have hle := deliverAll_queue_le hlaw (hlaw.successors_mem b hb)
          (x := { x with facts := w.record x.facts b o }) hqueue hall
        exact hle

/-- Every visit pays one place of the queue, and every place is paid for once. -/
theorem run_terminates (hlaw : Lawful w A nodes) (hqueue : ∀ c ∈ x.queue, c ∈ nodes) {fuel : Nat}
    (hfuel : x.queue.length + nodes.length * (A.bound + 1) < fuel + total A nodes x.inputs) :
    ∃ result, w.run fuel x = some result := by
  induction fuel generalizing x with
  | zero => exact absurd (total_le A nodes x.inputs) (by omega)
  | succ fuel ih =>
      rw [run]
      cases hhead : x.queue with
      | nil => exact ⟨_, rfl⟩
      | cons b rest =>
          simp only
          have hmem : ∀ c ∈ b :: rest, c ∈ nodes := hhead ▸ hqueue
          cases hvisit : w.visitNode b
              { x with queue := rest, pending := x.pending.erase b } with
          | error e => exact ⟨_, rfl⟩
          | ok next =>
              have hpopped := visitNode_queue_le hlaw (hmem b List.mem_cons_self)
                (fun c hc => hmem c (List.mem_cons_of_mem _ hc)) hvisit
              refine ih hpopped.1 ?_
              have hle := hpopped.2
              rw [hhead, List.length_cons] at hfuel
              simp only at hle
              omega

end Termination

end Worklist

end Moth.Lib

/-!
## Worklists in any order

What a worklist establishes does not depend on which pending node it takes
next, nor on how many lists it keeps them in. The seen and pending nodes are
reachable from the starts, each start is among them, and so are the successors
of what is seen; once nothing is pending the seen nodes are the reachable ones.
A step either drops a seen node from what is pending, or sees a new one and
pays for the successors it adds.
-/

namespace Moth.Lib

namespace FiniteGraph

variable {ν : Type*} [DecidableEq ν]

/-- Some nodes seen, some pending, from some starts. -/
structure Exploring (g : FiniteGraph ν) (starts seen pending : List ν) : Prop where
  nodup : seen.Nodup
  sound : ∀ b, b ∈ seen ∨ b ∈ pending → ∃ s ∈ starts, Relation.ReflTransGen g.Edge s b
  closed : ∀ b ∈ seen, ∀ c, g.Edge b c → c ∈ seen ∨ c ∈ pending
  started : ∀ s ∈ starts, s ∈ seen ∨ s ∈ pending

variable {g : FiniteGraph ν} {starts seen pending rest pushed pending' : List ν} {b : ν}

namespace Exploring

omit [DecidableEq ν] in
theorem start (g : FiniteGraph ν) (starts : List ν) : g.Exploring starts [] starts where
  nodup := List.nodup_nil
  sound b hb := ⟨b, hb.resolve_left List.not_mem_nil, .refl⟩
  closed _ hb := absurd hb List.not_mem_nil
  started _ hs := .inr hs

omit [DecidableEq ν] in
theorem skip (h : g.Exploring starts seen pending) (hb : b ∈ seen)
    (hpending : ∀ c, c ∈ pending ↔ c = b ∨ c ∈ rest) : g.Exploring starts seen rest := by
  have hdrop : ∀ c, c ∈ seen ∨ c ∈ pending → c ∈ seen ∨ c ∈ rest := by
    rintro c (hc | hc)
    · exact .inl hc
    · rcases (hpending c).1 hc with rfl | hc
      · exact .inl hb
      · exact .inr hc
  exact ⟨h.nodup, fun c hc => h.sound c (hc.imp_right fun hc => (hpending c).2 (.inr hc)),
    fun a ha c hc => hdrop c (h.closed a ha c hc), fun s hs => hdrop s (h.started s hs)⟩

omit [DecidableEq ν] in
/-- A pending node is seen, and its successors are pending if they are not seen. -/
theorem visit (h : g.Exploring starts seen pending) (hb : b ∉ seen)
    (hpending : ∀ c, c ∈ pending ↔ c = b ∨ c ∈ rest)
    (hpushed : ∀ c ∈ pushed, g.Edge b c)
    (hall : ∀ c, g.Edge b c → c ∈ seen ++ [b] ∨ c ∈ pushed)
    (hpending' : ∀ c, c ∈ pending' ↔ c ∈ rest ∨ c ∈ pushed) :
    g.Exploring starts (seen ++ [b]) pending' := by
  have hreach := h.sound b (.inr ((hpending b).2 (.inl rfl)))
  have hgrow : ∀ c, c ∈ seen ∨ c ∈ pending → c ∈ seen ++ [b] ∨ c ∈ pending' := by
    rintro c (hc | hc)
    · exact .inl (List.mem_append_left _ hc)
    · rcases (hpending c).1 hc with rfl | hc
      · exact .inl (List.mem_append_right _ (List.mem_singleton_self c))
      · exact .inr ((hpending' c).2 (.inl hc))
  refine ⟨?_, ?_, ?_, fun s hs => hgrow s (h.started s hs)⟩
  · refine List.nodup_append.2 ⟨h.nodup, List.nodup_singleton b, fun a ha c hc heq => ?_⟩
    rw [List.mem_singleton] at hc
    exact hb (hc ▸ heq ▸ ha)
  · rintro c (hc | hc)
    · rcases List.mem_append.1 hc with hc | hc
      · exact h.sound c (.inl hc)
      · rw [List.mem_singleton.1 hc]
        exact hreach
    · rcases (hpending' c).1 hc with hc | hc
      · exact h.sound c (.inr ((hpending c).2 (.inr hc)))
      · obtain ⟨s, hs, hsb⟩ := hreach
        exact ⟨s, hs, hsb.tail (hpushed c hc)⟩
  · intro a ha c hc
    rcases List.mem_append.1 ha with ha | ha
    · exact hgrow c (h.closed a ha c hc)
    · rw [List.mem_singleton.1 ha] at hc
      exact (hall c hc).imp_right fun hc => (hpending' c).2 (.inr hc)

omit [DecidableEq ν] in
theorem mem_iff (h : g.Exploring starts seen []) :
    b ∈ seen ↔ ∃ s ∈ starts, Relation.ReflTransGen g.Edge s b := by
  refine ⟨fun hb => h.sound b (.inl hb), ?_⟩
  rintro ⟨s, hs, hreach⟩
  induction hreach with
  | refl => exact (h.started s hs).resolve_right List.not_mem_nil
  | tail _ hbc ih => exact (h.closed _ ih _ hbc).resolve_right List.not_mem_nil

end Exploring

/-- The steps a worklist may still take. -/
def room (g : FiniteGraph ν) (seen pending : List ν) : Nat :=
  g.unseenWeight seen g.nodes + pending.length

theorem room_visit {next : List ν} (hnext : g.successors b = some next) (hb : b ∉ seen)
    (hlength : pending'.length ≤ rest.length + next.length) :
    g.room (seen ++ [b]) pending' < g.room seen (b :: rest) := by
  have hlt := unseenWeight_lt hnext hb (g.mem_nodes hnext)
  rw [room, room, List.length_cons]
  omega

theorem unseenWeight_nil (nodes : List ν) : g.unseenWeight [] nodes =
    (nodes.map fun b => ((g.successors b).getD []).length + 1).sum := by
  induction nodes with
  | nil => rfl
  | cons b rest ih =>
      rw [unseenWeight, if_neg List.not_mem_nil, ih, List.map_cons, List.sum_cons]

theorem collect_isSome {P : ν → Prop}
    (hstep : ∀ b, P b → ∃ next, g.successors b = some next ∧ ∀ c ∈ next, P c)
    {order queue : List ν} (hqueue : ∀ b ∈ queue, P b) : (g.collect order queue).isSome := by
  fun_induction collect g order queue with
  | case1 order => rfl
  | case2 order b rest hseen ih => exact ih fun c hc => hqueue c (List.mem_cons_of_mem _ hc)
  | case3 order b rest hunseen hnone =>
      obtain ⟨next, hnext, -⟩ := hstep b (hqueue b List.mem_cons_self)
      cases hnone.symm.trans hnext
  | case4 order b rest hunseen next hnext ih =>
      obtain ⟨next', hnext', hall⟩ := hstep b (hqueue b List.mem_cons_self)
      cases hnext.symm.trans hnext'
      refine ih fun c hc => ?_
      rcases List.mem_append.1 hc with hc | hc
      · exact hqueue c (List.mem_cons_of_mem _ hc)
      · exact hall c hc

end FiniteGraph

/-! ## The order of discovery -/

/-- A node is seen after all starts before it, or after a node with an edge to it. -/
structure DiscoveryOrder {ν : Type*} [DecidableEq ν] (edge : ν → ν → Prop)
    (starts seen pending : List ν) : Prop where
  nodup : seen.Nodup
  startsFirst : starts.eraseDups <+: (seen ++ pending).eraseDups
  found : ∀ b ∈ pending, b ∈ starts ∨ ∃ a ∈ seen, edge a b
  foundBefore : ∀ before b after, seen = before ++ b :: after →
    b ∈ starts ∨ ∃ a ∈ before, edge a b

namespace DiscoveryOrder

variable {ν : Type*} [DecidableEq ν] {edge : ν → ν → Prop} {starts seen pending pushed : List ν}
  {b : ν}

theorem start (edge : ν → ν → Prop) (starts : List ν) : DiscoveryOrder edge starts [] starts where
  nodup := List.nodup_nil
  startsFirst := List.prefix_refl _
  found _ hb := .inl hb
  foundBefore before _ _ h := by simp at h

theorem skip (h : DiscoveryOrder edge starts seen (b :: pending)) (hb : b ∈ seen) :
    DiscoveryOrder edge starts seen pending where
  nodup := h.nodup
  startsFirst := by
    have hfirst := h.startsFirst
    have hin : ¬seen.contains b = false := by simpa using hb
    rw [List.eraseDups_append, List.cons_removeAll, if_neg hin] at hfirst
    rw [List.eraseDups_append]
    exact hfirst
  found c hc := h.found c (List.mem_cons_of_mem _ hc)
  foundBefore := h.foundBefore

theorem visit (h : DiscoveryOrder edge starts seen (b :: pending)) (hb : b ∉ seen) :
    DiscoveryOrder edge starts (seen ++ [b]) pending where
  nodup := List.nodup_append.2 ⟨h.nodup, List.nodup_singleton b, fun a ha c hc heq => by
    rw [List.mem_singleton] at hc
    exact hb (hc ▸ heq ▸ ha)⟩
  startsFirst := by
    rw [List.append_assoc]
    exact h.startsFirst
  found c hc := (h.found c (List.mem_cons_of_mem _ hc)).imp_right fun ⟨a, ha, hedge⟩ =>
    ⟨a, List.mem_append_left _ ha, hedge⟩
  foundBefore before c after heq := by
    rcases List.append_eq_append_iff.1 heq with ⟨rest, rfl, hrest⟩ | ⟨rest, rfl, hrest⟩
    · cases rest with
      | nil =>
          cases hrest
          rw [List.append_nil]
          exact h.found b List.mem_cons_self
      | cons d rest => simp at hrest
    · cases rest with
      | nil =>
          cases hrest
          have hfound := h.found b List.mem_cons_self
          rwa [List.append_nil] at hfound
      | cons d rest =>
          cases hrest
          exact h.foundBefore before _ rest rfl

theorem push (h : DiscoveryOrder edge starts seen pending)
    (hpushed : ∀ c ∈ pushed, ∃ a ∈ seen, edge a c) :
    DiscoveryOrder edge starts seen (pending ++ pushed) where
  nodup := h.nodup
  startsFirst := by
    rw [← List.append_assoc, List.eraseDups_append]
    exact h.startsFirst.trans (List.prefix_append _ _)
  found c hc := (List.mem_append.1 hc).elim (h.found c) fun hc => .inr (hpushed c hc)
  foundBefore := h.foundBefore

theorem starts_prefix (h : DiscoveryOrder edge starts seen []) : starts.eraseDups <+: seen := by
  have hsame : ∀ {l : List ν}, l.Nodup → l.eraseDups = l := by
    intro l hl
    induction l with
    | nil => rfl
    | cons a l ih =>
        obtain ⟨ha, hl⟩ := List.nodup_cons.1 hl
        have hfilter : l.filter (fun b => !b == a) = l := List.filter_eq_self.2 fun b hb => by
          have hne : b ≠ a := fun heq => ha (heq ▸ hb)
          simpa using hne
        rw [List.eraseDups_cons, hfilter, ih hl]
  have hfirst := h.startsFirst
  rwa [List.append_nil, hsame h.nodup] at hfirst

end DiscoveryOrder

end Moth.Lib
