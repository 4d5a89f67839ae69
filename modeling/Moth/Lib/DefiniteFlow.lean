import Mathlib.Algebra.BigOperators.Group.Finset.Basic
import Mathlib.Algebra.Order.BigOperators.Group.Finset
import Mathlib.Data.Finset.Card
import Moth.Lib.Result

/-!
# What holds on every path

Each node of a graph is entered with a set of elements, and each of its edges
hands on that set with some elements removed and others added. An element is
definite at a node when every path from a seed enters the node with it.

The worklist keeps one set for each node it has met: the set of the first edge
that reached it, cut down to what every later edge carried as well. A node
whose set shrank is visited again. Two invariants carry the loop. From above:
a node that is not queued has all its edges accounted for. From below: every
element missing from a set is missing on some path, which is what makes the
first set the right one to start from. They meet when the queue is empty.
-/

namespace Moth.Lib

open Finset

/-- What an edge removes and adds. -/
structure GenKill (α : Type) where
  kill : Finset α
  gen : Finset α

variable {ν α E : Type} [DecidableEq ν] [DecidableEq α]

def GenKill.apply (e : GenKill α) (d : Finset α) : Finset α := (d \ e.kill) ∪ e.gen

theorem GenKill.mem_apply {e : GenKill α} {d : Finset α} {x : α} :
    x ∈ e.apply d ↔ x ∈ d ∧ x ∉ e.kill ∨ x ∈ e.gen := by
  rw [apply, mem_union, mem_sdiff]

theorem GenKill.apply_mono (e : GenKill α) {d d' : Finset α} (h : d ⊆ d') :
    e.apply d ⊆ e.apply d' :=
  union_subset_union (sdiff_subset_sdiff h (Subset.refl _)) (Subset.refl _)

theorem GenKill.apply_subset {e : GenKill α} {d all : Finset α} (hd : d ⊆ all)
    (hgen : e.gen ⊆ all) : e.apply d ⊆ all :=
  union_subset (sdiff_subset.trans hd) hgen

/-- A path from a seed enters the node with exactly this set. -/
inductive EntersBy (edges : ν → List (ν × GenKill α)) (seeds : List (ν × Finset α)) :
    ν → Finset α → Prop
  | seed {b : ν} {d : Finset α} : (b, d) ∈ seeds → EntersBy edges seeds b d
  | edge {b c : ν} {e : GenKill α} {d : Finset α} : EntersBy edges seeds b d →
      (c, e) ∈ edges b → EntersBy edges seeds c (e.apply d)

omit [DecidableEq ν] in
theorem EntersBy.mono {edges : ν → List (ν × GenKill α)} {seeds seeds' : List (ν × Finset α)}
    (hsub : seeds ⊆ seeds') {b : ν} {d : Finset α} (h : EntersBy edges seeds b d) : EntersBy edges seeds' b d := by
  induction h with
  | seed hs => exact .seed (hsub hs)
  | edge _ he ih => exact .edge ih he

namespace DefiniteFlow

structure State (ν α : Type) where
  incoming : ν → Option (Finset α)
  pending : List ν
  queued : Finset ν

def State.empty : State ν α := ⟨fun _ => none, [], ∅⟩

/-- Put a set at a node and queue it. -/
def State.seed (state : State ν α) (b : ν) (d : Finset α) : State ν α where
  incoming := Function.update state.incoming b (some d)
  pending := state.pending ++ [b]
  queued := insert b state.queued

/-- The set a node keeps after one more edge, and whether it changed. -/
def cut (old : Option (Finset α)) (carried : Finset α) : Finset α × Bool :=
  match old with
  | none => (carried, true)
  | some previous => (previous ∩ carried, (previous ∩ carried).card ≠ previous.card)

/-- One edge reaches its target. -/
def merge (state : State ν α) (target : ν) (carried : Finset α) : State ν α :=
  let next := cut (state.incoming target) carried
  let incoming := Function.update state.incoming target (some next.1)
  if next.2 = true ∧ target ∉ state.queued then
    { incoming, pending := state.pending ++ [target], queued := insert target state.queued }
  else { state with incoming }

def mergeAll (state : State ν α) (edges : List (ν × Finset α)) : State ν α :=
  edges.foldl (fun state edge => merge state edge.1 edge.2) state

/-- Visit queued nodes until none is left; `none` when the fuel runs out first. -/
def run (visit : ν → Option (Finset α) → Except E (List (ν × Finset α))) :
    Nat → State ν α → Option (Except E (State ν α))
  | 0, _ => none
  | fuel + 1, state =>
      match state.pending with
      | [] => some (.ok state)
      | b :: rest =>
          match visit b (state.incoming b) with
          | .error e => some (.error e)
          | .ok edges =>
              run visit fuel
                (mergeAll { state with pending := rest, queued := state.queued.erase b } edges)

/-! ## One edge -/

section Merge

variable {state : State ν α} {target : ν} {carried : Finset α}

theorem merge_incoming (state : State ν α) (target : ν) (carried : Finset α) :
    (merge state target carried).incoming =
      Function.update state.incoming target (some (cut (state.incoming target) carried).1) := by
  simp only [merge]
  split <;> rfl

theorem cut_subset_carried (old : Option (Finset α)) (carried : Finset α) :
    (cut old carried).1 ⊆ carried := by
  cases old with
  | none => exact Subset.refl _
  | some previous => exact inter_subset_right

theorem cut_subset_old (previous carried : Finset α) :
    (cut (some previous) carried).1 ⊆ previous := inter_subset_left

theorem cut_unchanged {old : Option (Finset α)} (h : (cut old carried).2 = false) :
    old = some (cut old carried).1 := by
  cases old with
  | none => cases h
  | some previous =>
      have hcard : (previous ∩ carried).card = previous.card := by simpa [cut] using h
      exact congrArg some (eq_of_subset_of_card_le inter_subset_left hcard.ge).symm

/-- The nodes queued are those in the queue, and each of them has a set. -/
structure Queue (state : State ν α) : Prop where
  mem_iff : ∀ b, b ∈ state.queued ↔ b ∈ state.pending
  nodup : state.pending.Nodup
  known : ∀ b ∈ state.pending, (state.incoming b).isSome

theorem Queue.merge (h : Queue state) (target : ν) (carried : Finset α) :
    Queue (merge state target carried) := by
  have hknown : ∀ b, (state.incoming b).isSome ∨ b = target →
      ((DefiniteFlow.merge state target carried).incoming b).isSome := by
    intro b hb
    rw [merge_incoming, Function.update_apply]
    split
    · rfl
    · next hne => exact hb.resolve_right hne
  by_cases hnew : (cut (state.incoming target) carried).2 = true ∧ target ∉ state.queued
  · have hpending : (DefiniteFlow.merge state target carried).pending =
        state.pending ++ [target] := by simp only [DefiniteFlow.merge, if_pos hnew]
    have hqueued : (DefiniteFlow.merge state target carried).queued =
        insert target state.queued := by simp only [DefiniteFlow.merge, if_pos hnew]
    refine ⟨?_, ?_, ?_⟩
    · intro b
      rw [hpending, hqueued, mem_insert, List.mem_append, List.mem_singleton, h.mem_iff b, or_comm]
    · rw [hpending, List.nodup_append]
      refine ⟨h.nodup, List.nodup_singleton _, ?_⟩
      intro a ha b hb heq
      rw [List.mem_singleton.1 hb] at heq
      exact hnew.2 ((h.mem_iff target).2 (heq ▸ ha))
    · intro b hb
      rw [hpending] at hb
      rcases List.mem_append.1 hb with hold | hin
      · exact hknown b (.inl (h.known b hold))
      · exact hknown b (.inr (List.mem_singleton.1 hin))
  · have hpending : (DefiniteFlow.merge state target carried).pending = state.pending := by
      simp only [DefiniteFlow.merge, if_neg hnew]
    have hqueued : (DefiniteFlow.merge state target carried).queued = state.queued := by
      simp only [DefiniteFlow.merge, if_neg hnew]
    refine ⟨?_, ?_, ?_⟩
    · intro b
      rw [hpending, hqueued]
      exact h.mem_iff b
    · rw [hpending]
      exact h.nodup
    · intro b hb
      rw [hpending] at hb
      exact hknown b (.inl (h.known b hb))

end Merge

/-! ## The edges of one visit -/

/-- What delivering edges does to the sets and the queue. -/
structure Delivered (before after : State ν α) (edges : List (ν × Finset α)) : Prop where
  kept : ∀ b ∈ before.pending, b ∈ after.pending
  shrunk : ∀ b d, before.incoming b = some d → ∃ d', after.incoming b = some d' ∧ d' ⊆ d
  arrived : ∀ e ∈ edges, ∃ d, after.incoming e.1 = some d ∧ d ⊆ e.2
  changed : ∀ b d, after.incoming b = some d → before.incoming b = some d ∨ b ∈ after.pending
  origin : ∀ b d, after.incoming b = some d →
    (∃ d', before.incoming b = some d' ∧ d ⊆ d') ∨ ∃ e ∈ edges, e.1 = b ∧ d ⊆ e.2
  missing : ∀ b d x, after.incoming b = some d → x ∉ d →
    (∃ d', before.incoming b = some d' ∧ x ∉ d') ∨ ∃ e ∈ edges, e.1 = b ∧ x ∉ e.2

omit [DecidableEq ν] [DecidableEq α] in
theorem Delivered.refl (state : State ν α) : Delivered state state [] where
  kept := fun _ hb => hb
  shrunk := fun _ d hd => ⟨d, hd, Subset.refl _⟩
  arrived := fun _ he => absurd he List.not_mem_nil
  changed := fun _ _ hd => .inl hd
  origin := fun _ d hd => .inl ⟨d, hd, Subset.refl _⟩
  missing := fun _ d _ hd hx => .inl ⟨d, hd, hx⟩

omit [DecidableEq ν] [DecidableEq α] in
/-- An edge that is delivered before the others. -/
theorem Delivered.cons {before mid after : State ν α} {edge : ν × Finset α}
    {edges : List (ν × Finset α)} (hfirst : Delivered before mid [edge])
    (hrest : Delivered mid after edges) : Delivered before after (edge :: edges) where
  kept := fun b hb => hrest.kept b (hfirst.kept b hb)
  shrunk := by
    intro b d hd
    obtain ⟨d', hd', hsub⟩ := hfirst.shrunk b d hd
    obtain ⟨d'', hd'', hsub'⟩ := hrest.shrunk b d' hd'
    exact ⟨d'', hd'', hsub'.trans hsub⟩
  arrived := by
    intro e he
    rcases List.mem_cons.1 he with rfl | hin
    · obtain ⟨d, hd, hsub⟩ := hfirst.arrived _ List.mem_cons_self
      obtain ⟨d', hd', hsub'⟩ := hrest.shrunk _ d hd
      exact ⟨d', hd', hsub'.trans hsub⟩
    · exact hrest.arrived e hin
  changed := by
    intro b d hd
    rcases hrest.changed b d hd with hmid | hin
    · rcases hfirst.changed b d hmid with hold | hqueued
      · exact .inl hold
      · exact .inr (hrest.kept b hqueued)
    · exact .inr hin
  origin := by
    intro b d hd
    rcases hrest.origin b d hd with ⟨d', hd', hsub⟩ | ⟨e, he, heq, hsub⟩
    · rcases hfirst.origin b d' hd' with ⟨d'', hd'', hsub'⟩ | ⟨e, he, heq, hsub'⟩
      · exact .inl ⟨d'', hd'', hsub.trans hsub'⟩
      · rw [List.mem_singleton.1 he] at heq hsub'
        exact .inr ⟨edge, List.mem_cons_self, heq, hsub.trans hsub'⟩
    · exact .inr ⟨e, List.mem_cons_of_mem _ he, heq, hsub⟩
  missing := by
    intro b d x hd hx
    rcases hrest.missing b d x hd hx with ⟨d', hd', hx'⟩ | ⟨e, he, heq, hx'⟩
    · rcases hfirst.missing b d' x hd' hx' with hold | ⟨e, he, heq, hx''⟩
      · exact .inl hold
      · rw [List.mem_singleton.1 he] at heq hx''
        exact .inr ⟨edge, List.mem_cons_self, heq, hx''⟩
    · exact .inr ⟨e, List.mem_cons_of_mem _ he, heq, hx'⟩

theorem merge_pending (state : State ν α) (target : ν) (carried : Finset α) :
    state.pending <+: (merge state target carried).pending := by
  simp only [merge]
  split
  · exact List.prefix_append _ _
  · exact List.prefix_refl _

theorem merge_delivered {state : State ν α} (hqueue : Queue state) (target : ν)
    (carried : Finset α) :
    Delivered state (merge state target carried) [(target, carried)] := by
  have hat : (merge state target carried).incoming target =
      some (cut (state.incoming target) carried).1 := by
    rw [merge_incoming, Function.update_self]
  have hoff : ∀ b, b ≠ target →
      (merge state target carried).incoming b = state.incoming b := by
    intro b hb
    rw [merge_incoming, Function.update_of_ne hb]
  refine ⟨fun b hb => (merge_pending state target carried).subset hb, ?_, ?_, ?_, ?_, ?_⟩
  · intro b d hd
    by_cases hb : b = target
    · subst hb
      refine ⟨_, hat, ?_⟩
      rw [hd]
      exact cut_subset_old d carried
    · exact ⟨d, (hoff b hb).trans hd, Subset.refl _⟩
  · intro e he
    rw [List.mem_singleton.1 he]
    exact ⟨_, hat, cut_subset_carried _ carried⟩
  · intro b d hd
    by_cases hb : b = target
    · subst hb
      rw [hat] at hd
      cases hchanged : (cut (state.incoming b) carried).2 with
      | false => exact .inl ((cut_unchanged hchanged).trans hd)
      | true =>
          by_cases hin : b ∈ state.queued
          · exact .inr ((merge_pending state b carried).subset ((hqueue.mem_iff b).1 hin))
          · refine .inr ?_
            simp only [merge, hchanged, hin, not_false_eq_true, and_self, if_true]
            exact List.mem_append_right _ (List.mem_singleton.2 rfl)
    · exact .inl ((hoff b hb).symm.trans hd)
  · intro b d hd
    by_cases hb : b = target
    · subst hb
      rw [hat] at hd
      cases hd
      exact .inr ⟨_, List.mem_cons_self, rfl, cut_subset_carried _ carried⟩
    · exact .inl ⟨d, (hoff b hb).symm.trans hd, Subset.refl _⟩
  · intro b d x hd hx
    by_cases hb : b = target
    · subst hb
      rw [hat] at hd
      cases hd
      cases hold : state.incoming b with
      | none =>
          rw [hold] at hx
          exact .inr ⟨_, List.mem_cons_self, rfl, hx⟩
      | some previous =>
          rw [hold] at hx
          by_cases hprevious : x ∈ previous
          · refine .inr ⟨_, List.mem_cons_self, rfl, ?_⟩
            intro hcarried
            exact hx (mem_inter.2 ⟨hprevious, hcarried⟩)
          · exact .inl ⟨previous, rfl, hprevious⟩
    · exact .inl ⟨d, (hoff b hb).symm.trans hd, hx⟩

theorem mergeAll_delivered {state : State ν α} (hqueue : Queue state)
    (edges : List (ν × Finset α)) :
    Queue (mergeAll state edges) ∧ Delivered state (mergeAll state edges) edges := by
  induction edges generalizing state with
  | nil => exact ⟨hqueue, .refl state⟩
  | cons edge rest ih =>
      obtain ⟨hqueue', hrest⟩ := ih (hqueue.merge edge.1 edge.2)
      exact ⟨hqueue', (merge_delivered hqueue edge.1 edge.2).cons hrest⟩

/-! ## The invariant of the loop -/

/-- The visits are what the edges say, within the nodes and the elements. -/
structure Lawful (visit : ν → Option (Finset α) → Except E (List (ν × Finset α)))
    (edges : ν → List (ν × GenKill α)) (nodes : List ν) (all : Finset α) : Prop where
  visit_eq : ∀ b ∈ nodes, ∀ d,
    visit b (some d) = .ok ((edges b).map fun e => (e.1, e.2.apply d))
  target_mem : ∀ b ∈ nodes, ∀ e ∈ edges b, e.1 ∈ nodes
  gen_subset : ∀ b ∈ nodes, ∀ e ∈ edges b, e.2.gen ⊆ all

structure Sound (edges : ν → List (ν × GenKill α)) (nodes : List ν) (all : Finset α)
    (seeds : List (ν × Finset α)) (state : State ν α) : Prop where
  queue : Queue state
  within : ∀ b d, state.incoming b = some d → b ∈ nodes ∧ d ⊆ all
  seeded : ∀ s ∈ seeds, ∃ d, state.incoming s.1 = some d ∧ d ⊆ s.2
  settled : ∀ b d, state.incoming b = some d → b ∈ state.pending ∨
    ∀ e ∈ edges b, ∃ d', state.incoming e.1 = some d' ∧ d' ⊆ e.2.apply d
  reached : ∀ b d, state.incoming b = some d → ∃ d', EntersBy edges seeds b d'
  missing : ∀ b d x, state.incoming b = some d → x ∉ d →
    ∃ d', EntersBy edges seeds b d' ∧ x ∉ d'

variable {visit : ν → Option (Finset α) → Except E (List (ν × Finset α))}
  {edges : ν → List (ν × GenKill α)} {nodes : List ν} {all : Finset α}
  {seeds : List (ν × Finset α)} {state : State ν α}

omit [DecidableEq ν] in
theorem Sound.empty : Sound edges nodes all [] (State.empty : State ν α) where
  queue := ⟨fun b => by simp [State.empty], List.nodup_nil, fun _ hb => absurd hb List.not_mem_nil⟩
  within := fun _ _ h => nomatch h
  seeded := fun _ hs => absurd hs List.not_mem_nil
  settled := fun _ _ h => nomatch h
  reached := fun _ _ h => nomatch h
  missing := fun _ _ _ h => nomatch h

/-- A seed at a node that the earlier ones do not reach. -/
theorem Sound.seed (h : Sound edges nodes all seeds state) (hempty : state.pending = []) {b : ν}
    {d : Finset α} (hb : b ∈ nodes) (hd : d ⊆ all) (hnew : ∀ d', ¬ EntersBy edges seeds b d') :
    Sound edges nodes all (seeds ++ [(b, d)]) (state.seed b d) := by
  have hnone : state.incoming b = none := by
    cases hold : state.incoming b with
    | none => rfl
    | some d' =>
        obtain ⟨d'', hpath⟩ := h.reached b d' hold
        exact absurd hpath (hnew d'')
  have hat : (state.seed b d).incoming b = some d := Function.update_self ..
  have hoff : ∀ c, c ≠ b → (state.seed b d).incoming c = state.incoming c :=
    fun c hc => Function.update_of_ne hc ..
  have hpending : (state.seed b d).pending = [b] := by rw [State.seed, hempty, List.nil_append]
  have hqueued : (state.seed b d).queued = {b} := by
    have hnil : state.queued = ∅ := by
      refine eq_empty_of_forall_notMem fun c hc => ?_
      have := (h.queue.mem_iff c).1 hc
      rw [hempty] at this
      exact List.not_mem_nil this
    rw [State.seed, hnil, insert_empty_eq]
  have hself : EntersBy edges (seeds ++ [(b, d)]) b d :=
    .seed (List.mem_append_right _ (List.mem_singleton.2 rfl))
  have hmono : ∀ {c d'}, EntersBy edges seeds c d' → EntersBy edges (seeds ++ [(b, d)]) c d' :=
    fun hpath => hpath.mono (List.subset_append_left _ _)
  refine ⟨⟨?_, ?_, ?_⟩, ?_, ?_, ?_, ?_, ?_⟩
  · intro c
    rw [hpending, hqueued, mem_singleton, List.mem_singleton]
  · rw [hpending]
    exact List.nodup_singleton _
  · intro c hc
    rw [hpending, List.mem_singleton] at hc
    rw [hc, hat]
    rfl
  · intro c d' hc
    by_cases heq : c = b
    · subst heq
      rw [hat] at hc
      cases hc
      exact ⟨hb, hd⟩
    · exact h.within c d' ((hoff c heq).symm.trans hc)
  · intro s hs
    rcases List.mem_append.1 hs with hold | hin
    · obtain ⟨d', hd', hsub⟩ := h.seeded s hold
      have hne : s.1 ≠ b := by
        intro heq
        rw [heq, hnone] at hd'
        cases hd'
      exact ⟨d', (hoff s.1 hne).trans hd', hsub⟩
    · rw [List.mem_singleton.1 hin]
      exact ⟨d, hat, Subset.refl _⟩
  · intro c d' hc
    by_cases heq : c = b
    · rw [heq, hpending]
      exact .inl (List.mem_singleton.2 rfl)
    · rcases h.settled c d' ((hoff c heq).symm.trans hc) with hin | hall
      · rw [hempty] at hin
        exact absurd hin List.not_mem_nil
      · refine .inr fun e he => ?_
        obtain ⟨d'', hd'', hsub⟩ := hall e he
        have hne : e.1 ≠ b := by
          intro heq'
          rw [heq', hnone] at hd''
          cases hd''
        exact ⟨d'', (hoff e.1 hne).trans hd'', hsub⟩
  · intro c d' hc
    by_cases heq : c = b
    · rw [heq]
      exact ⟨d, hself⟩
    · obtain ⟨d'', hpath⟩ := h.reached c d' ((hoff c heq).symm.trans hc)
      exact ⟨d'', hmono hpath⟩
  · intro c d' x hc hx
    by_cases heq : c = b
    · subst heq
      rw [hat] at hc
      cases hc
      exact ⟨d, hself, hx⟩
    · obtain ⟨d'', hpath, hx'⟩ := h.missing c d' x ((hoff c heq).symm.trans hc) hx
      exact ⟨d'', hmono hpath, hx'⟩

/-- Taking the first node off the queue. -/
def popped (state : State ν α) (b : ν) (rest : List ν) : State ν α :=
  { state with pending := rest, queued := state.queued.erase b }

omit [DecidableEq α] in
theorem Queue.pop (h : Queue state) {b : ν} {rest : List ν} (hpending : state.pending = b :: rest) :
    Queue (popped state b rest) := by
  have hnodup := h.nodup
  rw [hpending, List.nodup_cons] at hnodup
  refine ⟨?_, hnodup.2, ?_⟩
  · intro c
    show c ∈ state.queued.erase b ↔ c ∈ rest
    rw [mem_erase, h.mem_iff c, hpending, List.mem_cons]
    constructor
    · intro hc
      exact hc.2.resolve_left hc.1
    · intro hc
      exact ⟨fun heq => hnodup.1 (heq ▸ hc), .inr hc⟩
  · intro c hc
    exact h.known c (hpending ▸ List.mem_cons_of_mem _ hc)

/-- One visit keeps the invariant. -/
theorem Sound.visited (hlaw : Lawful visit edges nodes all) (h : Sound edges nodes all seeds state)
    {b : ν} {rest : List ν} (hpending : state.pending = b :: rest) {d : Finset α}
    (hb : state.incoming b = some d) :
    Sound edges nodes all seeds
      (mergeAll (popped state b rest) ((edges b).map fun e => (e.1, e.2.apply d))) := by
  obtain ⟨hmem, hsub⟩ := h.within b d hb
  obtain ⟨hqueue, hdelivered⟩ := mergeAll_delivered (h.queue.pop hpending)
    ((edges b).map fun e => (e.1, e.2.apply d))
  refine ⟨hqueue, ?_, ?_, ?_, ?_, ?_⟩
  · intro c d' hc
    rcases hdelivered.origin c d' hc with ⟨d'', hd'', hle⟩ | ⟨e, he, heq, hle⟩
    · obtain ⟨hc', hall⟩ := h.within c d'' hd''
      exact ⟨hc', hle.trans hall⟩
    · obtain ⟨edge, hedge, rfl⟩ := List.mem_map.1 he
      refine ⟨heq ▸ hlaw.target_mem b hmem edge hedge, hle.trans ?_⟩
      exact GenKill.apply_subset hsub (hlaw.gen_subset b hmem edge hedge)
  · intro s hs
    obtain ⟨d', hd', hle⟩ := h.seeded s hs
    obtain ⟨d'', hd'', hle'⟩ := hdelivered.shrunk s.1 d' hd'
    exact ⟨d'', hd'', hle'.trans hle⟩
  · intro c d' hc
    rcases hdelivered.changed c d' hc with hold | hin
    · have hold' : state.incoming c = some d' := hold
      by_cases heq : c = b
      · subst heq
        rw [hb] at hold'
        cases hold'
        refine .inr fun e he => ?_
        exact hdelivered.arrived _ (List.mem_map.2 ⟨e, he, rfl⟩)
      · rcases h.settled c d' hold' with hin | hall
        · rw [hpending] at hin
          exact .inl (hdelivered.kept c ((List.mem_cons.1 hin).resolve_left heq))
        · refine .inr fun e he => ?_
          obtain ⟨d'', hd'', hle⟩ := hall e he
          obtain ⟨d₃, hd₃, hle'⟩ := hdelivered.shrunk e.1 d'' hd''
          exact ⟨d₃, hd₃, hle'.trans hle⟩
    · exact .inl hin
  · intro c d' hc
    rcases hdelivered.origin c d' hc with ⟨d'', hd'', -⟩ | ⟨e, he, heq, -⟩
    · exact h.reached c d'' hd''
    · obtain ⟨edge, hedge, rfl⟩ := List.mem_map.1 he
      obtain ⟨d'', hpath⟩ := h.reached b d hb
      exact ⟨_, heq ▸ hpath.edge hedge⟩
  · intro c d' x hc hx
    rcases hdelivered.missing c d' x hc hx with ⟨d'', hd'', hx'⟩ | ⟨e, he, heq, hx'⟩
    · exact h.missing c d'' x hd'' hx'
    · obtain ⟨edge, hedge, rfl⟩ := List.mem_map.1 he
      subst heq
      rw [GenKill.mem_apply, not_or, not_and_not_right] at hx'
      by_cases hxd : x ∈ d
      · -- The edge removes it, whatever path led here.
        obtain ⟨d'', hpath⟩ := h.reached b d hb
        refine ⟨_, hpath.edge hedge, ?_⟩
        rw [GenKill.mem_apply, not_or, not_and_not_right]
        exact ⟨fun _ => hx'.1 hxd, hx'.2⟩
      · obtain ⟨d'', hpath, hxd'⟩ := h.missing b d x hb hxd
        refine ⟨_, hpath.edge hedge, ?_⟩
        rw [GenKill.mem_apply, not_or, not_and_not_right]
        exact ⟨fun hin => absurd hin hxd', hx'.2⟩

/-! ## Termination -/

/-- What a set may still lose, one more for a node without a set. -/
def weight (all : Finset α) : Option (Finset α) → Nat
  | none => all.card + 1
  | some d => d.card

def total (nodes : List ν) (all : Finset α) (state : State ν α) : Nat :=
  ∑ b ∈ nodes.toFinset, weight all (state.incoming b)

theorem weight_cut (old : Option (Finset α)) {carried : Finset α} (hcarried : carried ⊆ all) :
    (if (cut old carried).2 = true then 1 else 0) + weight all (some (cut old carried).1) ≤
      weight all old := by
  cases old with
  | none =>
      have hle := card_le_card hcarried
      simp only [cut, weight, if_true]
      omega
  | some previous =>
      have hle := card_le_card (inter_subset_left : previous ∩ carried ⊆ previous)
      simp only [cut, weight, decide_eq_true_eq]
      split <;> omega

/-- Queueing a node is paid for by what its set loses. -/
theorem merge_total (state : State ν α) {target : ν} (htarget : target ∈ nodes) {carried : Finset α}
    (hcarried : carried ⊆ all) :
    (merge state target carried).pending.length + total nodes all (merge state target carried) ≤
      state.pending.length + total nodes all state := by
  have hsplit := fun s : State ν α => (Finset.add_sum_erase nodes.toFinset
    (fun b => weight all (s.incoming b)) (List.mem_toFinset.2 htarget)).symm
  have hrest : ∑ b ∈ nodes.toFinset.erase target,
      weight all ((merge state target carried).incoming b) =
      ∑ b ∈ nodes.toFinset.erase target, weight all (state.incoming b) := by
    refine sum_congr rfl fun b hb => ?_
    rw [merge_incoming, Function.update_of_ne (ne_of_mem_erase hb)]
  have hpending : (merge state target carried).pending.length ≤ state.pending.length +
      if (cut (state.incoming target) carried).2 = true then 1 else 0 := by
    simp only [merge]
    split
    · next hnew => simp [hnew.1]
    · exact Nat.le_add_right _ _
  have hweight := weight_cut (state.incoming target) hcarried
  rw [total, total, hsplit, hsplit, hrest, merge_incoming, Function.update_self]
  omega

theorem mergeAll_total (state : State ν α) {delivered : List (ν × Finset α)}
    (h : ∀ e ∈ delivered, e.1 ∈ nodes ∧ e.2 ⊆ all) :
    (mergeAll state delivered).pending.length + total nodes all (mergeAll state delivered) ≤
      state.pending.length + total nodes all state := by
  induction delivered generalizing state with
  | nil => exact Nat.le_refl _
  | cons e rest ih =>
      obtain ⟨htarget, hcarried⟩ := h e List.mem_cons_self
      have hfirst := merge_total state htarget hcarried
      have hrest := ih (merge state e.1 e.2) fun e' he' => h e' (List.mem_cons_of_mem _ he')
      exact Nat.le_trans hrest hfirst

/-- Enough fuel for any state of a problem: a place for every node and everything
its set can lose. -/
def enough (nodes : List ν) (all : Finset α) : Nat := nodes.length * (all.card + 1) + 2

omit [DecidableEq α] in
theorem total_le (nodes : List ν) (hwithin : ∀ b d, state.incoming b = some d → d ⊆ all) :
    total nodes all state ≤ nodes.length * (all.card + 1) := by
  have hweight : ∀ b ∈ nodes.toFinset, weight all (state.incoming b) ≤ all.card + 1 := by
    intro b _
    cases hb : state.incoming b with
    | none => exact Nat.le_refl _
    | some d => exact Nat.le_succ_of_le (card_le_card (hwithin b d hb))
  calc total nodes all state ≤ nodes.toFinset.card * (all.card + 1) :=
        sum_le_card_nsmul _ _ _ hweight
    _ ≤ nodes.length * (all.card + 1) := Nat.mul_le_mul_right _ nodes.toFinset_card_le

/-- The loop ends, without an error, where all edges are accounted for. -/
theorem Sound.run (hlaw : Lawful visit edges nodes all) (h : Sound edges nodes all seeds state)
    {fuel : Nat} (hfuel : state.pending.length + total nodes all state < fuel) :
    ∃ final, run visit fuel state = some (.ok final) ∧ Sound edges nodes all seeds final ∧
      final.pending = [] := by
  induction fuel generalizing state with
  | zero => exact absurd hfuel (Nat.not_lt_zero _)
  | succ fuel ih =>
      rw [DefiniteFlow.run]
      cases hpending : state.pending with
      | nil => exact ⟨state, rfl, h, hpending⟩
      | cons b rest =>
          have hmem : b ∈ state.pending := by
            rw [hpending]
            exact List.mem_cons_self
          obtain ⟨d, hd⟩ := Option.isSome_iff_exists.1 (h.queue.known b hmem)
          obtain ⟨hb, hsub⟩ := h.within b d hd
          have hvisit := hlaw.visit_eq b hb d
          have hdelivered : ∀ e ∈ (edges b).map fun e => (e.1, e.2.apply d),
              e.1 ∈ nodes ∧ e.2 ⊆ all := by
            intro e he
            obtain ⟨edge, hedge, rfl⟩ := List.mem_map.1 he
            exact ⟨hlaw.target_mem b hb edge hedge,
              GenKill.apply_subset hsub (hlaw.gen_subset b hb edge hedge)⟩
          have htotal := mergeAll_total (popped state b rest) hdelivered
          have hlength : (popped state b rest).pending.length + 1 = state.pending.length := by
            rw [hpending]
            rfl
          have hsame : total nodes all (popped state b rest) = total nodes all state := rfl
          obtain ⟨final, hrun, hfinal⟩ := ih (h.visited hlaw hpending hd) (by omega)
          refine ⟨final, ?_, hfinal⟩
          simp only [hd, hvisit]
          exact hrun

/-! ## Exactness -/

/-- A state that says of every node what every path says. -/
def Exact (edges : ν → List (ν × GenKill α)) (seeds : List (ν × Finset α)) (state : State ν α) :
    Prop :=
  ∀ b, match state.incoming b with
    | none => ∀ d, ¬ EntersBy edges seeds b d
    | some d => (∃ d', EntersBy edges seeds b d') ∧
        ∀ x, x ∈ d ↔ ∀ d', EntersBy edges seeds b d' → x ∈ d'

omit [DecidableEq ν] in
theorem Sound.below (h : Sound edges nodes all seeds state) (hempty : state.pending = []) {b : ν}
    {d' : Finset α} (hpath : EntersBy edges seeds b d') :
    ∃ d, state.incoming b = some d ∧ d ⊆ d' := by
  induction hpath with
  | seed hs => exact h.seeded _ hs
  | edge _ he ih =>
      obtain ⟨d, hd, hsub⟩ := ih
      rcases h.settled _ d hd with hin | hall
      · rw [hempty] at hin
        exact absurd hin List.not_mem_nil
      · obtain ⟨d'', hd'', hsub'⟩ := hall _ he
        exact ⟨d'', hd'', hsub'.trans (GenKill.apply_mono _ hsub)⟩

omit [DecidableEq ν] in
theorem Sound.exact (h : Sound edges nodes all seeds state) (hempty : state.pending = []) :
    Exact edges seeds state := by
  intro b
  cases hb : state.incoming b with
  | none =>
      intro d hpath
      obtain ⟨d', hd', -⟩ := h.below hempty hpath
      rw [hb] at hd'
      cases hd'
  | some d =>
      refine ⟨h.reached b d hb, fun x => ⟨fun hx d' hpath => ?_, fun hall => ?_⟩⟩
      · obtain ⟨d'', hd'', hsub⟩ := h.below hempty hpath
        rw [hb] at hd''
        cases hd''
        exact hsub hx
      · by_contra hx
        obtain ⟨d', hpath, hx'⟩ := h.missing b d x hb hx
        exact hx' (hall d' hpath)

end DefiniteFlow

end Moth.Lib
