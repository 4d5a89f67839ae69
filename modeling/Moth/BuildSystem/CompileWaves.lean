import Moth.BuildSystem.DependencyEdges
import Moth.Lib.Levels

/-!
# Compile waves are dependency levels

One pass over the ready modules takes from each count the providers that just
compiled, so the counts stay the numbers of providers outside the waves, and a
module is pushed in the pass that takes its last one. When nothing is ready,
each module outside the waves waits for another, and a walk that follows such
providers closes a cycle.
-/

namespace Moth.BuildSystem

open Moth.Lib

/-! ## Counting down -/

theorem release_eq {remaining nextReady : List Nat} {consumer outstanding : Nat}
    (h : remaining[consumer]? = some (outstanding + 1)) :
    release (remaining, nextReady) consumer = some (remaining.set consumer outstanding,
      if outstanding = 0 then nextReady ++ [consumer] else nextReady) := by
  simp only [release, h, Option.bind_eq_bind, Option.bind_some, Nat.add_sub_cancel]
  rw [if_neg (Nat.succ_ne_zero _)]
  split <;> rfl

/-- A consumer is pushed once, when its count reaches zero. -/
theorem foldlM_release (consumers : List Nat) (remaining nextReady : List Nat)
    (hlt : ∀ c ∈ consumers, c < remaining.length)
    (hcount : ∀ c r, remaining[c]? = some r → consumers.count c ≤ r)
    (hnodup : nextReady.Nodup) (hzero : ∀ c ∈ nextReady, remaining[c]? = some 0) :
    ∃ remaining' nextReady',
      consumers.foldlM release (remaining, nextReady) = some (remaining', nextReady') ∧
      remaining'.length = remaining.length ∧
      (∀ c r, remaining[c]? = some r → remaining'[c]? = some (r - consumers.count c)) ∧
      nextReady'.Nodup ∧
      ∀ c, c ∈ nextReady' ↔
        c ∈ nextReady ∨ 0 < consumers.count c ∧ remaining[c]? = some (consumers.count c) := by
  induction consumers generalizing remaining nextReady with
  | nil =>
      refine ⟨remaining, nextReady, rfl, rfl, fun c r hr => ?_, hnodup, fun c => ?_⟩
      · rw [List.count_nil, Nat.sub_zero, hr]
      · rw [List.count_nil, or_iff_left]
        exact fun h => Nat.lt_irrefl _ h.1
  | cons d consumers ih =>
      have hd := hlt d List.mem_cons_self
      have hself : (d :: consumers).count d = consumers.count d + 1 := List.count_cons_self
      have hother : ∀ {c}, c ≠ d → (d :: consumers).count c = consumers.count c := fun h =>
        List.count_cons_of_ne (Ne.symm h)
      obtain ⟨outstanding, hget⟩ : ∃ r, remaining[d]? = some (r + 1) := by
        have hle := hcount d _ (List.getElem?_eq_getElem hd)
        rw [hself] at hle
        exact ⟨remaining[d] - 1, by
          rw [List.getElem?_eq_getElem hd, Nat.sub_add_cancel (by omega)]⟩
      have hset : ∀ c, (remaining.set d outstanding)[c]? =
          if d = c then some outstanding else remaining[c]? := by
        intro c
        rw [List.getElem?_set, if_pos hd]
      have hfresh : d ∉ nextReady := by
        intro hin
        have hz := hzero d hin
        rw [hget] at hz
        cases hz
      obtain ⟨remaining', nextReady', hfold, hlength, hvalues, hnodup', hmem⟩ :=
        ih (remaining.set d outstanding)
          (if outstanding = 0 then nextReady ++ [d] else nextReady)
          (by
            intro c hc
            rw [List.length_set]
            exact hlt c (List.mem_cons_of_mem _ hc))
          (by
            intro c r hr
            rw [hset] at hr
            split at hr
            · rename_i heq
              subst heq
              cases hr
              have hle := hcount d _ hget
              omega
            · rename_i hne
              have hle := hcount c r hr
              rwa [hother (Ne.symm hne)] at hle)
          (by
            split
            · exact List.nodup_append'.2 ⟨hnodup, List.nodup_singleton _, fun c hc hcd =>
                hfresh (List.mem_singleton.1 hcd ▸ hc)⟩
            · exact hnodup)
          (by
            intro c hc
            rw [hset]
            split
            · rename_i heq
              subst heq
              split at hc
              · rename_i hz
                rw [hz]
              · exact absurd hc hfresh
            · rename_i hne
              refine hzero c ?_
              split at hc
              · rcases List.mem_append.1 hc with hc | hc
                · exact hc
                · exact absurd (List.mem_singleton.1 hc).symm hne
              · exact hc)
      refine ⟨remaining', nextReady', ?_, by rw [hlength, List.length_set], ?_, hnodup', ?_⟩
      · rw [List.foldlM_cons, release_eq hget]
        exact hfold
      · intro c r hr
        by_cases hc : d = c
        · subst hc
          rw [hget] at hr
          cases hr
          rw [hvalues d outstanding (by rw [hset, if_pos rfl]), hself]
          congr 1
          omega
        · rw [hvalues c r (by rw [hset, if_neg hc, hr]), hother (Ne.symm hc)]
      · intro c
        rw [hmem c, hset]
        by_cases hc : d = c
        · subst hc
          rw [hself, hget, if_pos rfl, Option.some_inj, Option.some_inj, Nat.add_right_cancel_iff]
          by_cases hz : outstanding = 0
          · have hnone := hcount d _ hget
            rw [hself] at hnone
            rw [if_pos hz]
            refine iff_of_true (.inl (List.mem_append_right _ (List.mem_singleton.2 rfl)))
              (.inr ⟨Nat.succ_pos _, by omega⟩)
          · rw [if_neg hz]
            refine or_congr_right (and_congr_left fun heq => ?_)
            omega
        · rw [hother (Ne.symm hc), if_neg hc]
          refine or_congr_left ?_
          split
          · rw [List.mem_append, List.mem_singleton, or_iff_left (Ne.symm hc)]
          · rfl

theorem foldlM_releaseConsumers {providerConsumers : List (List Nat)} {ready : List Nat}
    (hready : ∀ p ∈ ready, p < providerConsumers.length) (state : List Nat × List Nat) :
    ready.foldlM (releaseConsumers providerConsumers) state =
      (ready.flatMap fun p => (providerConsumers[p]?).getD []).foldlM release state := by
  induction ready generalizing state with
  | nil => rfl
  | cons p rest ih =>
      have hp := hready p List.mem_cons_self
      rw [List.foldlM_cons, List.flatMap_cons, List.foldlM_append, releaseConsumers,
        List.getElem?_eq_getElem hp]
      refine congrArg _ (funext fun next => ?_)
      exact ih (fun q hq => hready q (List.mem_cons_of_mem _ hq)) next

theorem count_flatMap {ready : List Nat} {row : Nat → List Nat}
    (hrow : ∀ p ∈ ready, (row p).Nodup) (c : Nat) :
    (ready.flatMap row).count c = (ready.filter fun p => decide (c ∈ row p)).length := by
  induction ready with
  | nil => rfl
  | cons p rest ih =>
      rw [List.flatMap_cons, List.count_append,
        ih fun q hq => hrow q (List.mem_cons_of_mem _ hq), List.filter_cons]
      by_cases hc : c ∈ row p
      · rw [List.count_eq_one_of_mem (hrow p List.mem_cons_self) hc, decide_eq_true hc, if_pos rfl,
          List.length_cons, Nat.add_comm]
      · rw [List.count_eq_zero_of_not_mem hc, decide_eq_false hc, Nat.zero_add]
        rfl

/-! ## The sweep -/

section Sweep

variable {moduleCount : Nat} {edge : Nat → Nat → Prop}
  {dependencyProviders providerConsumers : List (List Nat)}

/-- What holds between two passes: the waves are levels, the ready modules are the ones that wait
for nothing outside them, and each count is the number of providers outside them. -/
structure Swept (moduleCount : Nat) (edge : Nat → Nat → Prop)
    (dependencyProviders waves : List (List Nat)) (ready remaining : List Nat) : Prop where
  levels : Levels edge waves
  nonempty : [] ∉ waves
  sorted : ∀ wave ∈ waves, Ascending wave
  bounded : ∀ m ∈ waves.flatten, m < moduleCount
  ready_sorted : Ascending ready
  ready_iff : ∀ m, m ∈ ready ↔
    m < moduleCount ∧ m ∉ waves.flatten ∧ ∀ p, edge p m → p ∈ waves.flatten
  ready_tight : ∀ m ∈ ready, ∀ k, waves.length = k + 1 → ∃ p, edge p m ∧ p ∈ atLevel waves k
  remaining_length : remaining.length = moduleCount
  remaining_eq : ∀ (c : Nat) (row : List Nat), dependencyProviders[c]? = some row →
    remaining[c]? = some (row.filter fun p => decide (p ∉ waves.flatten)).length

theorem Swept.ready_new {waves : List (List Nat)} {ready remaining : List Nat}
    (h : Swept moduleCount edge dependencyProviders waves ready remaining) {m : Nat}
    (hm : m ∈ ready) : m ∉ waves.flatten := ((h.ready_iff m).1 hm).2.1

theorem Swept.push {waves : List (List Nat)} {ready remaining : List Nat}
    (h : Swept moduleCount edge dependencyProviders waves ready remaining) :
    Levels edge (waves ++ [ready]) :=
  h.levels.push h.ready_sorted.nodup (fun _ hm => h.ready_new hm)
    (fun m hm => ((h.ready_iff m).1 hm).2.2) h.ready_tight

variable (hproviders : RowsOf moduleCount edge dependencyProviders)
  (hconsumers : RowsOf moduleCount (fun consumer provider => edge provider consumer)
    providerConsumers)

include hproviders hconsumers

theorem count_consumers {ready : List Nat} (hsorted : Ascending ready)
    (hlt : ∀ p ∈ ready, p < moduleCount) {c : Nat} {row : List Nat}
    (hrow : dependencyProviders[c]? = some row) :
    (ready.flatMap fun p => (providerConsumers[p]?).getD []).count c =
      (row.filter fun p => decide (p ∈ ready)).length := by
  have hget : ∀ p ∈ ready, ∃ column, providerConsumers[p]? = some column ∧ Ascending column ∧
      ∀ c, c ∈ column ↔ edge p c := fun p hp => hconsumers.get (hlt p hp)
  rw [count_flatMap]
  · refine List.Perm.length_eq ((List.perm_ext_iff_of_nodup (hsorted.nodup.filter _)
      ((hproviders.row c row hrow).1.nodup.filter _)).2 fun p => ?_)
    rw [List.mem_filter, List.mem_filter, decide_eq_true_iff, decide_eq_true_iff, and_comm,
      and_congr_left_iff]
    intro hp
    obtain ⟨column, hcolumn, -, hmem⟩ := hget p hp
    rw [hcolumn, (hproviders.row c row hrow).2 p]
    exact hmem c
  · intro p hp
    obtain ⟨column, hcolumn, hascending, -⟩ := hget p hp
    rw [hcolumn]
    exact hascending.nodup

variable (hedge : ∀ p c, edge p c → p < moduleCount ∧ c < moduleCount)

include hedge

/-- One pass of the loop. -/
theorem Swept.pass {waves : List (List Nat)} {ready remaining : List Nat} (hne : ready ≠ [])
    (h : Swept moduleCount edge dependencyProviders waves ready remaining) :
    ∃ remaining' nextReady,
      ready.foldlM (releaseConsumers providerConsumers) (remaining, []) =
        some (remaining', nextReady) ∧
      Swept moduleCount edge dependencyProviders (waves ++ [ready])
        (nextReady.insertionSort (· ≤ ·)) remaining' := by
  have hlt : ∀ p ∈ ready, p < moduleCount := fun p hp => ((h.ready_iff p).1 hp).1
  have hrow : ∀ c < moduleCount, ∃ row, dependencyProviders[c]? = some row ∧
      ∀ p, p ∈ row ↔ edge p c := by
    intro c hc
    obtain ⟨row, hrow, -, hmem⟩ := hproviders.get hc
    exact ⟨row, hrow, hmem⟩
  have hflatten : (waves ++ [ready]).flatten = waves.flatten ++ ready := by
    rw [List.flatten_append, List.flatten_singleton]
  have hcount : ∀ (c : Nat) (row : List Nat), dependencyProviders[c]? = some row →
      (ready.flatMap fun p => (providerConsumers[p]?).getD []).count c =
        (row.filter fun p => decide (p ∈ ready)).length :=
    fun _ _ hrow => count_consumers hproviders hconsumers h.ready_sorted hlt hrow
  -- the providers outside the waves are those outside the new waves and the ready ones
  have hsplit : ∀ row : List Nat,
      (row.filter fun p => decide (p ∉ waves.flatten)).length =
        (row.filter fun p => decide (p ∉ waves.flatten ++ ready)).length +
          (row.filter fun p => decide (p ∈ ready)).length := by
    intro row
    induction row with
    | nil => rfl
    | cons p row ih =>
        rw [List.filter_cons, List.filter_cons, List.filter_cons]
        by_cases hp : p ∈ ready
        · have hout := h.ready_new hp
          simp only [hp, hout, List.mem_append, or_true, not_true_eq_false, not_false_eq_true,
            decide_true, decide_false, if_true, Bool.false_eq_true, if_false, List.length_cons, ih]
          omega
        · by_cases hin : p ∈ waves.flatten
          · simp only [hp, hin, List.mem_append, true_or, not_true_eq_false, decide_false,
              Bool.false_eq_true, if_false, ih]
          · simp only [hp, hin, List.mem_append, or_self, not_false_eq_true, decide_true,
              decide_false, if_true, Bool.false_eq_true, if_false, List.length_cons, ih]
            omega
  obtain ⟨remaining', nextReady, hfold, hlength, hvalues, hnodup, hmem⟩ :=
    foldlM_release (ready.flatMap fun p => (providerConsumers[p]?).getD []) remaining []
      (by
        intro c hc
        obtain ⟨p, hp, hcp⟩ := List.mem_flatMap.1 hc
        obtain ⟨column, hcolumn, -, hiff⟩ := hconsumers.get (hlt p hp)
        rw [hcolumn] at hcp
        rw [h.remaining_length]
        exact (hedge p c ((hiff c).1 hcp)).2)
      (by
        intro c r hr
        have hc : c < moduleCount := by
          rw [← h.remaining_length]
          exact (List.getElem?_eq_some_iff.1 hr).1
        obtain ⟨row, hrow, -⟩ := hrow c hc
        rw [h.remaining_eq c row hrow] at hr
        cases hr
        rw [hcount c row hrow, hsplit row]
        exact Nat.le_add_left _ _)
      List.nodup_nil (fun c hc => absurd hc List.not_mem_nil)
  have hremaining : ∀ (c : Nat) (row : List Nat), dependencyProviders[c]? = some row →
      remaining'[c]? =
      some (row.filter fun p => decide (p ∉ waves.flatten ++ ready)).length := by
    intro c row hrow
    rw [hvalues c _ (h.remaining_eq c row hrow), hcount c row hrow, hsplit row,
      Nat.add_sub_cancel]
  refine ⟨remaining', nextReady, ?_, ?_⟩
  · rw [foldlM_releaseConsumers fun p hp => by rw [hconsumers.length_eq]; exact hlt p hp]
    exact hfold
  have hnext : ∀ m, m ∈ nextReady ↔ m < moduleCount ∧ (∃ p, edge p m ∧ p ∈ ready) ∧
      ∀ p, edge p m → p ∈ waves.flatten ++ ready := by
    intro m
    rw [hmem m, or_iff_right List.not_mem_nil]
    by_cases hm : m < moduleCount
    · obtain ⟨row, hrow, hiff⟩ := hrow m hm
      rw [hcount m row hrow, h.remaining_eq m row hrow, Option.some_inj, hsplit row,
        and_iff_right hm]
      refine and_congr ?_ ?_
      · rw [List.length_pos_iff_exists_mem]
        refine exists_congr fun p => ?_
        rw [List.mem_filter, decide_eq_true_iff, hiff p]
      · rw [Nat.add_eq_right, List.length_eq_zero_iff, List.filter_eq_nil_iff]
        refine forall_congr' fun p => ?_
        rw [hiff p, decide_eq_true_iff, not_not]
    · rw [iff_false_right fun hin => hm hin.1, List.getElem?_eq_none]
      · rintro ⟨-, hnone⟩
        cases hnone
      · rw [h.remaining_length]
        exact Nat.not_lt.1 hm
  have hperm := List.perm_insertionSort (· ≤ ·) nextReady
  constructor
  · exact h.push
  · rw [List.mem_append, List.mem_singleton, not_or]
    exact ⟨h.nonempty, Ne.symm hne⟩
  · intro wave hwave
    rcases List.mem_append.1 hwave with hwave | hwave
    · exact h.sorted wave hwave
    · rw [List.mem_singleton.1 hwave]
      exact h.ready_sorted
  · intro m hm
    rw [hflatten] at hm
    rcases List.mem_append.1 hm with hm | hm
    · exact h.bounded m hm
    · exact hlt m hm
  · exact ascending_insertionSort hnodup
  · intro m
    rw [hperm.mem_iff, hnext m, hflatten]
    refine and_congr_right fun hm => and_congr_left fun hall => ?_
    constructor
    · rintro ⟨p, hp, hready⟩ hin
      have hout := h.ready_new hready
      rcases List.mem_append.1 hin with hin | hin
      · obtain ⟨k, hk⟩ := mem_flatten_iff.1 hin
        obtain ⟨j, -, hj⟩ := h.levels.below k m hk p hp
        exact hout (mem_flatten_iff.2 ⟨j, hj⟩)
      · exact hout (((h.ready_iff m).1 hin).2.2 p hp)
    · intro hout
      rw [List.mem_append, not_or] at hout
      by_contra hnone
      refine hout.2 ((h.ready_iff m).2 ⟨hm, hout.1, fun p hp => ?_⟩)
      rcases List.mem_append.1 (hall p hp) with hin | hin
      · exact hin
      · exact absurd ⟨p, hp, hin⟩ hnone
  · intro m hm k hk
    rw [List.length_append, List.length_singleton, Nat.add_right_cancel_iff] at hk
    obtain ⟨-, ⟨p, hp, hready⟩, -⟩ := (hnext m).1 (hperm.mem_iff.1 hm)
    refine ⟨p, hp, ?_⟩
    rw [← hk, atLevel_last]
    exact hready
  · rw [hlength, h.remaining_length]
  · rw [hflatten]
    exact hremaining

theorem Swept.run {fuel processed : Nat} {waves : List (List Nat)} {ready remaining : List Nat}
    (hprocessed : processed = waves.flatten.length) (hfuel : moduleCount < fuel + processed)
    (h : Swept moduleCount edge dependencyProviders waves ready remaining) :
    ∃ waves' remaining',
      sweep providerConsumers fuel waves processed ready remaining =
        some (waves', waves'.flatten.length, remaining') ∧
      Swept moduleCount edge dependencyProviders waves' [] remaining' := by
  induction fuel generalizing processed waves ready remaining with
  | zero =>
      have hle : waves.flatten.length ≤ moduleCount := by
        have hsub := (List.subperm_of_subset h.levels.nodup fun m hm =>
          List.mem_range.2 (h.bounded m hm)).length_le
        rwa [List.length_range] at hsub
      omega
  | succ fuel ih =>
      cases ready with
      | nil => exact ⟨waves, remaining, by rw [sweep, hprocessed], h⟩
      | cons provider rest =>
          obtain ⟨remaining', nextReady, hpass, hnext⟩ :=
            h.pass hproviders hconsumers hedge (List.cons_ne_nil _ _)
          have hlength : processed + (provider :: rest).length =
              (waves ++ [provider :: rest]).flatten.length := by
            rw [List.flatten_append, List.flatten_singleton, List.length_append, hprocessed]
          obtain ⟨waves', remaining'', hsweep, hdone⟩ := ih hlength
            (by rw [List.length_cons]; omega) hnext
          refine ⟨waves', remaining'', ?_, hdone⟩
          rw [sweep, hpass]
          exact hsweep

end Sweep

/-! ## The cycle witness -/

section Witness

variable {moduleCount : Nat} {edge : Nat → Nat → Prop} {dependencyProviders : List (List Nat)}
  {remaining : List Nat}

/-- The walk ends on a module it has come from. -/
theorem walk_spec (hproviders : RowsOf moduleCount edge dependencyProviders)
    (hblocked : ∀ m, blocked remaining m = true → m < moduleCount ∧
      ∃ p, edge p m ∧ blocked remaining p = true) {fuel : Nat} {visited : List Bool}
    {current : Nat} (hlength : visited.length = moduleCount)
    (hcurrent : blocked remaining current = true)
    (hvisited : ∀ v, visited[v]? = some true →
      Relation.TransGen (fun consumer provider => edge provider consumer) v current)
    (hfuel : visited.count false < fuel) :
    ∃ m, walk remaining dependencyProviders fuel visited current = some m ∧ m < moduleCount ∧
      Relation.TransGen (fun consumer provider => edge provider consumer) m m := by
  induction fuel generalizing visited current with
  | zero => omega
  | succ fuel ih =>
      obtain ⟨hlt, p, hp, hpblocked⟩ := hblocked current hcurrent
      have hin : current < visited.length := hlength ▸ hlt
      have hget : visited[current]? = some visited[current] := List.getElem?_eq_getElem hin
      cases hseen : visited[current] with
      | true =>
          rw [hseen] at hget
          refine ⟨current, ?_, hlt, hvisited current hget⟩
          rw [walk, hget]
          rfl
      | false =>
          rw [hseen] at hget
          obtain ⟨row, hrow, -, hmem⟩ := hproviders.get hlt
          obtain ⟨next, hnext⟩ : ∃ next, row.find? (blocked remaining) = some next :=
            Option.isSome_iff_exists.1 (List.find?_isSome.2 ⟨p, (hmem p).2 hp, hpblocked⟩)
          have hstep : edge next current := (hmem next).1 (List.mem_of_find?_eq_some hnext)
          have hcount : (visited.set current true).count false + 1 = visited.count false := by
            have hpos : 0 < visited.count false :=
              List.count_pos_iff.2 (List.mem_of_getElem? hget)
            rw [List.count_set hin, hseen]
            show visited.count false - 1 + 0 + 1 = _
            omega
          obtain ⟨m, hm, hmlt, hcycle⟩ := @ih (visited.set current true) next
            (by rw [List.length_set, hlength]) (List.find?_some hnext)
            (by
              intro v hv
              by_cases hvc : current = v
              · subst hvc
                exact .single hstep
              · rw [List.getElem?_set_ne hvc] at hv
                exact .tail (hvisited v hv) hstep)
            (by omega)
          refine ⟨m, ?_, hmlt, hcycle⟩
          rw [walk, hget, Option.bind_eq_bind, Option.bind_some, if_neg Bool.false_ne_true, hrow,
            Option.bind_eq_bind, Option.bind_some, hnext]
          exact hm

/-- A sweep that left a module out names one on a cycle. -/
theorem moduleOnDependencyCycle_spec {waves : List (List Nat)}
    (hproviders : RowsOf moduleCount edge dependencyProviders)
    (hedge : ∀ p c, edge p c → p < moduleCount ∧ c < moduleCount)
    (h : Swept moduleCount edge dependencyProviders waves [] remaining)
    (hleft : ∃ m < moduleCount, m ∉ waves.flatten) :
    ∃ m < moduleCount, moduleOnDependencyCycle remaining dependencyProviders = some m ∧
      Relation.TransGen edge m m := by
  -- a count is positive exactly where a provider is outside the waves
  have hpositive : ∀ m, blocked remaining m = true ↔
      m < moduleCount ∧ ∃ p, edge p m ∧ p ∉ waves.flatten := by
    intro m
    by_cases hm : m < moduleCount
    · obtain ⟨row, hrow, -, hmem⟩ := hproviders.get hm
      rw [blocked, h.remaining_eq m row hrow, Option.any_some, decide_eq_true_iff,
        List.length_pos_iff_exists_mem, and_iff_right hm]
      refine exists_congr fun p => ?_
      rw [List.mem_filter, decide_eq_true_iff, hmem p]
    · rw [blocked, List.getElem?_eq_none (by rw [h.remaining_length]; omega)]
      exact iff_of_false Bool.false_ne_true fun hin => hm hin.1
  have hwaits : ∀ m < moduleCount, m ∉ waves.flatten → ∃ p, edge p m ∧ p ∉ waves.flatten := by
    intro m hm hout
    by_contra hnone
    refine List.not_mem_nil ((h.ready_iff m).2 ⟨hm, hout, fun p hp => ?_⟩)
    by_contra hin
    exact hnone ⟨p, hp, hin⟩
  have hblocked : ∀ m, blocked remaining m = true → m < moduleCount ∧
      ∃ p, edge p m ∧ blocked remaining p = true := by
    intro m hm
    obtain ⟨hlt, p, hp, hout⟩ := (hpositive m).1 hm
    have hplt := (hedge p m hp).1
    exact ⟨hlt, p, hp, (hpositive p).2 ⟨hplt, hwaits p hplt hout⟩⟩
  obtain ⟨m, hm, hout⟩ := hleft
  have hfirst : ∃ start, remaining.findIdx? (fun count => decide (0 < count)) = some start ∧
      blocked remaining start = true := by
    have hat := (hpositive m).2 ⟨hm, hwaits m hm hout⟩
    cases hfind : remaining.findIdx? fun count => decide (0 < count) with
    | some start =>
        obtain ⟨hlt, hstart, -⟩ := List.findIdx?_eq_some_iff_getElem.1 hfind
        refine ⟨start, rfl, ?_⟩
        rw [blocked, List.getElem?_eq_getElem hlt]
        exact hstart
    | none =>
        have hzero := List.findIdx?_eq_none_iff.1 hfind
        rw [blocked, Option.any_eq_true] at hat
        obtain ⟨count, hcount, hpos⟩ := hat
        rw [hzero count (List.mem_of_getElem? hcount)] at hpos
        cases hpos
  obtain ⟨start, hstart, hstartBlocked⟩ := hfirst
  obtain ⟨c, hc, hclt, hcycle⟩ := @walk_spec _ _ _ _ hproviders hblocked (remaining.length + 1)
    (List.replicate remaining.length false) start
    (by rw [List.length_replicate, h.remaining_length]) hstartBlocked
    (by
      intro v hv
      cases List.eq_of_mem_replicate (List.mem_of_getElem? hv))
    (by rw [List.count_replicate_self]; exact Nat.lt_succ_self _)
  refine ⟨c, hclt, ?_, Relation.transGen_swap.1 hcycle⟩
  rw [moduleOnDependencyCycle, hstart]
  exact hc

end Witness

/-! ## The waves of a graph -/

instance (moduleCount : Nat) (offered : List (Nat × Nat)) (provider consumer : Nat) :
    Decidable (DependsOn moduleCount offered provider consumer) :=
  inferInstanceAs (Decidable (_ ∧ _ ∧ _ ∧ _))

/-- The waves partition the modules into the levels of the edges. -/
structure ExactWaves (moduleCount : Nat) (offered : List (Nat × Nat))
    (waves : List (List Nat)) : Prop where
  partition : waves.flatten.Perm (List.range moduleCount)
  nonempty : [] ∉ waves
  sorted : ∀ wave ∈ waves, Ascending wave
  wave_eq : ∀ m < moduleCount, levelOf waves m =
    ((Finset.range moduleCount).filter fun p => DependsOn moduleCount offered p m).sup
      fun p => levelOf waves p + 1

variable {dependencyProviders : List (List Nat)} {modulePaths : List String}
  {offered : List (Nat × Nat)}

theorem swept_start (hproviders : RowsOf modulePaths.length (DependsOn modulePaths.length offered)
      dependencyProviders) :
    Swept modulePaths.length (DependsOn modulePaths.length offered) dependencyProviders []
      (((ProjectModuleGraph.fromSourceTreeIndex modulePaths).nodes.zipIdx.filter fun row =>
        (dependencyProviders.map List.length)[row.2]? == some 0).map fun row => row.1.moduleId)
      (dependencyProviders.map List.length) := by
  have hready : (((ProjectModuleGraph.fromSourceTreeIndex modulePaths).nodes.zipIdx.filter
      fun row => (dependencyProviders.map List.length)[row.2]? == some 0).map
        fun row => row.1.moduleId) =
      (List.range modulePaths.length).filter fun m =>
        (dependencyProviders.map List.length)[m]? == some 0 := by
    have hrange : ∀ (paths : List String) (start : Nat),
        (((((paths.zipIdx start).map fun row =>
          ProjectModuleGraphNode.mk row.2 row.1).zipIdx start).filter fun row =>
            (dependencyProviders.map List.length)[row.2]? == some 0).map
          fun row => row.1.moduleId) =
        (List.range' start paths.length).filter fun m =>
          (dependencyProviders.map List.length)[m]? == some 0 := by
      intro paths
      induction paths with
      | nil => exact fun _ => rfl
      | cons path paths ih =>
          intro start
          rw [List.zipIdx_cons, List.map_cons, List.zipIdx_cons, List.filter_cons,
            List.length_cons, List.range'_succ, List.filter_cons, ← ih (start + 1)]
          split <;> rfl
    rw [List.range_eq_range']
    exact hrange modulePaths 0
  rw [hready]
  constructor
  · exact levels_nil
  · exact List.not_mem_nil
  · exact fun wave hwave => absurd hwave List.not_mem_nil
  · exact fun m hm => absurd hm List.not_mem_nil
  · exact List.pairwise_lt_range.filter _
  · intro m
    rw [List.mem_filter, List.mem_range, List.flatten_nil, and_iff_right List.not_mem_nil]
    refine and_congr_right fun hm => ?_
    obtain ⟨row, hrow, -, hmem⟩ := hproviders.get hm
    rw [List.getElem?_map, hrow, Option.map_some, beq_iff_eq, Option.some_inj,
      List.length_eq_zero_iff, List.eq_nil_iff_forall_not_mem]
    refine forall_congr' fun p => ?_
    rw [hmem p]
    exact ⟨fun hnot hp => absurd hp hnot, fun hall hp => List.not_mem_nil (hall hp)⟩
  · intro m _ k hk
    cases hk
  · rw [List.length_map, hproviders.length_eq]
  · intro c row hrow
    rw [List.getElem?_map, hrow, Option.map_some, List.filter_eq_self.2]
    exact fun p _ => decide_eq_true List.not_mem_nil

theorem dependsOn_lt {moduleCount : Nat} (p c : Nat) (h : DependsOn moduleCount offered p c) :
    p < moduleCount ∧ c < moduleCount := ⟨h.2.1, h.2.2.1⟩

theorem Swept.exact {waves : List (List Nat)} {remaining : List Nat} {moduleCount : Nat}
    (h : Swept moduleCount (DependsOn moduleCount offered) dependencyProviders waves [] remaining)
    (hall : ∀ m < moduleCount, m ∈ waves.flatten) : ExactWaves moduleCount offered waves where
  partition := (List.perm_ext_iff_of_nodup h.levels.nodup List.nodup_range).2 fun m => by
    rw [List.mem_range]
    exact ⟨h.bounded m, hall m⟩
  nonempty := h.nonempty
  sorted := h.sorted
  wave_eq := fun m hm => h.levels.levelOf_eq_sup (hall m hm) fun p => by
    rw [Finset.mem_filter, Finset.mem_range]
    exact ⟨And.right, fun hp => ⟨hp.2.1, hp⟩⟩

theorem length_lt_iff {waves : List (List Nat)} {moduleCount : Nat}
    (hnodup : waves.flatten.Nodup) (hbounded : ∀ m ∈ waves.flatten, m < moduleCount) :
    waves.flatten.length < moduleCount ↔ ∃ m < moduleCount, m ∉ waves.flatten := by
  have hsub : waves.flatten ⊆ List.range moduleCount := fun m hm =>
    List.mem_range.2 (hbounded m hm)
  constructor
  · intro hlt
    by_contra hnone
    have hback : List.range moduleCount ⊆ waves.flatten := by
      intro m hm
      by_contra hout
      exact hnone ⟨m, List.mem_range.1 hm, hout⟩
    have hlen := (List.subperm_of_subset List.nodup_range hback).length_le
    rw [List.length_range] at hlen
    omega
  · rintro ⟨m, hm, hout⟩
    by_contra hge
    have hperm := (List.subperm_of_subset hnodup hsub).perm_of_length_le
      (by rw [List.length_range]; omega)
    exact hout (hperm.mem_iff.2 (List.mem_range.2 hm))

theorem cycleFailure_eq {Path : Type} (internPortablePath : String → Option Path)
    {graph : ProjectModuleGraph} {remaining : List Nat} {m : Nat}
    {node : ProjectModuleGraphNode}
    (hcycle : moduleOnDependencyCycle remaining dependencyProviders = some m)
    (hnode : graph.nodes[m]? = some node) :
    ∃ failure, graph.cycleFailure internPortablePath remaining dependencyProviders =
        some failure ∧
      ((∃ interned, internPortablePath node.logicalModulePath = some interned ∧
          failure = .circularDependency interned) ∨
        internPortablePath node.logicalModulePath = none ∧ failure = .logicalPathCapacity) := by
  rw [ProjectModuleGraph.cycleFailure, hcycle, Option.bind_eq_bind, Option.bind_some, hnode,
    Option.bind_eq_bind, Option.bind_some]
  cases hpath : internPortablePath node.logicalModulePath with
  | none => exact ⟨_, rfl, .inr ⟨rfl, rfl⟩⟩
  | some interned => exact ⟨_, rfl, .inl ⟨interned, rfl, rfl⟩⟩

theorem compileWaves_frozen {Path : Type} (internPortablePath : String → Option Path)
    {nodes : List ProjectModuleGraphNode} {providerConsumers waves : List (List Nat)}
    {moduleCount processed : Nat} {remaining : List Nat} (hcount : nodes.length = moduleCount)
    (hsweep : sweep providerConsumers (moduleCount + 1) [] 0
      ((nodes.zipIdx.filter fun row =>
        (dependencyProviders.map List.length)[row.2]? == some 0).map fun row => row.1.moduleId)
      (dependencyProviders.map List.length) = some (waves, processed, remaining)) :
    (ProjectModuleGraph.mk nodes (.frozen dependencyProviders providerConsumers)).compileWaves
        internPortablePath =
      if processed < moduleCount then
        ((ProjectModuleGraph.mk nodes (.frozen dependencyProviders providerConsumers)).cycleFailure
          internPortablePath remaining dependencyProviders).bind fun failure =>
            some (.error failure)
      else some (.ok waves) := by
  rw [ProjectModuleGraph.compileWaves]
  show (sweep _ _ _ _ _ _).bind _ = _
  rw [ProjectModuleGraph.nodeCount, hcount, hsweep]
  rfl

/-- Compile waves are the exact dependency levels. -/
theorem compileWaves_exact {Path : Type} (internPortablePath : String → Option Path)
    (modulePaths : List String) (offered : List (Nat × Nat)) :
    ∃ graph result, completed modulePaths offered = some graph ∧
      graph.compileWaves internPortablePath = some result ∧
      ((∃ waves, result = .ok waves) ↔
        ∀ m, ¬ Relation.TransGen (DependsOn modulePaths.length offered) m m) ∧
      (∀ waves, result = .ok waves → ExactWaves modulePaths.length offered waves) ∧
      (∀ failure, result = .error failure → ∃ m path, modulePaths[m]? = some path ∧
        Relation.TransGen (DependsOn modulePaths.length offered) m m ∧
        ((∃ interned, internPortablePath path = some interned ∧
            failure = .circularDependency interned) ∨
          internPortablePath path = none ∧ failure = .logicalPathCapacity)) ∧
      (∀ offered', (∀ p c, DependsOn modulePaths.length offered p c ↔
          DependsOn modulePaths.length offered' p c) →
        completed modulePaths offered' = some graph) := by
  obtain ⟨dependencyProviders, providerConsumers, hgraph, hproviders, hconsumers⟩ :=
    completed_eq modulePaths offered
  have hsame : ∀ offered', (∀ p c, DependsOn modulePaths.length offered p c ↔
      DependsOn modulePaths.length offered' p c) → completed modulePaths offered' =
        some ⟨(ProjectModuleGraph.fromSourceTreeIndex modulePaths).nodes,
          .frozen dependencyProviders providerConsumers⟩ := by
    intro offered' hiff
    obtain ⟨providers', consumers', hgraph', hproviders', hconsumers'⟩ :=
      completed_eq modulePaths offered'
    rw [hgraph', (hproviders.congr hiff).unique hproviders',
      (hconsumers.congr fun c p => hiff p c).unique hconsumers']
  have hcount : (ProjectModuleGraph.fromSourceTreeIndex modulePaths).nodes.length =
      modulePaths.length := by
    rw [ProjectModuleGraph.fromSourceTreeIndex, List.length_map, List.length_zipIdx]
  obtain ⟨waves, remaining, hsweep, hswept⟩ := (swept_start hproviders).run hproviders hconsumers
    dependsOn_lt rfl (Nat.lt_succ_self modulePaths.length)
  have hlength := length_lt_iff hswept.levels.nodup hswept.bounded
  by_cases hleft : ∃ m < modulePaths.length, m ∉ waves.flatten
  · obtain ⟨m, hm, hcycleIndex, hcycle⟩ :=
      moduleOnDependencyCycle_spec hproviders dependsOn_lt hswept hleft
    have hpath : modulePaths[m]? = some modulePaths[m] := List.getElem?_eq_getElem hm
    have hnode : (ProjectModuleGraph.fromSourceTreeIndex modulePaths).nodes[m]? =
        some ⟨m, modulePaths[m]⟩ := by
      rw [ProjectModuleGraph.fromSourceTreeIndex, List.getElem?_map, List.getElem?_zipIdx, hpath,
        Option.map_some, Option.map_some, Nat.zero_add]
    obtain ⟨failure, hfailure, hnames⟩ :=
      @cycleFailure_eq _ _ internPortablePath
        ⟨(ProjectModuleGraph.fromSourceTreeIndex modulePaths).nodes,
          .frozen dependencyProviders providerConsumers⟩ _ _ _ hcycleIndex hnode
    refine ⟨_, .error failure, hgraph, ?_, ?_, ?_, ?_, hsame⟩
    · rw [compileWaves_frozen _ hcount hsweep, if_pos (hlength.2 hleft), hfailure]
      rfl
    · refine iff_of_false ?_ fun hacyclic => hacyclic m hcycle
      rintro ⟨waves', hok⟩
      cases hok
    · intro waves' hok
      cases hok
    · intro failure' herror
      cases herror
      exact ⟨m, modulePaths[m], hpath, hcycle, hnames⟩
  · have hall : ∀ m < modulePaths.length, m ∈ waves.flatten := by
      intro m hm
      by_contra hout
      exact hleft ⟨m, hm, hout⟩
    refine ⟨_, .ok waves, hgraph, ?_, ?_, ?_, ?_, hsame⟩
    · rw [compileWaves_frozen _ hcount hsweep, if_neg fun h => hleft (hlength.1 h)]
    · refine iff_of_true ⟨waves, rfl⟩ fun m => hswept.levels.acyclic ?_ m
      exact fun p c hedge => hall c hedge.2.2.1
    · intro waves' hok
      cases hok
      exact hswept.exact hall
    · intro failure herror
      cases herror

end Moth.BuildSystem
