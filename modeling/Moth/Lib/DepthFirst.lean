import Mathlib.Data.Finset.Card
import Mathlib.Data.Fintype.Basic
import Mathlib.Logic.Relation
import Mathlib.Data.List.Nodup
import Moth.Lib.BreadthFirst

/-!
# Depth-first search for a cycle

A search walks the successors of a node, depth first, and stops when it meets
its target; the nodes it has entered are carried along and never entered
again. Its depth is fuel: one more than the nodes that still have successors
to offer always suffices. It answers whether a nonempty path leads to the
target.

A node that no nonempty path leads back to has a height: the number of listed
nodes it reaches. The height falls along every edge between such nodes, and is
below the number of nodes.
-/

/-!
## Reaching a target along a relation

Some sequence of steps from a node ends in a target. It is the least property
that holds of the targets and is handed back along a step, which is how a
fixed point of a backward recomputation is compared with paths.
-/

namespace Moth.Lib

variable {ν : Type*} {step : ν → ν → Prop} {target : ν → Prop}

/-- Some sequence of steps from the node ends in a target. -/
def Reach (step : ν → ν → Prop) (target : ν → Prop) (b : ν) : Prop :=
  ∃ last, Relation.ReflTransGen step b last ∧ target last

theorem Reach.here {b : ν} (h : target b) : Reach step target b :=
  ⟨b, .refl, h⟩

theorem Reach.head {b c : ν} (h : step b c) (hc : Reach step target c) : Reach step target b := by
  obtain ⟨last, hpath, hlast⟩ := hc
  exact ⟨last, .head h hpath, hlast⟩

/-- Reaching is closed backwards, and is the least property that is. -/
theorem Reach.induction {P : ν → Prop} (hhere : ∀ b, target b → P b)
    (hstep : ∀ b c, step b c → P c → P b) {b : ν} (h : Reach step target b) : P b := by
  obtain ⟨last, hpath, hlast⟩ := h
  induction hpath using Relation.ReflTransGen.head_induction_on with
  | refl => exact hhere last hlast
  | head h _ ih => exact hstep _ _ h ih

end Moth.Lib

namespace Moth.Lib

namespace FiniteGraph

variable {ν : Type*} [DecidableEq ν] (g : FiniteGraph ν)

/-- Try the successors in order, with what `search` does on one not yet entered. -/
def searchAny (target : ν) (search : ν → List ν → Option (Bool × List ν)) :
    List ν → List ν → Option (Bool × List ν)
  | [], visited => some (false, visited)
  | b :: rest, visited =>
      if b = target then some (true, visited)
      else if b ∈ visited then searchAny target search rest visited
      else
        match search b (b :: visited) with
        | some (false, visited') => searchAny target search rest visited'
        | answer => answer

/-- Whether the search from a node meets the target, and the nodes entered; `none` where the
fuel is too small. -/
def search (target : ν) : Nat → ν → List ν → Option (Bool × List ν)
  | 0, _, _ => none
  | fuel + 1, current, visited =>
      match g.successors current with
      | none => some (false, visited)
      | some next => searchAny target (search target fuel) next visited

variable {g}

/-! ## What an answer means -/

/-- The entered nodes beyond a list have all their successors entered, none of them the target. -/
def Closed (g : FiniteGraph ν) (target : ν) (before after : List ν) : Prop :=
  ∀ b ∈ after, b ∉ before → ∀ c, g.Edge b c → c ≠ target ∧ c ∈ after

/-- What a search that failed has established about the successors it was given. -/
structure Exhausted (g : FiniteGraph ν) (target : ν) (next before after : List ν) : Prop where
  kept : ∀ b ∈ before, b ∈ after
  entered : ∀ b ∈ next, b ≠ target ∧ b ∈ after
  closed : g.Closed target before after

theorem Exhausted.cons {target b : ν} {rest before middle after : List ν} (hne : b ≠ target)
    {next : List ν} (hsucc : ∀ c, g.Edge b c → c ∈ next)
    (hfirst : g.Exhausted target next (b :: before) middle)
    (hrest : g.Exhausted target rest middle after) :
    g.Exhausted target (b :: rest) before after := by
  refine ⟨fun a ha => ?_, fun a ha => ?_, fun a ha hnew c hc => ?_⟩
  · exact hrest.kept a (hfirst.kept a (List.mem_cons_of_mem _ ha))
  · cases List.mem_cons.1 ha with
    | inl heq =>
        rw [heq]
        exact ⟨hne, hrest.kept b (hfirst.kept b List.mem_cons_self)⟩
    | inr hin => exact hrest.entered a hin
  · by_cases hmiddle : a ∈ middle
    · by_cases heq : a = b
      · subst heq
        obtain ⟨hc', hin⟩ := hfirst.entered c (hsucc c hc)
        exact ⟨hc', hrest.kept c hin⟩
      · have hout : a ∉ b :: before := by
          intro hin
          cases List.mem_cons.1 hin with
          | inl h => exact heq h
          | inr h => exact hnew h
        obtain ⟨hc', hin⟩ := hfirst.closed a hmiddle hout c hc
        exact ⟨hc', hrest.kept c hin⟩
    · exact hrest.closed a ha hmiddle c hc

theorem searchAny_exhausted {target : ν} {search : ν → List ν → Option (Bool × List ν)}
    (hsearch : ∀ b visited after, search b visited = some (false, after) →
      ∃ next, (∀ c, g.Edge b c → c ∈ next) ∧ g.Exhausted target next visited after)
    {next visited after : List ν}
    (h : searchAny target search next visited = some (false, after)) :
    g.Exhausted target next visited after := by
  induction next generalizing visited with
  | nil =>
      cases h
      exact ⟨fun _ hb => hb, fun _ hb => absurd hb List.not_mem_nil,
        fun b hb hnew => absurd hb hnew⟩
  | cons b rest ih =>
      rw [searchAny] at h
      split at h
      · cases h
      · next hne =>
          split at h
          · next hin =>
              have hrest := ih h
              refine ⟨hrest.kept, fun a ha => ?_, hrest.closed⟩
              cases List.mem_cons.1 ha with
              | inl heq =>
                  rw [heq]
                  exact ⟨hne, hrest.kept b hin⟩
              | inr hmem => exact hrest.entered a hmem
          · split at h
            · next middle hmiddle =>
                obtain ⟨next', hsucc, hfirst⟩ := hsearch b _ _ hmiddle
                exact hfirst.cons hne hsucc (ih h)
            · next hother => exact absurd h (hother after)

theorem search_exhausted {target : ν} {fuel : Nat} {current : ν} {visited after : List ν}
    (h : g.search target fuel current visited = some (false, after)) :
    ∃ next, (∀ c, g.Edge current c → c ∈ next) ∧ g.Exhausted target next visited after := by
  induction fuel generalizing current visited after with
  | zero => cases h
  | succ fuel ih =>
      rw [search] at h
      split at h
      · next hnone =>
          cases h
          refine ⟨[], fun c hc => ?_, fun _ hb => hb, fun _ hb => absurd hb List.not_mem_nil,
            fun b hb hnew => absurd hb hnew⟩
          obtain ⟨next, hnext, -⟩ := hc
          rw [hnone] at hnext
          cases hnext
      · next next hnext =>
          refine ⟨next, fun c hc => ?_, searchAny_exhausted (fun b v a hb => ih hb) h⟩
          obtain ⟨next', hnext', hin⟩ := hc
          rw [hnext] at hnext'
          cases hnext'
          exact hin

theorem searchAny_found {target : ν} {search : ν → List ν → Option (Bool × List ν)}
    (hsearch : ∀ b visited after, search b visited = some (true, after) →
      Relation.TransGen g.Edge b target) {next visited after : List ν}
    (h : searchAny target search next visited = some (true, after)) :
    ∃ b ∈ next, Relation.ReflTransGen g.Edge b target := by
  induction next generalizing visited with
  | nil => cases h
  | cons b rest ih =>
      rw [searchAny] at h
      split at h
      · next heq => exact ⟨b, List.mem_cons_self, heq ▸ .refl⟩
      · split at h
        · obtain ⟨c, hc, hreach⟩ := ih h
          exact ⟨c, List.mem_cons_of_mem _ hc, hreach⟩
        · split at h
          · obtain ⟨c, hc, hreach⟩ := ih h
            exact ⟨c, List.mem_cons_of_mem _ hc, hreach⟩
          · exact ⟨b, List.mem_cons_self, (hsearch b _ _ h).to_reflTransGen⟩

theorem search_found {target : ν} {fuel : Nat} {current : ν} {visited after : List ν}
    (h : g.search target fuel current visited = some (true, after)) :
    Relation.TransGen g.Edge current target := by
  induction fuel generalizing current visited after with
  | zero => cases h
  | succ fuel ih =>
      rw [search] at h
      split at h
      · cases h
      · next next hnext =>
          obtain ⟨b, hb, hreach⟩ := searchAny_found (g := g) (fun b v a hb => ih hb) h
          exact .head' ⟨next, hnext, hb⟩ hreach

/-! ## Enough fuel -/

/-- The nodes with successors that have not been entered. -/
def unentered (g : FiniteGraph ν) (visited : List ν) : Nat :=
  (g.nodes.filter fun b => decide (b ∉ visited)).length

theorem unentered_le (visited visited' : List ν) (h : ∀ b ∈ visited, b ∈ visited') :
    g.unentered visited' ≤ g.unentered visited := by
  refine List.Sublist.length_le (List.monotone_filter_right _ ?_)
  intro b hb
  simp only [decide_eq_true_eq] at hb ⊢
  exact fun hin => hb (h b hin)

theorem unentered_lt {b : ν} {visited : List ν} (hb : b ∈ g.nodes) (hnew : b ∉ visited) :
    g.unentered (b :: visited) < g.unentered visited := by
  have hsplit : g.nodes.filter (fun a => decide (a ∉ b :: visited)) =
      (g.nodes.filter fun a => decide (a ∉ visited)).filter fun a => decide (a ≠ b) := by
    rw [List.filter_filter]
    refine List.filter_congr fun a _ => ?_
    simp only [List.mem_cons, not_or, ne_eq, Bool.decide_and]
  rw [unentered, hsplit]
  refine List.length_filter_lt_length_iff_exists.2 ⟨b, ?_, by simp⟩
  exact List.mem_filter.2 ⟨hb, decide_eq_true hnew⟩

theorem searchAny_isSome {target : ν} {fuel : Nat}
    {search : ν → List ν → Option (Bool × List ν)}
    (hsearch : ∀ b visited, b ∉ visited → g.unentered visited ≤ fuel →
      ∃ answer after, search b (b :: visited) = some (answer, after) ∧
        ∀ c ∈ b :: visited, c ∈ after)
    {next visited : List ν} (hfuel : g.unentered visited ≤ fuel) :
    ∃ answer after, searchAny target search next visited = some (answer, after) ∧
      ∀ b ∈ visited, b ∈ after := by
  induction next generalizing visited with
  | nil => exact ⟨false, visited, rfl, fun _ hb => hb⟩
  | cons b rest ih =>
      rw [searchAny]
      by_cases htarget : b = target
      · rw [if_pos htarget]
        exact ⟨true, visited, rfl, fun _ hb => hb⟩
      · rw [if_neg htarget]
        by_cases hin : b ∈ visited
        · rw [if_pos hin]
          exact ih hfuel
        · rw [if_neg hin]
          obtain ⟨answer, after, hanswer, hkept⟩ := hsearch b visited hin hfuel
          rw [hanswer]
          cases answer with
          | true => exact ⟨true, after, rfl, fun c hc => hkept c (List.mem_cons_of_mem _ hc)⟩
          | false =>
              have hle : g.unentered after ≤ g.unentered visited :=
                unentered_le visited after fun c hc => hkept c (List.mem_cons_of_mem _ hc)
              obtain ⟨answer', after', hanswer', hkept'⟩ := ih (Nat.le_trans hle hfuel)
              exact ⟨answer', after', hanswer',
                fun c hc => hkept' c (hkept c (List.mem_cons_of_mem _ hc))⟩

/-- Fuel for every node that may still be entered, and for two more levels. -/
theorem search_isSome {target : ν} {fuel : Nat} {current : ν} {visited : List ν}
    (hfuel : g.unentered visited + 2 ≤ fuel ∨ g.successors current = none ∧ 1 ≤ fuel) :
    ∃ answer after, g.search target fuel current visited = some (answer, after) ∧
      ∀ b ∈ visited, b ∈ after := by
  induction fuel generalizing current visited with
  | zero => omega
  | succ fuel ih =>
      rw [search]
      cases hnext : g.successors current with
      | none => exact ⟨false, visited, rfl, fun _ hb => hb⟩
      | some next =>
          have hbound : g.unentered visited + 2 ≤ fuel + 1 := by
            cases hfuel with
            | inl h => exact h
            | inr h =>
                rw [hnext] at h
                cases h.1
          have hbelow : g.unentered visited ≤ fuel - 1 := by omega
          refine searchAny_isSome (fun b seen hnew hseen => ih ?_) hbelow
          cases hb : g.successors b with
          | none => exact .inr ⟨rfl, by omega⟩
          | some _ =>
              have hlt := unentered_lt (g.mem_nodes hb) hnew
              exact .inl (by omega)

/-- The search from a node finds the target exactly along a nonempty path. -/
theorem search_iff (target current : ν) : ∃ found after,
    g.search target (g.nodes.length + 2) current [] = some (found, after) ∧
      (found = true ↔ Relation.TransGen g.Edge current target) := by
  have hfuel : g.unentered [] + 2 ≤ g.nodes.length + 2 :=
    Nat.add_le_add_right (List.length_filter_le _ _) 2
  have hsome : ∃ found after, g.search target (g.nodes.length + 2) current [] =
      some (found, after) ∧ ∀ b ∈ ([] : List ν), b ∈ after := search_isSome (.inl hfuel)
  obtain ⟨found, after, hfound, -⟩ := hsome
  refine ⟨found, after, hfound, ?_⟩
  cases found with
  | true => exact ⟨fun _ => search_found hfound, fun _ => rfl⟩
  | false =>
      obtain ⟨next, hsucc, hexhausted⟩ := search_exhausted hfound
      refine ⟨fun hfalse => absurd hfalse Bool.false_ne_true, fun hpath => ?_⟩
      have hstay : ∀ c, Relation.TransGen g.Edge current c → c ≠ target ∧ c ∈ after := by
        intro c hc
        induction hc with
        | single hedge => exact hexhausted.entered _ (hsucc _ hedge)
        | tail _ hedge ih => exact hexhausted.closed _ ih.2 List.not_mem_nil _ hedge
      exact absurd rfl (hstay target hpath).1

end FiniteGraph

/-! ## Heights -/

section Height

variable {ν : Type*} (step : ν → ν → Prop)

open Classical in
/-- The number of listed nodes at the end of a nonempty path from a node. -/
noncomputable def height (nodes : Finset ν) (b : ν) : Nat :=
  (nodes.filter fun c => Relation.TransGen step b c).card

variable {step} {nodes : Finset ν}

theorem height_lt {b c : ν} (hstep : step b c) (hc : c ∈ nodes)
    (hacyclic : ¬ Relation.TransGen step c c) : height step nodes c < height step nodes b := by
  classical
  refine Finset.card_lt_card (Finset.ssubset_iff_subset_ne.2 ⟨fun a ha => ?_, fun heq => ?_⟩)
  · rw [Finset.mem_filter] at ha ⊢
    exact ⟨ha.1, .head hstep ha.2⟩
  · have hin : c ∈ nodes.filter fun a => Relation.TransGen step b a :=
      Finset.mem_filter.2 ⟨hc, .single hstep⟩
    rw [← heq, Finset.mem_filter] at hin
    exact hacyclic hin.2

theorem height_lt_card {b : ν} (hb : b ∈ nodes) (hacyclic : ¬ Relation.TransGen step b b) :
    height step nodes b < nodes.card := by
  classical
  refine Finset.card_lt_card (Finset.filter_ssubset.2 ⟨b, hb, hacyclic⟩)

end Height

end Moth.Lib

/-!
## Orders that put what is needed first

A list is ordered by its needs when every element stands once and after all
that it needs. Nothing in such a list needs itself, however indirectly. A
depth-first search that lists an element after what it needs is `postorder`:
which list it leaves depends on the needs and on nothing else of the elements.
-/

namespace Moth.Lib

variable {α : Type*}

/-- Built at the end, one element at a time, each after all that it needs. -/
inductive NeedsFirst (needs : α → List α) : List α → Prop
  | nil : NeedsFirst needs []
  | snoc {list : List α} {a : α} (before : NeedsFirst needs list) (fresh : a ∉ list)
      (met : ∀ b ∈ needs a, b ∈ list) : NeedsFirst needs (list ++ [a])

variable {needs : α → List α} {list : List α}

theorem NeedsFirst.nodup (h : NeedsFirst needs list) : list.Nodup := by
  induction h with
  | nil => exact List.nodup_nil
  | snoc _ hfresh _ ih =>
      refine List.nodup_append.2 ⟨ih, List.nodup_singleton _, ?_⟩
      intro b hb c hc heq
      rw [List.mem_singleton] at hc
      exact hfresh (hc ▸ heq ▸ hb)

theorem NeedsFirst.closed (h : NeedsFirst needs list) : ∀ a ∈ list, ∀ b ∈ needs a, b ∈ list := by
  induction h with
  | nil => exact fun _ ha => absurd ha List.not_mem_nil
  | snoc _ _ hmet ih =>
      intro c hc b hb
      rcases List.mem_append.1 hc with hc | hc
      · exact List.mem_append_left _ (ih c hc b hb)
      · rw [List.mem_singleton] at hc
        exact List.mem_append_left _ (hmet b (hc ▸ hb))

theorem NeedsFirst.met_before (h : NeedsFirst needs list) {before after : List α} {a : α}
    (hsplit : list = before ++ a :: after) : ∀ b ∈ needs a, b ∈ before := by
  induction h generalizing after with
  | nil => simp at hsplit
  | @snoc l c _ _ hmet ih =>
      rcases List.eq_nil_or_concat after with rfl | ⟨rest, last, rfl⟩
      · obtain ⟨hl, hc⟩ := List.append_inj' hsplit rfl
        rw [List.cons.injEq] at hc
        rw [← hl, ← hc.1]
        exact hmet
      · rw [List.concat_eq_append, ← List.cons_append, ← List.append_assoc] at hsplit
        obtain ⟨hl, -⟩ := List.append_inj' hsplit rfl
        exact ih hl

/-- An element reaches only what the list holds. -/
theorem NeedsFirst.reaches (h : NeedsFirst needs list) {a b : α} (ha : a ∈ list)
    (hreach : Relation.TransGen (fun a b => b ∈ needs a) a b) : b ∈ list := by
  induction hreach with
  | single hab => exact h.closed a ha _ hab
  | tail _ hbc ih => exact h.closed _ ih _ hbc

theorem NeedsFirst.acyclic (h : NeedsFirst needs list) :
    ∀ a ∈ list, ¬ Relation.TransGen (fun a b => b ∈ needs a) a a := by
  induction h with
  | nil => exact fun _ ha => absurd ha List.not_mem_nil
  | @snoc l c hbefore hfresh hmet ih =>
      intro a ha hcycle
      rcases List.mem_append.1 ha with ha | ha
      · exact ih a ha hcycle
      · rw [List.mem_singleton] at ha
        subst ha
        -- the first step leaves for the list before it, which nothing leaves again
        rcases Relation.TransGen.head'_iff.1 hcycle with ⟨b, hab, hba⟩
        rcases Relation.reflTransGen_iff_eq_or_transGen.1 hba with heq | hba
        · exact hfresh (heq ▸ hmet b hab)
        · exact hfresh (hbefore.reaches (hmet b hab) hba)

/-- The elements listed after a visit: what is needed first, then the element. -/
def postorder [DecidableEq α] (needs : α → List α) : Nat → List α → α → List α
  | 0, done, _ => done
  | fuel + 1, done, a =>
      if a ∈ done then done else (needs a).foldl (postorder needs fuel) done ++ [a]

section Postorder

variable [DecidableEq α]

omit [DecidableEq α] in
theorem foldl_subset {f : List α → α → List α} (hf : ∀ done a, done ⊆ f done a)
    (done targets : List α) : done ⊆ targets.foldl f done := by
  induction targets generalizing done with
  | nil => exact List.Subset.refl done
  | cons a rest ih => exact List.Subset.trans (hf done a) (ih (f done a))

theorem subset_postorder (needs : α → List α) (fuel : Nat) (done : List α) (a : α) :
    done ⊆ postorder needs fuel done a := by
  induction fuel generalizing done a with
  | zero => exact List.Subset.refl done
  | succ fuel ih =>
      rw [postorder]
      split
      · exact List.Subset.refl done
      · exact List.Subset.trans (foldl_subset ih done (needs a)) (List.subset_append_left _ _)

theorem postorder_of_mem {fuel : Nat} {done : List α} {a : α} (h : a ∈ done) :
    postorder needs fuel done a = done := by
  cases fuel with
  | zero => rfl
  | succ fuel => rw [postorder, if_pos h]

end Postorder

end Moth.Lib
