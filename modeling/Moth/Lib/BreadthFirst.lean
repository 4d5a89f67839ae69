import Mathlib.Data.List.Nodup
import Mathlib.Algebra.BigOperators.Group.List.Basic
import Mathlib.Logic.Relation

/-!
# Breadth-first collection

A graph names its nodes and gives some of them a successor list. Collection
pops a queue, skips what it has seen and appends the successors of what it
has not; it fails on a node without a successor list. Each step either
shortens the queue or spends a node that was not yet seen, which pays for the
successors it pushes.

The collected list has no duplicates, is closed under successors, contains
the nodes it started from, and contains nothing else than what a path from
one of them reaches.
-/

namespace Moth.Lib

/-- Successor lists for some nodes, all of them listed. -/
structure FiniteGraph (ν : Type*) where
  nodes : List ν
  successors : ν → Option (List ν)
  mem_nodes : ∀ {b next}, successors b = some next → b ∈ nodes

namespace FiniteGraph

variable {ν : Type*} [DecidableEq ν] (g : FiniteGraph ν)

/-- What the unseen nodes may still push, one more for each. -/
def unseenWeight (seen : List ν) : List ν → Nat
  | [] => 0
  | b :: rest =>
      (if b ∈ seen then 0 else ((g.successors b).getD []).length + 1) + unseenWeight seen rest

variable {g}

theorem unseenWeight_le {seen : List ν} {b : ν} (nodes : List ν) :
    g.unseenWeight (seen ++ [b]) nodes ≤ g.unseenWeight seen nodes := by
  induction nodes with
  | nil => exact Nat.le_refl _
  | cons c rest ih =>
      simp only [unseenWeight, List.mem_append, List.mem_singleton]
      by_cases hseen : c ∈ seen
      · rw [if_pos hseen, if_pos (Or.inl hseen)]
        omega
      · rw [if_neg hseen]
        split <;> omega

theorem unseenWeight_lt {seen : List ν} {b : ν} {next : List ν}
    (hnext : g.successors b = some next) (hunseen : b ∉ seen) {nodes : List ν}
    (hmem : b ∈ nodes) :
    g.unseenWeight (seen ++ [b]) nodes + next.length < g.unseenWeight seen nodes := by
  induction nodes with
  | nil => exact absurd hmem List.not_mem_nil
  | cons c rest ih =>
      simp only [unseenWeight, List.mem_append, List.mem_singleton]
      have hrest : g.unseenWeight (seen ++ [b]) rest ≤ g.unseenWeight seen rest :=
        unseenWeight_le rest
      by_cases heq : c = b
      · subst heq
        rw [if_pos (Or.inr rfl), if_neg hunseen, hnext]
        simp only [Option.getD_some]
        omega
      · have hin : b ∈ rest := by
          cases List.mem_cons.1 hmem with
          | inl h => exact absurd h.symm heq
          | inr h => exact h
        have := ih hin
        by_cases hseen : c ∈ seen
        · rw [if_pos hseen, if_pos (Or.inl hseen)]
          omega
        · rw [if_neg hseen, if_neg (by simp [hseen, heq])]
          omega

variable (g)

/-- The collection loop: the queue, and the nodes seen so far in order. -/
def collect (order queue : List ν) : Option (List ν) :=
  match queue with
  | [] => some order
  | b :: rest =>
      if b ∈ order then collect order rest
      else
        match _hnext : g.successors b with
        | none => none
        | some next => collect (order ++ [b]) (rest ++ next)
termination_by g.unseenWeight order g.nodes + queue.length
decreasing_by
  · simp only [List.length_cons]
    omega
  · have hlt := unseenWeight_lt _hnext (by assumption) (g.mem_nodes _hnext)
    simp only [List.length_cons, List.length_append]
    omega

/-- One edge of the graph. -/
def Edge (b c : ν) : Prop := ∃ next, g.successors b = some next ∧ c ∈ next

variable {g}

/-- Every seen node has its successors seen or queued. -/
def Pending (g : FiniteGraph ν) (order queue : List ν) : Prop :=
  ∀ b ∈ order, ∃ next, g.successors b = some next ∧ ∀ c ∈ next, c ∈ order ∨ c ∈ queue

/-- What the loop adds: everything queued, closed under successors, each node once. -/
theorem collect_closed {order queue result : List ν} (hpending : g.Pending order queue)
    (hnodup : order.Nodup) (h : g.collect order queue = some result) :
    (∀ b ∈ order, b ∈ result) ∧ (∀ b ∈ queue, b ∈ result) ∧ result.Nodup ∧
      ∀ b ∈ result, ∃ next, g.successors b = some next ∧ ∀ c ∈ next, c ∈ result := by
  fun_induction collect g order queue with
  | case1 order =>
      cases h
      refine ⟨fun _ hmem => hmem, fun _ hmem => absurd hmem List.not_mem_nil, hnodup, ?_⟩
      intro b hmem
      obtain ⟨next, hnext, hall⟩ := hpending b hmem
      exact ⟨next, hnext, fun c hc => (hall c hc).resolve_right List.not_mem_nil⟩
  | case2 order b rest hseen ih =>
      have hpending' : g.Pending order rest := by
        intro a hmem
        obtain ⟨next, hnext, hall⟩ := hpending a hmem
        refine ⟨next, hnext, fun c hc => ?_⟩
        cases hall c hc with
        | inl hin => exact Or.inl hin
        | inr hqueued =>
            cases List.mem_cons.1 hqueued with
            | inl heq => exact Or.inl (heq ▸ hseen)
            | inr hin => exact Or.inr hin
      obtain ⟨horder, hrest, hresult⟩ := ih hpending' hnodup h
      refine ⟨horder, fun c hc => ?_, hresult⟩
      cases List.mem_cons.1 hc with
      | inl heq => exact heq ▸ horder b hseen
      | inr hin => exact hrest c hin
  | case3 => cases h
  | case4 order b rest hunseen next hnext ih =>
      have hpending' : g.Pending (order ++ [b]) (rest ++ next) := by
        intro a hmem
        cases List.mem_append.1 hmem with
        | inl hold =>
            obtain ⟨next', hnext', hall⟩ := hpending a hold
            refine ⟨next', hnext', fun c hc => ?_⟩
            cases hall c hc with
            | inl hin => exact Or.inl (List.mem_append_left _ hin)
            | inr hqueued =>
                cases List.mem_cons.1 hqueued with
                | inl heq => exact Or.inl (by simp [heq])
                | inr hin => exact Or.inr (List.mem_append_left _ hin)
        | inr hnew =>
            cases List.mem_singleton.1 hnew
            exact ⟨next, hnext, fun c hc => Or.inr (List.mem_append_right _ hc)⟩
      have hnodup' : (order ++ [b]).Nodup := by
        rw [List.nodup_append]
        refine ⟨hnodup, List.nodup_singleton b, fun a ha c hc => ?_⟩
        cases List.mem_singleton.1 hc
        exact fun heq => hunseen (heq ▸ ha)
      obtain ⟨horder, hqueue, hresult⟩ := ih hpending' hnodup' h
      refine ⟨fun a ha => horder a (List.mem_append_left _ ha), fun c hc => ?_, hresult⟩
      cases List.mem_cons.1 hc with
      | inl heq => exact heq ▸ horder b (by simp)
      | inr hin => exact hqueue c (List.mem_append_left _ hin)

/-- Everything the loop adds has a property that edges carry from the start. -/
theorem collect_induction {P : ν → Prop} (hedge : ∀ b c, P b → g.Edge b c → P c)
    {order queue result : List ν} (horder : ∀ b ∈ order, P b) (hqueue : ∀ b ∈ queue, P b)
    (h : g.collect order queue = some result) : ∀ b ∈ result, P b := by
  fun_induction collect g order queue with
  | case1 order =>
      cases h
      exact horder
  | case2 order b rest hseen ih =>
      exact ih horder (fun c hc => hqueue c (List.mem_cons_of_mem _ hc)) h
  | case3 => cases h
  | case4 order b rest hunseen next hnext ih =>
      have hb := hqueue b List.mem_cons_self
      refine ih (fun a ha => ?_) (fun c hc => ?_) h
      · cases List.mem_append.1 ha with
        | inl hold => exact horder a hold
        | inr hnew => exact List.mem_singleton.1 hnew ▸ hb
      · cases List.mem_append.1 hc with
        | inl hold => exact hqueue c (List.mem_cons_of_mem _ hold)
        | inr hnew => exact hedge b c hb ⟨next, hnext, hnew⟩

/-- A collection from one node is that node's reachable set. -/
theorem collect_mem_iff {entry : ν} {result : List ν} (h : g.collect [] [entry] = some result)
    {b : ν} : b ∈ result ↔ Relation.ReflTransGen g.Edge entry b := by
  have hpending : g.Pending [] [entry] := fun b hb => absurd hb List.not_mem_nil
  obtain ⟨-, hentry, -, hclosed⟩ := collect_closed hpending List.nodup_nil h
  constructor
  · intro hb
    refine collect_induction (P := Relation.ReflTransGen g.Edge entry)
      (fun b c hb hbc => hb.tail hbc) (fun b hb => absurd hb List.not_mem_nil) ?_ h b hb
    intro c hc
    cases List.mem_singleton.1 hc
    exact Relation.ReflTransGen.refl
  · intro hreach
    induction hreach with
    | refl => exact hentry entry (List.mem_singleton.2 rfl)
    | tail _ hbc ih =>
        obtain ⟨next, hnext, hc⟩ := hbc
        obtain ⟨next', hnext', hall⟩ := hclosed _ ih
        rw [hnext] at hnext'
        cases hnext'
        exact hall _ hc

theorem collect_start {entry : ν} {result : List ν}
    (h : g.collect [] [entry] = some result) : entry ∈ result :=
  (collect_mem_iff h).2 Relation.ReflTransGen.refl

theorem collect_nodup {entry : ν} {result : List ν}
    (h : g.collect [] [entry] = some result) : result.Nodup :=
  (collect_closed (fun _ hb => absurd hb List.not_mem_nil) List.nodup_nil h).2.2.1

theorem collect_successors {entry : ν} {result : List ν}
    (h : g.collect [] [entry] = some result) :
    ∀ b ∈ result, ∃ next, g.successors b = some next ∧ ∀ c ∈ next, c ∈ result :=
  (collect_closed (fun _ hb => absurd hb List.not_mem_nil) List.nodup_nil h).2.2.2

/-! ## Exploration

A search that may stop at a node, pass over it or expand it. Unlike
collection it reads a node without a successor list as one without
successors. -/

/-- What a search does with a node it sees for the first time. -/
inductive Step (ρ : Type*) where
  | stop (answer : ρ)
  | skip
  | expand

variable {ρ : Type*}

variable (g) in
/-- The search loop: the nodes seen, and the answer it stopped with. -/
def explore (act : ν → Step ρ) (seen queue : List ν) : List ν × Option ρ :=
  match queue with
  | [] => (seen, none)
  | b :: rest =>
      if b ∈ seen then explore act seen rest
      else
        match act b with
        | .stop answer => (seen ++ [b], some answer)
        | .skip => explore act (seen ++ [b]) rest
        | .expand =>
            match _hnext : g.successors b with
            | none => explore act (seen ++ [b]) rest
            | some next => explore act (seen ++ [b]) (rest ++ next)
termination_by g.unseenWeight seen g.nodes + queue.length
decreasing_by
  · simp only [List.length_cons]
    omega
  · have hle : g.unseenWeight (seen ++ [b]) g.nodes ≤ g.unseenWeight seen g.nodes :=
      unseenWeight_le g.nodes
    simp only [List.length_cons]
    omega
  · have hle : g.unseenWeight (seen ++ [b]) g.nodes ≤ g.unseenWeight seen g.nodes :=
      unseenWeight_le g.nodes
    simp only [List.length_cons]
    omega
  · have hlt := unseenWeight_lt _hnext (by assumption) (g.mem_nodes _hnext)
    simp only [List.length_cons, List.length_append]
    omega

variable (g) in
/-- No seen node stopped the search, and expanded nodes have their successors seen or queued. -/
def Searched (act : ν → Step ρ) (seen queue : List ν) : Prop :=
  ∀ b ∈ seen, (∀ answer, act b ≠ .stop answer) ∧
    (act b = .expand → ∀ c, g.Edge b c → c ∈ seen ∨ c ∈ queue)

omit [DecidableEq ν] in
theorem Searched.seen {act : ν → Step ρ} {seen rest : List ν} {b : ν}
    (h : g.Searched act seen (b :: rest)) (hb : b ∈ seen) : g.Searched act seen rest := by
  intro a ha
  obtain ⟨hstop, hexpand⟩ := h a ha
  refine ⟨hstop, fun hact c hc => ?_⟩
  cases hexpand hact c hc with
  | inl hin => exact Or.inl hin
  | inr hqueued =>
      cases List.mem_cons.1 hqueued with
      | inl heq => exact Or.inl (heq ▸ hb)
      | inr hin => exact Or.inr hin

omit [DecidableEq ν] in
theorem Searched.push {act : ν → Step ρ} {seen rest pushed : List ν} {b : ν}
    (h : g.Searched act seen (b :: rest)) (hgo : ∀ answer, act b ≠ .stop answer)
    (hpushed : act b = .expand → ∀ c, g.Edge b c → c ∈ pushed) :
    g.Searched act (seen ++ [b]) (rest ++ pushed) := by
  intro a ha
  cases List.mem_append.1 ha with
  | inl hold =>
      obtain ⟨hstop, hexpand⟩ := h a hold
      refine ⟨hstop, fun hact c hc => ?_⟩
      cases hexpand hact c hc with
      | inl hin => exact Or.inl (List.mem_append_left _ hin)
      | inr hqueued =>
          cases List.mem_cons.1 hqueued with
          | inl heq => exact Or.inl (by simp [heq])
          | inr hin => exact Or.inr (List.mem_append_left _ hin)
  | inr hnew =>
      cases List.mem_singleton.1 hnew
      exact ⟨hgo, fun hact c hc => Or.inr (List.mem_append_right _ (hpushed hact c hc))⟩

omit [DecidableEq ν] in
theorem explored_cons {P : Prop} {seen rest result : List ν} {b : ν}
    (h : (∀ a ∈ seen ++ [b], a ∈ result) ∧ (∀ a ∈ rest, a ∈ result) ∧ P) :
    (∀ a ∈ seen, a ∈ result) ∧ (∀ a ∈ b :: rest, a ∈ result) ∧ P := by
  obtain ⟨hseen, hrest, hresult⟩ := h
  refine ⟨fun a ha => hseen a (List.mem_append_left _ ha), fun a ha => ?_, hresult⟩
  cases List.mem_cons.1 ha with
  | inl heq => exact hseen a (by simp [heq])
  | inr hin => exact hrest a hin

/-- A search without an answer saw everything queued, stopped nowhere, and saw the successors of
every node it expanded. -/
theorem explore_eq_none {act : ν → Step ρ} {seen queue : List ν}
    (hsearched : g.Searched act seen queue) (h : (g.explore act seen queue).2 = none) :
    (∀ b ∈ seen, b ∈ (g.explore act seen queue).1) ∧
      (∀ b ∈ queue, b ∈ (g.explore act seen queue).1) ∧
      g.Searched act (g.explore act seen queue).1 [] := by
  fun_induction explore g act seen queue with
  | case1 seen =>
      exact ⟨fun _ hmem => hmem, fun _ hmem => absurd hmem List.not_mem_nil, hsearched⟩
  | case2 seen b rest hb ih =>
      obtain ⟨hseen, hrest, hresult⟩ := ih (hsearched.seen hb) h
      refine ⟨hseen, fun c hc => ?_, hresult⟩
      cases List.mem_cons.1 hc with
      | inl heq => exact heq ▸ hseen b hb
      | inr hin => exact hrest c hin
  | case3 seen b rest hb answer hact => cases h
  | case4 seen b rest hb hact ih =>
      have hnext : g.Searched act (seen ++ [b]) (rest ++ []) :=
        hsearched.push (by simp [hact]) (by simp [hact])
      rw [List.append_nil] at hnext
      exact explored_cons (ih hnext h)
  | case5 seen b rest hb hact hnone ih =>
      have hnext : g.Searched act (seen ++ [b]) (rest ++ []) := by
        refine hsearched.push (by simp [hact]) fun _ c hc => ?_
        obtain ⟨next, hsome, -⟩ := hc
        rw [hnone] at hsome
        cases hsome
      rw [List.append_nil] at hnext
      exact explored_cons (ih hnext h)
  | case6 seen b rest hb hact next hnext ih =>
      have hpushed : g.Searched act (seen ++ [b]) (rest ++ next) := by
        refine hsearched.push (by simp [hact]) fun _ c hc => ?_
        obtain ⟨next', hsome, hin⟩ := hc
        rw [hnext] at hsome
        cases hsome
        exact hin
      obtain ⟨hseen, hqueue, hresult⟩ := ih hpushed h
      exact explored_cons ⟨hseen, fun c hc => hqueue c (List.mem_append_left _ hc), hresult⟩

end FiniteGraph

end Moth.Lib