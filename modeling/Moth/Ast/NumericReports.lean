import Moth.Ast.NumericRuns

/-!
# What a class reports

The reading functions of the class table after any run, and the demand that
finds the next pending producer below a shape. A demand walks a graph of nodes
whose children have smaller ids, with a memo of the nodes it met, and drops
settled producers from the indexes it reads; none of this changes what any
later read answers.
-/

namespace Moth.Ast.NumericConstruction

open Moth.Lib Moth.Datatypes Moth.Source

/-! ## Reading a root row -/

section Reads

variable {s : NumericConstructionState} {root : Nat → Nat} {notes : Notes} {c : Nat}

theorem Valid.readRoot (h : Valid notes s root) (hc : c < s.classes.length) {α : Type}
    (f : ClassRow → α) :
    ∃ row s', s.classes[root c]? = some row ∧ s.readRoot c f = some (f row, s') ∧
      Valid notes s' root := by
  obtain ⟨rows', hfind, hlength, hrows, hvalid⟩ := h.findRoot hc
  obtain ⟨row, hrow, _, _⟩ := h.rootRow hc
  have hrow' : rows'[root c]? = some row := by
    rw [hrows]
    exact hrow
  refine ⟨row, _, hrow, ?_, hvalid⟩
  rw [NumericConstructionState.readRoot, hfind]
  simp only [Option.bind_eq_bind, Option.bind_some, hrow']
  rfl

theorem Valid.walkToRoot (h : Valid notes s root) (hc : c < s.classes.length) :
    NumericConstructionState.walkToRoot s.classes s.classes.length c = some (root c) :=
  walkToRoot_spec _ h.linked hc (by omega)

theorem classesShareRoot_valid (h : Valid notes s root) {left right : Nat}
    (hleft : left < s.classes.length) (hright : right < s.classes.length) :
    ∃ s', s.classesShareRoot left right = some (root left == root right, s') ∧
      Valid notes s' root := by
  obtain ⟨rows₁, hfindl, hlength₁, _, hvalid₁⟩ := h.findRoot hleft
  obtain ⟨rows₂, hfindr, _, _, hvalid₂⟩ := hvalid₁.findRoot (c := right) (by
    show right < rows₁.length
    omega)
  rw [NumericConstructionState.classesShareRoot, hfindl]
  simp only [Option.bind_eq_bind, Option.bind_some]
  rw [hfindr]
  exact ⟨_, rfl, hvalid₂⟩

end Reads

/-! ## The next pending producer -/

section Demand

variable {s₀ s : NumericConstructionState} {root : Nat → Nat} {notes : Notes}

/-- The shapes below a node. -/
def childrenOf (bindings : List KnownShapeBinding) : KnownShape → List Nat
  | .Concrete _ _ => []
  | .Numeric _ => []
  | .Collection element _ => [element]
  | .Map key value => [key, value]
  | .Optional inner => [inner]
  | .DeclaredSubstitution _ start end_ =>
      (List.range' start (end_ - start)).filterMap fun index =>
        (bindings[index]?).map (·.shape)

/-- A class that a shape has at a numeric leaf. -/
inductive NumericLeaf (shapes : List KnownShape) (bindings : List KnownShapeBinding) :
    Nat → Nat → Prop
  | numeric {shape c : Nat} (h : shapes[shape]? = some (.Numeric c)) :
      NumericLeaf shapes bindings shape c
  | child {shape child c : Nat} {node : KnownShape} (h : shapes[shape]? = some node)
      (hchild : child ∈ childrenOf bindings node) (hleaf : NumericLeaf shapes bindings child c) :
      NumericLeaf shapes bindings shape c

/-- The pending producers of the class of one root. -/
def pendingOf (self : NumericConstructionState) (root : Nat → Nat) (r : Nat) : Set Nat :=
  {i | ∃ p, self.forwardProducers[i]? = some p ∧ p.state.isPending = true ∧ root p.class_ = r}

/-- The pending producers connected with a numeric leaf of a shape. -/
def pendingBelow (self : NumericConstructionState) (root : Nat → Nat) (shape : Nat) : Set Nat :=
  {i | ∃ c, NumericLeaf self.shapes self.declaredBindings shape c ∧
    i ∈ pendingOf self root (root c)}

theorem popSettled_spec (producers : List ForwardProducer) (l : List Nat)
    (hin : ∀ i ∈ l, ∃ p, producers[i]? = some p) :
    ∃ left, NumericConstructionState.popSettled producers l = some left ∧ left.Sublist l ∧
      (∀ i ∈ l, ∀ p, producers[i]? = some p → p.state.isPending = true → i ∈ left) ∧
      ∀ i, left.head? = some i → ∃ p, producers[i]? = some p ∧ p.state.isPending = true := by
  induction l with
  | nil => exact ⟨[], rfl, List.Sublist.refl _, fun _ hi => absurd hi List.not_mem_nil,
      fun _ hi => by cases hi⟩
  | cons index rest ih =>
      obtain ⟨p, hp⟩ := hin index List.mem_cons_self
      rw [NumericConstructionState.popSettled, hp]
      simp only [Option.bind_eq_bind, Option.bind_some]
      by_cases hpending : p.state.isPending = true
      · rw [if_pos hpending]
        refine ⟨index :: rest, rfl, List.Sublist.refl _, fun i hi _ _ _ => hi, ?_⟩
        intro i hi
        cases hi
        exact ⟨p, hp, hpending⟩
      · rw [if_neg hpending]
        obtain ⟨left, hleft, hsub, hkeep, hhead⟩ := ih fun i hi => hin i (List.mem_cons_of_mem _ hi)
        refine ⟨left, hleft, hsub.trans (List.sublist_cons_self _ _), ?_, hhead⟩
        intro i hi q hq hqpending
        rcases List.mem_cons.mp hi with heq | hi
        · subst heq
          rw [hp] at hq
          cases hq
          exact absurd hqpending hpending
        · exact hkeep i hi q hq hqpending

/-- The head of an index from which the settled producers were dropped. -/
theorem pendingForwardProducerForClass_valid (h : Valid notes s root) {c : Nat}
    (hc : c < s.classes.length) :
    ∃ next rows', s.pendingForwardProducerForClass c = some (next, { s with classes := rows' }) ∧
      rows'.length = s.classes.length ∧ Valid notes { s with classes := rows' } root ∧
      Earliest id (pendingOf s root (root c)) next := by
  obtain ⟨rows', hfind, hlength, _, hvalid⟩ := h.findRoot hc
  obtain ⟨row, hrow, _, hsummary⟩ := hvalid.rootRow (c := c) (by
    show c < rows'.length
    omega)
  have hrow' : rows'[root c]? = some row := hrow
  obtain ⟨left, hleft, hsub, hkeep, hhead⟩ := popSettled_spec s.forwardProducers
    row.forwardProducers fun i hi => by
      obtain ⟨p, hp, _⟩ := hsummary.indexed i hi
      exact ⟨p, hp⟩
  have hlink : ({ row with forwardProducers := left } : ClassRow).parent = row.parent := rfl
  refine ⟨left.head?, rows'.set (root c) { row with forwardProducers := left }, ?_, ?_, ?_, ?_⟩
  · rw [NumericConstructionState.pendingForwardProducerForClass, hfind]
    simp only [Option.bind_eq_bind, Option.bind_some, hrow', hleft,
      NumericConstructionState.updateRow]
    rfl
  · rw [List.length_set]
    exact hlength
  · refine hvalid.updateRoot hrow hlink rfl hvalid.inside hvalid.producers ?_ fun _ _ _ ho => ho
    refine ⟨hsummary.receivers, hsummary.ineligible, hsummary.decimal, hsummary.forward,
      hsummary.bound, hsummary.sorted.sublist hsub, ?_, ?_⟩
    · intro i hi
      exact hsummary.indexed i (hsub.subset hi)
    · intro i p hp hpending hclass
      exact hkeep i (hsummary.pending i p hp hpending hclass) p hp hpending
  · cases hcases : left with
    | nil =>
        show pendingOf s root (root c) = ∅
        ext i
        refine ⟨fun hi => ?_, fun hi => absurd hi (Set.notMem_empty i)⟩
        obtain ⟨p, hp, hpending, hclass⟩ := hi
        have hmem := hkeep i (hsummary.pending i p hp hpending hclass) p hp hpending
        rw [hcases] at hmem
        exact absurd hmem List.not_mem_nil
    | cons first rest =>
        rw [hcases] at hsub hkeep hhead
        obtain ⟨p, hp, hpending⟩ := hhead first rfl
        obtain ⟨q, hq, hclass⟩ := hsummary.indexed first (hsub.subset List.mem_cons_self)
        have hq' : s.forwardProducers[first]? = some q := hq
        rw [hp] at hq'
        cases hq'
        refine ⟨⟨p, hp, hpending, hclass⟩, fun i hi => ?_⟩
        obtain ⟨q, hq, hqpending, hqclass⟩ := hi
        rcases List.mem_cons.mp
          (hkeep i (hsummary.pending i q hq hqpending hqclass) q hq hqpending) with heq | hmem
        · rw [heq]
        · exact List.rel_of_pairwise_cons (hsummary.sorted.sublist hsub) hmem

theorem lowerProducer_spec {S T : Set Nat} {a b : Option Nat} (ha : Earliest id S a)
    (hb : Earliest id T b) : Earliest id (S ∪ T) (NumericConstructionState.lowerProducer a b) := by
  cases a with
  | none =>
      have hS : S = ∅ := ha
      rw [hS, Set.empty_union]
      cases b with
      | none => exact hb
      | some b => exact hb
  | some a =>
      cases b with
      | none =>
          have hT : T = ∅ := hb
          rw [hT, Set.union_empty]
          exact ha
      | some b =>
          show Earliest id (S ∪ T) (some (if a ≤ b then a else b))
          by_cases hle : a ≤ b
          · rw [if_pos hle]
            refine ⟨Or.inl ha.1, fun i hi => ?_⟩
            rcases hi with hi | hi
            · exact ha.2 i hi
            · exact Nat.le_trans hle (hb.2 i hi)
          · rw [if_neg hle]
            refine ⟨Or.inr hb.1, fun i hi => ?_⟩
            rcases hi with hi | hi
            · have hai : a ≤ i := ha.2 i hi
              show b ≤ i
              omega
            · exact hb.2 i hi

/-- A state of one demand: its tables are those it began with, and its memo is right. -/
structure Walking (notes : Notes) (s₀ : NumericConstructionState) (root : Nat → Nat)
    (state : NumericConstructionState) (memo : List (Nat × Option Nat)) : Prop where
  valid : Valid notes state root
  shapes : state.shapes = s₀.shapes
  bindings : state.declaredBindings = s₀.declaredBindings
  producers : state.forwardProducers = s₀.forwardProducers
  classes : state.classes.length = s₀.classes.length
  memo : ∀ shape next, memo.lookup shape = some next →
    Earliest id (pendingBelow s₀ root shape) next

/-- The answer of a walk that found the earliest of a set. -/
def Demanded (notes : Notes) (s₀ : NumericConstructionState) (root : Nat → Nat) (S : Set Nat)
    (answer : Option (Option Nat × NumericConstructionState × List (Nat × Option Nat))) : Prop :=
  ∃ next state memo, answer = some (next, state, memo) ∧ Walking notes s₀ root state memo ∧
    Earliest id S next

theorem pendingBelow_node {shape : Nat} {node : KnownShape} (hnode : s₀.shapes[shape]? = some node)
    (hnumeric : ∀ c, node ≠ .Numeric c) :
    pendingBelow s₀ root shape
      = {i | ∃ child ∈ childrenOf s₀.declaredBindings node, i ∈ pendingBelow s₀ root child} := by
  ext i
  constructor
  · intro hi
    obtain ⟨c, hleaf, hpending⟩ := hi
    cases hleaf with
    | numeric hnode' =>
        rw [hnode] at hnode'
        exact absurd (Option.some.inj hnode') (hnumeric c)
    | child hnode' hchild hleaf =>
        rw [hnode] at hnode'
        cases hnode'
        exact ⟨_, hchild, c, hleaf, hpending⟩
  · intro hi
    obtain ⟨child, hchild, c, hleaf, hpending⟩ := hi
    exact ⟨c, .child hnode hchild hleaf, hpending⟩

theorem pendingBelow_numeric {shape c : Nat} (hnode : s₀.shapes[shape]? = some (.Numeric c)) :
    pendingBelow s₀ root shape = pendingOf s₀ root (root c) := by
  ext i
  constructor
  · intro hi
    obtain ⟨d, hleaf, hpending⟩ := hi
    cases hleaf with
    | numeric hnode' =>
        rw [hnode] at hnode'
        cases hnode'
        exact hpending
    | child hnode' hchild _ =>
        rw [hnode] at hnode'
        cases hnode'
        exact absurd hchild List.not_mem_nil
  · intro hi
    exact ⟨c, .numeric hnode, hi⟩

/-- The loop over bindings, from a walk that is right for each of their shapes. -/
theorem nextPendingAmongBindings_spec
    {walk : NumericConstructionState → Nat → List (Nat × Option Nat) →
      Option (Option Nat × NumericConstructionState × List (Nat × Option Nat))} {bound : Nat}
    (hwalk : ∀ s memo shape, Walking notes s₀ root s memo → shape < bound →
      Demanded notes s₀ root (pendingBelow s₀ root shape) (walk s shape memo))
    (indices : List Nat)
    (hindices : ∀ index ∈ indices,
      ∃ edge, s₀.declaredBindings[index]? = some edge ∧ edge.shape < bound)
    {s : NumericConstructionState} {memo : List (Nat × Option Nat)} {first : Option Nat}
    {S : Set Nat} (h : Walking notes s₀ root s memo) (hfirst : Earliest id S first) :
    Demanded notes s₀ root
      (S ∪ {i | ∃ child ∈ indices.filterMap fun index =>
        (s₀.declaredBindings[index]?).map (·.shape), i ∈ pendingBelow s₀ root child})
      (NumericConstructionState.nextPendingAmongBindings walk indices s first memo) := by
  induction indices generalizing s memo first S with
  | nil =>
      have hnil : (S ∪ {i | ∃ child ∈ ([] : List Nat).filterMap fun index =>
          (s₀.declaredBindings[index]?).map (·.shape), i ∈ pendingBelow s₀ root child}) = S := by
        ext i
        refine ⟨fun hi => hi.resolve_right fun hi => ?_, Or.inl⟩
        obtain ⟨child, hchild, _⟩ := hi
        exact absurd hchild List.not_mem_nil
      rw [hnil]
      exact ⟨first, s, memo, rfl, h, hfirst⟩
  | cons index rest ih =>
      obtain ⟨edge, hedge, hbound⟩ := hindices index List.mem_cons_self
      have hedge' : s.declaredBindings[index]? = some edge := by
        rw [h.bindings]
        exact hedge
      obtain ⟨next, s', memo', hstep, hwalking, hnext⟩ := hwalk s memo edge.shape h hbound
      have hrest := ih (fun i hi => hindices i (List.mem_cons_of_mem _ hi)) hwalking
        (lowerProducer_spec hfirst hnext)
      have hcons : (S ∪ {i | ∃ child ∈ (index :: rest).filterMap fun index =>
          (s₀.declaredBindings[index]?).map (·.shape), i ∈ pendingBelow s₀ root child})
          = S ∪ pendingBelow s₀ root edge.shape ∪ {i | ∃ child ∈ rest.filterMap fun index =>
            (s₀.declaredBindings[index]?).map (·.shape), i ∈ pendingBelow s₀ root child} := by
        rw [List.filterMap_cons, hedge, Set.union_assoc]
        congr 1
        ext i
        constructor
        · intro hi
          obtain ⟨child, hchild, hi⟩ := hi
          rcases List.mem_cons.mp hchild with heq | hchild
          · rw [heq] at hi
            exact Or.inl hi
          · exact Or.inr ⟨child, hchild, hi⟩
        · intro hi
          rcases hi with hi | hi
          · exact ⟨edge.shape, List.mem_cons_self, hi⟩
          · obtain ⟨child, hchild, hi⟩ := hi
            exact ⟨child, List.mem_cons_of_mem _ hchild, hi⟩
      rw [hcons, NumericConstructionState.nextPendingAmongBindings, hedge']
      simp only [Option.bind_eq_bind, Option.bind_some, hstep]
      exact hrest

theorem Walking.remember {memo : List (Nat × Option Nat)} (h : Walking notes s₀ root s memo)
    {shape : Nat} {next : Option Nat} (hnext : Earliest id (pendingBelow s₀ root shape) next) :
    Walking notes s₀ root s ((shape, next) :: memo) where
  valid := h.valid
  shapes := h.shapes
  bindings := h.bindings
  producers := h.producers
  classes := h.classes
  memo other answer hlookup := by
    rw [List.lookup_cons] at hlookup
    by_cases heq : other = shape
    · subst heq
      rw [beq_self_eq_true] at hlookup
      cases hlookup
      exact hnext
    · rw [beq_false_of_ne heq] at hlookup
      exact h.memo other answer hlookup

/-- The walk below one node, which goes down to nodes of smaller ids. -/
theorem nextPendingForwardProducerInner_spec (fuel : Nat) {s : NumericConstructionState}
    {memo : List (Nat × Option Nat)} {shape : Nat} (h : Walking notes s₀ root s memo)
    (hshape : shape < s₀.shapes.length) (hfuel : shape < fuel) :
    Demanded notes s₀ root (pendingBelow s₀ root shape)
      (NumericConstructionState.nextPendingForwardProducerInner fuel s shape memo) := by
  induction fuel generalizing s memo shape with
  | zero => omega
  | succ fuel ih =>
      rw [NumericConstructionState.nextPendingForwardProducerInner]
      cases hlookup : memo.lookup shape with
      | some next => exact ⟨next, s, memo, rfl, h, h.memo shape next hlookup⟩
      | none =>
          have hchild : ∀ s memo child, Walking notes s₀ root s memo → child < shape →
              Demanded notes s₀ root (pendingBelow s₀ root child)
                (NumericConstructionState.nextPendingForwardProducerInner fuel s child memo) :=
            fun s memo child hw hlt => ih hw (by omega) (by omega)
          obtain ⟨node, hnode⟩ : ∃ node, s₀.shapes[shape]? = some node :=
            ⟨_, List.getElem?_eq_getElem hshape⟩
          have hnode' : s.shapes[shape]? = some node := by
            rw [h.shapes]
            exact hnode
          have hinside := h.valid.nodes shape node hnode'
          rw [h.bindings, h.classes] at hinside
          simp only [Option.bind_eq_bind, hnode', Option.bind_some]
          suffices hanswer : Demanded notes s₀ root (pendingBelow s₀ root shape)
              (NumericConstructionState.nextPendingOfNode
                (NumericConstructionState.nextPendingForwardProducerInner fuel) s memo node) by
            obtain ⟨next, s', memo', heq, hwalking, hnext⟩ := hanswer
            rw [heq]
            exact ⟨next, s', _, rfl, hwalking.remember hnext, hnext⟩
          cases node with
          | Concrete typeId span =>
              refine ⟨none, s, memo, rfl, h, ?_⟩
              rw [pendingBelow_node hnode (by simp)]
              show _ = ∅
              ext i
              refine ⟨fun hi => ?_, fun hi => absurd hi (Set.notMem_empty i)⟩
              obtain ⟨child, hmem, _⟩ := hi
              exact absurd hmem List.not_mem_nil
          | Numeric c =>
              have hc : c < s.classes.length := by
                rw [h.classes]
                exact hinside
              obtain ⟨next, rows', hpending, hlength, hvalid, hnext⟩ :=
                pendingForwardProducerForClass_valid h.valid hc
              refine ⟨next, { s with classes := rows' }, memo, ?_, ?_, ?_⟩
              · show Option.bind _ _ = _
                rw [hpending]
                rfl
              · exact ⟨hvalid, h.shapes, h.bindings, h.producers, hlength.trans h.classes, h.memo⟩
              · rw [pendingBelow_numeric hnode]
                have hsame : pendingOf s₀ root (root c) = pendingOf s root (root c) := by
                  rw [pendingOf, pendingOf, h.producers]
                rw [hsame]
                exact hnext
          | Collection element capacity =>
              have hset : pendingBelow s₀ root shape = pendingBelow s₀ root element := by
                rw [pendingBelow_node hnode (by simp)]
                ext i
                constructor
                · intro hi
                  obtain ⟨child, hmem, hi⟩ := hi
                  rw [List.mem_singleton.mp hmem] at hi
                  exact hi
                · intro hi
                  exact ⟨element, List.mem_singleton_self element, hi⟩
              rw [hset]
              exact hchild s memo element h hinside
          | Optional inner =>
              have hset : pendingBelow s₀ root shape = pendingBelow s₀ root inner := by
                rw [pendingBelow_node hnode (by simp)]
                ext i
                constructor
                · intro hi
                  obtain ⟨child, hmem, hi⟩ := hi
                  rw [List.mem_singleton.mp hmem] at hi
                  exact hi
                · intro hi
                  exact ⟨inner, List.mem_singleton_self inner, hi⟩
              rw [hset]
              exact hchild s memo inner h hinside
          | Map key value =>
              have hset : pendingBelow s₀ root shape
                  = pendingBelow s₀ root key ∪ pendingBelow s₀ root value := by
                rw [pendingBelow_node hnode (by simp)]
                ext i
                constructor
                · intro hi
                  obtain ⟨child, hmem, hi⟩ := hi
                  rcases List.mem_cons.mp hmem with heq | hmem
                  · rw [heq] at hi
                    exact Or.inl hi
                  · rw [List.mem_singleton.mp hmem] at hi
                    exact Or.inr hi
                · intro hi
                  rcases hi with hi | hi
                  · exact ⟨key, List.mem_cons_self, hi⟩
                  · exact ⟨value, List.mem_cons_of_mem _ List.mem_cons_self, hi⟩
              obtain ⟨keyNext, s₁, memo₁, hkey, hwalking₁, hkeyNext⟩ :=
                hchild s memo key h hinside.1
              obtain ⟨valueNext, s₂, memo₂, hvalue, hwalking₂, hvalueNext⟩ :=
                hchild s₁ memo₁ value hwalking₁ hinside.2
              rw [hset]
              refine ⟨_, s₂, memo₂, ?_, hwalking₂, lowerProducer_spec hkeyNext hvalueNext⟩
              rw [NumericConstructionState.nextPendingOfNode, hkey]
              simp only [Option.bind_eq_bind, Option.bind_some, hvalue]
              rfl
          | DeclaredSubstitution declared start end_ =>
              have hindices : ∀ index ∈ List.range' start (end_ - start),
                  ∃ edge, s₀.declaredBindings[index]? = some edge ∧ edge.shape < shape := by
                intro index hindex
                obtain ⟨hlo, hhi⟩ := List.mem_range'_1.mp hindex
                exact hinside index hlo (by omega)
              have hnone : Earliest id (∅ : Set Nat) none := Earliest.empty
              have hloop := nextPendingAmongBindings_spec hchild
                (List.range' start (end_ - start)) hindices h hnone
              rw [Set.empty_union] at hloop
              rw [pendingBelow_node hnode (by simp)]
              exact hloop

theorem nextPendingForwardProducer_valid (h : Valid notes s root) {shape : Nat}
    (hshape : shape < s.shapes.length) :
    ∃ next s', s.nextPendingForwardProducer shape = some (next, s') ∧ Valid notes s' root ∧
      Earliest id (pendingBelow s root shape) next := by
  have hwalking : Walking notes s root s [] :=
    ⟨h, rfl, rfl, rfl, rfl, fun _ _ hlookup => by cases hlookup⟩
  obtain ⟨next, s', memo', hinner, hwalking', hnext⟩ :=
    nextPendingForwardProducerInner_spec s.shapes.length hwalking hshape hshape
  obtain ⟨node, hnode⟩ : ∃ node, s.shapes[shape]? = some node :=
    ⟨_, List.getElem?_eq_getElem hshape⟩
  have hinside := h.nodes shape node hnode
  rw [NumericConstructionState.nextPendingForwardProducer, hnode]
  simp only [Option.bind_eq_bind, Option.bind_some]
  cases node with
  | Concrete typeId span =>
      refine ⟨none, s, rfl, h, ?_⟩
      rw [pendingBelow_node hnode (by simp)]
      show _ = ∅
      ext i
      refine ⟨fun hi => ?_, fun hi => absurd hi (Set.notMem_empty i)⟩
      obtain ⟨child, hmem, _⟩ := hi
      exact absurd hmem List.not_mem_nil
  | Numeric c =>
      obtain ⟨next, rows', hpending, _, hvalid, hnext⟩ :=
        pendingForwardProducerForClass_valid h hinside
      refine ⟨next, _, hpending, hvalid, ?_⟩
      rw [pendingBelow_numeric hnode]
      exact hnext
  | Collection element capacity =>
      rw [hinner]
      exact ⟨next, s', rfl, hwalking'.valid, hnext⟩
  | Map key value =>
      rw [hinner]
      exact ⟨next, s', rfl, hwalking'.valid, hnext⟩
  | Optional inner =>
      rw [hinner]
      exact ⟨next, s', rfl, hwalking'.valid, hnext⟩
  | DeclaredSubstitution declared start end_ =>
      rw [hinner]
      exact ⟨next, s', rfl, hwalking'.valid, hnext⟩

end Demand

/-! ## Whole runs -/

section Runs

variable {environment : TypeEnvironment} {ops : List Op} {s : NumericConstructionState}
  {root : Nat → Nat}

theorem connected_append {op : Op} (hop : ∀ left right, op ≠ .unionClasses left right)
    (c d : Nat) :
    Connected (ops ++ [op]) c d ↔ Connected ops c d := by
  have hsame : ∀ a b, Op.unionClasses a b ∈ ops ++ [op] ↔ Op.unionClasses a b ∈ ops :=
    fun a b => mem_append_of_ne (Ne.symm (hop a b))
  rw [Connected, Connected]
  simp only [hsame]

theorem step_of_valid {op : Op} (hop : ∀ left right, op ≠ .unionClasses left right)
    (hconnected : ∀ c d, Connected ops c d ↔ root c = root d)
    (h : ∃ s', step environment s op = some s' ∧
      Valid (notesOf environment (ops ++ [op])) s' root) :
    ∃ s' root', step environment s op = some s' ∧
      Valid (notesOf environment (ops ++ [op])) s' root' ∧
      ∀ c d, Connected (ops ++ [op]) c d ↔ root' c = root' d := by
  obtain ⟨s', hstep, hvalid⟩ := h
  exact ⟨s', root, hstep, hvalid, fun c d => (connected_append hop c d).trans (hconnected c d)⟩

/-- What one operation keeps, whichever it is. -/
theorem step_valid (h : Valid (notesOf environment ops) s root)
    (hconnected : ∀ c d, Connected ops c d ↔ root c = root d) {op : Op}
    (hallowed : Allowed ops s op) :
    ∃ s' root', step environment s op = some s' ∧
      Valid (notesOf environment (ops ++ [op])) s' root' ∧
      ∀ c d, Connected (ops ++ [op]) c d ↔ root' c = root' d := by
  cases op with
  | unionClasses left right =>
      obtain ⟨winner, s', root', hunion, hvalid, hroot⟩ :=
        unionClasses_valid h hconnected hallowed.1 hallowed.2
      refine ⟨s', root', ?_, hvalid, hroot⟩
      rw [step, hunion]
      rfl
  | createClass =>
      have hsilent := h.silent .createClass rfl
      exact step_of_valid (by simp) hconnected ⟨_, rfl, createClass_valid hsilent⟩
  | addOrderedReceiverWitness c t span order =>
      exact step_of_valid (by simp) hconnected
        (addOrderedReceiverWitness_valid h hallowed t span order)
  | refuseOrderedPinnedPeer c t span order =>
      exact step_of_valid (by simp) hconnected
        (refuseOrderedPinnedPeer_valid h hallowed t span order)
  | noteClassFamily c family =>
      exact step_of_valid (by simp) hconnected (noteClassFamily_valid h hallowed family)
  | pinNumericOrigin c pin =>
      exact step_of_valid (by simp) hconnected (pinNumericOrigin_valid h hallowed pin)
  | markForward c =>
      refine step_of_valid (by simp) hconnected (markForward_valid h hallowed.1 ?_)
      intro d hd
      exact hallowed.2 d ((hconnected c d).mpr hd.symm)
  | registerForwardProducer c shape fragment =>
      have hsilent := h.silent (.registerForwardProducer c shape fragment) rfl
      obtain ⟨answer, s', hregister, hvalid⟩ :=
        registerForwardProducer_valid hsilent hallowed shape fragment
      refine step_of_valid (by simp) hconnected ⟨s', ?_, hvalid⟩
      rw [step, hregister]
      rfl
  | setPendingForwardDestinations c destination start end_ =>
      have hsilent := h.silent (.setPendingForwardDestinations c destination start end_) rfl
      exact step_of_valid (by simp) hconnected
        (setPendingForwardDestinations_valid hsilent hallowed destination start end_)
  | claimPendingForwardProducer producer =>
      have hsilent := h.silent (.claimPendingForwardProducer producer) rfl
      exact step_of_valid (by simp) hconnected
        ⟨_, rfl, claimPendingForwardProducer_valid hsilent producer⟩
  | completeForwardProducer producer expression =>
      have hsilent := h.silent (.completeForwardProducer producer expression) rfl
      exact step_of_valid (by simp) hconnected
        ⟨_, rfl, completeForwardProducer_valid hsilent producer expression⟩
  | takeCompletedForwardProducer producer =>
      have hsilent := h.silent (.takeCompletedForwardProducer producer) rfl
      exact step_of_valid (by simp) hconnected
        ⟨_, rfl, takeCompletedForwardProducer_valid hsilent producer⟩
  | takeAuthoredOrder =>
      have hsilent : Valid (notesOf environment (ops ++ [.takeAuthoredOrder])) s root :=
        h.silent .takeAuthoredOrder rfl
      exact step_of_valid (by simp) hconnected ⟨_, rfl, hsilent.linked, hsilent.rows,
        hsilent.inside, hsilent.producers, hsilent.nodes, hsilent.orders⟩
  | internOrderedShape shape order =>
      have hsilent := h.silent (.internOrderedShape shape order) rfl
      exact step_of_valid (by simp) hconnected
        ⟨_, rfl, internOrderedShape_valid hsilent order hallowed⟩
  | internDeclaredSubstitution declared edges =>
      have hsilent := h.silent (.internDeclaredSubstitution declared edges) rfl
      obtain ⟨answer, s', hintern, hvalid⟩ :=
        internDeclaredSubstitution_valid hsilent declared hallowed
      refine step_of_valid (by simp) hconnected ⟨s', ?_, hvalid⟩
      rw [step, hintern]
      rfl
  | classesShareRoot left right =>
      have hsilent := h.silent (.classesShareRoot left right) rfl
      obtain ⟨s', hshare, hvalid⟩ :=
        classesShareRoot_valid hsilent hallowed.1 hallowed.2
      refine step_of_valid (by simp) hconnected ⟨s', ?_, hvalid⟩
      rw [step, hshare]
      rfl
  | firstReceiverWitness c =>
      have hsilent := h.silent (.firstReceiverWitness c) rfl
      obtain ⟨row, s', _, hread, hvalid⟩ :=
        hsilent.readRoot hallowed fun row => row.firstReceiver
      refine step_of_valid (by simp) hconnected ⟨s', ?_, hvalid⟩
      rw [step, NumericConstructionState.firstReceiverWitness, hread]
      rfl
  | classFamily c =>
      have hsilent := h.silent (.classFamily c) rfl
      obtain ⟨row, s', _, hread, hvalid⟩ :=
        hsilent.readRoot hallowed fun row => row.family.getD .Whole
      refine step_of_valid (by simp) hconnected ⟨s', ?_, hvalid⟩
      rw [step, NumericConstructionState.classFamily, hread]
      rfl
  | classPinnedFamily c =>
      have hsilent := h.silent (.classPinnedFamily c) rfl
      obtain ⟨row, s', _, hread, hvalid⟩ :=
        hsilent.readRoot hallowed fun row => row.pinnedFamily
      refine step_of_valid (by simp) hconnected ⟨s', ?_, hvalid⟩
      rw [step, NumericConstructionState.classPinnedFamily, hread]
      rfl
  | classFamilyIsDecimal c =>
      have hsilent := h.silent (.classFamilyIsDecimal c) rfl
      obtain ⟨row, s', _, hread, hvalid⟩ :=
        hsilent.readRoot hallowed fun row => row.family == some .Decimal
      refine step_of_valid (by simp) hconnected ⟨s', ?_, hvalid⟩
      rw [step, NumericConstructionState.classFamilyIsDecimal, hread]
      rfl
  | mergedReceiverType c =>
      have hsilent := h.silent (.mergedReceiverType c) rfl
      obtain ⟨row, s', _, hread, hvalid⟩ :=
        hsilent.readRoot hallowed fun row => row.mergedReceiverType
      refine step_of_valid (by simp) hconnected ⟨s', ?_, hvalid⟩
      rw [step, NumericConstructionState.mergedReceiverType, hread]
      rfl
  | nextPendingForwardProducer shape =>
      have hsilent := h.silent (.nextPendingForwardProducer shape) rfl
      obtain ⟨next, s', hdemand, hvalid, _⟩ :=
        nextPendingForwardProducer_valid hsilent hallowed
      refine step_of_valid (by simp) hconnected ⟨s', ?_, hvalid⟩
      rw [step, hdemand]
      rfl

theorem Valid.new : Valid (notesOf environment []) .new id where
  linked := by
    constructor
    · exact ⟨fun x hx => absurd rfl hx, ⟨0, fun _ => Nat.le_refl 0⟩, fun _ => rfl, fun _ _ => rfl⟩
    · intro c hc
      exact absurd hc (Nat.not_lt_zero c)
    · intro r hr
      exact absurd hr (Nat.not_lt_zero r)
    · exact Nat.zero_le _
  rows c row hrow := by cases hrow
  inside := by
    constructor
    · intro c w hw
      exact absurd hw List.not_mem_nil
    · intro c w hw
      rcases hw with hw | hw
      · exact absurd hw.1 List.not_mem_nil
      · exact absurd hw List.not_mem_nil
    · intro c hc
      exact absurd hc List.not_mem_nil
    · intro c hc
      exact absurd hc List.not_mem_nil
  producers i p hp := by cases hp
  nodes i node hnode := by cases hnode
  orders := rfl

theorem Run.valid (h : Run environment ops s) :
    ∃ root, Valid (notesOf environment ops) s root ∧
      ∀ c d, Connected ops c d ↔ root c = root d := by
  induction h with
  | start =>
      refine ⟨id, Valid.new, fun c d => ⟨fun hcd => ?_, fun hcd => ?_⟩⟩
      · induction hcd with
        | rel a b hmem => exact absurd hmem List.not_mem_nil
        | refl a => rfl
        | symm a b _ ih => exact ih.symm
        | trans a b e _ _ hab hbe => exact hab.trans hbe
      · have heq : c = d := hcd
        rw [heq]
        exact .refl d
  | step before op allowed hstep ih =>
      obtain ⟨root, hvalid, hconnected⟩ := ih
      obtain ⟨s', root', hstep', hvalid', hconnected'⟩ := step_valid hvalid hconnected allowed
      rw [hstep] at hstep'
      cases hstep'
      exact ⟨root', hvalid', hconnected'⟩

/-- What the run noted of any class that is connected with `c`. -/
def notedWith {α : Type} (ops : List Op) (noted : Nat → α → Prop) (c : Nat) : Set α :=
  {a | ∃ d, Connected ops c d ∧ noted d a}

/-- What every reading function answers for one class after a run. -/
structure ClassReport (environment : TypeEnvironment) (ops : List Op)
    (state : NumericConstructionState) (c : Nat) (row : ClassRow) : Prop where
  receivers : EarliestTwo ReceiverWitness.key ReceiverWitness.typeId
    (notedWith ops (notesOf environment ops).received c)
    (row.firstReceiver, row.differingReceiver)
  ineligible : Earliest ReceiverWitness.key
    (notedWith ops (notesOf environment ops).ineligible c) row.loopIneligibleReceiver
  decimal : row.family = some .Decimal ↔
    ∃ d, Connected ops c d ∧ Op.noteClassFamily d .Decimal ∈ ops
  forward : row.forward = true ↔ ∃ d, Connected ops c d ∧ Op.markForward d ∈ ops
  firstReceiverType : state.firstReceiverType c = some (row.firstReceiver.map (·.typeId))
  classIsForward : state.classIsForward c = some row.forward
  firstReceiverWitness : ∃ s', state.firstReceiverWitness c = some (row.firstReceiver, s')
  classFamily : ∃ s', state.classFamily c = some (row.family.getD .Whole, s')
  classFamilyIsDecimal : ∃ s',
    state.classFamilyIsDecimal c = some (row.family == some .Decimal, s')
  classPinnedFamily : ∃ s', state.classPinnedFamily c = some (row.pinnedFamily, s')
  mergedReceiverType : ∃ s', state.mergedReceiverType c = some (row.mergedReceiverType, s')
  unpinned : row.pinnedFamily = none →
    ((∃ conflict, row.mergedReceiverType = .error conflict) ↔
      ∃ v ∈ notedWith ops (notesOf environment ops).received c,
        ∃ w ∈ notedWith ops (notesOf environment ops).received c, v.typeId ≠ w.typeId) ∧
    ∀ conflict, row.mergedReceiverType = .error conflict →
      ∃ first differing, row.firstReceiver = some first ∧
        row.differingReceiver = some differing ∧ conflict = .Conflicting first differing

theorem EarliestTwo_second_isSome {S : Set ReceiverWitness}
    {kept : Option ReceiverWitness × Option ReceiverWitness}
    (h : EarliestTwo ReceiverWitness.key ReceiverWitness.typeId S kept) :
    (∃ first differing, kept = (some first, some differing)) ↔
      ∃ v ∈ S, ∃ w ∈ S, v.typeId ≠ w.typeId := by
  obtain ⟨first, second⟩ := kept
  constructor
  · intro hkept
    obtain ⟨a, b, heq⟩ := hkept
    cases heq
    obtain ⟨hmem, c, hc, hne⟩ := h.second.1
    cases hc
    exact ⟨b, hmem, a, h.first.1, hne⟩
  · intro hpair
    obtain ⟨v, hv, w, hw, hne⟩ := hpair
    obtain ⟨a, ha, _, _⟩ := h.first.exists_le hv
    have ha' : first = some a := ha
    subst ha'
    have hdiffering : ∃ u ∈ S, u.typeId ≠ a.typeId := by
      by_cases hva : v.typeId = a.typeId
      · exact ⟨w, hw, fun hwa => hne (hva.trans hwa.symm)⟩
      · exact ⟨v, hv, hva⟩
    obtain ⟨u, hu, hua⟩ := hdiffering
    obtain ⟨b, hb, _, _⟩ := h.second.exists_le ⟨hu, a, rfl, hua⟩
    have hb' : second = some b := hb
    exact ⟨a, b, by rw [hb']⟩

theorem gathered_eq_notedWith {α : Type} (hconnected : ∀ c d, Connected ops c d ↔ root c = root d)
    (noted : Nat → α → Prop) (c : Nat) :
    gathered root noted (root c) = notedWith ops noted c := by
  ext a
  exact exists_congr fun d => and_congr_left' (by rw [hconnected, eq_comm])

theorem mergedReceiverType_unpinned {row : ClassRow} (h : row.pin = .Unpinned)
    (conflict : ReceiverConflict) :
    row.mergedReceiverType = .error conflict ↔
      ∃ first differing, row.firstReceiver = some first ∧
        row.differingReceiver = some differing ∧ conflict = .Conflicting first differing := by
  rw [ClassRow.mergedReceiverType, h]
  cases row.firstReceiver with
  | none => simp
  | some first =>
      cases row.differingReceiver with
      | none => simp
      | some differing => simp [eq_comm]

theorem Run.report (h : Run environment ops s) {c : Nat} (hc : c < s.classes.length) :
    ∃ row, ClassReport environment ops s c row := by
  obtain ⟨root, hvalid, hconnected⟩ := h.valid
  obtain ⟨row, hrow, _, hsummary⟩ := hvalid.rootRow hc
  have hread : ∀ {α : Type} (f : ClassRow → α), ∃ s', s.readRoot c f = some (f row, s') := by
    intro α f
    obtain ⟨row', s', hrow', hread, _⟩ := hvalid.readRoot hc f
    rw [hrow] at hrow'
    cases hrow'
    exact ⟨s', hread⟩
  have hreceivers := hsummary.receivers
  rw [gathered_eq_notedWith hconnected] at hreceivers
  refine ⟨row, hreceivers, ?_, ?_, ?_, ?_, ?_, hread _, hread _, hread _, hread _, hread _, ?_⟩
  · rw [← gathered_eq_notedWith hconnected]
    exact hsummary.ineligible
  · rw [hsummary.decimal]
    exact exists_congr fun d => and_congr_left' (by rw [hconnected, eq_comm])
  · rw [hsummary.forward]
    exact exists_congr fun d => and_congr_left' (by rw [hconnected, eq_comm])
  · rw [NumericConstructionState.firstReceiverType, hvalid.walkToRoot hc]
    simp only [Option.bind_eq_bind, Option.bind_some, hrow]
    rfl
  · rw [NumericConstructionState.classIsForward, hvalid.walkToRoot hc]
    simp only [Option.bind_eq_bind, Option.bind_some, hrow]
    rfl
  · intro hpinned
    have hpin : row.pin = .Unpinned := by
      rw [ClassRow.pinnedFamily] at hpinned
      cases hpin : row.pin with
      | Unpinned => rfl
      | Bound =>
          rw [hpin] at hpinned
          exact absurd hpinned (hsummary.bound hpin)
      | LoopItem =>
          rw [hpin] at hpinned
          cases hpinned
    refine ⟨?_, fun conflict => (mergedReceiverType_unpinned hpin conflict).mp⟩
    rw [← EarliestTwo_second_isSome hreceivers]
    constructor
    · intro hconflict
      obtain ⟨conflict, hconflict⟩ := hconflict
      obtain ⟨first, differing, hfirst, hdiffering, _⟩ :=
        (mergedReceiverType_unpinned hpin conflict).mp hconflict
      exact ⟨first, differing, by rw [hfirst, hdiffering]⟩
    · intro hkept
      obtain ⟨first, differing, hkept⟩ := hkept
      injection hkept with hfirst hdiffering
      exact ⟨_, (mergedReceiverType_unpinned hpin _).mpr
        ⟨first, differing, hfirst, hdiffering, rfl⟩⟩

/-- After any run of the table's operations, in whatever order, every class
reports the earliest of what was noted of the classes connected with it, and a
demand finds the lowest pending producer connected with a leaf of its shape.
No operation on ids that were handed out panics. -/
theorem numeric_classes_summarise_their_facts (h : Run environment ops s) :
    (∀ op, Allowed ops s op → ∃ s', step environment s op = some s') ∧
    (∀ c < s.classes.length, ∃ row, ClassReport environment ops s c row) ∧
    ∀ shape < s.shapes.length, ∃ next s',
      s.nextPendingForwardProducer shape = some (next, s') ∧
      Earliest id {i | ∃ p c, s.forwardProducers[i]? = some p ∧ p.state.isPending = true ∧
        NumericLeaf s.shapes s.declaredBindings shape c ∧ Connected ops p.class_ c} next := by
  refine ⟨?_, fun c hc => h.report hc, ?_⟩
  · intro op hallowed
    obtain ⟨root, hvalid, hconnected⟩ := h.valid
    obtain ⟨s', _, hstep, _, _⟩ := step_valid hvalid hconnected hallowed
    exact ⟨s', hstep⟩
  · intro shape hshape
    obtain ⟨root, hvalid, hconnected⟩ := h.valid
    obtain ⟨next, s', hdemand, _, hnext⟩ := nextPendingForwardProducer_valid hvalid hshape
    refine ⟨next, s', hdemand, ?_⟩
    have hset : {i | ∃ p c, s.forwardProducers[i]? = some p ∧ p.state.isPending = true ∧
        NumericLeaf s.shapes s.declaredBindings shape c ∧ Connected ops p.class_ c}
        = pendingBelow s root shape := by
      ext i
      constructor
      · intro hi
        obtain ⟨p, c, hp, hpending, hleaf, hclass⟩ := hi
        exact ⟨c, hleaf, p, hp, hpending, (hconnected _ _).mp hclass⟩
      · intro hi
        obtain ⟨c, hleaf, p, hp, hpending, hclass⟩ := hi
        exact ⟨p, c, hp, hpending, hleaf, (hconnected _ _).mpr hclass⟩
    rw [hset]
    exact hnext

end Runs

/-! Two classes with receivers of different types, joined, and a producer of the second. -/

/-- The type table with the fixed scalars alone. -/
def fixedScalarTypes : TypeEnvironment where
  builtinKey id := ([.I8, .I16, .I32, .I64, .U8, .U16, .U32, .U64, .F16, .F32, .F64, .Byte].find?
    fun scalar => fixedScalarTypeId scalar == id).map .FixedScalar
  fixedScalar_seeded scalar := by cases scalar <;> decide

def joinedOps : List Op :=
  [.createClass, .createClass,
    .addOrderedReceiverWitness 0 (fixedScalarTypeId .I64) none 5,
    .addOrderedReceiverWitness 1 (fixedScalarTypeId .I32) none 3,
    .unionClasses 0 1,
    .internOrderedShape (.Numeric 1) 0,
    .registerForwardProducer 0 0 ⟨.Infer⟩]

theorem joinedOps_run : ∃ s, Run fixedScalarTypes joinedOps s ∧ s.classes.length = 2 ∧
    s.shapes.length = 1 := by
  have h₀ : Run fixedScalarTypes [] .new := .start
  have h₁ := h₀.step .createClass trivial rfl
  have h₂ := h₁.step .createClass trivial rfl
  have h₃ := h₂.step (.addOrderedReceiverWitness 0 (fixedScalarTypeId .I64) none 5)
    (Nat.lt_of_sub_eq_succ rfl) rfl
  have h₄ := h₃.step (.addOrderedReceiverWitness 1 (fixedScalarTypeId .I32) none 3)
    (Nat.lt_of_sub_eq_succ rfl) rfl
  have h₅ := h₄.step (.unionClasses 0 1)
    ⟨Nat.lt_of_sub_eq_succ rfl, Nat.lt_of_sub_eq_succ rfl⟩ rfl
  have h₆ := h₅.step (.internOrderedShape (.Numeric 1) 0) (Nat.lt_of_sub_eq_succ rfl) rfl
  have h₇ := h₆.step (.registerForwardProducer 0 0 ⟨.Infer⟩) (Nat.lt_of_sub_eq_succ rfl) rfl
  exact ⟨_, h₇, rfl, rfl⟩

theorem numeric_classes_summarise_their_facts_joined :
    ∃ s, Run fixedScalarTypes joinedOps s ∧
      (∃ row, ClassReport fixedScalarTypes joinedOps s 1 row) ∧
      ∃ next s', s.nextPendingForwardProducer 0 = some (next, s') := by
  obtain ⟨s, hrun, hclasses, hshapes⟩ := joinedOps_run
  obtain ⟨_, hreports, hdemands⟩ := numeric_classes_summarise_their_facts hrun
  obtain ⟨next, s', hdemand, _⟩ := hdemands 0 (by omega)
  exact ⟨s, hrun, hreports 1 (by omega), next, s', hdemand⟩

end Moth.Ast.NumericConstruction
