import Moth.Ast.NumericConstruction
import Moth.Lib.EarliestPair
import Moth.Lib.ParentForest

/-!
# What a class table says of its classes

The rows of the table as a forest of links, the climb to a root, and the facts
that a root row keeps for all the classes of its tree. The notes that the
facts come from are predicates on single classes, so what a row of a root has
to say is fixed by the roots of the forest and the notes alone, and neither
path halving nor the choice of the surviving root shows in it.
-/

namespace Moth.Ast.NumericConstruction

open Moth.Lib Moth.Datatypes Moth.Source

/-! ## The table as a forest -/

/-- The link of a row. An id beyond the table is its own root. -/
def parentOf (rows : List ClassRow) (c : Nat) : Nat :=
  match rows[c]? with
  | some row => row.parent
  | none => c

def rankOf (rows : List ClassRow) (c : Nat) : Nat :=
  match rows[c]? with
  | some row => row.rank
  | none => 0

theorem parentOf_some {rows : List ClassRow} {c : Nat} {row : ClassRow}
    (h : rows[c]? = some row) : parentOf rows c = row.parent := by
  rw [parentOf, h]

theorem rankOf_some {rows : List ClassRow} {c : Nat} {row : ClassRow}
    (h : rows[c]? = some row) : rankOf rows c = row.rank := by
  rw [rankOf, h]

theorem parentOf_set {rows : List ClassRow} {c : Nat} {row : ClassRow} (hc : c < rows.length) :
    parentOf (rows.set c row) = Function.update (parentOf rows) c row.parent := by
  funext x
  by_cases hx : x = c
  · subst hx
    rw [Function.update_self, parentOf, List.getElem?_set_self hc]
  · rw [Function.update_of_ne hx, parentOf, List.getElem?_set_ne (Ne.symm hx)]
    rfl

theorem rankOf_set {rows : List ClassRow} {c : Nat} {row : ClassRow} (hc : c < rows.length) :
    rankOf (rows.set c row) = Function.update (rankOf rows) c row.rank := by
  funext x
  by_cases hx : x = c
  · subst hx
    rw [Function.update_self, rankOf, List.getElem?_set_self hc]
  · rw [Function.update_of_ne hx, rankOf, List.getElem?_set_ne (Ne.symm hx)]
    rfl

/-- A table whose links form a forest, with the roots they lead to. -/
structure Linked (rows : List ClassRow) (root : Nat → Nat) : Prop where
  forest : ParentForest (parentOf rows) (rankOf rows) root
  inside : ∀ c < rows.length, parentOf rows c < rows.length
  heavy : Heavy rows.length (rankOf rows) root
  small : rows.length ≤ 2 ^ 32

namespace Linked

variable {rows : List ClassRow} {root : Nat → Nat}

theorem root_lt (h : Linked rows root) {c : Nat} (hc : c < rows.length) :
    root c < rows.length :=
  h.forest.root_of_closed (p := fun x => x < rows.length) h.inside c hc

theorem root_beyond (h : Linked rows root) {c : Nat} (hc : rows.length ≤ c) : root c = c := by
  apply h.forest.root_self
  rw [parentOf, List.getElem?_eq_none hc]

theorem pow_rank_le (h : Linked rows root) {c : Nat} (hc : c < rows.length) :
    2 ^ rankOf rows c ≤ rows.length :=
  h.heavy.pow_rank_le h.forest (h.root_lt hc)

theorem rank_lt_length (h : Linked rows root) {c : Nat} (hc : c < rows.length) :
    rankOf rows c < rows.length :=
  Nat.lt_of_lt_of_le Nat.lt_two_pow_self (h.pow_rank_le hc)

theorem rank_le (h : Linked rows root) {c : Nat} (hc : c < rows.length) :
    rankOf rows c ≤ 32 := by
  have hpow : 2 ^ rankOf rows c ≤ 2 ^ 32 := (h.pow_rank_le hc).trans h.small
  exact (Nat.pow_le_pow_iff_right (by decide)).mp hpow

theorem exists_row (_ : Linked rows root) {c : Nat} (hc : c < rows.length) :
    ∃ row, rows[c]? = some row :=
  ⟨rows[c], List.getElem?_eq_getElem hc⟩

end Linked

/-! ## Path halving -/

/-- A row without its link. -/
def ClassRow.unlinked (row : ClassRow) : ClassRow :=
  { row with parent := 0 }

/-- Two tables that differ in their links only. -/
def Relinked (rows rows' : List ClassRow) : Prop :=
  rows'.map ClassRow.unlinked = rows.map ClassRow.unlinked

namespace Relinked

variable {rows rows' rows'' : List ClassRow}

theorem refl (rows : List ClassRow) : Relinked rows rows :=
  rfl

theorem trans (h : Relinked rows rows') (h' : Relinked rows' rows'') : Relinked rows rows'' :=
  Eq.trans h' h

theorem length_eq (h : Relinked rows rows') : rows'.length = rows.length := by
  have hlength := congrArg List.length h
  rw [List.length_map, List.length_map] at hlength
  exact hlength

theorem row_before (h : Relinked rows rows') {c : Nat} {row' : ClassRow}
    (hrow' : rows'[c]? = some row') :
    ∃ row, rows[c]? = some row ∧ row' = { row with parent := row'.parent } := by
  have hat := congrArg (fun l : List ClassRow => l[c]?) h
  rw [List.getElem?_map, List.getElem?_map, hrow'] at hat
  cases hrow : rows[c]? with
  | none =>
      rw [hrow] at hat
      cases hat
  | some row =>
      rw [hrow] at hat
      have heq : row'.unlinked = row.unlinked := Option.some.inj hat
      refine ⟨row, rfl, ?_⟩
      cases row
      cases row'
      simp only [ClassRow.unlinked, ClassRow.mk.injEq, true_and] at heq
      simp only [ClassRow.mk.injEq, true_and]
      exact heq

theorem rankOf_eq (h : Relinked rows rows') : rankOf rows' = rankOf rows := by
  funext c
  cases hrow' : rows'[c]? with
  | none =>
      have hlength := h.length_eq
      have hbeyond := List.getElem?_eq_none_iff.mp hrow'
      rw [rankOf, rankOf, hrow', List.getElem?_eq_none (by omega)]
  | some row' =>
      obtain ⟨row, hrow, heq⟩ := h.row_before hrow'
      rw [rankOf_some hrow', rankOf_some hrow, heq]

theorem set {c : Nat} {row : ClassRow} (hrow : rows[c]? = some row) (parent : Nat) :
    Relinked rows (rows.set c { row with parent }) := by
  show List.map _ (rows.set c _) = _
  rw [List.map_set]
  apply List.ext_getElem?
  intro x
  by_cases hx : x = c
  · subst hx
    have hlt : x < (rows.map ClassRow.unlinked).length := by
      rw [List.length_map]
      exact (List.getElem?_eq_some_iff.mp hrow).1
    rw [List.getElem?_set_self hlt, List.getElem?_map, hrow]
    rfl
  · rw [List.getElem?_set_ne (Ne.symm hx)]

end Relinked

namespace Linked

variable {rows : List ClassRow} {root : Nat → Nat}

/-- Pointing a row at its grandparent keeps the forest and its roots. -/
theorem halve (h : Linked rows root) {c : Nat} {row parentRow : ClassRow}
    (hrow : rows[c]? = some row) (hparent : rows[row.parent]? = some parentRow) :
    Linked (rows.set c { row with parent := parentRow.parent }) root := by
  have hc : c < rows.length := (List.getElem?_eq_some_iff.mp hrow).1
  have hp : parentOf rows c = row.parent := parentOf_some hrow
  have hpp : parentOf rows (parentOf rows c) = parentRow.parent := by
    rw [hp, parentOf_some hparent]
  have hrelinked := Relinked.set hrow parentRow.parent
  have hparents : parentOf (rows.set c { row with parent := parentRow.parent })
      = Function.update (parentOf rows) c (parentOf rows (parentOf rows c)) := by
    rw [parentOf_set hc, hpp]
  constructor
  · rw [hparents, hrelinked.rankOf_eq]
    exact h.forest.halve c
  · intro x hx
    rw [List.length_set] at hx ⊢
    rw [hparents]
    by_cases hxc : x = c
    · subst hxc
      rw [Function.update_self]
      exact h.inside _ (h.inside x hx)
    · rw [Function.update_of_ne hxc]
      exact h.inside x hx
  · rw [List.length_set, hrelinked.rankOf_eq]
    exact h.heavy
  · rw [List.length_set]
    exact h.small

end Linked

/-- The climb answers the root, and what it leaves differs in links only. -/
theorem findRootFrom_spec {root : Nat → Nat} (fuel : Nat) {rows : List ClassRow}
    (h : Linked rows root) {current : Nat} (hcurrent : current < rows.length)
    (hfuel : rows.length ≤ fuel + rankOf rows current) :
    ∃ rows', NumericConstructionState.findRootFrom fuel rows current
        = some (root current, rows') ∧ Relinked rows rows' ∧ Linked rows' root := by
  induction fuel generalizing rows current with
  | zero =>
      have hlt := h.rank_lt_length hcurrent
      omega
  | succ fuel ih =>
      obtain ⟨row, hrow⟩ := h.exists_row hcurrent
      have hparent := parentOf_some hrow
      rw [NumericConstructionState.findRootFrom, hrow]
      by_cases hself : row.parent = current
      · have hroot : root current = current := by
          apply h.forest.root_self
          rw [hparent, hself]
        refine ⟨rows, ?_, Relinked.refl rows, h⟩
        simp only [Option.bind_eq_bind, Option.bind_some, if_pos hself, hroot]
        rfl
      · have hinside : row.parent < rows.length := by
          rw [← hparent]
          exact h.inside current hcurrent
        obtain ⟨parentRow, hparentRow⟩ := h.exists_row hinside
        have hclimb : rankOf rows current < rankOf rows parentRow.parent := by
          have hfirst := h.forest.climbs current (by rw [hparent]; exact hself)
          rw [hparent] at hfirst
          by_cases htop : parentRow.parent = row.parent
          · rw [htop]
            exact hfirst
          · have hsecond := h.forest.climbs row.parent (by
              rw [parentOf_some hparentRow]
              exact htop)
            rw [parentOf_some hparentRow] at hsecond
            omega
        have hgrand : parentRow.parent < rows.length := by
          rw [← parentOf_some hparentRow]
          exact h.inside _ hinside
        have hset := Relinked.set hrow parentRow.parent
        have hroot : root parentRow.parent = root current := by
          rw [← parentOf_some hparentRow, h.forest.root_parent, ← hparent, h.forest.root_parent]
        have hgrand' : parentRow.parent
            < (rows.set current { row with parent := parentRow.parent }).length := by
          rw [List.length_set]
          exact hgrand
        obtain ⟨rows', hfind, hrelinked, hlinked⟩ := ih (h.halve hrow hparentRow) hgrand' (by
          rw [List.length_set, hset.rankOf_eq]
          omega)
        refine ⟨rows', ?_, hset.trans hrelinked, hlinked⟩
        simp only [Option.bind_eq_bind, Option.bind_some, if_neg hself, hparentRow]
        rw [hfind, hroot]

theorem walkToRoot_spec {root : Nat → Nat} (fuel : Nat) {rows : List ClassRow}
    (h : Linked rows root) {current : Nat} (hcurrent : current < rows.length)
    (hfuel : rows.length ≤ fuel + rankOf rows current) :
    NumericConstructionState.walkToRoot rows fuel current = some (root current) := by
  induction fuel generalizing current with
  | zero =>
      have hlt := h.rank_lt_length hcurrent
      omega
  | succ fuel ih =>
      obtain ⟨row, hrow⟩ := h.exists_row hcurrent
      have hparent := parentOf_some hrow
      rw [NumericConstructionState.walkToRoot, hrow]
      by_cases hself : row.parent = current
      · simp only [Option.bind_eq_bind, Option.bind_some, if_pos hself]
        rw [h.forest.root_self current (by rw [hparent, hself])]
        rfl
      · simp only [Option.bind_eq_bind, Option.bind_some, if_neg hself]
        have hclimb := h.forest.climbs current (by rw [hparent]; exact hself)
        rw [hparent] at hclimb
        have hinside := h.inside current hcurrent
        rw [hparent] at hinside
        rw [ih hinside (by omega), ← hparent, h.forest.root_parent]

/-! ## What a root row keeps -/

/-- What was noted of each class. -/
structure Notes where
  received : Nat → ReceiverWitness → Prop
  ineligible : Nat → ReceiverWitness → Prop
  decimal : Nat → Prop
  forward : Nat → Prop

/-- What was noted of any class of one root. -/
def gathered {α : Type} (root : Nat → Nat) (noted : Nat → α → Prop) (r : Nat) : Set α :=
  {a | ∃ c, root c = r ∧ noted c a}

/-- A root row that says what was noted of its classes, with the pending
producers of its classes in its index. -/
structure Summarises (notes : Notes) (producers : List ForwardProducer) (root : Nat → Nat)
    (r : Nat) (row : ClassRow) : Prop where
  receivers : EarliestTwo ReceiverWitness.key ReceiverWitness.typeId
    (gathered root notes.received r) (row.firstReceiver, row.differingReceiver)
  ineligible : Earliest ReceiverWitness.key (gathered root notes.ineligible r)
    row.loopIneligibleReceiver
  decimal : row.family = some .Decimal ↔ ∃ c, root c = r ∧ notes.decimal c
  forward : row.forward = true ↔ ∃ c, root c = r ∧ notes.forward c
  bound : row.pin = .Bound → row.family ≠ none
  sorted : row.forwardProducers.Pairwise (· ≤ ·)
  indexed : ∀ i ∈ row.forwardProducers, ∃ p, producers[i]? = some p ∧ root p.class_ = r
  pending : ∀ i p, producers[i]? = some p → p.state.isPending = true → root p.class_ = r →
    i ∈ row.forwardProducers

/-- The same was noted of one class. -/
structure Notes.Agree (notes notes' : Notes) (c : Nat) : Prop where
  received : ∀ w, notes'.received c w ↔ notes.received c w
  ineligible : ∀ w, notes'.ineligible c w ↔ notes.ineligible c w
  decimal : notes'.decimal c ↔ notes.decimal c
  forward : notes'.forward c ↔ notes.forward c

theorem gathered_congr {α : Type} {root root' : Nat → Nat} {noted noted' : Nat → α → Prop}
    {r : Nat} (hroot : ∀ c, root' c = r ↔ root c = r)
    (hnoted : ∀ c, root c = r → ∀ a, noted' c a ↔ noted c a) :
    gathered root' noted' r = gathered root noted r := by
  ext a
  constructor
  · intro ha
    obtain ⟨c, hc, hnote⟩ := ha
    have hc' := (hroot c).mp hc
    exact ⟨c, hc', (hnoted c hc' a).mp hnote⟩
  · intro ha
    obtain ⟨c, hc, hnote⟩ := ha
    exact ⟨c, (hroot c).mpr hc, (hnoted c hc a).mpr hnote⟩

/-- A row of a tree of which nothing new was noted. -/
theorem Summarises.congr {notes notes' : Notes} {producers producers' : List ForwardProducer}
    {root root' : Nat → Nat} {r : Nat} {row : ClassRow}
    (h : Summarises notes producers root r row) (hroot : ∀ c, root' c = r ↔ root c = r)
    (hnotes : ∀ c, root c = r → notes.Agree notes' c)
    (hindexed : ∀ (i : Nat) p, producers[i]? = some p → root p.class_ = r →
      ∃ p', producers'[i]? = some p' ∧ root p'.class_ = r)
    (hpending : ∀ (i : Nat) p', producers'[i]? = some p' → p'.state.isPending = true →
      root p'.class_ = r →
      ∃ p, producers[i]? = some p ∧ p.state.isPending = true ∧ root p.class_ = r) :
    Summarises notes' producers' root' r row where
  receivers := by
    rw [gathered_congr hroot fun c hc => (hnotes c hc).received]
    exact h.receivers
  ineligible := by
    rw [gathered_congr hroot fun c hc => (hnotes c hc).ineligible]
    exact h.ineligible
  decimal := by
    rw [h.decimal]
    constructor
    · intro hc
      obtain ⟨c, hc, hnote⟩ := hc
      exact ⟨c, (hroot c).mpr hc, (hnotes c hc).decimal.mpr hnote⟩
    · intro hc
      obtain ⟨c, hc, hnote⟩ := hc
      have hc' := (hroot c).mp hc
      exact ⟨c, hc', (hnotes c hc').decimal.mp hnote⟩
  forward := by
    rw [h.forward]
    constructor
    · intro hc
      obtain ⟨c, hc, hnote⟩ := hc
      exact ⟨c, (hroot c).mpr hc, (hnotes c hc).forward.mpr hnote⟩
    · intro hc
      obtain ⟨c, hc, hnote⟩ := hc
      have hc' := (hroot c).mp hc
      exact ⟨c, hc', (hnotes c hc').forward.mp hnote⟩
  bound := h.bound
  sorted := h.sorted
  indexed i hi := by
    obtain ⟨p, hp, hclass⟩ := h.indexed i hi
    obtain ⟨p', hp', hclass'⟩ := hindexed i p hp hclass
    exact ⟨p', hp', (hroot _).mpr hclass'⟩
  pending i p' hp' hpending' hclass' := by
    obtain ⟨p, hp, hstate, hclass⟩ := hpending i p' hp' hpending' ((hroot _).mp hclass')
    exact h.pending i p hp hstate hclass

/-! ## The summary operations -/

theorem retainEarliestReceiver_eq (summary : Option ReceiverWitness) (w : ReceiverWitness) :
    retainEarliestReceiver summary w = retainEarliest ReceiverWitness.key summary w := by
  cases summary with
  | none => rfl
  | some existing => rfl

/-- A row with other receivers. -/
def ClassRow.withReceivers (row : ClassRow)
    (kept : Option ReceiverWitness × Option ReceiverWitness) : ClassRow :=
  { row with firstReceiver := kept.1, differingReceiver := kept.2 }

theorem insertReceiver_eq (row : ClassRow) (w : ReceiverWitness) :
    row.insertReceiver w = row.withReceivers
      (insertEarliest ReceiverWitness.key ReceiverWitness.typeId
        (row.firstReceiver, row.differingReceiver) w) := by
  cases hfirst : row.firstReceiver with
  | none =>
      cases row
      simp only at hfirst
      subst hfirst
      rfl
  | some first =>
      cases row
      simp only at hfirst
      subst hfirst
      simp only [ClassRow.insertReceiver, insertEarliest, ClassRow.withReceivers,
        retainEarliestReceiver_eq]
      split
      · split
        · rfl
        · rfl
      · split
        · rfl
        · rfl

theorem foldl_insertReceiver_eq (row : ClassRow) (ws : List ReceiverWitness) :
    ws.foldl ClassRow.insertReceiver row = row.withReceivers
      (ws.foldl (insertEarliest ReceiverWitness.key ReceiverWitness.typeId)
        (row.firstReceiver, row.differingReceiver)) := by
  induction ws generalizing row with
  | nil => rfl
  | cons w ws ih =>
      rw [List.foldl_cons, List.foldl_cons, ih, insertReceiver_eq]
      rfl

/-! ## Joining two trees -/

section Join

open ParentForest (linked)

variable {root : Nat → Nat} {winner loser : Nat}

theorem linked_eq_winner (c : Nat) :
    linked root winner loser c = winner ↔ root c = winner ∨ root c = loser := by
  rw [linked]
  by_cases hc : root c = loser
  · rw [if_pos hc]
    exact ⟨fun _ => Or.inr hc, fun _ => rfl⟩
  · rw [if_neg hc]
    exact ⟨Or.inl, fun h => h.resolve_right hc⟩

theorem linked_eq_other {r : Nat} (hw : r ≠ winner) (hl : r ≠ loser) (c : Nat) :
    linked root winner loser c = r ↔ root c = r := by
  rw [linked]
  by_cases hc : root c = loser
  · rw [if_pos hc, hc]
    exact ⟨fun h => absurd h.symm hw, fun h => absurd h.symm hl⟩
  · rw [if_neg hc]

theorem exists_linked (p : Nat → Prop) :
    (∃ c, linked root winner loser c = winner ∧ p c) ↔
      (∃ c, root c = winner ∧ p c) ∨ ∃ c, root c = loser ∧ p c := by
  constructor
  · intro h
    obtain ⟨c, hc, hp⟩ := h
    rcases (linked_eq_winner c).mp hc with hc | hc
    · exact Or.inl ⟨c, hc, hp⟩
    · exact Or.inr ⟨c, hc, hp⟩
  · intro h
    rcases h with h | h
    · obtain ⟨c, hc, hp⟩ := h
      exact ⟨c, (linked_eq_winner c).mpr (Or.inl hc), hp⟩
    · obtain ⟨c, hc, hp⟩ := h
      exact ⟨c, (linked_eq_winner c).mpr (Or.inr hc), hp⟩

theorem gathered_linked {α : Type} (noted : Nat → α → Prop) :
    gathered (linked root winner loser) noted winner
      = gathered root noted winner ∪ gathered root noted loser := by
  ext a
  exact exists_linked fun c => noted c a

theorem merge_eq_decimal (a b : NumericFamily) :
    a.merge b = .Decimal ↔ a = .Decimal ∨ b = .Decimal := by
  cases a with
  | Whole =>
      cases b with
      | Whole => decide
      | Decimal => decide
  | Decimal =>
      cases b with
      | Whole => decide
      | Decimal => decide

/-- A root row says what was noted of its classes and of those of the row that
it takes over. -/
theorem Summarises.absorb {notes : Notes} {producers : List ForwardProducer}
    {winnerRow loserRow : ClassRow} (hw : Summarises notes producers root winner winnerRow)
    (hl : Summarises notes producers root loser loserRow) :
    Summarises notes producers (linked root winner loser) winner
      (winnerRow.absorb loserRow) where
  receivers := by
    have hreceivers : ((winnerRow.absorb loserRow).firstReceiver,
        (winnerRow.absorb loserRow).differingReceiver)
        = (loserRow.firstReceiver.toList ++ loserRow.differingReceiver.toList).foldl
            (insertEarliest ReceiverWitness.key ReceiverWitness.typeId)
            (winnerRow.firstReceiver, winnerRow.differingReceiver) := by
      rw [ClassRow.absorb, foldl_insertReceiver_eq]
      rfl
    rw [hreceivers, gathered_linked]
    exact hw.receivers.merge hl.receivers
  ineligible := by
    rw [gathered_linked]
    rw [ClassRow.absorb, foldl_insertReceiver_eq]
    show Earliest _ _
      (retainEarlierReceiver winnerRow.loopIneligibleReceiver loserRow.loopIneligibleReceiver)
    have hineligible := hl.ineligible
    cases hloser : loserRow.loopIneligibleReceiver with
    | none =>
        rw [hloser] at hineligible
        have hnone : gathered root notes.ineligible loser = ∅ := hineligible
        rw [hnone, Set.union_empty]
        exact hw.ineligible
    | some w =>
        rw [hloser] at hineligible
        rw [retainEarlierReceiver, retainEarliestReceiver_eq]
        refine (hw.ineligible.retain w).extend ?_ ?_
        · intro a ha
          rcases Set.mem_insert_iff.mp ha with heq | ha
          · rw [heq]
            exact Or.inr hineligible.1
          · exact Or.inl ha
        · intro b hb
          rcases hb with hb | hb
          · exact ⟨b, Set.mem_insert_of_mem w hb, le_refl _⟩
          · exact ⟨w, Set.mem_insert w _, hineligible.2 b hb⟩
  decimal := by
    rw [exists_linked, ← hw.decimal, ← hl.decimal, ClassRow.absorb,
      foldl_insertReceiver_eq]
    show mergeFamilies winnerRow.family loserRow.family = _ ↔ _
    cases hwf : winnerRow.family with
    | none =>
        cases hlf : loserRow.family with
        | none => simp [mergeFamilies]
        | some f => simp [mergeFamilies]
    | some g =>
        cases hlf : loserRow.family with
        | none => simp [mergeFamilies]
        | some f => simp [mergeFamilies, merge_eq_decimal]
  forward := by
    rw [exists_linked, ← hw.forward, ← hl.forward, ClassRow.absorb,
      foldl_insertReceiver_eq]
    exact Bool.or_eq_true_iff
  bound := by
    rw [ClassRow.absorb, foldl_insertReceiver_eq]
    intro hbound
    have hpin : winnerRow.pin.max loserRow.pin = .Bound := hbound
    show mergeFamilies winnerRow.family loserRow.family ≠ none
    rw [NumericPin.max] at hpin
    split at hpin
    · cases hfamily : loserRow.family with
      | none => exact absurd hfamily (hl.bound hpin)
      | some f =>
          cases winnerRow.family with
          | none => exact Option.some_ne_none f
          | some g => exact Option.some_ne_none (g.merge f)
    · cases hfamily : winnerRow.family with
      | none => exact absurd hfamily (hw.bound hpin)
      | some g =>
          cases loserRow.family with
          | none => exact Option.some_ne_none g
          | some f => exact Option.some_ne_none (g.merge f)
  sorted := by
    rw [ClassRow.absorb, foldl_insertReceiver_eq]
    exact hw.sorted.merge hl.sorted
  indexed i hi := by
    rw [ClassRow.absorb, foldl_insertReceiver_eq] at hi
    rcases List.mem_merge.mp hi with hi | hi
    · obtain ⟨p, hp, hclass⟩ := hw.indexed i hi
      exact ⟨p, hp, (linked_eq_winner _).mpr (Or.inl hclass)⟩
    · obtain ⟨p, hp, hclass⟩ := hl.indexed i hi
      exact ⟨p, hp, (linked_eq_winner _).mpr (Or.inr hclass)⟩
  pending i p hp hpending hclass := by
    rw [ClassRow.absorb, foldl_insertReceiver_eq]
    apply List.mem_merge.mpr
    rcases (linked_eq_winner _).mp hclass with hclass | hclass
    · exact Or.inl (hw.pending i p hp hpending hclass)
    · exact Or.inr (hl.pending i p hp hpending hclass)

theorem Summarises.with_link {notes : Notes} {producers : List ForwardProducer} {r : Nat}
    {row : ClassRow} (h : Summarises notes producers root r row) (parent rank : Nat) :
    Summarises notes producers root r { row with parent, rank } :=
  ⟨h.receivers, h.ineligible, h.decimal, h.forward, h.bound, h.sorted, h.indexed, h.pending⟩

end Join

end Moth.Ast.NumericConstruction
