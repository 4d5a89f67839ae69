import Moth.Ast.NumericKnownShape

/-!
# Joins as lists of actions

What a walk over two shapes does to the classes is a list of actions that the
tables alone fix: joins of two classes, and receivers noted on a class. The
classes are seen through the roots of the forest and the rows of those roots,
where neither path halving nor a memo shows.

An action that merged nothing answers the same once more, and changes nothing
then. This is what lets a memo stand for a walk.
-/

namespace Moth.Ast.NumericConstruction

open Moth.Lib Moth.Datatypes Moth.Source

/-! ## The classes behind the links -/

/-- The roots of a class table, and the row of each root. -/
structure ClassView where
  root : Nat → Nat
  row : Nat → ClassRow

namespace ClassView

variable (v : ClassView)

/-- The row of the root of a class. -/
def rowOf (c : Nat) : ClassRow :=
  v.row (v.root c)

def pinsWhole (c : Nat) : Bool :=
  (v.rowOf c).pinnedFamily == some .Whole

def isDecimal (c : Nat) : Bool :=
  (v.rowOf c).family == some .Decimal

def refuses (left right : Nat) : Bool :=
  (v.pinsWhole left && v.isDecimal right) || (v.pinsWhole right && v.isDecimal left)

/-- One root row takes over another. -/
def link (winner loser : Nat) : ClassView where
  root := ParentForest.linked v.root winner loser
  row := Function.update v.row winner
    { (v.row winner).absorb (v.row loser) with
      rank := raisedRank (v.row winner) (v.row loser) }

/-- Two roots become one, the left where the ranks agree. -/
def unite (left right : Nat) : ClassView :=
  if (v.row right).rank ≤ (v.row left).rank then v.link left right else v.link right left

def change (c : Nat) (f : ClassRow → ClassRow) : ClassView :=
  { v with row := Function.update v.row (v.root c) (f (v.rowOf c)) }

end ClassView

def ClassRow.refuseWitness (witness : ReceiverWitness) (row : ClassRow) : ClassRow :=
  { row with
    loopIneligibleReceiver := retainEarliestReceiver row.loopIneligibleReceiver witness }

def ClassRow.receiveWitness (environment : TypeEnvironment) (witness : ReceiverWitness)
    (row : ClassRow) : ClassRow :=
  if familyReceivesRecipe (some .Whole) witness.typeId environment then row.insertReceiver witness
  else (row.insertReceiver witness).refuseWitness witness

/-- A root row that one more receiver was noted on. -/
def ClassRow.noteWitness (environment : TypeEnvironment) (witness : ReceiverWitness)
    (row : ClassRow) : ClassRow :=
  if familyReceivesRecipe row.pinnedFamily witness.typeId environment then
    row.receiveWitness environment witness
  else row.refuseWitness witness

inductive ClassAction where
  | join (left right : Nat)
  | note (class_ : Nat) (witness : ReceiverWitness)

/-- What an action answers, how many merges it made, and the classes that it leaves. -/
def ClassView.act (environment : TypeEnvironment) (v : ClassView) :
    ClassAction → Bool × Nat × ClassView
  | .join left right =>
      if v.refuses left right then (false, 0, v)
      else if v.root left = v.root right then (true, 0, v)
      else (true, 1, v.unite (v.root left) (v.root right))
  | .note class_ witness => (true, 0, v.change class_ (ClassRow.noteWitness environment witness))

def ClassView.run (environment : TypeEnvironment) :
    List ClassAction → ClassView → Bool × Nat × ClassView
  | [], v => (true, 0, v)
  | action :: rest, v =>
      let first := v.act environment action
      let after := ClassView.run environment rest first.2.2
      (first.1 && after.1, first.2.1 + after.2.1, after.2.2)

/-- What a numeric leaf beside a receiver notes. -/
def witnessActions (environment : TypeEnvironment) (span : Option SourceSpan)
    (authoredOrder : Nat) (leaf : Nat × TypeId) : List ClassAction :=
  match numericWitnessType leaf.2 environment with
  | none => []
  | some typeId => [.note leaf.1 ⟨typeId, span, authoredOrder⟩]

/-! ## Receivers noted twice -/

namespace ClassRow

variable (environment : TypeEnvironment) (witness : ReceiverWitness)

theorem insertReceiver_kept (row : ClassRow) : ∃ first differing,
    row.insertReceiver witness
      = { row with firstReceiver := first, differingReceiver := differing } := by
  rw [insertReceiver_eq]
  exact ⟨_, _, rfl⟩

theorem refuseWitness_link (row : ClassRow) :
    (row.refuseWitness witness).parent = row.parent ∧
      (row.refuseWitness witness).rank = row.rank :=
  ⟨rfl, rfl⟩

theorem receiveWitness_link (row : ClassRow) :
    (row.receiveWitness environment witness).parent = row.parent ∧
      (row.receiveWitness environment witness).rank = row.rank := by
  obtain ⟨first, differing, hinsert⟩ := insertReceiver_kept witness row
  rw [receiveWitness, hinsert]
  split
  · exact ⟨rfl, rfl⟩
  · exact ⟨rfl, rfl⟩

/-- A row of the same family and pin that keeps out what the first keeps out. -/
structure Later (row row' : ClassRow) : Prop where
  family : row'.family = row.family
  pin : row'.pin = row.pin
  received : ∀ w, row.insertReceiver w = row → row'.insertReceiver w = row'
  refused : ∀ w, retainEarliestReceiver row.loopIneligibleReceiver w = row.loopIneligibleReceiver →
    retainEarliestReceiver row'.loopIneligibleReceiver w = row'.loopIneligibleReceiver

theorem Later.refl (row : ClassRow) : Later row row :=
  ⟨rfl, rfl, fun _ => id, fun _ => id⟩

theorem Later.trans {row row' row'' : ClassRow} (h : Later row row') (h' : Later row' row'') :
    Later row row'' where
  family := h'.family.trans h.family
  pin := h'.pin.trans h.pin
  received w hw := h'.received w (h.received w hw)
  refused w hw := h'.refused w (h.refused w hw)

theorem Later.pinnedFamily {row row' : ClassRow} (h : Later row row') :
    row'.pinnedFamily = row.pinnedFamily := by
  rw [ClassRow.pinnedFamily, ClassRow.pinnedFamily, h.family, h.pin]

theorem insertReceiver_eq_self {row : ClassRow} {w : ReceiverWitness} :
    row.insertReceiver w = row ↔
      insertEarliest ReceiverWitness.key ReceiverWitness.typeId
        (row.firstReceiver, row.differingReceiver) w
        = (row.firstReceiver, row.differingReceiver) := by
  rw [insertReceiver_eq]
  constructor
  · intro h
    have hfirst := congrArg ClassRow.firstReceiver h
    have hsecond := congrArg ClassRow.differingReceiver h
    exact Prod.ext hfirst hsecond
  · intro h
    rw [h]
    rfl

theorem insertReceiver_later (row : ClassRow) : Later row (row.insertReceiver witness) where
  family := by
    rw [insertReceiver_eq]
    rfl
  pin := by
    rw [insertReceiver_eq]
    rfl
  received w hw := by
    rw [insertReceiver_eq_self] at hw ⊢
    rw [insertReceiver_eq row]
    exact insertEarliest_keep hw witness
  refused w hw := by
    rw [insertReceiver_eq]
    exact hw

theorem insertReceiver_self (row : ClassRow) :
    (row.insertReceiver witness).insertReceiver witness = row.insertReceiver witness := by
  rw [insertReceiver_eq_self, insertReceiver_eq]
  exact insertEarliest_self _ witness

theorem refuseWitness_later (row : ClassRow) : Later row (row.refuseWitness witness) where
  family := rfl
  pin := rfl
  received w hw := by
    rw [insertReceiver_eq_self] at hw ⊢
    exact hw
  refused w hw := by
    rw [retainEarliestReceiver_eq] at hw
    show retainEarliestReceiver (retainEarliestReceiver row.loopIneligibleReceiver witness) w
      = retainEarliestReceiver row.loopIneligibleReceiver witness
    rw [retainEarliestReceiver_eq, retainEarliestReceiver_eq]
    exact retainEarliest_keep hw witness

theorem noteWitness_later (row : ClassRow) : Later row (row.noteWitness environment witness) := by
  rw [noteWitness]
  split
  · rw [receiveWitness]
    split
    · exact insertReceiver_later witness row
    · exact (insertReceiver_later witness row).trans (refuseWitness_later witness _)
  · exact refuseWitness_later witness row

/-- A receiver that was noted once changes nothing when it is noted again. -/
theorem noteWitness_settled {row row' : ClassRow}
    (h : Later (row.noteWitness environment witness) row') :
    row'.noteWitness environment witness = row' := by
  have hpinned : row'.pinnedFamily = row.pinnedFamily :=
    ((noteWitness_later environment witness row).trans h).pinnedFamily
  have hrefused : ∀ row₀ : ClassRow, Later (row₀.refuseWitness witness) row' →
      row'.refuseWitness witness = row' := by
    intro row₀ hlater
    have hkept := hlater.refused witness (by
      show retainEarliestReceiver (retainEarliestReceiver row₀.loopIneligibleReceiver witness)
        witness = retainEarliestReceiver row₀.loopIneligibleReceiver witness
      rw [retainEarliestReceiver_eq, retainEarliestReceiver_eq]
      exact retainEarliest_self _ witness)
    rw [refuseWitness, hkept]
  rw [noteWitness] at h ⊢
  rw [hpinned]
  by_cases hreceives : familyReceivesRecipe row.pinnedFamily witness.typeId environment
  · rw [if_pos hreceives] at h ⊢
    rw [receiveWitness] at h ⊢
    by_cases hwhole : familyReceivesRecipe (some .Whole) witness.typeId environment
    · rw [if_pos hwhole] at h ⊢
      exact h.received witness (insertReceiver_self witness row)
    · rw [if_neg hwhole] at h ⊢
      have hreceived := ((refuseWitness_later witness _).trans h).received witness
        (insertReceiver_self witness row)
      rw [hreceived]
      exact hrefused _ h
  · rw [if_neg hreceives] at h ⊢
    exact hrefused row h

end ClassRow

/-! ## Actions run twice -/

namespace ClassView

variable {environment : TypeEnvironment} {v v' v'' : ClassView}

/-- A view of the same classes whose rows took in more receivers. -/
structure Later (v v' : ClassView) : Prop where
  root : v'.root = v.root
  rows : ∀ c, ClassRow.Later (v.row c) (v'.row c)

theorem Later.refl (v : ClassView) : Later v v :=
  ⟨rfl, fun c => ClassRow.Later.refl (v.row c)⟩

theorem Later.trans (h : Later v v') (h' : Later v' v'') : Later v v'' :=
  ⟨h'.root.trans h.root, fun c => (h.rows c).trans (h'.rows c)⟩

theorem Later.rowOf (h : Later v v') (c : Nat) : ClassRow.Later (v.rowOf c) (v'.rowOf c) := by
  rw [ClassView.rowOf, ClassView.rowOf, h.root]
  exact h.rows (v.root c)

theorem Later.refuses (h : Later v v') (left right : Nat) :
    v'.refuses left right = v.refuses left right := by
  have hpins : ∀ c, v'.pinsWhole c = v.pinsWhole c := by
    intro c
    rw [pinsWhole, pinsWhole, (h.rowOf c).pinnedFamily]
  have hdecimal : ∀ c, v'.isDecimal c = v.isDecimal c := by
    intro c
    rw [isDecimal, isDecimal, (h.rowOf c).family]
  rw [ClassView.refuses, ClassView.refuses, hpins, hpins, hdecimal, hdecimal]

/-- The actions answer this from any later view on, and change nothing there. -/
def Settled (environment : TypeEnvironment) (v : ClassView) (actions : List ClassAction)
    (result : Bool) : Prop :=
  ∀ v', Later v v' → v'.run environment actions = (result, 0, v')

theorem Settled.later {actions : List ClassAction} {result : Bool}
    (h : Settled environment v actions result) (hlater : Later v v') :
    Settled environment v' actions result :=
  fun v'' hlater' => h v'' (hlater.trans hlater')

theorem change_later {c : Nat} {f : ClassRow → ClassRow} (hf : ∀ row, ClassRow.Later row (f row)) :
    Later v (v.change c f) := by
  refine ⟨rfl, fun d => ?_⟩
  show ClassRow.Later (v.row d) (Function.update v.row (v.root c) (f (v.rowOf c)) d)
  by_cases hd : d = v.root c
  · rw [hd, Function.update_self]
    exact hf (v.rowOf c)
  · rw [Function.update_of_ne hd]
    exact ClassRow.Later.refl (v.row d)

/-- An action that merged nothing left a later view, and is settled there. -/
theorem act_settled {action : ClassAction} {result : Bool}
    (h : v.act environment action = (result, 0, v')) :
    Later v v' ∧ ∀ v'', Later v' v'' → v''.act environment action = (result, 0, v'') := by
  cases action with
  | join left right =>
      rw [act] at h
      by_cases hrefused : v.refuses left right
      · rw [if_pos hrefused] at h
        cases h
        refine ⟨Later.refl v, fun v'' hlater => ?_⟩
        rw [act, hlater.refuses, if_pos hrefused]
      · rw [if_neg hrefused] at h
        by_cases hsame : v.root left = v.root right
        · rw [if_pos hsame] at h
          cases h
          refine ⟨Later.refl v, fun v'' hlater => ?_⟩
          rw [act, hlater.refuses, if_neg hrefused, hlater.root, if_pos hsame]
        · rw [if_neg hsame] at h
          cases h
  | note class_ witness =>
      cases h
      refine ⟨change_later (ClassRow.noteWitness_later environment witness), fun v'' hlater => ?_⟩
      have hrow := hlater.rowOf class_
      have hnoted : (v.change class_ (ClassRow.noteWitness environment witness)).rowOf class_
          = (v.rowOf class_).noteWitness environment witness :=
        Function.update_self (v.root class_) _ v.row
      rw [hnoted] at hrow
      have hkept := ClassRow.noteWitness_settled environment witness hrow
      rw [act, change, hkept]
      show (true, 0, { v'' with row := Function.update v''.row _ (v''.row (v''.root class_)) })
        = (true, 0, v'')
      rw [Function.update_eq_self]

/-- Actions that merged nothing left a later view, and are settled there. -/
theorem run_settled {actions : List ClassAction} {result : Bool}
    (h : v.run environment actions = (result, 0, v')) :
    Later v v' ∧ Settled environment v' actions result := by
  induction actions generalizing v result with
  | nil =>
      cases h
      exact ⟨Later.refl _, fun v'' _ => rfl⟩
  | cons action rest ih =>
      obtain ⟨first, merges, v₁, hact⟩ :
          ∃ first merges v₁, v.act environment action = (first, merges, v₁) := ⟨_, _, _, rfl⟩
      obtain ⟨after, merges', v₂, hrun⟩ :
          ∃ after merges' v₂, v₁.run environment rest = (after, merges', v₂) := ⟨_, _, _, rfl⟩
      rw [run, hact, hrun] at h
      have hresult : (first && after) = result := congrArg Prod.fst h
      have hmerges : merges + merges' = 0 := congrArg (fun answer => answer.2.1) h
      have hview : v₂ = v' := congrArg (fun answer => answer.2.2) h
      obtain ⟨hnone, hnone'⟩ := Nat.add_eq_zero_iff.mp hmerges
      subst hnone hnone' hview hresult
      obtain ⟨hlater, hsettled⟩ := act_settled hact
      obtain ⟨hlater', hsettled'⟩ := ih hrun
      refine ⟨hlater.trans hlater', fun v'' hlater'' => ?_⟩
      rw [run, hsettled v'' (hlater'.trans hlater''), hsettled' v'' hlater'']
      rfl

end ClassView

/-! ## A table and its view -/

/-- A state of the tables of `s₀` whose classes are those of the view. -/
structure Shows (s₀ : NumericConstructionState) (v : ClassView)
    (state : NumericConstructionState) : Prop where
  tables : state = { s₀ with classes := state.classes }
  length : state.classes.length = s₀.classes.length
  linked : Linked state.classes v.root
  rows : ∀ c < state.classes.length, state.classes[v.root c]? = some (v.rowOf c)

namespace Shows

variable {s₀ self : NumericConstructionState} {v : ClassView}

theorem findRoot (h : Shows s₀ v self) {c : Nat} (hc : c < s₀.classes.length) :
    ∃ self', self.findRoot c = some (v.root c, self') ∧ Shows s₀ v self' := by
  have hlength := h.length
  obtain ⟨rows', hfind, hrelinked, hlinked⟩ :=
    findRootFrom_spec self.classes.length h.linked (show c < self.classes.length by omega)
      (by omega)
  refine ⟨{ self with classes := rows' }, ?_, ?_, ?_, hlinked, ?_⟩
  · rw [NumericConstructionState.findRoot, hfind]
    rfl
  · rw [h.tables]
  · rw [← h.length]
    exact hrelinked.length_eq
  · intro d hd
    have hd' : d < self.classes.length := by
      rw [← hrelinked.length_eq]
      exact hd
    have hbefore := h.rows d hd'
    obtain ⟨row', hrow'⟩ := hlinked.exists_row (c := v.root d) (hlinked.root_lt hd)
    obtain ⟨row, hrow, heq⟩ := hrelinked.row_before hrow'
    have hparent' := hlinked.forest.parent_root d
    have hparent := h.linked.forest.parent_root d
    rw [parentOf_some hrow'] at hparent'
    rw [parentOf_some hrow] at hparent
    show rows'[v.root d]? = _
    rw [hrow', heq, hparent', ← hbefore, hrow]
    cases row
    simp only at hparent
    subst hparent
    rfl

theorem readRoot (h : Shows s₀ v self) {c : Nat} (hc : c < s₀.classes.length) {α : Type}
    (f : ClassRow → α) :
    ∃ self', self.readRoot c f = some (f (v.rowOf c), self') ∧ Shows s₀ v self' := by
  obtain ⟨self', hfind, hself'⟩ := h.findRoot hc
  refine ⟨self', ?_, hself'⟩
  have hlength := hself'.length
  rw [NumericConstructionState.readRoot, hfind]
  simp only [Option.bind_eq_bind, Option.bind_some]
  rw [hself'.rows c (by omega)]
  rfl

/-- A row of a root is changed in its place. -/
theorem updateRoot (h : Shows s₀ v self) {c : Nat} (hc : c < s₀.classes.length)
    {f : ClassRow → ClassRow} (hf : ∀ row, (f row).parent = row.parent ∧ (f row).rank = row.rank) :
    ∃ self', self.updateRoot c f = some self' ∧ Shows s₀ (v.change c f) self' := by
  obtain ⟨self', hfind, hself'⟩ := h.findRoot hc
  have hlength := hself'.length
  have hrow := hself'.rows c (by omega)
  have hroot : v.root c < self'.classes.length := (List.getElem?_eq_some_iff.mp hrow).1
  have hlength' : (self'.classes.set (v.root c) (f (v.rowOf c))).length = self'.classes.length :=
    List.length_set
  have hparents : parentOf (self'.classes.set (v.root c) (f (v.rowOf c)))
      = parentOf self'.classes := by
    rw [parentOf_set hroot, (hf _).1, ← parentOf_some hrow, Function.update_eq_self]
  have hranks : rankOf (self'.classes.set (v.root c) (f (v.rowOf c))) = rankOf self'.classes := by
    rw [rankOf_set hroot, (hf _).2, ← rankOf_some hrow, Function.update_eq_self]
  refine ⟨{ self' with classes := self'.classes.set (v.root c) (f (v.rowOf c)) }, ?_, ?_, ?_, ?_,
    ?_⟩
  · rw [NumericConstructionState.updateRoot, hfind]
    simp only [Option.bind_eq_bind, Option.bind_some, NumericConstructionState.updateRow]
    rw [hrow]
    rfl
  · rw [hself'.tables]
  · exact hlength'.trans hself'.length
  · show Linked (self'.classes.set (v.root c) (f (v.rowOf c))) v.root
    constructor
    · rw [hparents, hranks]
      exact hself'.linked.forest
    · rw [hparents, hlength']
      exact hself'.linked.inside
    · rw [hranks, hlength']
      exact hself'.linked.heavy
    · rw [hlength']
      exact hself'.linked.small
  · intro d hd
    show (self'.classes.set (v.root c) (f (v.rowOf c)))[v.root d]?
      = some (Function.update v.row (v.root c) (f (v.rowOf c)) (v.root d))
    have hd' : d < self'.classes.length := by
      rw [← hlength']
      exact hd
    by_cases hdc : v.root d = v.root c
    · rw [hdc, List.getElem?_set_self hroot, Function.update_self]
    · rw [List.getElem?_set_ne (Ne.symm hdc), Function.update_of_ne hdc]
      exact hself'.rows d hd'

/-- The table in which one root row took over another. -/
theorem link (h : Shows s₀ v self) {c d : Nat} (hc : c < s₀.classes.length)
    (hd : d < s₀.classes.length) (hne : v.root c ≠ v.root d)
    (hle : (v.rowOf d).rank ≤ (v.rowOf c).rank) :
    ∃ raised, ((v.rowOf c).absorb (v.rowOf d)).raiseRank (v.rowOf d) = some raised ∧
      Shows s₀ (v.link (v.root c) (v.root d)) { self with
        classes := (self.classes.set (v.root c) raised).set (v.root d)
          ((v.rowOf d).linkedBelow (v.root c)) } := by
  have hlength := h.length
  have hc' := h.rows c (by omega)
  have hd' := h.rows d (by omega)
  have hroot := h.linked.forest.root_root
  obtain ⟨hraise, hlinked⟩ := h.linked.link hc' hd' (hroot c) (hroot d) hne hle
  refine ⟨_, hraise, ?_, ?_, hlinked, ?_⟩
  · rw [h.tables]
  · show List.length _ = _
    rw [List.length_set, List.length_set]
    exact h.length
  · intro e he
    have he' : e < self.classes.length := by
      have hsame : e < ((self.classes.set (v.root c) _).set (v.root d) _).length := he
      rw [List.length_set, List.length_set] at hsame
      exact hsame
    show ((self.classes.set (v.root c) _).set (v.root d) _)[ParentForest.linked v.root (v.root c)
        (v.root d) e]?
      = some (Function.update v.row (v.root c) _ (ParentForest.linked v.root (v.root c)
        (v.root d) e))
    have hrootc : v.root c < self.classes.length := (List.getElem?_eq_some_iff.mp hc').1
    by_cases hec : ParentForest.linked v.root (v.root c) (v.root d) e = v.root c
    · rw [hec, List.getElem?_set_ne hne.symm, List.getElem?_set_self hrootc, Function.update_self]
      rfl
    · have hside : v.root e ≠ v.root c ∧ v.root e ≠ v.root d := by
        rw [linked_eq_winner, not_or] at hec
        exact hec
      have hkept : ParentForest.linked v.root (v.root c) (v.root d) e = v.root e := if_neg hside.2
      rw [hkept, List.getElem?_set_ne hside.2.symm, List.getElem?_set_ne hside.1.symm,
        Function.update_of_ne hside.1]
      exact h.rows e he'

theorem unionClasses (h : Shows s₀ v self) {left right : Nat} (hleft : left < s₀.classes.length)
    (hright : right < s₀.classes.length) (hne : v.root left ≠ v.root right) :
    ∃ winner self', self.unionClasses left right = some (winner, self') ∧
      Shows s₀ (v.unite (v.root left) (v.root right)) self' := by
  obtain ⟨self₁, hfindl, h₁⟩ := h.findRoot hleft
  obtain ⟨self₂, hfindr, h₂⟩ := h₁.findRoot hright
  have hlength := h₂.length
  rw [NumericConstructionState.unionClasses, hfindl]
  simp only [Option.bind_eq_bind, Option.bind_some]
  rw [hfindr]
  simp only [Option.bind_some]
  rw [if_neg hne, h₂.rows left (by omega), h₂.rows right (by omega)]
  simp only [Option.bind_some]
  rw [ClassView.unite]
  by_cases hrank : (v.rowOf right).rank ≤ (v.rowOf left).rank
  · obtain ⟨raised, hraised, hshows⟩ := h₂.link hleft hright hne hrank
    have hrank' : (v.row (v.root right)).rank ≤ (v.row (v.root left)).rank := hrank
    rw [if_pos hrank, if_pos hrank']
    simp only []
    rw [hraised]
    exact ⟨_, _, rfl, hshows⟩
  · obtain ⟨raised, hraised, hshows⟩ := h₂.link hright hleft (Ne.symm hne) (by omega)
    have hrank' : ¬(v.row (v.root right)).rank ≤ (v.row (v.root left)).rank := hrank
    rw [if_neg hrank, if_neg hrank']
    simp only []
    rw [hraised]
    exact ⟨_, _, rfl, hshows⟩

theorem classesShareRoot (h : Shows s₀ v self) {left right : Nat}
    (hleft : left < s₀.classes.length) (hright : right < s₀.classes.length) :
    ∃ self', self.classesShareRoot left right = some (v.root left == v.root right, self') ∧
      Shows s₀ v self' := by
  obtain ⟨self₁, hfindl, h₁⟩ := h.findRoot hleft
  obtain ⟨self₂, hfindr, h₂⟩ := h₁.findRoot hright
  refine ⟨self₂, ?_, h₂⟩
  rw [NumericConstructionState.classesShareRoot, hfindl]
  simp only [Option.bind_eq_bind, Option.bind_some]
  rw [hfindr]
  rfl

theorem numericClassesJoinRefused (h : Shows s₀ v self) {left right : Nat}
    (hleft : left < s₀.classes.length) (hright : right < s₀.classes.length) :
    ∃ self', self.numericClassesJoinRefused left right = some (v.refuses left right, self') ∧
      Shows s₀ v self' := by
  have hsecond : ∀ {self : NumericConstructionState}, Shows s₀ v self →
      ∃ self', ((self.classPinnedFamily right).bind fun answer =>
          if answer.1 = some .Whole then answer.2.classFamilyIsDecimal left
          else some (false, answer.2)) = some (v.pinsWhole right && v.isDecimal left, self') ∧
        Shows s₀ v self' := by
    intro self h
    obtain ⟨self₁, hpinned, h₁⟩ := h.readRoot hright fun row => row.pinnedFamily
    rw [NumericConstructionState.classPinnedFamily, hpinned, Option.bind_some]
    by_cases hwhole : (v.rowOf right).pinnedFamily = some .Whole
    · obtain ⟨self₂, hdecimal, h₂⟩ := h₁.readRoot hleft fun row => row.family == some .Decimal
      refine ⟨self₂, ?_, h₂⟩
      rw [if_pos hwhole, NumericConstructionState.classFamilyIsDecimal, hdecimal,
        ClassView.pinsWhole, hwhole]
      rfl
    · refine ⟨self₁, ?_, h₁⟩
      rw [if_neg hwhole, ClassView.pinsWhole, beq_false_of_ne hwhole]
      rfl
  obtain ⟨self₁, hpinned, h₁⟩ := h.readRoot hleft fun row => row.pinnedFamily
  rw [NumericConstructionState.numericClassesJoinRefused,
    NumericConstructionState.classPinnedFamily, hpinned, ClassView.refuses, ClassView.pinsWhole]
  simp only [Option.bind_eq_bind, Option.bind_some]
  by_cases hwhole : (v.rowOf left).pinnedFamily = some .Whole
  · obtain ⟨self₂, hdecimal, h₂⟩ := h₁.readRoot hright fun row => row.family == some .Decimal
    have hdecimal' : self₁.classFamilyIsDecimal right = some (v.isDecimal right, self₂) :=
      hdecimal
    rw [if_pos hwhole, hdecimal', hwhole, Option.bind_some]
    cases hright' : v.isDecimal right with
    | true => exact ⟨self₂, rfl, h₂⟩
    | false => exact hsecond h₂
  · rw [if_neg hwhole, if_neg Bool.false_ne_true, beq_false_of_ne hwhole]
    exact hsecond h₁

/-- A numeric leaf beside a receiver notes it on the class, where it is numeric. -/
theorem noteReceiver (h : Shows s₀ v self) (types : TypeStore) (span : Option SourceSpan)
    (authoredOrder : Nat) {c : Nat} (hc : c < s₀.classes.length) (receiver : TypeId) :
    ∃ self', self.noteReceiver types span authoredOrder c receiver = some self' ∧
      Shows s₀ (v.run types.numericTypes
        (witnessActions types.numericTypes span authoredOrder (c, receiver))).2.2 self' := by
  rw [NumericConstructionState.noteReceiver, witnessActions, numericWitnessType]
  by_cases hnumeric : (types.numericTypes.fixedScalar receiver).isSome
      ∨ (types.numericTypes.numberScale receiver).isSome
  · obtain ⟨self₁, hpinned, h₁⟩ := h.readRoot hc fun row => row.pinnedFamily
    simp only [if_pos hnumeric, NumericConstructionState.classPinnedFamily, hpinned,
      Option.bind_eq_bind, Option.bind_some]
    by_cases hreceives : familyReceivesRecipe (v.rowOf c).pinnedFamily receiver types.numericTypes
    · rw [if_pos hreceives]
      obtain ⟨self', hself', h'⟩ := h₁.updateRoot hc
        (ClassRow.receiveWitness_link types.numericTypes ⟨receiver, span, authoredOrder⟩)
      refine ⟨self', hself', ?_⟩
      have hnote : (v.rowOf c).noteWitness types.numericTypes ⟨receiver, span, authoredOrder⟩
          = (v.rowOf c).receiveWitness types.numericTypes ⟨receiver, span, authoredOrder⟩ :=
        if_pos hreceives
      rw [ClassView.change, ← hnote] at h'
      exact h'
    · rw [if_neg hreceives]
      obtain ⟨self', hself', h'⟩ := h₁.updateRoot hc
        (ClassRow.refuseWitness_link ⟨receiver, span, authoredOrder⟩)
      refine ⟨self', hself', ?_⟩
      have hnote : (v.rowOf c).noteWitness types.numericTypes ⟨receiver, span, authoredOrder⟩
          = (v.rowOf c).refuseWitness ⟨receiver, span, authoredOrder⟩ := if_neg hreceives
      rw [ClassView.change, ← hnote] at h'
      exact h'
  · rw [if_neg hnumeric]
    exact ⟨self, rfl, h⟩

end Shows

end Moth.Ast.NumericConstruction
