import Moth.Ast.NumericJoinChecks

/-!
# What a join of two shapes leaves

The classes after a join: what was one class stays one, an integer-pinned class
and a decimal class that were apart stay apart, and a join that answers true
has put each two leaves that it pairs into one class. The check is of the
classes as they stand, so a join may still be refused where an equality that it
made itself brought a pin and a decimal class together.
-/

namespace Moth.Ast.NumericConstruction

open Moth.Lib Moth.Datatypes Moth.Source

/-! ## Families and pins of a row that took over another -/

section Merge

variable {p q : NumericPin} {f g : Option NumericFamily}

/-- The family that receivers must be of, for a pin and a family. -/
def pinnedBy (p : NumericPin) (f : Option NumericFamily) : Option NumericFamily :=
  match p with
  | .Unpinned => none
  | .Bound => f
  | .LoopItem => some .Whole

theorem forall_pins {motive : NumericPin → NumericPin → Option NumericFamily →
    Option NumericFamily → Prop}
    (h : ∀ p ∈ [NumericPin.Unpinned, .Bound, .LoopItem],
      ∀ q ∈ [NumericPin.Unpinned, .Bound, .LoopItem],
      ∀ f ∈ [none, some NumericFamily.Whole, some .Decimal],
      ∀ g ∈ [none, some NumericFamily.Whole, some .Decimal], motive p q f g)
    (p q : NumericPin) (f g : Option NumericFamily) : motive p q f g := by
  have hpin : ∀ p : NumericPin, p ∈ [NumericPin.Unpinned, .Bound, .LoopItem] := by
    intro p
    cases p with
    | _ => decide
  have hfamily : ∀ f : Option NumericFamily,
      f ∈ [none, some NumericFamily.Whole, some .Decimal] := by
    intro f
    cases f with
    | none => decide
    | some f =>
        cases f with
        | _ => decide
  exact h p (hpin p) q (hpin q) f (hfamily f) g (hfamily g)

theorem pinnedBy_merge (p q : NumericPin) (f g : Option NumericFamily) :
    (pinnedBy p f = some .Whole ∧ g ≠ some .Decimal ∨
      pinnedBy q g = some .Whole ∧ f ≠ some .Decimal) →
    pinnedBy (p.max q) (mergeFamilies f g) = some .Whole := by
  revert p q f g
  exact forall_pins (by decide)

theorem pinnedBy_of_merge (p q : NumericPin) (f g : Option NumericFamily) :
    (p = .Bound → f ≠ none) → (q = .Bound → g ≠ none) →
    pinnedBy (p.max q) (mergeFamilies f g) = some .Whole →
    pinnedBy p f = some .Whole ∨ pinnedBy q g = some .Whole := by
  revert p q f g
  exact forall_pins (by decide)

theorem bound_merge (p q : NumericPin) (f g : Option NumericFamily) :
    (p = .Bound → f ≠ none) → (q = .Bound → g ≠ none) →
    p.max q = .Bound → mergeFamilies f g ≠ none := by
  revert p q f g
  exact forall_pins (by decide)

theorem decimal_merge (f g : Option NumericFamily) :
    mergeFamilies f g = some .Decimal ↔ f = some .Decimal ∨ g = some .Decimal := by
  revert f g
  exact forall_pins (motive := fun _ _ f g =>
    mergeFamilies f g = some .Decimal ↔ f = some .Decimal ∨ g = some .Decimal)
    (by decide) .Unpinned .Unpinned

end Merge

theorem pinnedFamily_eq (row : ClassRow) : row.pinnedFamily = pinnedBy row.pin row.family :=
  rfl

theorem absorb_family (winner loser : ClassRow) :
    (winner.absorb loser).family = mergeFamilies winner.family loser.family := by
  rw [ClassRow.absorb, foldl_insertReceiver_eq]
  rfl

theorem absorb_pin (winner loser : ClassRow) :
    (winner.absorb loser).pin = winner.pin.max loser.pin := by
  rw [ClassRow.absorb, foldl_insertReceiver_eq]
  rfl

/-! ## Views along a run -/

namespace ClassView

variable {environment : TypeEnvironment} {v₀ v v' : ClassView} {edge : Nat → Nat → Prop}

theorem pinsWhole_iff (c : Nat) :
    v.pinsWhole c = true ↔ pinnedBy (v.rowOf c).pin (v.rowOf c).family = some .Whole := by
  rw [pinsWhole, pinnedFamily_eq, beq_iff_eq]

theorem isDecimal_iff (c : Nat) : v.isDecimal c = true ↔ (v.rowOf c).family = some .Decimal := by
  rw [isDecimal, beq_iff_eq]

theorem link_rowOf (v : ClassView) (winner loser c : Nat) :
    (v.link winner loser).rowOf c =
      if v.root c = winner ∨ v.root c = loser then
        { (v.row winner).absorb (v.row loser) with
          rank := raisedRank (v.row winner) (v.row loser) }
      else v.rowOf c := by
  show Function.update v.row winner _ (ParentForest.linked v.root winner loser c) = _
  by_cases hc : v.root c = winner ∨ v.root c = loser
  · rw [if_pos hc, (linked_eq_winner c).mpr hc, Function.update_self]
  · have hside := not_or.mp hc
    have hkept : ParentForest.linked v.root winner loser c = v.root c := if_neg hside.2
    rw [if_neg hc, hkept, Function.update_of_ne hside.1]
    rfl

/-- What one action may do to the classes: nothing to their families and pins,
or the classes of an edge become one class with the merge of their two rows. -/
inductive Stepped (edge : Nat → Nat → Prop) (v v' : ClassView) : Prop
  | same (root : v'.root = v.root) (family : ∀ c, (v'.rowOf c).family = (v.rowOf c).family)
      (pin : ∀ c, (v'.rowOf c).pin = (v.rowOf c).pin)
  | merged (a b : Nat) (named : edge a b) (admitted : v.refuses a b = false)
      (joined : ∀ c d, v'.root c = v'.root d ↔ v.root c = v.root d ∨
        (v.root c = v.root a ∨ v.root c = v.root b) ∧ (v.root d = v.root a ∨ v.root d = v.root b))
      (family : ∀ c, v.root c = v.root a ∨ v.root c = v.root b →
        (v'.rowOf c).family = mergeFamilies (v.rowOf a).family (v.rowOf b).family)
      (pin : ∀ c, v.root c = v.root a ∨ v.root c = v.root b →
        (v'.rowOf c).pin = (v.rowOf a).pin.max (v.rowOf b).pin)
      (other : ∀ c, v.root c ≠ v.root a → v.root c ≠ v.root b → v'.rowOf c = v.rowOf c)

theorem refuses_comm (a b : Nat) : v.refuses a b = v.refuses b a := by
  rw [refuses, refuses, Bool.or_comm]

theorem link_stepped {a b : Nat} (named : edge a b) (admitted : v.refuses a b = false) :
    Stepped edge v (v.link (v.root a) (v.root b)) := by
  have hrow : ∀ c, v.root c = v.root a ∨ v.root c = v.root b →
      (v.link (v.root a) (v.root b)).rowOf c
        = { (v.rowOf a).absorb (v.rowOf b) with
          rank := raisedRank (v.rowOf a) (v.rowOf b) } := by
    intro c hc
    rw [link_rowOf, if_pos hc]
    rfl
  refine .merged a b named admitted (fun c d => ?_) (fun c hc => ?_) (fun c hc => ?_)
    (fun c ha hb => ?_)
  · show ParentForest.linked v.root _ _ c = ParentForest.linked v.root _ _ d ↔ _
    by_cases hc : v.root c = v.root a ∨ v.root c = v.root b
    · by_cases hd : v.root d = v.root a ∨ v.root d = v.root b
      · rw [(linked_eq_winner c).mpr hc, (linked_eq_winner d).mpr hd]
        exact iff_of_true rfl (Or.inr ⟨hc, hd⟩)
      · refine iff_of_false (fun heq => hd ?_) ?_
        · rw [(linked_eq_winner c).mpr hc] at heq
          exact (linked_eq_winner d).mp heq.symm
        · intro h
          rcases h with h | h
          · rw [h] at hc
            exact hd hc
          · exact hd h.2
    · have hkept : ParentForest.linked v.root (v.root a) (v.root b) c = v.root c :=
        if_neg (not_or.mp hc).2
      by_cases hd : v.root d = v.root a ∨ v.root d = v.root b
      · refine iff_of_false (fun heq => hc ?_) ?_
        · rw [(linked_eq_winner d).mpr hd] at heq
          exact (linked_eq_winner c).mp heq
        · intro h
          rcases h with h | h
          · rw [← h] at hd
            exact hc hd
          · exact hc h.1
      · have hkept' : ParentForest.linked v.root (v.root a) (v.root b) d = v.root d :=
          if_neg (not_or.mp hd).2
        rw [hkept, hkept']
        exact ⟨Or.inl, fun h => h.resolve_right fun h => hc h.1⟩
  · rw [hrow c hc]
    exact absorb_family _ _
  · rw [hrow c hc]
    exact absorb_pin _ _
  · rw [link_rowOf, if_neg (not_or.mpr ⟨ha, hb⟩)]

/-- The two sides of a join, in either order. -/
def ClassAction.Names (action : ClassAction) (a b : Nat) : Prop :=
  action = .join a b ∨ action = .join b a

theorem act_stepped (action : ClassAction) :
    Stepped (ClassAction.Names action) v (v.act environment action).2.2 := by
  cases action with
  | join left right =>
      rw [act]
      split
      · exact .same rfl (fun _ => rfl) fun _ => rfl
      · next hadmitted =>
          have hadmitted' := Bool.eq_false_iff.mpr hadmitted
          split
          · exact .same rfl (fun _ => rfl) fun _ => rfl
          · show Stepped _ v (v.unite (v.root left) (v.root right))
            rw [unite]
            split
            · exact link_stepped (Or.inl rfl) hadmitted'
            · exact link_stepped (Or.inr rfl) ((refuses_comm right left).trans hadmitted')
  | note class_ witness =>
      have hlater : Later v (v.change class_ (ClassRow.noteWitness environment witness)) :=
        change_later (ClassRow.noteWitness_later environment witness)
      exact .same hlater.root (fun c => (hlater.rowOf c).family) fun c => (hlater.rowOf c).pin

/-! ## What a step keeps -/

theorem not_refuses_iff {a b : Nat} : v.refuses a b = false ↔
    (v.pinsWhole a = true → v.isDecimal b = false) ∧
      (v.pinsWhole b = true → v.isDecimal a = false) := by
  rw [refuses, Bool.or_eq_false_iff, Bool.and_eq_false_imp, Bool.and_eq_false_imp]

theorem Stepped.coarser (h : Stepped edge v v') {c d : Nat} (hcd : v.root c = v.root d) :
    v'.root c = v'.root d := by
  cases h with
  | same root family pin => rw [root, hcd]
  | merged a b named admitted joined family pin other => exact (joined c d).mpr (Or.inl hcd)

/-- A row of a merged class pins whole numbers where either row did. -/
theorem Stepped.pinsWhole (h : Stepped edge v v') {c : Nat} (hc : v.pinsWhole c = true) :
    v'.pinsWhole c = true := by
  cases h with
  | same root family pin =>
      rw [pinsWhole_iff] at hc ⊢
      rw [family, pin]
      exact hc
  | merged a b named admitted joined family pin other =>
      by_cases hside : v.root c = v.root a ∨ v.root c = v.root b
      · obtain ⟨hleft, hright⟩ := not_refuses_iff.mp admitted
        have hsame : ∀ {x : Nat}, v.root c = v.root x → v.pinsWhole x = true := by
          intro x hx
          rw [ClassView.pinsWhole, ClassView.rowOf, ← hx]
          exact hc
        rw [pinsWhole_iff, family c hside, pin c hside]
        apply pinnedBy_merge
        rcases hside with hside | hside
        · have hpins := hsame hside
          refine Or.inl ⟨(pinsWhole_iff a).mp hpins, fun hdecimal => ?_⟩
          have hnot := hleft hpins
          rw [(isDecimal_iff b).mpr hdecimal] at hnot
          cases hnot
        · have hpins := hsame hside
          refine Or.inr ⟨(pinsWhole_iff b).mp hpins, fun hdecimal => ?_⟩
          have hnot := hright hpins
          rw [(isDecimal_iff a).mpr hdecimal] at hnot
          cases hnot
      · have hapart := not_or.mp hside
        rw [ClassView.pinsWhole, other c hapart.1 hapart.2]
        exact hc

theorem Stepped.isDecimal (h : Stepped edge v v') {c : Nat} (hc : v.isDecimal c = true) :
    v'.isDecimal c = true := by
  cases h with
  | same root family pin =>
      rw [isDecimal_iff] at hc ⊢
      rw [family]
      exact hc
  | merged a b named admitted joined family pin other =>
      by_cases hside : v.root c = v.root a ∨ v.root c = v.root b
      · rw [isDecimal_iff, family c hside, decimal_merge]
        rw [isDecimal_iff, ClassView.rowOf] at hc
        rcases hside with hside | hside
        · rw [hside] at hc
          exact Or.inl hc
        · rw [hside] at hc
          exact Or.inr hc
      · have hapart := not_or.mp hside
        rw [ClassView.isDecimal, other c hapart.1 hapart.2]
        exact hc

/-- A pinned class and a decimal class that are apart stay apart. -/
theorem Stepped.apart (h : Stepped edge v v') {c d : Nat} (hc : v.pinsWhole c = true)
    (hd : v.isDecimal d = true) (hcd : v.root c ≠ v.root d) : v'.root c ≠ v'.root d := by
  cases h with
  | same root family pin =>
      rw [root]
      exact hcd
  | merged a b named admitted joined family pin other =>
      intro heq
      obtain ⟨hleft, hright⟩ := not_refuses_iff.mp admitted
      have hpins : ∀ {x : Nat}, v.root c = v.root x → v.pinsWhole x = true := by
        intro x hx
        rw [ClassView.pinsWhole, ClassView.rowOf, ← hx]
        exact hc
      have hdecimal : ∀ {x : Nat}, v.root d = v.root x → v.isDecimal x = true := by
        intro x hx
        rw [ClassView.isDecimal, ClassView.rowOf, ← hx]
        exact hd
      rcases (joined c d).mp heq with hsame | hsides
      · exact hcd hsame
      · obtain ⟨hcs, hds⟩ := hsides
        rcases hcs with hca | hcb
        · rcases hds with hda | hdb
          · exact hcd (hca.trans hda.symm)
          · exact Bool.false_ne_true ((hleft (hpins hca)).symm.trans (hdecimal hdb))
        · rcases hds with hda | hdb
          · exact Bool.false_ne_true ((hright (hpins hcb)).symm.trans (hdecimal hda))
          · exact hcd (hcb.trans hdb.symm)

/-! ## Runs of actions -/

/-- What a run keeps of the classes it started from. -/
structure Kept (v₀ v : ClassView) : Prop where
  coarser : ∀ c d, v₀.root c = v₀.root d → v.root c = v.root d
  pins : ∀ c, v₀.pinsWhole c = true → v.pinsWhole c = true
  decimal : ∀ c, v₀.isDecimal c = true → v.isDecimal c = true
  apart : ∀ c d, v₀.pinsWhole c = true → v₀.isDecimal d = true → v₀.root c ≠ v₀.root d →
    v.root c ≠ v.root d

theorem Kept.refl (v : ClassView) : Kept v v :=
  ⟨fun _ _ => id, fun _ => id, fun _ => id, fun _ _ _ _ => id⟩

theorem Kept.step (h : Kept v₀ v) (hstep : Stepped edge v v') : Kept v₀ v' where
  coarser c d hcd := hstep.coarser (h.coarser c d hcd)
  pins c hc := hstep.pinsWhole (h.pins c hc)
  decimal c hc := hstep.isDecimal (h.decimal c hc)
  apart c d hc hd hcd := hstep.apart (h.pins c hc) (h.decimal d hd) (h.apart c d hc hd hcd)

theorem Kept.run {actions : List ClassAction} (h : Kept v₀ v) :
    Kept v₀ (v.run environment actions).2.2 := by
  induction actions generalizing v with
  | nil => exact h
  | cons action rest ih => exact ih (h.step (act_stepped action))

/-- A run that answers true has put the classes of each of its joins together. -/
theorem run_joins {actions : List ClassAction} (h : (v.run environment actions).1 = true)
    {left right : Nat} (hmem : .join left right ∈ actions) :
    (v.run environment actions).2.2.root left = (v.run environment actions).2.2.root right := by
  induction actions generalizing v with
  | nil => exact absurd hmem List.not_mem_nil
  | cons action rest ih =>
      obtain ⟨hfirst, hrest⟩ := Bool.and_eq_true_iff.mp h
      rcases List.mem_cons.mp hmem with heq | hmem
      · have hjoined : (v.act environment action).2.2.root left
            = (v.act environment action).2.2.root right := by
          rw [← heq] at hfirst ⊢
          rw [act] at hfirst ⊢
          split
          · next hrefused =>
              rw [if_pos hrefused] at hfirst
              cases hfirst
          · split
            · next hsame => exact hsame
            · show (v.unite (v.root left) (v.root right)).root left = _
              rw [unite]
              split
              · exact ((linked_eq_winner left).mpr (Or.inl rfl)).trans
                  ((linked_eq_winner right).mpr (Or.inr rfl)).symm
              · exact ((linked_eq_winner left).mpr (Or.inr rfl)).trans
                  ((linked_eq_winner right).mpr (Or.inl rfl)).symm
        have hkept : Kept (v.act environment action).2.2
            ((v.act environment action).2.2.run environment rest).2.2 := (Kept.refl _).run
        exact hkept.coarser _ _ hjoined
      · exact ih hrest hmem

theorem run_refused {actions : List ClassAction} (h : Kept v₀ v)
    (hrefused : v₀.anyRefused actions = true) : (v.run environment actions).1 = false := by
  induction actions generalizing v with
  | nil => cases hrefused
  | cons action rest ih =>
      rw [ClassView.run]
      apply Bool.and_eq_false_iff.mpr
      rcases Bool.or_eq_true_iff.mp hrefused with hfirst | hrest
      · refine Or.inl ?_
        cases action with
        | note class_ witness => cases hfirst
        | join left right =>
            have hrefuses : v.refuses left right = true := by
              have hfirst' : v₀.refuses left right = true := hfirst
              rw [ClassView.refuses] at hfirst' ⊢
              rcases Bool.or_eq_true_iff.mp hfirst' with hside | hside
              · obtain ⟨hpins, hdecimal⟩ := Bool.and_eq_true_iff.mp hside
                rw [h.pins _ hpins, h.decimal _ hdecimal]
                rfl
              · obtain ⟨hpins, hdecimal⟩ := Bool.and_eq_true_iff.mp hside
                rw [h.pins _ hpins, h.decimal _ hdecimal, Bool.and_self, Bool.or_true]
            rw [act, if_pos hrefuses]
      · exact Or.inr (ih (h.step (act_stepped action)) hrest)

/-- Where the classes, pins and families of a run come from. -/
structure Traced (together : Nat → Nat → Prop) (v₀ v : ClassView) : Prop where
  joined : ∀ c d, v.root c = v.root d → together c d
  pins : ∀ c, v.pinsWhole c = true → ∃ p, v.root p = v.root c ∧ v₀.pinsWhole p = true
  decimal : ∀ c, v.isDecimal c = true → ∃ d, v.root d = v.root c ∧ v₀.isDecimal d = true
  bound : ∀ c, (v.rowOf c).pin = .Bound → (v.rowOf c).family ≠ none

section Traced

variable {together : Nat → Nat → Prop}

theorem Traced.same (h : Traced together v₀ v) (root : v'.root = v.root)
    (family : ∀ c, (v'.rowOf c).family = (v.rowOf c).family)
    (pin : ∀ c, (v'.rowOf c).pin = (v.rowOf c).pin) : Traced together v₀ v' where
  joined c d hcd := by
    rw [root] at hcd
    exact h.joined c d hcd
  pins c hc := by
    rw [pinsWhole_iff, family, pin, ← pinsWhole_iff] at hc
    rw [root]
    exact h.pins c hc
  decimal c hc := by
    rw [isDecimal_iff, family, ← isDecimal_iff] at hc
    rw [root]
    exact h.decimal c hc
  bound c hc := by
    rw [pin] at hc
    rw [family]
    exact h.bound c hc

/-- The classes of a merge come from its two sides. -/
theorem Traced.merged (h : Traced together v₀ v) (htogether : Equivalence together) {a b : Nat}
    (hab : together a b)
    (joined : ∀ c d, v'.root c = v'.root d ↔ v.root c = v.root d ∨
      (v.root c = v.root a ∨ v.root c = v.root b) ∧ (v.root d = v.root a ∨ v.root d = v.root b))
    (family : ∀ c, v.root c = v.root a ∨ v.root c = v.root b →
      (v'.rowOf c).family = mergeFamilies (v.rowOf a).family (v.rowOf b).family)
    (pin : ∀ c, v.root c = v.root a ∨ v.root c = v.root b →
      (v'.rowOf c).pin = (v.rowOf a).pin.max (v.rowOf b).pin)
    (other : ∀ c, v.root c ≠ v.root a → v.root c ≠ v.root b → v'.rowOf c = v.rowOf c) :
    Traced together v₀ v' where
  joined c d hcd := by
    have hside : ∀ {x : Nat}, v.root x = v.root a ∨ v.root x = v.root b → together x a := by
      intro x hx
      rcases hx with hx | hx
      · exact h.joined x a hx
      · exact htogether.trans (h.joined x b hx) (htogether.symm hab)
    rcases (joined c d).mp hcd with hcd | hcd
    · exact h.joined c d hcd
    · exact htogether.trans (hside hcd.1) (htogether.symm (hside hcd.2))
  pins c hc := by
    by_cases hside : v.root c = v.root a ∨ v.root c = v.root b
    · rw [pinsWhole_iff, family c hside, pin c hside] at hc
      rcases pinnedBy_of_merge _ _ _ _ (h.bound a) (h.bound b) hc with hp | hp
      · obtain ⟨p, hpa, hpins⟩ := h.pins a ((pinsWhole_iff a).mpr hp)
        exact ⟨p, (joined p c).mpr (Or.inr ⟨Or.inl hpa, hside⟩), hpins⟩
      · obtain ⟨p, hpb, hpins⟩ := h.pins b ((pinsWhole_iff b).mpr hp)
        exact ⟨p, (joined p c).mpr (Or.inr ⟨Or.inr hpb, hside⟩), hpins⟩
    · have hapart := not_or.mp hside
      rw [ClassView.pinsWhole, other c hapart.1 hapart.2] at hc
      obtain ⟨p, hpc, hpins⟩ := h.pins c hc
      exact ⟨p, (joined p c).mpr (Or.inl hpc), hpins⟩
  decimal c hc := by
    by_cases hside : v.root c = v.root a ∨ v.root c = v.root b
    · rw [isDecimal_iff, family c hside, decimal_merge] at hc
      rcases hc with hd | hd
      · obtain ⟨d, hda, hdecimal⟩ := h.decimal a ((isDecimal_iff a).mpr hd)
        exact ⟨d, (joined d c).mpr (Or.inr ⟨Or.inl hda, hside⟩), hdecimal⟩
      · obtain ⟨d, hdb, hdecimal⟩ := h.decimal b ((isDecimal_iff b).mpr hd)
        exact ⟨d, (joined d c).mpr (Or.inr ⟨Or.inr hdb, hside⟩), hdecimal⟩
    · have hapart := not_or.mp hside
      rw [ClassView.isDecimal, other c hapart.1 hapart.2] at hc
      obtain ⟨d, hdc, hdecimal⟩ := h.decimal c hc
      exact ⟨d, (joined d c).mpr (Or.inl hdc), hdecimal⟩
  bound c hc := by
    by_cases hside : v.root c = v.root a ∨ v.root c = v.root b
    · rw [pin c hside] at hc
      rw [family c hside]
      exact bound_merge _ _ _ _ (h.bound a) (h.bound b) hc
    · have hapart := not_or.mp hside
      rw [other c hapart.1 hapart.2] at hc ⊢
      exact h.bound c hc

theorem Traced.step (h : Traced together v₀ v) (htogether : Equivalence together)
    (hstep : Stepped edge v v') (hedge : ∀ a b, edge a b → together a b) :
    Traced together v₀ v' := by
  cases hstep with
  | same root family pin => exact h.same root family pin
  | merged a b named admitted joined family pin other =>
      exact h.merged htogether (hedge a b named) joined family pin other

/-- Where no pinned class and no decimal class come together, no join is refused. -/
theorem Traced.run {actions : List ClassAction} (h : Traced together v₀ v)
    (htogether : Equivalence together)
    (hjoins : ∀ left right, .join left right ∈ actions → together left right)
    (hclash : ∀ p d, v₀.pinsWhole p = true → v₀.isDecimal d = true → ¬together p d) :
    (v.run environment actions).1 = true := by
  induction actions generalizing v with
  | nil => rfl
  | cons action rest ih =>
      rw [ClassView.run]
      apply Bool.and_eq_true_iff.mpr
      constructor
      · cases action with
        | note class_ witness => rfl
        | join left right =>
            have htog := hjoins left right List.mem_cons_self
            have hside : ∀ {a b : Nat}, together a b → v.pinsWhole a = true →
                v.isDecimal b = false := by
              intro a b hab hpins
              cases hdecimal : v.isDecimal b with
              | false => rfl
              | true =>
                  obtain ⟨p, hpa, hp⟩ := h.pins a hpins
                  obtain ⟨d, hdb, hd⟩ := h.decimal b hdecimal
                  have hpd := htogether.trans (h.joined p a hpa)
                    (htogether.trans hab (htogether.symm (h.joined d b hdb)))
                  exact absurd hpd (hclash p d hp hd)
            have hadmitted : ¬v.refuses left right = true := Bool.eq_false_iff.mp
              (not_refuses_iff.mpr ⟨hside htog, hside (htogether.symm htog)⟩)
            rw [ClassView.act, if_neg hadmitted]
            split
            · rfl
            · rfl
      · refine ih (h.step htogether (act_stepped action) fun a b hnames => ?_)
          fun left right hmem => hjoins left right (List.mem_cons_of_mem action hmem)
        rcases hnames with hname | hname
        · exact hjoins a b (hname ▸ List.mem_cons_self)
        · exact htogether.symm (hjoins b a (hname ▸ List.mem_cons_self))

end Traced

end ClassView

/-! ## Classes of a state -/

namespace NumericConstructionState

variable (self : NumericConstructionState)

def rootOf (c : Nat) : Option Nat :=
  walkToRoot self.classes self.classes.length c

def rootRow (c : Nat) : Option ClassRow := do
  let root ← self.rootOf c
  self.classes[root]?

def sameClass (c d : Nat) : Prop :=
  self.rootOf c = self.rootOf d

def integerPinned (c : Nat) : Prop :=
  (self.rootRow c).bind ClassRow.pinnedFamily = some .Whole

def decimalClass (c : Nat) : Prop :=
  (self.rootRow c).bind (·.family) = some .Decimal

end NumericConstructionState

/-- Two states with the same tables, the same classes and the same row of each class. -/
structure SameClasses (s s' : NumericConstructionState) : Prop where
  tables : s' = { s with classes := s'.classes }
  length : s'.classes.length = s.classes.length
  roots : ∀ c < s.classes.length, s'.rootOf c = s.rootOf c
  rows : ∀ c < s.classes.length, s'.rootRow c = s.rootRow c

/-- A class table whose links form a forest, with a family wherever a row is bound. -/
structure ClassTable (state : NumericConstructionState) : Prop where
  linked : ∃ root, Linked state.classes root
  bound : ∀ (c : Nat) row, state.classes[c]? = some row → row.parent = c → row.pin = .Bound →
    row.family ≠ none

theorem Run.classTable {environment : TypeEnvironment} {ops : List Op}
    {s : NumericConstructionState} (h : Run environment ops s) : ClassTable s := by
  obtain ⟨root, hvalid, _⟩ := h.valid
  exact ⟨⟨root, hvalid.linked⟩, fun c row hrow hparent hpin =>
    (hvalid.rows c row hrow hparent).bound hpin⟩

theorem Run.shapeTables {environment : TypeEnvironment} {ops : List Op}
    {s : NumericConstructionState} (h : Run environment ops s)
    (ranges : ∀ (id : Nat) declared start end_,
      s.shapes[id]? = some (.DeclaredSubstitution declared start end_) →
      start ≤ end_ ∧ end_ ≤ s.declaredBindings.length) : ShapeTables s := by
  obtain ⟨root, hvalid, _⟩ := h.valid
  exact ⟨hvalid.nodes, ranges, hvalid.orders⟩

section States

variable {s₀ s s' : NumericConstructionState} {v : ClassView}

theorem Shows.rootOf (h : Shows s₀ v s) {c : Nat} (hc : c < s₀.classes.length) :
    s.rootOf c = some (v.root c) := by
  have hlength := h.length
  exact walkToRoot_spec _ h.linked (by omega) (by omega)

theorem Shows.rootRow (h : Shows s₀ v s) {c : Nat} (hc : c < s₀.classes.length) :
    s.rootRow c = some (v.rowOf c) := by
  have hlength := h.length
  rw [NumericConstructionState.rootRow, h.rootOf hc]
  exact h.rows c (by omega)

theorem walkToRoot_beyond {rows : List ClassRow} {c : Nat} (hc : rows.length ≤ c) (fuel : Nat) :
    NumericConstructionState.walkToRoot rows fuel c = none := by
  cases fuel with
  | zero => rfl
  | succ fuel =>
      rw [NumericConstructionState.walkToRoot, List.getElem?_eq_none hc]
      rfl

theorem lt_of_rootRow {c : Nat} {α : Type} {f : ClassRow → Option α} {a : α}
    (h : (s.rootRow c).bind f = some a) : c < s.classes.length := by
  by_contra hc
  rw [NumericConstructionState.rootRow, NumericConstructionState.rootOf,
    walkToRoot_beyond (by omega)] at h
  cases h

theorem Shows.sameClass (h : Shows s₀ v s) {c d : Nat} (hcd : v.root c = v.root d) :
    s.sameClass c d := by
  have hlength := h.length
  by_cases hc : c < s.classes.length
  · have hd : d < s.classes.length := by
      by_contra hd
      have hself := h.linked.root_beyond (c := d) (by omega)
      have hroot := h.linked.root_lt hc
      omega
    rw [NumericConstructionState.sameClass, h.rootOf (by omega), h.rootOf (by omega), hcd]
  · have hd : ¬d < s.classes.length := by
      intro hd
      have hself := h.linked.root_beyond (c := c) (by omega)
      have hroot := h.linked.root_lt hd
      omega
    rw [NumericConstructionState.sameClass, NumericConstructionState.rootOf,
      NumericConstructionState.rootOf, walkToRoot_beyond (by omega), walkToRoot_beyond (by omega)]

theorem Shows.sameClass_iff (h : Shows s₀ v s) {c d : Nat} (hc : c < s₀.classes.length)
    (hd : d < s₀.classes.length) : s.sameClass c d ↔ v.root c = v.root d := by
  rw [NumericConstructionState.sameClass, h.rootOf hc, h.rootOf hd, Option.some.injEq]

theorem Shows.integerPinned (h : Shows s₀ v s) {c : Nat} (hc : c < s₀.classes.length) :
    s.integerPinned c ↔ v.pinsWhole c = true := by
  rw [NumericConstructionState.integerPinned, h.rootRow hc, Option.bind_some,
    ClassView.pinsWhole, beq_iff_eq]

theorem Shows.decimalClass (h : Shows s₀ v s) {c : Nat} (hc : c < s₀.classes.length) :
    s.decimalClass c ↔ v.isDecimal c = true := by
  rw [NumericConstructionState.decimalClass, h.rootRow hc, Option.bind_some,
    ClassView.isDecimal, beq_iff_eq]

theorem Shows.sameClasses (h : Shows s₀ v s) (h' : Shows s₀ v s') : SameClasses s s' where
  tables := by
    rw [h'.tables, h.tables]
  length := h'.length.trans h.length.symm
  roots c hc := by
    rw [h.length] at hc
    rw [h.rootOf hc, h'.rootOf hc]
  rows c hc := by
    rw [h.length] at hc
    rw [h.rootRow hc, h'.rootRow hc]

/-- The view of a state. -/
theorem ClassTable.shows (h : ClassTable s) : ∃ v, Shows s v s ∧
    (∀ c, (v.rowOf c).pin = .Bound → (v.rowOf c).family ≠ none) ∧
    ∀ c, v.pinsWhole c = true ∨ v.isDecimal c = true → c < s.classes.length := by
  obtain ⟨root, hlinked⟩ := h.linked
  refine ⟨⟨root, fun c => s.classes[c]?.getD ⟨c, 0, none, none, none, .Unpinned, none, false, []⟩⟩,
    ⟨rfl, rfl, hlinked, ?_⟩, ?_, ?_⟩
  · intro c hc
    obtain ⟨row, hrow⟩ := hlinked.exists_row (hlinked.root_lt hc)
    show s.classes[root c]? = some (s.classes[root c]?.getD _)
    rw [hrow]
    rfl
  · intro c
    show (s.classes[root c]?.getD _).pin = _ → (s.classes[root c]?.getD _).family ≠ none
    cases hrow : s.classes[root c]? with
    | none => exact fun hpin => by cases hpin
    | some row =>
        refine h.bound (root c) row hrow ?_
        rw [← parentOf_some hrow]
        exact hlinked.forest.parent_root c
  · intro c hc
    by_contra hbeyond
    have hrow : s.classes[root c]? = none := by
      rw [hlinked.root_beyond (by omega)]
      exact List.getElem?_eq_none (by omega)
    rw [ClassView.pinsWhole, ClassView.isDecimal, ClassView.rowOf] at hc
    simp only [hrow, Option.getD_none] at hc
    rcases hc with hc | hc
    · cases hc
    · cases hc

end States

/-! ## Joining two shapes -/

/-- Two classes that the classes of a state and the leaves that a pair of
shapes pairs put together. -/
def BroughtTogether (types : TypeStore) (s : NumericConstructionState) (left right : Nat) :
    Nat → Nat → Prop :=
  Relation.EqvGen fun c d => s.sameClass c d ∨ PairedLeaves types s (.pair left right) c d

/-- What joining two shapes answers and leaves, beside the check before it. -/
structure JoinReport (types : TypeStore) (s : NumericConstructionState) (left right : Nat)
    (joined refused : Bool) (after checked : NumericConstructionState) : Prop where
  union : unionShapeClasses types left right s = some (joined, after)
  plainUnion : ∃ plain, unionPlainly types left right s = some (joined, plain) ∧
    SameClasses after plain
  check : shapesJoinRefused types left right s = some (refused, checked)
  plainCheck : ∃ plain, refusedPlainly types left right s = some (refused, plain) ∧
    SameClasses checked plain
  unchanged : SameClasses s checked
  following : ∃ followed, unionShapeClasses types left right checked = some (joined, followed) ∧
    SameClasses after followed
  refusal : refused = true → joined = false
  leaves : joined = true → ∀ c d, PairedLeaves types s (.pair left right) c d →
    after.sameClass c d
  admitted : (∀ p d, s.integerPinned p → s.decimalClass d →
    ¬BroughtTogether types s left right p d) → refused = false ∧ joined = true
  clash : ∀ p d, s.integerPinned p → s.decimalClass d → ¬s.sameClass p d →
    BroughtTogether types s left right p d → joined = false
  apart : ∀ p d, s.integerPinned p → s.decimalClass d → ¬s.sameClass p d → ¬after.sameClass p d

section Joining

variable {types : TypeStore} {s : NumericConstructionState} {left right : Nat}

theorem pair_within (hleft : left < s.shapes.length) (hright : right < s.shapes.length) :
    Within s s.walkFuel (.pair left right) := by
  refine ⟨hleft, hright, ?_⟩
  rw [NumericConstructionState.walkFuel]
  omega

theorem memoHolds_new (v : ClassView) : MemoHolds types s v .new := by
  intro key result hget
  rw [ShapePairMemo.get_new] at hget
  cases hget

theorem checksHold_new (v : ClassView) : ChecksHold types s v .new := by
  intro key result hget
  rw [ShapePairMemo.get_new] at hget
  cases hget

/-- Joining known shapes: the memoised walk is the plain one, the check refuses
only what the join refuses, and no pinned class meets a decimal class. -/
theorem joining_shapes_agrees_with_the_check (types : TypeStore) (s : NumericConstructionState)
    (hclasses : ClassTable s) (hshapes : ShapeTables s) (left right : Nat)
    (hleft : left < s.shapes.length) (hright : right < s.shapes.length) :
    ∃ joined refused after checked,
      JoinReport types s left right joined refused after checked := by
  obtain ⟨v, hshows, hbound, hinside⟩ := hclasses.shows
  have hkey := pair_within hleft hright
  have hunion : FollowsWithin types s (unionWalk types s.walkFuel) s.walkFuel :=
    unionWalk_follows hshapes s.walkFuel (le_refl _)
  have hplain : FollowsWithin types s (unionPlainWalk types s.walkFuel) s.walkFuel :=
    unionPlainWalk_follows hshapes s.walkFuel (le_refl _)
  have hcheck : ChecksWithin types s (refusedWalk types s.walkFuel) s.walkFuel :=
    refusedWalk_checks hshapes s.walkFuel (le_refl _)
  have hplainCheck : ChecksWithin types s (refusedPlainWalk types s.walkFuel) s.walkFuel :=
    refusedPlainWalk_checks hshapes s.walkFuel (le_refl _)
  generalize hactions : actionsOf types s (.pair left right) = actions
  have hpaired : ∀ c d, PairedLeaves types s (.pair left right) c d → .join c d ∈ actions :=
    fun c d hleaves => hactions ▸ (join_mem_actionsOf hshapes hkey (le_refl _)).mpr hleaves
  obtain ⟨after, memo₁, hwalk, hafter, _⟩ :=
    hunion _ hkey v s .new hshows (memoHolds_new v)
  obtain ⟨plain, memo₂, hplainWalk, hplainShows, _⟩ :=
    hplain _ hkey v s .new hshows (memoHolds_new v)
  obtain ⟨checked, memo₃, hcheckWalk, hchecked, _⟩ :=
    hcheck _ hkey v s .new hshows (checksHold_new v)
  obtain ⟨plainChecked, memo₄, hplainCheckWalk, hplainChecked, _⟩ :=
    hplainCheck _ hkey v s .new hshows (checksHold_new v)
  obtain ⟨followed, memo₅, hfollowedWalk, hfollowed, _⟩ :=
    hunion _ hkey v checked .new hchecked (memoHolds_new v)
  rw [hactions] at hwalk hafter hplainWalk hplainShows
  rw [hactions] at hcheckWalk hplainCheckWalk hfollowedWalk hfollowed
  have hkept : ClassView.Kept v (v.run types.numericTypes actions).2.2 :=
    (ClassView.Kept.refl v).run
  have hleaves : (v.run types.numericTypes actions).1 = true →
      ∀ c d, PairedLeaves types s (.pair left right) c d → after.sameClass c d :=
    fun hjoined c d hpair => hafter.sameClass (ClassView.run_joins hjoined (hpaired c d hpair))
  have hcoarser : ∀ c d, s.sameClass c d → after.sameClass c d := by
    intro c d hcd
    by_cases hc : c < s.classes.length
    · have hd : d < s.classes.length := by
        by_contra hd
        rw [NumericConstructionState.sameClass, hshows.rootOf hc,
          NumericConstructionState.rootOf, walkToRoot_beyond (by omega)] at hcd
        cases hcd
      exact hafter.sameClass (hkept.coarser c d ((hshows.sameClass_iff hc hd).mp hcd))
    · have hd : ¬d < s.classes.length := by
        intro hd
        rw [NumericConstructionState.sameClass, hshows.rootOf hd,
          NumericConstructionState.rootOf, walkToRoot_beyond (by omega)] at hcd
        cases hcd
      have hlength := hafter.length
      rw [NumericConstructionState.sameClass, NumericConstructionState.rootOf,
        NumericConstructionState.rootOf, walkToRoot_beyond (by omega),
        walkToRoot_beyond (by omega)]
  have hapart : ∀ p d, s.integerPinned p → s.decimalClass d → ¬s.sameClass p d →
      ¬after.sameClass p d := by
    intro p d hp hd hpd
    have hpin := lt_of_rootRow hp
    have hdin := lt_of_rootRow hd
    rw [hafter.sameClass_iff hpin hdin]
    rw [hshows.sameClass_iff hpin hdin] at hpd
    exact hkept.apart p d ((hshows.integerPinned hpin).mp hp) ((hshows.decimalClass hdin).mp hd)
      hpd
  have htogether : Equivalence (BroughtTogether types s left right) :=
    Relation.EqvGen.is_equivalence _
  refine ⟨(v.run types.numericTypes actions).1, v.anyRefused actions, after, checked, ?_, ?_, ?_,
    ?_, hshows.sameClasses hchecked, ?_, ?_, hleaves, ?_, ?_, hapart⟩
  · rw [unionShapeClasses, hwalk]
    rfl
  · refine ⟨plain, ?_, hafter.sameClasses hplainShows⟩
    rw [unionPlainly, hplainWalk]
    rfl
  · rw [shapesJoinRefused, hcheckWalk]
    rfl
  · refine ⟨plainChecked, ?_, hchecked.sameClasses hplainChecked⟩
    rw [refusedPlainly, hplainCheckWalk]
    rfl
  · refine ⟨followed, ?_, hafter.sameClasses hfollowed⟩
    have hfuel : checked.walkFuel = s.walkFuel := by
      rw [NumericConstructionState.walkFuel, NumericConstructionState.walkFuel, hchecked.shapes]
    rw [unionShapeClasses, hfuel, hfollowedWalk]
    rfl
  · exact ClassView.run_refused (ClassView.Kept.refl v)
  · intro hclash
    have hjoined : (v.run types.numericTypes actions).1 = true := by
      have htraced : ClassView.Traced (BroughtTogether types s left right) v v :=
        ⟨fun c d hcd => .rel _ _ (Or.inl (hshows.sameClass hcd)), fun c hc => ⟨c, rfl, hc⟩,
          fun c hc => ⟨c, rfl, hc⟩, hbound⟩
      refine htraced.run htogether (fun c d hmem => ?_) fun p d hp hd => ?_
      · rw [← hactions] at hmem
        exact .rel _ _ (Or.inr ((join_mem_actionsOf hshapes hkey (le_refl _)).mp hmem))
      · have hpin := hinside p (Or.inl hp)
        have hdin := hinside d (Or.inr hd)
        exact hclash p d ((hshows.integerPinned hpin).mpr hp) ((hshows.decimalClass hdin).mpr hd)
    refine ⟨?_, hjoined⟩
    cases hrefused : v.anyRefused actions with
    | false => rfl
    | true =>
        rw [ClassView.run_refused (ClassView.Kept.refl v) hrefused] at hjoined
        cases hjoined
  · intro p d hp hd hpd hbrought
    apply Bool.eq_false_iff.mpr
    intro hjoined
    refine hapart p d hp hd hpd ?_
    clear hp hd hpd
    induction hbrought with
    | rel c d hcd =>
        rcases hcd with hcd | hcd
        · exact hcoarser c d hcd
        · exact hleaves hjoined c d hcd
    | refl c => rfl
    | symm c d _ ih => exact Eq.symm ih
    | trans c d e _ _ ihcd ihde => exact Eq.trans ihcd ihde

end Joining

/-! ## An equality that the join makes itself -/

/-- An origin bound to whole numbers, one of no family and a decimal one, with
the first two as the key and the value of a map, and the last two of another. -/
def clashingOps : List Op :=
  [.createClass, .createClass, .createClass, .noteClassFamily 0 .Whole, .pinNumericOrigin 0 .Bound,
    .noteClassFamily 2 .Decimal, .internOrderedShape (.Numeric 0) 0,
    .internOrderedShape (.Numeric 1) 0, .internOrderedShape (.Numeric 2) 0,
    .internOrderedShape (.Map 0 1) 0, .internOrderedShape (.Map 1 2) 0]

def clashing : NumericConstructionState where
  classes := [⟨0, 0, none, none, some .Whole, .Bound, none, false, []⟩,
    ⟨1, 0, none, none, none, .Unpinned, none, false, []⟩,
    ⟨2, 0, none, none, some .Decimal, .Unpinned, none, false, []⟩]
  shapes := [.Numeric 0, .Numeric 1, .Numeric 2, .Map 0 1, .Map 1 2]
  shapeAuthoredOrder := [0, 0, 0, 0, 0]
  nextAuthoredOrder := 0
  forwardProducers := []
  declaredBindings := []
  released := false

theorem clashing_run (environment : TypeEnvironment) : Run environment clashingOps clashing := by
  have h₀ : Run environment [] .new := .start
  have h₁ := h₀.step .createClass trivial rfl
  have h₂ := h₁.step .createClass trivial rfl
  have h₃ := h₂.step .createClass trivial rfl
  have h₄ := h₃.step (.noteClassFamily 0 .Whole) (Nat.lt_of_sub_eq_succ rfl) rfl
  have h₅ := h₄.step (.pinNumericOrigin 0 .Bound) (Nat.lt_of_sub_eq_succ rfl) rfl
  have h₆ := h₅.step (.noteClassFamily 2 .Decimal) (Nat.lt_of_sub_eq_succ rfl) rfl
  have h₇ := h₆.step (.internOrderedShape (.Numeric 0) 0) (Nat.lt_of_sub_eq_succ rfl) rfl
  have h₈ := h₇.step (.internOrderedShape (.Numeric 1) 0) (Nat.lt_of_sub_eq_succ rfl) rfl
  have h₉ := h₈.step (.internOrderedShape (.Numeric 2) 0) (Nat.lt_of_sub_eq_succ rfl) rfl
  have h₁₀ := h₉.step (.internOrderedShape (.Map 0 1) 0)
    ⟨Nat.lt_of_sub_eq_succ rfl, Nat.lt_of_sub_eq_succ rfl⟩ rfl
  exact h₁₀.step (.internOrderedShape (.Map 1 2) 0)
    ⟨Nat.lt_of_sub_eq_succ rfl, Nat.lt_of_sub_eq_succ rfl⟩ rfl

theorem clashing_tables (environment : TypeEnvironment) : ShapeTables clashing := by
  refine (clashing_run environment).shapeTables fun id declared start end_ hnode => ?_
  have hmem : .DeclaredSubstitution declared start end_ ∈ clashing.shapes :=
    List.mem_of_getElem? hnode
  simp [clashing] at hmem

theorem joining_shapes_agrees_with_the_check_clashing :
    ∃ joined refused after checked,
      JoinReport TypeStore.new clashing 3 4 joined refused after checked :=
  joining_shapes_agrees_with_the_check TypeStore.new clashing
    (clashing_run TypeStore.new.numericTypes).classTable
    (clashing_tables TypeStore.new.numericTypes) 3 4 (by decide) (by decide)

/-- The check admits a join that is then refused half way. -/
theorem admitted_join_refused :
    ¬∀ (types : TypeStore) (s : NumericConstructionState), ClassTable s → ShapeTables s →
      ∀ left < s.shapes.length, ∀ right < s.shapes.length,
        (shapesJoinRefused types left right s).map Prod.fst = some false →
        (unionShapeClasses types left right s).map Prod.fst = some true := by
  intro h
  have hjoined := h TypeStore.new clashing
    (clashing_run TypeStore.new.numericTypes).classTable
    (clashing_tables TypeStore.new.numericTypes) 3 (by decide) 4 (by decide) (by decide)
  have hrefused : (unionShapeClasses TypeStore.new 3 4 clashing).map Prod.fst = some false := by
    decide
  rw [hrefused] at hjoined
  cases hjoined

end Moth.Ast.NumericConstruction
