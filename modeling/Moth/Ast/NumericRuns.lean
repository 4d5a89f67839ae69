import Moth.Ast.NumericClasses

/-!
# Runs of the class table

Any sequence of the table's operations, the reading ones among them, since a
read shortens paths and a demand drops settled producers. Each operation keeps
the table a forest whose root rows say what the sequence so far noted of their
classes, so that what a class reports is fixed by what was noted of the classes
united with it.
-/

namespace Moth.Ast.NumericConstruction

open Moth.Lib Moth.Datatypes Moth.Source

/-! ## Operations -/

inductive Op where
  | createClass
  | unionClasses (left right : Nat)
  | addOrderedReceiverWitness (class_ : Nat) (typeId : TypeId) (span : Option SourceSpan)
      (authoredOrder : Nat)
  | refuseOrderedPinnedPeer (class_ : Nat) (typeId : TypeId) (span : Option SourceSpan)
      (authoredOrder : Nat)
  | noteClassFamily (class_ : Nat) (family : NumericFamily)
  | pinNumericOrigin (class_ : Nat) (pin : NumericPin)
  | markForward (class_ : Nat)
  | registerForwardProducer (class_ shape : Nat) (fragment : DeferredNumericExpression)
  | setPendingForwardDestinations (class_ : Nat) (destination : ExpectedType) (start end_ : Nat)
  | claimPendingForwardProducer (producer : Nat)
  | completeForwardProducer (producer expression : Nat)
  | takeCompletedForwardProducer (producer : Nat)
  | takeAuthoredOrder
  | internOrderedShape (shape : KnownShape) (authoredOrder : Nat)
  | internDeclaredSubstitution (declaredTypeId : TypeId) (edges : List KnownShapeBinding)
  | classesShareRoot (left right : Nat)
  | firstReceiverWitness (class_ : Nat)
  | classFamily (class_ : Nat)
  | classPinnedFamily (class_ : Nat)
  | classFamilyIsDecimal (class_ : Nat)
  | mergedReceiverType (class_ : Nat)
  | nextPendingForwardProducer (shape : Nat)

/-- The state that an operation leaves, whatever it answers. -/
def step (environment : TypeEnvironment) (self : NumericConstructionState) :
    Op → Option NumericConstructionState
  | .createClass => some self.createClass.2
  | .unionClasses left right => (self.unionClasses left right).map Prod.snd
  | .addOrderedReceiverWitness class_ typeId span authoredOrder =>
      self.addOrderedReceiverWitness class_ typeId span authoredOrder environment
  | .refuseOrderedPinnedPeer class_ typeId span authoredOrder =>
      self.refuseOrderedPinnedPeer class_ typeId span authoredOrder
  | .noteClassFamily class_ family => self.noteClassFamily class_ family
  | .pinNumericOrigin class_ pin => self.pinNumericOrigin class_ pin
  | .markForward class_ => self.markForward class_
  | .registerForwardProducer class_ shape fragment =>
      (self.registerForwardProducer class_ shape fragment).map Prod.snd
  | .setPendingForwardDestinations class_ destination start end_ =>
      self.setPendingForwardDestinations class_ destination start end_
  | .claimPendingForwardProducer producer => some (self.claimPendingForwardProducer producer).2
  | .completeForwardProducer producer expression =>
      some (self.completeForwardProducer producer expression).2
  | .takeCompletedForwardProducer producer => some (self.takeCompletedForwardProducer producer).2
  | .takeAuthoredOrder => some self.takeAuthoredOrder.2
  | .internOrderedShape shape authoredOrder =>
      some (self.internOrderedShape shape authoredOrder).2
  | .internDeclaredSubstitution declaredTypeId edges =>
      (self.internDeclaredSubstitution declaredTypeId edges).map Prod.snd
  | .classesShareRoot left right => (self.classesShareRoot left right).map Prod.snd
  | .firstReceiverWitness class_ => (self.firstReceiverWitness class_).map Prod.snd
  | .classFamily class_ => (self.classFamily class_).map Prod.snd
  | .classPinnedFamily class_ => (self.classPinnedFamily class_).map Prod.snd
  | .classFamilyIsDecimal class_ => (self.classFamilyIsDecimal class_).map Prod.snd
  | .mergedReceiverType class_ => (self.mergedReceiverType class_).map Prod.snd
  | .nextPendingForwardProducer shape => (self.nextPendingForwardProducer shape).map Prod.snd

/-- A node whose ids were handed out: its children stand below `bound`. -/
def NodeInside (classes : Nat) (bindings : List KnownShapeBinding) (bound : Nat) :
    KnownShape → Prop
  | .Concrete _ _ => True
  | .Numeric class_ => class_ < classes
  | .Collection element _ => element < bound
  | .Map key value => key < bound ∧ value < bound
  | .Optional inner => inner < bound
  | .DeclaredSubstitution _ start end_ =>
      ∀ index, start ≤ index → index < end_ →
        ∃ edge, bindings[index]? = some edge ∧ edge.shape < bound

/-- Two classes that the unions of a run joined. -/
def Connected (ops : List Op) : Nat → Nat → Prop :=
  Relation.EqvGen fun left right => .unionClasses left right ∈ ops

/-- An operation may name the ids that the table handed out, and it marks a
class before it is joined to another. -/
def Allowed (ops : List Op) (self : NumericConstructionState) : Op → Prop
  | .unionClasses left right | .classesShareRoot left right =>
      left < self.classes.length ∧ right < self.classes.length
  | .addOrderedReceiverWitness class_ _ _ _ | .refuseOrderedPinnedPeer class_ _ _ _
  | .noteClassFamily class_ _ | .pinNumericOrigin class_ _
  | .registerForwardProducer class_ _ _ | .setPendingForwardDestinations class_ _ _ _
  | .firstReceiverWitness class_ | .classFamily class_ | .classPinnedFamily class_
  | .classFamilyIsDecimal class_ | .mergedReceiverType class_ => class_ < self.classes.length
  | .markForward class_ =>
      class_ < self.classes.length ∧ ∀ other, Connected ops class_ other → other = class_
  | .internOrderedShape shape _ =>
      NodeInside self.classes.length self.declaredBindings self.shapes.length shape
  | .internDeclaredSubstitution _ edges => ∀ edge ∈ edges, edge.shape < self.shapes.length
  | .nextPendingForwardProducer shape => shape < self.shapes.length
  | .createClass | .claimPendingForwardProducer _ | .completeForwardProducer _ _
  | .takeCompletedForwardProducer _ | .takeAuthoredOrder => True

/-- The operations of a run so far, in order, and the state they left. -/
inductive Run (environment : TypeEnvironment) : List Op → NumericConstructionState → Prop
  | start : Run environment [] .new
  | step {ops : List Op} {s s' : NumericConstructionState} (before : Run environment ops s)
      (op : Op) (allowed : Allowed ops s op) (h : step environment s op = some s') :
      Run environment (ops ++ [op]) s'

/-- The class that an operation notes something of. -/
def Op.notedClass : Op → Option Nat
  | .addOrderedReceiverWitness class_ _ _ _ | .refuseOrderedPinnedPeer class_ _ _ _
  | .noteClassFamily class_ _ | .markForward class_ => some class_
  | _ => none

/-- What a run noted of each class. -/
def notesOf (environment : TypeEnvironment) (ops : List Op) : Notes where
  received c w := .addOrderedReceiverWitness c w.typeId w.span w.authoredOrder ∈ ops
  ineligible c w :=
    (.addOrderedReceiverWitness c w.typeId w.span w.authoredOrder ∈ ops ∧
      familyReceivesRecipe (some .Whole) w.typeId environment = false) ∨
    .refuseOrderedPinnedPeer c w.typeId w.span w.authoredOrder ∈ ops
  decimal c := .noteClassFamily c .Decimal ∈ ops
  forward c := .markForward c ∈ ops

/-! ## What every operation keeps -/

/-- Notes on classes of the table only. -/
structure Notes.Inside (notes : Notes) (classes : Nat) : Prop where
  received : ∀ c w, notes.received c w → c < classes
  ineligible : ∀ c w, notes.ineligible c w → c < classes
  decimal : ∀ c, notes.decimal c → c < classes
  forward : ∀ c, notes.forward c → c < classes

/-- A table whose root rows say what was noted. -/
structure Valid (notes : Notes) (state : NumericConstructionState) (root : Nat → Nat) : Prop where
  linked : Linked state.classes root
  rows : ∀ (c : Nat) row, state.classes[c]? = some row → row.parent = c →
    Summarises notes state.forwardProducers root c row
  inside : notes.Inside state.classes.length
  producers : ∀ (i : Nat) p, state.forwardProducers[i]? = some p → p.class_ < state.classes.length
  nodes : ∀ (id : Nat) node, state.shapes[id]? = some node →
    NodeInside state.classes.length state.declaredBindings id node
  orders : state.shapeAuthoredOrder.length = state.shapes.length

namespace Valid

variable {notes notes' : Notes} {s s' : NumericConstructionState} {root : Nat → Nat}

theorem rootRow (h : Valid notes s root) {c : Nat} (hc : c < s.classes.length) :
    ∃ row, s.classes[root c]? = some row ∧ row.parent = root c ∧
      Summarises notes s.forwardProducers root (root c) row := by
  obtain ⟨row, hrow⟩ := h.linked.exists_row (h.linked.root_lt hc)
  have hparent : row.parent = root c := by
    rw [← parentOf_some hrow]
    exact h.linked.forest.parent_root c
  exact ⟨row, hrow, hparent, h.rows _ row hrow hparent⟩

/-- Shorter paths. -/
theorem relink (h : Valid notes s root) {rows' : List ClassRow}
    (hrelinked : Relinked s.classes rows') (hlinked : Linked rows' root) :
    Valid notes { s with classes := rows' } root where
  linked := hlinked
  rows c row' hrow' hparent' := by
    obtain ⟨row, hrow, heq⟩ := hrelinked.row_before hrow'
    have hroot : root c = c := by
      apply hlinked.forest.root_self
      rw [parentOf_some hrow', hparent']
    have hparent : row.parent = c := by
      rw [← parentOf_some hrow]
      exact h.linked.forest.root_eq_self.mp hroot
    have hsummary := h.rows c row hrow hparent
    rw [heq]
    exact hsummary.with_link row'.parent row.rank
  inside := by
    rw [hrelinked.length_eq]
    exact h.inside
  producers i p hp := by
    rw [hrelinked.length_eq]
    exact h.producers i p hp
  nodes id node hnode := by
    rw [hrelinked.length_eq]
    exact h.nodes id node hnode
  orders := h.orders

/-- The climb to a root, and what it leaves. -/
theorem findRoot (h : Valid notes s root) {c : Nat} (hc : c < s.classes.length) :
    ∃ rows', s.findRoot c = some (root c, { s with classes := rows' }) ∧
      rows'.length = s.classes.length ∧ (∀ d, rows'[root d]? = s.classes[root d]?) ∧
      Valid notes { s with classes := rows' } root := by
  obtain ⟨rows', hfind, hrelinked, hlinked⟩ :=
    findRootFrom_spec s.classes.length h.linked hc (by omega)
  refine ⟨rows', ?_, hrelinked.length_eq, ?_, h.relink hrelinked hlinked⟩
  · rw [NumericConstructionState.findRoot, hfind]
    rfl
  · intro d
    cases hrow' : rows'[root d]? with
    | none =>
        have hbeyond := List.getElem?_eq_none_iff.mp hrow'
        rw [List.getElem?_eq_none]
        rw [hrelinked.length_eq] at hbeyond
        exact hbeyond
    | some row' =>
        obtain ⟨row, hrow, heq⟩ := hrelinked.row_before hrow'
        have hparent' := hlinked.forest.parent_root d
        have hparent := h.linked.forest.parent_root d
        rw [parentOf_some hrow'] at hparent'
        rw [parentOf_some hrow] at hparent
        rw [hrow, heq, hparent']
        cases row
        simp only at hparent
        subst hparent
        rfl

/-- A change to the row of one root, and to what was noted of its tree. -/
theorem updateRoot (h : Valid notes s root) {r : Nat} {row row' : ClassRow}
    (hrow : s.classes[r]? = some row) (hlink : row'.parent = row.parent)
    (hrank : row'.rank = row.rank) {producers' : List ForwardProducer}
    (hinside : notes'.Inside s.classes.length)
    (hproducers : ∀ (i : Nat) p, producers'[i]? = some p → p.class_ < s.classes.length)
    (hself : Summarises notes' producers' root r row')
    (hother : ∀ c other, c ≠ r → Summarises notes s.forwardProducers root c other →
      Summarises notes' producers' root c other) :
    Valid notes'
      { s with classes := s.classes.set r row', forwardProducers := producers' } root := by
  have hr : r < s.classes.length := (List.getElem?_eq_some_iff.mp hrow).1
  have hparents : parentOf (s.classes.set r row') = parentOf s.classes := by
    rw [parentOf_set hr, hlink, ← parentOf_some hrow, Function.update_eq_self]
  have hranks : rankOf (s.classes.set r row') = rankOf s.classes := by
    rw [rankOf_set hr, hrank, ← rankOf_some hrow, Function.update_eq_self]
  have hlength : (s.classes.set r row').length = s.classes.length := List.length_set
  constructor
  · constructor
    · rw [hparents, hranks]
      exact h.linked.forest
    · rw [hparents, hlength]
      exact h.linked.inside
    · rw [hranks, hlength]
      exact h.linked.heavy
    · rw [hlength]
      exact h.linked.small
  · intro c other hother' hparent
    by_cases hcr : c = r
    · subst hcr
      rw [List.getElem?_set_self hr] at hother'
      cases hother'
      exact hself
    · rw [List.getElem?_set_ne (Ne.symm hcr)] at hother'
      exact hother c other hcr (h.rows c other hother' hparent)
  · rw [hlength]
    exact hinside
  · rw [hlength]
    exact hproducers
  · intro id node hnode
    rw [hlength]
    exact h.nodes id node hnode
  · exact h.orders

theorem other_row {c r : Nat} {row : ClassRow} {producers : List ForwardProducer}
    (hnotes : ∀ d, root d ≠ r → notes.Agree notes' d) (hcr : c ≠ r)
    (h : Summarises notes producers root c row) : Summarises notes' producers root c row := by
  refine h.congr (fun _ => Iff.rfl) (fun d hd => hnotes d ?_) ?_ ?_
  · rw [hd]
    exact hcr
  · intro i p hp hclass
    exact ⟨p, hp, hclass⟩
  · intro i p hp hpending hclass
    exact ⟨p, hp, hpending, hclass⟩

/-- A change to the row of one root alone, which noted something of its tree. -/
theorem noteRoot (h : Valid notes s root) {c : Nat} (hc : c < s.classes.length)
    (f : ClassRow → ClassRow) (hinside : notes'.Inside s.classes.length)
    (hlink : ∀ row, (f row).parent = row.parent ∧ (f row).rank = row.rank)
    (hself : ∀ row, Summarises notes s.forwardProducers root (root c) row →
      Summarises notes' s.forwardProducers root (root c) (f row))
    (hnotes : ∀ d, root d ≠ root c → notes.Agree notes' d) :
    ∃ s', s.updateRoot c f = some s' ∧ Valid notes' s' root := by
  obtain ⟨rows', hfind, hlength, _, hvalid⟩ := h.findRoot hc
  have hc' : c < rows'.length := by omega
  obtain ⟨row, hrow, _, hsummary⟩ := hvalid.rootRow hc'
  refine ⟨{ s with classes := rows'.set (root c) (f row) }, ?_, ?_⟩
  · have hrow' : rows'[root c]? = some row := hrow
    rw [NumericConstructionState.updateRoot, hfind]
    simp only [Option.bind_eq_bind, Option.bind_some, NumericConstructionState.updateRow]
    rw [hrow']
    rfl
  · refine hvalid.updateRoot hrow (hlink row).1 (hlink row).2 ?_ hvalid.producers
      (hself row hsummary) ?_
    · show notes'.Inside rows'.length
      rw [hlength]
      exact hinside
    · intro d other hd hother
      exact other_row hnotes hd hother

end Valid

theorem raisePin_eq (row : ClassRow) (pin : NumericPin) :
    ∃ raised, row.raisePin pin = { row with pin := raised } ∧
      (raised = .Bound → row.pin = .Bound ∨ row.family ≠ none) := by
  rw [ClassRow.raisePin]
  cases hadmitted : admittedPin pin row.family with
  | none => exact ⟨row.pin, rfl, Or.inl⟩
  | some admitted =>
      refine ⟨_, rfl, fun _ => Or.inr fun hnone => ?_⟩
      rw [hnone] at hadmitted
      cases pin with
      | Unpinned => cases hadmitted
      | Bound => cases hadmitted
      | LoopItem => cases hadmitted

/-! ## Noting -/

section Noting

variable {environment : TypeEnvironment} {ops : List Op} {s : NumericConstructionState}
  {root : Nat → Nat}

theorem Notes.Inside.extend {notes notes' : Notes} {n c : Nat} (h : notes.Inside n) (hc : c < n)
    (hnotes : ∀ d, d ≠ c → notes.Agree notes' d) : notes'.Inside n where
  received d w hd := by
    by_cases hdc : d = c
    · rw [hdc]
      exact hc
    · exact h.received d w (((hnotes d hdc).received w).mp hd)
  ineligible d w hd := by
    by_cases hdc : d = c
    · rw [hdc]
      exact hc
    · exact h.ineligible d w (((hnotes d hdc).ineligible w).mp hd)
  decimal d hd := by
    by_cases hdc : d = c
    · rw [hdc]
      exact hc
    · exact h.decimal d ((hnotes d hdc).decimal.mp hd)
  forward d hd := by
    by_cases hdc : d = c
    · rw [hdc]
      exact hc
    · exact h.forward d ((hnotes d hdc).forward.mp hd)

theorem gathered_insert {α : Type} {noted noted' : Nat → α → Prop} {c : Nat} {a : α}
    (hnoted : ∀ d b, noted' d b ↔ noted d b ∨ (d = c ∧ b = a)) :
    gathered root noted' (root c) = insert a (gathered root noted (root c)) := by
  ext b
  constructor
  · intro hb
    obtain ⟨d, hd, hnote⟩ := hb
    rcases (hnoted d b).mp hnote with hnote | hnote
    · exact Set.mem_insert_of_mem a ⟨d, hd, hnote⟩
    · rw [hnote.2]
      exact Set.mem_insert a _
  · intro hb
    rcases Set.mem_insert_iff.mp hb with heq | hb
    · exact ⟨c, rfl, (hnoted c b).mpr (Or.inr ⟨rfl, heq⟩)⟩
    · obtain ⟨d, hd, hnote⟩ := hb
      exact ⟨d, hd, (hnoted d b).mpr (Or.inl hnote)⟩

theorem mem_append_of_ne {op other : Op} (hne : other ≠ op) :
    other ∈ ops ++ [op] ↔ other ∈ ops := by
  rw [List.mem_append, List.mem_singleton, or_iff_left hne]

theorem received_append {op : Op}
    (hop : ∀ c t span order, Op.addOrderedReceiverWitness c t span order ≠ op) :
    (notesOf environment (ops ++ [op])).received = (notesOf environment ops).received := by
  funext d w
  exact propext (mem_append_of_ne (hop _ _ _ _))

theorem ineligible_append {op : Op}
    (hop : ∀ c t span order, Op.addOrderedReceiverWitness c t span order ≠ op)
    (hrefused : ∀ c t span order, Op.refuseOrderedPinnedPeer c t span order ≠ op) :
    (notesOf environment (ops ++ [op])).ineligible = (notesOf environment ops).ineligible := by
  funext d w
  exact propext (or_congr (and_congr_left' (mem_append_of_ne (hop _ _ _ _)))
    (mem_append_of_ne (hrefused _ _ _ _)))

theorem decimal_append {op : Op} (hop : ∀ c, Op.noteClassFamily c .Decimal ≠ op) :
    (notesOf environment (ops ++ [op])).decimal = (notesOf environment ops).decimal := by
  funext d
  exact propext (mem_append_of_ne (hop _))

theorem forward_append {op : Op} (hop : ∀ c, Op.markForward c ≠ op) :
    (notesOf environment (ops ++ [op])).forward = (notesOf environment ops).forward := by
  funext d
  exact propext (mem_append_of_ne (hop _))

theorem agree_of_other {op : Op} {d : Nat} (hop : op.notedClass ≠ some d) :
    (notesOf environment ops).Agree (notesOf environment (ops ++ [op])) d where
  received w := mem_append_of_ne fun heq => hop (by rw [← heq]; rfl)
  ineligible w :=
    or_congr (and_congr_left' (mem_append_of_ne fun heq => hop (by rw [← heq]; rfl)))
      (mem_append_of_ne fun heq => hop (by rw [← heq]; rfl))
  decimal := mem_append_of_ne fun heq => hop (by rw [← heq]; rfl)
  forward := mem_append_of_ne fun heq => hop (by rw [← heq]; rfl)

theorem Valid.of_agree {notes notes' : Notes} (h : Valid notes s root)
    (hnotes : ∀ d, notes.Agree notes' d) : Valid notes' s root where
  linked := h.linked
  rows c row hrow hparent := by
    refine (h.rows c row hrow hparent).congr (fun _ => Iff.rfl) (fun d _ => hnotes d) ?_ ?_
    · intro i p hp hclass
      exact ⟨p, hp, hclass⟩
    · intro i p hp hpending hclass
      exact ⟨p, hp, hpending, hclass⟩
  inside := by
    constructor
    · intro d w hd
      exact h.inside.received d w (((hnotes d).received w).mp hd)
    · intro d w hd
      exact h.inside.ineligible d w (((hnotes d).ineligible w).mp hd)
    · intro d hd
      exact h.inside.decimal d ((hnotes d).decimal.mp hd)
    · intro d hd
      exact h.inside.forward d ((hnotes d).forward.mp hd)
  producers := h.producers
  nodes := h.nodes
  orders := h.orders

theorem Valid.silent (h : Valid (notesOf environment ops) s root) (op : Op)
    (hop : op.notedClass = none) : Valid (notesOf environment (ops ++ [op])) s root :=
  h.of_agree fun d => agree_of_other (by rw [hop]; exact (Option.some_ne_none d).symm)

variable {c : Nat}

theorem mem_append_receiver {t : TypeId} {span : Option SourceSpan} {order d : Nat}
    {w : ReceiverWitness} :
    Op.addOrderedReceiverWitness d w.typeId w.span w.authoredOrder
        ∈ ops ++ [.addOrderedReceiverWitness c t span order] ↔
      Op.addOrderedReceiverWitness d w.typeId w.span w.authoredOrder ∈ ops ∨
        (d = c ∧ w = ⟨t, span, order⟩) := by
  rw [List.mem_append, List.mem_singleton, Op.addOrderedReceiverWitness.injEq,
    ReceiverWitness.mk.injEq (w.typeId) (w.span) (w.authoredOrder)]

theorem mem_append_refused {t : TypeId} {span : Option SourceSpan} {order d : Nat}
    {w : ReceiverWitness} :
    Op.refuseOrderedPinnedPeer d w.typeId w.span w.authoredOrder
        ∈ ops ++ [.refuseOrderedPinnedPeer c t span order] ↔
      Op.refuseOrderedPinnedPeer d w.typeId w.span w.authoredOrder ∈ ops ∨
        (d = c ∧ w = ⟨t, span, order⟩) := by
  rw [List.mem_append, List.mem_singleton, Op.refuseOrderedPinnedPeer.injEq,
    ReceiverWitness.mk.injEq (w.typeId) (w.span) (w.authoredOrder)]

theorem Valid.inside_append (h : Valid (notesOf environment ops) s root) {op : Op}
    (hop : op.notedClass = some c) (hc : c < s.classes.length) :
    (notesOf environment (ops ++ [op])).Inside s.classes.length :=
  h.inside.extend hc fun d hd => agree_of_other (by
    rw [hop]
    intro heq
    exact hd (Option.some.inj heq).symm)

theorem agree_of_root {op : Op} (hop : op.notedClass = some c) (d : Nat) (hd : root d ≠ root c) :
    (notesOf environment ops).Agree (notesOf environment (ops ++ [op])) d :=
  agree_of_other (by
    rw [hop]
    intro heq
    rw [Option.some.inj heq] at hd
    exact hd rfl)

theorem addOrderedReceiverWitness_valid (h : Valid (notesOf environment ops) s root)
    (hc : c < s.classes.length) (t : TypeId) (span : Option SourceSpan) (order : Nat) :
    ∃ s', s.addOrderedReceiverWitness c t span order environment = some s' ∧
      Valid (notesOf environment (ops ++ [.addOrderedReceiverWitness c t span order])) s' root := by
  refine h.noteRoot hc _ (h.inside_append rfl hc) (fun row => ?_) (fun row hrow => ?_)
    (agree_of_root rfl)
  · rw [insertReceiver_eq]
    split
    · exact ⟨rfl, rfl⟩
    · exact ⟨rfl, rfl⟩
  · rw [insertReceiver_eq]
    have hreceived : gathered root
        (notesOf environment (ops ++ [.addOrderedReceiverWitness c t span order])).received (root c)
        = insert ⟨t, span, order⟩ (gathered root (notesOf environment ops).received (root c)) :=
      gathered_insert fun d w => mem_append_receiver
    have hreceivers := hrow.receivers.insert ⟨t, span, order⟩
    rw [← hreceived] at hreceivers
    by_cases heligible : familyReceivesRecipe (some .Whole) t environment = true
    · rw [if_pos heligible]
      refine ⟨hreceivers, ?_, ?_, ?_, hrow.bound, hrow.sorted, hrow.indexed, hrow.pending⟩
      · have hset : gathered root (notesOf environment
            (ops ++ [.addOrderedReceiverWitness c t span order])).ineligible (root c)
            = gathered root (notesOf environment ops).ineligible (root c) := by
          refine gathered_congr (fun _ => Iff.rfl) fun d _ w => or_congr ?_ (mem_append_of_ne ?_)
          · rw [mem_append_receiver]
            constructor
            · intro hw
              rcases hw.1 with hmem | hnew
              · exact ⟨hmem, hw.2⟩
              · rw [hnew.2, heligible] at hw
                exact absurd hw.2 (by decide)
            · intro hw
              exact ⟨Or.inl hw.1, hw.2⟩
          · intro heq
            cases heq
        rw [hset]
        exact hrow.ineligible
      · rw [decimal_append (by simp)]
        exact hrow.decimal
      · rw [forward_append (by simp)]
        exact hrow.forward
    · rw [if_neg heligible]
      refine ⟨hreceivers, ?_, ?_, ?_, hrow.bound, hrow.sorted, hrow.indexed, hrow.pending⟩
      · have hset : gathered root (notesOf environment
            (ops ++ [.addOrderedReceiverWitness c t span order])).ineligible (root c)
            = insert ⟨t, span, order⟩
                (gathered root (notesOf environment ops).ineligible (root c)) := by
          refine gathered_insert fun d w => ?_
          show (_ ∧ _) ∨ _ ↔ ((_ ∧ _) ∨ _) ∨ _
          rw [mem_append_receiver, mem_append_of_ne (by
            intro heq
            cases heq)]
          constructor
          · intro hw
            rcases hw with hw | hw
            · rcases hw.1 with hmem | hnew
              · exact Or.inl (Or.inl ⟨hmem, hw.2⟩)
              · exact Or.inr hnew
            · exact Or.inl (Or.inr hw)
          · intro hw
            rcases hw with hw | hw
            · rcases hw with hw | hw
              · exact Or.inl ⟨Or.inl hw.1, hw.2⟩
              · exact Or.inr hw
            · refine Or.inl ⟨Or.inr hw, ?_⟩
              rw [hw.2]
              exact Bool.eq_false_iff.mpr heligible
        rw [hset]
        show Earliest _ _ (retainEarliestReceiver _ _)
        rw [retainEarliestReceiver_eq]
        exact hrow.ineligible.retain _
      · rw [decimal_append (by simp)]
        exact hrow.decimal
      · rw [forward_append (by simp)]
        exact hrow.forward

theorem refuseOrderedPinnedPeer_valid (h : Valid (notesOf environment ops) s root)
    (hc : c < s.classes.length) (t : TypeId) (span : Option SourceSpan) (order : Nat) :
    ∃ s', s.refuseOrderedPinnedPeer c t span order = some s' ∧
      Valid (notesOf environment (ops ++ [.refuseOrderedPinnedPeer c t span order])) s' root := by
  refine h.noteRoot hc _ (h.inside_append rfl hc) (fun row => ⟨rfl, rfl⟩) (fun row hrow => ?_)
    (agree_of_root rfl)
  have hset : gathered root (notesOf environment
      (ops ++ [.refuseOrderedPinnedPeer c t span order])).ineligible (root c)
      = insert ⟨t, span, order⟩
          (gathered root (notesOf environment ops).ineligible (root c)) := by
    refine gathered_insert fun d w => ?_
    show (_ ∧ _) ∨ _ ↔ ((_ ∧ _) ∨ _) ∨ _
    rw [mem_append_refused, mem_append_of_ne (by
      intro heq
      cases heq), or_assoc]
  refine ⟨?_, ?_, ?_, ?_, hrow.bound, hrow.sorted, hrow.indexed, hrow.pending⟩
  · rw [received_append (by simp)]
    exact hrow.receivers
  · rw [hset]
    show Earliest _ _ (retainEarliestReceiver _ _)
    rw [retainEarliestReceiver_eq]
    exact hrow.ineligible.retain _
  · rw [decimal_append (by simp)]
    exact hrow.decimal
  · rw [forward_append (by simp)]
    exact hrow.forward

theorem noteClassFamily_valid (h : Valid (notesOf environment ops) s root)
    (hc : c < s.classes.length) (family : NumericFamily) :
    ∃ s', s.noteClassFamily c family = some s' ∧
      Valid (notesOf environment (ops ++ [.noteClassFamily c family])) s' root := by
  refine h.noteRoot hc _ (h.inside_append rfl hc) (fun row => ⟨rfl, rfl⟩) (fun row hrow => ?_)
    (agree_of_root rfl)
  have hnoted : (∃ d, root d = root c ∧
      (notesOf environment (ops ++ [.noteClassFamily c family])).decimal d) ↔
      (∃ d, root d = root c ∧ (notesOf environment ops).decimal d) ∨ family = .Decimal := by
    constructor
    · intro hd
      obtain ⟨d, hd, hmem⟩ := hd
      rcases List.mem_append.mp hmem with hmem | hnew
      · exact Or.inl ⟨d, hd, hmem⟩
      · injection List.mem_singleton.mp hnew with _ hfamily
        exact Or.inr hfamily.symm
    · intro hd
      rcases hd with hd | hfamily
      · obtain ⟨d, hd, hmem⟩ := hd
        exact ⟨d, hd, List.mem_append_left _ hmem⟩
      · subst hfamily
        exact ⟨c, rfl, List.mem_append_right _ (List.mem_singleton.mpr rfl)⟩
  refine ⟨?_, ?_, ?_, ?_, ?_, hrow.sorted, hrow.indexed, hrow.pending⟩
  · rw [received_append (by simp)]
    exact hrow.receivers
  · rw [ineligible_append (by simp) (by simp)]
    exact hrow.ineligible
  · rw [hnoted, ← hrow.decimal]
    show joinFamily row.family family = _ ↔ _
    cases row.family with
    | none => simp [joinFamily]
    | some existing => simp [joinFamily, merge_eq_decimal]
  · rw [forward_append (by simp)]
    exact hrow.forward
  · intro _
    show joinFamily row.family family ≠ none
    cases row.family with
    | none => exact Option.some_ne_none _
    | some existing => exact Option.some_ne_none _

theorem pinNumericOrigin_valid (h : Valid (notesOf environment ops) s root)
    (hc : c < s.classes.length) (pin : NumericPin) :
    ∃ s', s.pinNumericOrigin c pin = some s' ∧
      Valid (notesOf environment (ops ++ [.pinNumericOrigin c pin])) s' root := by
  have hsilent : Valid (notesOf environment (ops ++ [.pinNumericOrigin c pin])) s root :=
    h.silent _ rfl
  refine hsilent.noteRoot hc _ hsilent.inside (fun row => ?_) (fun row hrow => ?_)
    (fun _ _ => ⟨fun _ => Iff.rfl, fun _ => Iff.rfl, Iff.rfl, Iff.rfl⟩)
  · obtain ⟨raised, heq, _⟩ := raisePin_eq row pin
    rw [heq]
    exact ⟨rfl, rfl⟩
  · obtain ⟨raised, heq, hbound⟩ := raisePin_eq row pin
    rw [heq]
    refine ⟨hrow.receivers, hrow.ineligible, hrow.decimal, hrow.forward, ?_, hrow.sorted,
      hrow.indexed, hrow.pending⟩
    intro hraised
    rcases hbound hraised with hold | hfamily
    · exact hrow.bound hold
    · exact hfamily

/-- A mark on the row of a class that is joined to no other. -/
theorem markForward_valid (h : Valid (notesOf environment ops) s root)
    (hc : c < s.classes.length) (hfresh : ∀ d, root d = root c → d = c) :
    ∃ s', s.markForward c = some s' ∧
      Valid (notesOf environment (ops ++ [.markForward c])) s' root := by
  have hroot : root c = c := hfresh _ (h.linked.forest.root_root c)
  obtain ⟨row, hrow, _, hsummary⟩ := h.rootRow hc
  rw [hroot] at hrow hsummary
  refine ⟨{ s with classes := s.classes.set c { row with forward := true } }, ?_, ?_⟩
  · rw [NumericConstructionState.markForward, NumericConstructionState.updateRow, hrow]
    rfl
  · have hinside : (notesOf environment (ops ++ [.markForward c])).Inside s.classes.length :=
      h.inside_append rfl hc
    have hlink : ({ row with forward := true } : ClassRow).parent = row.parent := rfl
    refine h.updateRoot hrow hlink rfl hinside h.producers ?_ ?_
    · refine ⟨?_, ?_, ?_, ?_, hsummary.bound, hsummary.sorted, hsummary.indexed,
        hsummary.pending⟩
      · rw [received_append (by simp)]
        exact hsummary.receivers
      · rw [ineligible_append (by simp) (by simp)]
        exact hsummary.ineligible
      · rw [decimal_append (by simp)]
        exact hsummary.decimal
      · exact iff_of_true rfl
          ⟨c, hroot, List.mem_append_right _ (List.mem_singleton.mpr rfl)⟩
    · intro d other hd hother
      refine Valid.other_row (r := c) (fun e he => agree_of_other ?_) hd hother
      intro heq
      rw [← Option.some.inj heq] at he
      exact he hroot

end Noting

/-! ## Joining -/

section Joining

open ParentForest (linked)

variable {environment : TypeEnvironment} {ops : List Op} {s : NumericConstructionState}
  {root : Nat → Nat} {notes : Notes}

theorem absorb_parent_rank (winner loser : ClassRow) :
    (winner.absorb loser).parent = winner.parent ∧ (winner.absorb loser).rank = winner.rank := by
  rw [ClassRow.absorb, foldl_insertReceiver_eq]
  exact ⟨rfl, rfl⟩

/-- The rank of a root row that took over one of at most its rank. -/
def raisedRank (winner loser : ClassRow) : Nat :=
  if winner.rank = loser.rank then winner.rank + 1 else winner.rank

/-- The table in which one root row took over another of at most its rank. -/
theorem Linked.link {rows : List ClassRow} (h : Linked rows root) {winner loser : Nat}
    {winnerRow loserRow : ClassRow} (hwinner : rows[winner]? = some winnerRow)
    (hloser : rows[loser]? = some loserRow) (hwroot : root winner = winner)
    (hlroot : root loser = loser) (hne : winner ≠ loser) (hle : loserRow.rank ≤ winnerRow.rank) :
    (winnerRow.absorb loserRow).raiseRank loserRow
        = some { winnerRow.absorb loserRow with rank := raisedRank winnerRow loserRow } ∧
      Linked ((rows.set winner
          { winnerRow.absorb loserRow with rank := raisedRank winnerRow loserRow }).set loser
          (loserRow.linkedBelow winner)) (linked root winner loser) := by
  have hw : winner < rows.length := (List.getElem?_eq_some_iff.mp hwinner).1
  have hl : loser < rows.length := (List.getElem?_eq_some_iff.mp hloser).1
  have hparentw : parentOf rows winner = winner := h.forest.root_eq_self.mp hwroot
  have hparentl : parentOf rows loser = loser := h.forest.root_eq_self.mp hlroot
  have hrankw := rankOf_some hwinner
  have hrankl := rankOf_some hloser
  obtain ⟨habsorbparent, habsorbrank⟩ := absorb_parent_rank winnerRow loserRow
  constructor
  · rw [ClassRow.raiseRank, habsorbrank, raisedRank]
    by_cases heq : winnerRow.rank = loserRow.rank
    · have hrank := h.rank_le hw
      rw [if_pos heq, if_pos heq, if_pos (by omega)]
    · rw [if_neg heq, if_neg heq, ← habsorbrank]
  · generalize hnew : raisedRank winnerRow loserRow = newRank
    generalize hrows : (rows.set winner { winnerRow.absorb loserRow with rank := newRank }).set
      loser (loserRow.linkedBelow winner) = rows'
    have hlength : rows'.length = rows.length := by
      rw [← hrows, List.length_set, List.length_set]
    have hl' : loser
        < (rows.set winner { winnerRow.absorb loserRow with rank := newRank }).length := by
      rw [List.length_set]
      exact hl
    have hparents : parentOf rows' = Function.update (parentOf rows) loser winner := by
      rw [← hrows, parentOf_set hl', parentOf_set hw]
      show Function.update (Function.update (parentOf rows) winner
        (winnerRow.absorb loserRow).parent) loser winner = _
      rw [habsorbparent, ← parentOf_some hwinner, Function.update_eq_self]
    have hranks : rankOf rows' = Function.update (rankOf rows) winner newRank := by
      rw [← hrows, rankOf_set hl', rankOf_set hw]
      show Function.update (Function.update (rankOf rows) winner newRank) loser
        loserRow.rank = _
      rw [← hrankl]
      funext x
      by_cases hx : x = loser
      · subst hx
        rw [Function.update_self, Function.update_of_ne hne.symm]
      · rw [Function.update_of_ne hx]
    have hnew' : newRank = if rankOf rows winner = rankOf rows loser
        then rankOf rows winner + 1 else rankOf rows winner := by
      rw [← hnew, hrankw, hrankl, raisedRank]
    have hkeep : rankOf rows winner ≤ newRank ∧ rankOf rows loser < newRank := by
      rw [hnew']
      split
      · omega
      · omega
    constructor
    · rw [hparents, hranks]
      exact h.forest.link hparentw hparentl hne hkeep.1 hkeep.2
    · intro c hc
      rw [hlength] at hc ⊢
      rw [hparents]
      by_cases hcl : c = loser
      · rw [hcl, Function.update_self]
        exact hw
      · rw [Function.update_of_ne hcl]
        exact h.inside c hc
    · rw [hlength, hranks, hnew']
      exact h.heavy.link hwroot hlroot hne hw hl (by omega)
    · rw [hlength]
      exact h.small

/-- One root row takes over another of at most its rank. -/
theorem Valid.link (h : Valid notes s root) {winner loser : Nat} {winnerRow loserRow : ClassRow}
    (hwinner : s.classes[winner]? = some winnerRow) (hloser : s.classes[loser]? = some loserRow)
    (hwroot : root winner = winner) (hlroot : root loser = loser) (hne : winner ≠ loser)
    (hle : loserRow.rank ≤ winnerRow.rank) :
    ∃ raised, (winnerRow.absorb loserRow).raiseRank loserRow = some raised ∧
      Valid notes { s with
        classes := (s.classes.set winner raised).set loser (loserRow.linkedBelow winner) }
        (ParentForest.linked root winner loser) := by
  have hw : winner < s.classes.length := (List.getElem?_eq_some_iff.mp hwinner).1
  have hl : loser < s.classes.length := (List.getElem?_eq_some_iff.mp hloser).1
  have hparentw : parentOf s.classes winner = winner := h.linked.forest.root_eq_self.mp hwroot
  have hparentl : parentOf s.classes loser = loser := h.linked.forest.root_eq_self.mp hlroot
  obtain ⟨hraise, hlinked⟩ := h.linked.link hwinner hloser hwroot hlroot hne hle
  refine ⟨_, hraise, ?_⟩
  generalize raisedRank winnerRow loserRow = newRank at hlinked
  generalize hrows : (s.classes.set winner { winnerRow.absorb loserRow with rank := newRank }).set
    loser (loserRow.linkedBelow winner) = rows at hlinked
  have hlength : rows.length = s.classes.length := by
    rw [← hrows, List.length_set, List.length_set]
  have hl' : loser
      < (s.classes.set winner { winnerRow.absorb loserRow with rank := newRank }).length := by
    rw [List.length_set]
    exact hl
  constructor
  · exact hlinked
  · intro c row hrow hparent
    have hrow' : rows[c]? = some row := hrow
    by_cases hcl : c = loser
    · -- The row taken over is a root no more.
      subst hcl
      rw [← hrows, List.getElem?_set_self hl'] at hrow'
      cases hrow'
      exact absurd hparent hne
    · rw [← hrows, List.getElem?_set_ne (Ne.symm hcl)] at hrow'
      by_cases hcw : c = winner
      · subst hcw
        rw [List.getElem?_set_self hw] at hrow'
        cases hrow'
        have hrootrow := h.rows c winnerRow hwinner (by
          rw [← parentOf_some hwinner]
          exact hparentw)
        have hbelow := h.rows loser loserRow hloser (by
          rw [← parentOf_some hloser]
          exact hparentl)
        exact (hrootrow.absorb hbelow).with_link _ _
      · rw [List.getElem?_set_ne (Ne.symm hcw)] at hrow'
        refine (h.rows c row hrow' hparent).congr (linked_eq_other hcw hcl)
          (fun d _ => ⟨fun _ => Iff.rfl, fun _ => Iff.rfl, Iff.rfl, Iff.rfl⟩) ?_ ?_
        · intro i p hp hclass
          exact ⟨p, hp, hclass⟩
        · intro i p hp hpending hclass
          exact ⟨p, hp, hpending, hclass⟩
  · show notes.Inside rows.length
    rw [hlength]
    exact h.inside
  · intro i p hp
    show p.class_ < rows.length
    rw [hlength]
    exact h.producers i p hp
  · intro id node hnode
    show NodeInside rows.length _ _ _
    rw [hlength]
    exact h.nodes id node hnode
  · exact h.orders

/-- What one more union connects. -/
theorem connected_link {left right winner loser : Nat}
    (hconnected : ∀ c d, Connected ops c d ↔ root c = root d)
    (hjoin : root left = winner ∧ root right = loser ∨ root left = loser ∧ root right = winner)
    (c d : Nat) :
    Connected (ops ++ [.unionClasses left right]) c d ↔
      linked root winner loser c = linked root winner loser d := by
  have hkeep : ∀ a b, root a = root b →
      linked root winner loser a = linked root winner loser b := by
    intro a b hab
    rw [linked, linked, hab]
  have hold : ∀ a b, root a = root b → Connected (ops ++ [.unionClasses left right]) a b := by
    intro a b hab
    exact ((hconnected a b).mpr hab).mono fun _ _ hmem => List.mem_append_left _ hmem
  have hnew : Connected (ops ++ [.unionClasses left right]) left right :=
    .rel _ _ (List.mem_append_right _ (List.mem_singleton.mpr rfl))
  constructor
  · intro h
    induction h with
    | rel a b hmem =>
        rcases List.mem_append.mp hmem with hmem | hmem
        · exact hkeep a b ((hconnected a b).mp (.rel a b hmem))
        · injection List.mem_singleton.mp hmem with hleft hright
          subst hleft hright
          rw [linked, linked]
          have hself : (if winner = loser then winner else winner) = winner := ite_self winner
          rcases hjoin with hjoin | hjoin
          · rw [hjoin.1, hjoin.2, if_pos rfl, hself]
          · rw [hjoin.1, hjoin.2, if_pos rfl, hself]
    | refl a => rfl
    | symm a b _ ih => exact ih.symm
    | trans a b e _ _ hab hbe => exact hab.trans hbe
  · intro h
    -- Every class of either root is connected with the class that was named.
    have hside : ∀ a, linked root winner loser a = winner →
        Connected (ops ++ [.unionClasses left right]) a left := by
      intro a ha
      have haside := (linked_eq_winner a).mp ha
      rcases hjoin with hjoin | hjoin
      · rcases haside with ha | ha
        · exact hold a left (ha.trans hjoin.1.symm)
        · exact (hold a right (ha.trans hjoin.2.symm)).trans _ _ _ (hnew.symm _ _)
      · rcases haside with ha | ha
        · exact (hold a right (ha.trans hjoin.2.symm)).trans _ _ _ (hnew.symm _ _)
        · exact hold a left (ha.trans hjoin.1.symm)
    by_cases hc : linked root winner loser c = winner
    · have hd : linked root winner loser d = winner := h.symm.trans hc
      exact (hside c hc).trans _ _ _ ((hside d hd).symm _ _)
    · have hd : linked root winner loser d ≠ winner := fun heq => hc (h.trans heq)
      have hkept : ∀ a, linked root winner loser a ≠ winner →
          linked root winner loser a = root a := by
        intro a ha
        rw [linked] at ha ⊢
        split
        · next heq => exact absurd (if_pos heq) ha
        · rfl
      rw [hkept c hc, hkept d hd] at h
      exact hold c d h

theorem connected_same {left right : Nat}
    (hconnected : ∀ c d, Connected ops c d ↔ root c = root d) (hsame : root left = root right)
    (c d : Nat) : Connected (ops ++ [.unionClasses left right]) c d ↔ root c = root d := by
  constructor
  · intro h
    induction h with
    | rel a b hmem =>
        rcases List.mem_append.mp hmem with hmem | hmem
        · exact (hconnected a b).mp (.rel a b hmem)
        · injection List.mem_singleton.mp hmem with hleft hright
          rw [hleft, hright]
          exact hsame
    | refl a => rfl
    | symm a b _ ih => exact ih.symm
    | trans a b e _ _ hab hbe => exact hab.trans hbe
  · intro h
    exact ((hconnected c d).mpr h).mono fun _ _ hmem => List.mem_append_left _ hmem

theorem unionClasses_valid (h : Valid (notesOf environment ops) s root)
    (hconnected : ∀ c d, Connected ops c d ↔ root c = root d) {left right : Nat}
    (hleft : left < s.classes.length) (hright : right < s.classes.length) :
    ∃ winner s' root', s.unionClasses left right = some (winner, s') ∧
      Valid (notesOf environment (ops ++ [.unionClasses left right])) s' root' ∧
      ∀ c d, Connected (ops ++ [.unionClasses left right]) c d ↔ root' c = root' d := by
  have hsilent : Valid (notesOf environment (ops ++ [.unionClasses left right])) s root :=
    h.silent _ rfl
  obtain ⟨rows₁, hfindl, hlength₁, _, hvalid₁⟩ := hsilent.findRoot hleft
  obtain ⟨rows₂, hfindr, hlength₂, _, hvalid₂⟩ := hvalid₁.findRoot (c := right) (by
    show right < rows₁.length
    omega)
  have hlength₂' : rows₂.length = rows₁.length := hlength₂
  rw [NumericConstructionState.unionClasses, hfindl]
  simp only [Option.bind_eq_bind, Option.bind_some]
  rw [hfindr]
  simp only [Option.bind_some]
  by_cases hsame : root left = root right
  · rw [if_pos hsame]
    exact ⟨_, _, root, rfl, hvalid₂, connected_same hconnected hsame⟩
  · rw [if_neg hsame]
    obtain ⟨leftRow, hleftRow, _, _⟩ := hvalid₂.rootRow (c := left) (by
      show left < rows₂.length
      omega)
    obtain ⟨rightRow, hrightRow, _, _⟩ := hvalid₂.rootRow (c := right) (by
      show right < rows₂.length
      omega)
    have hleftRow' : rows₂[root left]? = some leftRow := hleftRow
    have hrightRow' : rows₂[root right]? = some rightRow := hrightRow
    have hroot := h.linked.forest.root_root
    rw [hleftRow', hrightRow']
    simp only [Option.bind_some]
    by_cases hrank : rightRow.rank ≤ leftRow.rank
    · rw [if_pos hrank]
      obtain ⟨raised, hraised, hvalid⟩ := hvalid₂.link hleftRow hrightRow (hroot left)
        (hroot right) hsame hrank
      simp only []
      rw [hraised]
      exact ⟨_, _, _, rfl, hvalid, connected_link hconnected (Or.inl ⟨rfl, rfl⟩)⟩
    · rw [if_neg hrank]
      obtain ⟨raised, hraised, hvalid⟩ := hvalid₂.link hrightRow hleftRow (hroot right)
        (hroot left) (Ne.symm hsame) (by omega)
      simp only []
      rw [hraised]
      exact ⟨_, _, _, rfl, hvalid, connected_link hconnected (Or.inr ⟨rfl, rfl⟩)⟩

end Joining

/-! ## Growing tables -/

section Growing

variable {s : NumericConstructionState} {root : Nat → Nat} {notes : Notes}

theorem NodeInside.mono {classes classes' bound bound' : Nat}
    {bindings bindings' : List KnownShapeBinding} {node : KnownShape}
    (h : NodeInside classes bindings bound node) (hclasses : classes ≤ classes')
    (hbindings : ∀ (i : Nat) edge, bindings[i]? = some edge → bindings'[i]? = some edge)
    (hbound : bound ≤ bound') : NodeInside classes' bindings' bound' node := by
  cases node with
  | Concrete typeId span => trivial
  | Numeric c => exact Nat.lt_of_lt_of_le h hclasses
  | Collection element capacity => exact Nat.lt_of_lt_of_le h hbound
  | Map key value => exact ⟨Nat.lt_of_lt_of_le h.1 hbound, Nat.lt_of_lt_of_le h.2 hbound⟩
  | Optional inner => exact Nat.lt_of_lt_of_le h hbound
  | DeclaredSubstitution typeId start end_ =>
      intro index hstart hend
      obtain ⟨edge, hedge, hlt⟩ := h index hstart hend
      exact ⟨edge, hbindings index edge hedge, Nat.lt_of_lt_of_le hlt hbound⟩

theorem getElem?_append_left {α : Type} {l : List α} (m : List α) {i : Nat} {a : α}
    (h : l[i]? = some a) : (l ++ m)[i]? = some a := by
  rw [List.getElem?_append_left (List.getElem?_eq_some_iff.mp h).1]
  exact h

theorem getElem?_append_singleton {α : Type} {l : List α} {a b : α} {i : Nat}
    (h : (l ++ [a])[i]? = some b) : l[i]? = some b ∨ i = l.length ∧ b = a := by
  rcases Nat.lt_trichotomy i l.length with hlt | heq | hgt
  · rw [List.getElem?_append_left hlt] at h
    exact Or.inl h
  · subst heq
    rw [List.getElem?_concat_length] at h
    exact Or.inr ⟨rfl, (Option.some.inj h).symm⟩
  · rw [List.getElem?_eq_none (by
      rw [List.length_append, List.length_singleton]
      omega)] at h
    cases h

theorem checkedDenseId_ok {length id : Nat} (h : checkedDenseId length = .ok id) :
    id = length ∧ length < 2 ^ 32 := by
  rw [checkedDenseId] at h
  split at h
  · next hlt =>
      cases h
      exact ⟨rfl, hlt⟩
  · cases h

/-- A class of which nothing was noted yet. -/
theorem Valid.create (h : Valid notes s root) (hsmall : s.classes.length < 2 ^ 32) :
    Valid notes { s with
      classes := s.classes ++
        [⟨s.classes.length, 0, none, none, none, .Unpinned, none, false, []⟩] } root := by
  generalize hrow : (⟨s.classes.length, 0, none, none, none, .Unpinned, none, false, []⟩ :
    ClassRow) = row
  have hlength : (s.classes ++ [row]).length = s.classes.length + 1 := by
    rw [List.length_append, List.length_singleton]
  have hparents : parentOf (s.classes ++ [row]) = parentOf s.classes := by
    funext x
    rw [parentOf, parentOf]
    rcases Nat.lt_trichotomy x s.classes.length with hlt | heq | hgt
    · rw [List.getElem?_append_left hlt]
    · subst heq
      rw [List.getElem?_concat_length, List.getElem?_eq_none (by omega), ← hrow]
    · rw [List.getElem?_eq_none (by omega), List.getElem?_eq_none (by omega)]
  have hranks : rankOf (s.classes ++ [row]) = rankOf s.classes := by
    funext x
    rw [rankOf, rankOf]
    rcases Nat.lt_trichotomy x s.classes.length with hlt | heq | hgt
    · rw [List.getElem?_append_left hlt]
    · subst heq
      rw [List.getElem?_concat_length, List.getElem?_eq_none (by omega), ← hrow]
    · rw [List.getElem?_eq_none (by omega), List.getElem?_eq_none (by omega)]
  have hnew : root s.classes.length = s.classes.length := h.linked.root_beyond (Nat.le_refl _)
  have hnone : ∀ c, c < s.classes.length → root c ≠ s.classes.length := by
    intro c hc heq
    have hlt := h.linked.root_lt hc
    omega
  constructor
  · constructor
    · rw [hparents, hranks]
      exact h.linked.forest
    · intro c hc
      rw [hparents, hlength]
      rw [hlength] at hc
      by_cases hlast : c = s.classes.length
      · rw [hlast, parentOf, List.getElem?_eq_none (Nat.le_refl _)]
        show s.classes.length < _
        omega
      · have hinside := h.linked.inside c (by omega)
        omega
    · rw [hlength, hranks]
      refine h.linked.heavy.grow hnew ?_
      rw [rankOf, List.getElem?_eq_none (Nat.le_refl _)]
    · rw [hlength]
      omega
  · intro c other hother hparent
    rcases getElem?_append_singleton hother with hold | hlast
    · exact h.rows c other hold hparent
    · rw [hlast.1, hlast.2, ← hrow]
      have hempty : ∀ {α : Type} (noted : Nat → α → Prop),
          (∀ c a, noted c a → c < s.classes.length) →
          gathered root noted s.classes.length = ∅ := by
        intro α noted hinside
        ext a
        refine ⟨fun ha => ?_, fun ha => absurd ha (Set.notMem_empty a)⟩
        obtain ⟨c, hc, hnote⟩ := ha
        exact absurd hc (hnone c (hinside c a hnote))
      refine ⟨?_, ?_, ?_, ?_, ?_, List.Pairwise.nil, ?_, ?_⟩
      · rw [hempty _ h.inside.received]
        exact EarliestTwo.empty
      · exact hempty _ h.inside.ineligible
      · refine iff_of_false (by simp) fun hd => ?_
        obtain ⟨d, hd, hnote⟩ := hd
        exact hnone d (h.inside.decimal d hnote) hd
      · refine iff_of_false (by simp) fun hd => ?_
        obtain ⟨d, hd, hnote⟩ := hd
        exact hnone d (h.inside.forward d hnote) hd
      · intro hbound
        cases hbound
      · intro i hi
        cases hi
      · intro i p hp _ hclass
        exact absurd hclass (hnone _ (h.producers i p hp))
  · show notes.Inside (s.classes ++ [row]).length
    rw [hlength]
    constructor
    · intro c w hw
      have hlt := h.inside.received c w hw
      omega
    · intro c w hw
      have hlt := h.inside.ineligible c w hw
      omega
    · intro c hc
      have hlt := h.inside.decimal c hc
      omega
    · intro c hc
      have hlt := h.inside.forward c hc
      omega
  · intro i p hp
    show p.class_ < (s.classes ++ [row]).length
    rw [hlength]
    have hlt := h.producers i p hp
    omega
  · intro id node hnode
    show NodeInside (s.classes ++ [row]).length _ _ _
    rw [hlength]
    exact (h.nodes id node hnode).mono (Nat.le_succ _) (fun _ _ hedge => hedge) (Nat.le_refl _)
  · exact h.orders

theorem createClass_valid (h : Valid notes s root) : Valid notes s.createClass.2 root := by
  rw [NumericConstructionState.createClass]
  cases hlive : s.ensureLive with
  | error failure => exact h
  | ok _ =>
      cases hid : checkedDenseId s.classes.length with
      | error failure => exact h
      | ok id =>
          obtain ⟨heq, hlt⟩ := checkedDenseId_ok hid
          subst heq
          exact h.create hlt

/-- One more node, whose children are in the table. -/
theorem Valid.intern (h : Valid notes s root) {node : KnownShape}
    {bindings : List KnownShapeBinding} (order : Nat)
    (hbindings : ∀ (i : Nat) edge, s.declaredBindings[i]? = some edge → bindings[i]? = some edge)
    (hnode : NodeInside s.classes.length bindings s.shapes.length node) :
    Valid notes { s with
      declaredBindings := bindings
      shapes := s.shapes ++ [node]
      shapeAuthoredOrder := s.shapeAuthoredOrder ++ [order] } root where
  linked := h.linked
  rows := h.rows
  inside := h.inside
  producers := h.producers
  nodes id other hother := by
    rcases getElem?_append_singleton hother with hold | hlast
    · exact (h.nodes id other hold).mono (Nat.le_refl _) hbindings (Nat.le_refl _)
    · rw [hlast.1, hlast.2]
      exact hnode
  orders := by
    show (s.shapeAuthoredOrder ++ [order]).length = (s.shapes ++ [node]).length
    rw [List.length_append, List.length_append, h.orders]
    rfl

theorem internOrderedShape_valid (h : Valid notes s root) {node : KnownShape} (order : Nat)
    (hnode : NodeInside s.classes.length s.declaredBindings s.shapes.length node) :
    Valid notes (s.internOrderedShape node order).2 root := by
  rw [NumericConstructionState.internOrderedShape]
  cases hlive : s.ensureLive with
  | error failure => exact h
  | ok _ =>
      cases hid : checkedDenseId s.shapes.length with
      | error failure => exact h
      | ok id => exact h.intern order (fun _ _ hedge => hedge) hnode

theorem exists_orders (h : Valid notes s root) {edges : List KnownShapeBinding}
    (hedges : ∀ edge ∈ edges, edge.shape < s.shapes.length) :
    ∃ orders, edges.mapM (fun edge => s.shapeAuthoredOrder[edge.shape]?) = some orders := by
  induction edges with
  | nil => exact ⟨[], rfl⟩
  | cons edge rest ih =>
      obtain ⟨orders, hrest⟩ := ih fun e he => hedges e (List.mem_cons_of_mem _ he)
      have hlt := hedges edge List.mem_cons_self
      rw [← h.orders] at hlt
      refine ⟨s.shapeAuthoredOrder[edge.shape] :: orders, ?_⟩
      rw [List.mapM_cons, List.getElem?_eq_getElem hlt, hrest]
      rfl

theorem internDeclaredSubstitution_valid (h : Valid notes s root) (declared : TypeId)
    {edges : List KnownShapeBinding} (hedges : ∀ edge ∈ edges, edge.shape < s.shapes.length) :
    ∃ answer s', s.internDeclaredSubstitution declared edges = some (answer, s') ∧
      Valid notes s' root := by
  rw [NumericConstructionState.internDeclaredSubstitution]
  cases hlive : s.ensureLive with
  | error failure => exact ⟨_, _, rfl, h⟩
  | ok _ =>
      cases hid : checkedDenseId s.shapes.length with
      | error failure => exact ⟨_, _, rfl, h⟩
      | ok id =>
          cases hstart : checkedDenseId s.declaredBindings.length with
          | error failure => exact ⟨_, _, rfl, h⟩
          | ok start =>
              cases hend : checkedDenseId (s.declaredBindings.length + edges.length) with
              | error failure => exact ⟨_, _, rfl, h⟩
              | ok end_ =>
                  obtain ⟨hstart', _⟩ := checkedDenseId_ok hstart
                  obtain ⟨hend', _⟩ := checkedDenseId_ok hend
                  obtain ⟨orders, horders⟩ := exists_orders h hedges
                  simp only [horders, Option.bind_eq_bind, Option.bind_some]
                  refine ⟨_, _, rfl, ?_⟩
                  refine h.intern _ (fun i edge hedge => getElem?_append_left _ hedge) ?_
                  intro index hlo hhi
                  subst hstart' hend'
                  generalize hsorted : (edges.insertionSort
                    fun a b => a.parameter.index ≤ b.parameter.index) = sorted
                  have hlength : sorted.length = edges.length := by
                    rw [← hsorted]
                    exact (List.perm_insertionSort _ edges).length_eq
                  have hin : index - s.declaredBindings.length < sorted.length := by omega
                  refine ⟨sorted[index - s.declaredBindings.length], ?_, ?_⟩
                  · rw [List.getElem?_append_right hlo, List.getElem?_eq_getElem hin]
                  · apply hedges
                    rw [← (List.perm_insertionSort
                      (fun a b : KnownShapeBinding => a.parameter.index ≤ b.parameter.index)
                      edges).mem_iff, hsorted]
                    exact List.getElem_mem hin

end Growing

/-! ## Producers -/

section Producers

variable {s : NumericConstructionState} {root : Nat → Nat} {notes : Notes}

/-- A producer in another state, which is not pending unless it was. -/
theorem Valid.changeState (h : Valid notes s root) {index : Nat} {producer : ForwardProducer}
    (hproducer : s.forwardProducers[index]? = some producer) {state : ForwardProducerState}
    (hstate : state.isPending = true → producer.state.isPending = true) :
    Valid notes (s.setProducerState index producer state) root := by
  have hindex : index < s.forwardProducers.length :=
    (List.getElem?_eq_some_iff.mp hproducer).1
  have hback : ∀ (i : Nat) p',
      (s.forwardProducers.set index { producer with state })[i]? = some p' →
      ∃ p, s.forwardProducers[i]? = some p ∧ p'.class_ = p.class_ ∧
        (p'.state.isPending = true → p.state.isPending = true) := by
    intro i p' hp'
    by_cases hi : i = index
    · subst hi
      rw [List.getElem?_set_self hindex] at hp'
      cases hp'
      exact ⟨producer, hproducer, rfl, hstate⟩
    · rw [List.getElem?_set_ne (Ne.symm hi)] at hp'
      exact ⟨p', hp', rfl, fun hpending => hpending⟩
  refine ⟨h.linked, ?_, h.inside, ?_, h.nodes, h.orders⟩
  · intro c row hrow hparent
    refine (h.rows c row hrow hparent).congr (fun _ => Iff.rfl)
      (fun d _ => ⟨fun _ => Iff.rfl, fun _ => Iff.rfl, Iff.rfl, Iff.rfl⟩) ?_ ?_
    · intro i p hp hclass
      by_cases hi : i = index
      · subst hi
        rw [hproducer] at hp
        cases hp
        exact ⟨_, List.getElem?_set_self hindex, hclass⟩
      · refine ⟨p, ?_, hclass⟩
        show (s.forwardProducers.set index _)[i]? = some p
        rw [List.getElem?_set_ne (Ne.symm hi)]
        exact hp
    · intro i p' hp' hpending hclass
      obtain ⟨p, hp, hsame, hkeeps⟩ := hback i p' hp'
      exact ⟨p, hp, hkeeps hpending, by rw [← hsame]; exact hclass⟩
  · intro i p' hp'
    obtain ⟨p, hp, hsame, _⟩ := hback i p' hp'
    show p'.class_ < s.classes.length
    rw [hsame]
    exact h.producers i p hp

theorem claimPendingForwardProducer_valid (h : Valid notes s root) (producer : Nat) :
    Valid notes (s.claimPendingForwardProducer producer).2 root := by
  rw [NumericConstructionState.claimPendingForwardProducer]
  cases hrow : s.forwardProducers[producer]? with
  | none => exact h
  | some row =>
      cases hstate : row.state with
      | Pending fragment =>
          simp only [hstate]
          exact h.changeState hrow (by simp [ForwardProducerState.isPending])
      | Resolving => simpa only [hstate] using h
      | Completed expression => simpa only [hstate] using h
      | Taken => simpa only [hstate] using h

theorem completeForwardProducer_valid (h : Valid notes s root) (producer expression : Nat) :
    Valid notes (s.completeForwardProducer producer expression).2 root := by
  rw [NumericConstructionState.completeForwardProducer]
  cases hrow : s.forwardProducers[producer]? with
  | none => exact h
  | some row =>
      cases hstate : row.state with
      | Resolving =>
          simp only [hstate]
          exact h.changeState hrow (by simp [ForwardProducerState.isPending])
      | Pending fragment => simpa only [hstate] using h
      | Completed expression => simpa only [hstate] using h
      | Taken => simpa only [hstate] using h

theorem takeCompletedForwardProducer_valid (h : Valid notes s root) (producer : Nat) :
    Valid notes (s.takeCompletedForwardProducer producer).2 root := by
  rw [NumericConstructionState.takeCompletedForwardProducer]
  cases hrow : s.forwardProducers[producer]? with
  | none => exact h
  | some row =>
      cases hstate : row.state with
      | Completed expression =>
          simp only [hstate]
          exact h.changeState hrow (by simp [ForwardProducerState.isPending])
      | Pending fragment => simpa only [hstate] using h
      | Resolving => simpa only [hstate] using h
      | Taken => simpa only [hstate] using h

theorem setPendingForwardDestinationsFrom_valid (r : Nat) (destination : ExpectedType)
    (indices : List Nat) {s : NumericConstructionState} (h : Valid notes s root) :
    ∃ s', NumericConstructionState.setPendingForwardDestinationsFrom r destination indices s
        = some s' ∧ Valid notes s' root := by
  induction indices generalizing s with
  | nil => exact ⟨s, rfl, h⟩
  | cons index rest ih =>
      rw [NumericConstructionState.setPendingForwardDestinationsFrom]
      cases hproducer : s.forwardProducers[index]? with
      | none => exact ih h
      | some producer =>
          obtain ⟨rows', hfind, _, _, hvalid⟩ := h.findRoot (h.producers index producer hproducer)
          simp only [Option.bind_eq_bind]
          rw [hfind]
          simp only [Option.bind_some]
          by_cases hroot : root producer.class_ ≠ r
          · rw [if_pos hroot]
            exact ih hvalid
          · rw [if_neg hroot]
            cases hstate : producer.state with
            | Pending fragment =>
                have hwas : producer.state.isPending = true := by
                  rw [hstate]
                  rfl
                exact ih (hvalid.changeState hproducer fun _ => hwas)
            | Resolving => exact ih hvalid
            | Completed expression => exact ih hvalid
            | Taken => exact ih hvalid

theorem setPendingForwardDestinations_valid (h : Valid notes s root) {c : Nat}
    (hc : c < s.classes.length) (destination : ExpectedType) (start end_ : Nat) :
    ∃ s', s.setPendingForwardDestinations c destination start end_ = some s' ∧
      Valid notes s' root := by
  obtain ⟨rows', hfind, _, _, hvalid⟩ := h.findRoot hc
  rw [NumericConstructionState.setPendingForwardDestinations, hfind]
  exact setPendingForwardDestinationsFrom_valid (root c) destination _ hvalid

/-- The registered producer stands in the index of its root at once. -/
theorem registerForwardProducer_valid (h : Valid notes s root) {c : Nat}
    (hc : c < s.classes.length) (shape : Nat) (fragment : DeferredNumericExpression) :
    ∃ answer s', s.registerForwardProducer c shape fragment = some (answer, s') ∧
      Valid notes s' root := by
  rw [NumericConstructionState.registerForwardProducer]
  cases hlive : s.ensureLive with
  | error failure => exact ⟨_, _, rfl, h⟩
  | ok _ =>
      cases hid : checkedDenseId s.forwardProducers.length with
      | error failure => exact ⟨_, _, rfl, h⟩
      | ok id =>
          obtain ⟨heq, _⟩ := checkedDenseId_ok hid
          subst heq
          obtain ⟨rows', hfind, hlength, _, hvalid⟩ := h.findRoot hc
          obtain ⟨row, hrow, _, hsummary⟩ := hvalid.rootRow (c := c) (by
            show c < rows'.length
            omega)
          have hrow' : rows'[root c]? = some row := hrow
          generalize hproducer : (⟨c, shape, s.nextAuthoredOrder, .Pending fragment⟩ :
            ForwardProducer) = producer
          have hclass : producer.class_ = c := by rw [← hproducer]
          have hfind' : NumericConstructionState.findRoot { s with
              nextAuthoredOrder := s.nextAuthoredOrder + 1
              forwardProducers := s.forwardProducers ++ [producer] } c
              = some (root c, { s with
                  classes := rows'
                  nextAuthoredOrder := s.nextAuthoredOrder + 1
                  forwardProducers := s.forwardProducers ++ [producer] }) := by
            rw [NumericConstructionState.findRoot] at hfind ⊢
            cases hfrom : NumericConstructionState.findRootFrom s.classes.length s.classes c with
            | none =>
                rw [hfrom] at hfind
                cases hfind
            | some found =>
                rw [hfrom] at hfind
                injection Option.some.inj hfind with hfirst hsecond
                injection hsecond with hclasses
                rw [← hfirst, ← hclasses]
                rfl
          have hnew : ∀ (i : Nat) p, (s.forwardProducers ++ [producer])[i]? = some p →
              s.forwardProducers[i]? = some p ∨ i = s.forwardProducers.length ∧ p = producer :=
            fun i p hp => getElem?_append_singleton hp
          generalize hindexed : ({ row with
            forwardProducers :=
              row.forwardProducers.orderedInsert (· ≤ ·) s.forwardProducers.length } :
            ClassRow) = indexed
          have hlink : indexed.parent = row.parent ∧ indexed.rank = row.rank := by
            rw [← hindexed]
            exact ⟨rfl, rfl⟩
          have hupdated : Valid notes { s with
              classes := rows'.set (root c) indexed
              forwardProducers := s.forwardProducers ++ [producer] } root := by
            refine hvalid.updateRoot hrow hlink.1 hlink.2 hvalid.inside ?_ ?_ ?_
            · intro i p hp
              show p.class_ < rows'.length
              rw [hlength]
              rcases hnew i p hp with hold | hlast
              · exact h.producers i p hold
              · rw [hlast.2, hclass]
                exact hc
            · rw [← hindexed]
              refine ⟨hsummary.receivers, hsummary.ineligible, hsummary.decimal, hsummary.forward,
                hsummary.bound, hsummary.sorted.orderedInsert _ _, ?_, ?_⟩
              · intro i hi
                rcases (List.mem_orderedInsert (· ≤ ·)).mp hi with hi | hi
                · subst hi
                  exact ⟨producer, List.getElem?_concat_length, by rw [hclass]⟩
                · obtain ⟨p, hp, hroot⟩ := hsummary.indexed i hi
                  exact ⟨p, getElem?_append_left _ hp, hroot⟩
              · intro i p hp hpending hroot
                apply (List.mem_orderedInsert (· ≤ ·)).mpr
                rcases hnew i p hp with hold | hlast
                · exact Or.inr (hsummary.pending i p hold hpending hroot)
                · exact Or.inl hlast.1
            · intro d other hd hother
              refine hother.congr (fun _ => Iff.rfl)
                (fun e _ => ⟨fun _ => Iff.rfl, fun _ => Iff.rfl, Iff.rfl, Iff.rfl⟩) ?_ ?_
              · intro i p hp hroot
                exact ⟨p, getElem?_append_left _ hp, hroot⟩
              · intro i p hp hpending hroot
                rcases hnew i p hp with hold | hlast
                · exact ⟨p, hold, hpending, hroot⟩
                · rw [hlast.2, hclass] at hroot
                  exact absurd hroot.symm hd
          refine ⟨.ok s.forwardProducers.length, { s with
              classes := rows'.set (root c) indexed
              nextAuthoredOrder := s.nextAuthoredOrder + 1
              forwardProducers := s.forwardProducers ++ [producer] }, ?_,
            ⟨hupdated.linked, hupdated.rows, hupdated.inside, hupdated.producers, hupdated.nodes,
              hupdated.orders⟩⟩
          simp only [NumericConstructionState.takeAuthoredOrder, hproducer, Option.bind_eq_bind,
            NumericConstructionState.updateRoot]
          rw [hfind']
          simp only [Option.bind_some, NumericConstructionState.updateRow]
          rw [hrow']
          simp only [Option.bind_eq_bind, Option.bind_some]
          rw [hindexed]
          rfl

end Producers

end Moth.Ast.NumericConstruction
