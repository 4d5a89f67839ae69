import Moth.Datatypes.GenericBindings

/-!
# Inferred arguments instantiate the template

The walk of `GenericBindings.lean` against the structure of types. What one
position does is split in two: below a layer it binds, accepts an identical
pair or descends into a common constructor, and `positions` is that descent for
all three kinds of structural type at once.

Soundness and completeness are two inductions on the template, each with one
step for a layer and one for the optional layer above it. Soundness gives
`MatchedUnder`, from which the general facts about terms read off what is
bound and what the instance is. Completeness keeps the staged bindings within
the completed extension, where every parameter left open stands for itself.
-/

namespace Moth.Datatypes

open Moth.Lib

/-! ## The loop over positions -/

section Loop

variable {σ ε α : Type} {step : α → σ → Except ε (Bool × σ)}

theorem whileMatched_map {β : Type} (step : α → σ → Except ε (Bool × σ)) (f : β → α)
    (rows : List β) (staged : σ) :
    whileMatched (fun row => step (f row)) rows staged = whileMatched step (rows.map f) staged := by
  induction rows generalizing staged with
  | nil => rfl
  | cons row rest ih =>
      rw [List.map_cons, whileMatched, whileMatched]
      rcases step (f row) staged with conflict | ⟨_ | _, next⟩
      · rfl
      · rfl
      · exact ih next

theorem whileMatched_attach (step : α → σ → Except ε (Bool × σ)) (rows : List α) (staged : σ) :
    whileMatched (fun row => step row.1) rows.attach staged = whileMatched step rows staged := by
  rw [whileMatched_map step Subtype.val, List.attach_map_subtype_val]

/-- A loop that matched every position: what each step adds holds at the end. -/
theorem whileMatched_true {R : σ → σ → Prop} {Q : α → σ → Prop} {s t : σ} (hrefl : ∀ s, R s s)
    (htrans : ∀ a b c, R a b → R b c → R a c) (hmono : ∀ row a b, R a b → Q row a → Q row b)
    {rows : List α}
    (hstep : ∀ row ∈ rows, ∀ a b, step row a = .ok (true, b) → R a b ∧ Q row b)
    (h : whileMatched step rows s = .ok (true, t)) : R s t ∧ ∀ row ∈ rows, Q row t := by
  induction rows generalizing s with
  | nil =>
      cases h
      exact ⟨hrefl _, fun row hrow => by cases hrow⟩
  | cons row rest ih =>
      rw [whileMatched] at h
      split at h
      · rename_i next hnext
        obtain ⟨hfirst, hq⟩ := hstep row List.mem_cons_self s next hnext
        obtain ⟨hrest, hall⟩ := ih (fun r hr => hstep r (List.mem_cons_of_mem _ hr)) h
        refine ⟨htrans _ _ _ hfirst hrest, fun r hr => ?_⟩
        rcases List.mem_cons.1 hr with rfl | hr
        · exact hmono r next t hrest hq
        · exact hall r hr
      · cases h
      · cases h

theorem whileMatched_total {I : σ → Prop} {rows : List α}
    (hstep : ∀ row ∈ rows, ∀ a, I a → ∃ b, step row a = .ok (true, b) ∧ I b) {s : σ} (hs : I s) :
    ∃ t, whileMatched step rows s = .ok (true, t) ∧ I t := by
  induction rows generalizing s with
  | nil => exact ⟨s, rfl, hs⟩
  | cons row rest ih =>
      obtain ⟨next, hnext, hinv⟩ := hstep row List.mem_cons_self s hs
      rw [whileMatched, hnext]
      exact ih (fun r hr => hstep r (List.mem_cons_of_mem _ hr)) hinv

end Loop

/-- How many parts a constructor takes. -/
def TypeHead.parts : TypeHead → Nat
  | .constructed _ arguments => arguments
  | .function parameters returns errorReturn => parameters + returns + errorReturn.toNat
  | .genericInstance _ arguments => arguments

theorem TypeDefinition.shape_length {d : TypeDefinition} {s : TypeHead × List TypeId}
    (h : d.shape = some s) : s.2.length = s.1.parts := by
  cases d with
  | Function key =>
      cases h
      rw [List.length_append, List.length_append, TypeHead.parts]
      cases key.errorReturn <;> rfl
  | Constructed key => cases h; rfl
  | GenericInstance key => cases h; rfl
  | Builtin _ | Struct _ | Choice _ | External _ | GenericParameter _
  | AnonymousConstRecordMarker => cases h

namespace TypeStore

variable {self : TypeStore} {t c : TypeId}

theorem shape_length {s : TypeHead × List TypeId} (h : self.shape t = some s) :
    s.2.length = s.1.parts := by
  obtain ⟨d, -, hd⟩ := Option.bind_eq_some_iff.1 h
  exact TypeDefinition.shape_length hd

/-- The positions that a template and a type of the same constructor are compared at. -/
def positions (self : TypeStore) (t c : TypeId) : Option (List (TypeId × TypeId)) :=
  (self.shape t).bind fun s => (self.shape c).bind fun s' =>
    if s.1 = s'.1 then some (s.2.zip s'.2) else none

/-- The walk at one position. -/
def compare (self : TypeStore) (position : TypeId × TypeId) (staged : GenericTypeBindings) :
    Except BindingConflict (Bool × GenericTypeBindings) :=
  self.collectTypeParameterBindingsInner position.1 position.2 staged

theorem functionPositions_eq {d d' : FunctionTypeKey}
    (hparameters : d.parameters.length = d'.parameters.length)
    (hreturns : d.returns.length = d'.returns.length) :
    functionPositions d d' = (d.parameters ++ d.returns ++ d.errorReturn.toList).zip
      (d'.parameters ++ d'.returns ++ d'.errorReturn.toList) := by
  rw [functionPositions, List.zip_append (by simp [hparameters, hreturns]),
    List.zip_append hparameters]

/-- Below a template that is no parameter and not the type itself, the walk compares the
positions of a common constructor. -/
theorem collectLayer_eq (hparameter : self.parameter t = none) (hne : t ≠ c)
    (staged : GenericTypeBindings) :
    self.collectTypeParameterBindingsLayer t c staged =
      match self.positions t c with
      | some positions => whileMatched self.compare positions staged
      | none => .ok (false, staged) := by
  rw [collectTypeParameterBindingsLayer, hparameter]
  simp only [if_neg hne]
  have hpositions : self.positions t c = ((self.get t).bind TypeDefinition.shape).bind fun s =>
    ((self.get c).bind TypeDefinition.shape).bind fun s' =>
      if s.1 = s'.1 then some (s.2.zip s'.2) else none := rfl
  rw [hpositions]
  split
  · rename_i d d' hget hget'
    rw [hget, hget']
    simp only [TypeDefinition.shape, Option.bind_some, TypeHead.constructed.injEq]
    split
    · exact whileMatched_attach (self.compare) _ _
    · rfl
  · rename_i d d' hget hget'
    rw [hget, hget']
    simp only [TypeDefinition.shape, Option.bind_some, TypeHead.genericInstance.injEq]
    split
    · exact whileMatched_attach (self.compare) _ _
    · rfl
  · rename_i d d' hget hget'
    rw [hget, hget']
    simp only [TypeDefinition.shape, Option.bind_some, TypeHead.function.injEq]
    split
    · rename_i h
      rw [← functionPositions_eq h.1 h.2.1]
      exact whileMatched_attach (self.compare) _ _
    · rfl
  · rename_i hconstructed hinstance hfunction
    cases hget : self.get t with
    | none => rfl
    | some d =>
        cases hget' : self.get c with
        | none => cases d <;> rfl
        | some d' =>
            cases d <;> cases d' <;> first
              | rfl
              | exact absurd hget' (hconstructed _ _ hget)
              | exact absurd hget' (hinstance _ _ hget)
              | exact absurd hget' (hfunction _ _ hget)

/-! ## Optional types -/

/-- The constructor of optional types. -/
def optionHead : TypeHead := .constructed (.Builtin .Option) 1

theorem optionInnerType_eq_some {inner : TypeId} :
    self.optionInnerType t = some inner ↔ self.shape t = some (optionHead, [inner]) := by
  rw [optionInnerType, shape]
  cases hget : self.get t with
  | none => simp
  | some d =>
      cases d with
      | Constructed key =>
          have harity := (self.valid t.index _ hget).arity key rfl
          obtain ⟨⟨constructor⟩, arguments⟩ := key
          cases constructor with
          | Option =>
              obtain ⟨argument, rfl⟩ := List.length_eq_one_iff.1 harity
              simp [TypeDefinition.shape, optionHead]
          | Collection capacity => simp [TypeDefinition.shape, optionHead]
          | OrderedMap => simp [TypeDefinition.shape, optionHead]
      | Function key => simp [TypeDefinition.shape, optionHead]
      | GenericInstance key => simp [TypeDefinition.shape, optionHead]
      | Builtin _ | Struct _ | Choice _ | External _ | GenericParameter _
      | AnonymousConstRecordMarker => simp [TypeDefinition.shape]

theorem term_builtinNone (self : TypeStore) : self.term builtinNone = .atom builtinNone := by
  refine term_atom ?_ ?_
  · rw [parameter, self.get_builtinNone]
  · rw [shape, self.get_builtinNone]
    rfl

theorem term_ne_absent (h : c ≠ builtinNone) : self.term c ≠ .atom builtinNone := by
  intro heq
  rw [← self.term_builtinNone] at heq
  exact h (self.term_injective heq)

theorem present_of_optionInnerType (hne : c ≠ builtinNone) (h : self.optionInnerType c = none) :
    Term.Present optionHead builtinNone (self.term c) := by
  refine ⟨term_ne_absent hne, fun args heq => ?_⟩
  rcases self.term_cases c with ⟨p, -, hterm⟩ | ⟨s, hshape, hterm⟩ | ⟨-, -, hterm⟩
  · rw [hterm] at heq
    cases heq
  · rw [hterm, Term.node.injEq] at heq
    obtain ⟨head, parts⟩ := s
    obtain rfl : head = optionHead := heq.1
    have hlength : parts.length = 1 := shape_length hshape
    obtain ⟨inner, rfl⟩ := List.length_eq_one_iff.1 hlength
    rw [optionInnerType_eq_some.2 hshape] at h
    cases h
  · rw [hterm] at heq
    cases heq

theorem shape_of_children {d : TypeDefinition} {child : TypeId} (h : child ∈ d.children) :
    ∃ s, d.shape = some s ∧ child ∈ s.2 := by
  cases hshape : d.shape with
  | none =>
      rw [TypeDefinition.children, hshape] at h
      cases h
  | some s =>
      rw [TypeDefinition.children, hshape] at h
      exact ⟨s, rfl, h⟩

/-- A type that contains a generic parameter mentions one. -/
theorem mentions_of_containsGenericParameter (self : TypeStore) (id : TypeId)
    (h : self.containsGenericParameter id = true) : ∃ p, (self.term id).Mentions p := by
  -- it is a parameter itself, or one of its parts contains one
  have hcases : (∃ p, self.parameter id = some p) ∨
      ∃ d, self.get id = some d ∧
        ∃ child ∈ d.children, self.containsGenericParameter child = true := by
    rw [containsGenericParameter] at h
    split at h
    · rename_i d hget
      exact .inl ⟨d.id, by rw [parameter, hget]⟩
    · rename_i key hget
      obtain ⟨argument, -, hargument⟩ := List.any_eq_true.1 h
      exact .inr ⟨_, hget, argument.1, argument.2, hargument⟩
    · rename_i key hget
      obtain ⟨argument, -, hargument⟩ := List.any_eq_true.1 h
      exact .inr ⟨_, hget, argument.1, argument.2, hargument⟩
    · rename_i key hget
      rw [Bool.or_eq_true, Bool.or_eq_true] at h
      rcases h with (h | h) | h <;> obtain ⟨argument, -, hargument⟩ := List.any_eq_true.1 h <;>
        refine .inr ⟨_, hget, argument.1, ?_, hargument⟩ <;>
        simp only [TypeDefinition.children, TypeDefinition.shape, Option.map_some,
          Option.getD_some, List.mem_append]
      · exact .inl (.inl argument.2)
      · exact .inl (.inr argument.2)
      · exact .inr argument.2
    · cases h
  rcases hcases with ⟨p, hp⟩ | ⟨d, hget, child, hchild, hcontains⟩
  · rw [term_param hp]
    exact ⟨p, .param p⟩
  · have hlt := child_lt hget hchild
    obtain ⟨p, hp⟩ := mentions_of_containsGenericParameter self child hcontains
    obtain ⟨s, hs, hpart⟩ := shape_of_children hchild
    have hshape : self.shape id = some s := by
      rw [shape, hget]
      exact hs
    rw [term_node hshape]
    exact ⟨p, .node (List.mem_map_of_mem hpart) hp⟩
termination_by id.index

end TypeStore

/-! ## Bindings -/

namespace GenericTypeBindings

/-- The later bindings keep the earlier ones. -/
def Extends (before after : GenericTypeBindings) : Prop :=
  ∀ p x, before.get p = some x → after.get p = some x

theorem Extends.refl (bindings : GenericTypeBindings) : bindings.Extends bindings :=
  fun _ _ h => h

theorem Extends.trans {a b c : GenericTypeBindings} (h : a.Extends b) (h' : b.Extends c) :
    a.Extends c := fun p x hp => h' p x (h p x hp)

/-- The bindings as a substitution of terms. -/
def terms (self : TypeStore) (bindings : GenericTypeBindings) :
    GenericParameterId → Option (Term TypeHead TypeId GenericParameterId) :=
  fun p => (bindings.get p).map self.term

theorem Extends.terms {self : TypeStore} {a b : GenericTypeBindings} (h : a.Extends b)
    (p : GenericParameterId) (x : Term TypeHead TypeId GenericParameterId)
    (hx : a.terms self p = some x) : b.terms self p = some x := by
  obtain ⟨id, hid, rfl⟩ := Option.map_eq_some_iff.1 hx
  rw [GenericTypeBindings.terms, h p id hid]
  rfl

theorem get_update_self (before : GenericTypeBindings) (p : GenericParameterId) (x : TypeId) :
    get ⟨Function.update before.replacements p (some x)⟩ p = some x := by
  simp [get]

theorem get_update_of_ne (before : GenericTypeBindings) {p q : GenericParameterId} {x : TypeId}
    (h : q ≠ p) : get ⟨Function.update before.replacements p (some x)⟩ q = before.get q := by
  simp [get, h]

theorem insertConsistent_ok {before after : GenericTypeBindings} {p : GenericParameterId}
    {x : TypeId} (h : before.insertConsistent p x = .ok after) :
    before.Extends after ∧ after.get p = some x := by
  rw [insertConsistent] at h
  cases hbound : before.replacements p with
  | some existing =>
      rw [hbound] at h
      simp only [] at h
      split at h
      · rename_i heq
        cases h
        exact ⟨.refl _, by rw [get, hbound, heq]⟩
      · cases h
  | none =>
      rw [hbound] at h
      cases h
      refine ⟨fun q y hq => ?_, get_update_self before p x⟩
      have hqp : q ≠ p := by
        intro heq
        subst heq
        rw [get, hbound] at hq
        cases hq
      rw [get_update_of_ne before hqp]
      exact hq

theorem insertConsistent_within {before after : GenericTypeBindings} {p : GenericParameterId}
    {x : TypeId} (hwithin : before.Extends after) (hp : after.get p = some x) :
    ∃ next, before.insertConsistent p x = .ok next ∧ next.Extends after := by
  rw [insertConsistent]
  cases hbound : before.replacements p with
  | some existing =>
      have heq : existing = x := Option.some.inj ((hwithin p existing hbound).symm.trans hp)
      exact ⟨before, if_pos heq, hwithin⟩
  | none =>
      refine ⟨_, rfl, fun q y hq => ?_⟩
      by_cases hqp : q = p
      · subst hqp
        rw [get_update_self] at hq
        rw [hp, hq]
      · rw [get_update_of_ne before hqp] at hq
        exact hwithin q y hq

end GenericTypeBindings

namespace TypeStore

variable {self : TypeStore} {t c : TypeId}

theorem inner_eq_layer (h : self.presentPayloadTemplate t c = none)
    (staged : GenericTypeBindings) : self.collectTypeParameterBindingsInner t c staged =
      self.collectTypeParameterBindingsLayer t c staged := by
  rw [collectTypeParameterBindingsInner]
  split
  · rename_i payload hpresent
    rw [h] at hpresent
    cases hpresent
  · rfl

/-! ## A match instantiates the template -/

/-- The template matches the type under the bindings. -/
def MatchedUnder (self : TypeStore) (bindings : GenericTypeBindings) (lifts : Bool)
    (t c : TypeId) : Prop :=
  Term.Collected optionHead builtinNone (bindings.terms self) lifts (self.term t) (self.term c)

theorem MatchedUnder.mono {a b : GenericTypeBindings} {lifts : Bool}
    (h : self.MatchedUnder a lifts t c) (hab : a.Extends b) : self.MatchedUnder b lifts t c :=
  Term.Collected.mono h hab.terms

theorem positions_eq_some {positions : List (TypeId × TypeId)} :
    self.positions t c = some positions ↔ ∃ head parts parts',
      self.shape t = some (head, parts) ∧ self.shape c = some (head, parts') ∧
        positions = parts.zip parts' := by
  rw [TypeStore.positions]
  constructor
  · intro h
    obtain ⟨⟨head, parts⟩, hs, h⟩ := Option.bind_eq_some_iff.1 h
    obtain ⟨⟨head', parts'⟩, hs', h⟩ := Option.bind_eq_some_iff.1 h
    split at h
    · rename_i heq
      simp only at heq
      subst heq
      cases h
      exact ⟨head, parts, parts', hs, hs', rfl⟩
    · cases h
  · rintro ⟨head, parts, parts', hs, hs', rfl⟩
    rw [hs, hs', Option.bind_some, Option.bind_some, if_pos rfl]

theorem parameter_ne_none (h : self.parameter t = none) (p : GenericParameterId) :
    self.term t ≠ .param p := by
  rcases self.term_cases t with ⟨q, hq, -⟩ | ⟨s, -, hterm⟩ | ⟨-, -, hterm⟩
  · rw [h] at hq
    cases hq
  · rw [hterm]
    exact fun h => by cases h
  · rw [hterm]
    exact fun h => by cases h

theorem layer_sound (hinner : ∀ child : TypeId, child.index < t.index → ∀ c staged staged',
      self.collectTypeParameterBindingsInner child c staged = .ok (true, staged') →
        staged.Extends staged' ∧ self.MatchedUnder staged' true child c)
    {staged staged' : GenericTypeBindings}
    (h : self.collectTypeParameterBindingsLayer t c staged = .ok (true, staged')) (lifts : Bool) :
    staged.Extends staged' ∧ self.MatchedUnder staged' lifts t c := by
  cases hparameter : self.parameter t with
  | some p =>
      rw [collectTypeParameterBindingsLayer, hparameter] at h
      simp only [] at h
      split at h
      · cases h
      · rename_i hne
        cases hinsert : staged.insertConsistent p c with
        | error conflict =>
            rw [hinsert] at h
            cases h
        | ok next =>
            rw [hinsert] at h
            cases h
            obtain ⟨hextends, hbound⟩ := GenericTypeBindings.insertConsistent_ok hinsert
            refine ⟨hextends, ?_⟩
            rw [MatchedUnder, term_param hparameter]
            exact .param (by rw [GenericTypeBindings.terms, hbound]; rfl) (term_ne_absent hne)
  | none =>
      by_cases heq : t = c
      · subst heq
        rw [collectTypeParameterBindingsLayer, hparameter] at h
        simp only [if_pos] at h
        cases h
        exact ⟨.refl _, .same (parameter_ne_none hparameter)⟩
      · rw [collectLayer_eq hparameter heq] at h
        cases hpositions : self.positions t c with
        | none =>
            rw [hpositions] at h
            cases h
        | some positions =>
            rw [hpositions] at h
            obtain ⟨head, parts, parts', hs, hs', rfl⟩ := positions_eq_some.1 hpositions
            obtain ⟨hextends, hall⟩ := whileMatched_true GenericTypeBindings.Extends.refl
              (fun _ _ _ => GenericTypeBindings.Extends.trans)
              (fun (position : TypeId × TypeId) a b hab
                (hq : self.MatchedUnder a true position.1 position.2) => hq.mono hab)
              (fun position hmem a b hstep => hinner position.1
                (part_lt hs (List.of_mem_zip hmem).1) position.2 a b hstep) h
            refine ⟨hextends, ?_⟩
            rw [MatchedUnder, term_node hs, term_node hs']
            refine .node ?_ fun pair hpair => ?_
            · rw [List.length_map, List.length_map]
              exact (shape_length hs).trans (shape_length hs').symm
            · rw [List.zip_map, List.mem_map] at hpair
              obtain ⟨position, hmem, rfl⟩ := hpair
              exact hall position hmem

theorem inner_sound (self : TypeStore) (t c : TypeId) (staged staged' : GenericTypeBindings)
    (h : self.collectTypeParameterBindingsInner t c staged = .ok (true, staged')) :
    staged.Extends staged' ∧ self.MatchedUnder staged' true t c := by
  have hbelow : ∀ n, n ≤ t.index → ∀ child : TypeId, child.index < n → ∀ c staged staged',
      self.collectTypeParameterBindingsInner child c staged = .ok (true, staged') →
        staged.Extends staged' ∧ self.MatchedUnder staged' true child c :=
    fun n hn child hlt c staged staged' h => inner_sound self child c staged staged' h
  rw [collectTypeParameterBindingsInner] at h
  split at h
  · rename_i payload hpresent
    obtain ⟨hoption, hcontains, hne, hconcrete⟩ := presentPayloadTemplate_eq_some.1 hpresent
    obtain ⟨hextends, hlayer⟩ :=
      layer_sound (hbelow payload.index (Nat.le_of_lt (optionInnerType_lt hoption))) h false
    refine ⟨hextends, ?_⟩
    rw [MatchedUnder, term_node (optionInnerType_eq_some.1 hoption)]
    exact .present (self.mentions_of_containsGenericParameter payload hcontains)
      (present_of_optionInnerType hne hconcrete) hlayer
  · exact layer_sound (hbelow t.index (Nat.le_refl _)) h true
termination_by t.index

/-! ## An instance is matched -/

/-- The bindings with every parameter that they leave open bound to its own type. -/
def completed (self : TypeStore) (bindings : GenericTypeBindings) : GenericTypeBindings :=
  ⟨fun p => (bindings.get p).orElse fun _ => self.ids (.genericParameter p)⟩

theorem extends_completed (self : TypeStore) (bindings : GenericTypeBindings) :
    bindings.Extends (self.completed bindings) := by
  intro p x hx
  show (bindings.get p).orElse _ = some x
  rw [hx]
  rfl

theorem ids_of_parameter {p : GenericParameterId} (h : self.parameter t = some p) :
    self.ids (.genericParameter p) = some t := by
  obtain ⟨d, hget, rfl⟩ := get_of_parameter h
  refine (self.keyed _ t).2 ?_
  rw [get] at hget
  rw [hget]
  rfl

theorem completed_of_substitute {extension : GenericTypeBindings} {p : GenericParameterId}
    (hp : self.parameter t = some p) (hnone : extension.get p ≠ some builtinNone)
    (heq : (self.term t).substitute (extension.terms self) = self.term c) :
    (self.completed extension).get p = some c ∧ c ≠ builtinNone := by
  rw [term_param hp, Term.substitute_param, GenericTypeBindings.terms] at heq
  cases hbound : extension.get p with
  | some x =>
      rw [hbound] at heq
      have hx : x = c := self.term_injective heq
      subst hx
      exact ⟨extends_completed self extension p x hbound, fun h => hnone (h ▸ hbound)⟩
  | none =>
      -- an open parameter is its own instance
      rw [hbound] at heq
      have htc : t = c := self.term_injective ((term_param hp).trans heq)
      subst htc
      refine ⟨?_, fun h => ?_⟩
      · show (extension.get p).orElse _ = some t
        rw [hbound]
        exact ids_of_parameter hp
      · rw [h, parameter, self.get_builtinNone] at hp
        cases hp

theorem shape_of_term {head : TypeHead} {args : List (Term TypeHead TypeId GenericParameterId)}
    (h : self.term c = .node head args) :
    ∃ parts, self.shape c = some (head, parts) ∧ args = parts.map self.term := by
  rcases self.term_cases c with ⟨p, -, hterm⟩ | ⟨s, hs, hterm⟩ | ⟨-, -, hterm⟩
  · rw [hterm] at h
    cases h
  · rw [hterm, Term.node.injEq] at h
    rw [hs, ← h.1, ← h.2]
    exact ⟨s.2, rfl, rfl⟩
  · rw [hterm] at h
    cases h

theorem term_of_zip {σ : GenericParameterId → Option (Term TypeHead TypeId GenericParameterId)}
    {parts parts' : List TypeId}
    (h : (parts.map self.term).map (Term.substitute σ) = parts'.map self.term)
    {position : TypeId × TypeId} (hmem : position ∈ parts.zip parts') :
    (self.term position.1).substitute σ = self.term position.2 := by
  obtain ⟨i, hi, rfl⟩ := List.getElem_of_mem hmem
  rw [List.length_zip] at hi
  have hget := congrArg (fun l => l[i]?) h
  simp only [List.getElem?_map] at hget
  rw [List.getElem?_eq_getElem (by omega), List.getElem?_eq_getElem (by omega)] at hget
  rw [List.getElem_zip]
  exact Option.some.inj hget

variable {extension : GenericTypeBindings}

theorem layer_complete (hinner : ∀ child : TypeId, child.index < t.index → ∀ c,
      (∀ p, (self.term child).Mentions p → extension.get p ≠ some builtinNone) →
      (self.term child).substitute (extension.terms self) = self.term c →
      ∀ staged : GenericTypeBindings, staged.Extends (self.completed extension) →
        ∃ staged', self.collectTypeParameterBindingsInner child c staged = .ok (true, staged') ∧
          staged'.Extends (self.completed extension))
    (hmentions : ∀ p, (self.term t).Mentions p → extension.get p ≠ some builtinNone)
    (heq : (self.term t).substitute (extension.terms self) = self.term c)
    {staged : GenericTypeBindings} (hstaged : staged.Extends (self.completed extension)) :
    ∃ staged', self.collectTypeParameterBindingsLayer t c staged = .ok (true, staged') ∧
      staged'.Extends (self.completed extension) := by
  rcases self.term_cases t with ⟨p, hp, hterm⟩ | ⟨⟨head, parts⟩, hs, hterm⟩ | ⟨hp, -, hterm⟩
  · obtain ⟨hbound, hne⟩ := completed_of_substitute hp (hmentions p (hterm ▸ .param p)) heq
    obtain ⟨next, hnext, hwithin⟩ := GenericTypeBindings.insertConsistent_within hstaged hbound
    refine ⟨next, ?_, hwithin⟩
    rw [collectTypeParameterBindingsLayer, hp]
    simp only [if_neg hne, hnext]
    rfl
  · have hp := parameter_of_shape hs
    by_cases htc : t = c
    · subst htc
      refine ⟨staged, ?_, hstaged⟩
      rw [collectTypeParameterBindingsLayer, hp]
      simp only [if_pos]
    · -- the concrete type has the same constructor over the instances of the parts
      rw [hterm, Term.substitute_node] at heq
      obtain ⟨parts', hs', hparts⟩ := shape_of_term heq.symm
      rw [collectLayer_eq hp htc, positions_eq_some.2 ⟨head, parts, parts', hs, hs', rfl⟩]
      refine whileMatched_total (fun position hmem a ha => ?_) hstaged
      have hleft := (List.of_mem_zip hmem).1
      refine hinner position.1 (part_lt hs hleft) position.2 (fun p hmention => ?_) ?_ a ha
      · exact hmentions p (hterm ▸ .node (List.mem_map_of_mem hleft) hmention)
      · exact term_of_zip hparts hmem
  · have htc : t = c := by
      rw [hterm, Term.substitute_atom, ← hterm] at heq
      exact self.term_injective heq
    subst htc
    refine ⟨staged, ?_, hstaged⟩
    rw [collectTypeParameterBindingsLayer, hp]
    simp only [if_pos]

theorem inner_complete (self : TypeStore) (extension : GenericTypeBindings) (t c : TypeId)
    (hmentions : ∀ p, (self.term t).Mentions p → extension.get p ≠ some builtinNone)
    (heq : (self.term t).substitute (extension.terms self) = self.term c)
    (staged : GenericTypeBindings) (hstaged : staged.Extends (self.completed extension)) :
    ∃ staged', self.collectTypeParameterBindingsInner t c staged = .ok (true, staged') ∧
      staged'.Extends (self.completed extension) := by
  have hpresent : self.presentPayloadTemplate t c = none := by
    rw [Option.eq_none_iff_forall_ne_some]
    intro payload hpresent
    obtain ⟨hoption, -, -, hconcrete⟩ := presentPayloadTemplate_eq_some.1 hpresent
    rw [term_node (optionInnerType_eq_some.1 hoption), Term.substitute_node] at heq
    obtain ⟨parts', hs', -⟩ := shape_of_term heq.symm
    have hlength : parts'.length = 1 := shape_length hs'
    obtain ⟨inner, rfl⟩ := List.length_eq_one_iff.1 hlength
    rw [optionInnerType_eq_some.2 hs'] at hconcrete
    cases hconcrete
  rw [inner_eq_layer hpresent]
  exact layer_complete
    (fun child hlt c hm he s hs => inner_complete self extension child c hm he s hs)
    hmentions heq hstaged
termination_by t.index

/-! ## What the walk infers -/

theorem tryCollect_ok_true {bindings after : GenericTypeBindings}
    (h : self.tryCollectTypeParameterBindingsTypeid t c bindings = (.ok true, after)) :
    self.collectTypeParameterBindingsInner t c bindings = .ok (true, after) := by
  rw [tryCollectTypeParameterBindingsTypeid] at h
  split at h
  · rename_i staged hstaged
    cases h
    exact hstaged
  · cases h
  · cases h

theorem tryCollect_of_inner {bindings after : GenericTypeBindings}
    (h : self.collectTypeParameterBindingsInner t c bindings = .ok (true, after)) :
    self.tryCollectTypeParameterBindingsTypeid t c bindings = (.ok true, after) := by
  rw [tryCollectTypeParameterBindingsTypeid, h]

theorem tryCollect_unchanged {bindings after : GenericTypeBindings}
    {result : Except BindingConflict Bool} (hresult : result ≠ .ok true)
    (h : self.tryCollectTypeParameterBindingsTypeid t c bindings = (result, after)) :
    after = bindings := by
  rw [tryCollectTypeParameterBindingsTypeid] at h
  split at h
  · cases h
    exact absurd rfl hresult
  · cases h
    rfl
  · cases h
    rfl

/-- Inference binds what it accepts, and accepts every instance of the template that binds no
parameter to `none`.

A position where the template is the concrete type itself binds nothing, so a parameter that
both types mention may stay open; where they mention none together, the bindings instantiate
the whole template, up to one optional layer at each position. -/
theorem generic_inference_exact (self : TypeStore) (template concrete : TypeId)
    (bindings : GenericTypeBindings) :
    (∀ after,
        self.tryCollectTypeParameterBindingsTypeid template concrete bindings = (.ok true, after) →
        bindings.Extends after ∧
        (∀ p, (self.term template).Mentions p → ¬ (self.term concrete).Mentions p →
          (after.get p).isSome) ∧
        self.MatchedUnder after true template concrete ∧
        ((∀ p, (self.term template).Mentions p → ¬ (self.term concrete).Mentions p) →
          Term.UpToPresence optionHead builtinNone true
            ((self.term template).substitute (after.terms self)) (self.term concrete))) ∧
      (∀ result after,
        self.tryCollectTypeParameterBindingsTypeid template concrete bindings = (result, after) →
          result ≠ .ok true → after = bindings) ∧
      (∀ extension : GenericTypeBindings, bindings.Extends extension →
        (∀ p, (self.term template).Mentions p → extension.get p ≠ some builtinNone) →
        (self.term template).substitute (extension.terms self) = self.term concrete →
          (self.tryCollectTypeParameterBindingsTypeid template concrete bindings).1 = .ok true) := by
  refine ⟨fun after h => ?_, fun result after h hresult => tryCollect_unchanged hresult h,
    fun extension hextends hmentions heq => ?_⟩
  · obtain ⟨hextends, hmatched⟩ :=
      self.inner_sound template concrete bindings after (tryCollect_ok_true h)
    refine ⟨hextends, fun p hp hnot => ?_, hmatched, fun hdisjoint => ?_⟩
    · have hbound := Term.Collected.bound hmatched hp hnot
      rw [GenericTypeBindings.terms, Option.isSome_map] at hbound
      exact hbound
    · exact Term.Collected.substitute hmatched hdisjoint
  · obtain ⟨staged, hstaged, -⟩ := self.inner_complete extension template concrete hmentions heq
      bindings (hextends.trans (self.extends_completed extension))
    rw [tryCollect_of_inner hstaged]

/-! ## What it leaves open -/

theorem tryCollect_same (h : self.parameter t = none) (bindings : GenericTypeBindings) :
    self.tryCollectTypeParameterBindingsTypeid t t bindings = (.ok true, bindings) := by
  have hpresent : self.presentPayloadTemplate t t = none := by
    rw [Option.eq_none_iff_forall_ne_some]
    intro payload hpresent
    obtain ⟨hoption, -, -, hconcrete⟩ := presentPayloadTemplate_eq_some.1 hpresent
    rw [hoption] at hconcrete
    cases hconcrete
  refine tryCollect_of_inner ?_
  rw [inner_eq_layer hpresent, collectTypeParameterBindingsLayer, h]
  simp only [if_pos]

theorem tryCollect_none {p : GenericParameterId} (h : self.parameter t = some p)
    (bindings : GenericTypeBindings) :
    self.tryCollectTypeParameterBindingsTypeid t builtinNone bindings = (.ok false, bindings) := by
  have hpresent : self.presentPayloadTemplate t builtinNone = none := by
    rw [Option.eq_none_iff_forall_ne_some]
    exact fun payload hpresent => (presentPayloadTemplate_eq_some.1 hpresent).2.2.1 rfl
  rw [tryCollectTypeParameterBindingsTypeid, inner_eq_layer hpresent,
    collectTypeParameterBindingsLayer, h]
  simp only [if_pos]

instance (self : TypeStore) (id : TypeId) : Decidable (self.Has id) :=
  inferInstanceAs (Decidable (id.index < self.rows.length))

/-- A store with a parameter `T`, the collections `{T}` and `{I32}`. -/
def collectionStore : TypeStore :=
  let withParameter := (new.internGenericParameter ⟨0⟩ ⟨0⟩).2
  let withTemplate := (withParameter.internCollection ⟨18⟩ none (by decide)).2
  (withTemplate.internCollection ⟨7⟩ none (by decide)).2

theorem collectionStore_parameter : collectionStore.parameter ⟨18⟩ = some ⟨0⟩ := rfl

theorem collectionStore_template : collectionStore.shape ⟨19⟩ =
    some (.constructed (.Builtin (.Collection none)) 1, [⟨18⟩]) := rfl

theorem collectionStore_concrete : collectionStore.shape ⟨20⟩ =
    some (.constructed (.Builtin (.Collection none)) 1, [⟨7⟩]) := rfl

theorem collectionStore_mentions : (collectionStore.term ⟨19⟩).Mentions ⟨0⟩ := by
  rw [term_node collectionStore_template]
  refine .node List.mem_cons_self ?_
  rw [term_param collectionStore_parameter]
  exact .param _

/-- `T` bound to one type. -/
def bindT (id : TypeId) : GenericTypeBindings := ⟨fun _ => some id⟩

/-- Not every parameter that an accepted template mentions is bound, and not every instance of
a template is accepted. -/
theorem generic_inference_gaps :
    (¬ ∀ (self : TypeStore) (template concrete : TypeId) (bindings after : GenericTypeBindings),
        self.tryCollectTypeParameterBindingsTypeid template concrete bindings = (.ok true, after) →
          ∀ p, (self.term template).Mentions p → (after.get p).isSome) ∧
      ¬ ∀ (self : TypeStore) (template concrete : TypeId)
        (bindings extension : GenericTypeBindings), bindings.Extends extension →
          (self.term template).substitute (extension.terms self) = self.term concrete →
            (self.tryCollectTypeParameterBindingsTypeid template concrete bindings).1 =
              .ok true := by
  constructor
  · intro h
    have hopen := h collectionStore ⟨19⟩ ⟨19⟩ .new .new (tryCollect_same rfl .new) ⟨0⟩
      collectionStore_mentions
    cases hopen
  · intro h
    have hrefused := h collectionStore ⟨18⟩ builtinNone .new (bindT builtinNone)
      (fun p x hx => by cases hx)
      (by rw [term_param collectionStore_parameter, Term.substitute_param]; rfl)
    rw [tryCollect_none collectionStore_parameter] at hrefused
    cases hrefused

theorem generic_inference_exact_collection :
    (collectionStore.tryCollectTypeParameterBindingsTypeid ⟨19⟩ ⟨20⟩ .new).1 = .ok true := by
  refine (generic_inference_exact collectionStore ⟨19⟩ ⟨20⟩ .new).2.2 (bindT ⟨7⟩)
    (fun p x hx => by cases hx) (fun p _ h => by cases h) ?_
  rw [term_node collectionStore_template, term_node collectionStore_concrete,
    Term.substitute_node, List.map_singleton, List.map_singleton, List.map_singleton,
    term_param collectionStore_parameter, Term.substitute_param]
  rfl

end TypeStore

end Moth.Datatypes
