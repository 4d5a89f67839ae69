import Mathlib.Data.List.Zip

/-!
# Terms with parameters

First-order terms over constructors, atoms and parameters: substitution, the
parameters a term mentions, and matching a template against a term.

Matching here is not quite instantiation. One constructor marks a value that
may be missing, and a template under that constructor also takes a term that
is plainly present; at each position of a term one such layer may be filled.
A second liberty is that a template is taken to match itself, whatever
parameters it mentions.
-/

namespace Moth.Lib

universe u

inductive Term (Head Atom Param : Type u) where
  | atom (a : Atom)
  | param (p : Param)
  | node (head : Head) (args : List (Term Head Atom Param))

namespace Term

variable {Head Atom Param : Type u}

theorem induct {motive : Term Head Atom Param → Prop} (atom : ∀ a, motive (.atom a))
    (param : ∀ p, motive (.param p))
    (node : ∀ head args, (∀ a ∈ args, motive a) → motive (.node head args)) : ∀ t, motive t
  | .atom a => atom a
  | .param p => param p
  | .node head args => node head args fun a _ => induct atom param node a

def substitute (σ : Param → Option (Term Head Atom Param)) :
    Term Head Atom Param → Term Head Atom Param
  | .atom a => .atom a
  | .param p => (σ p).getD (.param p)
  | .node head args => .node head (args.map (substitute σ))

@[simp] theorem substitute_atom (σ : Param → Option (Term Head Atom Param)) (a : Atom) :
    substitute σ (.atom a : Term Head Atom Param) = .atom a := by
  rw [substitute]

@[simp] theorem substitute_param (σ : Param → Option (Term Head Atom Param)) (p : Param) :
    substitute σ (.param p) = (σ p).getD (.param p) := by
  rw [substitute]

@[simp] theorem substitute_node (σ : Param → Option (Term Head Atom Param)) (head : Head)
    (args : List (Term Head Atom Param)) :
    substitute σ (.node head args) = .node head (args.map (substitute σ)) := by
  rw [substitute]

inductive Mentions : Term Head Atom Param → Param → Prop where
  | param (p : Param) : Mentions (.param p) p
  | node {head : Head} {args : List (Term Head Atom Param)} {a : Term Head Atom Param} {p : Param}
      (mem : a ∈ args) (h : Mentions a p) : Mentions (.node head args) p

theorem substitute_of_not_mentions {σ : Param → Option (Term Head Atom Param)}
    {t : Term Head Atom Param} (h : ∀ p, ¬ Mentions t p) : substitute σ t = t := by
  induction t using induct with
  | atom a => exact substitute_atom σ a
  | param p => exact absurd (.param p) (h p)
  | node head args ih =>
      rw [substitute_node]
      congr 1
      rw [List.map_congr_left (g := id)]
      · exact List.map_id args
      · intro a ha
        exact ih a ha fun p hp => h p (.node ha hp)

theorem eq_of_map_eq {α β : Type u} {f : α → β} {as bs : List α}
    (hinj : ∀ a ∈ as, ∀ b, f a = f b → a = b) (h : as.map f = bs.map f) : as = bs := by
  induction as generalizing bs with
  | nil => exact (List.map_eq_nil_iff.1 h.symm).symm
  | cons a as ih =>
      cases bs with
      | nil => cases h
      | cons b bs =>
          rw [List.map_cons, List.map_cons, List.cons.injEq] at h
          rw [hinj a List.mem_cons_self b h.1,
            ih (fun a ha => hinj a (List.mem_cons_of_mem _ ha)) h.2]

/-! ## One optional layer at each position -/

section Matching

variable (optional : Head) (absent : Atom)

/-- A term that is neither missing nor marked as possibly missing. -/
def Present (t : Term Head Atom Param) : Prop :=
  t ≠ .atom absent ∧ ∀ args, t ≠ .node optional args

/-- The first term is the second up to one optional layer at each position. The flag says
whether the layer of this position may still be filled. -/
inductive UpToPresence : Bool → Term Head Atom Param → Term Head Atom Param → Prop where
  | atom {lifts : Bool} (a : Atom) : UpToPresence lifts (.atom a) (.atom a)
  | param {lifts : Bool} (p : Param) : UpToPresence lifts (.param p) (.param p)
  | node {lifts : Bool} {head : Head} {args args' : List (Term Head Atom Param)}
      (length_eq : args.length = args'.length)
      (h : ∀ pair ∈ args.zip args', UpToPresence true pair.1 pair.2) :
      UpToPresence lifts (.node head args) (.node head args')
  | present {payload t : Term Head Atom Param} (present : Present optional absent t)
      (h : UpToPresence false payload t) : UpToPresence true (.node optional [payload]) t

theorem UpToPresence.refl (t : Term Head Atom Param) :
    ∀ lifts, UpToPresence optional absent lifts t t := by
  induction t using induct with
  | atom a => exact fun _ => .atom a
  | param p => exact fun _ => .param p
  | node head args ih =>
      intro lifts
      refine .node rfl fun pair hpair => ?_
      obtain ⟨i, hi, rfl⟩ := List.getElem_of_mem hpair
      rw [List.getElem_zip]
      exact ih _ (List.getElem_mem _) true

/-- The template matches the term under the bindings `σ`. -/
inductive Collected (σ : Param → Option (Term Head Atom Param)) :
    Bool → Term Head Atom Param → Term Head Atom Param → Prop where
  | param {lifts : Bool} {p : Param} {t : Term Head Atom Param} (bound : σ p = some t)
      (present : t ≠ .atom absent) : Collected σ lifts (.param p) t
  | same {lifts : Bool} {t : Term Head Atom Param} (ne : ∀ p, t ≠ .param p) :
      Collected σ lifts t t
  | node {lifts : Bool} {head : Head} {args args' : List (Term Head Atom Param)}
      (length_eq : args.length = args'.length)
      (h : ∀ pair ∈ args.zip args', Collected σ true pair.1 pair.2) :
      Collected σ lifts (.node head args) (.node head args')
  | present {payload t : Term Head Atom Param} (mentioned : ∃ p, Mentions payload p)
      (present : Present optional absent t) (h : Collected σ false payload t) :
      Collected σ true (.node optional [payload]) t

variable {optional absent} {σ τ : Param → Option (Term Head Atom Param)} {lifts : Bool}
  {template t : Term Head Atom Param}

theorem Collected.mono (h : Collected optional absent σ lifts template t)
    (hle : ∀ p x, σ p = some x → τ p = some x) : Collected optional absent τ lifts template t := by
  induction h with
  | param bound present => exact .param (hle _ _ bound) present
  | same ne => exact .same ne
  | node length_eq _ ih => exact .node length_eq ih
  | present mentioned present _ ih => exact .present mentioned present ih

theorem exists_zip_of_mem {α β : Type u} {as : List α} {bs : List β} (h : as.length = bs.length)
    {a : α} (ha : a ∈ as) : ∃ b, (a, b) ∈ as.zip bs := by
  obtain ⟨i, hi, rfl⟩ := List.getElem_of_mem ha
  have hi' : i < bs.length := h ▸ hi
  refine ⟨bs[i], ?_⟩
  rw [List.mem_iff_getElem]
  exact ⟨i, by rw [List.length_zip]; omega, List.getElem_zip⟩

theorem Collected.bound (h : Collected optional absent σ lifts template t) {p : Param}
    (hp : Mentions template p) (hnot : ¬ Mentions t p) : (σ p).isSome := by
  induction h with
  | param bound _ =>
      cases hp
      rw [bound]
      rfl
  | same _ => exact absurd hp hnot
  | node length_eq _ ih =>
      cases hp with
      | node mem hp =>
          obtain ⟨b, hb⟩ := exists_zip_of_mem length_eq mem
          exact ih _ hb hp fun hq => hnot (.node (List.of_mem_zip hb).2 hq)
  | present _ _ _ ih =>
      cases hp with
      | node mem hp =>
          rw [List.mem_singleton] at mem
          subst mem
          exact ih hp hnot

/-- Where no parameter is mentioned on both sides, the bindings instantiate the template to
the term up to optional layers. -/
theorem Collected.substitute (h : Collected optional absent σ lifts template t)
    (hdisjoint : ∀ p, Mentions template p → ¬ Mentions t p) :
    UpToPresence optional absent lifts (template.substitute σ) t := by
  induction h with
  | param bound _ =>
      rw [substitute_param, bound]
      exact .refl _ _ _ _
  | same _ =>
      rw [substitute_of_not_mentions fun p hp => hdisjoint p hp hp]
      exact .refl _ _ _ _
  | node length_eq _ ih =>
      rw [substitute_node]
      refine .node (by rw [List.length_map]; exact length_eq) fun pair hpair => ?_
      rw [List.zip_map_left, List.mem_map] at hpair
      obtain ⟨source, hsource, rfl⟩ := hpair
      obtain ⟨hleft, hright⟩ := List.of_mem_zip hsource
      exact ih source hsource fun p hp hq => hdisjoint p (.node hleft hp) (.node hright hq)
  | present _ present _ ih =>
      rw [substitute_node, List.map_singleton]
      exact .present present
        (ih fun p hp => hdisjoint p (.node List.mem_cons_self hp))

end Matching

end Term

end Moth.Lib
