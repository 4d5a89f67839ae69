import Mathlib.Data.List.Infix
import Moth.Lib.Interner

/-!
# Hash-consed tries

A trie stored as rows: the first row is the root and every other one is an
earlier row extended by one component. Rows are distinct, so a row is known by
the components on the way from the root, and by nothing less.

A merge carries the rows of one trie over to another in their order. What it
collects is a homomorphism, and a homomorphism carries whole paths; it
identifies two paths only if it identifies two components.
-/

namespace Moth.Lib

/-- Distinct rows, each but the first below an earlier one. -/
structure Trie (κ : Type) extends Interner (Option (Nat × κ)) where
  root : entries[0]? = some none
  earlier : ∀ (i p : Nat) (c : κ), entries[i]? = some (some (p, c)) → p < i

namespace Trie

variable {κ : Type} {t : Trie κ}

/-- The components on the way from the root to a row. -/
inductive Spells (t : Trie κ) : Nat → List κ → Prop where
  | root : Spells t 0 []
  | child {i p : Nat} {c : κ} {cs : List κ} (hrow : t.entries[i]? = some (some (p, c)))
      (hparent : Spells t p cs) : Spells t i (cs ++ [c])

theorem eq_zero_of_root {i : Nat} (h : t.entries[i]? = some none) : i = 0 :=
  (Interner.resolve_inj (t := t.toInterner) (List.getElem?_eq_some_iff.1 h).1).1
    (h.trans t.root.symm)

theorem Spells.lt {i : Nat} {cs : List κ} (h : t.Spells i cs) : i < t.len := by
  cases h with
  | root => exact (List.getElem?_eq_some_iff.1 t.root).1
  | child hrow _ => exact (List.getElem?_eq_some_iff.1 hrow).1

theorem Spells.length_le {i : Nat} {cs : List κ} (h : t.Spells i cs) : cs.length ≤ i := by
  induction h with
  | root => exact Nat.le_refl 0
  | child hrow _ ih =>
      have hearlier := t.earlier _ _ _ hrow
      rw [List.length_append, List.length_singleton]
      omega

theorem exists_spells {i : Nat} (h : i < t.len) : ∃ cs, t.Spells i cs := by
  induction i using Nat.strongRecOn with
  | ind i ih =>
      have hrow : t.entries[i]? = some t.entries[i] := List.getElem?_eq_getElem h
      cases hentry : t.entries[i] with
      | none =>
          rw [hentry] at hrow
          rw [eq_zero_of_root hrow]
          exact ⟨[], .root⟩
      | some row =>
          obtain ⟨p, c⟩ := row
          rw [hentry] at hrow
          have hearlier := t.earlier i p c hrow
          obtain ⟨cs, hcs⟩ := ih p hearlier (Nat.lt_trans hearlier h)
          exact ⟨cs ++ [c], .child hrow hcs⟩

theorem Spells.unique {i : Nat} {cs ds : List κ} (h : t.Spells i cs) (h' : t.Spells i ds) :
    cs = ds := by
  induction h generalizing ds with
  | root =>
      cases h' with
      | root => rfl
      | child hrow _ =>
          rw [t.root] at hrow
          cases hrow
  | child hrow _ ih =>
      cases h' with
      | root =>
          rw [t.root] at hrow
          cases hrow
      | child hrow' hparent' =>
          rw [hrow] at hrow'
          cases hrow'
          rw [ih hparent']

theorem Spells.injective {i j : Nat} {cs : List κ} (h : t.Spells i cs) (h' : t.Spells j cs) :
    i = j := by
  induction h generalizing j with
  | root =>
      generalize hds : ([] : List κ) = ds at h'
      cases h' with
      | root => rfl
      | child => exact absurd hds.symm (List.append_ne_nil_of_right_ne_nil _ (List.cons_ne_nil _ _))
  | @child i p c cs hrow _ ih =>
      generalize hds : cs ++ [c] = ds at h'
      cases h' with
      | root => exact absurd hds (List.append_ne_nil_of_right_ne_nil _ (List.cons_ne_nil _ _))
      | @child _ q d ds' hrow' hparent' =>
          obtain ⟨hcs, hc⟩ := List.append_inj' hds rfl
          cases hc
          have hparents : p = q := ih (hcs ▸ hparent')
          subst hparents
          exact (Interner.resolve_inj (t := t.toInterner) (List.getElem?_eq_some_iff.1 hrow).1).1
            (hrow.trans hrow'.symm)

theorem Spells.extends {t' : Trie κ} (hext : t.Extends t'.toInterner) {i : Nat} {cs : List κ}
    (h : t.Spells i cs) : t'.Spells i cs := by
  induction h with
  | root => exact .root
  | child hrow _ ih =>
      exact .child ((hext.resolve (List.getElem?_eq_some_iff.1 hrow).1).trans hrow) ih

theorem Spells.root_inv {cs : List κ} (h : t.Spells 0 cs) : cs = [] := h.unique .root

theorem Spells.concat_inv {i : Nat} {cs : List κ} {c : κ} (h : t.Spells i (cs ++ [c])) :
    ∃ p, t.entries[i]? = some (some (p, c)) ∧ t.Spells p cs := by
  generalize hds : cs ++ [c] = ds at h
  cases h with
  | root => exact absurd hds (List.append_ne_nil_of_right_ne_nil _ (List.cons_ne_nil _ _))
  | child hrow hparent =>
      obtain ⟨hcs, hc⟩ := List.append_inj' hds rfl
      cases hc
      exact ⟨_, hrow, hcs ▸ hparent⟩

/-! ## Growth -/

/-- Append a row below one that is there. -/
def push (t : Trie κ) (p : Nat) (c : κ) (hp : p < t.len) (h : some (p, c) ∉ t.entries) :
    Trie κ where
  toInterner := t.toInterner.push (some (p, c)) h
  root := (List.getElem?_append_left (Nat.lt_of_le_of_lt (Nat.zero_le p) hp)).trans t.root
  earlier i q d hrow := by
    by_cases hi : i < t.entries.length
    · exact t.earlier i q d ((List.getElem?_append_left hi).symm.trans hrow)
    · have hnew : [some (p, c)][i - t.entries.length]? = some (some (q, d)) :=
        (List.getElem?_append_right (by omega)).symm.trans hrow
      rw [List.getElem?_singleton] at hnew
      split at hnew
      · cases hnew
        exact Nat.lt_of_lt_of_le hp (Nat.not_lt.1 hi)
      · cases hnew

variable {p : Nat} {c : κ} {hp : p < t.len} {h : some (p, c) ∉ t.entries}

theorem push_extends : t.Extends (t.push p c hp h).toInterner := List.prefix_append _ _

theorem push_row : (t.push p c hp h).entries[t.len]? = some (some (p, c)) :=
  List.getElem?_concat_length

theorem spells_push {i : Nat} {cs : List κ} (hspells : (t.push p c hp h).Spells i cs) :
    t.Spells i cs ∨ i = t.len ∧ ∃ ds, t.Spells p ds ∧ cs = ds ++ [c] := by
  by_cases hi : i < t.len
  · obtain ⟨ds, hds⟩ := exists_spells hi
    rw [hspells.unique (hds.extends push_extends)]
    exact .inl hds
  · have hlen : (t.push p c hp h).len = t.len + 1 := List.length_append
    have heq : i = t.len := by
      have := hspells.lt
      omega
    obtain ⟨ds, hds⟩ := exists_spells hp
    exact .inr ⟨heq, ds, hds,
      (heq ▸ hspells).unique (.child push_row (hds.extends push_extends))⟩

/-! ## Homomorphisms -/

variable {κ' : Type} {source : Trie κ} {target : Trie κ'}

/-- Rows go to rows, below the row their parent goes to and with a related component. -/
structure Maps (source : Trie κ) (target : Trie κ') (r : Nat → Option Nat)
    (related : κ → κ' → Prop) : Prop where
  root : r 0 = some 0
  child : ∀ i p c, source.entries[i]? = some (some (p, c)) → ∃ i' p' c',
    r i = some i' ∧ r p = some p' ∧ related c c' ∧ target.entries[i']? = some (some (p', c'))

variable {r : Nat → Option Nat} {related : κ → κ' → Prop}

theorem Maps.spells (h : Maps source target r related) {i : Nat} {cs : List κ}
    (hcs : source.Spells i cs) :
    ∃ i' cs', r i = some i' ∧ List.Forall₂ related cs cs' ∧ target.Spells i' cs' := by
  induction hcs with
  | root => exact ⟨0, [], h.root, .nil, .root⟩
  | child hrow _ ih =>
      obtain ⟨p', cs', hp', hrel, hspells⟩ := ih
      obtain ⟨i', q', c', hi', hq', hc', hrow'⟩ := h.child _ _ _ hrow
      rw [hp'] at hq'
      cases hq'
      exact ⟨i', cs' ++ [c'], hi', List.rel_append hrel (.cons hc' .nil), .child hrow' hspells⟩

theorem forall₂_unique {p : κ → Prop} (hrelated : ∀ c d e, p c → p d → related c e →
    related d e → c = d) {cs ds : List κ} {es : List κ'} (hcs : ∀ c ∈ cs, p c)
    (hds : ∀ d ∈ ds, p d) (h : List.Forall₂ related cs es) (h' : List.Forall₂ related ds es) :
    cs = ds := by
  induction h generalizing ds with
  | nil =>
      cases h'
      rfl
  | cons hhead _ ih =>
      cases h' with
      | cons hhead' htail' =>
          rw [hrelated _ _ _ (hcs _ List.mem_cons_self) (hds _ List.mem_cons_self) hhead hhead',
            ih (fun c hc => hcs c (List.mem_cons_of_mem _ hc))
              (fun d hd => hds d (List.mem_cons_of_mem _ hd)) htail']

/-- The components of a trie. -/
def HasComponent (t : Trie κ) (c : κ) : Prop := ∃ i p : Nat, t.entries[i]? = some (some (p, c))

theorem Spells.hasComponent {i : Nat} {cs : List κ} (h : t.Spells i cs) :
    ∀ c ∈ cs, t.HasComponent c := by
  induction h with
  | root => exact fun c hc => absurd hc List.not_mem_nil
  | child hrow _ ih =>
      intro c hc
      cases List.mem_append.1 hc with
      | inl hin => exact ih c hin
      | inr heq => exact List.mem_singleton.1 heq ▸ ⟨_, _, hrow⟩

theorem Maps.injective (h : Maps source target r related)
    (hrelated : ∀ c d e, source.HasComponent c → source.HasComponent d → related c e →
      related d e → c = d) {i j : Nat} (hi : i < source.len) (hj : j < source.len)
    (heq : r i = r j) : i = j := by
  obtain ⟨cs, hcs⟩ := exists_spells hi
  obtain ⟨ds, hds⟩ := exists_spells hj
  obtain ⟨i', cs', hi', hrel, hspells⟩ := h.spells hcs
  obtain ⟨j', ds', hj', hrel', hspells'⟩ := h.spells hds
  rw [hi', hj'] at heq
  cases heq
  have hsame := hspells.unique hspells'
  subst hsame
  have hpaths := forall₂_unique hrelated hcs.hasComponent hds.hasComponent hrel hrel'
  subst hpaths
  exact hcs.injective hds

/-! ## Merges -/

/-- Rows below the start keep their position and the others are looked up. -/
def remapped (start : Nat) (mapped : List Nat) (i : Nat) : Option Nat :=
  if i < start then some i else mapped[i - start]?

theorem remapped_concat {start : Nat} {mapped : List Nat} {i i' : Nat} (j : Nat)
    (h : remapped start mapped i = some i') :
    remapped start (mapped ++ [j]) i = some i' := by
  rw [remapped] at h ⊢
  by_cases hlt : i < start
  · rw [if_pos hlt] at h ⊢
    exact h
  · rw [if_neg hlt] at h ⊢
    rw [List.getElem?_append_left (List.getElem?_eq_some_iff.1 h).1]
    exact h

/-- The rows behind the start that were carried over so far, and where they went. -/
structure Merged (source : Trie κ) (before after : Trie κ') (related : κ → κ' → Prop)
    (start : Nat) (mapped : List Nat) : Prop where
  grows : before.Extends after.toInterner
  rows : ∀ k j, mapped[k]? = some j → ∃ p c p' c',
    source.entries[start + k]? = some (some (p, c)) ∧ remapped start mapped p = some p' ∧
      related c c' ∧ after.entries[j]? = some (some (p', c'))

variable {before after next : Trie κ'} {start : Nat} {mapped : List Nat}

theorem Merged.nil (source : Trie κ) (before : Trie κ') (related : κ → κ' → Prop)
    (start : Nat) : Merged source before before related start [] where
  grows := Interner.Extends.refl _
  rows k j h := by cases h

theorem Merged.mono {related' : κ → κ' → Prop} (h : Merged source before after related start mapped)
    (hle : ∀ c c', related c c' → related' c c') :
    Merged source before after related' start mapped where
  grows := h.grows
  rows k j hk := by
    obtain ⟨p, c, p', c', hrow, hp, hc, hrow'⟩ := h.rows k j hk
    exact ⟨p, c, p', c', hrow, hp, hle c c' hc, hrow'⟩

theorem Merged.push (h : Merged source before after related start mapped)
    (hgrows : after.Extends next.toInterner) {p p' j : Nat} {c : κ} {c' : κ'}
    (hrow : source.entries[start + mapped.length]? = some (some (p, c)))
    (hp : remapped start mapped p = some p') (hc : related c c')
    (hrow' : next.entries[j]? = some (some (p', c'))) :
    Merged source before next related start (mapped ++ [j]) where
  grows := h.grows.trans hgrows
  rows k i hk := by
    by_cases hlt : k < mapped.length
    · rw [List.getElem?_append_left hlt] at hk
      obtain ⟨q, d, q', d', hold, hq, hd, hold'⟩ := h.rows k i hk
      exact ⟨q, d, q', d', hold, remapped_concat j hq, hd,
        (hgrows.resolve (List.getElem?_eq_some_iff.1 hold').1).trans hold'⟩
    · rw [List.getElem?_append_right (by omega), List.getElem?_singleton] at hk
      split at hk
      · next hzero =>
          cases hk
          have hkeq : k = mapped.length := by omega
          subst hkeq
          exact ⟨p, c, p', c', hrow, remapped_concat j hp, hc, hrow'⟩
      · cases hk

/-- Where the rows below the start are shared, all rows are carried over. -/
theorem Merged.maps (h : Merged source before after related start mapped)
    (hstart : 0 < start) (hlength : start + mapped.length = source.len)
    (hshared : ∀ i < start, ∀ p c, source.entries[i]? = some (some (p, c)) →
      ∃ c', related c c' ∧ before.entries[i]? = some (some (p, c'))) :
    Maps source after (remapped start mapped) related where
  root := if_pos hstart
  child i p c hrow := by
    have hlt : i < source.len := (List.getElem?_eq_some_iff.1 hrow).1
    by_cases hi : i < start
    · obtain ⟨c', hc', hrow'⟩ := hshared i hi p c hrow
      have hp : p < start := Nat.lt_trans (source.earlier i p c hrow) hi
      exact ⟨i, p, c', if_pos hi, if_pos hp, hc',
        (h.grows.resolve (List.getElem?_eq_some_iff.1 hrow').1).trans hrow'⟩
    · have hk : i - start < mapped.length := by omega
      have hget : mapped[i - start]? = some mapped[i - start] := List.getElem?_eq_getElem hk
      obtain ⟨q, d, q', d', hold, hq, hd, hold'⟩ := h.rows _ _ hget
      rw [Nat.add_sub_cancel' (by omega), hrow] at hold
      cases hold
      exact ⟨mapped[i - start], q', d', (if_neg hi).trans hget, hq, hd, hold'⟩

end Trie

end Moth.Lib
