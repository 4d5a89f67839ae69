import Mathlib.Data.Set.Insert
import Mathlib.Order.Basic

/-!
# The earliest two of a growing set

A set is kept through two of its members only: the earliest by a key, and the
earliest whose colour differs from that one's. The two are enough to go on
from. A new member updates them, although it may take the first place and
change which colour the second must differ from, and so does another set of
which nothing but its own two is known.
-/

namespace Moth.Lib

variable {α κ γ : Type} [LinearOrder κ] (key : α → κ) (colour : α → γ)

/-- The member of `S` with the least key, or `none` of an empty set. -/
def Earliest (S : Set α) : Option α → Prop
  | none => S = ∅
  | some a => a ∈ S ∧ ∀ b ∈ S, key a ≤ key b

/-- The kept member stays unless the new one has a smaller key. -/
def retainEarliest (kept : Option α) (a : α) : Option α :=
  match kept with
  | none => some a
  | some b => if key b ≤ key a then some b else some a

/-- The two kept members after one more. -/
def insertEarliest [DecidableEq γ] (kept : Option α × Option α) (a : α) : Option α × Option α :=
  match kept.1 with
  | none => (some a, kept.2)
  | some b =>
      if colour a = colour b then
        if key a < key b then (some a, kept.2) else kept
      else if key a < key b then (some a, some b)
      else (some b, retainEarliest key kept.2 a)

/-- The members of `S` of another colour than the kept one. -/
def Differing (S : Set α) (kept : Option α) : Set α :=
  {b | b ∈ S ∧ ∃ a, kept = some a ∧ colour b ≠ colour a}

/-- The earliest of `S` and the earliest of another colour. -/
structure EarliestTwo (S : Set α) (kept : Option α × Option α) : Prop where
  first : Earliest key S kept.1
  second : Earliest key (Differing colour S kept.1) kept.2

variable {key colour} {S T : Set α}

theorem Earliest.empty : Earliest key (∅ : Set α) none :=
  rfl

theorem Earliest.eq_none {kept : Option α} (h : Earliest key (∅ : Set α) kept) : kept = none := by
  cases kept with
  | none => rfl
  | some a => exact absurd h.1 (Set.notMem_empty a)

theorem Earliest.retain {kept : Option α} (h : Earliest key S kept) (a : α) :
    Earliest key (insert a S) (retainEarliest key kept a) := by
  cases kept with
  | none =>
      have hS : S = ∅ := h
      subst hS
      refine ⟨Set.mem_insert a ∅, fun b hb => ?_⟩
      rcases Set.mem_insert_iff.mp hb with heq | hb
      · rw [heq]
      · exact absurd hb (Set.notMem_empty b)
  | some b =>
      by_cases hle : key b ≤ key a
      · rw [retainEarliest, if_pos hle]
        refine ⟨Set.mem_insert_of_mem a h.1, fun c hc => ?_⟩
        rcases Set.mem_insert_iff.mp hc with heq | hc
        · rw [heq]
          exact hle
        · exact h.2 c hc
      · rw [retainEarliest, if_neg hle]
        refine ⟨Set.mem_insert a S, fun c hc => ?_⟩
        rcases Set.mem_insert_iff.mp hc with heq | hc
        · rw [heq]
        · exact (le_of_not_ge hle).trans (h.2 c hc)

theorem Earliest.extend {kept : Option α} (h : Earliest key S kept) (hsub : S ⊆ T)
    (hdown : ∀ b ∈ T, ∃ a ∈ S, key a ≤ key b) : Earliest key T kept := by
  cases kept with
  | none =>
      have hS : S = ∅ := h
      show T = ∅
      ext b
      refine ⟨fun hb => ?_, fun hb => absurd hb (Set.notMem_empty b)⟩
      obtain ⟨a, ha, _⟩ := hdown b hb
      rw [hS] at ha
      exact absurd ha (Set.notMem_empty a)
  | some a =>
      refine ⟨hsub h.1, fun b hb => ?_⟩
      obtain ⟨c, hc, hle⟩ := hdown b hb
      exact (h.2 c hc).trans hle

theorem Earliest.exists_le {kept : Option α} (h : Earliest key S kept) {b : α} (hb : b ∈ S) :
    ∃ a, kept = some a ∧ a ∈ S ∧ key a ≤ key b := by
  cases kept with
  | none =>
      have hS : S = ∅ := h
      rw [hS] at hb
      exact absurd hb (Set.notMem_empty b)
  | some a => exact ⟨a, rfl, h.1, h.2 b hb⟩

/-! ## Members that change nothing -/

theorem retainEarliest_some {a b : α} :
    retainEarliest key (some b) a = some b ↔ key b ≤ key a := by
  rw [retainEarliest]
  by_cases hle : key b ≤ key a
  · rw [if_pos hle]
    exact iff_of_true rfl hle
  · rw [if_neg hle]
    refine iff_of_false (fun heq => hle ?_) hle
    rw [Option.some.inj heq]

theorem retainEarliest_keep {kept : Option α} {a : α} (h : retainEarliest key kept a = kept)
    (b : α) : retainEarliest key (retainEarliest key kept b) a = retainEarliest key kept b := by
  cases kept with
  | none => cases h
  | some c =>
      have hle := retainEarliest_some.mp h
      by_cases hcb : key c ≤ key b
      · rw [retainEarliest_some.mpr hcb]
        exact h
      · have hb : retainEarliest key (some c) b = some b := by
          rw [retainEarliest, if_neg hcb]
        rw [hb]
        exact retainEarliest_some.mpr ((le_of_not_ge hcb).trans hle)

theorem retainEarliest_self (kept : Option α) (a : α) :
    retainEarliest key (retainEarliest key kept a) a = retainEarliest key kept a := by
  cases kept with
  | none => exact retainEarliest_some.mpr (le_refl _)
  | some c =>
      by_cases hca : key c ≤ key a
      · rw [retainEarliest_some.mpr hca]
        exact retainEarliest_some.mpr hca
      · have ha : retainEarliest key (some c) a = some a := by
          rw [retainEarliest, if_neg hca]
        rw [ha]
        exact retainEarliest_some.mpr (le_refl _)

/-- When a pair keeps a member out. -/
theorem insertEarliest_eq_self [DecidableEq γ] {kept : Option α × Option α} {a : α} :
    insertEarliest key colour kept a = kept ↔
      ∃ b, kept.1 = some b ∧ key b ≤ key a ∧
        (colour a = colour b ∨ retainEarliest key kept.2 a = kept.2) := by
  obtain ⟨first, second⟩ := kept
  cases first with
  | none => simp [insertEarliest]
  | some b =>
      rw [insertEarliest]
      by_cases hlt : key a < key b
      · have hne : a ≠ b := by
          intro heq
          rw [heq] at hlt
          exact lt_irrefl _ hlt
        refine iff_of_false (fun h => ?_) (fun h => ?_)
        · simp only [if_pos hlt] at h
          split at h
          · exact hne (Option.some.inj (congrArg Prod.fst h))
          · exact hne (Option.some.inj (congrArg Prod.fst h))
        · obtain ⟨c, hc, hle, _⟩ := h
          cases hc
          exact not_lt_of_ge hle hlt
      · simp only [if_neg hlt]
        by_cases hcolour : colour a = colour b
        · rw [if_pos hcolour]
          exact iff_of_true rfl ⟨b, rfl, le_of_not_gt hlt, Or.inl hcolour⟩
        · rw [if_neg hcolour]
          constructor
          · intro h
            exact ⟨b, rfl, le_of_not_gt hlt, Or.inr (congrArg Prod.snd h)⟩
          · intro h
            obtain ⟨c, hc, _, hkeep⟩ := h
            cases hc
            rw [hkeep.resolve_left hcolour]

/-- What a pair kept out once it keeps out for good. -/
theorem insertEarliest_keep [DecidableEq γ] {kept : Option α × Option α} {a : α}
    (h : insertEarliest key colour kept a = kept) (b : α) :
    insertEarliest key colour (insertEarliest key colour kept b) a
      = insertEarliest key colour kept b := by
  obtain ⟨c, hc, hle, hkeep⟩ := insertEarliest_eq_self.mp h
  obtain ⟨first, second⟩ := kept
  have hfirst : first = some c := hc
  subst hfirst
  apply insertEarliest_eq_self.mpr
  rw [insertEarliest]
  by_cases hcolour : colour b = colour c
  · simp only [if_pos hcolour]
    by_cases hlt : key b < key c
    · rw [if_pos hlt]
      refine ⟨b, rfl, hlt.le.trans hle, ?_⟩
      rw [hcolour]
      exact hkeep
    · rw [if_neg hlt]
      exact ⟨c, rfl, hle, hkeep⟩
  · simp only [if_neg hcolour]
    by_cases hlt : key b < key c
    · rw [if_pos hlt]
      exact ⟨b, rfl, hlt.le.trans hle, Or.inr (retainEarliest_some.mpr hle)⟩
    · rw [if_neg hlt]
      refine ⟨c, rfl, hle, ?_⟩
      rcases hkeep with hsame | hsecond
      · exact Or.inl hsame
      · exact Or.inr (retainEarliest_keep hsecond b)

/-- What a pair has taken in it keeps out. -/
theorem insertEarliest_self [DecidableEq γ] (kept : Option α × Option α) (a : α) :
    insertEarliest key colour (insertEarliest key colour kept a) a
      = insertEarliest key colour kept a := by
  obtain ⟨first, second⟩ := kept
  apply insertEarliest_eq_self.mpr
  cases first with
  | none => exact ⟨a, rfl, le_refl _, Or.inl rfl⟩
  | some c =>
      rw [insertEarliest]
      by_cases hcolour : colour a = colour c
      · simp only [if_pos hcolour]
        by_cases hlt : key a < key c
        · rw [if_pos hlt]
          exact ⟨a, rfl, le_refl _, Or.inl rfl⟩
        · rw [if_neg hlt]
          exact ⟨c, rfl, le_of_not_gt hlt, Or.inl hcolour⟩
      · simp only [if_neg hcolour]
        by_cases hlt : key a < key c
        · rw [if_pos hlt]
          exact ⟨a, rfl, le_refl _, Or.inl rfl⟩
        · rw [if_neg hlt]
          exact ⟨c, rfl, le_of_not_gt hlt, Or.inr (retainEarliest_self second a)⟩

namespace EarliestTwo

variable {kept kept' : Option α × Option α}

theorem empty : EarliestTwo key colour (∅ : Set α) (none, none) where
  first := rfl
  second := by
    show Differing colour ∅ none = ∅
    ext b
    exact ⟨fun hb => hb.1, fun hb => absurd hb (Set.notMem_empty b)⟩

/-- One more member. -/
theorem insert [DecidableEq γ] (h : EarliestTwo key colour S kept) (a : α) :
    EarliestTwo key colour (Insert.insert a S) (insertEarliest key colour kept a) := by
  obtain ⟨first, second⟩ := kept
  cases first with
  | none =>
      have hS : S = ∅ := h.first
      have hsecond : second = none := by
        have hdiffering := h.second
        have hnone : Differing colour S none = ∅ := by
          ext b
          refine ⟨fun hb => ?_, fun hb => absurd hb (Set.notMem_empty b)⟩
          obtain ⟨_, c, hc, _⟩ := hb
          cases hc
        rw [hnone] at hdiffering
        exact hdiffering.eq_none
      subst hS hsecond
      constructor
      · have hfirst : Earliest key (∅ : Set α) none := Earliest.empty
        exact hfirst.retain a
      · show Differing colour _ (some a) = ∅
        ext b
        refine ⟨fun hb => ?_, fun hb => absurd hb (Set.notMem_empty b)⟩
        obtain ⟨hmem, c, hc, hne⟩ := hb
        cases hc
        rcases Set.mem_insert_iff.mp hmem with heq | hmem
        · exact absurd (congrArg colour heq) hne
        · exact hmem
  | some b =>
      have hfirst := h.first
      have hsecond := h.second
      by_cases hcolour : colour a = colour b
      · have hset : ∀ c, colour c = colour b →
            Differing colour (Insert.insert a S) (some c) = Differing colour S (some b) := by
          intro c hc
          ext d
          constructor
          · intro hd
            obtain ⟨hmem, e, he, hne⟩ := hd
            cases he
            rw [hc] at hne
            rcases Set.mem_insert_iff.mp hmem with heq | hmem
            · rw [heq] at hne
              exact absurd hcolour hne
            · exact ⟨hmem, b, rfl, hne⟩
          · intro hd
            obtain ⟨hmem, e, he, hne⟩ := hd
            cases he
            rw [← hc] at hne
            exact ⟨Set.mem_insert_of_mem a hmem, c, rfl, hne⟩
        by_cases hlt : key a < key b
        · rw [insertEarliest]
          simp only [if_pos hcolour, if_pos hlt]
          constructor
          · refine ⟨Set.mem_insert a S, fun c hc => ?_⟩
            rcases Set.mem_insert_iff.mp hc with heq | hc
            · rw [heq]
            · exact hlt.le.trans (hfirst.2 c hc)
          · show Earliest key (Differing colour _ (some a)) second
            rw [hset a hcolour]
            exact hsecond
        · rw [insertEarliest]
          simp only [if_pos hcolour, if_neg hlt]
          constructor
          · refine ⟨Set.mem_insert_of_mem a hfirst.1, fun c hc => ?_⟩
            rcases Set.mem_insert_iff.mp hc with heq | hc
            · rw [heq]
              exact le_of_not_gt hlt
            · exact hfirst.2 c hc
          · show Earliest key (Differing colour _ (some b)) second
            rw [hset b rfl]
            exact hsecond
      · by_cases hlt : key a < key b
        · rw [insertEarliest]
          simp only [if_neg hcolour, if_pos hlt]
          constructor
          · refine ⟨Set.mem_insert a S, fun c hc => ?_⟩
            rcases Set.mem_insert_iff.mp hc with heq | hc
            · rw [heq]
            · exact hlt.le.trans (hfirst.2 c hc)
          · -- The old first is of another colour, and earlier than all that came before.
            show Earliest key (Differing colour _ (some a)) (some b)
            refine ⟨⟨Set.mem_insert_of_mem a hfirst.1, a, rfl, Ne.symm hcolour⟩, fun c hc => ?_⟩
            obtain ⟨hmem, e, he, hne⟩ := hc
            cases he
            rcases Set.mem_insert_iff.mp hmem with heq | hmem
            · exact absurd (congrArg colour heq) hne
            · exact hfirst.2 c hmem
        · rw [insertEarliest]
          simp only [if_neg hcolour, if_neg hlt]
          constructor
          · refine ⟨Set.mem_insert_of_mem a hfirst.1, fun c hc => ?_⟩
            rcases Set.mem_insert_iff.mp hc with heq | hc
            · rw [heq]
              exact le_of_not_gt hlt
            · exact hfirst.2 c hc
          · have hset : Differing colour (Insert.insert a S) (some b)
                = Insert.insert a (Differing colour S (some b)) := by
              ext c
              constructor
              · intro hc
                obtain ⟨hmem, e, he, hne⟩ := hc
                cases he
                rcases Set.mem_insert_iff.mp hmem with heq | hmem
                · exact Set.mem_insert_iff.mpr (Or.inl heq)
                · exact Set.mem_insert_of_mem a ⟨hmem, b, rfl, hne⟩
              · intro hc
                rcases Set.mem_insert_iff.mp hc with heq | hc
                · subst heq
                  exact ⟨Set.mem_insert c S, b, rfl, hcolour⟩
                · exact ⟨Set.mem_insert_of_mem a hc.1, hc.2⟩
            show Earliest key (Differing colour _ (some b)) _
            rw [hset]
            exact hsecond.retain a

/-- The members a pair keeps. -/
def keptSet (kept : Option α × Option α) : Set α :=
  {a | kept.1 = some a ∨ kept.2 = some a}

theorem keptSet_subset (h : EarliestTwo key colour S kept) : keptSet kept ⊆ S := by
  intro a ha
  rcases ha with ha | ha
  · have hfirst := h.first
    rw [ha] at hfirst
    exact hfirst.1
  · have hsecond := h.second
    rw [ha] at hsecond
    exact hsecond.1.1

/-- The two that a set keeps stand for all of it, whatever they are added to. -/
theorem of_keptSet (h : EarliestTwo key colour (S ∪ keptSet kept') kept)
    (h' : EarliestTwo key colour T kept') : EarliestTwo key colour (S ∪ T) kept := by
  have hsub : S ∪ keptSet kept' ⊆ S ∪ T :=
    Set.union_subset_union_right S h'.keptSet_subset
  constructor
  · refine h.first.extend hsub fun b hb => ?_
    rcases hb with hb | hb
    · exact ⟨b, Or.inl hb, le_refl _⟩
    · obtain ⟨a, ha, _, hle⟩ := h'.first.exists_le hb
      exact ⟨a, Or.inr (Or.inl ha), hle⟩
  · refine h.second.extend (fun b hb => ⟨hsub hb.1, hb.2⟩) fun b hb => ?_
    obtain ⟨hmem, a, ha, hne⟩ := hb
    rcases hmem with hmem | hmem
    · exact ⟨b, ⟨Or.inl hmem, a, ha, hne⟩, le_refl _⟩
    · obtain ⟨t, ht, _, hle⟩ := h'.first.exists_le hmem
      by_cases hcolour : colour t = colour a
      · -- The kept first is of the wrong colour, so the kept second is not.
        have hb' : b ∈ Differing colour T kept'.1 := ⟨hmem, t, ht, by rw [hcolour]; exact hne⟩
        obtain ⟨u, hu, ⟨_, v, hv, hne'⟩, hle'⟩ := h'.second.exists_le hb'
        rw [ht] at hv
        cases hv
        exact ⟨u, ⟨Or.inr (Or.inr hu), a, ha, by rw [← hcolour]; exact hne'⟩, hle'⟩
      · exact ⟨t, ⟨Or.inr (Or.inl ht), a, ha, hcolour⟩, hle⟩

/-- A pair of a set takes in the pair of another. -/
theorem merge [DecidableEq γ] (h : EarliestTwo key colour S kept)
    (h' : EarliestTwo key colour T kept') :
    EarliestTwo key colour (S ∪ T)
      ((kept'.1.toList ++ kept'.2.toList).foldl (insertEarliest key colour) kept) := by
  refine of_keptSet ?_ h'
  obtain ⟨first, second⟩ := kept'
  have hset : ∀ a, a ∈ S ∪ keptSet (first, second) ↔
      a ∈ S ∨ a ∈ first.toList ++ second.toList := by
    intro a
    show a ∈ S ∨ _ ↔ _
    rw [List.mem_append, Option.mem_toList, Option.mem_toList]
    rfl
  have hfold : ∀ (l : List α) (S : Set α) (kept : Option α × Option α),
      EarliestTwo key colour S kept →
      EarliestTwo key colour {a | a ∈ S ∨ a ∈ l} (l.foldl (insertEarliest key colour) kept) := by
    intro l
    induction l with
    | nil =>
        intro S kept hS
        have hnil : {a | a ∈ S ∨ a ∈ ([] : List α)} = S := by
          ext a
          simp
        rw [hnil]
        exact hS
    | cons a l ih =>
        intro S kept hS
        have hcons : {b | b ∈ S ∨ b ∈ a :: l} = {b | b ∈ Insert.insert a S ∨ b ∈ l} := by
          ext b
          show b ∈ S ∨ b ∈ a :: l ↔ b ∈ Insert.insert a S ∨ b ∈ l
          rw [List.mem_cons, Set.mem_insert_iff, or_left_comm, or_assoc]
        rw [hcons]
        exact ih _ _ (hS.insert a)
  have heq : S ∪ keptSet (first, second) = {a | a ∈ S ∨ a ∈ first.toList ++ second.toList} := by
    ext a
    exact hset a
  rw [heq]
  exact hfold _ S kept h

end EarliestTwo

end Moth.Lib
