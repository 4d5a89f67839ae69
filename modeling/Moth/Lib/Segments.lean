import Mathlib.Algebra.Order.Ring.Nat
import Mathlib.Algebra.BigOperators.Group.List.Basic

/-!
# Runs of positions laid end to end

A segment is a half-open run of positions. A list of segments reads as one flat
list of positions, in which a segment begins at the total width of the ones
before it; empty segments take no room there.
-/

namespace Moth.Lib

structure Segment where
  start : Nat
  stop : Nat
  ordered : start ≤ stop
deriving DecidableEq

namespace Segment

def width (s : Segment) : Nat := s.stop - s.start

def cells (s : Segment) : List Nat := List.range' s.start s.width

/-- The positions of all segments, in order. -/
def flatten (segs : List Segment) : List Nat := segs.flatMap cells

def totalWidth (segs : List Segment) : Nat := (segs.map width).sum

/-- Where segment `i` begins in the flat list. -/
def offset (segs : List Segment) (i : Nat) : Nat := totalWidth (segs.take i)

/-- No segment begins before an earlier one has ended. -/
def Ascending (segs : List Segment) : Prop := segs.Pairwise fun s t => s.stop ≤ t.start

variable {segs : List Segment} {s : Segment} {i j p : Nat}

theorem start_add_width (s : Segment) : s.start + s.width = s.stop := by
  have := s.ordered
  unfold width
  omega

theorem width_eq_zero : s.width = 0 ↔ s.start = s.stop := by
  have := s.ordered
  unfold width
  omega

@[simp] theorem length_cells (s : Segment) : s.cells.length = s.width := List.length_range'

theorem mem_cells {n : Nat} : n ∈ s.cells ↔ s.start ≤ n ∧ n < s.stop := by
  rw [cells, List.mem_range'_1, start_add_width]

@[simp] theorem flatten_cons (s : Segment) (segs : List Segment) :
    flatten (s :: segs) = s.cells ++ flatten segs := rfl

@[simp] theorem totalWidth_cons (s : Segment) (segs : List Segment) :
    totalWidth (s :: segs) = s.width + totalWidth segs := rfl

@[simp] theorem length_flatten (segs : List Segment) :
    (flatten segs).length = totalWidth segs := by
  induction segs with
  | nil => rfl
  | cons s segs ih => rw [flatten_cons, List.length_append, length_cells, ih, totalWidth_cons]

theorem mem_flatten {n : Nat} : n ∈ flatten segs ↔ ∃ s ∈ segs, s.start ≤ n ∧ n < s.stop := by
  simp only [flatten, List.mem_flatMap, mem_cells]

/-! ## Where segments begin -/

@[simp] theorem offset_zero (segs : List Segment) : offset segs 0 = 0 := rfl

theorem offset_cons_succ (s : Segment) (segs : List Segment) (i : Nat) :
    offset (s :: segs) (i + 1) = s.width + offset segs i := rfl

theorem offset_succ (h : segs[i]? = some s) : offset segs (i + 1) = offset segs i + s.width := by
  induction segs generalizing i with
  | nil => cases h
  | cons t segs ih =>
      cases i with
      | zero =>
          cases h
          rw [offset_cons_succ, offset_zero, offset_zero, Nat.zero_add, Nat.add_zero]
      | succ i => rw [offset_cons_succ, offset_cons_succ, ih h, Nat.add_assoc]

theorem offset_of_none (h : segs[i]? = none) : offset segs i = totalWidth segs := by
  rw [offset, List.take_of_length_le (List.getElem?_eq_none_iff.1 h)]

theorem offset_le_totalWidth (segs : List Segment) (i : Nat) :
    offset segs i ≤ totalWidth segs := by
  induction segs generalizing i with
  | nil => rw [offset, List.take_nil]
  | cons s segs ih =>
      cases i with
      | zero => exact Nat.zero_le _
      | succ i => exact Nat.add_le_add_left (ih i) _

theorem offset_add_width_le (h : segs[i]? = some s) :
    offset segs i + s.width ≤ totalWidth segs := by
  rw [← offset_succ h]
  exact offset_le_totalWidth segs (i + 1)

/-- A position of the flat list, read off the segment it falls in. -/
theorem getElem?_flatten (h : segs[i]? = some s) (hlo : offset segs i ≤ p)
    (hhi : p < offset segs i + s.width) :
    (flatten segs)[p]? = some (s.start + (p - offset segs i)) := by
  induction segs generalizing i p with
  | nil => cases h
  | cons t segs ih =>
      cases i with
      | zero =>
          cases h
          rw [offset_zero, Nat.zero_add] at hhi
          rw [flatten_cons, List.getElem?_append_left (by rwa [length_cells]), cells,
            List.getElem?_range' hhi, Nat.one_mul, offset_zero, Nat.sub_zero]
      | succ i =>
          rw [offset_cons_succ] at hlo hhi ⊢
          have hlen : t.cells.length ≤ p := by
            rw [length_cells]
            omega
          rw [flatten_cons, List.getElem?_append_right hlen, length_cells,
            ih h (by omega) (by omega), Nat.sub_sub]

/-! ## The segments next to a place -/

/-- The last segment before place `i` that is not empty, if there is one. -/
def PreviousIs (segs : List Segment) (i : Nat) : Option Nat → Prop
  | none => offset segs i = 0
  | some j => ∃ s, segs[j]? = some s ∧ 0 < s.width ∧ j < i ∧ offset segs j + s.width = offset segs i

/-- The first segment from place `i` on that is not empty, if there is one. -/
def NextIs (segs : List Segment) (i : Nat) : Option Nat → Prop
  | none => offset segs i = totalWidth segs
  | some j => ∃ s, segs[j]? = some s ∧ 0 < s.width ∧ i ≤ j ∧ offset segs j = offset segs i

theorem PreviousIs.zero : PreviousIs segs 0 none := rfl

theorem PreviousIs.passEmpty {prev : Option Nat} (h : PreviousIs segs i prev)
    (hs : segs[i]? = some s) (hempty : s.width = 0) : PreviousIs segs (i + 1) prev := by
  have hoffset := offset_succ hs
  rw [hempty, Nat.add_zero] at hoffset
  cases prev with
  | none => exact hoffset.trans h
  | some j =>
      obtain ⟨t, ht, hpos, hlt, hend⟩ := h
      exact ⟨t, ht, hpos, Nat.lt_succ_of_lt hlt, hend.trans hoffset.symm⟩

theorem PreviousIs.pass (hs : segs[i]? = some s) (hpos : 0 < s.width) :
    PreviousIs segs (i + 1) (some i) :=
  ⟨s, hs, hpos, Nat.lt_succ_self i, (offset_succ hs).symm⟩

theorem PreviousIs.step {prev : Option Nat} (h : PreviousIs segs i prev)
    (hs : segs[i]? = some s) :
    PreviousIs segs (i + 1) (if s.start ≠ s.stop then some i else prev) := by
  by_cases hempty : s.start = s.stop
  · rw [if_neg (not_not_intro hempty)]
    exact h.passEmpty hs (width_eq_zero.2 hempty)
  · rw [if_pos hempty]
    exact PreviousIs.pass hs (Nat.pos_of_ne_zero fun h => hempty (width_eq_zero.1 h))

theorem NextIs.here (hs : segs[i]? = some s) (hpos : 0 < s.width) : NextIs segs i (some i) :=
  ⟨s, hs, hpos, Nat.le_refl i, rfl⟩

theorem NextIs.passEmpty {next : Option Nat} (h : NextIs segs (i + 1) next)
    (hs : segs[i]? = some s) (hempty : s.width = 0) : NextIs segs i next := by
  have hoffset := offset_succ hs
  rw [hempty, Nat.add_zero] at hoffset
  cases next with
  | none => exact hoffset.symm.trans h
  | some j =>
      obtain ⟨t, ht, hpos, hle, heq⟩ := h
      exact ⟨t, ht, hpos, Nat.le_of_succ_le hle, heq.trans hoffset⟩

theorem NextIs.ofNone (h : segs[i]? = none) : NextIs segs i none := offset_of_none h

/-! ## Ascending segments -/

theorem Ascending.stop_le (h : Ascending segs) {t : Segment} (hs : segs[i]? = some s)
    (ht : segs[j]? = some t) (hlt : i < j) : s.stop ≤ t.start := by
  obtain ⟨hi, rfl⟩ := List.getElem?_eq_some_iff.1 hs
  obtain ⟨hj, rfl⟩ := List.getElem?_eq_some_iff.1 ht
  exact List.pairwise_iff_getElem.1 h i j hi hj hlt

theorem Ascending.add_totalWidth_le (h : Ascending segs) {m n : Nat} (hmn : m ≤ n)
    (hlo : ∀ s ∈ segs, m ≤ s.start) (hhi : ∀ s ∈ segs, s.stop ≤ n) :
    m + totalWidth segs ≤ n := by
  induction segs generalizing m with
  | nil => exact hmn
  | cons s segs ih =>
      obtain ⟨hfirst, hrest⟩ := List.pairwise_cons.1 h
      have hstart := hlo s List.mem_cons_self
      have hstop := hhi s List.mem_cons_self
      have hend := start_add_width s
      have hlater := ih hrest hstop hfirst fun t ht => hhi t (List.mem_cons_of_mem s ht)
      rw [totalWidth_cons]
      omega

/-- How many positions of the flat list lie below `n`. -/
def below (segs : List Segment) (n : Nat) : Nat := (flatten segs).countP fun m => decide (m < n)

theorem countP_cells_of_le {n : Nat} (h : s.stop ≤ n) :
    s.cells.countP (fun m => decide (m < n)) = s.width := by
  rw [List.countP_eq_length.2, length_cells]
  intro m hm
  exact decide_eq_true (Nat.lt_of_lt_of_le (mem_cells.1 hm).2 h)

theorem countP_cells_of_mem {n : Nat} (hlo : s.start ≤ n) (hhi : n ≤ s.stop) :
    s.cells.countP (fun m => decide (m < n)) = n - s.start := by
  have hwidth : s.width = (n - s.start) + (s.stop - n) := by
    unfold width
    omega
  have hstart : s.start + (n - s.start) = n := by omega
  have hleft : (List.range' s.start (n - s.start)).countP (fun m => decide (m < n)) =
      n - s.start := by
    rw [List.countP_eq_length.2, List.length_range']
    intro m hm
    rw [List.mem_range'_1] at hm
    exact decide_eq_true (by omega)
  have hright : (List.range' n (s.stop - n)).countP (fun m => decide (m < n)) = 0 := by
    rw [List.countP_eq_zero]
    intro m hm
    rw [List.mem_range'_1] at hm
    simp only [decide_eq_true_eq]
    omega
  rw [cells, hwidth, ← List.range'_append_1, List.countP_append, hstart, hleft, hright,
    Nat.add_zero]

/-- A position touched by a segment has before it the earlier segments and the part of its own
that comes first. -/
theorem below_eq (h : Ascending segs) (hs : segs[i]? = some s) {n : Nat} (hlo : s.start ≤ n)
    (hhi : n ≤ s.stop) : below segs n = offset segs i + (n - s.start) := by
  induction segs generalizing i with
  | nil => cases hs
  | cons t segs ih =>
      obtain ⟨hfirst, hrest⟩ := List.pairwise_cons.1 h
      rw [below, flatten_cons, List.countP_append]
      cases i with
      | zero =>
          cases hs
          have hlater : (flatten segs).countP (fun m => decide (m < n)) = 0 := by
            rw [List.countP_eq_zero]
            intro m hm
            obtain ⟨u, hu, hle, -⟩ := mem_flatten.1 hm
            have := hfirst u hu
            simp only [decide_eq_true_eq]
            omega
          rw [countP_cells_of_mem hlo hhi, hlater, offset_zero, Nat.add_zero, Nat.zero_add]
      | succ i =>
          have hmem : s ∈ segs := List.mem_of_getElem? hs
          rw [countP_cells_of_le (Nat.le_trans (hfirst s hmem) hlo), offset_cons_succ,
            Nat.add_assoc]
          exact congrArg (t.width + ·) (ih hrest hs)

end Segment

end Moth.Lib
