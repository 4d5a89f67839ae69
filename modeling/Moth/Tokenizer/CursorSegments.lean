import Moth.Tokenizer.Cursor

/-!
# What a segmented cursor keeps

A cursor over a sequence is settled when everything it keeps agrees with its
dense position: the segment is the one the position falls in, and the
neighbours are the nearest segments with tokens. Between two operations a
cursor is settled; within one it may stand at the end of a segment, or at an
empty one, until empty segments are skipped.
-/

namespace Moth.Tokenizer

open Moth.Lib

/-! ## The searches for a neighbour -/

theorem nextNonEmptySegment_is (ranges : List TokenSequenceRange) (start : Nat) :
    Segment.NextIs ranges start (nextNonEmptySegment ranges start) := by
  induction hn : ranges.length - start generalizing start with
  | zero =>
      have hnone : ranges[start]? = none := List.getElem?_eq_none_iff.2 (by omega)
      have hdrop : ranges.zipIdx.drop start = [] := by
        rw [List.drop_eq_nil_iff, List.length_zipIdx]
        omega
      rw [nextNonEmptySegment, hdrop]
      exact Segment.NextIs.ofNone hnone
  | succ n ih =>
      have hlt : start < ranges.length := by omega
      have hget : ranges[start]? = some ranges[start] := List.getElem?_eq_getElem hlt
      have hdrop : ranges.zipIdx.drop start =
          (ranges[start], start) :: ranges.zipIdx.drop (start + 1) := by
        rw [List.drop_eq_getElem_cons (by rw [List.length_zipIdx]; exact hlt),
          List.getElem_zipIdx, Nat.zero_add]
      rw [nextNonEmptySegment, hdrop, List.findSome?_cons]
      by_cases hempty : ranges[start].start = ranges[start].stop
      · rw [if_neg (not_not_intro hempty)]
        exact (ih (start + 1) (by omega)).passEmpty hget (Segment.width_eq_zero.2 hempty)
      · rw [if_pos hempty]
        refine Segment.NextIs.here hget (Nat.pos_of_ne_zero ?_)
        intro hzero
        exact hempty (Segment.width_eq_zero.1 hzero)

theorem previousNonEmptySegment_is (ranges : List TokenSequenceRange) (before : Nat)
    (h : before ≤ ranges.length) :
    Segment.PreviousIs ranges before (previousNonEmptySegment ranges before) := by
  induction before with
  | zero => exact Segment.PreviousIs.zero
  | succ index ih =>
      have hget : ranges[index]? = some ranges[index] := List.getElem?_eq_getElem h
      rw [previousNonEmptySegment, hget, Option.any_some]
      by_cases hempty : ranges[index].start = ranges[index].stop
      · rw [if_neg (by simpa using hempty)]
        exact (ih (Nat.le_of_succ_le h)).passEmpty hget (Segment.width_eq_zero.2 hempty)
      · rw [if_pos (by simpa using hempty)]
        refine Segment.PreviousIs.pass hget (Nat.pos_of_ne_zero ?_)
        intro hzero
        exact hempty (Segment.width_eq_zero.1 hzero)

/-! ## Views -/

namespace TokenSequenceStore

theorem Holds.of_ranges {store : TokenSequenceStore}
    {sequences : List (List TokenSequenceRange)} (h : store.Holds sequences)
    {id : TokenSequenceId} {rows : List TokenSequenceRange} (hrows : store.ranges id = .ok rows) :
    rows ∈ sequences := by
  obtain ⟨raw⟩ := id
  cases raw with
  | zero => cases hrows
  | succ i =>
      by_cases hlt : i < sequences.length
      · have hget : sequences[i]? = some sequences[i] := List.getElem?_eq_getElem hlt
        rw [h.ranges_eq hget] at hrows
        cases hrows
        exact List.getElem_mem hlt
      · have hnone : store.sequenceOffsets[i + 1]? = none := by
          rw [List.getElem?_eq_none_iff, h.offsetCount]
          omega
        simp [TokenSequenceStore.ranges, TokenSequenceId.index, hnone] at hrows

end TokenSequenceStore

namespace TokenSequenceView

theorem sound (view : TokenSequenceView) : view.Sound := by
  obtain ⟨sequences, hholds⟩ := view.tokens.storeHolds
  have hmem := hholds.of_ranges view.valid
  refine ⟨hholds.ascending _ hmem, ?_, ?_⟩
  · intro row hrow
    have := hholds.inside _ hmem row hrow
    rwa [view.tokens.storeLength] at this
  · have hlength := (List.sublist_flatten_of_mem hmem).length_le
    rw [← hholds.rows] at hlength
    exact Nat.le_trans hlength hholds.fits

variable (view : TokenSequenceView)

theorem totalWidth_le : Segment.totalWidth view.ranges ≤ U32_MAX := by
  have h := view.sound.ascending.add_totalWidth_le (Nat.zero_le view.tokens.len)
    (fun _ _ => Nat.zero_le _) view.sound.inside
  rw [Nat.zero_add] at h
  exact Nat.le_trans h view.tokens.tokenStoreLengthFits

variable {view} {i : Nat} {s : TokenSequenceRange}

theorem stop_le (h : view.ranges[i]? = some s) : s.stop ≤ view.tokens.len :=
  view.sound.inside s (List.mem_of_getElem? h)

theorem stop_le_max (h : view.ranges[i]? = some s) : s.stop ≤ U32_MAX :=
  Nat.le_trans (stop_le h) view.tokens.tokenStoreLengthFits

theorem rangeAt_some (h : view.ranges[i]? = some s) :
    (view.rangeAt i).toOption = some ⟨view.tokens.source, s.start, s.stop⟩ := by
  rw [rangeAt, h]
  rfl

theorem rangeAt_none (h : view.ranges[i]? = none) : (view.rangeAt i).toOption = none := by
  rw [rangeAt, h]
  rfl

theorem index_lt (h : view.ranges[i]? = some s) : i < U32_MAX :=
  Nat.lt_of_lt_of_le (List.getElem?_eq_some_iff.1 h).1 view.sound.few

end TokenSequenceView

/-! ## Arithmetic that does not overflow -/

theorem checkedAdd_some {most a b : Nat} (h : a + b ≤ most) :
    checkedAdd most a b = some (a + b) := if_pos h

theorem checkedSub_some {a b : Nat} (h : b ≤ a) : checkedSub a b = some (a - b) := if_pos h

theorem saturatingAdd_eq {a b : Nat} (h : a + b ≤ USIZE_MAX) : saturatingAdd a b = a + b :=
  Nat.min_eq_left h

theorem le_usize {a : Nat} (h : a ≤ U32_MAX) : a ≤ USIZE_MAX :=
  Nat.le_trans h (by decide)

theorem succ_le_usize {a : Nat} (h : a ≤ U32_MAX) : a + 1 ≤ USIZE_MAX :=
  Nat.le_trans (Nat.succ_le_succ h) (by decide)

theorem segmentPlace_ok {range : TokenSequenceRange} {segmentStart position : Nat}
    (hlo : segmentStart ≤ position) (hhi : position ≤ segmentStart + range.width)
    (hstop : range.stop ≤ U32_MAX) :
    segmentPlace range segmentStart position = .ok (range.start + (position - segmentStart)) := by
  have hend := Segment.start_add_width range
  have hsmall : ¬U32_MAX < position - segmentStart := by omega
  have hsum : range.start + (position - segmentStart) ≤ U32_MAX := by omega
  simp only [segmentPlace, checkedSub_some hlo, if_neg hsmall, checkedAdd_some hsum]

namespace TokenCursor

/-! ## Settled cursors -/

/-- What the cursor keeps about its segment and the ones beside it. -/
structure Kept (view : TokenSequenceView) (c : TokenCursor) : Prop where
  bounds : c.bounds = .Segmented view
  tokens : c.tokens = view.tokens
  length : c.logicalLength = Segment.totalWidth view.ranges
  start : c.segmentStartPosition = Segment.offset view.ranges c.segmentIndex
  previous : Segment.PreviousIs view.ranges c.segmentIndex c.previousSegmentIndex

/-- The segment is the one that the dense position falls in. -/
structure Settled (view : TokenSequenceView) (c : TokenCursor) : Prop extends Kept view c where
  next : Segment.NextIs view.ranges (c.segmentIndex + 1) c.nextSegmentIndex
  inside : ∀ s, view.ranges[c.segmentIndex]? = some s →
    c.segmentStartPosition ≤ c.logicalPosition ∧
      c.logicalPosition < c.segmentStartPosition + s.width ∧
      c.next = s.start + (c.logicalPosition - c.segmentStartPosition)
  outside : view.ranges[c.segmentIndex]? = none →
    c.logicalPosition = Segment.totalWidth view.ranges

/-- The position is in the segment, or at its end, or the segment has no tokens. -/
structure Arriving (view : TokenSequenceView) (c : TokenCursor) : Prop extends Kept view c where
  inside : ∀ s, view.ranges[c.segmentIndex]? = some s → c.next ≤ s.stop ∧
    c.logicalPosition = c.segmentStartPosition + (c.next - s.start)
  outside : view.ranges[c.segmentIndex]? = none →
    c.logicalPosition = Segment.totalWidth view.ranges

/-- The second cursor is at the dense position of the first, behind the same window. -/
structure SamePlace (c c' : TokenCursor) : Prop where
  position : c'.logicalPosition = c.logicalPosition
  windowStart : c'.windowStart = c.windowStart
  windowEnd : c'.windowEnd = c.windowEnd

variable {view : TokenSequenceView} {c c' : TokenCursor}

theorem skipEmptyFrom_settled {rest : List TokenSequenceRange} (h : Arriving view c)
    (hrest : view.ranges.drop c.segmentIndex = rest) :
    Settled view (skipEmptyFrom view.ranges rest c) ∧
      SamePlace c (skipEmptyFrom view.ranges rest c) := by
  induction rest generalizing c with
  | nil =>
      have hnone : view.ranges[c.segmentIndex]? = none := by
        rw [List.getElem?_eq_none_iff]
        exact List.drop_eq_nil_iff.1 hrest
      have hoffset := Segment.offset_of_none hnone
      refine ⟨⟨⟨h.bounds, h.tokens, h.length, h.length.trans hoffset.symm, h.previous⟩, ?_, ?_, ?_⟩,
        ⟨rfl, rfl, rfl⟩⟩
      · refine Segment.NextIs.ofNone (List.getElem?_eq_none_iff.2 ?_)
        exact Nat.le_succ_of_le (List.getElem?_eq_none_iff.1 hnone)
      · intro s hs
        exact absurd (hnone.symm.trans hs) (by simp)
      · intro _
        exact h.outside hnone
  | cons range rest ih =>
      have hget : view.ranges[c.segmentIndex]? = some range := by
        rw [← List.head?_drop, hrest]
        rfl
      have hdrop : view.ranges.drop (c.segmentIndex + 1) = rest := by
        rw [← List.tail_drop, hrest]
        rfl
      obtain ⟨hstop, hposition⟩ := h.inside range hget
      have hend := Segment.start_add_width range
      have hroom := Segment.offset_add_width_le hget
      have hfits := view.totalWidth_le
      have hstart := h.start
      obtain ⟨place, hplace, hlow, hkept⟩ : ∃ place : Nat,
          (if c.next < range.start then range.start else c.next) = place ∧
            range.start ≤ place ∧ place - range.start = c.next - range.start := by
        by_cases hbefore : c.next < range.start
        · exact ⟨range.start, if_pos hbefore, Nat.le_refl _, by omega⟩
        · exact ⟨c.next, if_neg hbefore, Nat.le_of_not_lt hbefore, rfl⟩
      have hhigh : place ≤ range.stop := by omega
      rw [skipEmptyFrom]
      simp only [hplace]
      by_cases hmore : place < range.stop
      · rw [if_pos hmore]
        refine ⟨⟨⟨h.bounds, h.tokens, h.length, h.start, h.previous⟩,
          nextNonEmptySegment_is _ _, ?_, ?_⟩, ⟨rfl, rfl, rfl⟩⟩
        · intro s hs
          rw [Option.some.inj (hs.symm.trans hget)]
          refine ⟨?_, ?_, ?_⟩
          · show c.segmentStartPosition ≤ c.logicalPosition
            omega
          · show c.logicalPosition < c.segmentStartPosition + range.width
            omega
          · show place = range.start + (c.logicalPosition - c.segmentStartPosition)
            omega
        · intro hnone
          exact absurd (hnone.symm.trans hget) (by simp)
      · rw [if_neg hmore]
        have hlast : c.logicalPosition = c.segmentStartPosition + range.width := by omega
        have hoffset := Segment.offset_succ hget
        have hindex := TokenSequenceView.index_lt hget
        have hsucc : saturatingAdd c.segmentIndex 1 = c.segmentIndex + 1 :=
          saturatingAdd_eq (succ_le_usize (Nat.le_of_lt hindex))
        have hsum : saturatingAdd c.segmentStartPosition range.width =
            Segment.offset view.ranges (c.segmentIndex + 1) := by
          rw [saturatingAdd_eq (le_usize (by omega)), hoffset, hstart]
        rw [hsucc, hsum]
        have harriving : Arriving view { c with
            previousSegmentIndex :=
              if range.start ≠ range.stop then some c.segmentIndex else c.previousSegmentIndex
            segmentIndex := c.segmentIndex + 1
            segmentStartPosition := Segment.offset view.ranges (c.segmentIndex + 1)
            next := (rest.head?.map (·.start)).getD range.stop } := by
          refine ⟨⟨h.bounds, h.tokens, h.length, rfl, h.previous.step hget⟩, ?_, ?_⟩
          · intro s hs
            have hhead : rest.head? = some s := by
              rw [← hdrop, List.head?_drop]
              exact hs
            refine ⟨?_, ?_⟩
            · show (rest.head?.map (·.start)).getD range.stop ≤ s.stop
              rw [hhead]
              exact s.ordered
            · show c.logicalPosition = Segment.offset view.ranges (c.segmentIndex + 1) +
                ((rest.head?.map (·.start)).getD range.stop - s.start)
              rw [hhead, hlast, hoffset, hstart]
              show _ = _ + (s.start - s.start)
              rw [Nat.sub_self, Nat.add_zero]
          · intro hnone
            show c.logicalPosition = _
            rw [hlast, hstart, ← hoffset]
            exact Segment.offset_of_none hnone
        obtain ⟨hsettled, hsame⟩ := ih harriving hdrop
        exact ⟨hsettled, ⟨hsame.position, hsame.windowStart, hsame.windowEnd⟩⟩

theorem skipEmptySegments_settled (h : Arriving view c) :
    Settled view c.skipEmptySegments ∧ SamePlace c c.skipEmptySegments := by
  unfold skipEmptySegments
  rw [h.bounds]
  exact skipEmptyFrom_settled h rfl

end TokenCursor

end Moth.Tokenizer
