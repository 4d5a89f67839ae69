import Moth.Tokenizer.CursorReads

/-!
# Where a settled cursor moves

Every move of a settled cursor leaves it settled, at the position that the move
is for and behind the same window. The loops towards a position pass one
segment with tokens a turn, and end before they run out of turns.
-/

namespace Moth.Tokenizer

open Moth.Lib

namespace TokenCursor

variable {view : TokenSequenceView} {c : TokenCursor} {s : TokenSequenceRange}

/-- A cursor at another position, behind the same window. -/
structure MovedTo (view : TokenSequenceView) (position : Nat) (c c' : TokenCursor) : Prop where
  settled : Settled view c'
  position : c'.logicalPosition = position
  windowStart : c'.windowStart = c.windowStart
  windowEnd : c'.windowEnd = c.windowEnd

theorem Arriving.movedTo {c' : TokenCursor} {position : Nat} (h : Arriving view c')
    (hposition : c'.logicalPosition = position) (hstart : c'.windowStart = c.windowStart)
    (hend : c'.windowEnd = c.windowEnd) : MovedTo view position c c'.skipEmptySegments := by
  obtain ⟨hsettled, hsame⟩ := skipEmptySegments_settled h
  exact ⟨hsettled, hsame.position.trans hposition, hsame.windowStart.trans hstart,
    hsame.windowEnd.trans hend⟩

/-! ## One token on -/

theorem Settled.stepPast (h : Settled view c) (hs : view.ranges[c.segmentIndex]? = some s) :
    MovedTo view (c.logicalPosition + 1) c
      (c.stepPast ⟨view.tokens.source, s.start, s.stop⟩) := by
  obtain ⟨hlo, hhi, hnext⟩ := h.inside s hs
  have hlt := h.next_lt hs
  have hend := Segment.start_add_width s
  have hfits := view.totalWidth_le
  have hroom := Segment.offset_add_width_le hs
  have hindex := TokenSequenceView.index_lt hs
  rw [← h.start] at hroom
  have hposition : saturatingAdd c.logicalPosition 1 = c.logicalPosition + 1 :=
    saturatingAdd_eq (succ_le_usize (by omega))
  have hsucc : checkedAdd U32_MAX c.next 1 = some (c.next + 1) :=
    checkedAdd_some (Nat.le_trans hlt (TokenSequenceView.stop_le_max hs))
  rw [TokenCursor.stepPast, h.bounds, hsucc, Option.filter_some]
  by_cases hmore : c.next + 1 < s.stop
  · simp only [hmore, decide_true, if_true, hposition]
    refine ⟨⟨⟨rfl, h.tokens, h.length, h.start, h.previous⟩, h.next, ?_, ?_⟩, rfl, rfl, rfl⟩
    · intro t ht
      rw [Option.some.inj (ht.symm.trans hs)]
      refine ⟨Nat.le_succ_of_le hlo, ?_, ?_⟩
      · show c.logicalPosition + 1 < c.segmentStartPosition + s.width
        omega
      · show c.next + 1 = s.start + (c.logicalPosition + 1 - c.segmentStartPosition)
        omega
    · intro hnone
      exact absurd (hnone.symm.trans hs) (by simp)
  · have hoffset := Segment.offset_succ hs
    have hlast := h.succ_position hs hmore
    have hnextIndex : saturatingAdd c.segmentIndex 1 = c.segmentIndex + 1 :=
      saturatingAdd_eq (succ_le_usize (Nat.le_of_lt hindex))
    have hsum : saturatingAdd c.segmentStartPosition (s.stop - s.start) =
        Segment.offset view.ranges (c.segmentIndex + 1) := by
      rw [hoffset, ← h.start]
      exact saturatingAdd_eq (le_usize (by omega))
    simp only [hmore, decide_false, Bool.false_eq_true, if_false, hposition, hnextIndex, hsum]
    have hkept : Kept view { c with
        bounds := .Segmented view
        logicalPosition := c.logicalPosition + 1
        next := s.stop
        previousSegmentIndex := some c.segmentIndex
        segmentIndex := c.segmentIndex + 1
        segmentStartPosition := Segment.offset view.ranges (c.segmentIndex + 1) } :=
      ⟨rfl, h.tokens, h.length, rfl, Segment.PreviousIs.pass hs (by omega)⟩
    refine Arriving.movedTo ⟨hkept, ?_, ?_⟩ rfl rfl rfl
    · intro t ht
      have hafter := view.sound.ascending.stop_le hs ht (Nat.lt_succ_self _)
      refine ⟨Nat.le_trans hafter t.ordered, ?_⟩
      show c.logicalPosition + 1 =
        Segment.offset view.ranges (c.segmentIndex + 1) + (s.stop - t.start)
      rw [Nat.sub_eq_zero_of_le hafter]
      exact hlast
    · intro hnone
      show c.logicalPosition + 1 = _
      rw [hlast]
      exact Segment.offset_of_none hnone

/-! ## To a position -/

theorem moveForward_ok {position turns : Nat} (h : Kept view c)
    (hs : view.ranges[c.segmentIndex]? = some s) (hpos : 0 < s.width)
    (hnext : Segment.NextIs view.ranges (c.segmentIndex + 1) c.nextSegmentIndex)
    (hlo : c.segmentStartPosition ≤ position)
    (hhi : position ≤ Segment.totalWidth view.ranges)
    (hturns : view.ranges.length < turns + c.segmentIndex) :
    ∃ c', moveForward view position turns c = some (.ok (), c') ∧
      MovedTo view position c c' := by
  induction turns generalizing c s with
  | zero =>
      have := (List.getElem?_eq_some_iff.1 hs).1
      omega
  | succ turns ih =>
      have hfits := view.totalWidth_le
      have hend := Segment.start_add_width s
      have hroom := Segment.offset_add_width_le hs
      rw [← h.start] at hroom
      have hsum : checkedAdd USIZE_MAX c.segmentStartPosition s.width =
          some (c.segmentStartPosition + s.width) := checkedAdd_some (le_usize (by omega))
      simp only [moveForward, hs, hsum]
      by_cases hin : position ≤ c.segmentStartPosition + s.width
      · have hplace := segmentPlace_ok hlo hin (TokenSequenceView.stop_le_max hs)
        simp only [if_pos hin, hplace]
        by_cases hlast : position = c.segmentStartPosition + s.width
        · rw [if_pos hlast]
          have hkept : Kept view { c with
              next := s.start + (position - c.segmentStartPosition)
              logicalPosition := position } :=
            ⟨h.bounds, h.tokens, h.length, h.start, h.previous⟩
          refine ⟨_, rfl, Arriving.movedTo ⟨hkept, ?_, ?_⟩ rfl rfl rfl⟩
          · intro t ht
            rw [Option.some.inj (ht.symm.trans hs)]
            refine ⟨?_, ?_⟩
            · show s.start + (position - c.segmentStartPosition) ≤ s.stop
              omega
            · show position = c.segmentStartPosition +
                (s.start + (position - c.segmentStartPosition) - s.start)
              omega
          · intro hnone
            exact absurd (hnone.symm.trans hs) (by simp)
        · rw [if_neg hlast]
          refine ⟨_, rfl, ⟨⟨⟨h.bounds, h.tokens, h.length, h.start, h.previous⟩, hnext, ?_, ?_⟩,
            rfl, rfl, rfl⟩⟩
          · intro t ht
            rw [Option.some.inj (ht.symm.trans hs)]
            exact ⟨hlo, Nat.lt_of_le_of_ne hin hlast, rfl⟩
          · intro hnone
            exact absurd (hnone.symm.trans hs) (by simp)
      · rw [if_neg hin]
        have hoffset := Segment.offset_succ hs
        rw [← h.start] at hoffset
        cases hj : c.nextSegmentIndex with
        | none =>
            rw [hj] at hnext
            have hall : Segment.offset view.ranges (c.segmentIndex + 1) =
              Segment.totalWidth view.ranges := hnext
            omega
        | some j =>
            rw [hj] at hnext
            obtain ⟨t, ht, htpos, hle, hstart⟩ := hnext
            rw [hoffset] at hstart
            simp only [ht, Option.bind_eq_bind, Option.bind_some]
            have hkept : Kept view { c with
                previousSegmentIndex := some c.segmentIndex
                segmentIndex := j
                segmentStartPosition := c.segmentStartPosition + s.width
                next := t.start
                nextSegmentIndex := nextNonEmptySegment view.ranges (j + 1) } :=
              ⟨h.bounds, h.tokens, h.length, hstart.symm, s, hs, hpos, hle, by
                rw [← h.start, hstart]⟩
            obtain ⟨c', hrun, hmoved⟩ := ih hkept ht htpos (nextNonEmptySegment_is _ _)
              (Nat.le_of_not_le hin) (by
                show view.ranges.length < turns + j
                omega)
            exact ⟨c', hrun, hmoved.settled, hmoved.position, hmoved.windowStart,
              hmoved.windowEnd⟩

theorem moveBackward_ok {position turns : Nat} (h : Kept view c)
    (hnext : Segment.NextIs view.ranges (c.segmentIndex + 1) c.nextSegmentIndex)
    (hhi : ∀ s, view.ranges[c.segmentIndex]? = some s →
      position < c.segmentStartPosition + s.width)
    (hend : view.ranges[c.segmentIndex]? = none → position < Segment.totalWidth view.ranges)
    (hturns : min c.segmentIndex view.ranges.length < turns) :
    ∃ c', moveBackward view position turns c = some (.ok (), c') ∧
      MovedTo view position c c' := by
  induction turns generalizing c with
  | zero => exact absurd hturns (Nat.not_lt_zero _)
  | succ turns ih =>
      by_cases hin : ∃ s, view.ranges[c.segmentIndex]? = some s ∧ c.segmentStartPosition ≤ position
      · obtain ⟨s, hs, hlo⟩ := hin
        have hlt := hhi s hs
        have hplace := segmentPlace_ok hlo (Nat.le_of_lt hlt) (TokenSequenceView.stop_le_max hs)
        rw [moveBackward, hs, Option.filter_some, if_pos (decide_eq_true hlo)]
        simp only [hplace]
        refine ⟨_, rfl, ⟨⟨⟨h.bounds, h.tokens, h.length, h.start, h.previous⟩, hnext, ?_, ?_⟩,
          rfl, rfl, rfl⟩⟩
        · intro t ht
          rw [Option.some.inj (ht.symm.trans hs)]
          exact ⟨hlo, hlt, rfl⟩
        · intro hnone
          exact absurd (hnone.symm.trans hs) (by simp)
      · have hbefore : position < c.segmentStartPosition := by
          cases hs : view.ranges[c.segmentIndex]? with
          | none =>
              rw [h.start, Segment.offset_of_none hs]
              exact hend hs
          | some s => exact Nat.lt_of_not_le fun hlo => hin ⟨s, hs, hlo⟩
        have hfilter : (view.ranges[c.segmentIndex]?).filter
            (fun _ => c.segmentStartPosition ≤ position) = none := by
          rw [Option.filter_eq_none_iff]
          intro s _ hle
          exact absurd (of_decide_eq_true hle) (Nat.not_le_of_lt hbefore)
        have hprevious := h.previous
        rw [moveBackward, hfilter]
        cases hj : c.previousSegmentIndex with
        | none =>
            rw [hj] at hprevious
            have hzero : Segment.offset view.ranges c.segmentIndex = 0 := hprevious
            rw [h.start, hzero] at hbefore
            exact absurd hbefore (Nat.not_lt_zero _)
        | some j =>
            rw [hj] at hprevious
            obtain ⟨t, ht, htpos, hlt, hoffset⟩ := hprevious
            rw [← h.start] at hoffset
            have hmem := (List.getElem?_eq_some_iff.1 ht).1
            have hsub : checkedSub c.segmentStartPosition t.width =
                some (Segment.offset view.ranges j) := by
              rw [checkedSub_some (by omega), ← hoffset, Nat.add_sub_cancel]
            simp only [ht, hsub, Option.bind_eq_bind, Option.bind_some]
            have hkept : Kept view { c with
                segmentIndex := j
                segmentStartPosition := Segment.offset view.ranges j
                next := t.start
                nextSegmentIndex := nextNonEmptySegment view.ranges (j + 1)
                previousSegmentIndex := previousNonEmptySegment view.ranges j } :=
              ⟨h.bounds, h.tokens, h.length, rfl, previousNonEmptySegment_is _ _
                (Nat.le_of_lt hmem)⟩
            obtain ⟨c', hrun, hmoved⟩ := ih hkept (nextNonEmptySegment_is _ _)
              (by
                intro u hu
                rw [Option.some.inj (hu.symm.trans ht)]
                show position < Segment.offset view.ranges j + t.width
                omega)
              (by
                intro hnone
                exact absurd (hnone.symm.trans ht) (by simp))
              (by
                show min j view.ranges.length < turns
                omega)
            exact ⟨c', hrun, hmoved.settled, hmoved.position, hmoved.windowStart,
              hmoved.windowEnd⟩

theorem Settled.setParserPosition (h : Settled view c) {position : Nat}
    (hstart : c.windowStart ≤ position) (hend : position ≤ c.windowEnd)
    (hinside : c.windowEnd ≤ Segment.totalWidth view.ranges) :
    ∃ c', c.setParserPosition position = some (.ok (), c') ∧ MovedTo view position c c' := by
  have hwindow : ¬(position < c.windowStart ∨ c.windowEnd < position) := by omega
  rw [TokenCursor.setParserPosition, h.bounds]
  simp only [if_neg hwindow]
  by_cases hsame : position = c.logicalPosition
  · rw [if_pos hsame]
    exact ⟨c, rfl, h, hsame.symm, rfl, rfl⟩
  · rw [if_neg hsame]
    by_cases hforward : c.logicalPosition < position
    · rw [if_pos hforward]
      cases hs : view.ranges[c.segmentIndex]? with
      | none =>
          have := h.outside hs
          omega
      | some s =>
          obtain ⟨hlo, hhi, -⟩ := h.inside s hs
          exact moveForward_ok h.toKept hs (by omega) h.next (by omega) (by omega) (by omega)
    · rw [if_neg hforward]
      refine moveBackward_ok h.toKept h.next ?_ ?_ (by omega)
      · intro s hs
        obtain ⟨-, hhi, -⟩ := h.inside s hs
        omega
      · intro hnone
        have := h.outside hnone
        omega

/-! ## To a place in the source -/

/-- A place that no range touches is refused; any other is reached at the number of tokens before
it. -/
theorem candidateAt_spec (hlength : c.logicalLength = Segment.totalWidth view.ranges) {place : Nat}
    {rest : List TokenSequenceRange} {i : Nat} {previous : Option Nat}
    (hrest : view.ranges.drop i = rest)
    (hprevious : Segment.PreviousIs view.ranges i previous) :
    (∀ row ∈ rest, ¬(row.start ≤ place ∧ place ≤ row.stop)) ∧
        c.candidateAt view place rest i (Segment.offset view.ranges i) previous = none ∨
      (∃ row ∈ rest, row.start ≤ place ∧ place ≤ row.stop) ∧ ∃ candidate,
        c.candidateAt view place rest i (Segment.offset view.ranges i) previous = some candidate ∧
          Arriving view candidate ∧
          candidate.logicalPosition = Segment.below view.ranges place ∧
          candidate.windowStart = c.windowStart ∧ candidate.windowEnd = c.windowEnd := by
  induction rest generalizing i previous with
  | nil =>
      left
      refine ⟨?_, rfl⟩
      intro row hrow
      exact absurd hrow List.not_mem_nil
  | cons row rest ih =>
      obtain ⟨hget, hdrop⟩ := drop_cons hrest
      have hoffset := Segment.offset_succ hget
      have hroom := Segment.offset_add_width_le hget
      have hfits := view.totalWidth_le
      have hend := Segment.start_add_width row
      rw [candidateAt]
      by_cases htouch : row.start ≤ place ∧ place ≤ row.stop
      · right
        have hbelow := Segment.below_eq view.sound.ascending hget htouch.1 htouch.2
        have hposition : saturatingAdd (Segment.offset view.ranges i) (place - row.start) =
            Segment.offset view.ranges i + (place - row.start) :=
          saturatingAdd_eq (le_usize (by omega))
        rw [if_pos htouch, hposition]
        refine ⟨⟨row, List.mem_cons_self, htouch⟩, _, rfl,
          ⟨⟨rfl, rfl, hlength, rfl, hprevious⟩, ?_, ?_⟩, hbelow.symm, rfl, rfl⟩
        · intro t ht
          rw [Option.some.inj (ht.symm.trans hget)]
          exact ⟨htouch.2, rfl⟩
        · intro hnone
          exact absurd (hnone.symm.trans hget) (by simp)
      · have hsum : saturatingAdd (Segment.offset view.ranges i) row.width =
            Segment.offset view.ranges (i + 1) := by
          rw [saturatingAdd_eq (le_usize (by omega)), hoffset]
        rw [if_neg htouch, hsum]
        rcases ih hdrop (hprevious.step hget) with ⟨hnone, hrun⟩ | ⟨⟨t, ht, htouches⟩, hrun⟩
        · left
          refine ⟨?_, hrun⟩
          intro t ht
          rcases List.mem_cons.1 ht with rfl | hlater
          · exact htouch
          · exact hnone t hlater
        · right
          exact ⟨⟨t, List.mem_cons_of_mem _ ht, htouches⟩, hrun⟩

end TokenCursor

end Moth.Tokenizer
