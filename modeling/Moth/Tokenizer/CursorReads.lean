import Moth.Tokenizer.CursorSegments
import Moth.Tokenizer.FlatCursor

/-!
# What a settled cursor reads

The token at the dense position is at the cursor's place in the source. The one
after it is the next in the segment, or the first of the next segment with
tokens, and the one before it likewise; so every read is a read of the flat
list.
-/

namespace Moth.Tokenizer

open Moth.Lib

namespace TokenCursor

variable {view : TokenSequenceView} {c : TokenCursor} {s : TokenSequenceRange}

theorem token_toOption {tokens : SourceTokens} {n : Nat} (h : n < tokens.len) :
    (tokens.token n).toOption = some ⟨tokens, n⟩ := by
  rw [SourceTokens.token, if_neg (Nat.not_le_of_lt h)]
  rfl

theorem positionInWindow_iff {position : Nat} :
    c.positionInWindow position = true ↔ c.windowStart ≤ position ∧ position < c.windowEnd := by
  rw [positionInWindow, Bool.and_eq_true, decide_eq_true_eq, decide_eq_true_eq]

namespace Settled

variable (h : Settled view c)
include h

theorem parserPosition : c.parserPosition = c.logicalPosition := by
  rw [TokenCursor.parserPosition, h.bounds]

theorem currentRange : c.currentRange = (view.rangeAt c.segmentIndex).toOption := by
  rw [TokenCursor.currentRange, h.bounds]

/-! ## The flat list around the position -/

theorem flatten_current (hs : view.ranges[c.segmentIndex]? = some s) :
    (Segment.flatten view.ranges)[c.logicalPosition]? = some c.next := by
  obtain ⟨hlo, hhi, hnext⟩ := h.inside s hs
  rw [h.start] at hlo hhi hnext
  rw [Segment.getElem?_flatten hs hlo hhi, hnext]

theorem flatten_current_none (hs : view.ranges[c.segmentIndex]? = none) :
    (Segment.flatten view.ranges)[c.logicalPosition]? = none := by
  rw [List.getElem?_eq_none_iff, Segment.length_flatten, h.outside hs]

theorem flatten_next_inside (hs : view.ranges[c.segmentIndex]? = some s)
    (hmore : c.next + 1 < s.stop) :
    (Segment.flatten view.ranges)[c.logicalPosition + 1]? = some (c.next + 1) := by
  obtain ⟨hlo, hhi, hnext⟩ := h.inside s hs
  have hend := Segment.start_add_width s
  rw [h.start] at hlo hhi hnext
  rw [Segment.getElem?_flatten hs (by omega) (by omega)]
  congr 1
  omega

theorem succ_position (hs : view.ranges[c.segmentIndex]? = some s)
    (hlast : ¬c.next + 1 < s.stop) :
    c.logicalPosition + 1 = Segment.offset view.ranges (c.segmentIndex + 1) := by
  obtain ⟨hlo, hhi, hnext⟩ := h.inside s hs
  have hend := Segment.start_add_width s
  have hstart := h.start
  rw [Segment.offset_succ hs]
  omega

theorem flatten_next_none (hs : view.ranges[c.segmentIndex]? = some s)
    (hlast : ¬c.next + 1 < s.stop) (hnone : c.nextSegmentIndex = none) :
    (Segment.flatten view.ranges)[c.logicalPosition + 1]? = none := by
  have hnext := h.next
  rw [hnone] at hnext
  rw [List.getElem?_eq_none_iff, Segment.length_flatten, h.succ_position hs hlast]
  exact Nat.le_of_eq hnext.symm

theorem flatten_next_segment (hs : view.ranges[c.segmentIndex]? = some s)
    (hlast : ¬c.next + 1 < s.stop) {j : Nat} (hj : c.nextSegmentIndex = some j) :
    ∃ t, view.ranges[j]? = some t ∧ t.start < view.tokens.len ∧
      (Segment.flatten view.ranges)[c.logicalPosition + 1]? = some t.start := by
  have hnext := h.next
  rw [hj] at hnext
  obtain ⟨t, ht, hpos, hle, hoffset⟩ := hnext
  have hend := Segment.start_add_width t
  have hstop := TokenSequenceView.stop_le ht
  refine ⟨t, ht, by omega, ?_⟩
  rw [h.succ_position hs hlast, ← hoffset,
    Segment.getElem?_flatten ht (Nat.le_refl _) (Nat.lt_add_of_pos_right hpos), Nat.sub_self,
    Nat.add_zero]

theorem flatten_previous_inside (hs : view.ranges[c.segmentIndex]? = some s)
    (hmore : s.start < c.next) :
    (Segment.flatten view.ranges)[c.logicalPosition - 1]? = some (c.next - 1) := by
  obtain ⟨hlo, hhi, hnext⟩ := h.inside s hs
  rw [h.start] at hlo hhi hnext
  rw [Segment.getElem?_flatten hs (by omega) (by omega)]
  congr 1
  omega

theorem position_eq_offset (hfirst : ∀ s, view.ranges[c.segmentIndex]? = some s →
    ¬s.start < c.next) : c.logicalPosition = Segment.offset view.ranges c.segmentIndex := by
  cases hs : view.ranges[c.segmentIndex]? with
  | none => rw [h.outside hs, Segment.offset_of_none hs]
  | some s =>
      obtain ⟨hlo, hhi, hnext⟩ := h.inside s hs
      have := hfirst s hs
      rw [← h.start]
      omega

theorem position_zero (hfirst : ∀ s, view.ranges[c.segmentIndex]? = some s → ¬s.start < c.next)
    (hnone : c.previousSegmentIndex = none) : c.logicalPosition = 0 := by
  have hprevious := h.previous
  rw [hnone] at hprevious
  rw [h.position_eq_offset hfirst]
  exact hprevious

theorem flatten_previous_segment
    (hfirst : ∀ s, view.ranges[c.segmentIndex]? = some s → ¬s.start < c.next) {j : Nat}
    (hj : c.previousSegmentIndex = some j) :
    ∃ t, view.ranges[j]? = some t ∧ j < c.segmentIndex ∧ t.start < t.stop ∧
      0 < c.logicalPosition ∧
      (Segment.flatten view.ranges)[c.logicalPosition - 1]? = some (t.stop - 1) := by
  have hprevious := h.previous
  rw [hj] at hprevious
  obtain ⟨t, ht, hpos, hlt, hoffset⟩ := hprevious
  have hposition := h.position_eq_offset hfirst
  have hend := Segment.start_add_width t
  refine ⟨t, ht, hlt, by omega, by omega, ?_⟩
  rw [Segment.getElem?_flatten ht (by omega) (by omega)]
  congr 1
  omega

/-! ## Reads inside the window -/

theorem next_lt (hs : view.ranges[c.segmentIndex]? = some s) : c.next < s.stop := by
  obtain ⟨hlo, hhi, hnext⟩ := h.inside s hs
  have hend := Segment.start_add_width s
  omega

theorem current_eq (hwindow : c.positionInWindow c.logicalPosition = true) :
    c.current =
      (Segment.flatten view.ranges)[c.logicalPosition]?.map (TokenRef.mk view.tokens) := by
  rw [current, h.parserPosition, if_pos hwindow, h.currentRange]
  cases hs : view.ranges[c.segmentIndex]? with
  | none => rw [TokenSequenceView.rangeAt_none hs, h.flatten_current_none hs]; rfl
  | some s =>
      have hlt := h.next_lt hs
      have hlen := Nat.lt_of_lt_of_le hlt (TokenSequenceView.stop_le hs)
      rw [TokenSequenceView.rangeAt_some hs, h.flatten_current hs]
      show (if s.stop ≤ c.next then none else (c.tokens.token c.next).toOption) = _
      rw [if_neg (Nat.not_le_of_lt hlt), h.tokens, token_toOption hlen]
      rfl

theorem logicalPosition_le : c.logicalPosition ≤ Segment.totalWidth view.ranges := by
  cases hs : view.ranges[c.segmentIndex]? with
  | none => exact Nat.le_of_eq (h.outside hs)
  | some s =>
      obtain ⟨hlo, hhi, -⟩ := h.inside s hs
      have hroom := Segment.offset_add_width_le hs
      rw [← h.start] at hroom
      omega

theorem parserPeekNext_eq (hwindow : c.positionInWindow (c.logicalPosition + 1) = true)
    (hinside : c.windowEnd ≤ Segment.totalWidth view.ranges) :
    c.parserPeekNext =
      (Segment.flatten view.ranges)[c.logicalPosition + 1]?.map (TokenRef.mk view.tokens) := by
  have hfits := view.totalWidth_le
  have hend := (positionInWindow_iff.1 hwindow).2
  have hsucc : checkedAdd USIZE_MAX c.logicalPosition 1 = some (c.logicalPosition + 1) :=
    checkedAdd_some (le_usize (by omega))
  rw [parserPeekNext, h.parserPosition, hsucc, h.bounds]
  show (if c.positionInWindow (c.logicalPosition + 1) = true then c.segmentPeekNext view
    else none) = _
  rw [if_pos hwindow, segmentPeekNext, h.currentRange]
  cases hs : view.ranges[c.segmentIndex]? with
  | none =>
      have := h.outside hs
      omega
  | some s =>
      have hlt := h.next_lt hs
      have hmax := TokenSequenceView.stop_le_max hs
      have hnext : checkedAdd U32_MAX c.next 1 = some (c.next + 1) :=
        checkedAdd_some (Nat.le_trans hlt hmax)
      rw [TokenSequenceView.rangeAt_some hs, hnext]
      by_cases hmore : c.next + 1 < s.stop
      · have hlen := Nat.lt_of_lt_of_le hmore (TokenSequenceView.stop_le hs)
        rw [h.flatten_next_inside hs hmore, h.tokens]
        simp [Option.filter_some, hmore, token_toOption hlen]
      · cases hj : c.nextSegmentIndex with
        | none =>
            rw [h.flatten_next_none hs hmore hj]
            simp [Option.filter_some, hmore]
        | some j =>
            obtain ⟨t, ht, hlen, hflat⟩ := h.flatten_next_segment hs hmore hj
            rw [hflat, h.tokens]
            simp [Option.filter_some, hmore, TokenSequenceView.rangeAt_some ht,
              token_toOption hlen]

theorem previousSegmentLast_eq
    (hfirst : ∀ s, view.ranges[c.segmentIndex]? = some s → ¬s.start < c.next)
    (hpos : c.logicalPosition ≠ 0) :
    c.previousSegmentLast view =
      (Segment.flatten view.ranges)[c.logicalPosition - 1]?.map (TokenRef.mk view.tokens) := by
  rw [previousSegmentLast]
  cases hj : c.previousSegmentIndex with
  | none => exact absurd (h.position_zero hfirst hj) hpos
  | some j =>
      obtain ⟨t, ht, -, hpos, -, hflat⟩ := h.flatten_previous_segment hfirst hj
      have hsub : checkedSub t.stop 1 = some (t.stop - 1) := checkedSub_some (by omega)
      have hlen : t.stop - 1 < view.tokens.len := by
        have := TokenSequenceView.stop_le ht
        omega
      rw [hflat, h.tokens]
      simp [TokenSequenceView.rangeAt_some ht, hsub, token_toOption hlen]

theorem parserPrevious_eq (hpos : c.logicalPosition ≠ 0)
    (hwindow : c.positionInWindow (c.logicalPosition - 1) = true) :
    c.parserPrevious =
      (Segment.flatten view.ranges)[c.logicalPosition - 1]?.map (TokenRef.mk view.tokens) := by
  have hpred : checkedSub c.logicalPosition 1 = some (c.logicalPosition - 1) :=
    checkedSub_some (Nat.pos_of_ne_zero hpos)
  rw [parserPrevious, h.parserPosition, hpred, h.bounds]
  show (if c.positionInWindow (c.logicalPosition - 1) = true then c.segmentPrevious view
    else none) = _
  rw [if_pos hwindow, segmentPrevious, if_neg hpos, h.currentRange]
  cases hs : view.ranges[c.segmentIndex]? with
  | none =>
      rw [TokenSequenceView.rangeAt_none hs]
      refine h.previousSegmentLast_eq ?_ hpos
      intro s hsome
      exact absurd (hs.symm.trans hsome) (by simp)
  | some s =>
      rw [TokenSequenceView.rangeAt_some hs]
      by_cases hmore : s.start < c.next
      · have hsub : checkedSub c.next 1 = some (c.next - 1) := checkedSub_some (by omega)
        have hlen : c.next - 1 < view.tokens.len := by
          have := TokenSequenceView.stop_le hs
          have := h.next_lt hs
          omega
        rw [h.flatten_previous_inside hs hmore]
        simp [hmore, hsub, h.tokens, token_toOption hlen]
      · simp only [hmore, if_false]
        refine h.previousSegmentLast_eq ?_ hpos
        intro t ht
        rwa [Option.some.inj (ht.symm.trans hs)]

end Settled

/-! ## Opening a sequence -/

theorem drop_cons {rest : List TokenSequenceRange} {i : Nat}
    (h : view.ranges.drop i = s :: rest) :
    view.ranges[i]? = some s ∧ view.ranges.drop (i + 1) = rest := by
  refine ⟨?_, ?_⟩
  · rw [← List.head?_drop, h]
    rfl
  · rw [← List.tail_drop, h]
    rfl

/-- A cursor at a position of the list, with the whole list before it. -/
structure OpenedAt (view : TokenSequenceView) (position : Nat) (c : TokenCursor) : Prop where
  settled : Settled view c
  position : c.logicalPosition = position
  windowStart : c.windowStart = 0
  windowEnd : c.windowEnd = Segment.totalWidth view.ranges

theorem fromSequenceEntries_ok {position : Nat} {rest : List TokenSequenceRange} {i : Nat}
    {previous : Option Nat} (hrest : view.ranges.drop i = rest)
    (hlo : Segment.offset view.ranges i ≤ position)
    (hhi : position ≤ Segment.totalWidth view.ranges)
    (hprevious : Segment.PreviousIs view.ranges i previous) :
    ∃ c, fromSequenceEntries view position (Segment.totalWidth view.ranges) rest i
        (Segment.offset view.ranges i) previous = .ok c ∧ OpenedAt view position c := by
  induction rest generalizing i previous with
  | nil =>
      have hnone : view.ranges[i]? = none := by
        rw [List.getElem?_eq_none_iff]
        exact List.drop_eq_nil_iff.1 hrest
      have hend : view.ranges[view.ranges.length]? = none :=
        List.getElem?_eq_none_iff.2 (Nat.le_refl _)
      have hoffset := Segment.offset_of_none hend
      rw [Segment.offset_of_none hnone] at hlo
      refine ⟨_, rfl, ⟨⟨⟨rfl, rfl, rfl, hoffset.symm, ?_⟩, ?_, ?_, ?_⟩,
        Nat.le_antisymm hlo hhi, rfl, rfl⟩⟩
      · cases previous with
        | none => exact hoffset.trans ((Segment.offset_of_none hnone).symm.trans hprevious)
        | some j =>
            obtain ⟨t, ht, hpos, hlt, heq⟩ := hprevious
            refine ⟨t, ht, hpos, (List.getElem?_eq_some_iff.1 ht).1, ?_⟩
            exact heq.trans ((Segment.offset_of_none hnone).trans hoffset.symm)
      · refine Segment.NextIs.ofNone (List.getElem?_eq_none_iff.2 ?_)
        exact Nat.le_succ _
      · intro t ht
        exact absurd (hend.symm.trans ht) (by simp)
      · intro _
        rfl
  | cons s rest ih =>
      obtain ⟨hget, hdrop⟩ := drop_cons hrest
      have hoffset := Segment.offset_succ hget
      have hroom := Segment.offset_add_width_le hget
      have hfits := view.totalWidth_le
      have hsum : checkedAdd USIZE_MAX (Segment.offset view.ranges i) s.width =
          some (Segment.offset view.ranges (i + 1)) := by
        rw [checkedAdd_some (le_usize (by omega)), hoffset]
      rw [fromSequenceEntries, hsum]
      by_cases hin : position < Segment.offset view.ranges (i + 1)
      · have hplace := segmentPlace_ok hlo (Nat.le_of_lt (by rwa [hoffset] at hin))
          (TokenSequenceView.stop_le_max hget)
        simp only [if_pos hin, hplace]
        refine ⟨_, rfl, ⟨⟨⟨rfl, rfl, rfl, rfl, hprevious⟩, nextNonEmptySegment_is _ _, ?_, ?_⟩,
          rfl, rfl, rfl⟩⟩
        · intro t ht
          rw [Option.some.inj (ht.symm.trans hget)]
          rw [hoffset] at hin
          exact ⟨hlo, hin, rfl⟩
        · intro hnone
          exact absurd (hnone.symm.trans hget) (by simp)
      · simp only [if_neg hin]
        exact ih hdrop (Nat.le_of_not_lt hin) (hprevious.step hget)

theorem fromSequencePosition_ok {position : Nat}
    (h : position ≤ Segment.totalWidth view.ranges) :
    ∃ c, fromSequencePosition view position (Segment.totalWidth view.ranges) = .ok c ∧
      OpenedAt view position c := by
  rw [fromSequencePosition, if_neg (Nat.not_lt_of_le h)]
  exact fromSequenceEntries_ok rfl (Nat.zero_le _) h Segment.PreviousIs.zero

/-! ## Reading anywhere -/

theorem Settled.segmentTokenAt_eq (h : Settled view c)
    (hinside : c.windowEnd ≤ Segment.totalWidth view.ranges) {index : Nat}
    (hwindow : c.positionInWindow index = true) :
    c.segmentTokenAt view index =
      (Segment.flatten view.ranges)[index]?.map (TokenRef.mk view.tokens) := by
  have hfits := view.totalWidth_le
  have hend := (positionInWindow_iff.1 hwindow).2
  have hle := h.logicalPosition_le
  have hfollowing : checkedAdd USIZE_MAX c.logicalPosition 1 = some (c.logicalPosition + 1) :=
    checkedAdd_some (succ_le_usize (Nat.le_trans hle hfits))
  have hsucc : checkedAdd USIZE_MAX index 1 = some (index + 1) :=
    checkedAdd_some (le_usize (by omega))
  rw [segmentTokenAt]
  by_cases hcurrent : index = c.logicalPosition
  · rw [if_pos hcurrent]
    subst hcurrent
    exact h.current_eq hwindow
  · rw [if_neg hcurrent, hfollowing, hsucc]
    show (if index = c.logicalPosition + 1 then c.parserPeekNext else _) = _
    by_cases hnext : index = c.logicalPosition + 1
    · rw [if_pos hnext]
      subst hnext
      exact h.parserPeekNext_eq hwindow hinside
    · rw [if_neg hnext]
      by_cases hprevious : index + 1 = c.logicalPosition
      · have hindex : index = c.logicalPosition - 1 := by omega
        rw [if_pos (congrArg some hprevious), hindex]
        rw [hindex] at hwindow
        exact h.parserPrevious_eq (by omega) hwindow
      · rw [if_neg fun heq => hprevious (Option.some.inj heq), h.length]
        obtain ⟨other, hother, hopened⟩ :=
          fromSequencePosition_ok (Nat.le_trans (Nat.le_of_lt hend) hinside)
        have hcover : other.positionInWindow other.logicalPosition = true := by
          rw [positionInWindow_iff, hopened.windowStart, hopened.windowEnd, hopened.position]
          exact ⟨Nat.zero_le _, Nat.lt_of_lt_of_le hend hinside⟩
        rw [hother, ← hopened.position]
        exact hopened.settled.current_eq hcover

/-! ## Gaps -/

theorem Settled.isAtSegmentStart_iff (h : Settled view c) :
    c.isAtSegmentStart = true ↔ ∃ before here, 0 < c.logicalPosition ∧
      (Segment.flatten view.ranges)[c.logicalPosition - 1]? = some before ∧
      (Segment.flatten view.ranges)[c.logicalPosition]? = some here ∧ before + 1 ≠ here := by
  rw [isAtSegmentStart, h.bounds]
  cases hs : view.ranges[c.segmentIndex]? with
  | none =>
      rw [h.flatten_current_none hs]
      simp [TokenSequenceView.rangeAt_none hs]
  | some s =>
      have hlt := h.next_lt hs
      rw [h.flatten_current hs]
      by_cases hfirst : c.next = s.start
      · have hat : ∀ t, view.ranges[c.segmentIndex]? = some t → ¬t.start < c.next := by
          intro t ht
          rw [Option.some.inj (ht.symm.trans hs), hfirst]
          exact Nat.lt_irrefl _
        cases hj : c.previousSegmentIndex with
        | none =>
            rw [h.position_zero hat hj]
            simp [TokenSequenceView.rangeAt_some hs, hfirst]
        | some j =>
            obtain ⟨t, ht, -, hne, hpos, hflat⟩ := h.flatten_previous_segment hat hj
            have hlast : t.stop - 1 + 1 = t.stop := Nat.sub_add_cancel (Nat.one_le_of_lt hne)
            rw [hflat]
            simp [TokenSequenceView.rangeAt_some hs, TokenSequenceView.rangeAt_some ht, hfirst,
              hpos, hlast]
      · have hmore : s.start < c.next := by
          obtain ⟨-, -, hnext⟩ := h.inside s hs
          omega
        rw [h.flatten_previous_inside hs hmore]
        have hlast : c.next - 1 + 1 = c.next := Nat.sub_add_cancel (Nat.one_le_of_lt hmore)
        simp [TokenSequenceView.rangeAt_some hs, hfirst, hlast]

end TokenCursor

end Moth.Tokenizer
