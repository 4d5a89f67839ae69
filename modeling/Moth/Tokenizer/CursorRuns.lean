import Moth.Tokenizer.CursorMoves

/-!
# The token cursor is an index into a flat list

Whatever a parser does with a cursor, what it reads is what an index into the
tokens of the cursor's ranges reads, and the index moves as the cursor does.
-/

namespace Moth.Tokenizer

open Moth.Lib

/-! ## Moves of the code -/

def answerOf {ε : Type} : Except ε Unit → MoveAnswer TokenRef
  | .ok () => .done
  | .error _ => .error

def windowAnswer {ε : Type} : Except ε (Nat × Nat) → MoveAnswer TokenRef
  | .ok window => .window window.1 window.2
  | .error _ => .error

namespace TokenCursor

/-- One call of a parser. `none`: the call does not return. -/
def move (c : TokenCursor) : CursorMove → Option (MoveAnswer TokenRef × TokenCursor)
  | .advance => some (.token c.advance.1, c.advance.2)
  | .setParserPosition position =>
      (c.setParserPosition position).map fun out => (answerOf out.1, out.2)
  | .setPosition position => some (answerOf (c.setPosition position).1, (c.setPosition position).2)
  | .narrowParserWindow start stop =>
      some (windowAnswer (c.narrowParserWindow start stop).1,
        (c.narrowParserWindow start stop).2)
  | .restoreParserWindow start stop => some (.done, c.restoreParserWindow (start, stop))

def moves : TokenCursor → List CursorMove → Option (List (MoveAnswer TokenRef) × TokenCursor)
  | c, [] => some ([], c)
  | c, m :: rest => do
      let moved ← c.move m
      let later ← moved.2.moves rest
      return (moved.1 :: later.1, later.2)

/-- `token_sequence` and `cursor`: a cursor at the front of a registered sequence. -/
def openSequence (tokens : SourceTokens) (id : TokenSequenceId) :
    Except TokenSequenceError TokenCursor :=
  match TokenSequenceView.new tokens id with
  | .error e => .error e
  | .ok view => fromSequence view

end TokenCursor

/-- Owners that come of one by registering more sequences. -/
inductive SourceTokens.Later (owner : SourceTokens) : SourceTokens → Prop where
  | refl : Later owner owner
  | register {tokens next : SourceTokens} {ranges : List TokenRange} {id : TokenSequenceId}
      (h : Later owner tokens) (hpush : tokens.tryRegisterTokenSequence ranges = .ok (id, next)) :
      Later owner next

/-- The cursors a parser starts with: over one range, or over a sequence that was registered. -/
inductive Opened : TokenCursor → FlatCursor → Prop where
  | range {tokens : SourceTokens} {range : TokenRange} {c : TokenCursor}
      (h : TokenCursor.new tokens range = .ok c) : Opened c (.ofRange range)
  | sequence {owner registered tokens : SourceTokens} {ranges : List TokenRange}
      {id : TokenSequenceId} {c : TokenCursor}
      (hpush : owner.tryRegisterTokenSequence ranges = .ok (id, registered))
      (hlater : registered.Later tokens) (h : TokenCursor.openSequence tokens id = .ok c) :
      Opened c (.ofRanges ranges)

def isEofIn (tokens : SourceTokens) (index : Nat) : Bool := (TokenRef.mk tokens index).isEof

/-- All that a parser can see of the cursor is what it would see of the index. -/
structure ReadsAs (c : TokenCursor) (f : FlatCursor) : Prop where
  position : c.parserPosition = f.position
  current : c.current = f.current.map (TokenRef.mk c.tokens)
  isAtEnd : c.isAtEnd = f.current.isNone
  peekNext : c.parserPeekNext = f.peekNext.map (TokenRef.mk c.tokens)
  previous : c.parserPrevious = f.previous.map (TokenRef.mk c.tokens)
  tokenAt : ∀ index, c.parserTokenAt index = (f.tokenAt index).map (TokenRef.mk c.tokens)
  gap : c.isAtSegmentStart = true ↔ f.AtGap
  listed : ∀ index token, c.parserTokenAt index = some token →
    ∃ range ∈ f.ranges, range.start ≤ token.index ∧ token.index < range.stop

/-! ## How a cursor shows an index -/

/-- A cursor over one range, at a place of the range or at its end. -/
structure Ranged (range : TokenRange) (c : TokenCursor) : Prop where
  bounds : c.bounds = .Contiguous range
  inside : range.stop ≤ c.tokens.len
  low : range.start ≤ c.next
  high : c.next ≤ range.stop

/-- The ranges of the index are the rows of the view. -/
structure Listed (view : TokenSequenceView) (f : FlatCursor) : Prop where
  segmented : f.segmented = true
  base : f.base = 0
  ranges : view.ranges.map (fun row => (row.start, row.stop)) =
    f.ranges.map fun range => (range.start, range.stop)

structure Single (range : TokenRange) (f : FlatCursor) : Prop where
  segmented : f.segmented = false
  base : f.base = range.start
  ranges : f.ranges = [range]

inductive Form (c : TokenCursor) (f : FlatCursor) : Prop where
  | sequence (view : TokenSequenceView) (hc : TokenCursor.Settled view c) (hf : Listed view f)
  | range (range : TokenRange) (hc : Ranged range c) (hf : Single range f)

structure Shows (c : TokenCursor) (f : FlatCursor) : Prop where
  position : c.parserPosition = f.position
  windowStart : c.windowStart = f.windowStart
  windowEnd : c.windowEnd = f.windowEnd
  inside : f.Inside f.windowStart f.windowEnd
  form : Form c f

theorem itemsOf_eq (ranges : List TokenRange) : FlatCursor.itemsOf ranges =
    (ranges.map fun range => (range.start, range.stop)).flatMap
      fun bounds => List.range' bounds.1 (bounds.2 - bounds.1) := by
  rw [List.flatMap_map]
  rfl

theorem flatten_eq (rows : List TokenSequenceRange) : Segment.flatten rows =
    (rows.map fun row => (row.start, row.stop)).flatMap
      fun bounds => List.range' bounds.1 (bounds.2 - bounds.1) := by
  rw [List.flatMap_map]
  rfl

namespace Listed

variable {view : TokenSequenceView} {f : FlatCursor} (h : Listed view f)
include h

theorem items : f.items = Segment.flatten view.ranges := by
  rw [FlatCursor.items, itemsOf_eq, flatten_eq, h.ranges]

theorem touches (place : Nat) :
    (f.ranges.any fun range => decide (range.start ≤ place) && decide (place ≤ range.stop)) =
      view.ranges.any fun row => decide (row.start ≤ place) && decide (place ≤ row.stop) := by
  have hany := congrArg (fun bounds => bounds.any fun b =>
    decide (b.1 ≤ place) && decide (place ≤ b.2)) h.ranges
  simp only [List.any_map] at hany
  exact hany.symm

end Listed

theorem Single.items {range : TokenRange} {f : FlatCursor} (h : Single range f) :
    f.items = List.range' range.start (range.stop - range.start) := by
  rw [FlatCursor.items, FlatCursor.itemsOf, h.ranges, List.flatMap_singleton]

theorem FlatCursor.mem_items {f : FlatCursor} {n : Nat} (h : n ∈ f.items) :
    ∃ range ∈ f.ranges, range.start ≤ n ∧ n < range.stop := by
  obtain ⟨range, hrange, hn⟩ := List.mem_flatMap.1 h
  rw [List.mem_range'_1] at hn
  exact ⟨range, hrange, hn.1, by omega⟩

theorem FlatCursor.mem_of_tokenAt {f : FlatCursor} {position n : Nat}
    (h : f.tokenAt position = some n) : n ∈ f.items := by
  unfold FlatCursor.tokenAt at h
  split at h
  · exact List.mem_of_getElem? h
  · cases h

/-! ## Reads -/

theorem ReadsAs.of {c : TokenCursor} {f : FlatCursor} (hposition : c.parserPosition = f.position)
    (hcurrent : c.current = f.current.map (TokenRef.mk c.tokens))
    (hnext : c.parserPeekNext = f.peekNext.map (TokenRef.mk c.tokens))
    (hprevious : c.parserPrevious = f.previous.map (TokenRef.mk c.tokens))
    (htoken : ∀ index, c.parserTokenAt index = (f.tokenAt index).map (TokenRef.mk c.tokens))
    (hgap : c.isAtSegmentStart = true ↔ f.AtGap) : ReadsAs c f := by
  refine ⟨hposition, hcurrent, ?_, hnext, hprevious, htoken, hgap, ?_⟩
  · rw [TokenCursor.isAtEnd, hcurrent, Option.isNone_map]
  · intro index token h
    rw [htoken, Option.map_eq_some_iff] at h
    obtain ⟨n, hn, rfl⟩ := h
    exact FlatCursor.mem_items (FlatCursor.mem_of_tokenAt hn)

namespace Shows

variable {c : TokenCursor} {f : FlatCursor} (h : Shows c f)
include h

theorem inWindow (position : Nat) :
    c.positionInWindow position = true ↔ f.windowStart ≤ position ∧ position < f.windowEnd := by
  rw [TokenCursor.positionInWindow_iff, h.windowStart, h.windowEnd]

theorem tokenAt_of_not {position : Nat} (hout : ¬c.positionInWindow position = true) :
    f.tokenAt position = none := if_neg fun hin => hout ((h.inWindow position).2 hin)

theorem tokenAt_of {position : Nat} (hin : c.positionInWindow position = true) :
    f.tokenAt position = f.items[position - f.base]? := if_pos ((h.inWindow position).1 hin)

theorem readsAs_sequence {view : TokenSequenceView} (hc : TokenCursor.Settled view c)
    (hf : Listed view f) : ReadsAs c f := by
  have hat : ∀ index, c.positionInWindow index = true →
      f.tokenAt index = (Segment.flatten view.ranges)[index]? := by
    intro index hin
    rw [h.tokenAt_of hin, hf.items, hf.base, Nat.sub_zero]
  have hend : c.windowEnd ≤ Segment.totalWidth view.ranges := by
    have := h.inside.2
    rwa [← h.windowEnd, hf.base, hf.items, Segment.length_flatten, Nat.zero_add] at this
  have hposition : c.logicalPosition = f.position := by rw [← hc.parserPosition, h.position]
  have hfits := view.totalWidth_le
  have hle := hc.logicalPosition_le
  refine ReadsAs.of h.position ?_ ?_ ?_ ?_ ?_
  · rw [FlatCursor.current, ← hposition, hc.tokens]
    by_cases hin : c.positionInWindow c.logicalPosition = true
    · rw [hat _ hin, hc.current_eq hin]
    · rw [h.tokenAt_of_not hin, TokenCursor.current, hc.parserPosition, if_neg hin]
      rfl
  · rw [FlatCursor.peekNext, ← hposition, hc.tokens]
    by_cases hin : c.positionInWindow (c.logicalPosition + 1) = true
    · rw [hat _ hin, hc.parserPeekNext_eq hin hend]
    · rw [h.tokenAt_of_not hin, TokenCursor.parserPeekNext, hc.parserPosition,
        checkedAdd_some (succ_le_usize (Nat.le_trans hle hfits))]
      exact if_neg hin
  · rw [FlatCursor.previous, ← hposition, hc.tokens]
    by_cases hzero : c.logicalPosition = 0
    · rw [if_pos hzero, TokenCursor.parserPrevious, hc.parserPosition, hzero]
      rfl
    · rw [if_neg hzero]
      by_cases hin : c.positionInWindow (c.logicalPosition - 1) = true
      · rw [hat _ hin, hc.parserPrevious_eq hzero hin]
      · rw [h.tokenAt_of_not hin, TokenCursor.parserPrevious, hc.parserPosition,
          checkedSub_some (Nat.pos_of_ne_zero hzero)]
        exact if_neg hin
  · intro index
    rw [TokenCursor.parserTokenAt, hc.bounds, hc.tokens]
    by_cases hin : c.positionInWindow index = true
    · rw [if_pos hin, hat _ hin]
      exact hc.segmentTokenAt_eq hend hin
    · rw [if_neg hin, h.tokenAt_of_not hin]
      rfl
  · rw [hc.isAtSegmentStart_iff, FlatCursor.AtGap, hf.items, hf.base, ← hposition, Nat.sub_zero]

theorem readsAs_range {range : TokenRange} (hc : Ranged range c) (hf : Single range f) :
    ReadsAs c f := by
  have hat : c.parserPosition = c.next := by rw [TokenCursor.parserPosition, hc.bounds]
  have hlow : range.start ≤ c.windowStart := by
    have := h.inside.1
    rwa [hf.base, ← h.windowStart] at this
  have hhigh : c.windowEnd ≤ range.stop := by
    have := h.inside.2
    have hordered := Nat.le_trans hc.low hc.high
    rw [hf.base, hf.items, List.length_range', ← h.windowEnd] at this
    omega
  have hitem : ∀ index, c.positionInWindow index = true →
      index < range.stop ∧ range.start ≤ index ∧ index < c.tokens.len ∧
        f.tokenAt index = some index := by
    intro index hin
    obtain ⟨hlo, hhi⟩ := TokenCursor.positionInWindow_iff.1 hin
    have hinside := hc.inside
    refine ⟨by omega, by omega, by omega, ?_⟩
    rw [h.tokenAt_of hin, hf.items, hf.base, List.getElem?_range' (by omega)]
    congr 1
    omega
  have hposition : c.next = f.position := by rw [← hat, h.position]
  have hmax : c.tokens.len ≤ U32_MAX := c.tokens.tokenStoreLengthFits
  have hinside := hc.inside
  have hstop := hc.high
  refine ReadsAs.of h.position ?_ ?_ ?_ ?_ ?_
  · rw [FlatCursor.current, ← hposition, TokenCursor.current, hat, TokenCursor.currentRange,
      hc.bounds]
    by_cases hin : c.positionInWindow c.next = true
    · obtain ⟨hlt, -, hlen, htoken⟩ := hitem _ hin
      rw [if_pos hin, htoken]
      show (if range.stop ≤ c.next then none else (c.tokens.token c.next).toOption) = _
      rw [if_neg (Nat.not_le_of_lt hlt), TokenCursor.token_toOption hlen]
      rfl
    · rw [if_neg hin, h.tokenAt_of_not hin]
      rfl
  · have hsucc : ∀ most, U32_MAX + 1 ≤ most → checkedAdd most c.next 1 = some (c.next + 1) := by
      intro most hmost
      exact checkedAdd_some (Nat.le_trans (Nat.succ_le_succ (Nat.le_trans hstop
        (Nat.le_trans hinside hmax))) hmost)
    rw [FlatCursor.peekNext, ← hposition, TokenCursor.parserPeekNext, TokenCursor.peekNext, hat,
      hc.bounds, hsucc USIZE_MAX (by decide)]
    by_cases hin : c.positionInWindow (c.next + 1) = true
    · obtain ⟨hlt, -, hlen, htoken⟩ := hitem _ hin
      have hnext : checkedAdd U32_MAX c.next 1 = some (c.next + 1) :=
        checkedAdd_some (Nat.le_trans (Nat.le_of_lt hlt) (Nat.le_trans hinside hmax))
      rw [htoken, TokenCursor.currentRange, hc.bounds]
      simp [hin, hnext, Nat.not_le_of_lt hlt, TokenCursor.token_toOption hlen]
    · rw [h.tokenAt_of_not hin]
      simp [hin]
  · rw [FlatCursor.previous, ← hposition, TokenCursor.parserPrevious, hat, hc.bounds]
    by_cases hzero : c.next = 0
    · rw [if_pos hzero, hzero]
      rfl
    · have hpred : checkedSub c.next 1 = some (c.next - 1) :=
        checkedSub_some (Nat.pos_of_ne_zero hzero)
      rw [if_neg hzero, hpred]
      by_cases hin : c.positionInWindow (c.next - 1) = true
      · obtain ⟨-, hstart, hlen, htoken⟩ := hitem _ hin
        rw [htoken]
        simp [hin, TokenCursor.contiguousPrevious, hpred, Nat.not_lt_of_le hstart,
          TokenCursor.token_toOption hlen]
      · rw [h.tokenAt_of_not hin]
        simp [hin]
  · intro index
    rw [TokenCursor.parserTokenAt, hc.bounds]
    by_cases hin : c.positionInWindow index = true
    · obtain ⟨hlt, -, hlen, htoken⟩ := hitem _ hin
      have hindex : TokenIndex.tryFromIndex index = some index := if_neg (by omega)
      rw [if_pos hin, htoken]
      simp [hindex, TokenCursor.token_toOption hlen]
    · rw [if_neg hin, h.tokenAt_of_not hin]
      rfl
  · rw [TokenCursor.isAtSegmentStart, hc.bounds]
    constructor
    · intro hfalse
      cases hfalse
    · intro hgap
      obtain ⟨before, here, hlt, hbefore, hhere, hne⟩ := hgap
      rw [hf.items, hf.base] at hbefore hhere
      rw [hf.base] at hlt
      obtain ⟨hb, rfl⟩ := List.getElem?_eq_some_iff.1 hbefore
      obtain ⟨hh, rfl⟩ := List.getElem?_eq_some_iff.1 hhere
      rw [List.getElem_range', List.getElem_range'] at hne
      omega

theorem readsAs : ReadsAs c f := by
  cases h.form with
  | sequence view hc hf => exact h.readsAs_sequence hc hf
  | range range hc hf => exact h.readsAs_range hc hf

end Shows

/-! ## Moves -/

theorem FlatCursor.inside_self_iff {f f' : FlatCursor} (hbase : f'.base = f.base)
    (hranges : f'.ranges = f.ranges) (start stop : Nat) :
    f'.Inside start stop ↔ f.Inside start stop := by
  rw [FlatCursor.Inside, FlatCursor.Inside, FlatCursor.items, FlatCursor.items, hbase, hranges]

/-- An index stays an index into the same list. -/
theorem FlatCursor.move_list (isEof : Nat → Bool) (f : FlatCursor) (m : CursorMove) :
    (f.move isEof m).2.base = f.base ∧ (f.move isEof m).2.ranges = f.ranges ∧
      (f.move isEof m).2.segmented = f.segmented := by
  have hto : ∀ position, (f.moveTo position).2.base = f.base ∧
      (f.moveTo position).2.ranges = f.ranges ∧
      (f.moveTo position).2.segmented = f.segmented := by
    intro position
    unfold FlatCursor.moveTo
    split <;> exact ⟨rfl, rfl, rfl⟩
  cases m with
  | advance =>
      simp only [FlatCursor.move]
      split
      · exact ⟨rfl, rfl, rfl⟩
      · split <;> exact ⟨rfl, rfl, rfl⟩
  | setParserPosition position =>
      simp only [FlatCursor.move]
      split
      · exact hto position
      · exact ⟨rfl, rfl, rfl⟩
  | setPosition place =>
      simp only [FlatCursor.move]
      split
      · exact ⟨rfl, rfl, rfl⟩
      · exact hto _
  | narrowParserWindow start stop =>
      simp only [FlatCursor.move]
      split <;> exact ⟨rfl, rfl, rfl⟩
  | restoreParserWindow start stop => exact ⟨rfl, rfl, rfl⟩

namespace Shows

variable {c : TokenCursor} {f : FlatCursor}

/-- The move `m` of the cursor answers as the index does, and shows it afterwards. -/
def Follows (c : TokenCursor) (f : FlatCursor) (m : CursorMove) : Prop :=
  ∃ c', c.move m = some ((f.move (isEofIn c.tokens) m).1.map (TokenRef.mk c.tokens), c') ∧
    Shows c' (f.move (isEofIn c.tokens) m).2 ∧ c'.tokens = c.tokens

theorem at_position {view : TokenSequenceView} {position : Nat} {c' : TokenCursor}
    (h : Shows c f) (hf : Listed view f) (hmoved : TokenCursor.MovedTo view position c c') :
    Shows c' { f with position } :=
  ⟨hmoved.settled.parserPosition.trans hmoved.position,
    hmoved.windowStart.trans h.windowStart, hmoved.windowEnd.trans h.windowEnd, h.inside,
    .sequence view hmoved.settled ⟨hf.segmented, hf.base, hf.ranges⟩⟩

/-- A move past a token leaves the cursor one position on. -/
theorem stepPast (h : Shows c f) {n : Nat} (hcurrent : f.current = some n) :
    ∃ range, c.currentRange = some range ∧ (c.stepPast range).tokens = c.tokens ∧
      Shows (c.stepPast range) { f with position := f.position + 1 } := by
  have hitem := FlatCursor.mem_of_tokenAt hcurrent
  cases h.form with
  | sequence view hc hf =>
      have hposition : c.logicalPosition = f.position := by rw [← hc.parserPosition, h.position]
      cases hs : view.ranges[c.segmentIndex]? with
      | none =>
          have hread := h.readsAs.current
          rw [hcurrent, TokenCursor.current, hc.currentRange,
            TokenSequenceView.rangeAt_none hs] at hread
          simp at hread
      | some s =>
          have hmoved := hc.stepPast hs
          refine ⟨_, by rw [hc.currentRange, TokenSequenceView.rangeAt_some hs],
            hmoved.settled.tokens.trans hc.tokens.symm, ?_⟩
          rw [← hposition]
          exact h.at_position hf hmoved
  | range range hc hf =>
      have hat : c.parserPosition = c.next := by rw [TokenCursor.parserPosition, hc.bounds]
      have hposition : c.next = f.position := by rw [← hat, h.position]
      have hlt : c.next < range.stop := by
        have hread := h.readsAs.current
        rw [hcurrent, TokenCursor.current, TokenCursor.currentRange, hc.bounds] at hread
        refine Nat.lt_of_not_le ?_
        intro hend
        simp [hend] at hread
      have hmax : c.tokens.len ≤ U32_MAX := c.tokens.tokenStoreLengthFits
      have hinside := hc.inside
      have hlow := hc.low
      have hnext : c.stepPast range = { c with next := c.next + 1 } := by
        rw [TokenCursor.stepPast, hc.bounds, checkedAdd_some (by omega), Option.filter_some]
        by_cases hmore : c.next + 1 < range.stop
        · simp only [hmore, decide_true, if_true]
        · have hlast : range.stop = c.next + 1 := by omega
          simp only [hmore, decide_false, Bool.false_eq_true, if_false]
          rw [hlast]
      refine ⟨range, by rw [TokenCursor.currentRange, hc.bounds], by rw [hnext], ?_⟩
      rw [hnext, ← hposition]
      refine ⟨?_, h.windowStart, h.windowEnd, h.inside,
        .range range ⟨hc.bounds, hc.inside, Nat.le_succ_of_le hlow, hlt⟩
          ⟨hf.segmented, hf.base, hf.ranges⟩⟩
      rw [TokenCursor.parserPosition, hc.bounds]

theorem follows_advance (h : Shows c f) : Follows c f .advance := by
  have hread := h.readsAs.current
  cases hf : f.current with
  | none =>
      rw [hf] at hread
      refine ⟨c, ?_, ?_, rfl⟩
      · simp [TokenCursor.move, TokenCursor.advance, FlatCursor.move, hf, hread, MoveAnswer.map]
      · simp only [FlatCursor.move, hf]
        exact h
  | some n =>
      obtain ⟨range, hrange, htokens, hshows⟩ := h.stepPast hf
      rw [hf, Option.map_some] at hread
      by_cases heof : isEofIn c.tokens n = true
      · have hstay : (TokenRef.mk c.tokens n).isEof = true := heof
        refine ⟨c, ?_, ?_, rfl⟩
        · simp [TokenCursor.move, TokenCursor.advance, FlatCursor.move, hf, hread, hrange, hstay,
            MoveAnswer.map]
        · simp only [FlatCursor.move, hf, if_pos heof]
          exact h
      · have hgo : (TokenRef.mk c.tokens n).isEof = false := Bool.eq_false_iff.2 heof
        refine ⟨c.stepPast range, ?_, ?_, htokens⟩
        · simp [TokenCursor.move, TokenCursor.advance, FlatCursor.move, hf, hread, hrange, hgo,
            MoveAnswer.map]
        · simp only [FlatCursor.move, hf, if_neg heof]
          exact hshows

theorem follows_error (h : Shows c f) {m : CursorMove}
    (hcode : c.move m = some (.error, c)) (hflat : f.move (isEofIn c.tokens) m = (.error, f)) :
    Follows c f m := by
  refine ⟨c, ?_, ?_, rfl⟩
  · rw [hcode, hflat]
    rfl
  · rw [hflat]
    exact h

theorem follows_done {c' : TokenCursor} {f' : FlatCursor} {m : CursorMove}
    (hcode : c.move m = some (.done, c')) (hflat : f.move (isEofIn c.tokens) m = (.done, f'))
    (hshows : Shows c' f') (htokens : c'.tokens = c.tokens) : Follows c f m := by
  refine ⟨c', ?_, ?_, htokens⟩
  · rw [hcode, hflat]
    rfl
  · rw [hflat]
    exact hshows

theorem follows_setParserPosition (h : Shows c f) (position : Nat) :
    Follows c f (.setParserPosition position) := by
  cases h.form with
  | range range hc hf =>
      refine h.follows_error ?_ ?_
      · simp [TokenCursor.move, TokenCursor.setParserPosition, hc.bounds, answerOf]
      · simp [FlatCursor.move, hf.segmented]
  | sequence view hc hf =>
      have hend : c.windowEnd ≤ Segment.totalWidth view.ranges := by
        have := h.inside.2
        rwa [← h.windowEnd, hf.base, hf.items, Segment.length_flatten, Nat.zero_add] at this
      by_cases hin : f.windowStart ≤ position ∧ position ≤ f.windowEnd
      · have hwindow := hin
        rw [← h.windowStart, ← h.windowEnd] at hwindow
        obtain ⟨c', hrun, hmoved⟩ := hc.setParserPosition hwindow.1 hwindow.2 hend
        refine follows_done ?_ ?_ (h.at_position hf hmoved)
          (hmoved.settled.tokens.trans hc.tokens.symm)
        · simp [TokenCursor.move, hrun, answerOf]
        · simp [FlatCursor.move, hf.segmented, FlatCursor.moveTo, hin]
      · have hout : position < c.windowStart ∨ c.windowEnd < position := by
          rw [h.windowStart, h.windowEnd]
          omega
        refine h.follows_error ?_ ?_
        · simp [TokenCursor.move, TokenCursor.setParserPosition, hc.bounds, hout, answerOf]
        · simp [FlatCursor.move, hf.segmented, FlatCursor.moveTo, hin]

theorem landing_sequence {view : TokenSequenceView} (hf : Listed view f) (place : Nat) :
    f.landing place = if ∃ row ∈ view.ranges, row.start ≤ place ∧ place ≤ row.stop then
      some (Segment.below view.ranges place) else none := by
  have htouch : (view.ranges.any fun row => decide (row.start ≤ place) && decide (place ≤ row.stop))
      = decide (∃ row ∈ view.ranges, row.start ≤ place ∧ place ≤ row.stop) := by
    rw [Bool.eq_iff_iff, List.any_eq_true, decide_eq_true_eq]
    simp only [Bool.and_eq_true, decide_eq_true_eq]
  rw [FlatCursor.landing, hf.touches, htouch, hf.base, hf.items, Nat.zero_add]
  simp only [decide_eq_true_eq]
  rfl

theorem landing_range {range : TokenRange} (hf : Single range f)
    (hordered : range.start ≤ range.stop) (place : Nat) :
    f.landing place = if range.start ≤ place ∧ place ≤ range.stop then some place else none := by
  have hsegment : f.items = (Segment.mk range.start range.stop hordered).cells := by
    rw [hf.items]
    rfl
  rw [FlatCursor.landing, hf.ranges, List.any_cons, List.any_nil, Bool.or_false]
  simp only [Bool.and_eq_true, decide_eq_true_eq]
  by_cases hin : range.start ≤ place ∧ place ≤ range.stop
  · rw [if_pos hin, if_pos hin, hsegment, Segment.countP_cells_of_mem hin.1 hin.2, hf.base]
    congr 1
    have := hin.1
    show range.start + (place - range.start) = place
    omega
  · rw [if_neg hin, if_neg hin]

theorem follows_setPosition (h : Shows c f) (place : Nat) : Follows c f (.setPosition place) := by
  cases h.form with
  | range range hc hf =>
      have hordered := Nat.le_trans hc.low hc.high
      have hlanding := landing_range hf hordered place
      have hlow := h.inside.1
      have hhigh := h.inside.2
      rw [hf.base, ← h.windowStart] at hlow
      rw [hf.base, hf.items, List.length_range', ← h.windowEnd] at hhigh
      by_cases hin : c.windowStart ≤ place ∧ place ≤ c.windowEnd
      · have hwindow := hin
        rw [h.windowStart, h.windowEnd] at hwindow
        have hout : ¬(place < c.windowStart ∨ c.windowEnd < place) := by omega
        have hrange : ¬(place < range.start ∨ range.stop < place) := by omega
        have htouch : range.start ≤ place ∧ place ≤ range.stop := by omega
        rw [if_pos htouch] at hlanding
        have hshows : Shows { c with next := place } { f with position := place } := by
          refine ⟨?_, h.windowStart, h.windowEnd, h.inside, .range range
            ⟨hc.bounds, hc.inside, htouch.1, htouch.2⟩ ⟨hf.segmented, hf.base, hf.ranges⟩⟩
          rw [TokenCursor.parserPosition, hc.bounds]
        refine follows_done ?_ ?_ hshows rfl
        · simp [TokenCursor.move, TokenCursor.setPosition, hc.bounds, hout, hrange, answerOf]
        · simp only [FlatCursor.move, hlanding, FlatCursor.moveTo, if_pos hwindow]
      · have hout : place < c.windowStart ∨ c.windowEnd < place := by omega
        refine h.follows_error ?_ ?_
        · simp [TokenCursor.move, TokenCursor.setPosition, hc.bounds, hout, answerOf]
        · rw [h.windowStart, h.windowEnd] at hin
          rw [FlatCursor.move, hlanding]
          by_cases htouch : range.start ≤ place ∧ place ≤ range.stop
          · simp only [if_pos htouch, FlatCursor.moveTo, if_neg hin]
          · simp only [if_neg htouch]
  | sequence view hc hf =>
      have hlanding := landing_sequence hf place
      have hfront : view.ranges.drop 0 = view.ranges := List.drop_zero
      rcases TokenCursor.candidateAt_spec hc.length hfront Segment.PreviousIs.zero with
        ⟨hnone, hrun⟩ | ⟨htouch, candidate, hrun, harriving, hposition, hstart, hend⟩
      · rw [if_neg fun hex => by
          obtain ⟨row, hrow, htouch⟩ := hex
          exact hnone row hrow htouch] at hlanding
        rw [Segment.offset_zero] at hrun
        refine h.follows_error ?_ ?_
        · simp [TokenCursor.move, TokenCursor.setPosition, hc.bounds, hrun, answerOf]
        · simp only [FlatCursor.move, hlanding]
      · rw [if_pos htouch] at hlanding
        rw [Segment.offset_zero] at hrun
        by_cases hin : f.windowStart ≤ Segment.below view.ranges place ∧
            Segment.below view.ranges place ≤ f.windowEnd
        · have hout : ¬(candidate.logicalPosition < c.windowStart ∨
              c.windowEnd < candidate.logicalPosition) := by
            rw [hposition, h.windowStart, h.windowEnd]
            omega
          have hmoved := harriving.movedTo hposition hstart hend
          refine follows_done ?_ ?_ (h.at_position hf hmoved)
            (hmoved.settled.tokens.trans hc.tokens.symm)
          · simp [TokenCursor.move, TokenCursor.setPosition, hc.bounds, hrun, hout, answerOf]
          · simp only [FlatCursor.move, hlanding, FlatCursor.moveTo, if_pos hin]
        · have hout : candidate.logicalPosition < c.windowStart ∨
              c.windowEnd < candidate.logicalPosition := by
            rw [hposition, h.windowStart, h.windowEnd]
            omega
          refine h.follows_error ?_ ?_
          · simp [TokenCursor.move, TokenCursor.setPosition, hc.bounds, hrun, hout, answerOf]
          · simp only [FlatCursor.move, hlanding, FlatCursor.moveTo, if_neg hin]

theorem at_window (h : Shows c f) {start stop : Nat} (hinside : f.Inside start stop) :
    Shows { c with windowStart := start, windowEnd := stop }
      { f with windowStart := start, windowEnd := stop } := by
  refine ⟨h.position, rfl, rfl, hinside, ?_⟩
  cases h.form with
  | range range hc hf =>
      exact .range range ⟨hc.bounds, hc.inside, hc.low, hc.high⟩ ⟨hf.segmented, hf.base, hf.ranges⟩
  | sequence view hc hf =>
      exact .sequence view ⟨⟨hc.bounds, hc.tokens, hc.length, hc.start, hc.previous⟩, hc.next,
        hc.inside, hc.outside⟩ ⟨hf.segmented, hf.base, hf.ranges⟩

theorem follows_narrow (h : Shows c f) (start stop : Nat) :
    Follows c f (.narrowParserWindow start stop) := by
  by_cases hin : start ≤ stop ∧ f.windowStart ≤ start ∧ stop ≤ f.windowEnd
  · have hordered : ¬stop < start := Nat.not_lt_of_le hin.1
    have hout : ¬(start < c.windowStart ∨ c.windowEnd < stop) := by
      rw [h.windowStart, h.windowEnd]
      omega
    have hinside : f.Inside start stop :=
      ⟨Nat.le_trans h.inside.1 hin.2.1, Nat.le_trans hin.2.2 h.inside.2⟩
    have hcode : c.narrowParserWindow start stop = (.ok (f.windowStart, f.windowEnd),
        { c with windowStart := start, windowEnd := stop }) := by
      rw [TokenCursor.narrowParserWindow, if_neg hordered, if_neg hout, h.windowStart,
        h.windowEnd]
    refine ⟨{ c with windowStart := start, windowEnd := stop }, ?_, ?_, rfl⟩
    · simp only [TokenCursor.move, hcode, windowAnswer, FlatCursor.move, if_pos hin,
        MoveAnswer.map]
    · simp only [FlatCursor.move, if_pos hin]
      exact h.at_window hinside
  · refine h.follows_error ?_ ?_
    · by_cases hordered : stop < start
      · simp [TokenCursor.move, TokenCursor.narrowParserWindow, hordered, windowAnswer]
      · have hout : start < c.windowStart ∨ c.windowEnd < stop := by
          rw [h.windowStart, h.windowEnd]
          omega
        simp [TokenCursor.move, TokenCursor.narrowParserWindow, hordered, hout, windowAnswer]
    · simp only [FlatCursor.move, if_neg hin]

theorem follows_restore (h : Shows c f) {start stop : Nat} (hinside : f.Inside start stop) :
    Follows c f (.restoreParserWindow start stop) :=
  follows_done rfl rfl (h.at_window hinside) rfl

theorem follows (h : Shows c f) {m : CursorMove}
    (hrestore : ∀ start stop, m = .restoreParserWindow start stop → f.Inside start stop) :
    Follows c f m := by
  cases m with
  | advance => exact h.follows_advance
  | setParserPosition position => exact h.follows_setParserPosition position
  | setPosition place => exact h.follows_setPosition place
  | narrowParserWindow start stop => exact h.follows_narrow start stop
  | restoreParserWindow start stop => exact h.follows_restore (hrestore start stop rfl)

/-- A whole run. -/
theorem follows_moves (h : Shows c f) {ms : List CursorMove}
    (hrestore : ∀ start stop, .restoreParserWindow start stop ∈ ms → f.Inside start stop) :
    ∃ c', c.moves ms = some ((f.moves (isEofIn c.tokens) ms).1.map
        (MoveAnswer.map (TokenRef.mk c.tokens)), c') ∧
      Shows c' (f.moves (isEofIn c.tokens) ms).2 ∧ c'.tokens = c.tokens := by
  induction ms generalizing c f with
  | nil => exact ⟨c, rfl, h, rfl⟩
  | cons m rest ih =>
      obtain ⟨c₁, hmove, hshows, htokens⟩ := h.follows (m := m) fun start stop heq =>
        hrestore start stop (heq ▸ List.mem_cons_self)
      obtain ⟨hbase, hranges, -⟩ := f.move_list (isEofIn c.tokens) m
      obtain ⟨c₂, hrun, hlater, htokens'⟩ := ih hshows fun start stop hmem =>
        (FlatCursor.inside_self_iff hbase hranges start stop).2
          (hrestore start stop (List.mem_cons_of_mem _ hmem))
      rw [htokens] at hrun hlater
      refine ⟨c₂, ?_, hlater, htokens'.trans htokens⟩
      simp [TokenCursor.moves, hmove, hrun, FlatCursor.moves]

end Shows

/-- A window that a narrowing answers with is part of the list, so it may be restored. -/
theorem FlatCursor.window_inside {isEof : Nat → Bool} {f : FlatCursor} {m : CursorMove}
    {start stop : Nat} (h : f.Inside f.windowStart f.windowEnd)
    (hanswer : (f.move isEof m).1 = .window start stop) : f.Inside start stop := by
  have hto : ∀ position, (f.moveTo position).1 ≠ .window start stop := by
    intro position
    unfold FlatCursor.moveTo
    split
    · exact fun heq => by cases heq
    · exact fun heq => by cases heq
  cases m with
  | advance =>
      simp only [FlatCursor.move] at hanswer
      split at hanswer <;> cases hanswer
  | setParserPosition position =>
      simp only [FlatCursor.move] at hanswer
      split at hanswer
      · exact absurd hanswer (hto position)
      · cases hanswer
  | setPosition place =>
      simp only [FlatCursor.move] at hanswer
      split at hanswer
      · cases hanswer
      · exact absurd hanswer (hto _)
  | narrowParserWindow narrowStart narrowStop =>
      simp only [FlatCursor.move] at hanswer
      split at hanswer
      · cases hanswer
        exact h
      · cases hanswer
  | restoreParserWindow start stop => cases hanswer

theorem FlatCursor.moves_list (isEof : Nat → Bool) (f : FlatCursor) (ms : List CursorMove) :
    (f.moves isEof ms).2.base = f.base ∧ (f.moves isEof ms).2.ranges = f.ranges := by
  induction ms generalizing f with
  | nil => exact ⟨rfl, rfl⟩
  | cons m rest ih =>
      obtain ⟨hbase, hranges, -⟩ := f.move_list isEof m
      obtain ⟨hbase', hranges'⟩ := ih (f.move isEof m).2
      exact ⟨hbase'.trans hbase, hranges'.trans hranges⟩

theorem MoveAnswer.map_eq_error {Token Token' : Type} {g : Token → Token'} {a : MoveAnswer Token}
    (h : a.map g = .error) : a = .error := by
  cases a with
  | error => rfl
  | token t => cases h
  | window start stop => cases h
  | done => cases h

theorem MoveAnswer.map_eq_window {Token Token' : Type} {g : Token → Token'} {a : MoveAnswer Token}
    {start stop : Nat} (h : a.map g = .window start stop) : a = .window start stop := by
  cases a with
  | window start stop =>
      cases h
      rfl
  | token t => cases h
  | done => cases h
  | error => cases h

namespace Shows

variable {c c' : TokenCursor} {f : FlatCursor} {m : CursorMove}

theorem follows_of_ne (h : Shows c f) (hne : ∀ start stop, m ≠ .restoreParserWindow start stop) :
    Follows c f m := h.follows fun start stop heq => absurd heq (hne start stop)

theorem of_error (h : Shows c f) (herror : c.move m = some (.error, c')) : Shows c' f := by
  have hne : ∀ start stop, m ≠ .restoreParserWindow start stop := by
    intro start stop heq
    subst heq
    cases herror
  obtain ⟨c₁, hmove, hshows, -⟩ := h.follows_of_ne hne
  obtain ⟨hanswer, rfl⟩ := Prod.mk.inj (Option.some.inj (hmove.symm.trans herror))
  have hflat := MoveAnswer.map_eq_error hanswer
  have hstay : (f.move (isEofIn c.tokens) m).2 = f := FlatCursor.move_error (Prod.ext hflat rfl)
  rw [hstay] at hshows
  exact hshows

theorem of_window (h : Shows c f) {start stop : Nat}
    (hwindow : c.move m = some (.window start stop, c')) : f.Inside start stop := by
  have hne : ∀ start stop, m ≠ .restoreParserWindow start stop := by
    intro start stop heq
    subst heq
    cases hwindow
  obtain ⟨c₁, hmove, -, -⟩ := h.follows_of_ne hne
  obtain ⟨hanswer, -⟩ := Prod.mk.inj (Option.some.inj (hmove.symm.trans hwindow))
  exact FlatCursor.window_inside h.inside (MoveAnswer.map_eq_window hanswer)

end Shows

/-! ## Opening -/

namespace SourceTokens

theorem tryRegister_ok {owner registered : SourceTokens} {ranges : List TokenRange}
    {id : TokenSequenceId} (h : owner.tryRegisterTokenSequence ranges = .ok (id, registered)) :
    owner.sequenceStore.tryPush ranges = .ok (id, registered.sequenceStore) ∧
      registered.source = owner.source ∧ registered.shapes = owner.shapes := by
  unfold tryRegisterTokenSequence at h
  split at h
  · cases h
  · next id' store hpush =>
      cases h
      exact ⟨hpush, rfl, rfl⟩

theorem Later.holds {registered tokens : SourceTokens} (h : registered.Later tokens)
    {sequences : List (List TokenSequenceRange)}
    (hholds : registered.sequenceStore.Holds sequences) :
    ∃ later, tokens.sequenceStore.Holds (sequences ++ later) := by
  induction h with
  | refl => exact ⟨[], by rwa [List.append_nil]⟩
  | register h hpush ih =>
      obtain ⟨later, hlater⟩ := ih
      obtain ⟨rows, -, hnew, -⟩ := hlater.tryPush (tryRegister_ok hpush).1
      exact ⟨later ++ [rows], by rwa [← List.append_assoc]⟩

end SourceTokens

/-- A registered sequence stands for the ranges it was registered with, however many are
registered after it. -/
theorem ranges_of_registered {owner registered tokens : SourceTokens} {ranges : List TokenRange}
    {id : TokenSequenceId} (hpush : owner.tryRegisterTokenSequence ranges = .ok (id, registered))
    (hlater : registered.Later tokens) :
    ∃ rows, tokens.sequenceStore.ranges id = .ok rows ∧
      rows.map (fun row => (row.start, row.stop)) =
        ranges.map fun range => (range.start, range.stop) := by
  obtain ⟨sequences, hholds⟩ := owner.storeHolds
  obtain ⟨rows, hrows, hnew, rfl, -⟩ := hholds.tryPush (SourceTokens.tryRegister_ok hpush).1
  obtain ⟨later, hheld⟩ := hlater.holds hnew
  refine ⟨rows, hheld.ranges_eq ?_, hrows.bounds⟩
  rw [List.append_assoc, List.getElem?_append_right (Nat.le_refl _), Nat.sub_self]
  rfl

theorem view_of_ranges {tokens : SourceTokens} {id : TokenSequenceId}
    {rows : List TokenSequenceRange} (h : tokens.sequenceStore.ranges id = .ok rows) :
    TokenSequenceView.new tokens id = .ok ⟨tokens, id, rows, h⟩ := by
  unfold TokenSequenceView.new
  split
  · next e he => cases h.symm.trans he
  · next found hfound =>
      cases h.symm.trans hfound
      rfl

theorem openSequence_ok {owner registered tokens : SourceTokens} {ranges : List TokenRange}
    {id : TokenSequenceId} (hpush : owner.tryRegisterTokenSequence ranges = .ok (id, registered))
    (hlater : registered.Later tokens) :
    ∃ c, TokenCursor.openSequence tokens id = .ok c ∧ Shows c (.ofRanges ranges) := by
  obtain ⟨rows, hrows, hbounds⟩ := ranges_of_registered hpush hlater
  let view : TokenSequenceView := ⟨tokens, id, rows, hrows⟩
  have hf : Listed view (.ofRanges ranges) := ⟨rfl, rfl, hbounds⟩
  have hlength : (FlatCursor.itemsOf ranges).length = Segment.totalWidth view.ranges := by
    rw [← Segment.length_flatten]
    exact congrArg List.length hf.items
  obtain ⟨c, hrun, hopened⟩ :=
    TokenCursor.fromSequencePosition_ok (Nat.zero_le (Segment.totalWidth view.ranges))
  refine ⟨c, ?_, ⟨?_, hopened.windowStart, ?_, ⟨Nat.le_refl _, ?_⟩,
    .sequence view hopened.settled hf⟩⟩
  · rw [TokenCursor.openSequence, view_of_ranges hrows]
    exact hrun
  · rw [hopened.settled.parserPosition, hopened.position]
    rfl
  · rw [hopened.windowEnd, ← hlength]
    rfl
  · show (FlatCursor.itemsOf ranges).length ≤ 0 + (FlatCursor.itemsOf ranges).length
    rw [Nat.zero_add]

theorem shows_range {tokens : SourceTokens} {range : TokenRange} {c : TokenCursor}
    (h : TokenCursor.new tokens range = .ok c) : Shows c (.ofRange range) := by
  unfold TokenCursor.new at h
  cases hvalid : tokens.validateRange range with
  | error e =>
      rw [hvalid] at h
      cases h
  | ok _ =>
      rw [hvalid] at h
      cases h
      unfold SourceTokens.validateRange at hvalid
      split at hvalid
      · cases hvalid
      · split at hvalid
        · cases hvalid
        · next hordered =>
            split at hvalid
            · cases hvalid
            · next hinside =>
                have hle := Nat.le_of_not_lt hordered
                refine ⟨rfl, rfl, rfl, ⟨Nat.le_refl _, ?_⟩,
                  .range range ⟨rfl, Nat.le_of_not_lt hinside, Nat.le_refl _, hle⟩
                    ⟨rfl, rfl, rfl⟩⟩
                show range.stop ≤ range.start + (FlatCursor.itemsOf [range]).length
                rw [FlatCursor.itemsOf, List.flatMap_singleton, List.length_range']
                omega

theorem Opened.shows {c : TokenCursor} {f : FlatCursor} (h : Opened c f) : Shows c f := by
  cases h with
  | range h => exact shows_range h
  | sequence hpush hlater h =>
      obtain ⟨c', hrun, hshows⟩ := openSequence_ok hpush hlater
      cases h.symm.trans hrun
      exact hshows

/-- A sequence that is accepted can be read, whatever is registered after it; and along every run
of moves that restores only windows within the list, a cursor answers as the index does and reads
as it does. A move that is refused changes nothing that can be read, and a window that a narrowing
answers with is one that may be restored. -/
theorem token_cursor_refines_flat_list :
    (∀ (owner registered tokens : SourceTokens) (ranges : List TokenRange) (id : TokenSequenceId),
      owner.tryRegisterTokenSequence ranges = .ok (id, registered) → registered.Later tokens →
        ∃ c, TokenCursor.openSequence tokens id = .ok c) ∧
    ∀ (c₀ : TokenCursor) (f₀ : FlatCursor), Opened c₀ f₀ → ∀ ms : List CursorMove,
      (∀ start stop, .restoreParserWindow start stop ∈ ms → f₀.Inside start stop) →
      ∃ c, c₀.moves ms = some ((f₀.moves (isEofIn c₀.tokens) ms).1.map
            (MoveAnswer.map (TokenRef.mk c₀.tokens)), c) ∧
        c.tokens = c₀.tokens ∧ ReadsAs c (f₀.moves (isEofIn c₀.tokens) ms).2 ∧
        ∀ m c', (c.move m = some (.error, c') →
            ReadsAs c' (f₀.moves (isEofIn c₀.tokens) ms).2) ∧
          ∀ start stop, c.move m = some (.window start stop, c') → f₀.Inside start stop := by
  refine ⟨?_, ?_⟩
  · intro owner registered tokens ranges id hpush hlater
    obtain ⟨c, hrun, -⟩ := openSequence_ok hpush hlater
    exact ⟨c, hrun⟩
  · intro c₀ f₀ hopened ms hrestore
    obtain ⟨c, hrun, hshows, htokens⟩ := hopened.shows.follows_moves hrestore
    obtain ⟨hbase, hranges⟩ := f₀.moves_list (isEofIn c₀.tokens) ms
    refine ⟨c, hrun, htokens, hshows.readsAs, ?_⟩
    intro m c'
    refine ⟨?_, ?_⟩
    · intro herror
      exact (hshows.of_error herror).readsAs
    · intro start stop hwindow
      rw [← FlatCursor.inside_self_iff hbase hranges]
      exact hshows.of_window hwindow

/-! ## A sequence with a gap -/

/-- Six tokens, the last of them the end of the file, and no sequence yet. -/
def sixTokens : SourceTokens where
  source := ⟨0⟩
  shapes := List.replicate 5 ⟨⟨7⟩, 0, 0⟩ ++ [⟨.EOF, 0, 0⟩]
  sequenceStore := .new ⟨0⟩ 6
  tokenStoreLengthFits := by decide
  storeLength := rfl
  storeSource := rfl
  storeHolds := ⟨[], .new ⟨0⟩ 6⟩

/-- Two ranges that touch, an empty one, and one behind a gap. -/
def gappedRanges : List TokenRange := [⟨⟨0⟩, 0, 1⟩, ⟨⟨0⟩, 1, 3⟩, ⟨⟨0⟩, 3, 3⟩, ⟨⟨0⟩, 4, 6⟩]

def sixRegistered : SourceTokens where
  source := ⟨0⟩
  shapes := sixTokens.shapes
  sequenceStore := ⟨⟨0⟩, 6, [⟨0, 1, by decide⟩, ⟨1, 3, by decide⟩, ⟨3, 3, by decide⟩,
    ⟨4, 6, by decide⟩], [0, 4], false⟩
  tokenStoreLengthFits := sixTokens.tokenStoreLengthFits
  storeLength := rfl
  storeSource := rfl
  storeHolds := by
    have hpush : (TokenSequenceStore.new ⟨0⟩ 6).tryPush gappedRanges = .ok (⟨1⟩, _) := rfl
    obtain ⟨_, _, hholds, -⟩ := (TokenSequenceStore.Holds.new ⟨0⟩ 6).tryPush hpush
    exact ⟨_, hholds⟩

theorem token_cursor_refines_flat_list_gapped :
    ∃ registered c c', sixTokens.tryRegisterTokenSequence gappedRanges = .ok (⟨1⟩, registered) ∧
      TokenCursor.openSequence registered ⟨1⟩ = .ok c ∧
      c.moves [.advance, .advance, .advance, .advance, .setPosition 9, .setPosition 3] =
        some ([.token (some ⟨registered, 0⟩), .token (some ⟨registered, 1⟩),
          .token (some ⟨registered, 2⟩), .token (some ⟨registered, 4⟩), .error, .done], c') ∧
      c'.parserPosition = 3 ∧ c'.isAtSegmentStart = true := by
  have hregister :
      sixTokens.tryRegisterTokenSequence gappedRanges = .ok (⟨1⟩, sixRegistered) := rfl
  obtain ⟨c, hopen⟩ := token_cursor_refines_flat_list.1 _ _ _ _ _ hregister .refl
  have htokens : c.tokens = sixRegistered := by
    cases hopen
    rfl
  obtain ⟨c', hmoves, -, hreads, -⟩ := token_cursor_refines_flat_list.2 _ _
    (.sequence hregister .refl hopen)
    [.advance, .advance, .advance, .advance, .setPosition 9, .setPosition 3]
    (fun _ _ h => absurd h (by simp))
  rw [htokens] at hmoves hreads
  refine ⟨_, c, c', hregister, hopen, hmoves, hreads.position, hreads.gap.2 ?_⟩
  exact ⟨2, 4, by decide, rfl, rfl, by decide⟩

end Moth.Tokenizer
