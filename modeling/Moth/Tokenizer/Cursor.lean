import Moth.Tokenizer.Storage

/-!
# The token cursor

`tokenizer/cursor.rs`: a cursor over one range of a source, or over a sequence
of ranges. A cursor over a sequence keeps, beside its place in the source, its
dense position among the tokens of the sequence, where its segment begins
there, and the segments with tokens on either side of it.

Operations on `&mut self` return the cursor they leave behind, also beside an
error.
-/

namespace Moth.Tokenizer

open Moth.Lib

/-- `InfrastructureFailure::internal` at the tokenization stage. -/
structure InfrastructureFailure where
  message : String
deriving DecidableEq

inductive TokenCursorBounds where
  | Contiguous (range : TokenRange)
  | Segmented (view : TokenSequenceView)

structure TokenCursor where
  tokens : SourceTokens
  bounds : TokenCursorBounds
  segmentIndex : Nat
  next : Nat
  logicalPosition : Nat
  logicalLength : Nat
  segmentStartPosition : Nat
  previousSegmentIndex : Option Nat
  nextSegmentIndex : Option Nat
  windowStart : Nat
  windowEnd : Nat

/-- `u32::try_from(position).unwrap_or(u32::MAX)`. -/
def clampRaw (position : Nat) : Nat := min position U32_MAX

def nextNonEmptySegment (ranges : List TokenSequenceRange) (start : Nat) : Option Nat :=
  (ranges.zipIdx.drop start).findSome? fun entry =>
    if entry.1.start ≠ entry.1.stop then some entry.2 else none

def previousNonEmptySegment (ranges : List TokenSequenceRange) : Nat → Option Nat
  | 0 => none
  | index + 1 =>
      if (ranges[index]?).any fun range => range.start ≠ range.stop then some index
      else previousNonEmptySegment ranges index

/-- The place in the source of a dense position in the segment that begins at `segmentStart`. -/
def segmentPlace (range : TokenSequenceRange) (segmentStart position : Nat) :
    Except TokenSequenceError Nat :=
  match checkedSub position segmentStart with
  | none => .error .Capacity
  | some offset =>
      if U32_MAX < offset then .error .Capacity
      else
        match checkedAdd U32_MAX range.start offset with
        | none => .error .Capacity
        | some next => .ok next

namespace TokenCursor

/-! ## Construction -/

def new (tokens : SourceTokens) (range : TokenRange) : Except TokenRangeError TokenCursor :=
  match tokens.validateRange range with
  | .error e => .error e
  | .ok () => .ok
      { tokens
        bounds := .Contiguous range
        segmentIndex := 0
        next := range.start
        logicalPosition := 0
        logicalLength := 0
        segmentStartPosition := 0
        previousSegmentIndex := none
        nextSegmentIndex := none
        windowStart := range.start
        windowEnd := range.stop }

/-- The loop of `from_sequence_position` over the entries from `segmentIndex` on. -/
def fromSequenceEntries (view : TokenSequenceView) (logicalPosition logicalLength : Nat) :
    List TokenSequenceRange → Nat → Nat → Option Nat → Except TokenSequenceError TokenCursor
  | [], _, _, previousSegmentIndex => .ok
      { tokens := view.tokens
        bounds := .Segmented view
        segmentIndex := view.ranges.length
        next := (view.ranges.getLast?.map (·.stop)).getD 0
        logicalPosition := logicalLength
        logicalLength
        segmentStartPosition := logicalLength
        previousSegmentIndex
        nextSegmentIndex := none
        windowStart := 0
        windowEnd := logicalLength }
  | entry :: rest, segmentIndex, logicalStart, previousSegmentIndex =>
      match checkedAdd USIZE_MAX logicalStart entry.width with
      | none => .error .Capacity
      | some segmentEnd =>
          if logicalPosition < segmentEnd then
            match segmentPlace entry logicalStart logicalPosition with
            | .error e => .error e
            | .ok next => .ok
                { tokens := view.tokens
                  bounds := .Segmented view
                  segmentIndex
                  next
                  logicalPosition
                  logicalLength
                  segmentStartPosition := logicalStart
                  previousSegmentIndex
                  nextSegmentIndex := nextNonEmptySegment view.ranges (segmentIndex + 1)
                  windowStart := 0
                  windowEnd := logicalLength }
          else
            fromSequenceEntries view logicalPosition logicalLength rest (segmentIndex + 1)
              segmentEnd (if entry.start ≠ entry.stop then some segmentIndex
                else previousSegmentIndex)

def fromSequencePosition (view : TokenSequenceView) (logicalPosition logicalLength : Nat) :
    Except TokenSequenceError TokenCursor :=
  if logicalLength < logicalPosition then
    .error (.OutOfRange (clampRaw logicalPosition) logicalLength)
  else fromSequenceEntries view logicalPosition logicalLength view.ranges 0 0 none

def fromSequence (view : TokenSequenceView) : Except TokenSequenceError TokenCursor :=
  fromSequencePosition view 0 view.len

/-! ## The window -/

def parserPosition (c : TokenCursor) : Nat :=
  match c.bounds with
  | .Contiguous _ => c.next
  | .Segmented _ => c.logicalPosition

def positionInWindow (c : TokenCursor) (position : Nat) : Bool :=
  decide (c.windowStart ≤ position) && decide (position < c.windowEnd)

def narrowParserWindow (c : TokenCursor) (start stop : Nat) :
    Except InfrastructureFailure (Nat × Nat) × TokenCursor :=
  if stop < start then (.error ⟨"token cursor parser window is inverted"⟩, c)
  else if start < c.windowStart ∨ c.windowEnd < stop then
    (.error ⟨"token cursor parser window would widen its parent view"⟩, c)
  else (.ok (c.windowStart, c.windowEnd), { c with windowStart := start, windowEnd := stop })

def restoreParserWindow (c : TokenCursor) (window : Nat × Nat) : TokenCursor :=
  { c with windowStart := window.1, windowEnd := window.2 }

/-! ## Reading -/

def currentRange (c : TokenCursor) : Option TokenRange :=
  match c.bounds with
  | .Contiguous range => some range
  | .Segmented view => (view.rangeAt c.segmentIndex).toOption

def current (c : TokenCursor) : Option TokenRef :=
  if c.positionInWindow c.parserPosition then do
    let range ← c.currentRange
    if range.stop ≤ c.next then none else (c.tokens.token c.next).toOption
  else none

def isAtEnd (c : TokenCursor) : Bool := c.current.isNone

/-- One token ahead, in the same range. -/
def peekNext (c : TokenCursor) : Option TokenRef := do
  let position ← checkedAdd USIZE_MAX c.parserPosition 1
  if c.positionInWindow position then
    let range ← c.currentRange
    let next ← checkedAdd U32_MAX c.next 1
    if range.stop ≤ next then none else (c.tokens.token next).toOption
  else none

/-- One token ahead in a sequence: in the segment, or first in the next one with tokens. -/
def segmentPeekNext (c : TokenCursor) (view : TokenSequenceView) : Option TokenRef := do
  let range ← c.currentRange
  match (checkedAdd U32_MAX c.next 1).filter (· < range.stop) with
  | some next => (c.tokens.token next).toOption
  | none =>
      let segmentIndex ← c.nextSegmentIndex
      let nextRange ← (view.rangeAt segmentIndex).toOption
      (c.tokens.token nextRange.start).toOption

def parserPeekNext (c : TokenCursor) : Option TokenRef := do
  let position ← checkedAdd USIZE_MAX c.parserPosition 1
  if c.positionInWindow position then
    match c.bounds with
    | .Contiguous _ => c.peekNext
    | .Segmented view => c.segmentPeekNext view
  else none

/-- The last token of the previous segment that has tokens. -/
def previousSegmentLast (c : TokenCursor) (view : TokenSequenceView) : Option TokenRef := do
  let previousIndex ← c.previousSegmentIndex
  let previousRange ← (view.rangeAt previousIndex).toOption
  let previous ← checkedSub previousRange.stop 1
  (c.tokens.token previous).toOption

def segmentPrevious (c : TokenCursor) (view : TokenSequenceView) : Option TokenRef :=
  if c.logicalPosition = 0 then none
  else
    match c.currentRange with
    | some range =>
        if range.start < c.next then do
          let previous ← checkedSub c.next 1
          (c.tokens.token previous).toOption
        else c.previousSegmentLast view
    | none => c.previousSegmentLast view

def contiguousPrevious (c : TokenCursor) (range : TokenRange) : Option TokenRef := do
  let previous ← checkedSub c.next 1
  if previous < range.start then none else (c.tokens.token previous).toOption

def parserPrevious (c : TokenCursor) : Option TokenRef := do
  let position ← checkedSub c.parserPosition 1
  if c.positionInWindow position then
    match c.bounds with
    | .Contiguous range => c.contiguousPrevious range
    | .Segmented view => c.segmentPrevious view
  else none

/-- A token of a sequence: near the cursor from what it keeps, else by a walk from the front. -/
def segmentTokenAt (c : TokenCursor) (view : TokenSequenceView) (index : Nat) :
    Option TokenRef :=
  if index = c.logicalPosition then c.current
  else do
    let following ← checkedAdd USIZE_MAX c.logicalPosition 1
    if index = following then c.parserPeekNext
    else if checkedAdd USIZE_MAX index 1 = some c.logicalPosition then c.parserPrevious
    else
      let other ← (fromSequencePosition view index c.logicalLength).toOption
      other.current

def parserTokenAt (c : TokenCursor) (index : Nat) : Option TokenRef :=
  if c.positionInWindow index then
    match c.bounds with
    | .Contiguous _ => do
        let index ← TokenIndex.tryFromIndex index
        (c.tokens.token index).toOption
    | .Segmented view => c.segmentTokenAt view index
  else none

/-- Whether source tokens are left out right before the segment the cursor is at the start of. -/
def isAtSegmentStart (c : TokenCursor) : Bool :=
  match c.bounds with
  | .Contiguous _ => false
  | .Segmented view =>
      match (view.rangeAt c.segmentIndex).toOption with
      | none => false
      | some current =>
          if c.next ≠ current.start then false
          else
            match c.previousSegmentIndex with
            | none => false
            | some previousIndex =>
                (view.rangeAt previousIndex).toOption.any fun previous =>
                  previous.stop ≠ current.start

/-! ## Moving -/

/-- The loop of `skip_empty_segments`, over the ranges from the cursor's segment on. -/
def skipEmptyFrom (ranges : List TokenSequenceRange) :
    List TokenSequenceRange → TokenCursor → TokenCursor
  | [], c => { c with segmentStartPosition := c.logicalLength, nextSegmentIndex := none }
  | range :: rest, c =>
      let next := if c.next < range.start then range.start else c.next
      if next < range.stop then
        { c with
          next
          nextSegmentIndex := nextNonEmptySegment ranges (c.segmentIndex + 1) }
      else
        skipEmptyFrom ranges rest { c with
          previousSegmentIndex :=
            if range.start ≠ range.stop then some c.segmentIndex else c.previousSegmentIndex
          segmentIndex := saturatingAdd c.segmentIndex 1
          segmentStartPosition := saturatingAdd c.segmentStartPosition range.width
          next := (rest.head?.map (·.start)).getD range.stop }

def skipEmptySegments (c : TokenCursor) : TokenCursor :=
  match c.bounds with
  | .Contiguous _ => c
  | .Segmented view => skipEmptyFrom view.ranges (view.ranges.drop c.segmentIndex) c

/-- The loop of `set_parser_position` towards later segments. `none`: out of turns. -/
def moveForward (view : TokenSequenceView) (position : Nat) :
    Nat → TokenCursor → Option (Except TokenSequenceError Unit × TokenCursor)
  | 0, _ => none
  | turns + 1, c =>
      match view.ranges[c.segmentIndex]? with
      | none => some (.error (.OutOfRange (clampRaw position) c.logicalLength), c)
      | some range =>
          match checkedAdd USIZE_MAX c.segmentStartPosition range.width with
          | none => some (.error .Capacity, c)
          | some segmentEnd =>
              if position ≤ segmentEnd then
                match segmentPlace range c.segmentStartPosition position with
                | .error e => some (.error e, c)
                | .ok next =>
                    let moved := { c with next, logicalPosition := position }
                    some (.ok (), if position = segmentEnd then moved.skipEmptySegments else moved)
              else
                match c.nextSegmentIndex with
                | none => some (.error (.OutOfRange (clampRaw position) c.logicalLength), c)
                | some nextSegmentIndex => do
                    let nextRange ← view.ranges[nextSegmentIndex]?
                    moveForward view position turns { c with
                      previousSegmentIndex := some c.segmentIndex
                      segmentIndex := nextSegmentIndex
                      segmentStartPosition := segmentEnd
                      next := nextRange.start
                      nextSegmentIndex := nextNonEmptySegment view.ranges (nextSegmentIndex + 1) }

/-- The loop towards earlier segments. -/
def moveBackward (view : TokenSequenceView) (position : Nat) :
    Nat → TokenCursor → Option (Except TokenSequenceError Unit × TokenCursor)
  | 0, _ => none
  | turns + 1, c =>
      match (view.ranges[c.segmentIndex]?).filter fun _ => c.segmentStartPosition ≤ position with
      | some range =>
          match segmentPlace range c.segmentStartPosition position with
          | .error e => some (.error e, c)
          | .ok next => some (.ok (), { c with next, logicalPosition := position })
      | none =>
          match c.previousSegmentIndex with
          | none => some (.error (.OutOfRange (clampRaw position) c.logicalLength), c)
          | some previousSegmentIndex => do
              let previousRange ← view.ranges[previousSegmentIndex]?
              match checkedSub c.segmentStartPosition previousRange.width with
              | none =>
                  some (.error .Capacity, { c with segmentIndex := previousSegmentIndex })
              | some segmentStartPosition =>
                  moveBackward view position turns { c with
                    segmentIndex := previousSegmentIndex
                    segmentStartPosition
                    next := previousRange.start
                    nextSegmentIndex := nextNonEmptySegment view.ranges (previousSegmentIndex + 1)
                    previousSegmentIndex :=
                      previousNonEmptySegment view.ranges previousSegmentIndex }

/-- Each loop turns at most once for a segment. -/
def setParserPosition (c : TokenCursor) (position : Nat) :
    Option (Except TokenSequenceError Unit × TokenCursor) :=
  match c.bounds with
  | .Contiguous _ => some (.error .Absent, c)
  | .Segmented view =>
      if position < c.windowStart ∨ c.windowEnd < position then
        some (.error (.OutOfRange (clampRaw position) c.windowEnd), c)
      else if position = c.logicalPosition then some (.ok (), c)
      else if c.logicalPosition < position then
        moveForward view position (view.ranges.length + 1) c
      else moveBackward view position (view.ranges.length + 1) c

/-- The loop of `set_position` over the entries from `segmentIndex` on: the cursor at the first
one that the position touches. -/
def candidateAt (c : TokenCursor) (view : TokenSequenceView) (position : Nat) :
    List TokenSequenceRange → Nat → Nat → Option Nat → Option TokenCursor
  | [], _, _, _ => none
  | entry :: rest, segmentIndex, logicalStart, previousSegmentIndex =>
      if entry.start ≤ position ∧ position ≤ entry.stop then
        some
          { tokens := view.tokens
            bounds := .Segmented view
            segmentIndex
            next := position
            logicalPosition := saturatingAdd logicalStart (position - entry.start)
            logicalLength := c.logicalLength
            segmentStartPosition := logicalStart
            previousSegmentIndex
            nextSegmentIndex := nextNonEmptySegment view.ranges (segmentIndex + 1)
            windowStart := c.windowStart
            windowEnd := c.windowEnd }
      else
        candidateAt c view position rest (segmentIndex + 1)
          (saturatingAdd logicalStart entry.width)
          (if entry.start ≠ entry.stop then some segmentIndex else previousSegmentIndex)

def setPosition (c : TokenCursor) (position : Nat) :
    Except TokenRangeError Unit × TokenCursor :=
  match c.bounds with
  | .Contiguous range =>
      if position < c.windowStart ∨ c.windowEnd < position then
        (.error (.OutOfBounds position position c.windowEnd), c)
      else if position < range.start ∨ range.stop < position then
        (.error (.OutOfBounds position position range.stop), c)
      else (.ok (), { c with next := position })
  | .Segmented view =>
      match c.candidateAt view position view.ranges 0 0 none with
      | none => (.error (.OutOfBounds position position c.logicalLength), c)
      | some candidate =>
          if candidate.logicalPosition < c.windowStart ∨
              c.windowEnd < candidate.logicalPosition then
            (.error (.OutOfBounds position position c.windowEnd), c)
          else (.ok (), candidate.skipEmptySegments)

/-- The move of `advance` off a token of `range`. -/
def stepPast (c : TokenCursor) (range : TokenRange) : TokenCursor :=
  match c.bounds with
  | .Contiguous _ =>
      match (checkedAdd U32_MAX c.next 1).filter (· < range.stop) with
      | some next => { c with next }
      | none => { c with next := range.stop }
  | .Segmented _ =>
      let moved := { c with logicalPosition := saturatingAdd c.logicalPosition 1 }
      match (checkedAdd U32_MAX c.next 1).filter (· < range.stop) with
      | some next => { moved with next }
      | none => skipEmptySegments { moved with
          next := range.stop
          previousSegmentIndex := some c.segmentIndex
          segmentIndex := saturatingAdd c.segmentIndex 1
          segmentStartPosition :=
            saturatingAdd c.segmentStartPosition (range.stop - range.start) }

/-- The token moved past. The end-of-file token is returned without a move. -/
def advance (c : TokenCursor) : Option TokenRef × TokenCursor :=
  match c.current, c.currentRange with
  | some current, some range =>
      if current.isEof then (some current, c) else (some current, c.stepPast range)
  | _, _ => (none, c)

end TokenCursor

end Moth.Tokenizer
