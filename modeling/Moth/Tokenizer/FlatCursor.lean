import Moth.Tokenizer.Storage

/-!
# A cursor into a flat list of tokens

What a token cursor is for: an index into the tokens of its ranges, laid end
to end, of which it may read those inside a window. Positions of a sequence
count from zero; those of a single range are the places in the source, so
they count from where the range begins.
-/

namespace Moth.Tokenizer

/-- A move of a parser on its cursor. -/
inductive CursorMove where
  | advance
  | setParserPosition (position : Nat)
  | setPosition (position : Nat)
  | narrowParserWindow (start stop : Nat)
  | restoreParserWindow (start stop : Nat)
deriving DecidableEq

inductive MoveAnswer (Token : Type) where
  | token (token : Option Token)
  | window (start stop : Nat)
  | done
  | error
deriving DecidableEq

def MoveAnswer.map {Token Token' : Type} (f : Token → Token') :
    MoveAnswer Token → MoveAnswer Token'
  | .token t => .token (t.map f)
  | .window start stop => .window start stop
  | .done => .done
  | .error => .error

structure FlatCursor where
  ranges : List TokenRange
  segmented : Bool
  base : Nat
  position : Nat
  windowStart : Nat
  windowEnd : Nat

namespace FlatCursor

/-- The source places of all tokens, in order. -/
def itemsOf (ranges : List TokenRange) : List Nat :=
  ranges.flatMap fun range => List.range' range.start (range.stop - range.start)

def ofRange (range : TokenRange) : FlatCursor :=
  ⟨[range], false, range.start, range.start, range.start, range.stop⟩

def ofRanges (ranges : List TokenRange) : FlatCursor :=
  ⟨ranges, true, 0, 0, 0, (itemsOf ranges).length⟩

def items (f : FlatCursor) : List Nat := itemsOf f.ranges

/-- The window is part of the list. -/
def Inside (f : FlatCursor) (start stop : Nat) : Prop :=
  f.base ≤ start ∧ stop ≤ f.base + f.items.length

/-! ## Reading -/

def tokenAt (f : FlatCursor) (position : Nat) : Option Nat :=
  if f.windowStart ≤ position ∧ position < f.windowEnd then f.items[position - f.base]? else none

def current (f : FlatCursor) : Option Nat := f.tokenAt f.position

def peekNext (f : FlatCursor) : Option Nat := f.tokenAt (f.position + 1)

def previous (f : FlatCursor) : Option Nat :=
  if f.position = 0 then none else f.tokenAt (f.position - 1)

/-- Source tokens are left out between the token before the position and the one at it. -/
def AtGap (f : FlatCursor) : Prop :=
  ∃ before here, f.base < f.position ∧ f.items[f.position - f.base - 1]? = some before ∧
    f.items[f.position - f.base]? = some here ∧ before + 1 ≠ here

/-! ## Moving -/

/-- The position of the first token at or after a place in the source that a range touches. -/
def landing (f : FlatCursor) (place : Nat) : Option Nat :=
  if f.ranges.any fun range => decide (range.start ≤ place) && decide (place ≤ range.stop) then
    some (f.base + f.items.countP fun item => decide (item < place))
  else none

def moveTo (f : FlatCursor) (position : Nat) : MoveAnswer Nat × FlatCursor :=
  if f.windowStart ≤ position ∧ position ≤ f.windowEnd then (.done, { f with position })
  else (.error, f)

def move (isEof : Nat → Bool) (f : FlatCursor) : CursorMove → MoveAnswer Nat × FlatCursor
  | .advance =>
      match f.current with
      | none => (.token none, f)
      | some token =>
          (.token (some token), if isEof token then f else { f with position := f.position + 1 })
  | .setParserPosition position => if f.segmented then f.moveTo position else (.error, f)
  | .setPosition place =>
      match f.landing place with
      | none => (.error, f)
      | some position => f.moveTo position
  | .narrowParserWindow start stop =>
      if start ≤ stop ∧ f.windowStart ≤ start ∧ stop ≤ f.windowEnd then
        (.window f.windowStart f.windowEnd, { f with windowStart := start, windowEnd := stop })
      else (.error, f)
  | .restoreParserWindow start stop => (.done, { f with windowStart := start, windowEnd := stop })

theorem move_error {isEof : Nat → Bool} {f f' : FlatCursor} {m : CursorMove}
    (h : f.move isEof m = (.error, f')) : f' = f := by
  have hto : ∀ position, f.moveTo position = (.error, f') → f' = f := by
    intro position hmove
    unfold moveTo at hmove
    split at hmove
    · cases hmove
    · cases hmove
      rfl
  cases m with
  | advance =>
      simp only [move] at h
      split at h <;> cases h
  | setParserPosition position =>
      simp only [move] at h
      split at h
      · exact hto position h
      · cases h
        rfl
  | setPosition place =>
      simp only [move] at h
      split at h
      · cases h
        rfl
      · next position _ => exact hto position h
  | narrowParserWindow start stop =>
      simp only [move] at h
      split at h
      · cases h
      · cases h
        rfl
  | restoreParserWindow start stop => cases h

def moves (isEof : Nat → Bool) : FlatCursor → List CursorMove → List (MoveAnswer Nat) × FlatCursor
  | f, [] => ([], f)
  | f, m :: rest =>
      let moved := f.move isEof m
      let later := moved.2.moves isEof rest
      (moved.1 :: later.1, later.2)

end FlatCursor

end Moth.Tokenizer
