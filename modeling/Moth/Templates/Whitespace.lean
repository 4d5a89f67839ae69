import Moth.Lib.Utf8Text

/-!
# Default whitespace of template bodies

`templates/styles/whitespace.rs`: the pass that trims a template body at the
boundaries of its run and takes the shared indentation off its lines. Widths
count characters and cuts are at byte offsets; `none` stands for a cut inside
a character.
-/

namespace Moth.Templates

open Moth.Lib

inductive TemplateWhitespacePass where
  | DefaultTemplateBody
deriving DecidableEq

inductive TemplateBodyRunPosition where
  | Only
  | First
  | Middle
  | Last
deriving DecidableEq

namespace TemplateBodyRunPosition

def isFirst : TemplateBodyRunPosition → Bool
  | .Only | .First => true
  | .Middle | .Last => false

def isLast : TemplateBodyRunPosition → Bool
  | .Only | .Last => true
  | .First | .Middle => false

end TemplateBodyRunPosition

structure TemplateWhitespacePassProfile where
  pass : TemplateWhitespacePass
  trimLeadingBoundary : Bool
  trimTrailingBoundary : Bool
deriving DecidableEq

def TemplateWhitespacePassProfile.defaultTemplateBody : TemplateWhitespacePassProfile :=
  ⟨.DefaultTemplateBody, true, true⟩

/-! ## Characters -/

/-- `char::is_whitespace`: the property `White_Space`. -/
def isWhitespace (c : Char) : Bool :=
  let n := c.toNat
  (9 ≤ n && n ≤ 13) || n == 32 || n == 133 || n == 160 || n == 5760 ||
    (8192 ≤ n && n ≤ 8202) || n == 8232 || n == 8233 || n == 8239 || n == 8287 || n == 12288

def isNonNewlineWhitespace (c : Char) : Bool := isWhitespace c && c != '\n' && c != '\r'

/-- The byte length of the leading run of horizontal whitespace. -/
def horizontalWhitespaceLen (text : List Char) : Nat :=
  utf8Length (text.takeWhile isNonNewlineWhitespace)

/-! ## The shared indentation -/

/-- The loop over lines of `compute_leading_dedent_info`, for as many turns. -/
def scanLeadingLines (content : List Char) (leadingBoundaryEnd : Nat) :
    Nat → Nat → Bool → Nat → Option (Nat × Nat)
  | 0, _, _, _ => none
  | turns + 1, indentationStart, sawBlankLine, firstBlankLineIndentation => do
      let line ← dropBytes content indentationStart
      let cursor := indentationStart + horizontalWhitespaceLen line
      let indentation ← sliceBytes content indentationStart cursor
      let rest ← dropBytes content cursor
      match rest.head? with
      | some c =>
          if c = '\n' then
            scanLeadingLines content leadingBoundaryEnd turns (cursor + 1) true
              (if sawBlankLine then firstBlankLineIndentation else utf8Length indentation)
          else
            return (indentation.length,
              if sawBlankLine then leadingBoundaryEnd + firstBlankLineIndentation else cursor)
      | none =>
          if sawBlankLine then return (0, leadingBoundaryEnd + firstBlankLineIndentation)
          else return (indentation.length, cursor)

/-- The shared width in characters, and the byte end of the leading boundary. There are no more
lines than characters and one. -/
def computeLeadingDedentInfo (content : List Char) : Option (Nat × Nat) := do
  let cursor := horizontalWhitespaceLen content
  let rest ← dropBytes content cursor
  if rest.head? ≠ some '\n' then return (0, 0)
  else scanLeadingLines content (cursor + 1) (content.length + 1) (cursor + 1) false 0

/-- `next_if` on horizontal whitespace, as often as the width says. -/
def dropIndentation : Nat → List Char → List Char
  | 0, chars => chars
  | _ + 1, [] => []
  | width + 1, c :: chars =>
      if isNonNewlineWhitespace c then dropIndentation width chars else c :: chars

theorem length_dropIndentation_le (width : Nat) (chars : List Char) :
    (dropIndentation width chars).length ≤ chars.length := by
  induction width generalizing chars with
  | zero => exact Nat.le_refl _
  | succ width ih =>
      cases chars with
      | nil => exact Nat.le_refl _
      | cons c chars =>
          rw [dropIndentation]
          split
          · exact Nat.le_succ_of_le (ih chars)
          · exact Nat.le_refl _

/-- The loop over characters of `dedent_after_newlines`. -/
def dedentChars (width : Nat) : List Char → List Char
  | [] => []
  | c :: chars =>
      if c ≠ '\n' then c :: dedentChars width chars
      else c :: dedentChars width (dropIndentation width chars)
termination_by chars => chars.length
decreasing_by
  · exact Nat.lt_succ_self _
  · exact Nat.lt_succ_of_le (length_dropIndentation_le width chars)

def dedentAfterNewlines (input : List Char) (dedentWidth : Nat) : List Char :=
  if dedentWidth = 0 then input else dedentChars dedentWidth input

/-! ## The boundaries -/

/-- The loop of `trim_leading_blank_line_indentation` from a line start, for as many turns. -/
def trimBlankLines (content : List Char) : Nat → Nat → List Char → Option (List Char)
  | 0, _, _ => none
  | turns + 1, lineStart, output => do
      let rest ← dropBytes content lineStart
      let indentationLen := horizontalWhitespaceLen rest
      let after ← dropBytes rest indentationLen
      match after.head? with
      | some c =>
          if c = '\n' then
            trimBlankLines content turns (lineStart + (indentationLen + 1)) (output ++ ['\n'])
          else return output ++ rest
      | none => return output

def trimLeadingBlankLineIndentation (content : List Char) : Option (List Char) :=
  trimBlankLines content (content.length + 1) 0 []

/-- `rfind` of a character: the byte offset of the last one. -/
def rfindChar (wanted : Char) : List Char → Option Nat
  | [] => none
  | c :: chars =>
      match rfindChar wanted chars with
      | some offset => some (c.utf8Size + offset)
      | none => if c = wanted then some 0 else none

def trimTrailingWhitespaceFromFinalNewline (content : List Char) : Option (List Char) :=
  match rfindChar '\n' content with
  | none => some content
  | some lastNewline => do
      let rest ← dropBytes content (lastNewline + 1)
      if rest.all isNonNewlineWhitespace then takeBytes content lastNewline else return content

/-! ## Pieces -/

inductive FormatterOpaqueKind where
  | ChildTemplate
  | DynamicExpression
  | SiteRoot
deriving DecidableEq

structure FormatterOpaquePiece where
  id : Nat
  kind : FormatterOpaqueKind
deriving DecidableEq

inductive FormatterOutputPiece where
  | Text (text : List Char)
  | Opaque (anchor : FormatterOpaquePiece)
deriving DecidableEq

namespace FormatterOutputPiece

/-- Text that is not empty. -/
def nonEmptyText : FormatterOutputPiece → Option (List Char)
  | .Text [] => none
  | .Text text => some text
  | .Opaque _ => none

def isNonEmptyText (piece : FormatterOutputPiece) : Bool := piece.nonEmptyText.isSome

def isEmptyText : FormatterOutputPiece → Bool
  | .Text [] => true
  | .Text _ => false
  | .Opaque _ => false

end FormatterOutputPiece

/-- `rposition` of a piece with text. -/
def lastTextIndex : List FormatterOutputPiece → Option Nat
  | [] => none
  | piece :: pieces =>
      match lastTextIndex pieces with
      | some index => some (index + 1)
      | none => if piece.isNonEmptyText then some 0 else none

/-- What a pass has found out before it rewrites pieces. -/
structure WhitespacePlan where
  dedentWidth : Nat
  leadingTrimEnd : Nat
  firstTextIndex : Option Nat
  lastTextIndex : Option Nat
  trimLeading : Bool
  trimTrailing : Bool
  leadingTextIsRunBoundary : Bool
  trailingTextIsRunBoundary : Bool

namespace WhitespacePlan

/-- The piece is the first text, at the start of the run. -/
def leads (plan : WhitespacePlan) (index : Nat) : Bool :=
  plan.trimLeading && decide (plan.firstTextIndex = some index) && plan.leadingTextIsRunBoundary

/-- The piece is the last text, at the end of the run. -/
def trails (plan : WhitespacePlan) (index : Nat) : Bool :=
  plan.trimTrailing && decide (plan.lastTextIndex = some index) && plan.trailingTextIsRunBoundary

end WhitespacePlan

def trimLeadingText (plan : WhitespacePlan) (index : Nat) (text : List Char) :
    Option (List Char) :=
  if plan.leads index && decide (0 < plan.leadingTrimEnd) then
    (dropBytes text plan.leadingTrimEnd).bind trimLeadingBlankLineIndentation
  else some text

def dedentText (plan : WhitespacePlan) (text : List Char) : List Char :=
  if 0 < plan.dedentWidth then dedentAfterNewlines text plan.dedentWidth else text

def trimTrailingText (plan : WhitespacePlan) (index : Nat) (text : List Char) :
    Option (List Char) :=
  if plan.trails index then trimTrailingWhitespaceFromFinalNewline text else some text

/-- One text piece that is not empty. -/
def normalizeText (plan : WhitespacePlan) (index : Nat) (text : List Char) :
    Option (List Char) :=
  (trimLeadingText plan index text).bind fun text =>
    trimTrailingText plan index (dedentText plan text)

def normalizePiece (plan : WhitespacePlan) (index : Nat) :
    FormatterOutputPiece → Option FormatterOutputPiece
  | .Opaque id => some (.Opaque id)
  | .Text [] => some (.Text [])
  | .Text text => (normalizeText plan index text).map .Text

def normalizePieces (plan : WhitespacePlan) :
    Nat → List FormatterOutputPiece → Option (List FormatterOutputPiece)
  | _, [] => some []
  | index, piece :: pieces => do
      let first ← normalizePiece plan index piece
      let later ← normalizePieces plan (index + 1) pieces
      return first :: later

def normalizeStructuredDefaultWhitespace (pieces : List FormatterOutputPiece)
    (trimLeading trimTrailing : Bool) : Option (List FormatterOutputPiece) := do
  let info ←
    match pieces.findSome? (·.nonEmptyText) with
    | some text => computeLeadingDedentInfo text
    | none => some (0, 0)
  let firstIndex := pieces.findIdx? (·.isNonEmptyText)
  let lastIndex := lastTextIndex pieces
  normalizePieces
    { dedentWidth := info.1
      leadingTrimEnd := info.2
      firstTextIndex := firstIndex
      lastTextIndex := lastIndex
      trimLeading
      trimTrailing
      leadingTextIsRunBoundary :=
        firstIndex.any fun index => (pieces.take index).all (·.isEmptyText)
      trailingTextIsRunBoundary :=
        lastIndex.any fun index => (pieces.drop (index + 1)).all (·.isEmptyText) }
    0 pieces

def applyStructuredWhitespacePass (pieces : List FormatterOutputPiece)
    (pass : TemplateWhitespacePassProfile) (runPosition : TemplateBodyRunPosition) :
    Option (List FormatterOutputPiece) :=
  let trimLeading := pass.trimLeadingBoundary && runPosition.isFirst
  let trimTrailing := pass.trimTrailingBoundary && runPosition.isLast
  match pass.pass with
  | .DefaultTemplateBody => normalizeStructuredDefaultWhitespace pieces trimLeading trimTrailing

end Moth.Templates
