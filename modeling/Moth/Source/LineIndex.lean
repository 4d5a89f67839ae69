import Moth.Lib.Utf8Text

/-!
# Lines and columns

`source/line_index.rs`: the line-start table of a text, and the conversion of
byte offsets to lines and columns over it.
-/

namespace Moth.Source

open Moth.Lib

/-- `as u32`. -/
def asU32 (n : Nat) : Nat := n % 4294967296

/-! ## The table -/

/-- Whether the byte ends its line. The `\r` of a CRLF pair does not. -/
def opensNextLine (bytes : List UInt8) (offset : Nat) (byte : UInt8) : Bool :=
  byte == 10 || (byte == 13 && bytes[offset + 1]? != some 10)

/-- The pass that fills the table. The last byte opens no line. -/
def lineStartOffsets (text : List Char) : List Nat :=
  let bytes := utf8 text
  if bytes.isEmpty then []
  else
    0 :: bytes.dropLast.zipIdx.filterMap fun entry =>
      if opensNextLine bytes entry.2 entry.1 then some (asU32 entry.2 + 1) else none

/-! ## The index -/

structure LineIndex where
  text : List Char
  lineStarts : List Nat

structure LinePosition where
  line : Nat
  column : Nat
deriving DecidableEq

def lenUtf16 (scalar : Char) : Nat := if scalar.toNat < 65536 then 1 else 2

def stripSuffix (suffix : Char) (line : List Char) : List Char :=
  if line.getLast? = some suffix then line.dropLast else line

namespace LineIndex

def lineByteRange (self : LineIndex) (line : Nat) : Option (Nat × Nat) :=
  match self.lineStarts[line]? with
  | none => none
  | some start =>
      some (start, (self.lineStarts[line + 1]?).getD (asU32 (utf8Length self.text)))

/-- The line without its terminator. -/
def lineText (self : LineIndex) (line : Nat) : Option (List Char) := do
  let range ← self.lineByteRange line
  let line ← sliceBytes self.text range.1 range.2
  pure (stripSuffix '\r' (stripSuffix '\n' line))

/-- The partition point is the number of starts up to the offset. -/
def lineOfOffset (self : LineIndex) (offset : Nat) : Option Nat :=
  if utf8Length self.text < offset then none
  else if self.text.isEmpty then some 0
  else
    let followingLine := self.lineStarts.findIdx fun start => !decide (start ≤ offset)
    some (asU32 followingLine - 1)

/-- The line of an offset, its visible text, and the offset within it. -/
def lineAndAuthoredOffset (self : LineIndex) (offset : Nat) : Option (Nat × List Char × Nat) :=
  if self.text.isEmpty then if offset = 0 then some (0, self.text, 0) else none
  else do
    let line ← self.lineOfOffset offset
    let range ← self.lineByteRange line
    let lineText ← self.lineText line
    pure (line, lineText, offset - range.1)

def position (self : LineIndex) (offset : Nat) : Option LinePosition := do
  let (line, lineText, authoredOffset) ← self.lineAndAuthoredOffset offset
  let column := ((charIndices lineText 0).takeWhile fun entry =>
    decide (asU32 entry.1 < authoredOffset)).length
  pure ⟨line, asU32 column⟩

/-- The loop of `utf16_column`. -/
def utf16Loop (authoredOffset : Nat) : List (Nat × Char) → Nat → Nat
  | [], column => column
  | (byteOffset, scalar) :: rest, column =>
      if authoredOffset ≤ asU32 byteOffset then column
      else utf16Loop authoredOffset rest (asU32 (column + lenUtf16 scalar))

def utf16Column (self : LineIndex) (offset : Nat) : Option Nat := do
  let (_, lineText, authoredOffset) ← self.lineAndAuthoredOffset offset
  pure (utf16Loop authoredOffset (charIndices lineText 0) 0)

end LineIndex

end Moth.Source
