import Moth.Lib.BitFields

/-!
# Packed source spans

`source/span_encoding.rs` and `source/span.rs`: a half-open byte range in one
word of 22 start bits and 10 length bits, or the index of a row in its source's
extended table. A word is stored plus one, so that no span is zero.

`none` stands for a stop of the compiler: a reserved word or a row that is not
there.
-/

namespace Moth.Source

open Moth.Lib

abbrev U32 : Type := BitVec 32

/-- `checked_add`. -/
def checkedAdd (a b : U32) : Option U32 :=
  if a.toNat + b.toNat < 4294967296 then some (a + b) else none

/-! ## The codec -/

def lengthBits : Nat := 10

def lengthSentinel : U32 := 1023

def inlineStartLimit : Nat := 4194304

def inlineMaxLength : Nat := 1022

def maxExtendedIndex : Nat := 4194302

inductive DecodedSpan where
  | Inline (start length : U32)
  | Extended (index : U32)
deriving DecidableEq

def fitsInline (start length : U32) : Bool :=
  decide (start.toNat < inlineStartLimit ∧ length.toNat ≤ inlineMaxLength)

def encodeInline (start length : U32) : U32 := start <<< lengthBits ||| length

def encodeExtendedIndex (index : U32) : Option U32 :=
  if maxExtendedIndex < index.toNat then none else some (index <<< lengthBits ||| lengthSentinel)

def decodeLogical (logical : U32) : DecodedSpan :=
  let lengthCode := logical &&& lengthSentinel
  let payload := logical >>> lengthBits
  if lengthCode = lengthSentinel then .Extended payload else .Inline payload lengthCode

/-- A span. Its stored word is not zero. -/
structure LocalSpan where
  stored : U32
  nonzero : stored ≠ 0
deriving DecidableEq

def storeLogical (logical : U32) : Option LocalSpan :=
  if h : logical + 1 ≠ 0 then some ⟨logical + 1, h⟩ else none

def LocalSpan.loadLogical (span : LocalSpan) : U32 := span.stored - 1

/-! ## Ranges and tables -/

structure ExtendedSpan where
  start : U32
  length : U32
deriving DecidableEq

structure ExtendedSpanBuilder where
  entries : List ExtendedSpan := []
deriving DecidableEq

structure ExtendedSpanTable where
  entries : List ExtendedSpan
deriving DecidableEq

def ExtendedSpanBuilder.freeze (self : ExtendedSpanBuilder) : ExtendedSpanTable := ⟨self.entries⟩

structure ResolvedByteRange where
  start : U32
  endOffset : U32
deriving DecidableEq

def ResolvedByteRange.fromStartLength (start length : U32) : Option ResolvedByteRange :=
  (checkedAdd start length).map fun endOffset => ⟨start, endOffset⟩

inductive SpanCapacityReason where
  | EndUnrepresentable
  | ExtendedTableFull
deriving DecidableEq

structure SpanCapacityError where
  start : U32
  length : U32
  reason : SpanCapacityReason
deriving DecidableEq

namespace LocalSpan

/-- `resolve_with`, given the entries that the resolver of a builder or of a table presents. -/
def resolveWith (span : LocalSpan) (entries : List ExtendedSpan) : Option ResolvedByteRange :=
  match decodeLogical span.loadLogical with
  | .Inline start length => ResolvedByteRange.fromStartLength start length
  | .Extended index =>
      match entries[index.toNat]? with
      | some entry => ResolvedByteRange.fromStartLength entry.start entry.length
      | none => none

/-- Encode `[start, start + length)`. The builder comes back with what was appended. -/
def exact (start length : U32) (extended : ExtendedSpanBuilder) :
    Option (Except SpanCapacityError LocalSpan × ExtendedSpanBuilder) :=
  if (checkedAdd start length).isNone then
    some (.error ⟨start, length, .EndUnrepresentable⟩, extended)
  else if fitsInline start length then
    (storeLogical (encodeInline start length)).map fun span => (.ok span, extended)
  else
    let index :=
      if extended.entries.length < 4294967296 then
        encodeExtendedIndex (BitVec.ofNat 32 extended.entries.length)
      else none
    match index with
    | none => some (.error ⟨start, length, .ExtendedTableFull⟩, extended)
    | some logical =>
        (storeLogical logical).map fun span =>
          (.ok span, ⟨extended.entries ++ [⟨start, length⟩]⟩)

/-- The smallest span covering both. -/
def join (left right : LocalSpan) (extended : ExtendedSpanBuilder) :
    Option (Except SpanCapacityError LocalSpan × ExtendedSpanBuilder) := do
  let left ← left.resolveWith extended.entries
  let right ← right.resolveWith extended.entries
  let start := if left.start.toNat ≤ right.start.toNat then left.start else right.start
  let endOffset :=
    if right.endOffset.toNat ≤ left.endOffset.toNat then left.endOffset else right.endOffset
  exact start (endOffset - start) extended

end LocalSpan

/-! ## Global spans -/

structure SourceId where
  index : Nat
deriving DecidableEq

structure SourceSpan where
  source : SourceId
  «local» : LocalSpan
deriving DecidableEq

namespace SourceSpan

/-- Narrow an inline span to a range of the text it covers, or keep the caller's span. -/
def narrowInline (self : SourceSpan) (byteOffset byteLength expectedParentLength : U32) :
    Option (Option SourceSpan) :=
  match decodeLogical self.local.loadLogical with
  | .Extended _ => some none
  | .Inline start length =>
      if length ≠ expectedParentLength then some none
      else
        match checkedAdd byteOffset byteLength with
        | none => some none
        | some narrowedEnd =>
            if length.toNat < narrowedEnd.toNat then some none
            else
              match checkedAdd start byteOffset with
              | none => some none
              | some narrowedStart =>
                  if fitsInline narrowedStart byteLength then
                    (storeLogical (encodeInline narrowedStart byteLength)).map fun span =>
                      some ⟨self.source, span⟩
                  else some none

end SourceSpan

end Moth.Source
