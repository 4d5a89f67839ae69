import Mathlib.Data.List.Basic
import Moth.Source.Lines

/-!
# Looking a position up

The ranges of the table partition the text, a search finds the line of an
offset, and the columns count the characters of the line that start before it.
-/

namespace Moth.Source

open Moth.Lib

/-- The index over the table of the text itself. -/
def index (text : List Char) : LineIndex := ⟨text, lineStartOffsets text⟩

/-! ## Where the lines lie -/

def lineStart (lines : List (List Char)) (i : Nat) : Nat := utf8Length (lines.take i).flatten

/-- The line an offset belongs to. The end of the text belongs to the last line. -/
structure OnLine (lines : List (List Char)) (offset i : Nat) (line : List Char) : Prop where
  line_eq : lines[i]? = some line
  start_le : lineStart lines i ≤ offset
  before_end : offset < lineStart lines i + utf8Length line ∨
    i + 1 = lines.length ∧ offset = utf8Length lines.flatten

theorem lineStart_succ {lines : List (List Char)} {i : Nat} {line : List Char}
    (h : lines[i]? = some line) :
    lineStart lines (i + 1) = lineStart lines i + utf8Length line := by
  rw [lineStart, List.take_add_one, h, List.flatten_append, utf8Length_append, Option.toList_some,
    List.flatten_singleton]
  rfl

theorem lineStart_mono (lines : List (List Char)) {i j : Nat} (h : i ≤ j) :
    lineStart lines i ≤ lineStart lines j := by
  obtain ⟨k, rfl⟩ := Nat.exists_eq_add_of_le h
  rw [lineStart, lineStart, List.take_add, List.flatten_append, utf8Length_append]
  exact Nat.le_add_right _ _

theorem lineStart_length (lines : List (List Char)) :
    lineStart lines lines.length = utf8Length lines.flatten := by
  rw [lineStart, List.take_length]

theorem OnLine.le {lines : List (List Char)} {a b i j : Nat} {line other : List Char}
    (hi : OnLine lines a i line) (hj : OnLine lines b j other) (hab : a ≤ b) : i ≤ j := by
  by_contra hlt
  have hnext := lineStart_mono lines (show j + 1 ≤ i by omega)
  rw [lineStart_succ hj.line_eq] at hnext
  have hstart := hi.start_le
  rcases hj.before_end with hend | ⟨hlast, -⟩
  · omega
  · have hlen := (List.getElem?_eq_some_iff.1 hi.line_eq).1
    omega

theorem OnLine.unique {lines : List (List Char)} {offset i j : Nat} {line other : List Char}
    (hi : OnLine lines offset i line) (hj : OnLine lines offset j other) : i = j :=
  Nat.le_antisymm (hi.le hj (Nat.le_refl _)) (hj.le hi (Nat.le_refl _))

/-- The partition point over the starts. -/
theorem findIdx_starts (base offset : Nat) (lines : List (List Char)) (hne : lines ≠ [])
    (hbase : base ≤ offset) :
    ∃ i line, lines[i]? = some line ∧
      (starts base lines).findIdx (fun start => !decide (start ≤ offset)) = i + 1 ∧
      base + lineStart lines i ≤ offset ∧
      (offset < base + lineStart lines i + utf8Length line ∨ i + 1 = lines.length) := by
  induction lines generalizing base with
  | nil => exact absurd rfl hne
  | cons line lines ih =>
      have hfirst : (!decide (base ≤ offset)) = false := by rw [decide_eq_true hbase]; rfl
      rw [starts, List.findIdx_cons, hfirst, cond_false]
      by_cases hnext : lines ≠ [] ∧ base + utf8Length line ≤ offset
      · obtain ⟨i, found, hfound, hidx, hstart, hend⟩ := ih _ hnext.1 hnext.2
        have hshift : lineStart (line :: lines) (i + 1) =
            utf8Length line + lineStart lines i := by
          rw [lineStart, List.take_succ_cons, List.flatten_cons, utf8Length_append]
          rfl
        refine ⟨i + 1, found, hfound, by rw [hidx], ?_, ?_⟩
        · rw [hshift]
          omega
        · rw [hshift, List.length_cons]
          omega
      · refine ⟨0, line, rfl, ?_, hbase, ?_⟩
        · cases lines with
          | nil => rfl
          | cons other lines =>
              have hlate : ¬ base + utf8Length line ≤ offset := fun h =>
                hnext ⟨List.cons_ne_nil _ _, h⟩
              rw [starts, List.findIdx_cons, decide_eq_false hlate]
              rfl
        · cases lines with
          | nil => exact .inr rfl
          | cons other lines =>
              have hlate : ¬ base + utf8Length line ≤ offset := fun h =>
                hnext ⟨List.cons_ne_nil _ _, h⟩
              left
              show offset < base + 0 + utf8Length line
              omega

theorem exists_onLine {lines : List (List Char)} (hne : lines ≠ []) {offset : Nat}
    (h : offset ≤ utf8Length lines.flatten) :
    ∃ i line, OnLine lines offset i line ∧
      (starts 0 lines).findIdx (fun start => !decide (start ≤ offset)) = i + 1 := by
  obtain ⟨i, line, hline, hidx, hstart, hend⟩ := findIdx_starts 0 offset lines hne (Nat.zero_le _)
  rw [Nat.zero_add] at hstart hend
  refine ⟨i, line, ⟨hline, hstart, ?_⟩, hidx⟩
  rcases hend with hend | hlast
  · exact .inl hend
  · by_cases hlt : offset < lineStart lines i + utf8Length line
    · exact .inl hlt
    · have htotal := lineStart_length lines
      rw [← hlast, lineStart_succ hline] at htotal
      exact .inr ⟨hlast, by omega⟩

/-! ## Ranges and visible text -/

theorem sliceBytes_line {text : List Char} {i : Nat} {line : List Char}
    (hline : (splitLines text)[i]? = some line) :
    sliceBytes text (lineStart (splitLines text) i)
      (lineStart (splitLines text) i + utf8Length line) = some line := by
  obtain ⟨hi, hget⟩ := List.getElem?_eq_some_iff.1 hline
  have hsplit : text = ((splitLines text).take i).flatten ++ line ++
      ((splitLines text).drop (i + 1)).flatten := by
    conv_lhs => rw [← splitLines_flatten text, ← List.take_append_drop i (splitLines text),
      List.drop_eq_getElem_cons hi, hget]
    rw [List.flatten_append, List.flatten_cons, List.append_assoc]
  have hslice := sliceBytes_middle ((splitLines text).take i).flatten line
    ((splitLines text).drop (i + 1)).flatten
  rw [← hsplit] at hslice
  exact hslice

theorem stripSuffix_concat (line : List Char) (c : Char) : stripSuffix c (line ++ [c]) = line := by
  rw [stripSuffix, List.getLast?_concat, if_pos rfl, List.dropLast_concat]

theorem stripSuffix_of_not_mem {line : List Char} {c : Char} (h : c ∉ line) :
    stripSuffix c line = line := if_neg fun hlast => h (List.mem_of_getLast? hlast)

theorem strip_terminator {visible term : List Char} (hvisible : Visible visible)
    (hterm : Terminator term ∨ term = []) :
    stripSuffix '\r' (stripSuffix '\n' (visible ++ term)) = visible := by
  have hfeed : '\n' ∉ visible := fun h => (hvisible _ h).1 rfl
  have hreturn : '\r' ∉ visible := fun h => (hvisible _ h).2 rfl
  rcases hterm with (rfl | rfl | rfl) | rfl
  · rw [stripSuffix_concat, stripSuffix_of_not_mem hreturn]
  · have hpair : visible ++ ['\r', '\n'] = (visible ++ ['\r']) ++ ['\n'] := by
      rw [List.append_assoc]
      rfl
    rw [hpair, stripSuffix_concat, stripSuffix_concat]
  · have hnone : '\n' ∉ visible ++ ['\r'] := by
      intro h
      rcases List.mem_append.1 h with h | h
      · exact hfeed h
      · rw [List.mem_singleton] at h
        cases h
    rw [stripSuffix_of_not_mem hnone, stripSuffix_concat]
  · rw [List.append_nil, stripSuffix_of_not_mem hfeed, stripSuffix_of_not_mem hreturn]

theorem length_splitLines_le (text : List Char) : (splitLines text).length ≤ text.length := by
  induction text with
  | nil => exact Nat.le_refl _
  | cons c rest ih =>
      rw [splitLines, List.length_cons]
      split
      · rw [List.length_cons]
        omega
      · cases hlines : splitLines rest with
        | nil => exact Nat.le_add_left _ _
        | cons line lines =>
            rw [hlines, List.length_cons] at ih
            show lines.length + 1 ≤ _
            omega

theorem lenUtf16_le (c : Char) : lenUtf16 c ≤ c.utf8Size := by
  have hpos := c.utf8Size_pos
  rw [lenUtf16]
  split
  · exact hpos
  · rename_i hlarge
    rw [Char.utf8Size]
    split
    · rename_i h
      have := UInt32.le_iff_toNat_le.1 h
      exact absurd (show c.toNat < 65536 from Nat.lt_of_le_of_lt this (by decide)) hlarge
    · split
      · omega
      · split <;> omega

section Lines

variable {text : List Char} (hlength : utf8Length text < 4294967296)

include hlength

theorem index_lineByteRange (i : Nat) :
    (index text).lineByteRange i =
      (splitLines text)[i]?.map fun line =>
        (lineStart (splitLines text) i, lineStart (splitLines text) i + utf8Length line) := by
  have htotal : asU32 (utf8Length text) = utf8Length (splitLines text).flatten := by
    rw [splitLines_flatten]
    exact Nat.mod_eq_of_lt hlength
  have hat : ∀ j, (index text).lineStarts[j]? =
      (splitLines text)[j]?.map fun _ => lineStart (splitLines text) j := by
    intro j
    rw [index, lineStartOffsets_eq hlength, starts_getElem?]
    simp only [Nat.zero_add, lineStart]
  rw [LineIndex.lineByteRange, hat, hat]
  cases hline : (splitLines text)[i]? with
  | none => rfl
  | some line =>
      have hend := lineStart_succ hline
      cases hnext : (splitLines text)[i + 1]? with
      | some next =>
          show some (_, lineStart (splitLines text) (i + 1)) = some _
          rw [hend]
      | none =>
          have hlast : i + 1 = (splitLines text).length := by
            have := (List.getElem?_eq_some_iff.1 hline).1
            have := List.getElem?_eq_none_iff.1 hnext
            omega
          show some (_, asU32 (utf8Length text)) = some _
          rw [htotal, ← lineStart_length, ← hlast, hend]

theorem index_lineText {i : Nat} {visible term : List Char}
    (hline : (splitLines text)[i]? = some (visible ++ term)) (hvisible : Visible visible)
    (hterm : Terminator term ∨ term = []) : (index text).lineText i = some visible := by
  rw [LineIndex.lineText, index_lineByteRange hlength, hline]
  show (sliceBytes text _ _).bind _ = _
  rw [sliceBytes_line hline]
  exact congrArg some (strip_terminator hvisible hterm)

theorem index_lineOfOffset {offset i : Nat} {line : List Char}
    (hon : OnLine (splitLines text) offset i line) (hoffset : offset ≤ utf8Length text) :
    (index text).lineOfOffset offset = some i := by
  have hi := (List.getElem?_eq_some_iff.1 hon.line_eq).1
  have hne : splitLines text ≠ [] := by
    intro h
    rw [h] at hi
    cases hi
  have htext : text.isEmpty = false := by
    rw [List.isEmpty_eq_false_iff]
    exact fun h => hne (splitLines_eq_nil.2 h)
  have htotal := congrArg utf8Length (splitLines_flatten text)
  obtain ⟨j, other, hother, hidx⟩ := exists_onLine hne (le_of_le_of_eq hoffset htotal.symm)
  rw [hother.unique hon, ← lineStartOffsets_eq hlength] at hidx
  have hcount : (splitLines text).length ≤ utf8Length text :=
    (length_splitLines_le text).trans (length_le_utf8Length text)
  have hsmall : asU32 (i + 1) = i + 1 := Nat.mod_eq_of_lt (by omega)
  rw [LineIndex.lineOfOffset, if_neg (by exact Nat.not_lt.2 hoffset), index, htext,
    if_neg Bool.false_ne_true]
  show some (asU32 ((lineStartOffsets text).findIdx _) - 1) = _
  rw [hidx, hsmall, Nat.add_sub_cancel]

theorem index_lineAndAuthoredOffset {offset i : Nat} {visible term : List Char}
    (hon : OnLine (splitLines text) offset i (visible ++ term)) (hoffset : offset ≤ utf8Length text)
    (hvisible : Visible visible) (hterm : Terminator term ∨ term = []) :
    (index text).lineAndAuthoredOffset offset =
      some (i, visible, offset - lineStart (splitLines text) i) := by
  have htext : text.isEmpty = false := by
    rw [List.isEmpty_eq_false_iff]
    rintro rfl
    cases hon.line_eq
  rw [LineIndex.lineAndAuthoredOffset, index_lineOfOffset hlength hon hoffset, index, htext,
    if_neg Bool.false_ne_true]
  show ((index text).lineByteRange i).bind _ = _
  rw [index_lineByteRange hlength, hon.line_eq]
  show ((index text).lineText i).bind _ = _
  rw [index_lineText hlength hon.line_eq hvisible hterm]
  rfl

end Lines

/-! ## Columns -/

/-- The characters of a line that start before an offset. -/
def startingBefore (visible : List Char) (start offset : Nat) : List Char :=
  ((charIndices visible start).filter fun entry => decide (entry.1 < offset)).map Prod.snd

theorem startingBefore_mono (visible : List Char) (start : Nat) {a b : Nat} (h : a ≤ b) :
    (startingBefore visible start a).length ≤ (startingBefore visible start b).length := by
  rw [startingBefore, startingBefore, List.length_map, List.length_map]
  refine (List.monotone_filter_right _ fun entry hentry => ?_).length_le
  rw [decide_eq_true_eq] at hentry ⊢
  omega

theorem utf8Length_startingBefore (visible : List Char) (start offset : Nat) :
    utf8Length (startingBefore visible start offset) ≤ utf8Length visible := by
  induction visible generalizing start with
  | nil => exact Nat.le_refl _
  | cons c rest ih =>
      have hrest := ih (start + c.utf8Size)
      rw [startingBefore, charIndices, List.filter_cons]
      rw [utf8Length_cons]
      split
      · rw [List.map_cons, utf8Length_cons]
        exact Nat.add_le_add_left hrest _
      · exact hrest.trans (Nat.le_add_left _ _)

/-- The loops read the offsets relative to the line. -/
theorem takeWhile_eq_startingBefore {visible : List Char} {start offset : Nat}
    (hlength : utf8Length visible < 4294967296) (hstart : start ≤ offset) :
    ((charIndices visible 0).takeWhile fun entry =>
      decide (asU32 entry.1 < offset - start)).map Prod.snd =
      startingBefore visible start offset := by
  have hcast : ∀ entries : List (Nat × Char), (∀ entry ∈ entries, entry.1 < 4294967296) →
      (entries.takeWhile fun entry => decide (asU32 entry.1 < offset - start)) =
        entries.takeWhile fun entry => decide (entry.1 < offset - start) := by
    intro entries hentries
    induction entries with
    | nil => rfl
    | cons entry entries ih =>
        have hsmall : asU32 entry.1 = entry.1 := Nat.mod_eq_of_lt (hentries _ List.mem_cons_self)
        rw [List.takeWhile_cons, List.takeWhile_cons, hsmall,
          ih fun e he => hentries e (List.mem_cons_of_mem _ he)]
  rw [hcast _ fun entry hentry => by
    have := lt_of_mem_charIndices hentry
    omega]
  rw [takeWhile_charIndices, startingBefore, ← Nat.add_zero start, charIndices_add,
    List.filter_map, List.map_map]
  refine congrArg₂ _ rfl (List.filter_congr fun entry _ => ?_)
  show decide (entry.1 < offset - (start + 0)) = decide (start + entry.1 < offset)
  rw [decide_eq_decide]
  omega

theorem utf16Loop_eq {visible : List Char} (bound offset column : Nat)
    (h : column + utf8Length visible < 4294967296) :
    LineIndex.utf16Loop bound (charIndices visible offset) column =
      column + ((((charIndices visible offset).takeWhile fun entry =>
        decide (asU32 entry.1 < bound)).map Prod.snd).map lenUtf16).sum := by
  induction visible generalizing offset column with
  | nil => rfl
  | cons c rest ih =>
      rw [charIndices, LineIndex.utf16Loop, List.takeWhile_cons]
      by_cases hbound : bound ≤ asU32 offset
      · rw [if_pos hbound, decide_eq_false (Nat.not_lt.2 hbound)]
        rfl
      · have hwidth := lenUtf16_le c
        rw [utf8Length_cons] at h
        have hsmall : asU32 (column + lenUtf16 c) = column + lenUtf16 c :=
          Nat.mod_eq_of_lt (by omega)
        rw [if_neg hbound, decide_eq_true (Nat.not_le.1 hbound), hsmall, ih _ _ (by omega),
          if_pos rfl, List.map_cons, List.map_cons, List.sum_cons, Nat.add_assoc]

section Positions

variable {text : List Char} (hlength : utf8Length text < 4294967296)

include hlength

theorem utf8Length_visible {i : Nat} {visible term : List Char}
    (hline : (splitLines text)[i]? = some (visible ++ term)) :
    utf8Length visible < 4294967296 := by
  have hend := lineStart_succ hline
  have htotal := lineStart_length (splitLines text)
  have hi : i + 1 ≤ (splitLines text).length := (List.getElem?_eq_some_iff.1 hline).1
  have hmono := lineStart_mono (splitLines text) hi
  rw [splitLines_flatten] at htotal
  rw [utf8Length_append] at hend
  omega

theorem index_position {offset i : Nat} {visible term : List Char}
    (hon : OnLine (splitLines text) offset i (visible ++ term)) (hoffset : offset ≤ utf8Length text)
    (hvisible : Visible visible) (hterm : Terminator term ∨ term = []) :
    (index text).position offset =
      some ⟨i, (startingBefore visible (lineStart (splitLines text) i) offset).length⟩ := by
  have hsize := utf8Length_visible hlength hon.line_eq
  have hscan := congrArg List.length (takeWhile_eq_startingBefore hsize hon.start_le)
  have hcount := length_le_utf8Length
    (startingBefore visible (lineStart (splitLines text) i) offset)
  have hbound := utf8Length_startingBefore visible (lineStart (splitLines text) i) offset
  rw [List.length_map] at hscan
  rw [LineIndex.position, index_lineAndAuthoredOffset hlength hon hoffset hvisible hterm]
  show some (LinePosition.mk i (asU32 (List.takeWhile _ _).length)) = _
  rw [hscan]
  exact congrArg (fun column => some (LinePosition.mk i column)) (Nat.mod_eq_of_lt (by omega))

theorem index_utf16Column {offset i : Nat} {visible term : List Char}
    (hon : OnLine (splitLines text) offset i (visible ++ term)) (hoffset : offset ≤ utf8Length text)
    (hvisible : Visible visible) (hterm : Terminator term ∨ term = []) :
    (index text).utf16Column offset =
      some ((startingBefore visible (lineStart (splitLines text) i) offset).map lenUtf16).sum := by
  have hsize := utf8Length_visible hlength hon.line_eq
  rw [LineIndex.utf16Column, index_lineAndAuthoredOffset hlength hon hoffset hvisible hterm]
  show some (LineIndex.utf16Loop _ _ 0) = _
  rw [utf16Loop_eq _ _ _ (by omega), takeWhile_eq_startingBefore hsize hon.start_le, Nat.zero_add]

end Positions

/-! ## The policy -/

/-- What the index says of a text, over the lines the newline policy makes of it. -/
structure FollowsPolicy (text : List Char) (lines : List (List Char)) : Prop where
  flatten_eq : lines.flatten = text
  isLines : IsLines lines
  lineByteRange_eq : ∀ i, (index text).lineByteRange i =
    lines[i]?.map fun line => (lineStart lines i, lineStart lines i + utf8Length line)
  partition : ∀ offset < utf8Length text, ∃! i, ∃ range,
    (index text).lineByteRange i = some range ∧ range.1 ≤ offset ∧ offset < range.2
  line : ∀ i line, lines[i]? = some line → ∃ visible term,
    line = visible ++ term ∧ Visible visible ∧
    (Terminator term ∨ term = [] ∧ i + 1 = lines.length) ∧
    (index text).lineText i = some visible ∧
    ∀ offset, OnLine lines offset i line →
      (index text).position offset =
        some ⟨i, (startingBefore visible (lineStart lines i) offset).length⟩ ∧
      (index text).utf16Column offset =
        some ((startingBefore visible (lineStart lines i) offset).map lenUtf16).sum
  onLine : ∀ offset ≤ utf8Length text, (∃ i line, OnLine lines offset i line) ∨
    text = [] ∧ (index text).position offset = some ⟨0, 0⟩ ∧
      (index text).utf16Column offset = some 0
  monotone : ∀ a b, a ≤ b → b ≤ utf8Length text → ∃ p q,
    (index text).position a = some p ∧ (index text).position b = some q ∧
    (p.line < q.line ∨ p.line = q.line ∧ p.column ≤ q.column)

theorem OnLine.offset_le {lines : List (List Char)} {offset i : Nat} {line : List Char}
    (h : OnLine lines offset i line) : offset ≤ utf8Length lines.flatten := by
  have hend := lineStart_succ h.line_eq
  have hi : i + 1 ≤ lines.length := (List.getElem?_eq_some_iff.1 h.line_eq).1
  have hmono := lineStart_mono lines hi
  rw [lineStart_length] at hmono
  rcases h.before_end with hlt | ⟨-, heq⟩ <;> omega

theorem splitLines_terminated {text : List Char} {i : Nat} {line : List Char}
    (hline : (splitLines text)[i]? = some line) :
    ∃ visible term, line = visible ++ term ∧ Visible visible ∧
      (Terminator term ∨ term = [] ∧ i + 1 = (splitLines text).length) :=
  (splitLines_isLines text).visible hline

theorem index_partition {text : List Char} (hlength : utf8Length text < 4294967296) {offset : Nat}
    (hoffset : offset < utf8Length text) : ∃! i, ∃ range,
      (index text).lineByteRange i = some range ∧ range.1 ≤ offset ∧ offset < range.2 := by
  have hflatten := splitLines_flatten text
  have hne : splitLines text ≠ [] := by
    intro h
    rw [splitLines_eq_nil.1 h] at hoffset
    cases hoffset
  have hinside : offset ≤ utf8Length (splitLines text).flatten := by
    rw [hflatten]
    omega
  obtain ⟨i, line, hon, -⟩ := exists_onLine hne hinside
  have hend : offset < lineStart (splitLines text) i + utf8Length line := by
    rcases hon.before_end with hend | ⟨-, heq⟩
    · exact hend
    · rw [hflatten] at heq
      omega
  refine ⟨i, ⟨(lineStart (splitLines text) i, lineStart (splitLines text) i + utf8Length line),
    ?_, hon.start_le, hend⟩, ?_⟩
  · rw [index_lineByteRange hlength, hon.line_eq]
    rfl
  · rintro j ⟨range, hrange, hstart, hlt⟩
    rw [index_lineByteRange hlength, Option.map_eq_some_iff] at hrange
    obtain ⟨other, hother, rfl⟩ := hrange
    exact OnLine.unique ⟨hother, hstart, .inl hlt⟩ hon

/-- Line and column lookup agrees with the newline policy. -/
theorem index_followsPolicy {text : List Char} (hlength : utf8Length text < 4294967296) :
    ∃ lines, FollowsPolicy text lines := by
  have hflatten := splitLines_flatten text
  have hline : ∀ i line, (splitLines text)[i]? = some line → ∃ visible term,
      line = visible ++ term ∧ Visible visible ∧
      (Terminator term ∨ term = [] ∧ i + 1 = (splitLines text).length) ∧
      (index text).lineText i = some visible ∧
      ∀ offset, OnLine (splitLines text) offset i line →
        (index text).position offset =
          some ⟨i, (startingBefore visible (lineStart (splitLines text) i) offset).length⟩ ∧
        (index text).utf16Column offset =
          some ((startingBefore visible (lineStart (splitLines text) i) offset).map
            lenUtf16).sum := by
    intro i line hline
    obtain ⟨visible, term, rfl, hvisible, hterm⟩ := splitLines_terminated hline
    have hform : Terminator term ∨ term = [] := hterm.imp_right And.left
    refine ⟨visible, term, rfl, hvisible, hterm, index_lineText hlength hline hvisible hform, ?_⟩
    intro offset hon
    have hoffset := hon.offset_le
    rw [hflatten] at hoffset
    exact ⟨index_position hlength hon hoffset hvisible hform,
      index_utf16Column hlength hon hoffset hvisible hform⟩
  have hon : ∀ offset ≤ utf8Length text, (∃ i line, OnLine (splitLines text) offset i line) ∨
      text = [] ∧ (index text).position offset = some ⟨0, 0⟩ ∧
        (index text).utf16Column offset = some 0 := by
    intro offset hoffset
    by_cases htext : text = []
    · subst htext
      rw [Nat.le_zero.1 hoffset]
      exact .inr ⟨rfl, rfl, rfl⟩
    · obtain ⟨i, line, hon, -⟩ := exists_onLine (fun h => htext (splitLines_eq_nil.1 h))
        (le_of_le_of_eq hoffset (congrArg utf8Length hflatten).symm)
      exact .inl ⟨i, line, hon⟩
  refine ⟨splitLines text, hflatten, splitLines_isLines text, index_lineByteRange hlength,
    fun offset => index_partition hlength, hline, hon, ?_⟩
  intro a b hab hb
  rcases hon a (hab.trans hb) with ⟨i, line, hi⟩ | ⟨htext, ha, -⟩
  · rcases hon b hb with ⟨j, other, hj⟩ | ⟨htext, -, -⟩
    · obtain ⟨visible, term, -, -, -, -, hpos⟩ := hline i line hi.line_eq
      obtain ⟨visible', term', -, -, -, -, hpos'⟩ := hline j other hj.line_eq
      refine ⟨_, _, (hpos a hi).1, (hpos' b hj).1, ?_⟩
      rcases Nat.lt_or_eq_of_le (hi.le hj hab) with hlt | rfl
      · exact .inl hlt
      · have hsame := (hpos b ⟨hi.line_eq, hj.start_le, ?_⟩).1
        · rw [(hpos' b hj).1] at hsame
          refine .inr ⟨rfl, ?_⟩
          show _ ≤ (startingBefore visible' _ b).length
          injection hsame with hsame
          injection hsame with _ hsame
          rw [hsame]
          exact startingBefore_mono visible _ hab
        · have heq := hi.line_eq.symm.trans hj.line_eq
          cases heq
          exact hj.before_end
    · subst htext
      cases hi.line_eq
  · subst htext
    have hb' := Nat.le_zero.1 hb
    subst hb'
    have ha' := Nat.le_zero.1 hab
    subst ha'
    exact ⟨_, _, ha, ha, .inr ⟨rfl, Nat.le_refl _⟩⟩

theorem index_followsPolicy_mixed :
    utf8Length ['é', '\r', '\r', '\n', 'x'] < 4294967296 ∧
      ∃ lines, FollowsPolicy ['é', '\r', '\r', '\n', 'x'] lines :=
  ⟨by decide, index_followsPolicy (by decide)⟩

end Moth.Source
