import Moth.Templates.WhitespaceLines

/-!
# The whitespace pass is exact

The pass never cuts inside a character, keeps its pieces with their anchors and
all that is not whitespace, and rewrites each text line by line.
-/

namespace Moth.Templates

open Moth.Lib

/-! ## The leading boundary -/

/-- The lines of a text after its blank first ones, which are left empty. A text of blank lines
loses what follows its last newline. -/
def keepBlankNewlines : List (List Char) → List Char
  | [] => []
  | line :: rest =>
      if isContent line then line ++ tailLines '\n' rest
      else if rest = [] then []
      else '\n' :: keepBlankNewlines rest

theorem trimBlankLines_lines {content before line output : List Char} {rest : List (List Char)}
    {turns : Nat} (hcontent : content = before ++ (line ++ tailLines '\n' rest))
    (hlines : ∀ l ∈ line :: rest, '\n' ∉ l) (hturns : rest.length < turns) :
    trimBlankLines content turns (utf8Length before) output =
      some (output ++ keepBlankNewlines (line :: rest)) := by
  induction turns generalizing before line rest output with
  | zero => exact absurd hturns (Nat.not_lt_zero _)
  | succ turns ih =>
      have hline := hlines line List.mem_cons_self
      have hstart : dropBytes content (utf8Length before) = some (line ++ tailLines '\n' rest) := by
        rw [hcontent, dropBytes_append]
      have hdrop := dropBytes_indentation [] line rest
      rw [List.nil_append, utf8Length_nil, Nat.zero_add] at hdrop
      rw [trimBlankLines, hstart]
      simp only [Option.bind_eq_bind, Option.bind_some, horizontalWhitespaceLen_line, hdrop]
      cases hblank : isContent line with
      | true =>
          obtain ⟨c, hhead, hc⟩ := head?_content rest hblank hline
          rw [hhead, keepBlankNewlines, if_pos hblank]
          simp [hc]
      | false =>
          have hnot : ¬isContent line = true := by
            rw [hblank]
            exact Bool.false_ne_true
          rw [head?_blank hblank, keepBlankNewlines, if_neg hnot]
          cases rest with
          | nil => simp
          | cons next rest =>
              have hnext : utf8Length before + (utf8Length (indentation line) + 1) =
                  utf8Length (before ++ line ++ ['\n']) := by
                rw [utf8Length_line before hblank, Nat.add_assoc]
              simp only [reduceCtorEq, if_false, if_true]
              rw [hnext, ih (hcontent.trans (append_tailLines_cons _ _ _ _))
                (fun l hl => hlines l (List.mem_cons_of_mem _ hl))
                (Nat.lt_of_succ_lt_succ hturns), List.append_assoc]
              rfl

theorem trimLeadingBlankLineIndentation_ofLines {line : List Char} {rest : List (List Char)}
    (hlines : ∀ l ∈ line :: rest, '\n' ∉ l) :
    trimLeadingBlankLineIndentation (ofLines (line :: rest)) =
      some (keepBlankNewlines (line :: rest)) := by
  have hturns : rest.length < (line ++ tailLines '\n' rest).length + 1 := by
    have := length_le_tailLines rest
    rw [List.length_append]
    omega
  exact @trimBlankLines_lines _ [] line [] rest _ rfl hlines hturns

/-- After a newline, the blank lines are empty and the first line with content has the width. -/
theorem dedent_keepBlankNewlines {width : Nat} {lines : List (List Char)} (hne : lines ≠ [])
    (hlines : ∀ l ∈ lines, '\n' ∉ l)
    (hwidth : ∀ l, lines.find? isContent = some l → width = (indentation l).length) :
    dedentChars width ('\n' :: keepBlankNewlines lines) =
      '\n' :: ofLines (stripLeading width lines) := by
  induction lines with
  | nil => exact absurd rfl hne
  | cons line rest ih =>
      rw [keepBlankNewlines, stripLeading]
      cases hline : isContent line with
      | true =>
          have hall : dedentLine width line = body line := by
            rw [dedentLine, hwidth line (List.find?_cons_of_pos hline), Nat.min_self]
            have hsplit : (indentation line ++ body line).drop (indentation line).length =
                body line := List.drop_left
            rwa [indentation_append_body] at hsplit
          rw [if_pos rfl, if_pos rfl, dedentChars_newline, dropIndentation_line, hall,
            dedentChars_line width (not_mem_body (hlines line List.mem_cons_self)),
            dedentChars_tailLines width fun l hl => hlines l (List.mem_cons_of_mem _ hl)]
          rfl
      | false =>
          rw [if_neg Bool.false_ne_true, if_neg Bool.false_ne_true]
          cases rest with
          | nil =>
              rw [if_pos rfl, dedentChars_newline]
              cases width <;> simp [dropIndentation, dedentChars, stripLeading, joinLines]
          | cons next rest =>
              have hrest := ih (by simp) (fun l hl => hlines l (List.mem_cons_of_mem _ hl))
                fun l hl => hwidth l (by
                  rw [List.find?_cons_of_neg (by rw [hline]; exact Bool.false_ne_true)]
                  exact hl)
              have hstay : dropIndentation width ('\n' :: keepBlankNewlines (next :: rest)) =
                  '\n' :: keepBlankNewlines (next :: rest) := by
                cases width with
                | zero => rfl
                | succ width =>
                    rw [dropIndentation,
                      if_neg (by rw [newline_not_whitespace]; exact Bool.false_ne_true)]
              have hlater : stripLeading width (next :: rest) ≠ [] := by
                rw [stripLeading]
                split <;> exact List.cons_ne_nil _ _
              rw [if_neg (by simp), dedentChars_newline, hstay, hrest,
                ← tailLines_eq_cons _ hlater]
              rfl

theorem dedentChars_zero (chars : List Char) : dedentChars 0 chars = chars := by
  induction chars with
  | nil => rw [dedentChars]
  | cons c chars ih =>
      rw [dedentChars, dropIndentation, ih, ite_self]

/-- A width of zero is not dedented by, which is no different. -/
theorem dedent_eq (width : Nat) (text : List Char) :
    (if 0 < width then dedentAfterNewlines text width else text) = dedentChars width text := by
  by_cases hwidth : 0 < width
  · rw [if_pos hwidth, dedentAfterNewlines, if_neg (Nat.ne_of_gt hwidth)]
  · rw [if_neg hwidth, Nat.eq_zero_of_not_pos hwidth, dedentChars_zero]

theorem beginsWithBreak_iff {lines : List (List Char)} :
    beginsWithBreak lines = true ↔
      ∃ first line rest, lines = first :: line :: rest ∧ isContent first = false := by
  cases lines with
  | nil => simp [beginsWithBreak]
  | cons first rest =>
      cases rest with
      | nil => simp [beginsWithBreak]
      | cons line rest => simp [beginsWithBreak]

theorem boundaryEnd_pos_iff {lines : List (List Char)} :
    0 < boundaryEnd lines ↔ beginsWithBreak lines = true := by
  cases lines with
  | nil => simp [beginsWithBreak, boundaryEnd]
  | cons first rest =>
      cases rest with
      | nil => simp [beginsWithBreak, boundaryEnd]
      | cons line rest =>
          cases hfirst : isContent first with
          | true => simp [beginsWithBreak, boundaryEnd, hfirst]
          | false =>
              have hpos : 0 < utf8Length (first ++ '\n' :: indentation line) :=
                utf8Length_pos (by simp)
              simp [beginsWithBreak, boundaryEnd, hfirst, hpos]

section Leading

variable {first line : List Char} {rest : List (List Char)}

theorem drain_ofLines (hfirst : isContent first = false) :
    dropBytes (ofLines (first :: line :: rest)) (boundaryEnd (first :: line :: rest)) =
      some (ofLines (body line :: rest)) := by
  have hsplit : ofLines (first :: line :: rest) =
      (first ++ ['\n'] ++ indentation line) ++ ofLines (body line :: rest) := by
    show first ++ tailLines '\n' (line :: rest) = _ ++ (body line ++ tailLines '\n' rest)
    rw [← List.append_assoc (first ++ ['\n'] ++ indentation line),
      List.append_assoc _ _ (body line), indentation_append_body, tailLines_cons,
      List.append_assoc, List.append_assoc]
    rfl
  rw [boundaryEnd, hfirst, hsplit]
  exact dropBytes_append _ _

theorem dedent_drained (hfirst : isContent first = false)
    (hlines : ∀ l ∈ first :: line :: rest, '\n' ∉ l) :
    dedentChars (sharedWidth (first :: line :: rest)) (keepBlankNewlines (body line :: rest)) =
      ofLines (stripLeading (sharedWidth (first :: line :: rest)) (line :: rest)) := by
  have hrest : ∀ l ∈ rest, '\n' ∉ l := fun l hl =>
    hlines l (List.mem_cons_of_mem _ (List.mem_cons_of_mem _ hl))
  have hline : '\n' ∉ line := hlines line (List.mem_cons_of_mem _ List.mem_cons_self)
  have hsame : isContent (body line) = isContent line := by
    rw [isContent, isContent, body_body]
  rw [keepBlankNewlines, hsame, stripLeading]
  cases hcontent : isContent line with
  | true =>
      rw [if_pos rfl, if_pos rfl, dedentChars_line _ (not_mem_body hline),
        dedentChars_tailLines _ hrest]
      rfl
  | false =>
      rw [if_neg Bool.false_ne_true, if_neg Bool.false_ne_true]
      cases rest with
      | nil => simp [dedentChars, stripLeading, joinLines]
      | cons next rest =>
          have hwidth : ∀ l, (next :: rest).find? isContent = some l →
              sharedWidth (first :: line :: next :: rest) = (indentation l).length := by
            intro l hl
            rw [scannedWidth_eq line _ hfirst, scannedWidth, if_neg (by rw [hcontent]; simp),
              contentWidth, hl]
          have hlater : ∀ width, stripLeading width (next :: rest) ≠ [] := by
            intro width
            rw [stripLeading]
            split <;> exact List.cons_ne_nil _ _
          rw [if_neg (by simp), dedent_keepBlankNewlines (by simp) hrest hwidth,
            ← tailLines_eq_cons _ (hlater _)]
          rfl

end Leading

/-! ## The trailing boundary -/

theorem rfindChar_eq_none {wanted : Char} {chars : List Char} (h : wanted ∉ chars) :
    rfindChar wanted chars = none := by
  induction chars with
  | nil => rfl
  | cons c chars ih =>
      have hc : ¬c = wanted := fun heq => h (heq ▸ List.mem_cons_self)
      rw [rfindChar, ih fun hmem => h (List.mem_cons_of_mem _ hmem)]
      simp only [if_neg hc]

theorem rfindChar_append {wanted : Char} (before : List Char) {after : List Char}
    (h : wanted ∉ after) :
    rfindChar wanted (before ++ wanted :: after) = some (utf8Length before) := by
  induction before with
  | nil =>
      rw [List.nil_append, rfindChar, rfindChar_eq_none h, utf8Length_nil]
      simp only [if_true]
  | cons c before ih => rw [List.cons_append, rfindChar, ih, utf8Length_cons]

theorem ofLines_concat (line : List Char) (rest : List (List Char)) (last : List Char) :
    ofLines (line :: (rest ++ [last])) = ofLines (line :: rest) ++ '\n' :: last := by
  show line ++ tailLines '\n' (rest ++ [last]) = (line ++ tailLines '\n' rest) ++ '\n' :: last
  rw [tailLines_append, tailLines_cons, tailLines_nil, List.append_nil, List.append_assoc]

theorem trimTrailing_ofLines {lines : List (List Char)} (hlines : ∀ l ∈ lines, '\n' ∉ l) :
    trimTrailingWhitespaceFromFinalNewline (ofLines lines) = some (ofLines (trimLast lines)) := by
  cases lines with
  | nil => rfl
  | cons line rest =>
      rcases List.eq_nil_or_concat rest with rfl | ⟨init, last, rfl⟩
      · have hnone : rfindChar '\n' (ofLines [line]) = none := by
          rw [show ofLines [line] = line from List.append_nil line]
          exact rfindChar_eq_none (hlines line List.mem_cons_self)
        rw [trimTrailingWhitespaceFromFinalNewline, hnone]
        rfl
      · rw [List.concat_eq_append] at hlines ⊢
        have hlast : '\n' ∉ last := hlines last (by simp)
        have hdrop : dropBytes (ofLines (line :: init) ++ '\n' :: last)
            (utf8Length (ofLines (line :: init)) + 1) = some last := by
          have hsplit : ofLines (line :: init) ++ '\n' :: last =
              (ofLines (line :: init) ++ ['\n']) ++ last := by
            rw [List.append_assoc]
            rfl
          have hsize : utf8Length (ofLines (line :: init)) + 1 =
              utf8Length (ofLines (line :: init) ++ ['\n']) := by
            rw [utf8Length_append, utf8Length_cons, utf8Length_nil, utf8Size_newline]
          rw [hsplit, hsize, dropBytes_append]
        have htrim : trimLast (line :: (init ++ [last])) =
            if isContent last = false then line :: init else line :: (init ++ [last]) := by
          have hget : (line :: (init ++ [last])).getLast? = some last := by
            rw [← List.cons_append, List.getLast?_append, List.getLast?_singleton]
            rfl
          have hinit : (line :: (init ++ [last])).dropLast = line :: init := by
            rw [← List.cons_append, List.dropLast_concat]
          rw [trimLast, hget, hinit]
          simp
        rw [ofLines_concat, trimTrailingWhitespaceFromFinalNewline, rfindChar_append _ hlast]
        simp only [hdrop, Option.bind_eq_bind, Option.bind_some, takeBytes_append]
        rw [htrim]
        by_cases hblank : isContent last = false
        · rw [if_pos hblank, if_pos (isContent_false_iff_all.1 hblank)]
        · rw [if_neg hblank, if_neg fun hall => hblank (isContent_false_iff_all.2 hall),
            ofLines_concat]
          rfl

end Moth.Templates
