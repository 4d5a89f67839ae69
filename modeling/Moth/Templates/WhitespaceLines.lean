import Mathlib.Data.List.DropRight
import Moth.Lib.SeparatedLines
import Moth.Templates.Whitespace

/-!
# The whitespace pass, line by line

What the pass does to a text, said of its lines: the first line and the blank
ones after it lose their indentation where the text begins its run, every other
line loses the shared width or all it has, and a last blank line goes where the
text ends its run. Each helper of the pass is one of these steps.
-/

namespace Moth.Templates

open Moth.Lib

abbrev textLines (text : List Char) : List (List Char) := separatedLines '\n' text

abbrev ofLines (lines : List (List Char)) : List Char := joinLines '\n' lines

/-- The horizontal whitespace that a line begins with. -/
def indentation (line : List Char) : List Char := line.takeWhile isNonNewlineWhitespace

/-- The line from its first other character on. -/
def body (line : List Char) : List Char := line.dropWhile isNonNewlineWhitespace

def isContent (line : List Char) : Bool := !(body line).isEmpty

/-- The line without the smaller of the width and its indentation. -/
def dedentLine (width : Nat) (line : List Char) : List Char :=
  line.drop (min width (indentation line).length)

/-- Only a first line is not after a newline. -/
def dedentLines (width : Nat) : List (List Char) → List (List Char)
  | [] => []
  | first :: rest => first :: rest.map (dedentLine width)

/-- Blank lines and the first line with content lose all indentation, later lines the width. -/
def stripLeading (width : Nat) : List (List Char) → List (List Char)
  | [] => []
  | line :: rest =>
      if isContent line then body line :: rest.map (dedentLine width)
      else [] :: stripLeading width rest

/-- The text begins with a line break: optional indentation, and a newline. -/
def beginsWithBreak : List (List Char) → Bool
  | [] => false
  | first :: rest => !isContent first && !rest.isEmpty

/-- The indentation of the first line with content after the line break. A line break followed by
nothing but one indentation shares that one. -/
def sharedWidth : List (List Char) → Nat
  | [] => 0
  | first :: rest =>
      if beginsWithBreak (first :: rest) then
        match rest.find? isContent with
        | some line => (indentation line).length
        | none => if rest.length = 1 then rest.flatten.length else 0
      else 0

/-- The last line is dropped when it is blank and not the only one. -/
def trimLast (lines : List (List Char)) : List (List Char) :=
  if 2 ≤ lines.length ∧ lines.getLast?.any (fun line => !isContent line) then lines.dropLast
  else lines

def normalizeLines (leading trailing : Bool) (width : Nat) (lines : List (List Char)) :
    List (List Char) :=
  let lines :=
    if leading && beginsWithBreak lines then stripLeading width lines.tail
    else dedentLines width lines
  if trailing then trimLast lines else lines

/-! ## A line and what follows it -/

theorem newline_not_whitespace : isNonNewlineWhitespace '\n' = false := by decide

theorem utf8Size_newline : ('\n' : Char).utf8Size = 1 := by decide

theorem indentation_append_body (line : List Char) : indentation line ++ body line = line :=
  List.takeWhile_append_dropWhile

theorem isContent_iff {line : List Char} : isContent line = true ↔ body line ≠ [] := by
  rw [isContent, Bool.not_eq_true', ← Bool.not_eq_true, List.isEmpty_iff]

theorem isContent_eq_false {line : List Char} : isContent line = false ↔ body line = [] := by
  rw [isContent, Bool.not_eq_false', List.isEmpty_iff]

theorem isContent_false_iff_all {line : List Char} :
    isContent line = false ↔ line.all isNonNewlineWhitespace = true := by
  rw [isContent_eq_false, body, List.dropWhile_eq_nil_iff, List.all_eq_true]

theorem body_eq_cons {line : List Char} (h : isContent line = true) (hline : '\n' ∉ line) :
    ∃ c rest, body line = c :: rest ∧ isNonNewlineWhitespace c = false ∧ c ≠ '\n' := by
  cases hbody : body line with
  | nil => exact absurd hbody (isContent_iff.1 h)
  | cons c rest =>
      refine ⟨c, rest, rfl, ?_, ?_⟩
      · have hhead := List.head?_dropWhile_not isNonNewlineWhitespace line
        rw [show line.dropWhile isNonNewlineWhitespace = c :: rest from hbody] at hhead
        simpa using hhead
      · intro heq
        refine hline ?_
        rw [← indentation_append_body line, hbody, heq]
        exact List.mem_append_right _ List.mem_cons_self

theorem body_body (line : List Char) : body (body line) = body line :=
  List.dropWhile_idempotent _ _

section Reading

variable {line : List Char} {rest : List (List Char)}

theorem horizontalWhitespaceLen_line (line : List Char) (rest : List (List Char)) :
    horizontalWhitespaceLen (line ++ tailLines '\n' rest) = utf8Length (indentation line) := by
  rw [horizontalWhitespaceLen, takeWhile_append_tailLines newline_not_whitespace, indentation]

theorem dropBytes_indentation (before : List Char) (line : List Char) (rest : List (List Char)) :
    dropBytes (before ++ (line ++ tailLines '\n' rest))
      (utf8Length before + utf8Length (indentation line)) =
        some (body line ++ tailLines '\n' rest) := by
  have hsplit : before ++ (line ++ tailLines '\n' rest) =
      (before ++ indentation line) ++ (body line ++ tailLines '\n' rest) := by
    rw [List.append_assoc, ← List.append_assoc (indentation line), indentation_append_body]
  rw [hsplit, ← utf8Length_append, dropBytes_append]

theorem sliceBytes_indentation (before : List Char) (line : List Char)
    (rest : List (List Char)) :
    sliceBytes (before ++ (line ++ tailLines '\n' rest)) (utf8Length before)
      (utf8Length before + utf8Length (indentation line)) = some (indentation line) := by
  have hsplit : before ++ (line ++ tailLines '\n' rest) =
      before ++ indentation line ++ (body line ++ tailLines '\n' rest) := by
    rw [List.append_assoc, ← List.append_assoc (indentation line), indentation_append_body]
  rw [hsplit, sliceBytes_middle]

theorem head?_content (rest : List (List Char)) (h : isContent line = true)
    (hline : '\n' ∉ line) :
    ∃ c, (body line ++ tailLines '\n' rest).head? = some c ∧ c ≠ '\n' := by
  obtain ⟨c, later, hbody, -, hc⟩ := body_eq_cons h hline
  exact ⟨c, by rw [hbody]; rfl, hc⟩

theorem head?_blank (h : isContent line = false) :
    (body line ++ tailLines '\n' rest).head? = if rest = [] then none else some '\n' := by
  rw [isContent_eq_false.1 h, List.nil_append]
  cases rest with
  | nil => rfl
  | cons next rest => rfl

end Reading

/-! ## Dedenting -/

theorem dedentChars_newline (width : Nat) (chars : List Char) :
    dedentChars width ('\n' :: chars) =
      '\n' :: dedentChars width (dropIndentation width chars) := by
  rw [dedentChars, if_neg (not_not_intro rfl)]

theorem dedentChars_line (width : Nat) {line : List Char} (hline : '\n' ∉ line)
    (chars : List Char) : dedentChars width (line ++ chars) = line ++ dedentChars width chars := by
  induction line with
  | nil => rfl
  | cons c line ih =>
      have hc : c ≠ '\n' := fun h => hline (h ▸ List.mem_cons_self)
      have hrest : '\n' ∉ line := fun h => hline (List.mem_cons_of_mem _ h)
      rw [List.cons_append, dedentChars, if_pos hc, ih hrest, List.cons_append]

theorem dropIndentation_line (width : Nat) (line : List Char) (rest : List (List Char)) :
    dropIndentation width (line ++ tailLines '\n' rest) =
      dedentLine width line ++ tailLines '\n' rest := by
  induction width generalizing line with
  | zero => rw [dedentLine, Nat.zero_min, List.drop_zero, dropIndentation]
  | succ width ih =>
      cases line with
      | nil =>
          rw [dedentLine, List.drop_nil, List.nil_append]
          cases rest with
          | nil => rfl
          | cons next rest =>
              rw [tailLines_cons, dropIndentation,
                if_neg (by rw [newline_not_whitespace]; exact Bool.false_ne_true)]
      | cons c line =>
          rw [List.cons_append, dropIndentation]
          by_cases hc : isNonNewlineWhitespace c = true
          · rw [if_pos hc, ih, dedentLine, dedentLine, indentation, indentation,
              List.takeWhile_cons_of_pos hc, List.length_cons, Nat.add_min_add_right,
              List.drop_succ_cons]
          · rw [if_neg hc, dedentLine, indentation, List.takeWhile_cons_of_neg hc,
              List.length_nil, Nat.min_zero, List.drop_zero, List.cons_append]

theorem not_mem_dedentLine {width : Nat} {line : List Char} (h : '\n' ∉ line) :
    '\n' ∉ dedentLine width line := fun hmem => h (List.mem_of_mem_drop hmem)

theorem not_mem_body {line : List Char} (h : '\n' ∉ line) : '\n' ∉ body line := by
  intro hmem
  refine h ?_
  rw [← indentation_append_body line]
  exact List.mem_append_right _ hmem

theorem dedentChars_tailLines (width : Nat) {rest : List (List Char)}
    (h : ∀ line ∈ rest, '\n' ∉ line) :
    dedentChars width (tailLines '\n' rest) = tailLines '\n' (rest.map (dedentLine width)) := by
  induction rest with
  | nil => rw [tailLines_nil, dedentChars, List.map_nil, tailLines_nil]
  | cons line rest ih =>
      rw [tailLines_cons, dedentChars_newline, dropIndentation_line,
        dedentChars_line width (not_mem_dedentLine (h line List.mem_cons_self)),
        ih fun l hl => h l (List.mem_cons_of_mem _ hl), List.map_cons, tailLines_cons]

theorem dedentLine_zero (line : List Char) : dedentLine 0 line = line := by
  rw [dedentLine, Nat.zero_min, List.drop_zero]

theorem dedent_ofLines (width : Nat) {lines : List (List Char)} (h : ∀ line ∈ lines, '\n' ∉ line) :
    (if 0 < width then dedentAfterNewlines (ofLines lines) width else ofLines lines) =
      ofLines (dedentLines width lines) := by
  cases lines with
  | nil =>
      show (if 0 < width then dedentAfterNewlines [] width else []) = []
      rw [dedentAfterNewlines, dedentChars, ite_self, ite_self]
  | cons first rest =>
      by_cases hwidth : 0 < width
      · rw [if_pos hwidth, dedentAfterNewlines, if_neg (Nat.ne_of_gt hwidth), dedentLines]
        show dedentChars width (first ++ tailLines '\n' rest) = _
        rw [dedentChars_line width (h first List.mem_cons_self),
          dedentChars_tailLines width fun l hl => h l (List.mem_cons_of_mem _ hl)]
        rfl
      · have hzero : width = 0 := Nat.eq_zero_of_not_pos hwidth
        have hmap : rest.map (dedentLine 0) = rest := by
          rw [List.map_congr_left fun line _ => dedentLine_zero line, List.map_id']
        rw [if_neg hwidth, hzero, dedentLines, hmap]

/-! ## The shared width -/

/-- The indentation of the first line with content. -/
def contentWidth (lines : List (List Char)) : Nat :=
  match lines.find? isContent with
  | some line => (indentation line).length
  | none => 0

theorem contentWidth_cons_content {line : List Char} {rest : List (List Char)}
    (h : isContent line = true) : contentWidth (line :: rest) = (indentation line).length := by
  rw [contentWidth, List.find?_cons_of_pos h]

theorem contentWidth_cons_blank {line : List Char} {rest : List (List Char)}
    (h : isContent line = false) : contentWidth (line :: rest) = contentWidth rest := by
  rw [contentWidth, List.find?_cons_of_neg (by rw [h]; exact Bool.false_ne_true), contentWidth]

theorem indentation_of_blank {line : List Char} (h : isContent line = false) :
    indentation line = line := by
  conv_rhs => rw [← indentation_append_body line, isContent_eq_false.1 h, List.append_nil]

theorem utf8Length_line {line : List Char} (before : List Char) (h : isContent line = false) :
    utf8Length (before ++ line ++ ['\n']) =
      utf8Length before + utf8Length (indentation line) + 1 := by
  rw [utf8Length_append, utf8Length_append, utf8Length_cons, utf8Length_nil, utf8Size_newline,
    indentation_of_blank h]

theorem append_tailLines_cons (before line next : List Char) (rest : List (List Char)) :
    before ++ (line ++ tailLines '\n' (next :: rest)) =
      before ++ line ++ ['\n'] ++ (next ++ tailLines '\n' rest) := by
  rw [tailLines_cons, List.append_assoc, List.append_assoc]
  rfl

section Scan

variable {content before line : List Char} {rest : List (List Char)} {turns : Nat}
  (hcontent : content = before ++ (line ++ tailLines '\n' rest))
include hcontent

/-- One turn of the scan: it goes on after a blank line that is not the last. -/
theorem scanLeadingLines_turn (hline : '\n' ∉ line) (leadingBoundaryEnd : Nat) (seen : Bool)
    (first : Nat) :
    scanLeadingLines content leadingBoundaryEnd (turns + 1) (utf8Length before) seen first =
      if isContent line = false ∧ rest ≠ [] then
        scanLeadingLines content leadingBoundaryEnd turns (utf8Length (before ++ line ++ ['\n']))
          true (if seen then first else utf8Length (indentation line))
      else if seen then
        some (if isContent line then (indentation line).length else 0, leadingBoundaryEnd + first)
      else some ((indentation line).length, utf8Length before + utf8Length (indentation line)) := by
  have hstart : dropBytes content (utf8Length before) = some (line ++ tailLines '\n' rest) := by
    rw [hcontent, dropBytes_append]
  have hslice := sliceBytes_indentation before line rest
  have hdrop := dropBytes_indentation before line rest
  rw [← hcontent] at hslice hdrop
  rw [scanLeadingLines, hstart]
  simp only [Option.bind_eq_bind, Option.bind_some, horizontalWhitespaceLen_line, hslice, hdrop]
  cases hblank : isContent line with
  | true =>
      obtain ⟨c, hhead, hc⟩ := head?_content rest hblank hline
      rw [hhead]
      cases seen <;> simp [hc]
  | false =>
      rw [head?_blank hblank, utf8Length_line before hblank]
      cases rest <;> cases seen <;> simp

theorem scanLeadingLines_seen {leadingBoundaryEnd first : Nat}
    (hlines : ∀ l ∈ line :: rest, '\n' ∉ l) (hturns : rest.length < turns) :
    scanLeadingLines content leadingBoundaryEnd turns (utf8Length before) true first =
      some (contentWidth (line :: rest), leadingBoundaryEnd + first) := by
  induction turns generalizing before line rest with
  | zero => exact absurd hturns (Nat.not_lt_zero _)
  | succ turns ih =>
      rw [scanLeadingLines_turn hcontent (hlines line List.mem_cons_self)]
      cases hblank : isContent line with
      | true => simp [contentWidth_cons_content hblank]
      | false =>
          rw [contentWidth_cons_blank hblank]
          cases rest with
          | nil => simp [contentWidth]
          | cons next rest =>
              rw [if_pos ⟨rfl, List.cons_ne_nil _ _⟩]
              exact ih (hcontent.trans (append_tailLines_cons _ _ _ _))
                (fun l hl => hlines l (List.mem_cons_of_mem _ hl)) (Nat.lt_of_succ_lt_succ hturns)

omit hcontent in
/-- The width that the scan finds after the line break. -/
def scannedWidth (line : List Char) (rest : List (List Char)) : Nat :=
  if isContent line = true ∨ rest = [] then (indentation line).length else contentWidth rest

theorem scanLeadingLines_first (hlines : ∀ l ∈ line :: rest, '\n' ∉ l)
    (hturns : rest.length < turns) (first : Nat) :
    scanLeadingLines content (utf8Length before) turns (utf8Length before) false first =
      some (scannedWidth line rest, utf8Length before + utf8Length (indentation line)) := by
  cases turns with
  | zero => exact absurd hturns (Nat.not_lt_zero _)
  | succ turns =>
      rw [scanLeadingLines_turn hcontent (hlines line List.mem_cons_self), scannedWidth]
      cases hblank : isContent line with
      | true => simp
      | false =>
          cases rest with
          | nil => simp
          | cons next rest =>
              rw [if_pos ⟨rfl, List.cons_ne_nil _ _⟩, if_neg (by simp)]
              exact scanLeadingLines_seen (hcontent.trans (append_tailLines_cons _ _ _ _))
                (fun l hl => hlines l (List.mem_cons_of_mem _ hl)) (Nat.lt_of_succ_lt_succ hturns)

end Scan

theorem scannedWidth_eq (line : List Char) (rest : List (List Char)) {first : List Char}
    (hfirst : isContent first = false) :
    sharedWidth (first :: line :: rest) = scannedWidth line rest := by
  have hbreak : beginsWithBreak (first :: line :: rest) = true := by
    rw [beginsWithBreak, hfirst]
    rfl
  rw [sharedWidth, if_pos hbreak, scannedWidth]
  cases hline : isContent line with
  | true => rw [List.find?_cons_of_pos hline, if_pos (Or.inl rfl)]
  | false =>
      rw [List.find?_cons_of_neg (by rw [hline]; exact Bool.false_ne_true)]
      cases rest with
      | nil =>
          rw [if_pos (Or.inr rfl), indentation_of_blank hline]
          simp
      | cons next rest =>
          rw [if_neg (by simp), contentWidth]
          simp

/-- Where the leading boundary of a text ends, in bytes: after the indentation of its second
line, if it begins with a line break. -/
def boundaryEnd : List (List Char) → Nat
  | first :: line :: _ =>
      if isContent first then 0 else utf8Length (first ++ ['\n'] ++ indentation line)
  | _ => 0

theorem length_le_tailLines (rest : List (List Char)) :
    rest.length ≤ (tailLines '\n' rest).length := by
  induction rest with
  | nil => exact Nat.le_refl _
  | cons line rest ih =>
      rw [tailLines_cons, List.length_cons, List.length_cons, List.length_append]
      omega

theorem computeLeadingDedentInfo_ofLines {lines : List (List Char)}
    (hlines : ∀ line ∈ lines, '\n' ∉ line) :
    computeLeadingDedentInfo (ofLines lines) = some (sharedWidth lines, boundaryEnd lines) := by
  cases lines with
  | nil => rfl
  | cons first rest =>
      have hline := hlines first List.mem_cons_self
      have hdrop := dropBytes_indentation [] first rest
      rw [List.nil_append, utf8Length_nil, Nat.zero_add] at hdrop
      show computeLeadingDedentInfo (first ++ tailLines '\n' rest) = _
      rw [computeLeadingDedentInfo, horizontalWhitespaceLen_line, hdrop]
      simp only [Option.bind_eq_bind, Option.bind_some]
      cases hfirst : isContent first with
      | true =>
          obtain ⟨c, hhead, hc⟩ := head?_content rest hfirst hline
          have hbreak : beginsWithBreak (first :: rest) = false := by
            rw [beginsWithBreak, hfirst]
            rfl
          rw [hhead, if_pos (by simpa using hc), sharedWidth, hbreak]
          cases rest with
          | nil => rfl
          | cons line rest => simp [boundaryEnd, hfirst]
      | false =>
          rw [head?_blank hfirst]
          cases rest with
          | nil =>
              have hbreak : beginsWithBreak [first] = false := by
                rw [beginsWithBreak, hfirst]
                rfl
              rw [sharedWidth, hbreak]
              rfl
          | cons line rest =>
              have hstart : utf8Length (indentation first) + 1 = utf8Length (first ++ ['\n']) := by
                rw [utf8Length_append, utf8Length_cons, utf8Length_nil, utf8Size_newline,
                  indentation_of_blank hfirst]
              have hturns : rest.length < (first ++ tailLines '\n' (line :: rest)).length + 1 := by
                have := length_le_tailLines rest
                rw [tailLines_cons, List.length_append, List.length_cons, List.length_append]
                omega
              have hcontent : first ++ tailLines '\n' (line :: rest) =
                  first ++ ['\n'] ++ (line ++ tailLines '\n' rest) := by
                rw [tailLines_cons, List.append_assoc]
                rfl
              rw [if_neg (by simp), hstart, scanLeadingLines_first hcontent
                (fun l hl => hlines l (List.mem_cons_of_mem _ hl)) hturns,
                scannedWidth_eq line rest hfirst, ← utf8Length_append, boundaryEnd, hfirst]
              rfl

end Moth.Templates
