import Moth.Templates.WhitespaceExact

/-!
# What the whitespace pass does to a list of pieces

Each text piece is rewritten line by line with the one width of the list, as a
piece that opens the run, one that closes it, both or neither. Anchors, the
order of pieces and all characters that are not whitespace stay.
-/

namespace Moth.Templates

open Moth.Lib

def isVisible (c : Char) : Bool := !isWhitespace c

/-! ## Only whitespace goes -/

theorem filter_indentation {run : List Char} (h : ∀ c ∈ run, isNonNewlineWhitespace c = true) :
    run.filter isVisible = [] := by
  rw [List.filter_eq_nil_iff]
  intro c hc hvisible
  have hspace := h c hc
  rw [isNonNewlineWhitespace, Bool.and_eq_true, Bool.and_eq_true] at hspace
  rw [isVisible, hspace.1.1] at hvisible
  cases hvisible

theorem mem_indentation {line : List Char} {c : Char} (h : c ∈ indentation line) :
    isNonNewlineWhitespace c = true := List.mem_takeWhile_imp h

theorem filter_body (line : List Char) : (body line).filter isVisible = line.filter isVisible := by
  conv_rhs => rw [← indentation_append_body line]
  rw [List.filter_append, filter_indentation fun c => mem_indentation, List.nil_append]

theorem filter_dedentLine (width : Nat) (line : List Char) :
    (dedentLine width line).filter isVisible = line.filter isVisible := by
  have htake : ∀ n ≤ (indentation line).length, line.take n = (indentation line).take n := by
    intro n hn
    conv_lhs => rw [← indentation_append_body line]
    exact List.take_append_of_le_length hn
  have hspaces : (line.take (min width (indentation line).length)).filter isVisible = [] := by
    rw [htake _ (Nat.min_le_right _ _)]
    exact filter_indentation fun c hc => mem_indentation (List.mem_of_mem_take hc)
  conv_rhs => rw [← List.take_append_drop (min width (indentation line).length) line]
  rw [List.filter_append, hspaces, List.nil_append, dedentLine]

theorem filter_blank {line : List Char} (h : isContent line = false) :
    line.filter isVisible = [] := by
  rw [← filter_body, isContent_eq_false.1 h, List.filter_nil]

def visibleOf (lines : List (List Char)) : List Char := lines.flatMap (List.filter isVisible)

theorem visibleOf_cons (line : List Char) (lines : List (List Char)) :
    visibleOf (line :: lines) = line.filter isVisible ++ visibleOf lines := rfl

theorem visibleOf_map_dedentLine (width : Nat) (lines : List (List Char)) :
    visibleOf (lines.map (dedentLine width)) = visibleOf lines := by
  induction lines with
  | nil => rfl
  | cons line lines ih =>
      rw [List.map_cons, visibleOf_cons, visibleOf_cons, filter_dedentLine, ih]

theorem visibleOf_stripLeading (width : Nat) (lines : List (List Char)) :
    visibleOf (stripLeading width lines) = visibleOf lines := by
  induction lines with
  | nil => rfl
  | cons line rest ih =>
      rw [stripLeading]
      cases hline : isContent line with
      | true =>
          rw [if_pos rfl, visibleOf_cons, visibleOf_cons, filter_body, visibleOf_map_dedentLine]
      | false =>
          rw [if_neg Bool.false_ne_true, visibleOf_cons, visibleOf_cons, filter_blank hline, ih]
          rfl

theorem visibleOf_dedentLines (width : Nat) (lines : List (List Char)) :
    visibleOf (dedentLines width lines) = visibleOf lines := by
  cases lines with
  | nil => rfl
  | cons first rest =>
      rw [dedentLines, visibleOf_cons, visibleOf_cons, visibleOf_map_dedentLine]

theorem visibleOf_trimLast (lines : List (List Char)) :
    visibleOf (trimLast lines) = visibleOf lines := by
  rw [trimLast]
  split
  · next h =>
      rcases List.eq_nil_or_concat lines with rfl | ⟨init, last, rfl⟩
      · rfl
      · rw [List.concat_eq_append] at h ⊢
        rw [List.getLast?_append, List.getLast?_singleton] at h
        have hblank : isContent last = false := by simpa using h.2
        rw [List.dropLast_concat, visibleOf, visibleOf, List.flatMap_append,
          List.flatMap_singleton, filter_blank hblank, List.append_nil]
  · rfl

theorem visibleOf_normalizeLines (leading trailing : Bool) (width : Nat)
    (lines : List (List Char)) :
    visibleOf (normalizeLines leading trailing width lines) = visibleOf lines := by
  have hfirst : visibleOf (if (leading && beginsWithBreak lines) = true then
      stripLeading width lines.tail else dedentLines width lines) = visibleOf lines := by
    by_cases hlead : (leading && beginsWithBreak lines) = true
    · rw [if_pos hlead]
      obtain ⟨first, line, rest, rfl, hblank⟩ :=
        beginsWithBreak_iff.1 (Bool.and_eq_true_iff.1 hlead).2
      rw [List.tail_cons, visibleOf_stripLeading, visibleOf_cons first, filter_blank hblank,
        List.nil_append]
    · rw [if_neg hlead, visibleOf_dedentLines]
  rw [normalizeLines]
  cases trailing with
  | true => exact (visibleOf_trimLast _).trans hfirst
  | false => exact hfirst

theorem newline_not_visible : isVisible '\n' = false := by decide

theorem filter_normalized (leading trailing : Bool) (width : Nat) (text : List Char) :
    (ofLines (normalizeLines leading trailing width (textLines text))).filter isVisible =
      text.filter isVisible := by
  conv_rhs => rw [← @joinLines_separatedLines _ _ '\n' text]
  rw [filter_joinLines newline_not_visible, filter_joinLines newline_not_visible]
  exact visibleOf_normalizeLines leading trailing width (textLines text)

/-! ## One text -/

theorem not_mem_stripLeading {width : Nat} {lines : List (List Char)}
    (h : ∀ l ∈ lines, '\n' ∉ l) : ∀ l ∈ stripLeading width lines, '\n' ∉ l := by
  induction lines with
  | nil => exact h
  | cons line rest ih =>
      have hrest : ∀ l ∈ rest, '\n' ∉ l := fun l hl => h l (List.mem_cons_of_mem _ hl)
      intro l hl
      rw [stripLeading] at hl
      split at hl
      · rcases List.mem_cons.1 hl with rfl | hl
        · exact not_mem_body (h line List.mem_cons_self)
        · obtain ⟨other, hother, rfl⟩ := List.mem_map.1 hl
          exact not_mem_dedentLine (hrest other hother)
      · rcases List.mem_cons.1 hl with rfl | hl
        · exact List.not_mem_nil
        · exact ih hrest l hl

theorem not_mem_dedentLines {width : Nat} {lines : List (List Char)}
    (h : ∀ l ∈ lines, '\n' ∉ l) : ∀ l ∈ dedentLines width lines, '\n' ∉ l := by
  cases lines with
  | nil => exact h
  | cons first rest =>
      intro l hl
      rcases List.mem_cons.1 hl with rfl | hl
      · exact h _ List.mem_cons_self
      · obtain ⟨other, hother, rfl⟩ := List.mem_map.1 hl
        exact not_mem_dedentLine (h other (List.mem_cons_of_mem _ hother))

/-- The first two steps: the lines before the trailing boundary is looked at. -/
def dedentedLines (leading : Bool) (width : Nat) (lines : List (List Char)) :
    List (List Char) :=
  if leading && beginsWithBreak lines then stripLeading width lines.tail
  else dedentLines width lines

theorem not_mem_dedentedLines {leading : Bool} {width : Nat} {lines : List (List Char)}
    (h : ∀ l ∈ lines, '\n' ∉ l) : ∀ l ∈ dedentedLines leading width lines, '\n' ∉ l := by
  rw [dedentedLines]
  split
  · exact not_mem_stripLeading fun l hl => h l (List.mem_of_mem_tail hl)
  · exact not_mem_dedentLines h

section Text

variable {plan : WhitespacePlan} {index : Nat} {lines : List (List Char)}

theorem dedentText_eq (plan : WhitespacePlan) (text : List Char) :
    dedentText plan text = dedentChars plan.dedentWidth text := dedent_eq plan.dedentWidth text

theorem trimLeadingText_dedented (hlines : ∀ l ∈ lines, '\n' ∉ l)
    (hfirst : plan.leads index = true → plan.dedentWidth = sharedWidth lines ∧
      plan.leadingTrimEnd = boundaryEnd lines) :
    (trimLeadingText plan index (ofLines lines)).map (dedentText plan) =
      some (ofLines (dedentedLines (plan.leads index) plan.dedentWidth lines)) := by
  have hplain : dedentText plan (ofLines lines) = ofLines (dedentLines plan.dedentWidth lines) :=
    dedent_ofLines plan.dedentWidth hlines
  rw [trimLeadingText, dedentedLines]
  cases hlead : plan.leads index with
  | false =>
      rw [if_neg (by simp), if_neg (by simp), Option.map_some, hplain]
  | true =>
      obtain ⟨hwidth, hend⟩ := hfirst hlead
      cases hbreak : beginsWithBreak lines with
      | false =>
          have hzero : ¬0 < boundaryEnd lines := fun hpos => by
            rw [boundaryEnd_pos_iff, hbreak] at hpos
            cases hpos
          rw [if_neg (by rw [hend]; simpa using hzero), if_neg (by simp), Option.map_some, hplain]
      | true =>
          have hpos : 0 < boundaryEnd lines := boundaryEnd_pos_iff.2 hbreak
          obtain ⟨first, line, rest, rfl, hblank⟩ := beginsWithBreak_iff.1 hbreak
          have hdrained : ∀ l ∈ body line :: rest, '\n' ∉ l := by
            intro l hl
            rcases List.mem_cons.1 hl with rfl | hl
            · exact not_mem_body (hlines line (by simp))
            · exact hlines l (by simp [hl])
          rw [if_pos (by rw [hend]; simpa using hpos), if_pos (by simp), hend,
            drain_ofLines hblank, Option.bind_some,
            trimLeadingBlankLineIndentation_ofLines hdrained, Option.map_some, dedentText_eq,
            hwidth, dedent_drained hblank hlines, List.tail_cons]

theorem normalizeText_eq {text : List Char}
    (hfirst : plan.leads index = true → plan.dedentWidth = sharedWidth (textLines text) ∧
      plan.leadingTrimEnd = boundaryEnd (textLines text)) :
    normalizeText plan index text = some (ofLines (normalizeLines (plan.leads index)
      (plan.trails index) plan.dedentWidth (textLines text))) := by
  have hlines : ∀ l ∈ textLines text, '\n' ∉ l := fun l => not_mem_separatedLines
  have hdedented := trimLeadingText_dedented hlines hfirst
  rw [show ofLines (textLines text) = text from joinLines_separatedLines text,
    Option.map_eq_some_iff] at hdedented
  obtain ⟨trimmed, htrimmed, hdedent⟩ := hdedented
  rw [normalizeText, htrimmed, Option.bind_some, hdedent, trimTrailingText, normalizeLines]
  cases htrail : plan.trails index with
  | false => rfl
  | true => exact trimTrailing_ofLines (not_mem_dedentedLines hlines)

end Text

/-! ## Pieces -/

open FormatterOutputPiece

/-- Nothing but empty text comes before the piece. -/
def opensRun (pieces : List FormatterOutputPiece) (index : Nat) : Bool :=
  (pieces.take index).all isEmptyText

/-- Nothing but empty text comes after it. -/
def closesRun (pieces : List FormatterOutputPiece) (index : Nat) : Bool :=
  (pieces.drop (index + 1)).all isEmptyText

def firstText (pieces : List FormatterOutputPiece) : List Char :=
  (pieces.findSome? nonEmptyText).getD []

theorem isNonEmptyText_text {text : List Char} (h : text ≠ []) :
    isNonEmptyText (.Text text) = true ∧ nonEmptyText (.Text text) = some text := by
  cases text with
  | nil => exact absurd rfl h
  | cons c text => exact ⟨rfl, rfl⟩

theorem not_nonEmpty_of_empty {piece : FormatterOutputPiece} (h : isEmptyText piece = true) :
    isNonEmptyText piece = false ∧ nonEmptyText piece = none := by
  cases piece with
  | Opaque id => cases h
  | Text text =>
      cases text with
      | nil => exact ⟨rfl, rfl⟩
      | cons c text => cases h

variable {pieces : List FormatterOutputPiece} {index : Nat} {text : List Char}

theorem findIdx?_of_opensRun (hpiece : pieces[index]? = some (.Text text)) (hne : text ≠ [])
    (hopens : opensRun pieces index = true) : pieces.findIdx? isNonEmptyText = some index := by
  induction pieces generalizing index with
  | nil => cases hpiece
  | cons piece pieces ih =>
      cases index with
      | zero =>
          cases hpiece
          rw [List.findIdx?_cons, if_pos (isNonEmptyText_text hne).1]
      | succ index =>
          obtain ⟨hfirst, hrest⟩ := Bool.and_eq_true_iff.1 hopens
          rw [List.findIdx?_cons, (not_nonEmpty_of_empty hfirst).1,
            if_neg Bool.false_ne_true, ih hpiece hrest]
          rfl

theorem firstText_of_findIdx? (hindex : pieces.findIdx? isNonEmptyText = some index)
    (hpiece : pieces[index]? = some (.Text text)) : firstText pieces = text := by
  induction pieces generalizing index with
  | nil => cases hpiece
  | cons piece pieces ih =>
      rw [List.findIdx?_cons] at hindex
      rw [firstText, List.findSome?_cons]
      cases hp : nonEmptyText piece with
      | some found =>
          rw [isNonEmptyText, hp, Option.isSome_some, if_pos rfl] at hindex
          cases hindex
          cases hpiece
          cases text with
          | nil => cases hp
          | cons c text =>
              cases hp
              rfl
      | none =>
          rw [isNonEmptyText, hp, Option.isSome_none, if_neg Bool.false_ne_true,
            Option.map_eq_some_iff] at hindex
          obtain ⟨i, hi, rfl⟩ := hindex
          exact ih hi hpiece

theorem lastTextIndex_of_empty (h : pieces.all isEmptyText = true) :
    lastTextIndex pieces = none := by
  induction pieces with
  | nil => rfl
  | cons piece pieces ih =>
      obtain ⟨hfirst, hrest⟩ := Bool.and_eq_true_iff.1 h
      rw [lastTextIndex, ih hrest, (not_nonEmpty_of_empty hfirst).1]
      rfl

theorem lastTextIndex_of_closesRun (hpiece : pieces[index]? = some (.Text text))
    (hne : text ≠ []) (hcloses : closesRun pieces index = true) :
    lastTextIndex pieces = some index := by
  induction pieces generalizing index with
  | nil => cases hpiece
  | cons piece pieces ih =>
      cases index with
      | zero =>
          cases hpiece
          have hnone : lastTextIndex pieces = none := lastTextIndex_of_empty hcloses
          rw [lastTextIndex, hnone, (isNonEmptyText_text hne).1]
          rfl
      | succ index => rw [lastTextIndex, ih hpiece hcloses]

/-- The plan that a pass makes for its pieces. -/
def planFor (pieces : List FormatterOutputPiece) (trimLeading trimTrailing : Bool) :
    WhitespacePlan where
  dedentWidth := sharedWidth (textLines (firstText pieces))
  leadingTrimEnd := boundaryEnd (textLines (firstText pieces))
  firstTextIndex := pieces.findIdx? isNonEmptyText
  lastTextIndex := lastTextIndex pieces
  trimLeading
  trimTrailing
  leadingTextIsRunBoundary :=
    (pieces.findIdx? isNonEmptyText).any fun index => (pieces.take index).all isEmptyText
  trailingTextIsRunBoundary :=
    (lastTextIndex pieces).any fun index => (pieces.drop (index + 1)).all isEmptyText

theorem normalize_eq_planned (pieces : List FormatterOutputPiece)
    (trimLeading trimTrailing : Bool) :
    normalizeStructuredDefaultWhitespace pieces trimLeading trimTrailing =
      normalizePieces (planFor pieces trimLeading trimTrailing) 0 pieces := by
  have hinfo : ∀ text, computeLeadingDedentInfo text =
      some (sharedWidth (textLines text), boundaryEnd (textLines text)) := by
    intro text
    have hlines : ∀ l ∈ textLines text, '\n' ∉ l := fun l => not_mem_separatedLines
    have h := computeLeadingDedentInfo_ofLines hlines
    rwa [show ofLines (textLines text) = text from joinLines_separatedLines text] at h
  rw [normalizeStructuredDefaultWhitespace, planFor, firstText]
  cases pieces.findSome? nonEmptyText with
  | none => rfl
  | some text =>
      rw [Option.getD_some]
      simp only [hinfo, Option.bind_eq_bind, Option.bind_some]

section Plan

variable {trimLeading trimTrailing : Bool}

theorem leads_planFor (hpiece : pieces[index]? = some (.Text text)) (hne : text ≠ []) :
    (planFor pieces trimLeading trimTrailing).leads index =
      (trimLeading && opensRun pieces index) := by
  rw [WhitespacePlan.leads, planFor, Bool.and_assoc]
  congr 1
  show (decide (pieces.findIdx? isNonEmptyText = some index) &&
    (pieces.findIdx? isNonEmptyText).any fun i => (pieces.take i).all isEmptyText) = _
  cases hopens : opensRun pieces index with
  | true =>
      rw [findIdx?_of_opensRun hpiece hne hopens]
      simpa [opensRun] using hopens
  | false =>
      rw [Bool.and_eq_false_iff, or_iff_not_imp_left, Bool.not_eq_false, decide_eq_true_eq]
      intro hindex
      rw [hindex]
      exact hopens

theorem trails_planFor (hpiece : pieces[index]? = some (.Text text)) (hne : text ≠ []) :
    (planFor pieces trimLeading trimTrailing).trails index =
      (trimTrailing && closesRun pieces index) := by
  rw [WhitespacePlan.trails, planFor, Bool.and_assoc]
  congr 1
  show (decide (lastTextIndex pieces = some index) &&
    (lastTextIndex pieces).any fun i => (pieces.drop (i + 1)).all isEmptyText) = _
  cases hcloses : closesRun pieces index with
  | true =>
      rw [lastTextIndex_of_closesRun hpiece hne hcloses]
      simpa [closesRun] using hcloses
  | false =>
      rw [Bool.and_eq_false_iff, or_iff_not_imp_left, Bool.not_eq_false, decide_eq_true_eq]
      intro hindex
      rw [hindex]
      exact hcloses

/-- A text as the piece `index` of the list, with the width of the list. -/
def normalizedText (pieces : List FormatterOutputPiece) (trimLeading trimTrailing : Bool)
    (index : Nat) (text : List Char) : List Char :=
  ofLines (normalizeLines (trimLeading && opensRun pieces index)
    (trimTrailing && closesRun pieces index) (sharedWidth (textLines (firstText pieces)))
    (textLines text))

theorem normalizePiece_text (hpiece : pieces[index]? = some (.Text text)) :
    normalizePiece (planFor pieces trimLeading trimTrailing) index (.Text text) =
      some (.Text (normalizedText pieces trimLeading trimTrailing index text)) := by
  by_cases hne : text = []
  · subst hne
    rw [normalizePiece, normalizedText]
    cases trimLeading && opensRun pieces index <;> cases trimTrailing && closesRun pieces index <;>
      rfl
  · have hstep : normalizePiece (planFor pieces trimLeading trimTrailing) index (.Text text) =
        (normalizeText (planFor pieces trimLeading trimTrailing) index text).map .Text := by
      cases text with
      | nil => exact absurd rfl hne
      | cons c text => rfl
    have hfirst : (planFor pieces trimLeading trimTrailing).leads index = true →
        (planFor pieces trimLeading trimTrailing).dedentWidth = sharedWidth (textLines text) ∧
        (planFor pieces trimLeading trimTrailing).leadingTrimEnd =
          boundaryEnd (textLines text) := by
      intro hleads
      rw [leads_planFor hpiece hne] at hleads
      have hindex := findIdx?_of_opensRun hpiece hne (Bool.and_eq_true_iff.1 hleads).2
      have htext := firstText_of_findIdx? hindex hpiece
      rw [planFor, htext]
      exact ⟨rfl, rfl⟩
    rw [hstep, normalizeText_eq hfirst, leads_planFor hpiece hne, trails_planFor hpiece hne]
    rfl

theorem normalizePieces_eq {rest : List FormatterOutputPiece}
    (hrest : pieces.drop index = rest) :
    ∃ out : List FormatterOutputPiece,
      normalizePieces (planFor pieces trimLeading trimTrailing) index rest = some out ∧
      out.length = rest.length ∧ ∀ i,
        (∀ id, rest[i]? = some (Opaque id) → out[i]? = some (Opaque id)) ∧
        ∀ text, rest[i]? = some (Text text) →
          out[i]? =
            some (Text (normalizedText pieces trimLeading trimTrailing (index + i) text)) := by
  induction rest generalizing index with
  | nil =>
      refine ⟨[], rfl, rfl, ?_⟩
      intro i
      refine ⟨?_, ?_⟩ <;> intro _ h <;> cases h
  | cons piece rest ih =>
      have hpiece : pieces[index]? = some piece := by
        rw [← List.head?_drop, hrest]
        rfl
      have hdrop : pieces.drop (index + 1) = rest := by
        rw [← List.tail_drop, hrest]
        rfl
      obtain ⟨out, hrun, hlength, hout⟩ := ih hdrop
      obtain ⟨first, hfirst, hanchor, htext⟩ : ∃ first,
          normalizePiece (planFor pieces trimLeading trimTrailing) index piece = some first ∧
          (∀ id, piece = .Opaque id → first = .Opaque id) ∧
          ∀ text, piece = .Text text →
            first = .Text (normalizedText pieces trimLeading trimTrailing index text) := by
        cases piece with
        | Opaque id =>
            refine ⟨.Opaque id, rfl, fun other h => h, ?_⟩
            intro text h
            cases h
        | Text text =>
            refine ⟨_, normalizePiece_text hpiece, ?_, ?_⟩
            · intro id h
              cases h
            · intro other h
              cases h
              rfl
      refine ⟨first :: out, ?_, by rw [List.length_cons, hlength, List.length_cons], ?_⟩
      · simp only [normalizePieces, hfirst, hrun, Option.bind_eq_bind, Option.bind_some]
        rfl
      · intro i
        cases i with
        | zero =>
            refine ⟨?_, ?_⟩
            · intro id h
              exact congrArg some (hanchor id (Option.some.inj h))
            · intro text h
              exact congrArg some (htext text (Option.some.inj h))
        | succ i =>
            obtain ⟨ho, ht⟩ := hout i
            refine ⟨ho, ?_⟩
            intro text h
            rw [← Nat.add_assoc, Nat.add_right_comm]
            exact ht text h

end Plan

/-- A pass never cuts inside a character. It keeps the pieces, their order and anchors, and every
character that is not whitespace. A text keeps its lines, but for the shared width after each
newline; where it opens the run and begins with a line break, but for that break and all the
indentation after it up to the first content; and where it closes the run, but for a last newline
with only whitespace after it. -/
theorem whitespace_pass_exact (pieces : List FormatterOutputPiece)
    (pass : TemplateWhitespacePassProfile) (run : TemplateBodyRunPosition) :
    ∃ out : List FormatterOutputPiece,
      applyStructuredWhitespacePass pieces pass run = some out ∧
      out.length = pieces.length ∧ ∀ i,
        (∀ id, pieces[i]? = some (.Opaque id) → out[i]? = some (.Opaque id)) ∧
        ∀ text, pieces[i]? = some (.Text text) → ∃ kept,
          out[i]? = some (.Text kept) ∧ kept.filter isVisible = text.filter isVisible ∧
          kept = ofLines (normalizeLines
            (pass.trimLeadingBoundary && run.isFirst && opensRun pieces i)
            (pass.trimTrailingBoundary && run.isLast && closesRun pieces i)
            (sharedWidth (textLines (firstText pieces))) (textLines text)) := by
  have hfront : pieces.drop 0 = pieces := List.drop_zero
  obtain ⟨out, hrun, hlength, hout⟩ := @normalizePieces_eq pieces 0
    (pass.trimLeadingBoundary && run.isFirst) (pass.trimTrailingBoundary && run.isLast) _ hfront
  refine ⟨out, ?_, hlength, ?_⟩
  · rw [applyStructuredWhitespacePass, normalize_eq_planned]
    exact hrun
  · intro i
    obtain ⟨hanchor, htext⟩ := hout i
    refine ⟨hanchor, ?_⟩
    intro text h
    refine ⟨_, htext text h, filter_normalized _ _ _ _, ?_⟩
    rw [normalizedText, Nat.zero_add]

/-- The lines when a line break at the front goes alone, without the indentation of the line after
it: blank lines lose theirs, and a line after a kept newline loses the width. -/
def breakOnlyLines (width : Nat) : List (List Char) → List (List Char)
  | [] => []
  | line :: rest =>
      if isContent line then line :: rest.map (dedentLine width)
      else [] :: stripLeading width rest

/-- The first content after the break is not left indented. -/
theorem whitespace_pass_takes_content_indentation :
    applyStructuredWhitespacePass [.Text ['\n', ' ', 'h']] .defaultTemplateBody .Only =
        some [.Text ['h']] ∧
      ofLines (trimLast (breakOnlyLines (sharedWidth (textLines ['\n', ' ', 'h']))
        (textLines ['\n', ' ', 'h']).tail)) = [' ', 'h'] := by
  refine ⟨?_, by decide⟩
  have hfront : [FormatterOutputPiece.Text ['\n', ' ', 'h']].drop 0 =
    [.Text ['\n', ' ', 'h']] := rfl
  obtain ⟨out, hrun, hlength, hout⟩ := @normalizePieces_eq [.Text ['\n', ' ', 'h']] 0 true true _
    hfront
  have hfirst : out[0]? = some (.Text ['h']) := (hout 0).2 _ rfl
  have hshape : out = [.Text ['h']] := by
    cases out with
    | nil => cases hfirst
    | cons piece rest =>
        cases hfirst
        rw [List.eq_nil_of_length_eq_zero (Nat.succ.inj hlength)]
  rw [applyStructuredWhitespacePass, normalize_eq_planned, ← hshape]
  exact hrun

end Moth.Templates
