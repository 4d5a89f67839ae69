import Moth.Source.LineIndex

/-!
# Lines of a text

The newline policy, over characters: a line ends after `\n`, or after `\r`
unless a `\n` follows. The byte table holds the starts of these lines, and a
position counts the characters of one line.
-/

namespace Moth.Source

open Moth.Lib

/-! ## The newline policy -/

def endsLine (c : Char) (rest : List Char) : Bool :=
  decide (c = '\n' ∨ c = '\r' ∧ rest.head? ≠ some '\n')

def splitLines : List Char → List (List Char)
  | [] => []
  | c :: rest =>
      if endsLine c rest then [c] :: splitLines rest
      else
        match splitLines rest with
        | [] => [[c]]
        | line :: lines => (c :: line) :: lines

/-- Text with no line break. -/
def Visible (line : List Char) : Prop := ∀ c ∈ line, c ≠ '\n' ∧ c ≠ '\r'

def Terminator (term : List Char) : Prop :=
  term = ['\n'] ∨ term = ['\r', '\n'] ∨ term = ['\r']

/-- Lines with one terminator each, at the end. The last may have none. A `\r` alone ends a line
where the next does not go on with `\n`. -/
inductive IsLines : List (List Char) → Prop
  | nil : IsLines []
  | last {visible : List Char} (hvisible : Visible visible) (hne : visible ≠ []) : IsLines [visible]
  | cons {visible term : List Char} {lines : List (List Char)} (hvisible : Visible visible)
      (hterm : Terminator term) (hlines : IsLines lines)
      (hreturn : term = ['\r'] → lines.flatten.head? ≠ some '\n') :
      IsLines ((visible ++ term) :: lines)

theorem splitLines_flatten (text : List Char) : (splitLines text).flatten = text := by
  induction text with
  | nil => rfl
  | cons c rest ih =>
      rw [splitLines]
      split
      · rw [List.flatten_cons, ih]
        rfl
      · cases hlines : splitLines rest with
        | nil =>
            rw [hlines] at ih
            rw [← ih]
            rfl
        | cons line lines =>
            rw [hlines] at ih
            show c :: (line ++ lines.flatten) = _
            rw [← List.flatten_cons, ih]

theorem splitLines_eq_nil {text : List Char} : splitLines text = [] ↔ text = [] := by
  constructor
  · intro h
    have hflatten := splitLines_flatten text
    rw [h] at hflatten
    exact hflatten.symm
  · intro h
    rw [h]
    rfl

theorem splitLines_isLines (text : List Char) : IsLines (splitLines text) := by
  induction text with
  | nil => exact .nil
  | cons c rest ih =>
      have hflatten := splitLines_flatten rest
      rw [splitLines]
      split
      · rename_i hends
        have hreturn : [c] = ['\r'] → (splitLines rest).flatten.head? ≠ some '\n' := by
          intro hc
          cases hc
          rw [hflatten]
          rcases of_decide_eq_true hends with h | h
          · cases h
          · exact h.2
        have hterm : Terminator [c] := by
          rcases of_decide_eq_true hends with h | h
          · exact .inl (by rw [h])
          · exact .inr (.inr (by rw [h.1]))
        exact @IsLines.cons [] [c] _ (fun _ hmem => by cases hmem) hterm ih hreturn
      · rename_i hends
        have hgoes : c ≠ '\n' ∧ (c = '\r' → rest.head? = some '\n') := by
          have hnot := of_decide_eq_false (eq_false_of_ne_true hends)
          refine ⟨fun h => hnot (.inl h), fun h => ?_⟩
          by_contra hhead
          exact hnot (.inr ⟨h, hhead⟩)
        cases hlines : splitLines rest with
        | nil =>
            have hrest := splitLines_eq_nil.1 hlines
            refine .last (fun d hd => ?_) (List.cons_ne_nil _ _)
            rw [List.mem_singleton] at hd
            rw [hd]
            refine ⟨hgoes.1, fun h => ?_⟩
            have hhead := hgoes.2 h
            rw [hrest] at hhead
            cases hhead
        | cons line lines =>
            rw [hlines] at ih hflatten
            have hextend : ∀ {visible : List Char}, c ≠ '\r' → Visible visible →
                Visible (c :: visible) := by
              intro visible hc hvisible d hd
              rcases List.mem_cons.1 hd with rfl | hd
              · exact ⟨hgoes.1, hc⟩
              · exact hvisible d hd
            by_cases hc : c = '\r'
            · -- the `\n` that follows is the whole of the next line
              have hhead := hgoes.2 hc
              rw [← hflatten] at hhead
              cases ih with
              | last hvisible hne =>
                  obtain ⟨d, visible, rfl⟩ := List.exists_cons_of_ne_nil hne
                  cases hhead
                  exact absurd rfl (hvisible _ List.mem_cons_self).1
              | @cons visible term _ hvisible hterm hrest hreturn =>
                  cases visible with
                  | cons d visible =>
                      cases hhead
                      exact absurd rfl (hvisible _ List.mem_cons_self).1
                  | nil =>
                      rcases hterm with rfl | rfl | rfl
                      · subst hc
                        exact @IsLines.cons [] ['\r', '\n'] _ (fun _ hmem => by cases hmem)
                          (.inr (.inl rfl)) hrest (by intro h; cases h)
                      · cases hhead
                      · cases hhead
            · cases ih with
              | last hvisible hne => exact .last (hextend hc hvisible) (List.cons_ne_nil _ _)
              | @cons visible term _ hvisible hterm hrest hreturn =>
                  exact @IsLines.cons (c :: visible) term _ (hextend hc hvisible) hterm hrest
                    hreturn

theorem IsLines.visible {lines : List (List Char)} (h : IsLines lines) {i : Nat}
    {line : List Char} (hline : lines[i]? = some line) :
    ∃ visible term, line = visible ++ term ∧ Visible visible ∧
      (Terminator term ∨ term = [] ∧ i + 1 = lines.length) := by
  induction h generalizing i with
  | nil => cases hline
  | last hvisible hne =>
      cases i with
      | zero =>
          cases hline
          exact ⟨_, [], (List.append_nil _).symm, hvisible, .inr ⟨rfl, rfl⟩⟩
      | succ i => cases hline
  | cons hvisible hterm _ _ ih =>
      cases i with
      | zero =>
          cases hline
          exact ⟨_, _, rfl, hvisible, .inl hterm⟩
      | succ i =>
          obtain ⟨visible, term, heq, hvis, hend⟩ := ih hline
          refine ⟨visible, term, heq, hvis, hend.imp_right fun h => ⟨h.1, ?_⟩⟩
          rw [List.length_cons, h.2]

end Moth.Source

/-!
## The table holds the line starts

The two passes over the bytes find exactly the starts of the lines. A byte
that ends a line is its own character, so nothing inside a longer encoding is
taken for one.
-/

namespace Moth.Source

open Moth.Lib

/-! ## The scan as a recursion -/

def scan : Nat → List UInt8 → List Nat
  | _, [] => []
  | _, [_] => []
  | offset, byte :: next :: bytes =>
      if byte = 10 ∨ byte = 13 ∧ next ≠ 10 then (offset + 1) :: scan (offset + 1) (next :: bytes)
      else scan (offset + 1) (next :: bytes)

theorem fill_eq_scan {bytes : List UInt8} (hlength : bytes.length < 4294967296)
    (before after : List UInt8) (heq : bytes = before ++ after) :
    ((after.dropLast.zipIdx before.length).filterMap fun entry =>
      if opensNextLine bytes entry.2 entry.1 then some (asU32 entry.2 + 1) else none) =
      scan before.length after := by
  induction after generalizing before with
  | nil => rfl
  | cons byte after ih =>
      cases after with
      | nil => rfl
      | cons next after =>
          have hnext : bytes[before.length + 1]? = some next := by
            rw [heq, List.getElem?_append_right (by omega), Nat.add_sub_cancel_left]
            rfl
          have hsmall : asU32 before.length = before.length := by
            rw [heq, List.length_append] at hlength
            exact Nat.mod_eq_of_lt (by omega)
          have hrest := ih (before ++ [byte]) (by rw [heq, List.append_assoc]; rfl)
          rw [List.length_append, List.length_singleton] at hrest
          rw [List.dropLast_cons_of_ne_nil (List.cons_ne_nil _ _), List.zipIdx_cons, scan]
          have hopens : opensNextLine bytes before.length byte =
              decide (byte = 10 ∨ byte = 13 ∧ next ≠ 10) := by
            rw [opensNextLine, hnext, Bool.eq_iff_iff, decide_eq_true_iff, Bool.or_eq_true,
              Bool.and_eq_true, beq_iff_eq, beq_iff_eq, bne_iff_ne, ne_eq, Option.some_inj]
          by_cases hcond : byte = 10 ∨ byte = 13 ∧ next ≠ 10
          · rw [if_pos hcond, ← hrest, List.filterMap_cons]
            simp only [hopens, hcond, decide_true, if_true, hsmall]
          · rw [if_neg hcond, ← hrest, List.filterMap_cons]
            simp only [hopens, hcond, decide_false, Bool.false_eq_true, if_false]

theorem scan_skip (offset : Nat) {bytes : List UInt8} (rest : List UInt8)
    (h : ∀ byte ∈ bytes, byte ≠ 10 ∧ byte ≠ 13) :
    scan offset (bytes ++ rest) = scan (offset + bytes.length) rest := by
  induction bytes generalizing offset with
  | nil => rfl
  | cons byte bytes ih =>
      have hrest := ih (offset + 1) fun b hb => h b (List.mem_cons_of_mem _ hb)
      have hlen : offset + (byte :: bytes).length = offset + 1 + bytes.length := by
        rw [List.length_cons]
        omega
      rw [hlen, ← hrest, List.cons_append]
      cases htail : bytes ++ rest with
      | nil => rfl
      | cons next tail =>
          have hbyte := h byte List.mem_cons_self
          rw [scan, if_neg]
          rintro (heq | ⟨heq, -⟩)
          · exact hbyte.1 heq
          · exact hbyte.2 heq

/-! ## The scan over an encoding -/

theorem utf8_head? {text : List Char} : (utf8 text).head? = some 10 ↔ text.head? = some '\n' := by
  cases text with
  | nil => exact iff_of_false (by intro h; cases h) (by intro h; cases h)
  | cons c rest =>
      rw [utf8_cons, List.head?_cons]
      constructor
      · intro h
        cases hencode : String.utf8EncodeChar c with
        | nil => exact absurd hencode (String.utf8EncodeChar_ne_nil)
        | cons byte bytes =>
            rw [hencode] at h
            cases h
            have hmem : (10 : UInt8) ∈ String.utf8EncodeChar c := by
              rw [hencode]
              exact List.mem_cons_self
            have hval := (utf8EncodeChar_ascii (by decide) hmem).1
            exact congrArg some (Char.ext (UInt32.toNat_inj.1 hval))
      · intro h
        cases h
        rfl

theorem scan_char (offset : Nat) (c : Char) (rest : List Char) (hrest : rest ≠ []) :
    scan offset (utf8 (c :: rest)) =
      if endsLine c rest then (offset + c.utf8Size) :: scan (offset + c.utf8Size) (utf8 rest)
      else scan (offset + c.utf8Size) (utf8 rest) := by
  rw [utf8_cons]
  by_cases hbreak : c = '\n' ∨ c = '\r'
  · have hcut : ∃ next bytes, utf8 rest = next :: bytes := by
      refine List.exists_cons_of_ne_nil fun hnil => ?_
      have := utf8Length_pos hrest
      rw [utf8Length, hnil] at this
      cases this
    obtain ⟨next, bytes, hbytes⟩ := hcut
    have hhead := @utf8_head? rest
    rw [hbytes, List.head?_cons, Option.some_inj] at hhead
    rw [hbytes]
    rcases hbreak with rfl | rfl
    · show scan offset (10 :: next :: bytes) = _
      have hends : endsLine '\n' rest = true := decide_eq_true (.inl rfl)
      rw [scan, if_pos (.inl rfl), hends]
      rfl
    · show scan offset (13 :: next :: bytes) = _
      by_cases hnext : next = 10
      · have hgoes : endsLine '\r' rest = false := by
          refine decide_eq_false ?_
          rintro (h | ⟨-, h⟩)
          · cases h
          · exact h (hhead.1 hnext)
        rw [scan, if_neg, hgoes]
        · rfl
        · rintro (h | ⟨-, h⟩)
          · cases h
          · exact h hnext
      · have hends : endsLine '\r' rest = true :=
          decide_eq_true (.inr ⟨rfl, fun h => hnext (hhead.2 h)⟩)
        rw [scan, if_pos (.inr ⟨rfl, hnext⟩), hends]
        rfl
  · have hgoes : endsLine c rest = false :=
      decide_eq_false fun h => hbreak (h.imp_right And.left)
    have hbyte : ∀ byte ∈ String.utf8EncodeChar c, byte ≠ 10 ∧ byte ≠ 13 := by
      intro byte hmem
      constructor
      · rintro rfl
        have hval := (utf8EncodeChar_ascii (by decide) hmem).1
        exact hbreak (.inl (Char.ext (UInt32.toNat_inj.1 hval)))
      · rintro rfl
        have hval := (utf8EncodeChar_ascii (by decide) hmem).1
        exact hbreak (.inr (Char.ext (UInt32.toNat_inj.1 hval)))
    rw [scan_skip _ _ hbyte, String.length_utf8EncodeChar, hgoes]
    rfl

theorem scan_single (offset : Nat) (c : Char) : scan offset (utf8 [c]) = [] := by
  rw [utf8_cons, utf8_nil]
  by_cases hbreak : (10 : UInt8) ∈ String.utf8EncodeChar c
  · rw [(utf8EncodeChar_ascii (by decide) hbreak).2]
    rfl
  · by_cases hreturn : (13 : UInt8) ∈ String.utf8EncodeChar c
    · rw [(utf8EncodeChar_ascii (by decide) hreturn).2]
      rfl
    · rw [scan_skip]
      · rfl
      · intro byte hmem
        exact ⟨fun h => hbreak (h ▸ hmem), fun h => hreturn (h ▸ hmem)⟩

theorem scan_utf8 (offset : Nat) (text : List Char) :
    scan offset (utf8 text) = (starts offset (splitLines text)).tail := by
  induction text generalizing offset with
  | nil => rfl
  | cons c rest ih =>
      have hsize : utf8Length [c] = c.utf8Size := by rw [utf8Length_cons, utf8Length_nil, add_zero]
      by_cases hrest : rest = []
      · subst hrest
        rw [scan_single, splitLines]
        split <;> rfl
      · obtain ⟨line, lines, hlines⟩ :=
          List.exists_cons_of_ne_nil fun h => hrest (splitLines_eq_nil.1 h)
        rw [scan_char _ _ _ hrest, ih, splitLines, hlines]
        split
        · rw [starts, starts, starts, hsize]
          rfl
        · show (starts (offset + c.utf8Size) (line :: lines)).tail = _
          rw [starts, starts, List.tail_cons, List.tail_cons, utf8Length_cons, add_assoc]

theorem lineStartOffsets_eq {text : List Char} (hlength : utf8Length text < 4294967296) :
    lineStartOffsets text = starts 0 (splitLines text) := by
  by_cases htext : text = []
  · rw [htext]
    rfl
  · obtain ⟨line, lines, hlines⟩ :=
      List.exists_cons_of_ne_nil fun h => htext (splitLines_eq_nil.1 h)
    have hbytes : (utf8 text).isEmpty = false := by
      cases hcases : utf8 text with
      | nil =>
          have := utf8Length_pos htext
          rw [utf8Length, hcases] at this
          cases this
      | cons => rfl
    have hscan := scan_utf8 0 text
    have hfill := fill_eq_scan hlength [] (utf8 text) rfl
    rw [lineStartOffsets, hbytes, if_neg Bool.false_ne_true]
    rw [List.length_nil] at hfill
    rw [hfill, hscan, hlines]
    rfl

end Moth.Source
