import Mathlib.Tactic.Ring

/-!
# Text and its UTF-8 bytes

A text is its characters. Its bytes are their encodings, and a byte offset that
lies between two characters cuts the text in two.
-/

namespace Moth.Lib

/-- The bytes of a text. -/
def utf8 (text : List Char) : List UInt8 := text.flatMap String.utf8EncodeChar

def utf8Length (text : List Char) : Nat := (utf8 text).length

@[simp] theorem utf8_nil : utf8 [] = [] := rfl

theorem utf8_cons (c : Char) (text : List Char) :
    utf8 (c :: text) = String.utf8EncodeChar c ++ utf8 text := rfl

@[simp] theorem utf8Length_nil : utf8Length [] = 0 := rfl

theorem utf8Length_cons (c : Char) (text : List Char) :
    utf8Length (c :: text) = c.utf8Size + utf8Length text := by
  rw [utf8Length, utf8_cons, List.length_append, String.length_utf8EncodeChar, utf8Length]

theorem utf8Length_append (s t : List Char) :
    utf8Length (s ++ t) = utf8Length s + utf8Length t := by
  rw [utf8Length, utf8, List.flatMap_append, List.length_append]
  rfl

theorem length_le_utf8Length (text : List Char) : text.length ≤ utf8Length text := by
  induction text with
  | nil => exact Nat.le_refl _
  | cons c rest ih =>
      have := c.utf8Size_pos
      rw [List.length_cons, utf8Length_cons]
      omega

theorem utf8Length_pos {text : List Char} (h : text ≠ []) : 0 < utf8Length text := by
  cases text with
  | nil => exact absurd rfl h
  | cons c rest =>
      rw [utf8Length_cons]
      have := c.utf8Size_pos
      omega

/-- An ASCII byte occurs only as its own character. -/
theorem utf8EncodeChar_ascii {b : UInt8} (hb : b.toNat < 128) {c : Char} :
    b ∈ String.utf8EncodeChar c → c.val.toNat = b.toNat ∧ String.utf8EncodeChar c = [b] := by
  intro h
  have hbyte : ∀ n : Nat, n < 256 → b = UInt8.ofNat n → n < 128 := by
    intro n hn heq
    have := congrArg UInt8.toNat heq
    rw [UInt8.toNat_ofNat'] at this
    omega
  simp only [String.utf8EncodeChar] at h ⊢
  split at h
  · rename_i hsmall
    rw [List.mem_singleton] at h
    rw [h, if_pos hsmall, UInt8.toNat_ofNat', Nat.mod_eq_of_lt (by omega)]
    exact ⟨rfl, rfl⟩
  · split at h
    · simp only [List.mem_cons, List.not_mem_nil, or_false] at h
      rcases h with h | h <;> have := hbyte _ (by omega) h <;> omega
    · split at h
      · simp only [List.mem_cons, List.not_mem_nil, or_false] at h
        rcases h with h | h | h <;> have := hbyte _ (by omega) h <;> omega
      · simp only [List.mem_cons, List.not_mem_nil, or_false] at h
        have hc := c.val.toNat_lt
        rcases h with h | h | h | h <;> have := hbyte _ (by omega) h <;> omega

/-! ## Cutting at an offset -/

/-- The text from a byte offset on, if the offset lies between characters. -/
def dropBytes : List Char → Nat → Option (List Char)
  | text, 0 => some text
  | [], _ + 1 => none
  | c :: text, n + 1 => if c.utf8Size ≤ n + 1 then dropBytes text (n + 1 - c.utf8Size) else none

/-- The text up to a byte offset, if the offset lies between characters. -/
def takeBytes : List Char → Nat → Option (List Char)
  | _, 0 => some []
  | [], _ + 1 => none
  | c :: text, n + 1 =>
      if c.utf8Size ≤ n + 1 then (takeBytes text (n + 1 - c.utf8Size)).map (c :: ·) else none

/-- The characters of a byte range. -/
def sliceBytes (text : List Char) (start stop : Nat) : Option (List Char) :=
  if start ≤ stop then (dropBytes text start).bind fun rest => takeBytes rest (stop - start)
  else none

theorem dropBytes_append (s t : List Char) : dropBytes (s ++ t) (utf8Length s) = some t := by
  induction s with
  | nil => rw [List.nil_append, utf8Length_nil, dropBytes]
  | cons c s ih =>
      obtain ⟨n, hn⟩ : ∃ n, c.utf8Size + utf8Length s = n + 1 :=
        ⟨c.utf8Size + utf8Length s - 1, by have := c.utf8Size_pos; omega⟩
      rw [utf8Length_cons, hn, List.cons_append, dropBytes, if_pos (by omega), ← hn,
        Nat.add_sub_cancel_left, ih]

theorem takeBytes_append (s t : List Char) : takeBytes (s ++ t) (utf8Length s) = some s := by
  induction s with
  | nil => rw [List.nil_append, utf8Length_nil, takeBytes]
  | cons c s ih =>
      obtain ⟨n, hn⟩ : ∃ n, c.utf8Size + utf8Length s = n + 1 :=
        ⟨c.utf8Size + utf8Length s - 1, by have := c.utf8Size_pos; omega⟩
      rw [utf8Length_cons, hn, List.cons_append, takeBytes, if_pos (by omega), ← hn,
        Nat.add_sub_cancel_left, ih]
      rfl

theorem sliceBytes_middle (before middle after : List Char) :
    sliceBytes (before ++ middle ++ after) (utf8Length before)
      (utf8Length before + utf8Length middle) = some middle := by
  rw [sliceBytes, if_pos (Nat.le_add_right _ _), List.append_assoc, dropBytes_append,
    Option.bind_some, Nat.add_sub_cancel_left, takeBytes_append]

/-- Each character with the offset it starts at. -/
def charIndices : List Char → Nat → List (Nat × Char)
  | [], _ => []
  | c :: text, offset => (offset, c) :: charIndices text (offset + c.utf8Size)

theorem le_of_mem_charIndices {text : List Char} {offset : Nat} {entry : Nat × Char}
    (h : entry ∈ charIndices text offset) : offset ≤ entry.1 := by
  induction text generalizing offset with
  | nil => cases h
  | cons c rest ih =>
      rcases List.mem_cons.1 h with rfl | h
      · exact Nat.le_refl _
      · exact Nat.le_trans (Nat.le_add_right _ _) (ih h)

theorem lt_of_mem_charIndices {text : List Char} {offset : Nat} {entry : Nat × Char}
    (h : entry ∈ charIndices text offset) : entry.1 < offset + utf8Length text := by
  induction text generalizing offset with
  | nil => cases h
  | cons c rest ih =>
      have hsize := c.utf8Size_pos
      rw [utf8Length_cons]
      rcases List.mem_cons.1 h with rfl | h
      · show offset < _
        omega
      · have := ih h
        omega

theorem charIndices_add (text : List Char) (base offset : Nat) :
    charIndices text (base + offset) =
      (charIndices text offset).map fun entry => (base + entry.1, entry.2) := by
  induction text generalizing offset with
  | nil => rfl
  | cons c rest ih =>
      rw [charIndices, charIndices, List.map_cons, Nat.add_assoc, ih]

theorem takeWhile_charIndices (text : List Char) (offset bound : Nat) :
    (charIndices text offset).takeWhile (fun entry => decide (entry.1 < bound)) =
      (charIndices text offset).filter fun entry => decide (entry.1 < bound) := by
  induction text generalizing offset with
  | nil => rfl
  | cons c rest ih =>
      rw [charIndices, List.takeWhile_cons, List.filter_cons]
      by_cases h : offset < bound
      · simp only [h, decide_true, if_true, ih]
      · simp only [h, decide_false, Bool.false_eq_true, if_false]
        refine (List.filter_eq_nil_iff.2 fun entry hentry => ?_).symm
        have := le_of_mem_charIndices hentry
        rw [decide_eq_true_eq]
        have := c.utf8Size_pos
        omega

/-! ## Segments -/

/-- The offsets at which the pieces of a text start. -/
def starts : Nat → List (List Char) → List Nat
  | _, [] => []
  | offset, piece :: pieces => offset :: starts (offset + utf8Length piece) pieces

theorem starts_getElem? (offset : Nat) (pieces : List (List Char)) (i : Nat) :
    (starts offset pieces)[i]? =
      pieces[i]?.map fun _ => offset + utf8Length (pieces.take i).flatten := by
  induction pieces generalizing offset i with
  | nil => rfl
  | cons piece pieces ih =>
      cases i with
      | zero => rfl
      | succ i =>
          rw [starts, List.getElem?_cons_succ, List.getElem?_cons_succ, ih, List.take_succ_cons,
            List.flatten_cons, utf8Length_append]
          simp only [Nat.add_assoc]

end Moth.Lib
