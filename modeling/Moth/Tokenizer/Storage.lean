import Moth.Lib.Result
import Moth.Lib.Segments
import Moth.Source.Span

/-!
# Source tokens and their segmented sequences

`tokenizer/storage.rs`: the tokens of one source, and a store of token
sequences over them. A sequence is a list of ranges, kept in one flat list of
rows with the offsets at which each sequence ends.
-/

namespace Moth.Tokenizer

open Moth.Lib
open Moth.Source (SourceId)

/-- `u32::MAX`. -/
def U32_MAX : Nat := 4294967295

/-- `usize::MAX`, on a machine of 64 bits. -/
def USIZE_MAX : Nat := 18446744073709551615

def checkedAdd (most a b : Nat) : Option Nat := if a + b ≤ most then some (a + b) else none

def checkedSub (a b : Nat) : Option Nat := if b ≤ a then some (a - b) else none

def saturatingAdd (a b : Nat) : Nat := min (a + b) USIZE_MAX

structure TokenTag where
  raw : Nat
deriving DecidableEq

def TokenTag.EOF : TokenTag := ⟨2⟩

structure TokenShape where
  tag : TokenTag
  flags : Nat
  data : Nat
deriving DecidableEq

/-- An index into the tokens of one source is below `2 ^ 32`. -/
def TokenIndex.tryFromIndex (index : Nat) : Option Nat :=
  if U32_MAX < index then none else some index

structure TokenRange where
  source : SourceId
  start : Nat
  stop : Nat
deriving DecidableEq

inductive TokenRangeError where
  | ForeignSource (expected actual : SourceId)
  | Reversed (start stop : Nat)
  | OutOfBounds (start stop len : Nat)
deriving DecidableEq

/-- A checked row of a sequence: only its two indexes. -/
abbrev TokenSequenceRange : Type := Segment

/-- A handle to a sequence, counted from one. -/
structure TokenSequenceId where
  raw : Nat
deriving DecidableEq

def TokenSequenceId.tryFromIndex (index : Nat) : Option TokenSequenceId :=
  if U32_MAX ≤ index then none else some ⟨index + 1⟩

def TokenSequenceId.index (id : TokenSequenceId) : Option Nat :=
  if id.raw = 0 then none else some (id.raw - 1)

inductive TokenSequenceError where
  | ForeignSource (expected actual : SourceId)
  | Reversed (start stop : Nat)
  | OutOfBounds (start stop len : Nat)
  | Unordered (previousStart start : Nat)
  | Overlapping (previousEnd start : Nat)
  | Absent
  | OutOfRange (raw len : Nat)
  | NoCanonicalOwner
  | Capacity
  | Frozen
deriving DecidableEq

/-! ## The store of sequences -/

structure TokenSequenceStore where
  source : SourceId
  tokenLen : Nat
  rows : List TokenSequenceRange
  sequenceOffsets : List Nat
  frozen : Bool

namespace TokenSequenceStore

def new (source : SourceId) (tokenLen : Nat) : TokenSequenceStore :=
  ⟨source, tokenLen, [], [0], false⟩

def len (store : TokenSequenceStore) : Nat := store.sequenceOffsets.length - 1

def ranges (store : TokenSequenceStore) (id : TokenSequenceId) :
    Except TokenSequenceError (List TokenSequenceRange) :=
  match id.index with
  | none => .error .Absent
  | some index =>
      match store.sequenceOffsets[index]?, store.sequenceOffsets[index + 1]? with
      | some start, some stop =>
          if stop < start ∨ store.rows.length < stop then
            .error (.OutOfRange id.raw store.len)
          else .ok ((store.rows.drop start).take (stop - start))
      | _, _ => .error (.OutOfRange id.raw store.len)

/-- The range as a row, once it is found to be of this source, in order and in bounds. -/
def validateRange (store : TokenSequenceStore) (range : TokenRange) :
    Except TokenSequenceError TokenSequenceRange :=
  if range.source ≠ store.source then .error (.ForeignSource store.source range.source)
  else if h : range.stop < range.start then .error (.Reversed range.start range.stop)
  else if store.tokenLen < range.stop then
    .error (.OutOfBounds range.start range.stop store.tokenLen)
  else .ok ⟨range.start, range.stop, Nat.le_of_not_lt h⟩

/-- A range starts no earlier than the one before it, and not before its end. -/
def validateOrder : Option TokenRange → TokenRange → Except TokenSequenceError Unit
  | none, _ => .ok ()
  | some previous, range =>
      if range.start < previous.start then .error (.Unordered previous.start range.start)
      else if range.start < previous.stop then .error (.Overlapping previous.stop range.start)
      else .ok ()

/-- The loop of `try_push`: each range against the one before it. -/
def validateRanges (store : TokenSequenceStore) :
    Option TokenRange → List TokenRange → Except TokenSequenceError (List TokenSequenceRange)
  | _, [] => .ok []
  | previous, range :: rest => do
      let row ← store.validateRange range
      validateOrder previous range
      let rows ← store.validateRanges (some range) rest
      return row :: rows

/-- Where the rows would end with `count` more. -/
def pushedEnd (store : TokenSequenceStore) (count : Nat) : Except TokenSequenceError Nat :=
  match checkedAdd USIZE_MAX store.rows.length count with
  | none => .error .Capacity
  | some stop => if U32_MAX < stop then .error .Capacity else .ok stop

def nextId (store : TokenSequenceStore) : Except TokenSequenceError TokenSequenceId :=
  match TokenSequenceId.tryFromIndex store.len with
  | none => .error .Capacity
  | some id => .ok id

def tryPush (store : TokenSequenceStore) (ranges : List TokenRange) :
    Except TokenSequenceError (TokenSequenceId × TokenSequenceStore) :=
  if store.frozen then .error .Frozen
  else do
    let rows ← store.validateRanges none ranges
    let id ← store.nextId
    let stop ← store.pushedEnd ranges.length
    return (id, { store with
      rows := store.rows ++ rows
      sequenceOffsets := store.sequenceOffsets ++ [stop] })

def freeze (store : TokenSequenceStore) : TokenSequenceStore := { store with frozen := true }

/-! ## What a store holds -/

/-- The store holds these sequences, in the order they were pushed. -/
structure Holds (store : TokenSequenceStore) (sequences : List (List TokenSequenceRange)) :
    Prop where
  rows : store.rows = sequences.flatten
  offsets : ∀ i ≤ sequences.length,
    store.sequenceOffsets[i]? = some (sequences.take i).flatten.length
  offsetCount : store.sequenceOffsets.length = sequences.length + 1
  fits : store.rows.length ≤ U32_MAX
  ascending : ∀ sequence ∈ sequences, Segment.Ascending sequence
  inside : ∀ sequence ∈ sequences, ∀ row ∈ sequence, row.stop ≤ store.tokenLen

theorem Holds.new (source : SourceId) (tokenLen : Nat) : (new source tokenLen).Holds [] := by
  refine ⟨rfl, ?_, rfl, Nat.zero_le _, ?_, ?_⟩
  · intro i hi
    rw [Nat.le_zero.1 hi]
    rfl
  · intro sequence h
    exact absurd h List.not_mem_nil
  · intro sequence h
    exact absurd h List.not_mem_nil

variable {store store' : TokenSequenceStore} {sequences : List (List TokenSequenceRange)}

theorem Holds.ranges_eq (h : store.Holds sequences) {i : Nat} {rows : List TokenSequenceRange}
    (hi : sequences[i]? = some rows) : store.ranges ⟨i + 1⟩ = .ok rows := by
  have hlt := (List.getElem?_eq_some_iff.1 hi).1
  have htake : sequences.take (i + 1) = sequences.take i ++ [rows] := by
    rw [List.take_add_one, hi]
    rfl
  have hlength : (sequences.take (i + 1)).flatten.length =
      (sequences.take i).flatten.length + rows.length := by
    rw [htake, List.flatten_append, List.length_append, List.flatten_singleton]
  have hsplit : store.rows = (sequences.take i).flatten ++ (rows ++
      (sequences.drop (i + 1)).flatten) := by
    rw [h.rows, ← List.append_assoc]
    conv_lhs => rw [← List.take_append_drop (i + 1) sequences, htake]
    rw [List.flatten_append, List.flatten_append, List.flatten_singleton]
  have hrows : store.rows.length = (sequences.take i).flatten.length +
      (rows.length + (sequences.drop (i + 1)).flatten.length) := by
    rw [hsplit, List.length_append, List.length_append]
  have hbounds : ¬((sequences.take (i + 1)).flatten.length < (sequences.take i).flatten.length ∨
      store.rows.length < (sequences.take (i + 1)).flatten.length) := by
    omega
  unfold TokenSequenceStore.ranges
  simp only [TokenSequenceId.index, Nat.add_one_ne_zero, if_false, Nat.add_sub_cancel,
    h.offsets i (Nat.le_of_lt hlt), h.offsets (i + 1) hlt, hbounds]
  rw [hlength, Nat.add_sub_cancel_left, hsplit, List.drop_left, List.take_left]

theorem validateRange_ok {range : TokenRange} {row : TokenSequenceRange}
    (h : store.validateRange range = .ok row) :
    row.start = range.start ∧ row.stop = range.stop ∧ row.stop ≤ store.tokenLen := by
  unfold validateRange at h
  split at h
  · cases h
  · split at h
    · cases h
    · split at h
      · cases h
      · next hin =>
          cases h
          exact ⟨rfl, rfl, Nat.le_of_not_lt hin⟩

theorem validateOrder_ok {previous range : TokenRange}
    (h : validateOrder (some previous) range = .ok ()) : previous.stop ≤ range.start := by
  simp only [validateOrder] at h
  split at h
  · cases h
  · split at h
    · cases h
    · next hstart => exact Nat.le_of_not_lt hstart

/-- The rows are the ranges, each begun where the one before it has ended. -/
structure Rows (store : TokenSequenceStore) (previous : Option TokenRange)
    (ranges : List TokenRange) (rows : List TokenSequenceRange) : Prop where
  bounds : rows.map (fun row => (row.start, row.stop)) =
    ranges.map fun range => (range.start, range.stop)
  ascending : Segment.Ascending rows
  inside : ∀ row ∈ rows, row.stop ≤ store.tokenLen
  after : ∀ p, previous = some p → ∀ row ∈ rows, p.stop ≤ row.start

theorem validateRanges_ok {ranges : List TokenRange} {previous : Option TokenRange}
    {rows : List TokenSequenceRange} (h : store.validateRanges previous ranges = .ok rows) :
    store.Rows previous ranges rows := by
  induction ranges generalizing previous rows with
  | nil =>
      cases h
      refine ⟨rfl, List.Pairwise.nil, ?_, ?_⟩
      · intro row hrow
        exact absurd hrow List.not_mem_nil
      · intro p _ row hrow
        exact absurd hrow List.not_mem_nil
  | cons range rest ih =>
      rw [validateRanges] at h
      obtain ⟨row, hrow, h⟩ := bind_eq_ok.1 h
      obtain ⟨_, horder, h⟩ := bind_eq_ok.1 h
      obtain ⟨later, hlater, h⟩ := bind_eq_ok.1 h
      cases h
      obtain ⟨hstart, hstop, hin⟩ := validateRange_ok hrow
      have hrest := ih hlater
      have hafter : ∀ next ∈ later, row.stop ≤ next.start := by
        intro next hnext
        rw [hstop]
        exact hrest.after range rfl next hnext
      refine ⟨?_, List.pairwise_cons.2 ⟨hafter, hrest.ascending⟩, ?_, ?_⟩
      · rw [List.map_cons, List.map_cons, hrest.bounds, hstart, hstop]
      · intro next hnext
        rcases List.mem_cons.1 hnext with rfl | hnext
        · exact hin
        · exact hrest.inside next hnext
      · intro p hp next hnext
        subst hp
        have hfirst : p.stop ≤ row.start := by
          rw [hstart]
          exact validateOrder_ok horder
        rcases List.mem_cons.1 hnext with rfl | hnext
        · exact hfirst
        · exact Nat.le_trans hfirst (Nat.le_trans row.ordered (hafter next hnext))

theorem pushedEnd_ok {count stop : Nat} (h : store.pushedEnd count = .ok stop) :
    stop = store.rows.length + count ∧ stop ≤ U32_MAX := by
  unfold pushedEnd checkedAdd at h
  by_cases hfits : store.rows.length + count ≤ USIZE_MAX
  · rw [if_pos hfits] at h
    by_cases hsmall : U32_MAX < store.rows.length + count
    · simp only [if_pos hsmall] at h
      cases h
    · simp only [if_neg hsmall] at h
      cases h
      exact ⟨rfl, Nat.le_of_not_lt hsmall⟩
  · rw [if_neg hfits] at h
    cases h

theorem nextId_ok {id : TokenSequenceId} (h : store.nextId = .ok id) : id = ⟨store.len + 1⟩ := by
  unfold nextId TokenSequenceId.tryFromIndex at h
  by_cases hfull : U32_MAX ≤ store.len
  · rw [if_pos hfull] at h
    cases h
  · rw [if_neg hfull] at h
    cases h
    rfl

/-- An accepted sequence is held behind the ones pushed before it, under its handle. -/
theorem Holds.tryPush (h : store.Holds sequences) {ranges : List TokenRange}
    {id : TokenSequenceId} (hpush : store.tryPush ranges = .ok (id, store')) :
    ∃ rows, store.Rows none ranges rows ∧ store'.Holds (sequences ++ [rows]) ∧
      id = ⟨sequences.length + 1⟩ ∧ store'.tokenLen = store.tokenLen ∧
      store'.source = store.source := by
  unfold TokenSequenceStore.tryPush at hpush
  by_cases hfrozen : store.frozen = true
  · rw [if_pos hfrozen] at hpush
    cases hpush
  · rw [if_neg hfrozen] at hpush
    obtain ⟨rows, hrows, hpush⟩ := bind_eq_ok.1 hpush
    obtain ⟨id, hid, hpush⟩ := bind_eq_ok.1 hpush
    obtain ⟨stop, hstop, hpush⟩ := bind_eq_ok.1 hpush
    cases hpush
    obtain ⟨rfl, hfits⟩ := pushedEnd_ok hstop
    have hchecked := validateRanges_ok hrows
    have hcount : rows.length = ranges.length := by
      simpa using congrArg List.length hchecked.bounds
    have hlen : store.len = sequences.length := by
      rw [TokenSequenceStore.len, h.offsetCount, Nat.add_sub_cancel]
    refine ⟨rows, hchecked, ⟨?_, ?_, ?_, ?_, ?_, ?_⟩, ?_, rfl, rfl⟩
    · rw [List.flatten_append, List.flatten_singleton, ← h.rows]
    · intro i hi
      rw [List.length_append, List.length_singleton] at hi
      rcases Nat.lt_or_eq_of_le hi with hlt | rfl
      · rw [List.getElem?_append_left (by rw [h.offsetCount]; exact hlt),
          List.take_append_of_le_length (Nat.le_of_lt_succ hlt)]
        exact h.offsets i (Nat.le_of_lt_succ hlt)
      · rw [← h.offsetCount, List.getElem?_concat_length, h.offsetCount,
          List.take_of_length_le (by rw [List.length_append]; exact Nat.le_refl _),
          List.flatten_append, List.flatten_singleton, ← h.rows, List.length_append, hcount]
    · rw [List.length_append, List.length_append, h.offsetCount]
      rfl
    · show (store.rows ++ rows).length ≤ _
      rw [List.length_append, hcount]
      exact hfits
    · intro sequence hsequence
      rcases List.mem_append.1 hsequence with hold | hnew
      · exact h.ascending sequence hold
      · rw [List.mem_singleton.1 hnew]
        exact hchecked.ascending
    · intro sequence hsequence
      rcases List.mem_append.1 hsequence with hold | hnew
      · exact h.inside sequence hold
      · rw [List.mem_singleton.1 hnew]
        exact hchecked.inside
    · rw [nextId_ok hid, hlen]

end TokenSequenceStore

/-! ## The tokens of a source -/

/-- The tokens of one source and the sequences over them. There are no more tokens than an index
can count, and the store is one that pushes have filled. -/
structure SourceTokens where
  source : SourceId
  shapes : List TokenShape
  sequenceStore : TokenSequenceStore
  tokenStoreLengthFits : shapes.length ≤ U32_MAX
  storeLength : sequenceStore.tokenLen = shapes.length
  storeSource : sequenceStore.source = source
  storeHolds : ∃ sequences, sequenceStore.Holds sequences

inductive TokenViewError where
  | OutOfBounds (index len : Nat)
deriving DecidableEq

/-- A token, by its place among the tokens of its source. -/
structure TokenRef where
  tokens : SourceTokens
  index : Nat

namespace SourceTokens

def len (tokens : SourceTokens) : Nat := tokens.shapes.length

def validateRange (tokens : SourceTokens) (range : TokenRange) : Except TokenRangeError Unit :=
  if range.source ≠ tokens.source then .error (.ForeignSource tokens.source range.source)
  else if range.stop < range.start then .error (.Reversed range.start range.stop)
  else if tokens.len < range.stop then
    .error (.OutOfBounds range.start range.stop tokens.len)
  else .ok ()

def token (tokens : SourceTokens) (index : Nat) : Except TokenViewError TokenRef :=
  if tokens.len ≤ index then .error (.OutOfBounds index tokens.len) else .ok ⟨tokens, index⟩

/-- The sequence is pushed on the owner's store. -/
def tryRegisterTokenSequence (tokens : SourceTokens) (ranges : List TokenRange) :
    Except TokenSequenceError (TokenSequenceId × SourceTokens) :=
  match h : tokens.sequenceStore.tryPush ranges with
  | .error e => .error e
  | .ok (id, store) =>
      .ok (id, { tokens with
        sequenceStore := store
        storeLength := by
          obtain ⟨sequences, hholds⟩ := tokens.storeHolds
          obtain ⟨_, _, _, _, hlen, _⟩ := hholds.tryPush h
          exact hlen.trans tokens.storeLength
        storeSource := by
          obtain ⟨sequences, hholds⟩ := tokens.storeHolds
          obtain ⟨_, _, _, _, _, hsource⟩ := hholds.tryPush h
          exact hsource.trans tokens.storeSource
        storeHolds := by
          obtain ⟨sequences, hholds⟩ := tokens.storeHolds
          obtain ⟨rows, _, hnew, _⟩ := hholds.tryPush h
          exact ⟨_, hnew⟩ })

end SourceTokens

namespace TokenRef

def shape (token : TokenRef) : Option TokenShape := token.tokens.shapes[token.index]?

def isEof (token : TokenRef) : Bool := token.shape.any fun shape => shape.tag = TokenTag.EOF

end TokenRef

/-- One sequence of a source: its handle and the rows the handle was found to stand for. -/
structure TokenSequenceView where
  tokens : SourceTokens
  id : TokenSequenceId
  ranges : List TokenSequenceRange
  valid : tokens.sequenceStore.ranges id = .ok ranges

namespace TokenSequenceView

def new (tokens : SourceTokens) (id : TokenSequenceId) :
    Except TokenSequenceError TokenSequenceView :=
  match h : tokens.sequenceStore.ranges id with
  | .error e => .error e
  | .ok ranges => .ok ⟨tokens, id, ranges, h⟩

def rangeAt (view : TokenSequenceView) (index : Nat) : Except TokenSequenceError TokenRange :=
  match view.ranges[index]? with
  | none => .error (.OutOfRange (index % (U32_MAX + 1)) view.ranges.length)
  | some entry => .ok ⟨view.tokens.source, entry.start, entry.stop⟩

def len (view : TokenSequenceView) : Nat := (view.ranges.map Segment.width).sum

/-- What every view may rely on: rows in order, in bounds and few enough to be counted. -/
structure Sound (view : TokenSequenceView) : Prop where
  ascending : Segment.Ascending view.ranges
  inside : ∀ row ∈ view.ranges, row.stop ≤ view.tokens.len
  few : view.ranges.length ≤ U32_MAX

end TokenSequenceView

end Moth.Tokenizer
