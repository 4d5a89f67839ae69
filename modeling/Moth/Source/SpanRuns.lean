import Moth.Lib.Aligned
import Moth.Source.Span

/-!
# Packed spans are lossless

The ledger is what the spans stand for: the ranges asked for, in order, and the
number of rows they take. A run of the builder keeps to it call by call, and a
row, once appended, stays where it is, so a span resolves alike at every later
time and through the frozen table.
-/

namespace Moth.Source

open Moth.Lib

/-! ## The codec -/

theorem checkedAdd_some {a b c : U32} :
    checkedAdd a b = some c ↔ c.toNat = a.toNat + b.toNat := by
  rw [checkedAdd]
  have hc := c.isLt
  split
  · rename_i hlt
    have hsum : (a + b).toNat = a.toNat + b.toNat := by
      rw [BitVec.toNat_add]
      exact Nat.mod_eq_of_lt hlt
    rw [Option.some.injEq, ← hsum]
    exact ⟨fun h => by rw [h], fun h => BitVec.eq_of_toNat_eq h.symm⟩
  · refine ⟨fun h => (by cases h), fun h => ?_⟩
    omega

theorem checkedAdd_isNone {a b : U32} :
    (checkedAdd a b).isNone = true ↔ 4294967296 ≤ a.toNat + b.toNat := by
  rw [checkedAdd]
  split
  · simp only [Option.isNone_some, Bool.false_eq_true, false_iff]
    omega
  · simp only [Option.isNone_none, true_iff]
    omega

theorem fitsInline_iff {start length : U32} :
    fitsInline start length = true ↔ start.toNat < 4194304 ∧ length.toNat ≤ 1022 :=
  decide_eq_true_iff

theorem storeLogical_of_lt {logical : U32} (h : logical.toNat < 4294967295) :
    ∃ span, storeLogical logical = some span ∧ span.loadLogical = logical := by
  have hstored : logical + 1 ≠ 0 := by
    intro heq
    have hzero := congrArg BitVec.toNat heq
    have hone : (1 : U32).toNat = 1 := rfl
    rw [BitVec.toNat_add, hone] at hzero
    have hsum : (logical.toNat + 1) % 2 ^ 32 = 0 := hzero
    omega
  refine ⟨⟨logical + 1, hstored⟩, ?_, ?_⟩
  · rw [storeLogical, dif_pos hstored]
  · exact BitVec.add_sub_cancel logical 1

theorem decodeLogical_pack {payload code : U32} (hcode : code.toNat ≤ 1023)
    (hpayload : payload.toNat * 1024 + code.toNat < 4294967295) :
    (payload <<< lengthBits ||| code).toNat < 4294967295 ∧
      decodeLogical (payload <<< lengthBits ||| code) =
        if code = lengthSentinel then .Extended payload else .Inline payload code := by
  have hlow : code.toNat < 2 ^ 10 := by omega
  have hfits : payload.toNat * 2 ^ 10 + code.toNat < 2 ^ 32 := by omega
  have hword : (payload <<< lengthBits ||| code).toNat = payload.toNat * 2 ^ 10 + code.toNat :=
    pack_toNat hlow hfits
  have hmask : (payload <<< lengthBits ||| code) &&& lengthSentinel = code :=
    pack_low (by decide) hlow hfits
  have hshift : (payload <<< lengthBits ||| code) >>> lengthBits = payload := pack_high hlow hfits
  refine ⟨by omega, ?_⟩
  simp only [decodeLogical, hmask, hshift]

theorem store_inline {start length : U32} (h : fitsInline start length = true) :
    ∃ span, storeLogical (encodeInline start length) = some span ∧
      decodeLogical span.loadLogical = .Inline start length := by
  obtain ⟨hstart, hlength⟩ := fitsInline_iff.1 h
  obtain ⟨hlt, hdecode⟩ := decodeLogical_pack (show length.toNat ≤ 1023 by omega)
    (show start.toNat * 1024 + length.toNat < 4294967295 by omega)
  obtain ⟨span, hstore, hload⟩ := storeLogical_of_lt hlt
  refine ⟨span, hstore, ?_⟩
  rw [hload, hdecode, if_neg]
  intro heq
  rw [heq] at hlength
  exact absurd hlength (by decide)

/-- A row index is encoded unless it is past the last one. -/
theorem encodeExtendedIndex_cases (index : Nat) (h : index < 4294967296) :
    (4194302 < index ∧ encodeExtendedIndex (BitVec.ofNat 32 index) = none) ∨
      index ≤ 4194302 ∧ ∃ logical span,
        encodeExtendedIndex (BitVec.ofNat 32 index) = some logical ∧
          storeLogical logical = some span ∧
          decodeLogical span.loadLogical = .Extended (BitVec.ofNat 32 index) := by
  have hindex : (BitVec.ofNat 32 index).toNat = index := by
    rw [BitVec.toNat_ofNat]
    exact Nat.mod_eq_of_lt h
  rw [encodeExtendedIndex, hindex]
  by_cases hfull : maxExtendedIndex < index
  · exact .inl ⟨hfull, if_pos hfull⟩
  · have hle : index ≤ 4194302 := Nat.le_of_not_lt hfull
    have hsentinel : lengthSentinel.toNat = 1023 := rfl
    obtain ⟨hlt, hdecode⟩ := @decodeLogical_pack (BitVec.ofNat 32 index) lengthSentinel
      (by omega) (by omega)
    obtain ⟨span, hstore, hload⟩ := storeLogical_of_lt hlt
    refine .inr ⟨hle, _, span, if_neg hfull, hstore, ?_⟩
    rw [hload, hdecode, if_pos rfl]

/-! ## What a span stands for -/

/-- The span resolves, to this half-open range. -/
def LocalSpan.Covers (span : LocalSpan) (entries : List ExtendedSpan) (range : Nat × Nat) : Prop :=
  ∃ resolved, span.resolveWith entries = some resolved ∧ resolved.start.toNat = range.1 ∧
    resolved.endOffset.toNat = range.2

theorem fromStartLength_covers {start length : U32}
    (h : start.toNat + length.toNat < 4294967296) :
    ∃ resolved, ResolvedByteRange.fromStartLength start length = some resolved ∧
      resolved.start.toNat = start.toNat ∧
      resolved.endOffset.toNat = start.toNat + length.toNat := by
  have hsum : checkedAdd start length = some (start + length) := if_pos h
  refine ⟨⟨start, start + length⟩, ?_, rfl, checkedAdd_some.1 hsum⟩
  rw [ResolvedByteRange.fromStartLength, hsum]
  rfl

theorem LocalSpan.resolveWith_append {span : LocalSpan} {entries : List ExtendedSpan}
    {resolved : ResolvedByteRange} (h : span.resolveWith entries = some resolved)
    (more : List ExtendedSpan) : span.resolveWith (entries ++ more) = some resolved := by
  rw [LocalSpan.resolveWith] at h ⊢
  cases hdecoded : decodeLogical span.loadLogical with
  | Inline start length =>
      rw [hdecoded] at h
      exact h
  | Extended index =>
      simp only [hdecoded] at h ⊢
      cases hentry : entries[index.toNat]? with
      | none =>
          rw [hentry] at h
          cases h
      | some entry =>
          rw [hentry] at h
          have hlt := (List.getElem?_eq_some_iff.1 hentry).1
          rw [List.getElem?_append_left hlt, hentry]
          exact h

theorem LocalSpan.Covers.append {span : LocalSpan} {entries : List ExtendedSpan}
    {range : Nat × Nat} (h : span.Covers entries range) (more : List ExtendedSpan) :
    span.Covers (entries ++ more) range := by
  obtain ⟨resolved, hresolved, hrange⟩ := h
  exact ⟨resolved, LocalSpan.resolveWith_append hresolved more, hrange⟩

/-- What `exact` does with a table of at most 4194303 rows. -/
inductive Exactly (start length : U32) (builder : ExtendedSpanBuilder) :
    Except SpanCapacityError LocalSpan × ExtendedSpanBuilder → Prop where
  | unrepresentable (h : 4294967296 ≤ start.toNat + length.toNat) :
      Exactly start length builder (.error ⟨start, length, .EndUnrepresentable⟩, builder)
  | inline {span : LocalSpan} (h : start.toNat + length.toNat < 4294967296)
      (hfits : fitsInline start length = true)
      (hcovers : ∀ entries, span.Covers entries (start.toNat, start.toNat + length.toNat)) :
      Exactly start length builder (.ok span, builder)
  | full (h : start.toNat + length.toNat < 4294967296) (hfits : fitsInline start length = false)
      (hfull : builder.entries.length = 4194303) :
      Exactly start length builder (.error ⟨start, length, .ExtendedTableFull⟩, builder)
  | row {span : LocalSpan} (h : start.toNat + length.toNat < 4294967296)
      (hfits : fitsInline start length = false) (hroom : builder.entries.length < 4194303)
      (hcovers : span.Covers (builder.entries ++ [⟨start, length⟩])
        (start.toNat, start.toNat + length.toNat)) :
      Exactly start length builder (.ok span, ⟨builder.entries ++ [⟨start, length⟩]⟩)

/-- The calls that fail, and what a failed call leaves. -/
theorem Exactly.error_iff {start length : U32} {builder : ExtendedSpanBuilder}
    {out : Except SpanCapacityError LocalSpan × ExtendedSpanBuilder}
    (h : Exactly start length builder out) :
    ((∃ e, out.1 = .error e) ↔ 4294967296 ≤ start.toNat + length.toNat ∨
      fitsInline start length = false ∧ builder.entries.length = 4194303) ∧
      ((∃ e, out.1 = .error e) → out.2 = builder) := by
  cases h with
  | unrepresentable h => exact ⟨⟨fun _ => .inl h, fun _ => ⟨_, rfl⟩⟩, fun _ => rfl⟩
  | inline h hfits hcovers =>
      refine ⟨⟨fun ⟨e, he⟩ => (by cases he), fun hfails => ?_⟩, fun ⟨e, he⟩ => (by cases he)⟩
      rcases hfails with hend | ⟨hnot, _⟩
      · omega
      · cases hfits.symm.trans hnot
  | full h hfits hfull => exact ⟨⟨fun _ => .inr ⟨hfits, hfull⟩, fun _ => ⟨_, rfl⟩⟩, fun _ => rfl⟩
  | row h hfits hroom hcovers =>
      refine ⟨⟨fun ⟨e, he⟩ => (by cases he), fun hfails => ?_⟩, fun ⟨e, he⟩ => (by cases he)⟩
      omega

theorem LocalSpan.exact_spec (start length : U32) {builder : ExtendedSpanBuilder}
    (hbound : builder.entries.length ≤ 4194303) :
    ∃ out, LocalSpan.exact start length builder = some out ∧ Exactly start length builder out := by
  rw [LocalSpan.exact]
  by_cases hend : (checkedAdd start length).isNone = true
  · rw [if_pos hend]
    exact ⟨_, rfl, .unrepresentable (checkedAdd_isNone.1 hend)⟩
  · have hlt : start.toNat + length.toNat < 4294967296 := by
      rw [checkedAdd_isNone] at hend
      omega
    obtain ⟨resolved, hresolved, hstart, hstop⟩ := fromStartLength_covers hlt
    rw [if_neg hend]
    cases hfits : fitsInline start length with
    | true =>
        obtain ⟨span, hstore, hdecode⟩ := store_inline hfits
        refine ⟨(.ok span, builder), ?_, .inline hlt hfits fun entries => ?_⟩
        · rw [if_pos rfl, hstore]
          rfl
        · refine ⟨resolved, ?_, hstart, hstop⟩
          rw [LocalSpan.resolveWith, hdecode]
          exact hresolved
    | false =>
        rw [if_neg Bool.false_ne_true]
        have hsmall : builder.entries.length < 4294967296 := by omega
        rw [if_pos hsmall]
        rcases encodeExtendedIndex_cases builder.entries.length hsmall with
          ⟨hfull, hnone⟩ | ⟨hroom, logical, span, hindex, hstore, hdecode⟩
        · rw [hnone]
          exact ⟨_, rfl, .full hlt hfits (by omega)⟩
        · refine ⟨(.ok span, ⟨builder.entries ++ [⟨start, length⟩]⟩), ?_,
            .row hlt hfits (by omega) ?_⟩
          · rw [hindex]
            simp only [hstore, Option.map_some]
          · refine ⟨resolved, ?_, hstart, hstop⟩
            have hindex : (BitVec.ofNat 32 builder.entries.length).toNat =
                builder.entries.length := by
              rw [BitVec.toNat_ofNat]
              exact Nat.mod_eq_of_lt hsmall
            rw [LocalSpan.resolveWith, hdecode]
            simp only [hindex, List.getElem?_concat_length]
            exact hresolved

/-- The smallest range that holds both. -/
def coverRange (left right : Nat × Nat) : Nat × Nat := (min left.1 right.1, max left.2 right.2)

/-- The range holds both, and every range that holds both holds it. -/
structure LeastCover (left right range : Nat × Nat) : Prop where
  holdsLeft : range.1 ≤ left.1 ∧ left.2 ≤ range.2
  holdsRight : range.1 ≤ right.1 ∧ right.2 ≤ range.2
  least : ∀ other : Nat × Nat, other.1 ≤ left.1 → left.2 ≤ other.2 → other.1 ≤ right.1 →
    right.2 ≤ other.2 → other.1 ≤ range.1 ∧ range.2 ≤ other.2

theorem coverRange_least (left right : Nat × Nat) :
    LeastCover left right (coverRange left right) where
  holdsLeft := ⟨Nat.min_le_left _ _, Nat.le_max_left _ _⟩
  holdsRight := ⟨Nat.min_le_right _ _, Nat.le_max_right _ _⟩
  least _ hl hl' hr hr' := ⟨Nat.le_min.2 ⟨hl, hr⟩, Nat.max_le.2 ⟨hl', hr'⟩⟩

theorem LocalSpan.join_eq {left right : LocalSpan} {builder : ExtendedSpanBuilder}
    {l r : Nat × Nat} (hleft : left.Covers builder.entries l)
    (hright : right.Covers builder.entries r) (hl : l.1 ≤ l.2) :
    ∃ start length : U32, left.join right builder = LocalSpan.exact start length builder ∧
      start.toNat = (coverRange l r).1 ∧
      start.toNat + length.toNat = (coverRange l r).2 := by
  obtain ⟨left', hleft', hlstart, hlend⟩ := hleft
  obtain ⟨right', hright', hrstart, hrend⟩ := hright
  rw [LocalSpan.join, hleft', hright']
  refine ⟨_, _, rfl, ?_, ?_⟩
  · show _ = min l.1 r.1
    split <;> omega
  · show _ = max l.2 r.2
    have hsub : ∀ a b : U32, a.toNat ≤ b.toNat → a.toNat + (b - a).toNat = b.toNat := by
      intro a b hab
      rw [BitVec.toNat_sub_of_le hab]
      omega
    rw [hsub]
    · split <;> omega
    · split <;> split <;> omega

/-! ## Runs -/

inductive SpanCall where
  | exact (start length : U32)
  /-- Join what two earlier calls returned. -/
  | join (left right : Nat)

/-- One source that is producing spans, and what its calls returned. -/
structure SpanSource where
  builder : ExtendedSpanBuilder := {}
  outcomes : List (Except SpanCapacityError LocalSpan) := []

def SpanSource.add (self : SpanSource)
    (out : Except SpanCapacityError LocalSpan × ExtendedSpanBuilder) : SpanSource :=
  ⟨out.2, self.outcomes ++ [out.1]⟩

/-- A join is called on spans. -/
def SpanSource.call (self : SpanSource) : SpanCall → Option SpanSource
  | .exact start length => (LocalSpan.exact start length self.builder).map self.add
  | .join left right =>
      match self.outcomes[left]?, self.outcomes[right]? with
      | some (.ok left), some (.ok right) => (left.join right self.builder).map self.add
      | _, _ => some self

def SpanSource.run (self : SpanSource) (calls : List SpanCall) : Option SpanSource :=
  calls.foldlM SpanSource.call self

/-- The ranges asked for, and how many rows they take. -/
structure SpanLedger where
  rows : Nat := 0
  outcomes : List (Except SpanCapacityReason (Nat × Nat)) := []

namespace SpanLedger

def record (self : SpanLedger) (range : Nat × Nat) : SpanLedger :=
  if 4294967296 ≤ range.2 then
    { self with outcomes := self.outcomes ++ [.error .EndUnrepresentable] }
  else if range.1 < 4194304 ∧ range.2 - range.1 ≤ 1022 then
    { self with outcomes := self.outcomes ++ [.ok range] }
  else if self.rows < 4194303 then ⟨self.rows + 1, self.outcomes ++ [.ok range]⟩
  else { self with outcomes := self.outcomes ++ [.error .ExtendedTableFull] }

def call (self : SpanLedger) : SpanCall → SpanLedger
  | .exact start length => self.record (start.toNat, start.toNat + length.toNat)
  | .join left right =>
      match self.outcomes[left]?, self.outcomes[right]? with
      | some (.ok left), some (.ok right) => self.record (coverRange left right)
      | _, _ => self

def run (self : SpanLedger) (calls : List SpanCall) : SpanLedger := calls.foldl call self

end SpanLedger

/-- What a call returned is what the ledger says of it. -/
def Stands (entries : List ExtendedSpan) :
    Except SpanCapacityError LocalSpan → Except SpanCapacityReason (Nat × Nat) → Prop
  | .ok span, .ok range => span.Covers entries range ∧ range.1 ≤ range.2
  | .error e, .error reason => e.reason = reason
  | _, _ => False

structure SpanSource.Agrees (source : SpanSource) (ledger : SpanLedger) : Prop where
  rows : source.builder.entries.length = ledger.rows
  bound : ledger.rows ≤ 4194303
  outcomes : List.Forall₂ (Stands source.builder.entries) source.outcomes ledger.outcomes

/-- Later states keep the rows and what the calls returned. -/
def SpanSource.Extends (self later : SpanSource) : Prop :=
  self.builder.entries <+: later.builder.entries ∧ self.outcomes <+: later.outcomes

theorem SpanSource.Extends.trans {a b c : SpanSource} (hab : a.Extends b) (hbc : b.Extends c) :
    a.Extends c :=
  ⟨hab.1.trans hbc.1, hab.2.trans hbc.2⟩

theorem Stands.append {entries : List ExtendedSpan} {outcome : Except SpanCapacityError LocalSpan}
    {wanted : Except SpanCapacityReason (Nat × Nat)} (h : Stands entries outcome wanted)
    (more : List ExtendedSpan) : Stands (entries ++ more) outcome wanted := by
  match outcome, wanted, h with
  | .ok span, .ok range, h => exact ⟨h.1.append more, h.2⟩
  | .error e, .error reason, h => exact h

section Run

variable {source later : SpanSource} {ledger : SpanLedger}

theorem SpanSource.Agrees.exact (h : source.Agrees ledger) {start length : U32} :
    ∃ next, (LocalSpan.exact start length source.builder).map source.add = some next ∧
      next.Agrees (ledger.record (start.toNat, start.toNat + length.toNat)) ∧
      source.Extends next := by
  have hbound : source.builder.entries.length ≤ 4194303 := by
    have := h.rows
    have := h.bound
    omega
  obtain ⟨out, hout, hexactly⟩ := LocalSpan.exact_spec start length hbound
  rw [hout, Option.map_some]
  refine ⟨_, rfl, ?_⟩
  have hrows := h.rows
  have hinline : ¬ (start.toNat < 4194304 ∧
      start.toNat + length.toNat - start.toNat ≤ 1022) ↔ fitsInline start length = false := by
    rw [← Bool.not_eq_true, fitsInline_iff, Nat.add_sub_cancel_left]
  have hsame : source.Extends (source.add (out.1, source.builder)) :=
    ⟨List.prefix_rfl, List.prefix_append _ _⟩
  cases hexactly with
  | unrepresentable hend =>
      refine ⟨?_, hsame⟩
      rw [SpanLedger.record, if_pos hend]
      exact ⟨h.rows, h.bound, List.rel_append h.outcomes (.cons rfl .nil)⟩
  | inline hend hfits hcovers =>
      refine ⟨?_, hsame⟩
      have hin : start.toNat < 4194304 ∧ start.toNat + length.toNat - start.toNat ≤ 1022 := by
        by_contra hout
        cases hfits.symm.trans (hinline.1 hout)
      rw [SpanLedger.record, if_neg (Nat.not_le_of_lt hend), if_pos hin]
      exact ⟨h.rows, h.bound, List.rel_append h.outcomes
        (.cons ⟨hcovers _, Nat.le_add_right _ _⟩ .nil)⟩
  | full hend hfits hfull =>
      refine ⟨?_, hsame⟩
      rw [SpanLedger.record, if_neg (Nat.not_le_of_lt hend), if_neg (hinline.2 hfits),
        if_neg (by omega)]
      exact ⟨h.rows, h.bound, List.rel_append h.outcomes (.cons rfl .nil)⟩
  | row hend hfits hroom hcovers =>
      refine ⟨?_, List.prefix_append _ _, List.prefix_append _ _⟩
      rw [SpanLedger.record, if_neg (Nat.not_le_of_lt hend), if_neg (hinline.2 hfits),
        if_pos (by omega)]
      refine ⟨?_, ?_, List.rel_append (h.outcomes.imp fun _ _ hstands => hstands.append _)
        (.cons ⟨hcovers, Nat.le_add_right _ _⟩ .nil)⟩
      · show (source.builder.entries ++ [_]).length = ledger.rows + 1
        rw [List.length_append, h.rows]
        rfl
      · show ledger.rows + 1 ≤ 4194303
        omega

theorem SpanSource.Agrees.call (h : source.Agrees ledger) (request : SpanCall) :
    ∃ next, source.call request = some next ∧ next.Agrees (ledger.call request) ∧
      source.Extends next := by
  cases request with
  | exact start length => exact h.exact
  | join left right =>
      rw [SpanSource.call, SpanLedger.call]
      have hleft := forall₂_getElem? h.outcomes left
      have hright := forall₂_getElem? h.outcomes right
      have hskip : source.Extends source := ⟨List.prefix_rfl, List.prefix_rfl⟩
      generalize source.outcomes[left]? = leftOut at hleft ⊢
      generalize ledger.outcomes[left]? = leftWanted at hleft ⊢
      generalize source.outcomes[right]? = rightOut at hright ⊢
      generalize ledger.outcomes[right]? = rightWanted at hright ⊢
      match leftOut, leftWanted, hleft with
      | none, none, _ => exact ⟨source, rfl, h, hskip⟩
      | some (.error _), some (.error _), _ => exact ⟨source, rfl, h, hskip⟩
      | some (.ok left), some (.ok leftRange), .some hleft =>
          match rightOut, rightWanted, hright with
          | none, none, _ => exact ⟨source, rfl, h, hskip⟩
          | some (.error _), some (.error _), _ => exact ⟨source, rfl, h, hskip⟩
          | some (.ok right), some (.ok rightRange), .some hright =>
              obtain ⟨start, length, hjoin, hstart, hstop⟩ :=
                LocalSpan.join_eq hleft.1 hright.1 hleft.2
              obtain ⟨next, hnext, hagrees, hextends⟩ := @SpanSource.Agrees.exact _ _ h start length
              rw [hstop, hstart] at hagrees
              refine ⟨next, ?_, hagrees, hextends⟩
              show (left.join right source.builder).map source.add = some next
              rw [hjoin, hnext]

theorem SpanSource.Agrees.run (h : source.Agrees ledger) (calls : List SpanCall) :
    ∃ last, source.run calls = some last ∧ last.Agrees (ledger.run calls) ∧
      source.Extends last := by
  induction calls generalizing source ledger with
  | nil => exact ⟨source, rfl, h, List.prefix_rfl, List.prefix_rfl⟩
  | cons request rest ih =>
      obtain ⟨next, hnext, hagrees, hextends⟩ := h.call request
      obtain ⟨last, hlast, hlastAgrees, hlastExtends⟩ := ih hagrees
      refine ⟨last, ?_, hlastAgrees, hextends.trans hlastExtends⟩
      rw [SpanSource.run, List.foldlM_cons, hnext]
      exact hlast

theorem agrees_empty : SpanSource.Agrees {} {} := ⟨rfl, by decide, .nil⟩

theorem SpanSource.Agrees.covers (h : source.Agrees ledger) (hextends : source.Extends later)
    {i : Nat} {span : LocalSpan} (hspan : source.outcomes[i]? = some (.ok span)) :
    ∃ range, ledger.outcomes[i]? = some (.ok range) ∧
      span.Covers later.builder.entries range ∧
      span.Covers later.builder.freeze.entries range := by
  have hrel := forall₂_getElem? h.outcomes i
  rw [hspan] at hrel
  generalize ledger.outcomes[i]? = wanted at hrel ⊢
  match wanted, hrel with
  | some (.ok range), .some hstands =>
      obtain ⟨more, hmore⟩ := hextends.1
      have hcovers := hstands.1.append more
      rw [hmore] at hcovers
      exact ⟨range, rfl, hcovers, hcovers⟩

end Run

/-! ## Narrowing -/

theorem decodeLogical_inline {logical start length : U32}
    (h : decodeLogical logical = .Inline start length) :
    start.toNat < 4194304 ∧ length.toNat ≤ 1022 := by
  simp only [decodeLogical] at h
  split at h
  · cases h
  · rename_i hcode
    cases h
    have hpayload : (logical >>> lengthBits).toNat = logical.toNat / 2 ^ 10 := field_high logical 10
    have hlow : (logical &&& lengthSentinel).toNat = logical.toNat % 2 ^ 10 :=
      field_low (show 10 ≤ 32 by omega)
    have hne : (logical &&& lengthSentinel).toNat ≠ 1023 := fun heq =>
      hcode (BitVec.eq_of_toNat_eq heq)
    have hlt := logical.isLt
    omega

theorem covers_inline {span : LocalSpan} {start length : U32}
    (h : decodeLogical span.loadLogical = .Inline start length) (entries : List ExtendedSpan) :
    span.Covers entries (start.toNat, start.toNat + length.toNat) := by
  have hbounds := decodeLogical_inline h
  obtain ⟨resolved, hresolved, hrange⟩ := fromStartLength_covers
    (show start.toNat + length.toNat < 4294967296 by omega)
  refine ⟨resolved, ?_, hrange⟩
  rw [LocalSpan.resolveWith, h]
  exact hresolved

/-- Narrowing does not stop. It gives the range asked for, inside the text of an inline span of
the length expected, unless that range starts too late to be inline. -/
def SourceSpan.NarrowsExactly (span : SourceSpan)
    (byteOffset byteLength expectedParentLength : U32) : Prop :=
  (span.narrowInline byteOffset byteLength expectedParentLength = some none ∧
      ¬ ∃ start, decodeLogical span.local.loadLogical = .Inline start expectedParentLength ∧
        byteOffset.toNat + byteLength.toNat ≤ expectedParentLength.toNat ∧
        start.toNat + byteOffset.toNat < 4194304) ∨
    ∃ start narrowed,
      span.narrowInline byteOffset byteLength expectedParentLength = some (some narrowed) ∧
      decodeLogical span.local.loadLogical = .Inline start expectedParentLength ∧
      byteOffset.toNat + byteLength.toNat ≤ expectedParentLength.toNat ∧
      narrowed.source = span.source ∧ ∀ entries,
        span.local.Covers entries (start.toNat, start.toNat + expectedParentLength.toNat) ∧
        narrowed.local.Covers entries (start.toNat + byteOffset.toNat,
          start.toNat + byteOffset.toNat + byteLength.toNat)

theorem SourceSpan.narrowInline_spec (span : SourceSpan)
    (byteOffset byteLength expectedParentLength : U32) :
    span.NarrowsExactly byteOffset byteLength expectedParentLength := by
  rw [SourceSpan.NarrowsExactly, SourceSpan.narrowInline]
  cases hdecode : decodeLogical span.local.loadLogical with
  | Extended index =>
      refine .inl ⟨rfl, fun ⟨start, h, _⟩ => by cases h⟩
  | Inline start length =>
      have hbounds := decodeLogical_inline hdecode
      simp only
      by_cases hlength : length ≠ expectedParentLength
      · rw [if_pos hlength]
        refine .inl ⟨rfl, fun ⟨other, h, _⟩ => ?_⟩
        cases h
        exact hlength rfl
      · rw [if_neg hlength]
        cases not_not.1 hlength
        have hinline : ∀ {P : U32 → Prop}, (∃ s, DecodedSpan.Inline start expectedParentLength =
            .Inline s expectedParentLength ∧ P s) → P start := by
          intro P hex
          obtain ⟨s, h, hp⟩ := hex
          cases h
          exact hp
        cases hend : checkedAdd byteOffset byteLength with
        | none =>
            have hlarge := checkedAdd_isNone.1 (Option.isNone_iff_eq_none.2 hend)
            refine .inl ⟨rfl, fun h => ?_⟩
            have := hinline h
            omega
        | some narrowedEnd =>
            have hsum := checkedAdd_some.1 hend
            simp only
            by_cases hpast : expectedParentLength.toNat < narrowedEnd.toNat
            · rw [if_pos hpast]
              refine .inl ⟨rfl, fun h => ?_⟩
              have := hinline h
              omega
            · rw [if_neg hpast]
              cases hstart : checkedAdd start byteOffset with
              | none =>
                  have hlarge := checkedAdd_isNone.1 (Option.isNone_iff_eq_none.2 hstart)
                  omega
              | some narrowedStart =>
                  have hshift := checkedAdd_some.1 hstart
                  simp only
                  cases hfits : fitsInline narrowedStart byteLength with
                  | false =>
                      have hlate := fitsInline_iff.not.1 (ne_true_of_eq_false hfits)
                      refine .inl ⟨rfl, fun h => ?_⟩
                      have := hinline h
                      omega
                  | true =>
                      obtain ⟨narrowed, hstore, hnarrowed⟩ := store_inline hfits
                      refine .inr ⟨start, ⟨span.source, narrowed⟩, ?_, rfl, by omega, rfl,
                        fun entries => ⟨covers_inline hdecode entries, ?_⟩⟩
                      · rw [if_pos rfl, hstore]
                        rfl
                      · have hcovers := covers_inline hnarrowed entries
                        rwa [hshift] at hcovers

/-! ## Losslessness -/

/-- Along any run of calls: nothing stops, every span returned resolves, at every later time and
through the frozen table, to the range that its call names, a join's being the least one over both
operands; and a call fails exactly where the end is no `u32` or a range that is not inline finds
the table full, and then leaves the builder as it was. -/
theorem packed_spans_lossless (calls later : List SpanCall) :
    ∃ source last, SpanSource.run {} calls = some source ∧ source.run later = some last ∧
      source.Agrees (SpanLedger.run {} calls) ∧
      (∀ (i : Nat) span, source.outcomes[i]? = some (.ok span) → ∃ range,
        (SpanLedger.run {} calls).outcomes[i]? = some (.ok range) ∧
          span.Covers last.builder.entries range ∧
          span.Covers last.builder.freeze.entries range) ∧
      (∀ start length, ∃ out, LocalSpan.exact start length source.builder = some out ∧
        Exactly start length source.builder out) ∧
      (∀ (i j : Nat) left right, source.outcomes[i]? = some (.ok left) →
        source.outcomes[j]? = some (.ok right) → ∃ l r start length out,
          left.Covers source.builder.entries l ∧ right.Covers source.builder.entries r ∧
          LeastCover l r (start.toNat, start.toNat + length.toNat) ∧
          left.join right source.builder = some out ∧
          Exactly start length source.builder out) ∧
      (∀ start length out, Exactly start length source.builder out →
        ((∃ e, out.1 = .error e) ↔ 4294967296 ≤ start.toNat + length.toNat ∨
          fitsInline start length = false ∧ source.builder.entries.length = 4194303) ∧
        ((∃ e, out.1 = .error e) → out.2 = source.builder)) ∧
      ∀ (span : SourceSpan) byteOffset byteLength expectedParentLength,
        span.NarrowsExactly byteOffset byteLength expectedParentLength := by
  obtain ⟨source, hrun, hagrees, -⟩ := agrees_empty.run calls
  obtain ⟨last, hlast, -, hextends⟩ := hagrees.run later
  have hbound : source.builder.entries.length ≤ 4194303 := by
    have := hagrees.rows
    have := hagrees.bound
    omega
  refine ⟨source, last, hrun, hlast, hagrees, ?_, ?_, ?_, ?_, ?_⟩
  · intro i span hspan
    exact hagrees.covers hextends hspan
  · intro start length
    exact LocalSpan.exact_spec start length hbound
  · intro i j left right hleft hright
    have hrelLeft := forall₂_getElem? hagrees.outcomes i
    have hrelRight := forall₂_getElem? hagrees.outcomes j
    rw [hleft] at hrelLeft
    rw [hright] at hrelRight
    generalize (SpanLedger.run {} calls).outcomes[i]? = leftWanted at hrelLeft
    generalize (SpanLedger.run {} calls).outcomes[j]? = rightWanted at hrelRight
    match leftWanted, hrelLeft, rightWanted, hrelRight with
    | some (.ok l), .some hl, some (.ok r), .some hr =>
        obtain ⟨start, length, hjoin, hstart, hstop⟩ := LocalSpan.join_eq hl.1 hr.1 hl.2
        obtain ⟨out, hout, hexactly⟩ := LocalSpan.exact_spec start length hbound
        refine ⟨l, r, start, length, out, hl.1, hr.1, ?_, hjoin.trans hout, hexactly⟩
        rw [hstop, hstart]
        exact coverRange_least l r
  · intro start length out hexactly
    exact hexactly.error_iff
  · intro span byteOffset byteLength expectedParentLength
    exact span.narrowInline_spec byteOffset byteLength expectedParentLength

theorem run_fills (count : Nat) (h : count ≤ 4194303) :
    SpanLedger.run {} (List.replicate count (.exact 0 2000)) =
      ⟨count, List.replicate count (.ok (0, 2000))⟩ := by
  induction count with
  | zero => rfl
  | succ count ih =>
      have hlast : SpanLedger.run {} (List.replicate (count + 1) (.exact 0 2000)) =
          (SpanLedger.run {} (List.replicate count (.exact 0 2000))).call (.exact 0 2000) := by
        rw [List.replicate_succ', SpanLedger.run, List.foldl_append]
        rfl
      rw [hlast, ih (by omega)]
      have hrecord : SpanLedger.record ⟨count, List.replicate count (.ok (0, 2000))⟩ (0, 2000) =
          ⟨count + 1, List.replicate count (.ok (0, 2000)) ++ [.ok (0, 2000)]⟩ := by
        rw [SpanLedger.record, if_neg (by decide), if_neg (by decide),
          if_pos (show count < 4194303 by omega)]
      rw [List.replicate_succ']
      exact hrecord

/-- An inline range is packed though the table is full. -/
theorem inline_span_in_full_table :
    ∃ source, SpanSource.run {} (List.replicate 4194303 (.exact 0 2000)) = some source ∧
      source.builder.entries.length = 4194303 ∧
      (∃ e, LocalSpan.exact 0 2000 source.builder = some (.error e, source.builder)) ∧
      ∃ span, LocalSpan.exact 0 1 source.builder = some (.ok span, source.builder) := by
  obtain ⟨source, hrun, hagrees, -⟩ :=
    agrees_empty.run (List.replicate 4194303 (.exact 0 2000))
  rw [run_fills 4194303 (Nat.le_refl _)] at hagrees
  have hfull : source.builder.entries.length = 4194303 := hagrees.rows
  refine ⟨source, hrun, hfull, ?_, ?_⟩
  · obtain ⟨out, hout, hexactly⟩ := LocalSpan.exact_spec 0 2000 (Nat.le_of_eq hfull)
    rw [hout]
    cases hexactly with
    | unrepresentable h => exact absurd h (by decide)
    | inline h hfits hcovers => cases hfits
    | full h hfits hfull => exact ⟨_, rfl⟩
    | row h hfits hroom hcovers => omega
  · obtain ⟨out, hout, hexactly⟩ := LocalSpan.exact_spec 0 1 (Nat.le_of_eq hfull)
    rw [hout]
    cases hexactly with
    | unrepresentable h => exact absurd h (by decide)
    | inline h hfits hcovers => exact ⟨_, rfl⟩
    | full h hfits hfull => cases hfits
    | row h hfits hroom hcovers => cases hfits

end Moth.Source
