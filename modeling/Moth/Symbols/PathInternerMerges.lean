import Moth.Symbols.PathInternerInterning
import Moth.Symbols.StringInterningRuns

/-!
# Merges carry tries over

Builders and forks are destinations alike: they read as a trie and intern in
it. Each merge goes through the rows of its source in order, puts the parent
of a row where it already went and interns the row below it. What it has done
after some rows is a merge of tries, whether the components come through a
string remap, unchanged or from another string table.
-/

namespace Moth.Symbols

open Moth.Lib

/-! ## Destinations -/

/-- A destination answers for the trie it stands for. -/
structure Destination.Lawful {σ : Type} (into : Destination σ)
    (represents : σ → Trie StringId → Prop) : Prop where
  len : ∀ s t, represents s t → into.len s = t.len
  tryParent : ∀ s t, represents s t → ∀ path, into.tryParent s path =
    (t.entries[path.index]?).join.map fun row => ⟨row.1⟩
  tryComponent : ∀ s t, represents s t → ∀ path, into.tryComponent s path =
    (t.entries[path.index]?).join.map Prod.snd
  intern : ∀ s t parent component path next, represents s t →
    into.tryInternChild s parent component = some (.child path next) →
    ∃ t', represents next t' ∧ t.Extends t'.toInterner ∧
      t'.entries[path.index]? = some (some (parent.index, component))
  full : ∀ s t parent component, represents s t →
    into.tryInternChild s parent component = some .full → idSpace ≤ t.len + 1

theorem PathInternerBuilder.destination_lawful :
    PathInternerBuilder.destination.Lawful PathInternerBuilder.Represents where
  len _ _ h := h.table.len_eq
  tryParent _ _ h := h.table.tryParent
  tryComponent _ _ h := h.table.tryComponent
  intern _ _ _ _ _ _ h hintern := PathInternerBuilder.tryInternChild_spec h hintern
  full _ _ _ _ h hintern := PathInternerBuilder.tryInternChild_full h hintern

namespace PathInternerFork

variable {fork : PathInternerFork} {t : Trie StringId}

theorem Represents.len_eq (h : fork.Represents t) : fork.len = t.len := by
  rw [← h.builder.table.len_eq, len, h.baseLen]
  rfl

theorem Represents.tryParent (h : fork.Represents t) (path : PathId) : fork.tryParent path =
    (t.entries[path.index]?).join.map fun row => ⟨row.1⟩ := by
  rw [← h.builder.table.tryParent, PathInternerFork.tryParent, h.baseLen]
  show _ = (if path.index < fork.base.table.len then _ else _ : Option PathNode).bind
    PathNode.parent
  split <;> rfl

theorem Represents.tryComponent (h : fork.Represents t) (path : PathId) :
    fork.tryComponent path = (t.entries[path.index]?).join.map Prod.snd := by
  rw [← h.builder.table.tryComponent, PathInternerFork.tryComponent, PathTable.tryComponent,
    h.baseLen]
  split
  · rfl
  · show _ = (if path.index < fork.base.table.len then _ else _ : Option PathNode).map
      PathNode.component
    split <;> rfl

theorem destination_lawful :
    PathInternerFork.destination.Lawful PathInternerFork.Represents where
  len _ _ h := h.len_eq
  tryParent _ _ h := h.tryParent
  tryComponent _ _ h := h.tryComponent
  intern _ _ _ _ _ _ h hintern := PathInternerFork.tryInternChild_spec h hintern
  full _ _ _ _ h hintern := PathInternerFork.tryInternChild_full h hintern

theorem Represents.local_row (h : fork.Represents t) (offset : Nat) :
    (fork.nodes[offset]?).map PathNode.entry = t.entries[fork.baseLen + offset]? := by
  have hrows := h.builder.table.rows.entries
  have hlen : (fork.base.table.segments.flatMap PathTableSegment.nodes).length = fork.baseLen := by
    rw [h.baseLen]
    exact h.builder.table.regular.len.symm
  rw [← hrows, List.getElem?_map]
  show _ = ((fork.base.table.segments.flatMap PathTableSegment.nodes ++
    fork.nodes)[fork.baseLen + offset]?).map _
  rw [List.getElem?_append_right (by omega), hlen, Nat.add_sub_cancel_left]

theorem Represents.place (h : fork.Represents t) {offset : Nat} {node : PathNode}
    (hat : fork.nodes[offset]? = some node) {mapped : List PathId}
    (hlength : mapped.length = offset) :
    ∃ place, node.parent.bind (remappedParent fork.baseLen mapped) = some place := by
  have hrow := h.local_row offset
  rw [hat, Option.map_some] at hrow
  cases hparent : node.parent with
  | none =>
      rw [PathNode.entry, hparent] at hrow
      have hzero := Trie.eq_zero_of_root hrow.symm
      have hrooted := h.rooted
      omega
  | some parent =>
      rw [PathNode.entry, hparent] at hrow
      have hearlier := t.earlier _ _ _ hrow.symm
      rw [Option.bind_some, remappedParent]
      split
      · exact ⟨parent, rfl⟩
      · exact ⟨_, List.getElem?_eq_getElem (by omega)⟩

end PathInternerFork

/-! ## Rows carried over -/

/-- The positions of some ids. -/
abbrev positions (ids : List PathId) : List Nat := ids.map PathId.index

theorem remapped_positions {start : Nat} {mapped : List PathId} {parent path : PathId}
    (h : remappedParent start mapped parent = some path) :
    Trie.remapped start (positions mapped) parent.index = some path.index := by
  rw [remappedParent] at h
  rw [Trie.remapped]
  split at h
  · next hlt =>
      cases h
      rw [if_pos hlt]
  · next hge => rw [if_neg hge, List.getElem?_map, h, Option.map_some]

theorem positions_concat_range {start : Nat} {mapped : List PathId} {path : PathId} :
    positions (mapped ++ [path]) = List.range' start (mapped ++ [path]).length ↔
      positions mapped = List.range' start mapped.length ∧ path.index = start + mapped.length := by
  rw [positions, List.map_append, List.length_append, List.length_singleton, List.range'_concat,
    Nat.one_mul]
  constructor
  · intro hboth
    obtain ⟨hmapped, hlast⟩ := List.append_inj' hboth rfl
    exact ⟨hmapped, List.head_eq_of_cons_eq hlast⟩
  · intro hboth
    show positions mapped ++ [path.index] = _
    rw [hboth.1, hboth.2]

section Rows

variable {σ : Type} {into : Destination σ} {represents : σ → Trie StringId → Prop}

/-- A merge of rows stops at the first one or carries it over. -/
theorem mergeRows_cons {baseLen : Nat} {stringRemap : StringIdRemap} {mismatch : PathInternError}
    {merging : Merging σ} {node : PathNode} {rest : List PathNode}
    {result : Except PathInternError (List PathId × Bool)} {next : σ}
    (h : mergeRows into baseLen stringRemap mismatch merging (node :: rest) =
      some (result, next)) :
    (next = merging.destination ∧ ((result = .error .TableFull ∧ ∃ place component,
        into.tryInternChild merging.destination place component = some .full) ∨
      result = .error mismatch ∧
        node.parent.bind (remappedParent baseLen merging.mapped) = none)) ∨
    ∃ parent place component child grown, node.parent = some parent ∧
      remappedParent baseLen merging.mapped parent = some place ∧
      stringRemap.get node.component = some component ∧
      into.tryInternChild merging.destination place component = some (.child child grown) ∧
      mergeRows into baseLen stringRemap mismatch ⟨grown, merging.mapped ++ [child],
        merging.isIdentity && child.index == baseLen + merging.mapped.length⟩ rest =
          some (result, next) := by
  rw [mergeRows] at h
  split at h
  · next hplace =>
      cases h
      exact .inl ⟨rfl, .inr ⟨rfl, hplace⟩⟩
  · next place hplace =>
      obtain ⟨parent, hparent, hplaced⟩ := Option.bind_eq_some_iff.1 hplace
      split at h
      · cases h
      · next component hget =>
          split at h
          · cases h
          · next hfull =>
              cases h
              exact .inl ⟨rfl, .inl ⟨rfl, place, component, hfull⟩⟩
          · next child grown hintern =>
              exact .inr ⟨parent, place, component, child, grown, hparent, hplaced, hget,
                hintern, h⟩

variable (hlawful : into.Lawful represents)
include hlawful

/-- A merge of rows grows the destination, and carries every row over or stops at a full one. -/
theorem mergeRows_spec {delta : PathInternerFork} {source before : Trie StringId}
    (hsource : delta.Represents source) {stringRemap : StringIdRemap}
    {mismatch : PathInternError} {rest : List PathNode} :
    ∀ (done : List PathNode) {merging : Merging σ} {after : Trie StringId},
    delta.nodes = done ++ rest → merging.mapped.length = done.length →
    represents merging.destination after →
    Trie.Merged source before after (fun c c' => stringRemap.get c = some c') delta.baseLen
      (positions merging.mapped) →
    (merging.isIdentity = true ↔
      positions merging.mapped = List.range' delta.baseLen merging.mapped.length) →
    ∀ {result : Except PathInternError (List PathId × Bool)} {next : σ},
    mergeRows into delta.baseLen stringRemap mismatch merging rest = some (result, next) →
    ∃ final, represents next final ∧ before.Extends final.toInterner ∧
      (result = .error .TableFull ∧ idSpace ≤ final.len + 1 ∨
        ∃ mapped isIdentity, result = .ok (mapped, isIdentity) ∧
        mapped.length = delta.nodes.length ∧
        Trie.Merged source before final (fun c c' => stringRemap.get c = some c') delta.baseLen
          (positions mapped) ∧
        (isIdentity = true ↔ positions mapped = List.range' delta.baseLen mapped.length)) := by
  induction rest with
  | nil =>
      intro done merging after hnodes hlength hrep hm hid result next hrows
      cases hrows
      rw [List.append_nil] at hnodes
      exact ⟨after, hrep, hm.grows, .inr ⟨_, _, rfl, by rw [hlength, hnodes], hm, hid⟩⟩
  | cons node rest ih =>
      intro done merging after hnodes hlength hrep hm hid result next hrows
      have hat : delta.nodes[merging.mapped.length]? = some node := by
        rw [hnodes, hlength, List.getElem?_append_right (Nat.le_refl _), Nat.sub_self]
        rfl
      obtain ⟨hnext, ⟨hresult, _, _, hfull⟩ | ⟨-, hplace⟩⟩ | ⟨parent, place, component, child,
        grown, hparent, hplaced, hget, hintern, hrest⟩ := mergeRows_cons hrows
      · subst hnext
        exact ⟨after, hrep, hm.grows, .inl ⟨hresult, hlawful.full _ _ _ _ hrep hfull⟩⟩
      · obtain ⟨place, hplaced⟩ := hsource.place hat rfl
        rw [hplaced] at hplace
        cases hplace
      · obtain ⟨after', hrep', hext, hrow'⟩ := hlawful.intern _ _ _ _ _ _ hrep hintern
        have hrow : source.entries[delta.baseLen + (positions merging.mapped).length]? =
            some (some (parent.index, node.component)) := by
          rw [List.length_map, ← hsource.local_row, hat, Option.map_some, PathNode.entry, hparent]
          rfl
        refine ih (done ++ [node]) ?_ ?_ hrep' ?_ ?_ hrest
        · rw [hnodes, List.append_assoc]
          rfl
        · rw [List.length_append, List.length_append, hlength]
          rfl
        · rw [positions, List.map_append]
          exact hm.push hext hrow (remapped_positions hplaced) hget hrow'
        · rw [positions_concat_range, Bool.and_eq_true, hid, beq_iff_eq]

end Rows

/-! ## Remaps -/

theorem get_positions (remap : PathIdRemap) (path : PathId) :
    (remap.get path).map PathId.index =
      Trie.remapped remap.identityPrefixLen (positions remap.mappedSuffix) path.index := by
  rw [PathIdRemap.get, Trie.remapped]
  split
  · rfl
  · rw [List.getElem?_map]

/-- Ids stay when those behind the prefix do. -/
theorem get_identity_iff (remap : PathIdRemap) {len : Nat}
    (hlen : remap.identityPrefixLen + remap.mappedSuffix.length = len) :
    positions remap.mappedSuffix =
        List.range' remap.identityPrefixLen remap.mappedSuffix.length ↔
      ∀ path, path.index < len → remap.get path = some path := by
  constructor
  · intro heq path hpath
    have hget := get_positions remap path
    rw [heq, Trie.remapped] at hget
    have hindex : (remap.get path).map PathId.index = some path.index := by
      rw [hget]
      split
      · rfl
      · rw [List.getElem?_range' (by omega), Nat.one_mul, Nat.add_sub_cancel' (by omega)]
    obtain ⟨path', hpath', hsame⟩ := Option.map_eq_some_iff.1 hindex
    rw [hpath', show path' = path from congrArg PathId.mk hsame]
  · intro hall
    refine List.ext_getElem? fun k => ?_
    by_cases hk : k < remap.mappedSuffix.length
    · have hget := get_positions remap ⟨remap.identityPrefixLen + k⟩
      rw [hall ⟨remap.identityPrefixLen + k⟩ (by show _ + k < len; omega), Trie.remapped,
        if_neg (by show ¬remap.identityPrefixLen + k < _; omega)] at hget
      rw [List.getElem?_range' hk, Nat.one_mul]
      refine (Eq.trans ?_ hget.symm)
      show _ = (positions remap.mappedSuffix)[remap.identityPrefixLen + k -
        remap.identityPrefixLen]?
      rw [Nat.add_sub_cancel_left]
    · rw [List.getElem?_eq_none (by rw [List.length_map]; omega),
        List.getElem?_eq_none (by rw [List.length_range']; omega)]

/-- The rows of a source were carried over by a remap. -/
def Carries (source target : Trie StringId) (related : StringId → StringId → Prop)
    (remap : PathIdRemap) : Prop :=
  Trie.Maps source target (fun i => (remap.get ⟨i⟩).map PathId.index) related

theorem Carries.of_merged {source before after : Trie StringId}
    {related : StringId → StringId → Prop} (remap : PathIdRemap)
    (hm : Trie.Merged source before after related remap.identityPrefixLen
      (positions remap.mappedSuffix))
    (hrooted : 0 < remap.identityPrefixLen)
    (hlen : remap.identityPrefixLen + remap.mappedSuffix.length = source.len)
    (hshared : ∀ i < remap.identityPrefixLen, ∀ p c,
      source.entries[i]? = some (some (p, c)) →
        ∃ c', related c c' ∧ before.entries[i]? = some (some (p, c'))) :
    Carries source after related remap := by
  have hmaps := hm.maps hrooted (by rw [List.length_map]; exact hlen) hshared
  have hfun : (fun i => (remap.get ⟨i⟩).map PathId.index) =
      Trie.remapped remap.identityPrefixLen (positions remap.mappedSuffix) :=
    funext fun i => get_positions remap ⟨i⟩
  rw [Carries, hfun]
  exact hmaps

/-! ## Delta merges -/

theorem entries_eq_of_reads {t t' : Trie StringId} {i : Nat} (hi : i < t.len) (hi' : i < t'.len)
    (hparent : (t.entries[i]?).join.map (fun row => PathId.mk row.1) =
      (t'.entries[i]?).join.map fun row => PathId.mk row.1)
    (hcomponent : (t.entries[i]?).join.map Prod.snd = (t'.entries[i]?).join.map Prod.snd) :
    t.entries[i]? = t'.entries[i]? := by
  rw [List.getElem?_eq_getElem hi, List.getElem?_eq_getElem hi'] at hparent hcomponent ⊢
  rw [Option.join_some, Option.join_some] at hparent hcomponent
  cases hrow : t.entries[i] with
  | none =>
      cases hrow' : t'.entries[i] with
      | none => rfl
      | some row' =>
          rw [hrow, hrow'] at hparent
          cases hparent
  | some row =>
      cases hrow' : t'.entries[i] with
      | none =>
          rw [hrow, hrow'] at hparent
          cases hparent
      | some row' =>
          rw [hrow, hrow'] at hparent hcomponent
          have hfirst := PathId.mk.inj (Option.some.inj hparent)
          have hsecond := Option.some.inj hcomponent
          rw [Prod.ext hfirst hsecond]

section Delta

variable {σ : Type} {into : Destination σ} {represents : σ → Trie StringId → Prop}
  (hlawful : into.Lawful represents)
include hlawful

/-- A delta that fits has the rows of the destination below its base length. -/
theorem deltaFits_shared {self : σ} {before source : Trie StringId} {delta : PathInternerFork}
    (hself : represents self before) (hsource : delta.Represents source)
    (hfits : deltaFits into self delta = true) {i : Nat} (hi : i < delta.baseLen) :
    before.entries[i]? = source.entries[i]? := by
  rw [deltaFits, Bool.and_eq_true, Bool.and_eq_true, Bool.and_eq_true, decide_eq_true_iff,
    decide_eq_true_iff, List.all_eq_true] at hfits
  obtain ⟨⟨⟨hlen, hlen'⟩, hrows⟩, -⟩ := hfits
  rw [hlawful.len self before hself] at hlen
  rw [hsource.len_eq] at hlen'
  have hrow := hrows i (List.mem_range.2 hi)
  rw [PathId.tryFromIndex] at hrow
  split at hrow
  · cases hrow
  · next expected hexpected =>
      split at hexpected
      · cases hexpected
        rw [Bool.and_eq_true, Bool.and_eq_true, beq_iff_eq, beq_iff_eq,
          hlawful.tryParent self before hself, hlawful.tryComponent self before hself,
          hsource.tryParent, hsource.tryComponent] at hrow
        exact entries_eq_of_reads (by omega) (by omega) hrow.1.1 hrow.1.2
      · cases hexpected

/-- A delta merge is refused and changes nothing, or grows the destination; when it answers,
the rows are carried over if the strings of the shared rows stay. -/
theorem mergeDelta_spec {self next : σ} {before source : Trie StringId}
    {delta : PathInternerFork} {stringRemap : StringIdRemap}
    {result : Except PathInternError PathIdRemap} (hself : represents self before)
    (hsource : delta.Represents source)
    (hmerge : mergeDelta into self delta stringRemap = some (result, next)) :
    (∃ baseLen len len', result = .error (.BaseMismatch baseLen len len') ∧ next = self) ∨
    ∃ final, represents next final ∧ before.Extends final.toInterner ∧
      (result = .error .TableFull ∧ idSpace ≤ final.len + 1 ∨
        ∃ remap, result = .ok remap ∧
        remap.identityPrefixLen + remap.mappedSuffix.length = source.len ∧
        (remap.isIdentity = true ↔
          ∀ path, path.index < source.len → remap.get path = some path) ∧
        ((∀ i < delta.baseLen, ∀ p c, source.entries[i]? = some (some (p, c)) →
            stringRemap.get c = some c) →
          Carries source final (fun c c' => stringRemap.get c = some c') remap)) := by
  rw [mergeDelta] at hmerge
  split at hmerge
  · next hfits =>
      obtain ⟨⟨answer, next'⟩, hrows, heq⟩ := Option.map_eq_some_iff.1 hmerge
      cases heq
      obtain ⟨final, hrep, hext, hanswer⟩ := mergeRows_spec hlawful hsource
        [] rfl rfl hself (Trie.Merged.nil source before _ delta.baseLen)
        (by simp) hrows
      refine .inr ⟨final, hrep, hext, ?_⟩
      obtain ⟨hresult, hfull⟩ | ⟨mapped, isIdentity, hok, hlength, hm, hid⟩ := hanswer
      · subst hresult
        exact .inl ⟨rfl, hfull⟩
      · subst hok
        have hlen : delta.baseLen + mapped.length = source.len := by
          rw [hlength, ← hsource.len_eq]
          rfl
        refine .inr ⟨⟨delta.baseLen, mapped, isIdentity⟩, rfl, hlen, ?_, fun hfixed => ?_⟩
        · rw [← get_identity_iff ⟨delta.baseLen, mapped, isIdentity⟩ hlen]
          exact hid
        · refine Carries.of_merged ⟨delta.baseLen, mapped, isIdentity⟩ hm
            hsource.rooted hlen fun i hi p c hrow => ⟨c, hfixed i hi p c hrow, ?_⟩
          rw [deltaFits_shared hlawful hself hsource hfits hi, hrow]
  · cases hmerge
    exact .inl ⟨_, _, _, rfl, rfl⟩

end Delta

/-! ## Snapshots -/

/-- Flags over the positions behind a prefix. -/
theorem all_zipIdx_iff (mapped : List PathId) (start : Nat) :
    ((mapped.zipIdx.all fun row => row.1.index == start + row.2) = true) ↔
      positions mapped = List.range' start mapped.length := by
  rw [List.all_eq_true]
  constructor
  · intro hall
    refine List.ext_getElem? fun k => ?_
    rw [List.getElem?_map]
    by_cases hk : k < mapped.length
    · have hrow : (mapped[k], k) ∈ mapped.zipIdx :=
        List.mk_mem_zipIdx_iff_getElem?.2 (List.getElem?_eq_getElem hk)
      rw [List.getElem?_range' hk, List.getElem?_eq_getElem hk, Option.map_some,
        beq_iff_eq.1 (hall _ hrow), Nat.one_mul]
    · rw [List.getElem?_eq_none (by omega),
        List.getElem?_eq_none (by rw [List.length_range']; omega)]
      rfl
  · intro heq row hrow
    have hget : mapped[row.2]? = some row.1 := List.mk_mem_zipIdx_iff_getElem?.1 hrow
    have hk := (List.getElem?_eq_some_iff.1 hget).1
    have hposition := congrArg (fun ids => ids[row.2]?) heq
    rw [List.getElem?_map, hget, List.getElem?_range' hk, Nat.one_mul] at hposition
    exact beq_iff_eq.2 (Option.some.inj hposition)

namespace PathInternerBuilder

variable {builder : PathInternerBuilder} {before : Trie StringId}

/-- Below the kept prefix both tables have the same rows, the root among them. -/
theorem identityPrefixLen_spec (h : builder.Represents before) {snapshot : PathTable}
    {source : Trie StringId} (hsource : snapshot.Represents source) :
    0 < builder.identityPrefixLen snapshot ∧ builder.identityPrefixLen snapshot ≤ source.len ∧
      ∀ i < builder.identityPrefixLen snapshot, before.entries[i]? = source.entries[i]? := by
  have hlen : builder.len = before.len := h.table.len_eq
  have hroot : ∀ t : Trie StringId, 0 < t.len := fun t => (List.getElem?_eq_some_iff.1 t.root).1
  have hagree : ∀ i, i < before.len → i < source.len →
      (builder.table.tryParent ⟨i⟩ != snapshot.tryParent ⟨i⟩ ||
        builder.table.tryComponent ⟨i⟩ != snapshot.tryComponent ⟨i⟩) = false →
      before.entries[i]? = source.entries[i]? := by
    intro i hi hi' hsame
    rw [Bool.or_eq_false_iff, bne_eq_false_iff_eq, bne_eq_false_iff_eq, h.table.tryParent,
      hsource.tryParent, h.table.tryComponent, hsource.tryComponent] at hsame
    exact entries_eq_of_reads hi hi' hsame.1 hsame.2
  have hbefore := hroot before
  have hafter := hroot source
  rw [identityPrefixLen, hsource.len_eq, hlen]
  generalize hfind : List.find? _ _ = found
  cases found with
  | none =>
      rw [List.find?_eq_none] at hfind
      refine ⟨by show 0 < min source.len before.len; omega, Nat.min_le_left _ _, fun i hi => ?_⟩
      have hi : i < min source.len before.len := hi
      exact hagree i (by omega) (by omega)
        (Bool.eq_false_iff.2 (hfind i (List.mem_range.2 (by omega))))
  | some first =>
      rw [List.find?_range_eq_some] at hfind
      obtain ⟨hdiffers, hmem, hearlier⟩ := hfind
      rw [List.mem_range] at hmem
      refine ⟨?_, by show first ≤ source.len; omega, fun i hi => ?_⟩
      · show 0 < first
        cases first with
        | succ first => exact Nat.succ_pos first
        | zero =>
            rw [h.table.tryParent, hsource.tryParent, h.table.tryComponent,
              hsource.tryComponent, before.root, source.root] at hdiffers
            cases hdiffers
      · have hi : i < first := hi
        have hsame := hearlier i hi
        rw [Bool.not_eq_true'] at hsame
        exact hagree i (by omega) (by omega) hsame

/-- A merge of snapshot rows grows the builder, and carries every row over or stops. -/
theorem mergeSnapshotRows_spec {snapshot : PathTable} {source : Trie StringId}
    (hsource : snapshot.Represents source) {prefixLen count : Nat} :
    ∀ {self : PathInternerBuilder} {after : Trie StringId} (mapped : List PathId),
    self.Represents after →
    Trie.Merged source before after (· = ·) prefixLen (positions mapped) →
    prefixLen + mapped.length + count = source.len →
    ∀ {result : Except PathInternError (List PathId)} {next : PathInternerBuilder},
    mergeSnapshotRows snapshot prefixLen self mapped
      (List.range' (prefixLen + mapped.length) count) = some (result, next) →
    ∃ final, next.Represents final ∧ before.Extends final.toInterner ∧
      (result = .error .TableFull ∧ idSpace ≤ final.len + 1 ∨
        ∃ mapped', result = .ok mapped' ∧
        prefixLen + mapped'.length = source.len ∧
        Trie.Merged source before final (· = ·) prefixLen (positions mapped')) := by
  induction count with
  | zero =>
      intro self after mapped hrep hm hlen result next hrows
      cases hrows
      exact ⟨after, hrep, hm.grows, .inr ⟨mapped, rfl, hlen, hm⟩⟩
  | succ count ih =>
      intro self after mapped hrep hm hlen result next hrows
      rw [List.range'_succ, mergeSnapshotRows] at hrows
      obtain ⟨path, hpath, hread⟩ := Option.bind_eq_some_iff.1 hrows
      obtain ⟨parent, hparent, hread'⟩ := Option.bind_eq_some_iff.1 hread
      obtain ⟨component, hcomponent, hchecked⟩ := Option.bind_eq_some_iff.1 hread'
      clear hrows hread hread'
      split at hchecked
      · cases hchecked
      · obtain ⟨place, hplace, hplaced⟩ := Option.bind_eq_some_iff.1 hchecked
        obtain ⟨answer, hintern, hrest⟩ := Option.bind_eq_some_iff.1 hplaced
        clear hchecked hplaced
        cases answer with
        | full =>
            cases hrest
            exact ⟨after, hrep, hm.grows, .inl ⟨rfl, tryInternChild_full hrep hintern⟩⟩
        | child child grown =>
            obtain ⟨after', hrep', hext, hrow'⟩ := tryInternChild_spec hrep hintern
            rw [PathId.tryFromIndex] at hpath
            split at hpath
            · cases hpath
              rw [hsource.tryParent] at hparent
              rw [hsource.tryComponent] at hcomponent
              obtain ⟨⟨p, c⟩, hrow, hp⟩ := Option.map_eq_some_iff.1 hparent
              rw [hrow] at hcomponent
              cases hp
              cases hcomponent
              have hat : source.entries[prefixLen + (positions mapped).length]? =
                  some (some (p, c)) := by
                rw [List.length_map]
                exact Option.join_eq_some_iff.1 hrow
              refine ih (mapped ++ [child]) hrep' ?_ ?_ ?_
              · rw [positions, List.map_append]
                exact hm.push hext hat (remapped_positions hplace) rfl hrow'
              · rw [List.length_append, List.length_singleton]
                omega
              · rw [List.length_append, List.length_singleton, ← Nat.add_assoc]
                exact hrest
            · cases hpath

/-- A snapshot merge grows the builder; when it answers, every row is carried over. -/
theorem mergeSnapshot_spec (h : builder.Represents before) {snapshot : PathTable}
    {source : Trie StringId} (hsource : snapshot.Represents source)
    {result : Except PathInternError PathIdRemap} {next : PathInternerBuilder}
    (hmerge : builder.mergeSnapshot snapshot = some (result, next)) :
    ∃ final, next.Represents final ∧ before.Extends final.toInterner ∧
      (result = .error .TableFull ∧ idSpace ≤ final.len + 1 ∨
        ∃ remap, result = .ok remap ∧
        (remap.isIdentity = true ↔
          ∀ path, path.index < source.len → remap.get path = some path) ∧
        Carries source final (· = ·) remap) := by
  obtain ⟨hrooted, hle, hshared⟩ := identityPrefixLen_spec h hsource
  obtain ⟨⟨answer, next'⟩, hrows, heq⟩ := Option.map_eq_some_iff.1 hmerge
  cases heq
  rw [hsource.len_eq] at hrows
  generalize builder.identityPrefixLen snapshot = prefixLen at *
  obtain ⟨final, hrep, hext, hanswer⟩ := mergeSnapshotRows_spec hsource [] h
    (Trie.Merged.nil source before (· = ·) prefixLen) (by show prefixLen + 0 + _ = _; omega) hrows
  refine ⟨final, hrep, hext, ?_⟩
  obtain ⟨hresult, hfull⟩ | ⟨mapped, hok, hlen, hm⟩ := hanswer
  · subst hresult
    exact .inl ⟨rfl, hfull⟩
  · subst hok
    refine .inr ⟨⟨prefixLen, mapped, _⟩, rfl, ?_, ?_⟩
    · rw [all_zipIdx_iff]
      exact get_identity_iff ⟨prefixLen, mapped, _⟩ hlen
    · refine Carries.of_merged ⟨prefixLen, mapped, _⟩ hm hrooted hlen
        fun i hi p c hrow => ⟨c, rfl, ?_⟩
      rw [hshared i hi, hrow]

end PathInternerBuilder

/-! ## Foreign tables -/

/-- An id of the source strings and an id of a table name the same string. -/
def SameString (sourceStrings : StringId → Option String) (strings : StringTable)
    (c c' : StringId) : Prop :=
  ∃ s, sourceStrings c = some s ∧ strings.tryResolve c' = some s

namespace PathInternerFork

variable {sourceTable : PathTable} {sourceStrings : StringId → Option String}

/-- Why a row behind the root is not carried over. -/
def RowRefused (sourceTable : PathTable) (sourceStrings : StringId → Option String)
    (into : Foreign) (mapped : List PathId) (index : Nat) : Prop :=
  idSpace ≤ index + 1 ∨
  ((sourceTable.tryParent ⟨index⟩).bind fun parent => mapped[parent.index]?) = none ∨
  (sourceTable.tryComponent ⟨index⟩).bind sourceStrings = none ∨
  ∃ place component, into.paths.tryInternChild place component = some .full

/-- A merge of foreign rows stops at one behind the root or carries it over. -/
theorem remapRowsFromStrings_cons {into next : Foreign} {mapped : List PathId} {index : Nat}
    {rest : List Nat} {result : Option (List PathId)} (hindex : 0 < index)
    (h : remapRowsFromStrings sourceTable sourceStrings into mapped (index :: rest) =
      some (result, next)) :
    (result = none ∧ next.paths = into.paths ∧
      RowRefused sourceTable sourceStrings into mapped index) ∨
    ∃ parent place component s id strings child paths,
      sourceTable.tryParent ⟨index⟩ = some parent ∧ mapped[parent.index]? = some place ∧
      sourceTable.tryComponent ⟨index⟩ = some component ∧ sourceStrings component = some s ∧
      into.strings.intern s = some (id, strings) ∧
      into.paths.tryInternChild place id = some (.child child paths) ∧
      remapRowsFromStrings sourceTable sourceStrings ⟨paths, strings⟩ (mapped ++ [child]) rest =
        some (result, next) := by
  rw [remapRowsFromStrings, PathId.tryFromIndex] at h
  split at h
  · next hid =>
      cases h
      refine .inl ⟨rfl, rfl, .inl ?_⟩
      split at hid
      · cases hid
      · omega
  · next old hold =>
      have hroot : old ≠ PathId.ROOT := by
        intro heq
        subst heq
        split at hold
        · have hzero := PathId.mk.inj (Option.some.inj hold)
          omega
        · cases hold
      have holdEq : old = ⟨index⟩ := by
        split at hold
        · exact (Option.some.inj hold).symm
        · cases hold
      subst holdEq
      rw [if_neg hroot] at h
      split at h
      · next hparent =>
          cases h
          exact .inl ⟨rfl, rfl, .inr (.inl hparent)⟩
      · next place hplace =>
          obtain ⟨parent, hparent, hplaced⟩ := Option.bind_eq_some_iff.1 hplace
          split at h
          · next hunresolved =>
              cases h
              exact .inl ⟨rfl, rfl, .inr (.inr (.inl hunresolved))⟩
          · next s hs =>
              obtain ⟨component, hcomponent, hresolved⟩ := Option.bind_eq_some_iff.1 hs
              split at h
              · cases h
              · next id strings hintern =>
                  split at h
                  · cases h
                  · next hfull =>
                      cases h
                      exact .inl ⟨rfl, rfl, .inr (.inr (.inr ⟨place, id, hfull⟩))⟩
                  · next child paths hchild =>
                      exact .inr ⟨parent, place, component, s, id, strings, child, paths,
                        hparent, hplaced, hcomponent, hresolved, hintern, hchild, h⟩

/-- In a table that stands for a trie only an unknown string or spent ids refuse a row. -/
theorem RowRefused.unresolved_or_full {into : Foreign} {source after : Trie StringId}
    {mapped : List PathId} {index : Nat}
    (h : RowRefused sourceTable sourceStrings into mapped index)
    (hsource : sourceTable.Represents source) (hrep : into.paths.Represents after)
    (hindex : 0 < index) (hlt : index < source.len) (hmapped : mapped.length = index) :
    (∃ component, source.HasComponent component ∧ sourceStrings component = none) ∨
      idSpace ≤ after.len + 1 := by
  have hbound := hsource.rows.bound
  rw [hsource.rows.len_eq] at hbound
  have hat : source.entries[index]? = some source.entries[index] := List.getElem?_eq_getElem hlt
  cases hentry : source.entries[index] with
  | none =>
      rw [hentry] at hat
      have hzero := Trie.eq_zero_of_root hat
      omega
  | some row =>
      obtain ⟨p, c⟩ := row
      rw [hentry] at hat
      have hearlier := source.earlier _ _ _ hat
      obtain hid | hplace | hunresolved | ⟨place, component, hfull⟩ := h
      · omega
      · rw [hsource.tryParent, hat] at hplace
        have hplace : mapped[p]? = none := hplace
        rw [List.getElem?_eq_none_iff] at hplace
        omega
      · rw [hsource.tryComponent, hat] at hunresolved
        exact .inl ⟨c, ⟨index, p, hat⟩, hunresolved⟩
      · exact .inr (tryInternChild_full hrep hfull)

theorem remappedParent_root {mapped : List PathId} {parent place : PathId}
    (h : (PathId.ROOT :: mapped)[parent.index]? = some place) :
    remappedParent 1 mapped parent = some place := by
  rw [remappedParent]
  cases hindex : parent.index with
  | zero =>
      rw [hindex] at h
      cases h
      rw [if_pos Nat.zero_lt_one]
      exact congrArg (fun i => some (PathId.mk i)) hindex
  | succ i =>
      rw [hindex, List.getElem?_cons_succ] at h
      rw [if_neg (by omega), Nat.add_sub_cancel]
      exact h

/-- Rows of a foreign table are carried over, with the strings of their components where the
destination strings can be trusted. -/
theorem remapRowsFromStrings_spec {source before : Trie StringId}
    (hsource : sourceTable.Represents source) (trusted : Prop) {count : Nat} :
    ∀ (into : Foreign) {after : Trie StringId} (mapped : List PathId),
    into.paths.Represents after → before.Extends after.toInterner →
    (trusted → into.strings.WellFormed ∧
      Trie.Merged source before after (SameString sourceStrings into.strings) 1
        (positions mapped)) →
    1 + mapped.length + count = source.len →
    ∀ {result : Option (List PathId)} {next : Foreign},
    remapRowsFromStrings sourceTable sourceStrings into (PathId.ROOT :: mapped)
      (List.range' (1 + mapped.length) count) = some (result, next) →
    ∃ final, next.paths.Represents final ∧ before.Extends final.toInterner ∧
      (result = none → (∃ component, source.HasComponent component ∧
        sourceStrings component = none) ∨ idSpace ≤ final.len + 1) ∧
      ∀ full, result = some full → ∃ mapped', full = PathId.ROOT :: mapped' ∧
        1 + mapped'.length = source.len ∧ (trusted → next.strings.WellFormed ∧
          Trie.Merged source before final (SameString sourceStrings next.strings) 1
            (positions mapped')) := by
  induction count with
  | zero =>
      intro into after mapped hrep hgrows hm hlen result next hrows
      cases hrows
      refine ⟨after, hrep, hgrows, nofun, fun full hfull => ?_⟩
      cases hfull
      exact ⟨mapped, rfl, hlen, hm⟩
  | succ count ih =>
      intro into after mapped hrep hgrows hm hlen result next hrows
      rw [List.range'_succ] at hrows
      obtain ⟨hnone, hpaths, hrefused⟩ | ⟨parent, place, component, s, id, strings, child, paths,
        hparent, hplaced, hcomponent, hresolved, hintern, hchild, hrest⟩ :=
          remapRowsFromStrings_cons (by omega) hrows
      · subst hnone
        rw [hpaths]
        refine ⟨after, hrep, hgrows, fun _ => ?_, fun full hfull => by cases hfull⟩
        refine hrefused.unresolved_or_full hsource hrep (by omega) (by omega) ?_
        rw [List.length_cons, Nat.add_comm]
      · obtain ⟨after', hrep', hext, hrow'⟩ := tryInternChild_spec hrep hchild
        have hm' : trusted → strings.WellFormed ∧ Trie.Merged source before after'
            (SameString sourceStrings strings) 1 (positions (mapped ++ [child])) := by
          intro htrusted
          obtain ⟨hwf, hmerged⟩ := hm htrusted
          obtain ⟨hwf', hkept⟩ := hwf.intern_kept hintern
          have hmono : ∀ c c', SameString sourceStrings into.strings c c' →
              SameString sourceStrings strings c c' := by
            intro c c' hsame
            obtain ⟨s', hs', hc'⟩ := hsame
            have hlt := (hwf.bijective.resolves c').2 (by rw [hc']; rfl)
            exact ⟨s', hs', (hkept.2 c' hlt).trans hc'⟩
          rw [hsource.tryParent] at hparent
          rw [hsource.tryComponent] at hcomponent
          obtain ⟨⟨p, c⟩, hrow, hp⟩ := Option.map_eq_some_iff.1 hparent
          rw [hrow] at hcomponent
          cases hp
          cases hcomponent
          rw [positions, List.map_append]
          refine ⟨hwf', (hmerged.mono hmono).push hext ?_
            (remapped_positions (remappedParent_root hplaced))
            ⟨s, hresolved, hwf.bijective.resolve_intern s id strings (.inl hintern)⟩ hrow'⟩
          rw [List.length_map]
          exact Option.join_eq_some_iff.1 hrow
        have hlength : 1 + (mapped ++ [child]).length = 1 + mapped.length + 1 := by
          rw [List.length_append, List.length_singleton, Nat.add_assoc]
        exact ih ⟨paths, strings⟩ (mapped ++ [child]) hrep'
          (hgrows.trans hext) hm' (by omega) (by rw [hlength]; exact hrest)

/-- A merge of a foreign table grows the fork; when it answers, every row is carried over with
the string of its component. -/
theorem remapTableFromStrings_spec {fork : PathInternerFork} {source before : Trie StringId}
    (h : fork.Represents before) (hsource : sourceTable.Represents source)
    {destinationStrings : StringTable} {result : Option PathIdRemap} {next : Foreign}
    (hremap : fork.remapTableFromStrings sourceTable sourceStrings destinationStrings =
      some (result, next)) :
    ∃ final, next.paths.Represents final ∧ before.Extends final.toInterner ∧
      (result = none → (∃ component, source.HasComponent component ∧
        sourceStrings component = none) ∨ idSpace ≤ final.len + 1) ∧
      ∀ remap, result = some remap →
        (remap.isIdentity = true ↔
          ∀ path, path.index < source.len → remap.get path = some path) ∧
        (destinationStrings.WellFormed →
          Carries source final (SameString sourceStrings next.strings) remap) := by
  obtain ⟨⟨answer, next'⟩, hrows, heq⟩ := Option.map_eq_some_iff.1 hremap
  cases heq
  have hpos : 0 < source.len := (List.getElem?_eq_some_iff.1 source.root).1
  obtain ⟨count, hcount⟩ := Nat.exists_eq_add_of_lt hpos
  rw [Nat.zero_add] at hcount
  have hbehind : remapRowsFromStrings sourceTable sourceStrings ⟨fork, destinationStrings⟩
      (PathId.ROOT :: []) (List.range' (1 + 0) count) = some (answer, next) := by
    rw [hsource.len_eq, hcount, List.range_eq_range', List.range'_succ, remapRowsFromStrings]
      at hrows
    exact hrows
  obtain ⟨final, hfinal, hgrows, hrefused, hfull⟩ := remapRowsFromStrings_spec hsource
    destinationStrings.WellFormed ⟨fork, destinationStrings⟩ [] h (Interner.Extends.refl _)
    (fun hwf => ⟨hwf, Trie.Merged.nil source before _ 1⟩)
    (by show 1 + 0 + count = _; omega) hbehind
  refine ⟨final, hfinal, hgrows, fun hnone => hrefused (Option.map_eq_none_iff.1 hnone),
    fun remap hsome => ?_⟩
  obtain ⟨full, hanswer, hremapEq⟩ := Option.map_eq_some_iff.1 hsome
  obtain ⟨mapped, hmapped, hlen, hcarried⟩ := hfull full hanswer
  subst hremapEq
  subst hmapped
  have hget : ∀ path, (PathIdRemap.fromFull (PathId.ROOT :: mapped)).get path =
      (PathIdRemap.mk 1 mapped false).get path := by
    intro path
    rw [PathIdRemap.get, PathIdRemap.get]
    cases hindex : path.index with
    | zero => exact congrArg some (congrArg PathId.mk hindex.symm)
    | succ i => rfl
  refine ⟨?_, fun hwf => ?_⟩
  · show ((PathId.ROOT :: mapped).zipIdx.all fun row => row.1.index == row.2) = true ↔ _
    have hflag := all_zipIdx_iff (PathId.ROOT :: mapped) 0
    simp only [Nat.zero_add] at hflag
    rw [hflag]
    refine get_identity_iff (PathIdRemap.fromFull (PathId.ROOT :: mapped)) ?_
    show 0 + (mapped.length + 1) = source.len
    omega
  · have hsame : Carries source final (SameString sourceStrings next.strings)
        (PathIdRemap.mk 1 mapped false) := by
      refine Carries.of_merged _ (hcarried hwf).2 Nat.zero_lt_one hlen
        fun i hi p c hrow => ?_
      have hzero : i = 0 := Nat.lt_one_iff.1 hi
      subst hzero
      rw [source.root] at hrow
      cases hrow
    have hfun : (fun i => ((PathIdRemap.fromFull (PathId.ROOT :: mapped)).get ⟨i⟩).map
        PathId.index) = fun i => ((PathIdRemap.mk 1 mapped false).get ⟨i⟩).map PathId.index :=
      funext fun i => by rw [hget]
    rw [Carries, hfun]
    exact hsame

end PathInternerFork

end Moth.Symbols
