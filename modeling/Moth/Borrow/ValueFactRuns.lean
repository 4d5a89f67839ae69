import Moth.Lib.Table
import Moth.Borrow.Engine

/-!
# What a buffered row has seen

The buffer of one block is driven by calls: each statement and the terminator
makes some, and then finishes its use. What the calls say of one expression is
its observations, use by use, and a row holds no more than that: whether any
access read or mutated, which roots were named, and what the finished uses
ended with. Within a use a missing attempt is neutral; across uses it is not.
-/

/-!
## The value facts of one block

`ValueFactBuffer` of `facts.rs`: one row for each expression that the transfer
of a block touches. A row is read within one use context at a time, a
statement or the terminator, and what a use says about optional transfer is
merged into the row when the use is finished: a use that only read the row
declines the permission that another use would grant.

The hash map of the buffer is a list of rows with distinct keys, in the order
in which they were first touched; nothing depends on that order.
-/

namespace Moth.Borrow

open Moth.Hir

variable {n : Nat}

structure BufferedValueFact (n : Nat) where
  classification : ValueAccessClassification
  roots : RootSet n
  currentUseTransfer : OptionalTransferStatus
  completedUseTransfer : Option OptionalTransferStatus
  observedInCurrentUse : Bool
deriving DecidableEq

namespace BufferedValueFact

def new (n : Nat) : BufferedValueFact n := ⟨.None, ∅, .NotAttempted, none, false⟩

def observe (self : BufferedValueFact n) : BufferedValueFact n :=
  { self with observedInCurrentUse := true }

def addAccess (classification : ValueAccessClassification) (roots : RootSet n)
    (self : BufferedValueFact n) : BufferedValueFact n :=
  { self with
    classification := self.classification.merge classification
    roots := self.roots ∪ roots }

def addTransfer (status : OptionalTransferStatus) (roots : RootSet n)
    (self : BufferedValueFact n) : BufferedValueFact n :=
  { self with
    roots := self.roots ∪ roots
    currentUseTransfer := self.currentUseTransfer.merge status }

/-- The end of a use that touched this row. -/
def finish (self : BufferedValueFact n) : BufferedValueFact n :=
  { self with
    completedUseTransfer := some (match self.completedUseTransfer with
      | some completed => completed.mergeCompletedUse self.currentUseTransfer
      | none => self.currentUseTransfer)
    currentUseTransfer := .NotAttempted
    observedInCurrentUse := false }

end BufferedValueFact

structure ValueFactBuffer (n : Nat) where
  facts : List (HirValueId × BufferedValueFact n)
  currentUseValues : List HirValueId
deriving DecidableEq

def rootsToLocalIds (layout : FunctionLayout n) (roots : RootSet n) : List LocalId :=
  roots.iterOnes.map layout.localIds

namespace ValueFactBuffer

def new (n : Nat) : ValueFactBuffer n := ⟨[], []⟩

/-- Change the row of a value where there is one. -/
def modifyFact (facts : List (HirValueId × BufferedValueFact n)) (value : HirValueId)
    (change : BufferedValueFact n → BufferedValueFact n) :
    List (HirValueId × BufferedValueFact n) :=
  facts.map fun row => if row.1 = value then (value, change row.2) else row

/-- Change the row of a value within the current use, which has touched it from now on. -/
def entryForCurrentUse (self : ValueFactBuffer n) (value : HirValueId)
    (change : BufferedValueFact n → BufferedValueFact n) : ValueFactBuffer n :=
  match self.facts.lookup value with
  | some entry =>
      { facts := modifyFact self.facts value fun row => change row.observe
        currentUseValues :=
          if entry.observedInCurrentUse then self.currentUseValues
          else self.currentUseValues ++ [value] }
  | none =>
      { facts := self.facts ++ [(value, change (BufferedValueFact.new n).observe)]
        currentUseValues := self.currentUseValues ++ [value] }

def record (self : ValueFactBuffer n) (value : HirValueId)
    (classification : ValueAccessClassification) (roots : RootSet n) : ValueFactBuffer n :=
  self.entryForCurrentUse value (.addAccess classification roots)

def recordOptionalTransfer (self : ValueFactBuffer n) (value : HirValueId)
    (status : OptionalTransferStatus) (roots : RootSet n) : ValueFactBuffer n :=
  self.entryForCurrentUse value (.addTransfer status roots)

/-- Finish collecting one statement or terminator use context. -/
def finishUse (self : ValueFactBuffer n) : ValueFactBuffer n where
  facts := self.currentUseValues.foldl (fun facts value => modifyFact facts value .finish)
    self.facts
  currentUseValues := []

/-- The rows as facts. A finished use has touched every row by now, so that the default is never
taken. -/
def intoSerialized (self : ValueFactBuffer n) (layout : FunctionLayout n) :
    List (HirValueId × ValueBorrowFact) :=
  self.facts.map fun row =>
    (row.1, {
      classification := row.2.classification
      roots := rootsToLocalIds layout row.2.roots
      optionalTransfer := row.2.completedUseTransfer.getD .NotAttempted })

end ValueFactBuffer

end Moth.Borrow

namespace Moth.Borrow

open Moth.Hir Moth.Lib

/-! ## Lattices of evidence -/

namespace ValueAccessClassification

def includesRead : ValueAccessClassification → Bool
  | .SharedRead | .Mixed => true
  | .None | .MutableArgument => false

def includesMutable : ValueAccessClassification → Bool
  | .MutableArgument | .Mixed => true
  | .None | .SharedRead => false

@[simp] theorem merge_includesRead (a b : ValueAccessClassification) :
    (a.merge b).includesRead = (a.includesRead || b.includesRead) := by
  cases a <;> cases b <;> rfl

@[simp] theorem merge_includesMutable (a b : ValueAccessClassification) :
    (a.merge b).includesMutable = (a.includesMutable || b.includesMutable) := by
  cases a <;> cases b <;> rfl

theorem ext_includes {a b : ValueAccessClassification} (hread : a.includesRead = b.includesRead)
    (hmutable : a.includesMutable = b.includesMutable) : a = b := by
  revert hread hmutable
  cases a <;> cases b <;> simp [includesRead, includesMutable]

end ValueAccessClassification

/-- The status of several completed uses: an attempt is published only where every use agrees. -/
structure StatusOf (ended : List OptionalTransferStatus) (status : OptionalTransferStatus) :
    Prop where
  transfer : status = .Transfer ↔ ∀ s ∈ ended, s = .Transfer
  notAttempted : status = .NotAttempted ↔ ∀ s ∈ ended, s = .NotAttempted

namespace StatusOf

variable {ended other : List OptionalTransferStatus} {a b : OptionalTransferStatus}

theorem single (status : OptionalTransferStatus) : StatusOf [status] status := by
  constructor <;> simp

theorem merge (ha : StatusOf ended a) (hb : StatusOf other b) :
    StatusOf (ended ++ other) (a.mergeCompletedUse b) := by
  have htransfer : a.mergeCompletedUse b = .Transfer ↔ a = .Transfer ∧ b = .Transfer := by
    cases a <;> cases b <;> simp [OptionalTransferStatus.mergeCompletedUse]
  have hnone : a.mergeCompletedUse b = .NotAttempted ↔
      a = .NotAttempted ∧ b = .NotAttempted := by
    cases a <;> cases b <;> simp [OptionalTransferStatus.mergeCompletedUse]
  constructor
  · rw [htransfer, ha.transfer, hb.transfer, List.forall_mem_append]
  · rw [hnone, ha.notAttempted, hb.notAttempted, List.forall_mem_append]

theorem unique (ha : StatusOf ended a) (hb : StatusOf other b)
    (hsame : ∀ s, s ∈ ended ↔ s ∈ other) : a = b := by
  have htransfer : a = .Transfer ↔ b = .Transfer := by
    rw [ha.transfer, hb.transfer]
    exact forall_congr' fun s => by rw [hsame]
  have hnone : a = .NotAttempted ↔ b = .NotAttempted := by
    rw [ha.notAttempted, hb.notAttempted]
    exact forall_congr' fun s => by rw [hsame]
  revert htransfer hnone
  cases a <;> cases b <;> simp

end StatusOf

/-! ## Calls and observations -/

/-- One call into the buffer: an access of a row, or an attempt to transfer its roots. -/
inductive ValueEvent (n : Nat) where
  | Access (value : HirValueId) (classification : ValueAccessClassification) (roots : RootSet n)
  | Attempt (value : HirValueId) (status : OptionalTransferStatus) (roots : RootSet n)
deriving DecidableEq

/-- What one call says of its row. -/
structure ValueObservation where
  classification : ValueAccessClassification
  status : OptionalTransferStatus
  roots : List LocalId
deriving DecidableEq

variable {n : Nat}

namespace ValueEvent

def value : ValueEvent n → HirValueId
  | .Access value _ _ | .Attempt value _ _ => value

/-- An access attempts no transfer and an attempt is no access. -/
def observation (layout : FunctionLayout n) : ValueEvent n → ValueObservation
  | .Access _ classification roots =>
      ⟨classification, .NotAttempted, rootsToLocalIds layout roots⟩
  | .Attempt _ status roots => ⟨.None, status, rootsToLocalIds layout roots⟩

/-- The change that the call makes to its row. -/
def change : ValueEvent n → BufferedValueFact n → BufferedValueFact n
  | .Access _ classification roots => .addAccess classification roots
  | .Attempt _ status roots => .addTransfer status roots

end ValueEvent

namespace ValueFactBuffer

def apply (self : ValueFactBuffer n) : ValueEvent n → ValueFactBuffer n
  | .Access value classification roots => self.record value classification roots
  | .Attempt value status roots => self.recordOptionalTransfer value status roots

/-- The calls of one statement or terminator, to the end of its use. -/
def runUse (self : ValueFactBuffer n) (use : List (ValueEvent n)) : ValueFactBuffer n :=
  (use.foldl apply self).finishUse

theorem apply_eq (self : ValueFactBuffer n) (event : ValueEvent n) :
    self.apply event = self.entryForCurrentUse event.value event.change := by
  cases event <;> rfl

end ValueFactBuffer

/-- The value facts of a block whose statements and terminator make the given calls. -/
def bufferedFacts (layout : FunctionLayout n) (uses : List (List (ValueEvent n))) :
    List (HirValueId × ValueBorrowFact) :=
  (uses.foldl ValueFactBuffer.runUse (.new n)).intoSerialized layout

/-- What one use says of a row: nothing where it leaves the row alone. -/
def observations (layout : FunctionLayout n) (value : HirValueId) (use : List (ValueEvent n)) :
    List ValueObservation :=
  (use.filter fun event => event.value = value).map fun event => event.observation layout

/-- The uses among several that touch a row. -/
def observedUses (layout : FunctionLayout n) (value : HirValueId)
    (uses : List (List (ValueEvent n))) : List (List ValueObservation) :=
  (uses.map (observations layout value)).filter fun use => use ≠ []

/-- The transfer status at the end of a use: a call without an attempt is neutral. -/
def endedWith (use : List ValueObservation) : OptionalTransferStatus :=
  use.foldl (fun status seen => status.merge seen.status) .NotAttempted

theorem mem_rootsToLocalIds {layout : FunctionLayout n} {roots : RootSet n} {target : LocalId} :
    target ∈ rootsToLocalIds layout roots ↔ ∃ i ∈ roots, layout.localIds i = target := by
  simp [rootsToLocalIds]

theorem mem_rootsToLocalIds_union {layout : FunctionLayout n} {a b : RootSet n}
    {target : LocalId} :
    target ∈ rootsToLocalIds layout (a ∪ b) ↔
      target ∈ rootsToLocalIds layout a ∨ target ∈ rootsToLocalIds layout b := by
  simp only [mem_rootsToLocalIds, Finset.mem_union, or_and_right, exists_or]

/-! ## Rows -/

/-- What a row holds of the finished uses that touched it and of the current one. -/
structure RowOf (layout : FunctionLayout n) (done : List (List ValueObservation))
    (current : List ValueObservation) (row : BufferedValueFact n) : Prop where
  reads : row.classification.includesRead = true ↔
    ∃ seen ∈ done.flatten ++ current, seen.classification.includesRead = true
  mutates : row.classification.includesMutable = true ↔
    ∃ seen ∈ done.flatten ++ current, seen.classification.includesMutable = true
  roots : ∀ target, target ∈ rootsToLocalIds layout row.roots ↔
    ∃ seen ∈ done.flatten ++ current, target ∈ seen.roots
  current_ended : row.currentUseTransfer = endedWith current
  observed : row.observedInCurrentUse = true ↔ current ≠ []
  unfinished : row.completedUseTransfer = none → done = []
  finished : ∀ status, row.completedUseTransfer = some status →
    done ≠ [] ∧ StatusOf (done.map endedWith) status

namespace RowOf

variable {layout : FunctionLayout n} {done : List (List ValueObservation)}
  {current : List ValueObservation} {row : BufferedValueFact n}

theorem new (layout : FunctionLayout n) : RowOf layout [] [] (.new n) where
  reads := by simp [BufferedValueFact.new, ValueAccessClassification.includesRead]
  mutates := by simp [BufferedValueFact.new, ValueAccessClassification.includesMutable]
  roots target := by simp [BufferedValueFact.new, rootsToLocalIds, RootSet.iterOnes]
  current_ended := rfl
  observed := by simp [BufferedValueFact.new]
  unfinished _ := rfl
  finished status h := by cases h

/-- A call adds its observation to the current use. -/
theorem touch (h : RowOf layout done current row) (event : ValueEvent n) :
    RowOf layout done (current ++ [event.observation layout]) (event.change row.observe) := by
  have hended : endedWith (current ++ [event.observation layout]) =
      (endedWith current).merge (event.observation layout).status := by
    simp [endedWith]
  have hsplit : ∀ P : ValueObservation → Prop,
      (∃ seen ∈ done.flatten ++ (current ++ [event.observation layout]), P seen) ↔
        (∃ seen ∈ done.flatten ++ current, P seen) ∨ P (event.observation layout) := by
    intro P
    simp only [← List.append_assoc, List.mem_append, List.mem_singleton, or_and_right, exists_or,
      exists_eq_left]
  constructor
  · rw [hsplit, ← h.reads]
    cases event with
    | Access value classification roots =>
        show (row.classification.merge classification).includesRead = true ↔ _
        simp [ValueEvent.observation]
    | Attempt value status roots =>
        show row.classification.includesRead = true ↔ _
        simp [ValueEvent.observation, ValueAccessClassification.includesRead]
  · rw [hsplit, ← h.mutates]
    cases event with
    | Access value classification roots =>
        show (row.classification.merge classification).includesMutable = true ↔ _
        simp [ValueEvent.observation]
    | Attempt value status roots =>
        show row.classification.includesMutable = true ↔ _
        simp [ValueEvent.observation, ValueAccessClassification.includesMutable]
  · intro target
    rw [hsplit, ← h.roots]
    cases event with
    | Access value classification roots => exact mem_rootsToLocalIds_union
    | Attempt value status roots => exact mem_rootsToLocalIds_union
  · rw [hended, ← h.current_ended]
    cases event with
    | Access value classification roots =>
        show row.currentUseTransfer = row.currentUseTransfer.merge .NotAttempted
        cases row.currentUseTransfer <;> rfl
    | Attempt value status roots => rfl
  · have hnonempty : current ++ [event.observation layout] ≠ [] := by simp
    cases event <;> exact ⟨fun _ => hnonempty, fun _ => rfl⟩
  · cases event <;> exact h.unfinished
  · cases event <;> exact h.finished

theorem finish (h : RowOf layout done current row) :
    RowOf layout (done ++ [current]) [] row.finish := by
  have hflat : (done ++ [current]).flatten ++ [] = done.flatten ++ current := by simp
  constructor
  · rw [hflat]
    exact h.reads
  · rw [hflat]
    exact h.mutates
  · rw [hflat]
    exact h.roots
  · rfl
  · simp [BufferedValueFact.finish]
  · intro hnone
    cases hnone
  · intro status hstatus
    refine ⟨by simp, ?_⟩
    have hvalue := Option.some.inj hstatus
    rw [← hvalue, h.current_ended, List.map_append, List.map_singleton]
    cases hdone : row.completedUseTransfer with
    | none =>
        rw [h.unfinished hdone]
        exact StatusOf.single _
    | some completed => exact (h.finished completed hdone).2.merge (StatusOf.single _)

end RowOf

/-! ## The buffer -/

/-- Every row holds what the calls said of it, and a value without a row was not touched. -/
structure BufferOf (layout : FunctionLayout n) (done : List (List (ValueEvent n)))
    (current : List (ValueEvent n)) (buffer : ValueFactBuffer n) : Prop where
  keys : (buffer.facts.map Prod.fst).Nodup
  pending_nodup : buffer.currentUseValues.Nodup
  pending : ∀ value, value ∈ buffer.currentUseValues ↔ observations layout value current ≠ []
  untouched : ∀ value, buffer.facts.lookup value = none →
    observedUses layout value done = [] ∧ observations layout value current = []
  row : ∀ value row, buffer.facts.lookup value = some row →
    RowOf layout (observedUses layout value done) (observations layout value current) row ∧
      (observedUses layout value done ≠ [] ∨ observations layout value current ≠ [])

theorem observations_append {layout : FunctionLayout n} {value : HirValueId}
    {use : List (ValueEvent n)} {event : ValueEvent n} :
    observations layout value (use ++ [event]) =
      observations layout value use ++
        if event.value = value then [event.observation layout] else [] := by
  simp only [observations, List.filter_append, List.map_append]
  by_cases heq : event.value = value <;> simp [heq]

theorem observedUses_append {layout : FunctionLayout n} {value : HirValueId}
    {done : List (List (ValueEvent n))} {use : List (ValueEvent n)} :
    observedUses layout value (done ++ [use]) =
      observedUses layout value done ++
        if observations layout value use ≠ [] then [observations layout value use] else [] := by
  simp only [observedUses, List.map_append, List.filter_append]
  by_cases heq : observations layout value use = [] <;> simp [heq]

theorem modifyFact_keys (facts : List (HirValueId × BufferedValueFact n)) (value : HirValueId)
    (change : BufferedValueFact n → BufferedValueFact n) :
    (ValueFactBuffer.modifyFact facts value change).map Prod.fst = facts.map Prod.fst := by
  rw [ValueFactBuffer.modifyFact, List.map_map]
  refine List.map_congr_left fun row _ => ?_
  by_cases heq : row.1 = value <;> simp [heq]

theorem modifyFact_lookup (facts : List (HirValueId × BufferedValueFact n))
    (changed value : HirValueId) (change : BufferedValueFact n → BufferedValueFact n) :
    (ValueFactBuffer.modifyFact facts changed change).lookup value =
      if value = changed then (facts.lookup changed).map change else facts.lookup value :=
  lookup_map_modify

namespace BufferOf

variable {layout : FunctionLayout n} {done : List (List (ValueEvent n))}
  {current : List (ValueEvent n)} {buffer : ValueFactBuffer n}

theorem new (layout : FunctionLayout n) : BufferOf layout [] [] (.new n) where
  keys := List.nodup_nil
  pending_nodup := List.nodup_nil
  pending value := by simp [ValueFactBuffer.new, observations]
  untouched _ _ := ⟨rfl, rfl⟩
  row value row h := by cases h

/-- The row that a call leaves, and the rows it leaves alone. -/
theorem apply_lookup (buffer : ValueFactBuffer n) (event : ValueEvent n) (value : HirValueId) :
    (buffer.apply event).facts.lookup value =
      if value = event.value then
        some (event.change
          ((buffer.facts.lookup event.value).getD (BufferedValueFact.new n)).observe)
      else buffer.facts.lookup value := by
  rw [ValueFactBuffer.apply_eq, ValueFactBuffer.entryForCurrentUse]
  cases hentry : buffer.facts.lookup event.value with
  | some entry =>
      simp only
      rw [modifyFact_lookup, hentry]
      rfl
  | none =>
      simp only [List.lookup_append]
      by_cases heq : value = event.value
      · subst heq
        simp [hentry]
      · have hne : (value == event.value) = false := by simpa using heq
        simp [List.lookup_cons, hne, heq]

theorem apply_pending (h : BufferOf layout done current buffer) (event : ValueEvent n) :
    (buffer.apply event).currentUseValues =
      if observations layout event.value current = [] then
        buffer.currentUseValues ++ [event.value]
      else buffer.currentUseValues := by
  rw [ValueFactBuffer.apply_eq, ValueFactBuffer.entryForCurrentUse]
  cases hentry : buffer.facts.lookup event.value with
  | none =>
      rw [if_pos (h.untouched event.value hentry).2]
  | some entry =>
      have hobserved := (h.row event.value entry hentry).1.observed
      simp only
      by_cases hempty : observations layout event.value current = []
      · have hfresh : entry.observedInCurrentUse ≠ true := fun htrue => hobserved.1 htrue hempty
        rw [if_neg hfresh, if_pos hempty]
      · rw [if_pos (hobserved.2 hempty), if_neg hempty]

theorem apply_keys (h : BufferOf layout done current buffer) (event : ValueEvent n) :
    ((buffer.apply event).facts.map Prod.fst).Nodup := by
  rw [ValueFactBuffer.apply_eq, ValueFactBuffer.entryForCurrentUse]
  cases hentry : buffer.facts.lookup event.value with
  | some entry =>
      simp only [modifyFact_keys]
      exact h.keys
  | none =>
      have hfresh := lookup_eq_none_iff_notMem.1 hentry
      simp only [List.map_append, List.map_singleton]
      refine List.nodup_append.2 ⟨h.keys, List.nodup_singleton _, fun a ha b hb => ?_⟩
      rw [List.mem_singleton.1 hb]
      exact fun heq => hfresh (heq ▸ ha)

/-- One call. -/
theorem apply (h : BufferOf layout done current buffer) (event : ValueEvent n) :
    BufferOf layout done (current ++ [event]) (buffer.apply event) := by
  have hother : ∀ value, value ≠ event.value →
      observations layout value (current ++ [event]) = observations layout value current := by
    intro value hne
    rw [observations_append, if_neg (Ne.symm hne), List.append_nil]
  have hown : observations layout event.value (current ++ [event]) =
      observations layout event.value current ++ [event.observation layout] := by
    rw [observations_append, if_pos rfl]
  have hownNonempty : observations layout event.value (current ++ [event]) ≠ [] := by
    rw [hown]
    simp
  refine ⟨h.apply_keys event, ?_, fun value => ?_, fun value hnone => ?_,
    fun value row hrow => ?_⟩
  · rw [h.apply_pending event]
    split
    · next hempty =>
        refine List.nodup_append.2 ⟨h.pending_nodup, List.nodup_singleton _, fun a ha b hb => ?_⟩
        rw [List.mem_singleton.1 hb]
        intro heq
        exact (h.pending event.value).1 (heq ▸ ha) hempty
    · exact h.pending_nodup
  · rw [h.apply_pending event]
    by_cases heq : value = event.value
    · subst heq
      refine ⟨fun _ => hownNonempty, fun _ => ?_⟩
      split
      · exact List.mem_append_right _ List.mem_cons_self
      · next hsome => exact (h.pending event.value).2 hsome
    · rw [hother value heq, ← h.pending value]
      split
      · simp [heq]
      · exact Iff.rfl
  · rw [apply_lookup] at hnone
    by_cases heq : value = event.value
    · rw [if_pos heq] at hnone
      cases hnone
    · rw [if_neg heq] at hnone
      rw [hother value heq]
      exact h.untouched value hnone
  · rw [apply_lookup] at hrow
    by_cases heq : value = event.value
    · subst heq
      rw [if_pos rfl] at hrow
      rw [← Option.some.inj hrow]
      refine ⟨?_, Or.inr hownNonempty⟩
      rw [hown]
      cases hentry : buffer.facts.lookup event.value with
      | some entry => exact (h.row event.value entry hentry).1.touch event
      | none =>
          obtain ⟨hdone, hcurrent⟩ := h.untouched event.value hentry
          rw [hdone, hcurrent]
          exact (RowOf.new layout).touch event
    · rw [if_neg heq] at hrow
      rw [hother value heq]
      exact h.row value row hrow

theorem foldl_finish_lookup {values : List HirValueId} (hnodup : values.Nodup)
    (facts : List (HirValueId × BufferedValueFact n)) (value : HirValueId) :
    (values.foldl (fun facts value => ValueFactBuffer.modifyFact facts value .finish)
        facts).lookup value =
      if value ∈ values then (facts.lookup value).map .finish else facts.lookup value := by
  induction values generalizing facts with
  | nil => simp
  | cons first rest ih =>
      obtain ⟨hfirst, hrest⟩ := List.nodup_cons.1 hnodup
      rw [List.foldl_cons, ih hrest, modifyFact_lookup]
      by_cases heq : value = first
      · subst heq
        simp [hfirst]
      · simp [heq]

theorem foldl_finish_keys (values : List HirValueId)
    (facts : List (HirValueId × BufferedValueFact n)) :
    (values.foldl (fun facts value => ValueFactBuffer.modifyFact facts value .finish)
      facts).map Prod.fst = facts.map Prod.fst := by
  induction values generalizing facts with
  | nil => rfl
  | cons first rest ih => rw [List.foldl_cons, ih, modifyFact_keys]

/-- The end of a use. -/
theorem finish (h : BufferOf layout done current buffer) :
    BufferOf layout (done ++ [current]) [] buffer.finishUse := by
  have hlookup := foldl_finish_lookup h.pending_nodup buffer.facts
  refine ⟨?_, List.nodup_nil, fun value => by simp [ValueFactBuffer.finishUse, observations],
    fun value hnone => ⟨?_, rfl⟩, fun value row hrow => ?_⟩
  · simp only [ValueFactBuffer.finishUse, foldl_finish_keys]
    exact h.keys
  · simp only [ValueFactBuffer.finishUse, hlookup] at hnone
    have hbefore : buffer.facts.lookup value = none := by
      split at hnone
      · exact Option.map_eq_none_iff.1 hnone
      · exact hnone
    obtain ⟨hdone, hcurrent⟩ := h.untouched value hbefore
    rw [observedUses_append, hdone, hcurrent]
    rfl
  · simp only [ValueFactBuffer.finishUse, hlookup] at hrow
    rw [observedUses_append]
    by_cases hpending : value ∈ buffer.currentUseValues
    · rw [if_pos hpending] at hrow
      obtain ⟨before, hbefore, rfl⟩ := Option.map_eq_some_iff.1 hrow
      rw [if_pos ((h.pending value).1 hpending)]
      exact ⟨(h.row value before hbefore).1.finish, Or.inl (by simp)⟩
    · rw [if_neg hpending] at hrow
      obtain ⟨hbefore, htouched⟩ := h.row value row hrow
      have hempty : observations layout value current = [] :=
        not_not.1 fun hne => hpending ((h.pending value).2 hne)
      rw [hempty] at hbefore htouched
      rw [hempty, if_neg (not_not.2 rfl), List.append_nil]
      exact ⟨hbefore, Or.inl (htouched.resolve_right (not_not.2 rfl))⟩

theorem use (h : BufferOf layout done [] buffer) (events : List (ValueEvent n)) :
    BufferOf layout (done ++ [events]) [] (buffer.runUse events) := by
  have hgen : ∀ later current buffer, BufferOf layout done current buffer →
      BufferOf layout done (current ++ later) (later.foldl ValueFactBuffer.apply buffer) := by
    intro later
    induction later with
    | nil =>
        intro current buffer hcurrent
        rw [List.append_nil]
        exact hcurrent
    | cons event rest ih =>
        intro current buffer hcurrent
        have hnext := ih _ _ (hcurrent.apply event)
        rw [List.append_assoc] at hnext
        exact hnext
  have hall := hgen events [] buffer h
  rw [List.nil_append] at hall
  exact hall.finish

theorem uses (layout : FunctionLayout n) (uses : List (List (ValueEvent n))) :
    BufferOf layout uses [] (uses.foldl ValueFactBuffer.runUse (.new n)) := by
  have hgen : ∀ later done buffer, BufferOf layout done [] buffer →
      BufferOf layout (done ++ later) [] (later.foldl ValueFactBuffer.runUse buffer) := by
    intro later
    induction later with
    | nil =>
        intro done buffer hdone
        rw [List.append_nil]
        exact hdone
    | cons events rest ih =>
        intro done buffer hdone
        have hnext := ih _ _ (hdone.use events)
        rw [List.append_assoc] at hnext
        exact hnext
  have hall := hgen uses [] _ (BufferOf.new layout)
  rw [List.nil_append] at hall
  exact hall

end BufferOf

end Moth.Borrow
