import Moth.Js.Bindings
import Moth.Js.Identifiers
import Moth.Lib.Table
import Moth.Lib.Result

/-!
# Jump arguments in JavaScript

`emit_jump_argument_transfer` of `js_function.rs`: every source is read into a
constant before any destination is bound, and each destination gets a binding
of its own.

A destination is bound anew and not written through. What aliased its old
binding keeps the old value, and so does a local that was another name for it.
-/

namespace Moth.Js

open Moth.Hir Moth.Lib

/-- `InfrastructureFailure::internal` of the backend lowering stage. -/
inductive JsInternalFailure where
  | internal (message : String)
deriving DecidableEq

/-- The lines of a transfer. -/
inductive TransferStmt where
  | constRead (name source : String)
  | assignBinding (destination captured : String)
deriving DecidableEq

/-! ## Emission -/

def localName (names : JsNames) (l : LocalId) : Except JsInternalFailure String :=
  match names.localNameById l with
  | some name => .ok name
  | none => .error (.internal
      ("JavaScript backend: missing local symbol for LocalId(" ++ toString l.index ++ ")"))

/-- The stem of the captured names, `__jump_arg`. -/
def jumpArgStem : String := String.ofList ('_' :: "_jump_arg".toList)

/-- The first loop: a constant for each source. -/
def captureArguments : JsNames → List HirJumpArgument →
    Except JsInternalFailure (List TransferStmt × List String × JsNames)
  | names, [] => .ok ([], [], names)
  | names, argument :: rest => do
      let source ← localName names argument.source
      let (captured, names) := names.nextTempIdentifier jumpArgStem
      let (statements, later, names) ← captureArguments names rest
      .ok (.constRead captured source :: statements, captured :: later, names)

/-- The second loop: a fresh binding for each destination. -/
def assignArguments (names : JsNames) (args : List (HirJumpArgument × String)) :
    Except JsInternalFailure (List TransferStmt) :=
  args.mapM fun row => do
    let destination ← localName names row.1.destination
    .ok (.assignBinding destination row.2)

def emitJumpArgumentTransfer (names : JsNames) (args : List HirJumpArgument) :
    Except JsInternalFailure (List TransferStmt × JsNames) :=
  if args.isEmpty then .ok ([], names)
  else do
    let (captures, captured, names) ← captureArguments names args
    let assignments ← assignArguments names (args.zip captured)
    .ok (captures ++ assignments, names)

/-! ## Running the lines -/

section Running

variable {Val Key : Type}

/-- What a JavaScript variable in scope holds. -/
inductive Variable (Val : Type) where
  | reference (ref : Nat)
  | value (value : Val)

/-- The variables in scope; an undefined one holds nothing. -/
structure BindingState (Val Key : Type) where
  heap : BindingHeap Val Key
  scope : String → Option (Variable Val)
  allocated : ∀ (name : String) (ref : Nat), scope name = some (.reference ref) →
    ref < heap.records.length

namespace BindingState

theorem declare_allocated (s : BindingState Val Key) (name : String) (value : Val) (other : String)
    (ref : Nat) (h : Function.update s.scope name (some (.value value)) other =
      some (.reference ref)) : ref < s.heap.records.length := by
  rw [Function.update_apply] at h
  split at h
  · cases h
  · exact s.allocated other ref h

/-- `const name = value;` -/
def declare (s : BindingState Val Key) (name : String) (value : Val) : BindingState Val Key where
  heap := s.heap
  scope := Function.update s.scope name (some (.value value))
  allocated := s.declare_allocated name value

theorem bind_allocated (s : BindingState Val Key) (name : String) (value : Val) (other : String)
    (ref : Nat) (h : Function.update s.scope name (some (.reference s.heap.records.length)) other =
      some (.reference ref)) : ref < (s.heap.binding value).records.length := by
  show ref < (s.heap.records ++ [_]).length
  rw [List.length_append, List.length_singleton]
  rw [Function.update_apply] at h
  split at h
  · cases h
    exact Nat.lt_succ_self _
  · exact Nat.lt_succ_of_lt (s.allocated other ref h)

/-- `name = __moth_binding(value);` -/
def bind (s : BindingState Val Key) (name : String) (value : Val) : BindingState Val Key where
  heap := s.heap.binding value
  scope := Function.update s.scope name (some (.reference s.heap.records.length))
  allocated := s.bind_allocated name value

end BindingState

variable (property : Val → Key → Option Val)

/-- One line. Reading what is no reference throws, and so does a name that is
not in scope. -/
def execTransferStmt (fuel : Nat) (s : BindingState Val Key) :
    TransferStmt → Option (BindingState Val Key)
  | .constRead name source =>
      match s.scope source with
      | some (.reference ref) => (s.heap.read property fuel ref).map (s.declare name)
      | some (.value _) => none
      | none => none
  | .assignBinding destination captured =>
      match s.scope captured with
      | some (.value value) => some (s.bind destination value)
      | some (.reference _) => none
      | none => none

def execTransfer (fuel : Nat) (s : BindingState Val Key) (statements : List TransferStmt) :
    Option (BindingState Val Key) :=
  statements.foldlM (execTransferStmt property fuel) s

/-- What a variable reads as within some fuel. -/
def BindingState.ReadsWithin (s : BindingState Val Key) (fuel : Nat) (name : String) (value : Val) : Prop :=
  ∃ ref, s.scope name = some (.reference ref) ∧ s.heap.read property fuel ref = some value

/-- The value of a program local. -/
def BindingState.Holds (names : JsNames) (s : BindingState Val Key) (l : LocalId) (value : Val) : Prop :=
  ∃ name fuel, names.localNameById l = some name ∧ s.ReadsWithin property fuel name value

end Running

/-! ## What is emitted -/

/-- The names of one argument: the constant, the source and the destination. -/
structure ArgumentNames where
  captured : String
  source : String
  destination : String

def ArgumentNames.capture (row : ArgumentNames) : TransferStmt := .constRead row.captured row.source

def ArgumentNames.assign (row : ArgumentNames) : TransferStmt :=
  .assignBinding row.destination row.captured

structure NamedAs (names : JsNames) (argument : HirJumpArgument) (row : ArgumentNames) : Prop where
  source : names.localNameById argument.source = some row.source
  destination : names.localNameById argument.destination = some row.destination

/-- Every local of the arguments has a name. -/
def Named (names : JsNames) (args : List HirJumpArgument) : Prop :=
  ∀ a ∈ args, (names.localNameById a.source).isSome ∧ (names.localNameById a.destination).isSome

theorem localName_ok {names : JsNames} {l : LocalId} {name : String}
    (h : names.localNameById l = some name) : localName names l = .ok name := by
  rw [localName, h]

theorem jumpArgStem_valid : ∀ ch ∈ "_jump_arg".toList, isIdentifierPart ch = true :=
  List.all_eq_true.mp rfl

theorem captureArguments_ok {names : JsNames} {args : List HirJumpArgument}
    (h : Named names args) :
    ∃ rows names', captureArguments names args =
        .ok (rows.map ArgumentNames.capture, rows.map ArgumentNames.captured, names') ∧
      names'.localNameById = names.localNameById ∧
      List.Forall₂ (NamedAs names) args rows ∧ (rows.map ArgumentNames.captured).Nodup ∧
      ∀ row ∈ rows, row.captured ∉ names.usedIdentifiers := by
  induction args generalizing names with
  | nil =>
      exact ⟨[], names, rfl, rfl, .nil, List.nodup_nil, fun _ hrow => absurd hrow List.not_mem_nil⟩
  | cons argument rest ih =>
      obtain ⟨hsource, hdestination⟩ := h argument List.mem_cons_self
      obtain ⟨source, hsource⟩ := Option.isSome_iff_exists.1 hsource
      obtain ⟨destination, hdestination⟩ := Option.isSome_iff_exists.1 hdestination
      have hnew := names.nextTempIdentifier_notMem jumpArgStem_valid
      obtain ⟨rows, names', hrun, hlocals, hforall, hnodup, hfresh⟩ :=
        @ih (names.nextTempIdentifier jumpArgStem).2 fun a ha => h a (List.mem_cons_of_mem _ ha)
      have hunused : ∀ row ∈ rows, row.captured ≠ (names.nextTempIdentifier jumpArgStem).1 ∧
          row.captured ∉ names.usedIdentifiers := by
        intro row hrow
        have hrow' := hfresh row hrow
        rw [JsNames.nextTempIdentifier_used, List.mem_cons, not_or] at hrow'
        exact hrow'
      refine ⟨⟨(names.nextTempIdentifier jumpArgStem).1, source, destination⟩ :: rows, names',
        ?_, hlocals, ?_, ?_, ?_⟩
      · rw [captureArguments, localName_ok hsource, ok_bind]
        show captureArguments (names.nextTempIdentifier jumpArgStem).2 rest >>= _ = _
        rw [hrun]
        rfl
      · refine .cons ⟨hsource, hdestination⟩ (hforall.imp ?_)
        intro a row hnamed
        exact ⟨hnamed.source, hnamed.destination⟩
      · rw [List.map_cons, List.nodup_cons]
        refine ⟨?_, hnodup⟩
        intro hmem
        obtain ⟨row, hrow, heq⟩ := List.mem_map.1 hmem
        exact (hunused row hrow).1 heq
      · intro row hrow
        rcases List.mem_cons.1 hrow with rfl | hrest
        · exact hnew
        · exact (hunused row hrest).2

theorem assignArguments_ok {names names' : JsNames} {args : List HirJumpArgument}
    {rows : List ArgumentNames} (hlocals : names'.localNameById = names.localNameById)
    (hforall : List.Forall₂ (NamedAs names) args rows) :
    assignArguments names' (args.zip (rows.map ArgumentNames.captured)) =
      .ok (rows.map ArgumentNames.assign) := by
  induction hforall with
  | nil => rfl
  | @cons argument row rest later hnamed _ ih =>
      refine mapM_cons_ok.2 ⟨row.assign, later.map ArgumentNames.assign, ?_, ih, rfl⟩
      have hname : names'.localNameById argument.destination = some row.destination := by
        rw [hlocals]
        exact hnamed.destination
      show (localName names' argument.destination >>= _) = _
      rw [localName_ok hname]
      rfl

/-- A transfer between named locals is emitted: all reads, under new names, and
then all bindings. -/
theorem emitJumpArgumentTransfer_ok {names : JsNames} {args : List HirJumpArgument}
    (h : Named names args) :
    ∃ rows names', emitJumpArgumentTransfer names args =
        .ok (rows.map ArgumentNames.capture ++ rows.map ArgumentNames.assign, names') ∧
      List.Forall₂ (NamedAs names) args rows ∧ (rows.map ArgumentNames.captured).Nodup ∧
      ∀ row ∈ rows, row.captured ∉ names.usedIdentifiers := by
  obtain ⟨rows, names', hrun, hlocals, hforall, hnodup, hfresh⟩ := captureArguments_ok h
  cases args with
  | nil =>
      cases hforall
      exact ⟨[], names, rfl, .nil, List.nodup_nil, fun _ hrow => absurd hrow List.not_mem_nil⟩
  | cons argument rest =>
      refine ⟨rows, names', ?_, hforall, hnodup, hfresh⟩
      rw [emitJumpArgumentTransfer, List.isEmpty_cons, if_neg Bool.false_ne_true, hrun, ok_bind]
      show (assignArguments names' _ >>= _) = _
      rw [assignArguments_ok hlocals hforall]
      rfl

/-! ## What the lines do -/

section Execution

variable {Val Key : Type} {property : Val → Key → Option Val} {rows : List ArgumentNames}
  {s s' : BindingState Val Key} {fuel : Nat}

theorem execTransfer_cons (statement : TransferStmt) (rest : List TransferStmt) :
    execTransfer property fuel s (statement :: rest) =
      (execTransferStmt property fuel s statement).bind
        fun next => execTransfer property fuel next rest := rfl

theorem execTransfer_append (first later : List TransferStmt) :
    execTransfer property fuel s (first ++ later) =
      (execTransfer property fuel s first).bind
        fun next => execTransfer property fuel next later :=
  List.foldlM_append

theorem execTransferStmt_capture {name source : String} :
    execTransferStmt property fuel s (.constRead name source) = some s' ↔
      ∃ value, s.ReadsWithin property fuel source value ∧ s' = s.declare name value := by
  rw [execTransferStmt]
  constructor
  · intro h
    split at h
    · rename_i ref href
      obtain ⟨value, hvalue, heq⟩ := Option.map_eq_some_iff.1 h
      exact ⟨value, ⟨ref, href, hvalue⟩, heq.symm⟩
    · cases h
    · cases h
  · intro h
    obtain ⟨value, ⟨ref, href, hvalue⟩, heq⟩ := h
    simp [href, hvalue, heq]

theorem readsWithin_inj {name : String} {value value' : Val}
    (h : s.ReadsWithin property fuel name value) (h' : s.ReadsWithin property fuel name value') :
    value = value' := by
  obtain ⟨ref, href, hread⟩ := h
  obtain ⟨ref', href', hread'⟩ := h'
  rw [href] at href'
  cases href'
  rw [hread] at hread'
  cases hread'
  rfl

theorem readsWithin_declare {name source : String} (hne : source ≠ name) (captured value : Val) :
    (s.declare name captured).ReadsWithin property fuel source value ↔
      s.ReadsWithin property fuel source value := by
  simp [BindingState.ReadsWithin, BindingState.declare, Function.update_of_ne hne]

/-- What the captures leave: constants with the values of the sources, and
everything else as it was. -/
structure Captured (property : Val → Key → Option Val) (fuel : Nat) (rows : List ArgumentNames)
    (s s' : BindingState Val Key) : Prop where
  heap : s'.heap = s.heap
  others : ∀ name, name ∉ rows.map ArgumentNames.captured → s'.scope name = s.scope name
  values : ∀ row ∈ rows, ∃ value, s.ReadsWithin property fuel row.source value ∧
    s'.scope row.captured = some (.value value)

/-- The captures run exactly where every source can be read. -/
theorem execTransfer_captures (hnodup : (rows.map ArgumentNames.captured).Nodup)
    (hfresh : ∀ row ∈ rows, ∀ other ∈ rows, row.source ≠ other.captured) :
    (∃ s', execTransfer property fuel s (rows.map ArgumentNames.capture) = some s') ↔
      ∀ row ∈ rows, ∃ value, s.ReadsWithin property fuel row.source value := by
  induction rows generalizing s with
  | nil => exact ⟨fun _ _ hrow => absurd hrow List.not_mem_nil, fun _ => ⟨s, rfl⟩⟩
  | cons row rest ih =>
      rw [List.map_cons, List.nodup_cons] at hnodup
      have hrest : ∀ row ∈ rest, ∀ other ∈ rest, row.source ≠ other.captured :=
        fun r hr o ho => hfresh r (List.mem_cons_of_mem _ hr) o (List.mem_cons_of_mem _ ho)
      have hsame : ∀ (value : Val), ∀ other ∈ rest, ∀ v,
          (s.declare row.captured value).ReadsWithin property fuel other.source v ↔
            s.ReadsWithin property fuel other.source v := by
        intro value other hother v
        exact readsWithin_declare
          (hfresh other (List.mem_cons_of_mem _ hother) row List.mem_cons_self) value v
      constructor
      · intro h
        obtain ⟨s', hrun⟩ := h
        rw [List.map_cons, execTransfer_cons] at hrun
        obtain ⟨next, hfirst, hlater⟩ := Option.bind_eq_some_iff.1 hrun
        obtain ⟨value, hvalue, rfl⟩ := execTransferStmt_capture.1 hfirst
        intro other hother
        rcases List.mem_cons.1 hother with rfl | hmem
        · exact ⟨value, hvalue⟩
        · obtain ⟨v, hv⟩ := (ih hnodup.2 hrest).1 ⟨s', hlater⟩ other hmem
          exact ⟨v, (hsame value other hmem v).1 hv⟩
      · intro h
        obtain ⟨value, hvalue⟩ := h row List.mem_cons_self
        have hnext : execTransferStmt property fuel s row.capture =
            some (s.declare row.captured value) := execTransferStmt_capture.2 ⟨value, hvalue, rfl⟩
        obtain ⟨s', hrun⟩ := (ih (s := s.declare row.captured value) hnodup.2 hrest).2 <| by
          intro other hother
          obtain ⟨v, hv⟩ := h other (List.mem_cons_of_mem _ hother)
          exact ⟨v, (hsame value other hother v).2 hv⟩
        exact ⟨s', by rw [List.map_cons, execTransfer_cons, hnext, Option.bind_some, hrun]⟩

theorem captured_of_exec (hnodup : (rows.map ArgumentNames.captured).Nodup)
    (hfresh : ∀ row ∈ rows, ∀ other ∈ rows, row.source ≠ other.captured)
    (h : execTransfer property fuel s (rows.map ArgumentNames.capture) = some s') :
    Captured property fuel rows s s' := by
  induction rows generalizing s with
  | nil =>
      cases h
      exact ⟨rfl, fun _ _ => rfl, fun _ hrow => absurd hrow List.not_mem_nil⟩
  | cons row rest ih =>
      rw [List.map_cons, List.nodup_cons] at hnodup
      rw [List.map_cons, execTransfer_cons] at h
      obtain ⟨next, hfirst, hlater⟩ := Option.bind_eq_some_iff.1 h
      obtain ⟨value, hvalue, rfl⟩ := execTransferStmt_capture.1 hfirst
      have hrest := ih hnodup.2
        (fun r hr o ho => hfresh r (List.mem_cons_of_mem _ hr) o (List.mem_cons_of_mem _ ho)) hlater
      refine ⟨hrest.heap, ?_, ?_⟩
      · intro name hname
        rw [List.map_cons, List.mem_cons, not_or] at hname
        rw [hrest.others name hname.2]
        exact Function.update_of_ne hname.1 ..
      · intro other hother
        rcases List.mem_cons.1 hother with rfl | hmem
        · refine ⟨value, hvalue, ?_⟩
          rw [hrest.others _ hnodup.1]
          exact Function.update_self ..
        · obtain ⟨v, hv, hscope⟩ := hrest.values other hmem
          refine ⟨v, (readsWithin_declare ?_ value v).1 hv, hscope⟩
          exact hfresh other (List.mem_cons_of_mem _ hmem) row List.mem_cons_self

/-- What the assignments leave: fresh slots with the captured values. -/
structure Assigned (rows : List ArgumentNames) (s s' : BindingState Val Key) : Prop where
  heap : s.heap.Extends s'.heap
  others : ∀ name, name ∉ rows.map ArgumentNames.destination → s'.scope name = s.scope name
  values : ∀ row ∈ rows, ∀ value, s.scope row.captured = some (.value value) →
    ∃ ref, s'.scope row.destination = some (.reference ref) ∧
      s'.heap.records[ref]? = some (.slot value)

theorem bind_slot (s : BindingState Val Key) (name : String) (value : Val) :
    (s.bind name value).heap.records[s.heap.records.length]? = some (.slot value) := by
  show (s.heap.records ++ [_])[s.heap.records.length]? = _
  rw [List.getElem?_append_right (Nat.le_refl _), Nat.sub_self]
  rfl

theorem execTransfer_assigns (hnodup : (rows.map ArgumentNames.destination).Nodup)
    (hfresh : ∀ row ∈ rows, ∀ other ∈ rows, row.captured ≠ other.destination)
    (hvalues : ∀ row ∈ rows, ∃ value, s.scope row.captured = some (.value value)) :
    ∃ s', execTransfer property fuel s (rows.map ArgumentNames.assign) = some s' ∧
      Assigned rows s s' := by
  induction rows generalizing s with
  | nil => exact ⟨s, rfl, .refl _, fun _ _ => rfl, fun _ hrow => absurd hrow List.not_mem_nil⟩
  | cons row rest ih =>
      rw [List.map_cons, List.nodup_cons] at hnodup
      obtain ⟨value, hvalue⟩ := hvalues row List.mem_cons_self
      have hkeep : ∀ other ∈ rest,
          (s.bind row.destination value).scope other.captured = s.scope other.captured :=
        fun other hother => Function.update_of_ne
          (hfresh other (List.mem_cons_of_mem _ hother) row List.mem_cons_self) ..
      obtain ⟨s', hrun, hassigned⟩ := ih (s := s.bind row.destination value) hnodup.2
        (fun r hr o ho => hfresh r (List.mem_cons_of_mem _ hr) o (List.mem_cons_of_mem _ ho)) <| by
          intro other hother
          rw [hkeep other hother]
          exact hvalues other (List.mem_cons_of_mem _ hother)
      have hfirst : execTransferStmt property fuel s row.assign =
          some (s.bind row.destination value) := by
        rw [ArgumentNames.assign, execTransferStmt, hvalue]
      refine ⟨s', ?_, (s.heap.extends_binding value).trans hassigned.heap, ?_, ?_⟩
      · rw [List.map_cons, execTransfer_cons, hfirst, Option.bind_some, hrun]
      · intro name hname
        rw [List.map_cons, List.mem_cons, not_or] at hname
        rw [hassigned.others name hname.2]
        exact Function.update_of_ne hname.1 ..
      · intro other hother v hv
        rcases List.mem_cons.1 hother with rfl | hmem
        · rw [hvalue] at hv
          cases hv
          refine ⟨s.heap.records.length, ?_, ?_⟩
          · rw [hassigned.others _ hnodup.1]
            exact Function.update_self ..
          · rw [hassigned.heap.getElem? ((s.bind _ value).allocated _ _ (Function.update_self ..))]
            exact bind_slot s _ value
        · exact hassigned.values other hmem v ((hkeep other hmem).trans hv)

theorem readsWithin_mono {more : Nat} {name : String} {value : Val}
    (h : s.ReadsWithin property fuel name value) (hle : fuel ≤ more) :
    s.ReadsWithin property more name value := by
  obtain ⟨ref, href, hread⟩ := h
  exact ⟨ref, href, BindingHeap.read_mono hread hle⟩

theorem exists_fuel (h : ∀ row ∈ rows, ∃ fuel value,
    s.ReadsWithin property fuel row.source value) :
    ∃ fuel, ∀ row ∈ rows, ∃ value, s.ReadsWithin property fuel row.source value := by
  induction rows with
  | nil => exact ⟨0, fun _ hrow => absurd hrow List.not_mem_nil⟩
  | cons row rest ih =>
      obtain ⟨fuel, value, hvalue⟩ := h row List.mem_cons_self
      obtain ⟨more, hmore⟩ := ih fun other hother => h other (List.mem_cons_of_mem _ hother)
      refine ⟨max fuel more, ?_⟩
      intro other hother
      rcases List.mem_cons.1 hother with rfl | hmem
      · exact ⟨value, readsWithin_mono hvalue (Nat.le_max_left ..)⟩
      · obtain ⟨v, hv⟩ := hmore other hmem
        exact ⟨v, readsWithin_mono hv (Nat.le_max_right ..)⟩

theorem holds_iff {names : JsNames} {l : LocalId} {name : String}
    (h : names.localNameById l = some name) (value : Val) :
    s.Holds property names l value ↔ ∃ fuel, s.ReadsWithin property fuel name value := by
  constructor
  · intro hv
    obtain ⟨name', fuel, hname, hreads⟩ := hv
    rw [h] at hname
    cases hname
    exact ⟨fuel, hreads⟩
  · intro hv
    obtain ⟨fuel, hreads⟩ := hv
    exact ⟨name, fuel, h, hreads⟩

end Execution

/-! ## The transfer as an assignment -/

section Assignment

variable {names : JsNames} {args : List HirJumpArgument} {rows : List ArgumentNames}

theorem source_fresh (hforall : List.Forall₂ (NamedAs names) args rows)
    (hfresh : ∀ row ∈ rows, row.captured ∉ names.usedIdentifiers) :
    ∀ row ∈ rows, ∀ other ∈ rows, row.source ≠ other.captured := by
  intro row hrow other hother heq
  obtain ⟨a, -, hnamed⟩ := forall₂_exists_left hforall hrow
  exact hfresh other hother (heq ▸ names.names_used _ _ hnamed.source)

theorem destination_fresh (hforall : List.Forall₂ (NamedAs names) args rows)
    (hfresh : ∀ row ∈ rows, row.captured ∉ names.usedIdentifiers) :
    ∀ row ∈ rows, ∀ other ∈ rows, row.captured ≠ other.destination := by
  intro row hrow other hother heq
  obtain ⟨a, -, hnamed⟩ := forall₂_exists_left hforall hother
  exact hfresh row hrow (heq ▸ names.names_used _ _ hnamed.destination)

theorem destinations_nodup (hforall : List.Forall₂ (NamedAs names) args rows)
    (hdistinct : (args.map (·.destination)).Nodup) :
    (rows.map ArgumentNames.destination).Nodup := by
  induction hforall with
  | nil => exact List.nodup_nil
  | @cons a row rest later hnamed hrest ih =>
      rw [List.map_cons, List.nodup_cons] at hdistinct ⊢
      refine ⟨?_, ih hdistinct.2⟩
      intro hmem
      obtain ⟨other, hother, heq⟩ := List.mem_map.1 hmem
      obtain ⟨b, hb, hnamed'⟩ := forall₂_exists_left hrest hother
      have hsame : b.destination = a.destination := by
        refine names.names_inj _ _ other.destination hnamed'.destination ?_
        rw [heq]
        exact hnamed.destination
      exact hdistinct.1 (List.mem_map.2 ⟨b, hb, hsame⟩)

variable {Val Key : Type} {property : Val → Key → Option Val} {s mid s' : BindingState Val Key}
  {fuel : Nat}

theorem readable_of_holds (hforall : List.Forall₂ (NamedAs names) args rows)
    (hall : ∀ a ∈ args, ∃ value, s.Holds property names a.source value) :
    ∀ row ∈ rows, ∃ fuel value, s.ReadsWithin property fuel row.source value := by
  intro row hrow
  obtain ⟨a, ha, hnamed⟩ := forall₂_exists_left hforall hrow
  obtain ⟨value, hvalue⟩ := hall a ha
  obtain ⟨fuel, hreads⟩ := (holds_iff hnamed.source value).1 hvalue
  exact ⟨fuel, value, hreads⟩

theorem scope_kept (hforall : List.Forall₂ (NamedAs names) args rows)
    (hfresh : ∀ row ∈ rows, row.captured ∉ names.usedIdentifiers)
    (hcaptured : Captured property fuel rows s mid) (hassigned : Assigned rows mid s')
    {l : LocalId} {name : String} (hname : names.localNameById l = some name)
    (hl : l ∉ args.map (·.destination)) : s'.scope name = s.scope name := by
  rw [hassigned.others, hcaptured.others]
  · intro hmem
    obtain ⟨row, hrow, heq⟩ := List.mem_map.1 hmem
    exact hfresh row hrow (heq ▸ names.names_used l name hname)
  · intro hmem
    obtain ⟨row, hrow, heq⟩ := List.mem_map.1 hmem
    obtain ⟨a, ha, hnamed⟩ := forall₂_exists_left hforall hrow
    have hsame : a.destination = l :=
      names.names_inj _ _ name (heq ▸ hnamed.destination) hname
    exact hl (List.mem_map.2 ⟨a, ha, hsame⟩)

theorem simultaneous_of_captured_assigned (hforall : List.Forall₂ (NamedAs names) args rows)
    (hfresh : ∀ row ∈ rows, row.captured ∉ names.usedIdentifiers)
    (hcaptured : Captured property fuel rows s mid) (hassigned : Assigned rows mid s') :
    SimultaneousAssignment (args.map fun a => (a.destination, a.source))
      (s.Holds property names) (s'.Holds property names) := by
  constructor
  · intro p hp v
    obtain ⟨a, ha, rfl⟩ := List.mem_map.1 hp
    obtain ⟨row, hrow, hnamed⟩ := forall₂_exists_right hforall ha
    obtain ⟨value, hvalue, hscope⟩ := hcaptured.values row hrow
    obtain ⟨ref, href, hslot⟩ := hassigned.values row hrow value hscope
    have hafter : s'.ReadsWithin property 1 row.destination value :=
      ⟨ref, href, BindingHeap.read_slot hslot 0⟩
    rw [holds_iff hnamed.destination, holds_iff hnamed.source]
    -- Both sides have exactly the captured value.
    constructor
    · intro h
      obtain ⟨more, hmore⟩ := h
      have heq := readsWithin_inj (readsWithin_mono hmore (Nat.le_max_left more 1))
        (readsWithin_mono hafter (Nat.le_max_right more 1))
      rw [heq]
      exact ⟨fuel, hvalue⟩
    · intro h
      obtain ⟨more, hmore⟩ := h
      have heq := readsWithin_inj (readsWithin_mono hmore (Nat.le_max_left more fuel))
        (readsWithin_mono hvalue (Nat.le_max_right more fuel))
      rw [heq]
      exact ⟨1, hafter⟩
  · intro l hl v
    rw [List.map_map] at hl
    cases hname : names.localNameById l with
    | none => simp [BindingState.Holds, hname]
    | some name =>
        have hscope := scope_kept hforall hfresh hcaptured hassigned hname hl
        have hextends : s.heap.Extends s'.heap := hcaptured.heap ▸ hassigned.heap
        rw [holds_iff hname, holds_iff hname]
        refine exists_congr fun more => exists_congr fun ref => ?_
        rw [hscope]
        refine and_congr_right fun href => ?_
        rw [hextends.read (s.allocated name ref href)]

/-- The lines of a transfer run exactly where every source has a value, and
then assign the arguments at once. What is read through any reference from
before is what it was. -/
theorem emitJumpArgumentTransfer_assigns (h : Named names args)
    (hdistinct : (args.map (·.destination)).Nodup) :
    ∃ statements names', emitJumpArgumentTransfer names args = .ok (statements, names') ∧
      ∀ {Val Key : Type} (property : Val → Key → Option Val) (s : BindingState Val Key),
        ((∃ fuel s', execTransfer property fuel s statements = some s') ↔
          ∀ a ∈ args, ∃ value, s.Holds property names a.source value) ∧
        ∀ fuel s', execTransfer property fuel s statements = some s' →
          s.heap.Extends s'.heap ∧
          SimultaneousAssignment (args.map fun a => (a.destination, a.source))
            (s.Holds property names) (s'.Holds property names) := by
  obtain ⟨rows, names', hemit, hforall, hnodup, hfresh⟩ := emitJumpArgumentTransfer_ok h
  refine ⟨_, names', hemit, ?_⟩
  intro Val Key property s
  have hsources := source_fresh hforall hfresh
  have hassigns : ∀ fuel mid, Captured property fuel rows s mid →
      ∃ s', execTransfer property fuel mid (rows.map ArgumentNames.assign) = some s' ∧
        Assigned rows mid s' := by
    intro fuel mid hcaptured
    refine execTransfer_assigns (destinations_nodup hforall hdistinct)
      (destination_fresh hforall hfresh) ?_
    intro row hrow
    obtain ⟨value, -, hscope⟩ := hcaptured.values row hrow
    exact ⟨value, hscope⟩
  constructor
  · constructor
    · intro hrun
      obtain ⟨fuel, s', hrun⟩ := hrun
      rw [execTransfer_append] at hrun
      obtain ⟨mid, hmid, -⟩ := Option.bind_eq_some_iff.1 hrun
      intro a ha
      obtain ⟨row, hrow, hnamed⟩ := forall₂_exists_right hforall ha
      obtain ⟨value, hvalue⟩ :=
        (execTransfer_captures hnodup hsources).1 ⟨mid, hmid⟩ row hrow
      exact ⟨value, (holds_iff hnamed.source value).2 ⟨fuel, hvalue⟩⟩
    · intro hall
      obtain ⟨fuel, hfuel⟩ := exists_fuel (readable_of_holds hforall hall)
      obtain ⟨mid, hmid⟩ := (execTransfer_captures hnodup hsources).2 hfuel
      obtain ⟨s', hlater, -⟩ := hassigns fuel mid (captured_of_exec hnodup hsources hmid)
      exact ⟨fuel, s', by rw [execTransfer_append, hmid, Option.bind_some, hlater]⟩
  · intro fuel s' hrun
    rw [execTransfer_append] at hrun
    obtain ⟨mid, hmid, hlater⟩ := Option.bind_eq_some_iff.1 hrun
    have hcaptured := captured_of_exec hnodup hsources hmid
    obtain ⟨s'', hrun', hassigned⟩ := hassigns fuel mid hcaptured
    rw [hlater] at hrun'
    cases hrun'
    exact ⟨hcaptured.heap ▸ hassigned.heap,
      simultaneous_of_captured_assigned hforall hfresh hcaptured hassigned⟩

end Assignment

end Moth.Js
